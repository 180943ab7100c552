import Reckon.Code.Program

/-!
# Variables

A store holds the current value of every variable by name. Its entries are kept
in the order of the names, which is that of their characters' code points, and
no name occurs twice; so two stores with the same variables and values are
equal.
-/

namespace Reckon

/-- The values of variables, in the order of their names. -/
structure Store where
  entries : List (String × Single)
  ordered : entries.Pairwise (fun a b => a.1 < b.1)
deriving DecidableEq

namespace Store

/-- The store without variables. -/
def empty : Store := ⟨[], List.Pairwise.nil⟩

instance : Inhabited Store := ⟨empty⟩

/-- Puts a value under a name, in place of an older one. -/
def insertEntry (name : String) (value : Single) :
    List (String × Single) → List (String × Single)
  | [] => [(name, value)]
  | (other, old) :: rest =>
    if name = other then (name, value) :: rest
    else if name < other then (name, value) :: (other, old) :: rest
    else (other, old) :: insertEntry name value rest

/-- Inserting brings in no other name. -/
theorem mem_insertEntry {name : String} {value : Single}
    {entries : List (String × Single)} {entry : String × Single}
    (h : entry ∈ insertEntry name value entries) :
    entry = (name, value) ∨ entry ∈ entries := by
  induction entries with
  | nil => exact .inl (List.mem_singleton.1 h)
  | cons head rest ih =>
    unfold insertEntry at h
    split at h
    · exact (List.mem_cons.1 h).imp_right (List.mem_cons_of_mem _)
    · split at h
      · exact List.mem_cons.1 h
      · rcases List.mem_cons.1 h with rfl | later
        · exact .inr List.mem_cons_self
        · exact (ih later).imp_right (List.mem_cons_of_mem _)

/-- Inserting keeps the order of names. -/
theorem ordered_insertEntry {name : String} {value : Single}
    {entries : List (String × Single)}
    (h : entries.Pairwise (fun a b => a.1 < b.1)) :
    (insertEntry name value entries).Pairwise (fun a b => a.1 < b.1) := by
  induction entries with
  | nil => exact List.pairwise_singleton _ _
  | cons head rest ih =>
    obtain ⟨first, later⟩ := List.pairwise_cons.1 h
    unfold insertEntry
    split
    · next same =>
        exact List.pairwise_cons.2 ⟨fun e he => same ▸ first e he, later⟩
    · split
      · next less =>
        refine List.pairwise_cons.2 ⟨fun e he => ?_, h⟩
        rcases List.mem_cons.1 he with rfl | he
        · exact less
        · exact String.lt_trans less (first e he)
      · next differs notLess =>
        refine List.pairwise_cons.2 ⟨fun e he => ?_, ih later⟩
        rcases mem_insertEntry he with rfl | he
        · exact Decidable.byContradiction fun h =>
            differs
              (String.le_antisymm (String.not_lt.1 h) (String.not_lt.1 notLess))
        · exact first e he

/-- Sets a variable, new or not. -/
def set (s : Store) (name : String) (value : Single) : Store :=
  ⟨insertEntry name value s.entries, ordered_insertEntry s.ordered⟩

/-- The value of a variable. -/
def get? (s : Store) (name : String) : Option Single := s.entries.lookup name

/-- Whether there is a variable of a name. -/
def contains (s : Store) (name : String) : Bool := (s.get? name).isSome

/-- Brings in a variable with the value zero, unless it is there. -/
def declare (s : Store) (name : String) : Store :=
  if s.contains name then s else s.set name .zero

/-- Declares every name in a program. -/
def prepare (s : Store) (p : Program) : Store := p.identifiers.foldl declare s

/-- The number of variables. -/
def size (s : Store) : Nat := s.entries.length

/-- The store with some variables set one after the other. -/
def ofList (pairs : List (String × Single)) : Store :=
  pairs.foldl (fun s (name, value) => s.set name value) empty

/-- One line per variable, in the order of the names. -/
def text (s : Store) : String :=
  String.join (s.entries.map fun (name, value) =>
    name ++ " = " ++ value.toText ++ "\n")

theorem lookup_cons_eq_ite (name key : String) (value : Single)
    (rest : List (String × Single)) :
    ((key, value) :: rest).lookup name =
      if name = key then some value else rest.lookup name := by
  rw [List.lookup_cons]
  split
  · next h => rw [if_pos (beq_iff_eq.1 h)]
  · next h => rw [if_neg (beq_eq_false_iff_ne.1 h)]

theorem lookup_insertEntry (name other : String) (value : Single)
    (entries : List (String × Single)) :
    (insertEntry name value entries).lookup other =
      if other = name then some value else entries.lookup other := by
  induction entries with
  | nil => exact lookup_cons_eq_ite other name value []
  | cons head rest ih =>
    obtain ⟨key, old⟩ := head
    unfold insertEntry
    split
    · next same =>
      subst same
      simp only [lookup_cons_eq_ite]
      split <;> rfl
    · split
      · exact lookup_cons_eq_ite other name value _
      · next differs _ =>
        simp only [lookup_cons_eq_ite, ih]
        by_cases h : other = key
        · rw [if_pos h, if_pos h, if_neg fun e => differs (e.symm.trans h)]
        · rw [if_neg h, if_neg h]

/-- What a store holds after a variable is set. -/
@[simp] theorem get?_set (s : Store) (name other : String) (value : Single) :
    (s.set name value).get? other =
      if other = name then some value else s.get? other :=
  lookup_insertEntry name other value s.entries

end Store

end Reckon
