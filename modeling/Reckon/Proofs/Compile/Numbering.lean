import Mathlib.Data.List.Nodup
import Mathlib.Data.List.Perm.Subperm
import Mathlib.Order.Bounds.Defs
import Reckon.Proofs.Compile.Layout

/-!
# Names made from nothing

A program that is compiled by itself starts without any labels and variables, so
the names it makes are known by their numbers. A name with the next number is
never taken, and the search for a free one ends where it begins. With names
numbered like this the code of statements is that of their lines.
-/

namespace Reckon

open Composer (labelName limitName)

/-! ## Names that are free -/

theorem freeNumber_eq {taken : Nat → Bool} {tries first : Nat}
    (h : taken first = false) :
    Composer.freeNumber taken tries first = first := by
  cases tries with
  | zero => rfl
  | succ tries => rw [Composer.freeNumber, if_neg (by simp [h])]

/-- The search gives the first free number if there is one among
those that it tries. -/
theorem isLeast_freeNumber {taken : Nat → Bool} {tries first n : Nat}
    (hfirst : first ≤ n) (htries : n ≤ first + tries) (hn : taken n = false) :
    IsLeast {n | first ≤ n ∧ taken n = false}
      (Composer.freeNumber taken tries first) := by
  induction tries generalizing first with
  | zero =>
      obtain rfl : n = first := by omega
      exact ⟨⟨Nat.le_refl n, hn⟩, fun m hm => hm.1⟩
  | succ tries ih =>
      rw [Composer.freeNumber]
      split
      · next htaken =>
          -- what is free is not the first number, so it is among
          -- those left to try
          have hlater : ∀ m, first ≤ m → taken m = false → first + 1 ≤ m := by
            intro m hle hfree
            refine Nat.lt_of_le_of_ne hle fun he => ?_
            rw [he, hfree] at htaken
            cases htaken
          obtain ⟨⟨hle, hfree⟩, hleast⟩ := ih (hlater n hfirst hn) (by omega)
          exact ⟨⟨Nat.le_of_succ_le hle, hfree⟩,
            fun m hm => hleast ⟨hlater m hm.1 hm.2, hm.2⟩⟩
      · next hfree =>
          exact ⟨⟨Nat.le_refl first, by simpa using hfree⟩, fun m hm => hm.1⟩

/-- Of one number more than there are names the name of one is free. -/
theorem exists_free {name : Nat → String}
    (hname : ∀ {a b}, name a = name b → a = b) (names : List String)
    (first : Nat) :
    ∃ n, first ≤ n ∧ n ≤ first + names.length ∧
      names.contains (name n) = false := by
  by_contra hnone
  let tried := (List.range' first (names.length + 1)).map name
  have htaken : tried ⊆ names := by
    intro x hx
    obtain ⟨n, hn, rfl⟩ := List.mem_map.mp hx
    obtain ⟨hlower, hupper⟩ := List.mem_range'_1.mp hn
    by_contra hfree
    exact hnone ⟨n, hlower, by omega, by simpa using hfree⟩
  have hnodup : tried.Nodup :=
    List.Nodup.map (fun _ _ => hname) List.nodup_range'
  have hlength := (hnodup.subperm htaken).length_le
  rw [List.length_map, List.length_range'] at hlength
  omega

/-- A label that is made is none of those there are. -/
theorem Composer.newLabel_not_mem (c : Composer) : c.newLabel.1 ∉ c.labels := by
  obtain ⟨n, hlower, hupper, hfree⟩ :=
    exists_free labelName_injective c.labels (c.labels.length + 1)
  let taken (n : Nat) : Bool := c.labels.contains (labelName n)
  have hnew :
      taken (freeNumber taken c.labels.length (c.labels.length + 1)) = false :=
    (isLeast_freeNumber hlower hupper hfree).1.2
  exact fun hmem => Bool.eq_false_iff.mp hnew (List.contains_iff_mem.mpr hmem)

theorem Store.size_set {s : Store} {x : String} {value : Single}
    (h : s.contains x = false) : (s.set x value).size = s.size + 1 := by
  have hlength : ∀ entries : List (String × Single), entries.lookup x = none →
      (insertEntry x value entries).length = entries.length + 1 := by
    intro entries
    induction entries with
    | nil => exact fun _ => rfl
    | cons head rest ih =>
        obtain ⟨key, old⟩ := head
        intro hlookup
        rw [lookup_cons_eq_ite] at hlookup
        unfold insertEntry
        split at hlookup
        · cases hlookup
        · next hne =>
            rw [if_neg hne]
            split
            · rfl
            · exact congrArg (· + 1) (ih hlookup)
  have hnone : s.get? x = none := by
    simpa [contains] using h
  exact hlength s.entries hnone

namespace Store

variable {s : Store}

/-- If no limit has a higher number than there are variables, the
next one is free. -/
theorem limit_free (h : ∀ j, s.contains (limitName j) = true → j ≤ s.size) :
    s.contains (limitName (s.size + 1)) = false := by
  rw [Bool.eq_false_iff]
  intro htaken
  have := h _ htaken
  omega

theorem size_set_limit (h : ∀ j, s.contains (limitName j) = true → j ≤ s.size) :
    (s.set (limitName (s.size + 1)) .zero).size = s.size + 1 :=
  size_set (limit_free h)

/-- Taking the next number leaves it so. -/
theorem limit_le (h : ∀ j, s.contains (limitName j) = true → j ≤ s.size)
    (j : Nat) (hj : (s.set (limitName (s.size + 1)) .zero).contains
      (limitName j) = true) : j ≤ s.size + 1 := by
  rw [contains, get?_set] at hj
  split at hj
  · next heq => exact Nat.le_of_eq (limitName_injective heq)
  · exact Nat.le_succ_of_le (h j hj)

end Store

/-- Limits are numbered in the order in which they are made. -/
theorem Composer.newLimit_eq {c : Composer}
    (h : ∀ j, c.store.contains (limitName j) = true → j ≤ c.store.size) :
    c.newLimit = (limitName (c.store.size + 1), { c with
      store := c.store.set (limitName (c.store.size + 1)) .zero }) := by
  unfold newLimit
  dsimp only
  rw [freeNumber_eq (Store.limit_free h)]

/-! ## Counting -/

/-- So many labels and variables have been made, and there are no others. -/
structure Stock.Counts (k : Stock) (n r : Nat) : Prop where
  labels : k.labels = (List.range n).map fun j => labelName (j + 1)
  size : k.store.size = r
  limits : ∀ j, k.store.contains (limitName j) = true → j ≤ r

variable {x : Extent} {k : Stock} {n r : Nat}

namespace Stock.Counts

theorem empty : Counts {} 0 0 := ⟨rfl, rfl, nofun⟩

theorem label_eq (h : Counts k n r) : k.label = labelName (n + 1) := by
  have hfree : k.labels.contains (labelName (n + 1)) = false := by
    rw [h.labels, Bool.eq_false_iff, Ne, List.contains_iff_mem, List.mem_map]
    rintro ⟨j, hj, he⟩
    have := labelName_injective he
    have := List.mem_range.mp hj
    omega
  have hlength : k.labels.length = n := by
    rw [h.labels, List.length_map, List.length_range]
  unfold Stock.label Stock.composer Composer.newLabel
  dsimp only
  rw [hlength, freeNumber_eq hfree]

theorem limit_eq (h : Counts k n r) : k.limit = limitName (r + 1) := by
  have hlimits :
      ∀ j, k.store.contains (limitName j) = true → j ≤ k.store.size :=
    h.size.symm ▸ h.limits
  rw [← h.size]
  exact congrArg Prod.fst (Composer.newLimit_eq (c := k.composer) hlimits)

theorem addLabel (h : Counts k n r) : Counts k.addLabel (n + 1) r := by
  refine { h with labels := ?_ }
  show k.labels ++ [k.label] = _
  rw [h.label_eq, h.labels, List.range_succ, List.map_append]
  rfl

theorem addLimit (h : Counts k n r) : Counts k.addLimit n (r + 1) := by
  have hlimits :
      ∀ j, k.store.contains (limitName j) = true → j ≤ k.store.size :=
    h.size.symm ▸ h.limits
  have hstore :
      k.addLimit.store = k.store.set (limitName (k.store.size + 1)) .zero :=
    congrArg (fun made => made.2.store)
      (Composer.newLimit_eq (c := k.composer) hlimits)
  refine { h with size := ?_, limits := fun j hj => ?_ }
  · rw [hstore, Store.size_set_limit hlimits, h.size]
  · rw [hstore] at hj
    rw [← h.size]
    exact Store.limit_le hlimits j hj

/-- A statement makes as many names as are counted for it. -/
theorem stock (s : Stmt x) : ∀ {k : Stock} {n r : Nat}, Counts k n r →
    Counts (s.stock k) (n + s.made) (r + s.limits) := by
  induction s with
  | assign | transfer => exact id
  | branch c target => exact addLabel
  | loop parameter first last body ih =>
      intro k n r h
      have hbody := ih h.addLimit.addLabel.addLabel
      rwa [Nat.add_right_comm n 2, Nat.add_right_comm r 1] at hbody
  | plain s ih | labelled l s ih | one s ih => exact ih
  | more b s ihb ihs =>
      intro k n r h
      have hmore := ihs (ihb h)
      rwa [Nat.add_assoc, Nat.add_assoc] at hmore

end Stock.Counts

theorem codeOf_chunks_some (s : Stmt .bare) (l : String) :
    codeOf (s.chunks (some l) n r) =
      .place l :: codeOf (s.chunks none n r) := by
  cases s <;> simp [Stmt.chunks, Chunk.items]

/-- The code of lines is that of their statements. -/
theorem Stmt.codeOf_chunks (s : Stmt x) : ∀ {k : Stock} {n r : Nat},
    k.Counts n r → codeOf (s.chunks none n r) = s.items k := by
  induction s with
  | assign | transfer =>
      intro k n r _
      simp [chunks, items, Chunk.items]
  | branch c target =>
      intro k n r h
      simp [chunks, items, Chunk.items, h.label_eq]
  | loop parameter first last body ih =>
      intro k n r h
      simp [chunks, items, Chunk.items, h.limit_eq, h.addLimit.label_eq,
        h.addLimit.addLabel.label_eq, ih h.addLimit.addLabel.addLabel]
  | plain s ih | one s ih => exact ih
  | labelled l s ih =>
      intro k n r h
      rw [chunks, codeOf_chunks_some, ih h, items]
  | more b s ihb ihs =>
      intro k n r h
      rw [chunks, codeOf_append, ihb h, ihs (.stock b h), items]

end Reckon
