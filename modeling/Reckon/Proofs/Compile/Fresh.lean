import Reckon.Proofs.Compile.Numbering

/-!
# Names that are new

A program can be composed with labels and variables there already, and some of
them can have the very names that are made. So it is not known from the start
how the made names are numbered, and the numbers can have gaps. Still no name
is made twice.

The number of a made name is the least one above the number of names there are
that is not taken (`Stock.isLeast_number`). The composer writes down what it
has made (`Stock.has_make`) and never drops a name, so what is made later is
above that count as well and was not taken before either. It cannot be below
the number made first, since that one was the least, and it cannot be the same,
which is taken by then (`Stock.number_lt`). Hence the numbers go up, across all
gaps.
-/

namespace Reckon

open Composer (labelName limitName freeNumber)

/-! ## What names are made for -/

/-- What a name is made for. -/
inductive Purpose where
  | label
  | limit
deriving DecidableEq, Repr

namespace Purpose

/-- The made name with a number. -/
def name : Purpose → Nat → String
  | label => labelName
  | limit => limitName

/-- A made name tells its number and what it was made for. -/
theorem name_inj {p q : Purpose} {n m : Nat} :
    p.name n = q.name m ↔ p = q ∧ n = m := by
  have happart : ∀ a b, labelName a ≠ limitName b := by
    intro a b h
    have hsecond := congrArg (fun x => x.toList[1]?) h
    simp [labelName, limitName] at hsecond
  constructor
  · intro h
    cases p <;> cases q
    · exact ⟨rfl, labelName_injective h⟩
    · exact absurd h (happart n m)
    · exact absurd h.symm (happart m n)
    · exact ⟨rfl, limitName_injective h⟩
  · rintro ⟨rfl, rfl⟩
    rfl

end Purpose

/-! ## Making one name -/

/-- Makes a name. -/
def Composer.make (c : Composer) : Purpose → String × Composer
  | .label => c.newLabel
  | .limit => c.newLimit

namespace Stock

/-- Whether there is a label or a variable of a name. -/
def has (k : Stock) : Purpose → String → Bool
  | .label, x => k.labels.contains x
  | .limit, x => k.store.contains x

/-- How many labels or variables there are. -/
def count (k : Stock) : Purpose → Nat
  | .label => k.labels.length
  | .limit => k.store.size

/-- The name that a composer makes, and the names that it has then. -/
def make (k : Stock) (p : Purpose) : String × Stock :=
  let (x, c) := k.composer.make p
  (x, c.stock)

/-- The number of the next name. -/
def number (k : Stock) (p : Purpose) : Nat :=
  freeNumber (fun n => k.has p (p.name n)) (k.count p) (k.count p + 1)

variable {k : Stock} {p q : Purpose} {x : String} {n : Nat}

theorem make_fst (k : Stock) (p : Purpose) :
    (k.make p).1 = p.name (k.number p) := by
  cases p <;> rfl

/-- A label is put behind the others. -/
theorem make_label (k : Stock) :
    (k.make .label).2 = { k with labels := k.labels ++ [k.label] } :=
  rfl

/-- A variable for a limit is set to zero. -/
theorem make_limit (k : Stock) :
    (k.make .limit).2 = { k with store := k.store.set k.limit .zero } :=
  rfl

/-- There are as many names as are counted. -/
theorem exists_names (k : Stock) (p : Purpose) : ∃ names : List String,
    names.length = k.count p ∧ ∀ x, k.has p x = names.contains x := by
  cases p with
  | label => exact ⟨k.labels, rfl, fun _ => rfl⟩
  | limit =>
      refine ⟨k.store.entries.map Prod.fst, List.length_map _, fun x => ?_⟩
      rw [Bool.eq_iff_iff]
      simp [has, Store.contains, Store.get?, List.lookup_isSome_iff]

/-- The next name has the least number above the count that is free. -/
theorem isLeast_number (k : Stock) (p : Purpose) :
    IsLeast {n | k.count p < n ∧ k.has p (p.name n) = false} (k.number p) := by
  obtain ⟨names, hlength, hnames⟩ := k.exists_names p
  obtain ⟨n, hlower, hupper, hfree⟩ :=
    exists_free (fun h => (Purpose.name_inj.mp h).2) names (k.count p + 1)
  rw [hlength] at hupper
  exact isLeast_freeNumber hlower hupper ((hnames _).trans hfree)

theorem has_number (k : Stock) (p : Purpose) :
    k.has p (p.name (k.number p)) = false :=
  (k.isLeast_number p).1.2

/-- A name more is there, and all others as before. -/
theorem has_make : (k.make p).2.has q x = true ↔
    k.has q x = true ∨ p = q ∧ x = p.name (k.number p) := by
  rw [← make_fst]
  cases p with
  | label =>
      rw [make_label]
      cases q <;> simp [has, make, Composer.make, label]
  | limit =>
      have hname : (k.make .limit).1 = k.limit := rfl
      rw [make_limit, hname]
      cases q with
      | label => simp [has]
      | limit =>
          simp only [has, Store.contains, Store.get?_set, true_and]
          split <;> simp [*]

theorem count_le_make : k.count q ≤ (k.make p).2.count q := by
  cases p with
  | label =>
      rw [make_label]
      cases q <;> simp [count]
  | limit =>
      rw [make_limit]
      have hfree : k.store.contains k.limit = false := k.has_number .limit
      have hsize : (k.store.set k.limit .zero).size = k.store.size + 1 :=
        Store.size_set hfree
      cases q <;> simp [count, hsize]

/-- What is free and above the count after a name was made was so before. -/
theorem fresh_of_make (hcount : (k.make p).2.count q < n)
    (hfree : (k.make p).2.has q x = false) :
    k.count q < n ∧ k.has q x = false := by
  rw [Bool.eq_false_iff] at hfree ⊢
  exact ⟨Nat.lt_of_le_of_lt count_le_make hcount,
    fun h => hfree (has_make.mpr (.inl h))⟩

/-- A later name has a higher number, as the first had the least. -/
theorem number_lt (hcount : (k.make p).2.count p < n)
    (hfree : (k.make p).2.has p (p.name n) = false) : k.number p < n := by
  have hle : k.number p ≤ n :=
    (k.isLeast_number p).2 (fresh_of_make hcount hfree)
  refine Nat.lt_of_le_of_ne hle ?_
  rintro rfl
  exact Bool.eq_false_iff.mp hfree (has_make.mpr (.inr ⟨rfl, rfl⟩))

/-! ## Making many names -/

/-- Makes names one after the other. -/
def makeAll (k : Stock) : List Purpose → List String × Stock
  | [] => ([], k)
  | p :: rest =>
    let (x, k) := k.make p
    let (names, k) := k.makeAll rest
    (x :: names, k)

theorem makeAll_append (k : Stock) (a b : List Purpose) :
    (k.makeAll (a ++ b)).2 = ((k.makeAll a).2.makeAll b).2 := by
  induction a generalizing k with
  | nil => rfl
  | cons p rest ih => exact ih _

/-- The numbers of names that are made one after the other. -/
def numbers (k : Stock) : List Purpose → List (Purpose × Nat)
  | [] => []
  | p :: rest => (p, k.number p) :: (k.make p).2.numbers rest

theorem numbers_fst (k : Stock) (purposes : List Purpose) :
    (k.numbers purposes).map Prod.fst = purposes := by
  induction purposes generalizing k with
  | nil => rfl
  | cons p rest ih => exact congrArg (p :: ·) (ih _)

theorem makeAll_fst (k : Stock) (purposes : List Purpose) :
    (k.makeAll purposes).1 =
      (k.numbers purposes).map fun (p, n) => p.name n := by
  induction purposes generalizing k with
  | nil => rfl
  | cons p rest ih => exact congr (congrArg List.cons (k.make_fst p)) (ih _)

/-- No made name was there, and each number is above the count. -/
theorem numbers_fresh {purposes : List Purpose}
    (h : (q, n) ∈ k.numbers purposes) :
    k.count q < n ∧ k.has q (q.name n) = false := by
  induction purposes generalizing k with
  | nil => cases h
  | cons p rest ih =>
      rcases List.mem_cons.mp h with he | hrest
      · cases he
        exact (k.isLeast_number _).1
      · obtain ⟨hcount, hfree⟩ := ih hrest
        exact fresh_of_make hcount hfree

/-- The numbers of names with one purpose go up. -/
theorem numbers_increase (k : Stock) (purposes : List Purpose) :
    (k.numbers purposes).Pairwise fun (p, n) (q, m) => p = q → n < m := by
  induction purposes generalizing k with
  | nil => exact .nil
  | cons p rest ih =>
      refine List.pairwise_cons.mpr ⟨?_, ih _⟩
      rintro ⟨_, m⟩ hm rfl
      obtain ⟨hcount, hfree⟩ := numbers_fresh hm
      exact number_lt hcount hfree

/-- All made names differ. -/
theorem names_differ (k : Stock) (purposes : List Purpose) :
    (k.numbers purposes).Pairwise fun (p, n) (q, m) =>
      p.name n ≠ q.name m := by
  refine (k.numbers_increase purposes).imp fun {a b} hless he => ?_
  obtain ⟨hpurpose, hnumber⟩ := Purpose.name_inj.mp he
  exact Nat.ne_of_lt (hless hpurpose) hnumber

/-- A name that is made for one of some purposes. -/
def Made (k : Stock) (purposes : List Purpose) (p : Purpose)
    (x : String) : Prop :=
  ∃ n, (p, n) ∈ k.numbers purposes ∧ x = p.name n

/-- In the end there are the names of the start and those that were made. -/
theorem has_makeAll {purposes : List Purpose} :
    (k.makeAll purposes).2.has q x = true ↔
      k.has q x = true ∨ k.Made purposes q x := by
  unfold Made
  induction purposes generalizing k with
  | nil => simp [makeAll, numbers]
  | cons p rest ih =>
      have hrest :
          (k.makeAll (p :: rest)).2 = ((k.make p).2.makeAll rest).2 := rfl
      rw [hrest, ih, has_make, or_assoc, numbers]
      refine or_congr_right ⟨?_, ?_⟩
      · rintro (⟨rfl, hx⟩ | ⟨n, hn, hx⟩)
        · exact ⟨_, List.mem_cons_self, hx⟩
        · exact ⟨n, List.mem_cons_of_mem _ hn, hx⟩
      · rintro ⟨n, hn, hx⟩
        rcases List.mem_cons.mp hn with he | hn
        · cases he
          exact .inl ⟨rfl, hx⟩
        · exact .inr ⟨n, hn, hx⟩

end Stock

end Reckon
