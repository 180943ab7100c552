/-!
# Sorting short lists

Insertion into an ordered list, and sorting by it. What the order does not tell
apart keeps its order, since an element goes before the first one that it may
stand before.
-/

namespace Reckon

variable {α : Type}

/-- Inserts an element before the first one that it may stand before. -/
def insertBy (le : α → α → Bool) (x : α) : List α → List α
  | [] => [x]
  | y :: rest => if le x y then x :: y :: rest else y :: insertBy le x rest

/-- Sorts a list, keeping the order of what `le` does not tell apart. -/
def sortBy (le : α → α → Bool) (xs : List α) : List α :=
  xs.foldr (insertBy le) []

theorem insertBy_perm (le : α → α → Bool) (x : α) (xs : List α) :
    (insertBy le x xs).Perm (x :: xs) := by
  induction xs with
  | nil => exact List.Perm.refl _
  | cons y rest ih =>
    unfold insertBy
    split
    · exact List.Perm.refl _
    · exact (ih.cons y).trans (List.Perm.swap x y rest)

theorem sortBy_perm (le : α → α → Bool) (xs : List α) :
    (sortBy le xs).Perm xs := by
  induction xs with
  | nil => exact List.Perm.refl _
  | cons x rest ih => exact (insertBy_perm le x _).trans (ih.cons x)

/-- Sorting loses nothing and adds nothing. -/
@[simp] theorem mem_sortBy {le : α → α → Bool} {x : α} {xs : List α} :
    x ∈ sortBy le xs ↔ x ∈ xs := (sortBy_perm le xs).mem_iff

end Reckon
