import Reckon.Sorting

/-!
# Sorted lists

What has been sorted is in order, and what the order does not tell apart stands
as it stood before (`sortBy_stable`). Sorting sees no more of the elements than
their order does, so the images of sorted elements are sorted (`map_sortBy`).
-/

namespace Reckon

variable {α β : Type} {le : α → α → Bool} {R : α → α → Prop}
  {xs : List α} {x : α}

/-- An element that came before all others goes in front of those of its own
rank. -/
theorem insertBy_stable (htotal : ∀ a b, le a b = true ∨ le b a = true)
    (htrans : ∀ a b c, le a b = true → le b c = true → le a c = true)
    (hx : ∀ y ∈ xs, R x y)
    (h : xs.Pairwise fun a b => le a b = true ∧ (le b a = true → R a b)) :
    (insertBy le x xs).Pairwise fun a b =>
    le a b = true ∧ (le b a = true → R a b) := by
  induction xs with
  | nil => exact List.pairwise_singleton _ _
  | cons y rest ih =>
      obtain ⟨hfirst, hrest⟩ := List.pairwise_cons.mp h
      unfold insertBy
      split
      · next hxy =>
          refine List.pairwise_cons.mpr ⟨fun z hz => ⟨?_, fun _ => hx z hz⟩, h⟩
          rcases List.mem_cons.mp hz with rfl | hz
          · exact hxy
          · exact htrans x y z hxy (hfirst z hz).1
      · next hxy =>
          refine List.pairwise_cons.mpr
            ⟨fun z hz => ?_,
              ih (fun z hz => hx z (List.mem_cons_of_mem y hz)) hrest⟩
          rcases List.mem_cons.mp
            ((insertBy_perm le x rest).mem_iff.mp hz) with rfl | hz
          · exact ⟨(htotal z y).resolve_left hxy, fun hzy => absurd hzy hxy⟩
          · exact hfirst z hz

/-- A sorted list is in order, and what is of one rank has kept its order. -/
theorem sortBy_stable (htotal : ∀ a b, le a b = true ∨ le b a = true)
    (htrans : ∀ a b c, le a b = true → le b c = true → le a c = true)
    (h : xs.Pairwise R) :
    (sortBy le xs).Pairwise fun a b =>
    le a b = true ∧ (le b a = true → R a b) := by
  induction xs with
  | nil => exact List.Pairwise.nil
  | cons x rest ih =>
      obtain ⟨hfirst, hrest⟩ := List.pairwise_cons.mp h
      exact insertBy_stable htotal htrans
        (fun y hy => hfirst y (mem_sortBy.mp hy)) (ih hrest)

/-- What has been sorted is in order. -/
theorem sortBy_pairwise (htotal : ∀ a b, le a b = true ∨ le b a = true)
    (htrans : ∀ a b c, le a b = true → le b c = true → le a c = true)
    (xs : List α) : (sortBy le xs).Pairwise (le · ·) :=
  (sortBy_stable htotal htrans (List.pairwise_of_forall fun _ _ => trivial)).imp
    And.left

/-- Sorting by images and taking images go in either order. -/
theorem map_sortBy (le : β → β → Bool) (f : α → β) (xs : List α) :
    (sortBy (fun a b => le (f a) (f b)) xs).map f = sortBy le (xs.map f) := by
  have hinsert : ∀ x xs, (insertBy (fun a b => le (f a) (f b)) x xs).map f =
      insertBy le (f x) (xs.map f) := by
    intro x xs
    induction xs with
    | nil => rfl
    | cons y rest ih =>
        rw [insertBy, List.map_cons, insertBy, ← ih]
        split <;> rfl
  induction xs with
  | nil => rfl
  | cons x rest ih =>
      exact (hinsert x _).trans (congrArg (insertBy le (f x)) ih)

end Reckon
