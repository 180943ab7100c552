import Mathlib.Data.List.Induction
import Reckon.Pool

/-!
# What pools hand out

A pool answers requests with slots, and what it has answered stays true, since
it only grows at its end. `Serves` says what a pool is after some requests:
behind every slot that was handed out is what was asked for, or an entry that
matches it; no entry matches one behind it; there is nothing in the pool that
nobody asked for; and only the values decide what is in it. One more request
keeps all of this, whatever the test of the pool is (`Serves.intern`).

Where the test is equality, the entries are the values that were asked for, each
once, in the order in which they first were (`ofValues_eq_eraseDups`).
-/

namespace Reckon

theorem getElem?_of_isPrefix {α : Type} {a b : List α} {i : Nat} {x : α}
    (h : a <+: b) (hx : a[i]? = some x) : b[i]? = some x := by
  obtain ⟨hlt, rfl⟩ := List.getElem?_eq_some_iff.mp hx
  exact List.prefix_iff_getElem?.mp h i hlt

namespace Pool

variable {α : Type} {same : α → α → Bool} {pool : List α}
  {requests : List (Nat × α)}

/-- The pool that some values fill, in their order. -/
def ofValues (same : α → α → Bool) (values : List α) : List α :=
  values.foldl (fun pool v => (intern same pool v).2) []

theorem ofValues_concat (same : α → α → Bool) (values : List α) (v : α) :
    ofValues same (values ++ [v]) =
      (intern same (ofValues same values) v).2 := by
  simp [ofValues]

/-- A pool after some requests, each of them given with the slot that it got. -/
structure Serves (same : α → α → Bool) (pool : List α)
    (requests : List (Nat × α)) : Prop where
  answers : ∀ slot v, (slot, v) ∈ requests →
    ∃ w, pool[slot]? = some w ∧ (w = v ∨ same w v = true)
  apart : pool.Pairwise fun a b => same a b = false
  asked : ∀ slot w, pool[slot]? = some w → (slot, w) ∈ requests
  filled : pool = ofValues same (requests.map Prod.snd)

theorem serves_nil (same : α → α → Bool) : Serves same [] [] :=
  ⟨nofun, .nil, nofun, rfl⟩

/-- A request is answered by its slot. -/
theorem exists_getElem?_intern (same : α → α → Bool) (pool : List α) (v : α) :
    ∃ w, (intern same pool v).2[(intern same pool v).1]? = some w ∧
      (w = v ∨ same w v = true) := by
  unfold intern
  split
  · next slot hfind =>
      obtain ⟨hlt, hsame, -⟩ := List.findIdx?_eq_some_iff_getElem.mp hfind
      exact ⟨pool[slot], List.getElem?_eq_getElem hlt, .inr hsame⟩
  · exact ⟨v, List.getElem?_concat_length, .inl rfl⟩

/-- A value is put in only where no entry matches it. -/
theorem pairwise_intern (h : pool.Pairwise fun a b => same a b = false)
    (v : α) : (intern same pool v).2.Pairwise fun a b => same a b = false := by
  unfold intern
  split
  · exact h
  · next hfind =>
      refine List.pairwise_append.mpr ⟨h, List.pairwise_singleton .., ?_⟩
      intro a ha b hb
      rw [List.mem_singleton.mp hb]
      exact List.findIdx?_eq_none_iff.mp hfind a ha

/-- An entry that was not there before is the value, and its slot is
the one handed out. -/
theorem getElem?_intern_cases {slot : Nat} {v w : α}
    (h : (intern same pool v).2[slot]? = some w) :
    pool[slot]? = some w ∨ slot = (intern same pool v).1 ∧ w = v := by
  unfold intern at h ⊢
  split at h
  · exact .inl h
  · rw [List.getElem?_append] at h
    split at h
    · exact .inl h
    · next hge =>
        rw [List.getElem?_singleton] at h
        split at h
        · next hzero => exact .inr ⟨by omega, (Option.some.inj h).symm⟩
        · cases h

theorem Serves.intern (h : Serves same pool requests) (v : α) :
    Serves same (Pool.intern same pool v).2
      (requests ++ [((Pool.intern same pool v).1, v)]) := by
  refine ⟨?_, pairwise_intern h.apart v, ?_, ?_⟩
  · intro slot u hu
    rcases List.mem_append.mp hu with hold | hnew
    · obtain ⟨w, hw, hmatch⟩ := h.answers slot u hold
      exact ⟨w, getElem?_of_isPrefix (intern_keeps same pool v) hw, hmatch⟩
    · obtain ⟨rfl, rfl⟩ := Prod.mk.inj (List.mem_singleton.mp hnew)
      exact exists_getElem?_intern same pool u
  · intro slot w hw
    rcases getElem?_intern_cases hw with hold | ⟨rfl, rfl⟩
    · exact List.mem_append_left _ (h.asked slot w hold)
    · exact List.mem_append_right _ List.mem_cons_self
  · rw [List.map_append, List.map_singleton, ofValues_concat, ← h.filled]

/-- No entry matches another one, if matching goes both ways. -/
theorem Serves.eq_false_of_ne (h : Serves same pool requests)
    (hsymm : ∀ a b, same a b = true → same b a = true) {i j : Nat} {a b : α}
    (hne : i ≠ j) (ha : pool[i]? = some a) (hb : pool[j]? = some b) :
    same a b = false := by
  have hapart := List.pairwise_iff_getElem.mp h.apart
  obtain ⟨hi, rfl⟩ := List.getElem?_eq_some_iff.mp ha
  obtain ⟨hj, rfl⟩ := List.getElem?_eq_some_iff.mp hb
  rcases Nat.lt_or_gt_of_ne hne with hlt | hgt
  · exact hapart i j hi hj hlt
  · rw [Bool.eq_false_iff]
    intro hsame
    cases (hapart j i hj hi hgt).symm.trans (hsymm _ _ hsame)

/-- Equality puts in a value where it comes first. -/
theorem eraseDups_intern [BEq α] [LawfulBEq α] (values : List α) (v : α) :
    (intern (· == ·) values.eraseDups v).2 = (values ++ [v]).eraseDups := by
  rw [List.eraseDups_append]
  unfold intern
  split
  · next slot hfind =>
      obtain ⟨hlt, hsame, -⟩ := List.findIdx?_eq_some_iff_getElem.mp hfind
      have hmem : v ∈ values := by
        rw [← List.mem_eraseDups, ← beq_iff_eq.mp hsame]
        exact List.getElem_mem hlt
      simp [List.removeAll, hmem]
  · next hfind =>
      have hnew : v ∉ values := by
        intro hmem
        have hdiffers :=
          List.findIdx?_eq_none_iff.mp hfind v (List.mem_eraseDups.mpr hmem)
        simp at hdiffers
      simp [List.removeAll, hnew, List.eraseDups_cons]

theorem ofValues_eq_eraseDups [BEq α] [LawfulBEq α] (values : List α) :
    ofValues (· == ·) values = values.eraseDups := by
  induction values using List.reverseRecOn with
  | nil => rfl
  | append_singleton values v ih => rw [ofValues_concat, ih, eraseDups_intern]

end Pool

end Reckon
