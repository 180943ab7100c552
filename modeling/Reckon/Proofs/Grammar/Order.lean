import Mathlib.Data.List.Nodup
import Reckon.Grammar.Basic
import Reckon.Proofs.Sorting

/-!
# Symbols in order

Symbols are listed in an order that tells any two of them apart. So a list
of symbols each of which is there once depends on nothing but which they
are (`sorted_congr`), and neither the order nor the number of their
occurrences can be seen in it.
-/

namespace Reckon

variable {α : Type}

theorem nodup_eraseDups [DecidableEq α] (xs : List α) : xs.eraseDups.Nodup := by
  match xs with
  | [] => exact List.nodup_nil
  | x :: rest =>
      rw [List.eraseDups_cons]
      refine List.nodup_cons.mpr ⟨?_, nodup_eraseDups _⟩
      rw [List.mem_eraseDups, List.mem_filter]
      simp
termination_by xs.length
decreasing_by exact Nat.lt_succ_of_le (List.length_filter_le _ rest)

namespace Symbol

variable {a b : Symbol}

theorem before_iff : a.before b = true ↔
    a.kind < b.kind ∨ a.kind = b.kind ∧ a.key ≤ b.key := by
  simp [before]

theorem before_total (a b : Symbol) :
    a.before b = true ∨ b.before a = true := by
  rw [before_iff, before_iff]
  rcases Nat.lt_trichotomy a.kind b.kind with hlt | heq | hlt
  · exact .inl (.inl hlt)
  · exact (String.le_total a.key b.key).imp (fun h => .inr ⟨heq, h⟩)
      fun h => .inr ⟨heq.symm, h⟩
  · exact .inr (.inl hlt)

theorem before_trans (a b c : Symbol) (hab : a.before b = true)
    (hbc : b.before c = true) : a.before c = true := by
  rw [before_iff] at hab hbc ⊢
  rcases hab with hab | ⟨hab, hab'⟩ <;> rcases hbc with hbc | ⟨hbc, hbc'⟩
  · exact .inl (Nat.lt_trans hab hbc)
  · exact .inl (hbc ▸ hab)
  · exact .inl (hab ▸ hbc)
  · exact .inr ⟨hab.trans hbc, String.le_trans hab' hbc'⟩

/-- A symbol is told by its kind and its key. -/
theorem eq_of_kind_of_key (hkind : a.kind = b.kind) (hkey : a.key = b.key) :
    a = b := by
  cases a <;> cases b <;> simp_all [kind, key]

theorem before_antisymm (hab : a.before b = true) (hba : b.before a = true) :
    a = b := by
  rw [before_iff] at hab hba
  have hkind : a.kind = b.kind := by
    rcases hab with h | ⟨h, -⟩ <;> rcases hba with h' | ⟨h', -⟩ <;> omega
  refine eq_of_kind_of_key hkind (String.le_antisymm ?_ ?_)
  · exact (hab.resolve_left (by omega)).2
  · exact (hba.resolve_left (by omega)).2

/-- Lists of the same symbols are the same once they are sorted. -/
theorem sorted_congr {xs ys : List Symbol} (h : ∀ s, s ∈ xs ↔ s ∈ ys) :
    sorted xs = sorted ys := by
  have hperm : (sorted xs).Perm (sorted ys) := by
    refine (sortBy_perm before _).trans (.trans ?_ (sortBy_perm before _).symm)
    rw [List.perm_ext_iff_of_nodup (nodup_eraseDups xs) (nodup_eraseDups ys)]
    intro s
    rw [List.mem_eraseDups, List.mem_eraseDups, h]
  exact hperm.eq_of_pairwise (fun _ _ _ _ => before_antisymm)
    (sortBy_pairwise before_total before_trans _)
    (sortBy_pairwise before_total before_trans _)

end Symbol

end Reckon
