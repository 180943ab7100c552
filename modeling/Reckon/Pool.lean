/-!
# Pools

Names and constants are kept once and referred to by their slot. A value that
matches one already in the pool gets the slot of the first match; any other is
put at the end. Slots handed out before therefore keep their value.
-/

namespace Reckon.Pool

variable {α : Type}

/-- The slot of a value, and the pool that holds it there. The test is given
the pooled value first. -/
def intern (same : α → α → Bool) (pool : List α) (value : α) : Nat × List α :=
  match pool.findIdx? (same · value) with
  | some slot => (slot, pool)
  | none => (pool.length, pool ++ [value])

/-- Interning only ever adds behind what is there. -/
theorem intern_keeps (same : α → α → Bool) (pool : List α) (value : α) :
    pool <+: (intern same pool value).2 := by
  unfold intern
  split
  · exact List.prefix_rfl
  · exact List.prefix_append pool [value]

/-- The slot handed out lies in the pool. -/
theorem intern_slot_lt (same : α → α → Bool) (pool : List α) (value : α) :
    (intern same pool value).1 < (intern same pool value).2.length := by
  unfold intern
  split
  · next h => exact (List.findIdx?_eq_some_iff_findIdx_eq.1 h).1
  · simp

end Reckon.Pool
