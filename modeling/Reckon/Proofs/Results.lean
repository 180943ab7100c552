/-!
# Results that may be errors

A computation in steps has a result if all of its steps have, and the first
error of a step is its error. Here this is said in both directions, so that a
result or an error of the whole can be taken apart.
-/

namespace Reckon

variable {ε ε' α β : Type}

theorem exists_ok {result : Except ε α} (h : result.isOk = true) :
    ∃ a, result = .ok a := by
  cases result with
  | error e => cases h
  | ok a => exact ⟨a, rfl⟩

theorem bind_eq_ok_iff {result : Except ε α} {next : α → Except ε β} {b : β} :
    result >>= next = .ok b ↔ ∃ a, result = .ok a ∧ next a = .ok b := by
  cases result with
  | error e => exact ⟨nofun, nofun⟩
  | ok a => exact ⟨fun h => ⟨a, rfl, h⟩, fun ⟨_, ha, h⟩ => Except.ok.inj ha ▸ h⟩

theorem bind_eq_error_iff {result : Except ε α} {next : α → Except ε β}
    {e : ε} : result >>= next = .error e ↔
      result = .error e ∨ ∃ a, result = .ok a ∧ next a = .error e := by
  cases result with
  | error cause =>
      constructor
      · exact fun h => .inl (congrArg _ (Except.error.inj h))
      · rintro (h | ⟨a, ha, -⟩)
        · exact congrArg _ (Except.error.inj h)
        · cases ha
  | ok a =>
      constructor
      · exact fun h => .inr ⟨a, rfl, h⟩
      · rintro (h | ⟨_, ha, h⟩)
        · cases h
        · exact Except.ok.inj ha ▸ h

theorem mapError_eq_ok_iff {result : Except ε α} {f : ε → ε'} {a : α} :
    result.mapError f = .ok a ↔ result = .ok a := by
  cases result with
  | error e => exact ⟨nofun, nofun⟩
  | ok b =>
      constructor
      · exact fun h => congrArg _ (Except.ok.inj h)
      · exact fun h => congrArg _ (Except.ok.inj h)

theorem mapError_eq_error_iff {result : Except ε α} {f : ε → ε'} {e : ε'} :
    result.mapError f = .error e ↔
      ∃ cause, result = .error cause ∧ f cause = e := by
  cases result with
  | ok a => exact ⟨nofun, nofun⟩
  | error cause =>
      constructor
      · exact fun h => ⟨cause, rfl, Except.error.inj h⟩
      · rintro ⟨_, hcause, rfl⟩
        exact congrArg _ (congrArg f (Except.error.inj hcause))

end Reckon
