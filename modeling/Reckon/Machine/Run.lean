import Reckon.Machine.Step

/-!
# Running a program

A run goes on until the program ends or an operation faults, and a program need
not do either. It may be limited to a number of operations; the operation that
would exceed the limit is counted and not run. Without a limit a run is asked
about with a *budget*: it says how far to look, and `none` means only that the
end was not in sight. A greater budget never changes an answer, and a limit is
itself a budget that always suffices.
-/

namespace Reckon

/-- How a run ended. -/
structure Halt where
  /-- What stopped the program before its end, if anything did. -/
  fault : Option Fault
  machine : Machine

namespace Machine

/-- Runs one operation if the limit allows it; nothing if the program ends. -/
def stepWithin? (limit : Option Nat) (p : Program) (m : Machine) :
    Option Outcome :=
  match limit with
  | none => m.step? p
  | some limit =>
    (m.step? p).map fun outcome =>
      if limit ≤ m.steps
        then .fault (.stepLimit limit) { m with steps := m.steps + 1 }
      else outcome

/-- Runs to the end, as far as the budget goes. -/
def run (limit : Option Nat) (p : Program) :
    (budget : Nat) → Machine → Option Halt
  | 0, _ => none
  | budget + 1, m =>
    match m.stepWithin? limit p with
    | none => some ⟨none, m⟩
    | some (.fault cause after) => some ⟨some cause, after⟩
    | some (.ok after) => run limit p budget after

/-- The value that a program leaves: what is on top of the stack, if that is a
number or the name of a variable. -/
def result (m : Machine) : Option Single :=
  match m.stack with
  | .number value :: _ => some value
  | .name n :: _ => m.store.get? n
  | _ => none

/-- A machine at the start of a program. -/
def start (store : Store) (input : List UInt8) (room : Option Nat) : Machine :=
  { store, input, room }

end Machine

namespace Halt

/-- The value of a run, or what stopped it. -/
def value (h : Halt) : Except Fault (Option Single) :=
  match h.fault with
  | some fault => .error fault
  | none => .ok h.machine.result

end Halt

end Reckon
