import Reckon.Machine.Run
import Reckon.Proofs.Syntax.Tree

/-!
# What a program means

The meaning of a program, stated without its compiled form. The statements of a
tree are laid out one to a line; only the jumps of loops need more than the
trees say, and these are counted in lines. A *situation* is a line together with
the values of all variables, the input not read yet and the output so far, and
a line turns one situation into the next or is stopped by a fault.

A literal does not always denote the number that it spells: literals that are
near each other denote the same number. So what they denote is a parameter of
the meaning.
-/

namespace Reckon

/-! ## Values of formulas -/

/-- A value with or without a minus sign. -/
def Single.signed (negative : Bool) (v : Single) : Single :=
  if negative then -v else v

/-- The value of a formula. A minus sign in front of a product is the sign of
its first factor. -/
def Formula.value (pooled : Single → Single) (values : String → Single)
    {t : Tier} : Formula t → (negative : Bool) → Single
  | name x, negative => Single.signed negative (values x)
  | constant v, negative => Single.signed negative (pooled v)
  | group e, negative => Single.signed negative (e.value pooled values false)
  | compare a o b, _ =>
      o.val.apply (a.value pooled values false) (b.value pooled values false)
  | bracket c, _ => c.value pooled values false
  | not a, _ => .ofBool ((a.value pooled values false).le .zero)
  | only a, negative => a.value pooled values negative
  | negated a, _ => a.value pooled values true
  | join a o b, negative =>
      o.val.apply (a.value pooled values negative) (b.value pooled values false)

/-- Tiers whose formulas are true or false. -/
def Tier.isTruth : Tier → Bool
  | test | chain .conjunction | chain .condition => true
  | factor | chain .product | chain .sum => false

theorem Binary.exists_ofBool {o : Binary}
    (ho : o ∈ comparisons ∨ o = .and ∨ o = .or) (v w : Single) :
    ∃ b, o.apply v w = .ofBool b := by
  cases o with
  | add | sub | mul | div => simp [comparisons] at ho
  | _ => exact ⟨_, rfl⟩

/-- What is true or false is one or zero. -/
theorem Formula.exists_ofBool {pooled : Single → Single}
    {values : String → Single} {t : Tier} (e : Formula t)
    (ht : t.isTruth = true) :
    ∀ negative, ∃ b, e.value pooled values negative = .ofBool b := by
  induction e with
  | name | constant | group | negated => cases ht
  | compare a o b =>
      exact fun _ => Binary.exists_ofBool (.inl o.property) _ _
  | bracket c ih => exact fun _ => ih rfl false
  | not a => exact fun _ => ⟨_, rfl⟩
  | @only l a ih =>
      cases l with
      | product | sum => cases ht
      | conjunction | condition => exact ih rfl
  | @join l a o b =>
      intro negative
      cases l with
      | product | sum => cases ht
      | conjunction =>
          have ho : o.val = .and := List.mem_singleton.mp o.property
          exact Binary.exists_ofBool (.inr (.inl ho)) _ _
      | condition =>
          have ho : o.val = .or := List.mem_singleton.mp o.property
          exact Binary.exists_ofBool (.inr (.inr ho)) _ _

/-! ## Lines -/

/-- What is done on one line. -/
inductive Line where
  | assign (x : String) (e : Expression)
  | transfer (kind : Transfer) (names : List String)
  | branch (c : Condition) (target : String)
  /-- The head of a loop, and how many lines on it is left. -/
  | loop (parameter : String) (first last : Expression) (exit : Nat)
  /-- The end of a loop, and how many lines back its body starts. -/
  | next (parameter : String) (last : Expression) (body : Nat)

/-- The lines of statements, each with its label. The label of a line is known
in front of its statement. -/
def Stmt.lines {x : Extent} :
    Stmt x → (label : Option String) → List (Option String × Line)
  | assign x e, label => [(label, .assign x e)]
  | transfer kind names, label => [(label, .transfer kind names.toList)]
  | branch c target, label => [(label, .branch c target)]
  | loop parameter first last body, label =>
      let inner := body.lines none
      (label, .loop parameter first last (inner.length + 2)) ::
        (inner ++ [(none, .next parameter last inner.length)])
  | plain s, _ => s.lines none
  | labelled label s, _ => s.lines (some label)
  | one s, _ => s.lines none
  | more before s, _ => before.lines none ++ s.lines none

/-- The lines of a program and what its literals denote. -/
structure Script where
  lines : List (Option String × Line)
  pooled : Single → Single

/-! ## Situations -/

/-- Where a program stands. -/
structure Situation where
  line : Nat := 0
  values : String → Single := fun _ => .zero
  /-- The bytes not read yet. -/
  input : List UInt8
  /-- The bytes written. -/
  output : Array UInt8 := #[]

/-- What a line leads to. -/
inductive Progress where
  | ok (after : Situation)
  | fault (cause : Fault) (after : Situation)

namespace Situation

/-- Gives a variable a value. -/
def set (now : Situation) (x : String) (v : Single) : Situation :=
  { now with values := fun y => if y = x then v else now.values y }

/-- Goes on at a line. -/
def goto (now : Situation) (line : Nat) : Situation := { now with line }

/-- A line of the input as a number, and the input behind it. -/
def takeNumber (x : String) (input : List UInt8) :
    Except Fault Single × List UInt8 :=
  let (line, rest) := Machine.splitLine input
  let value :=
    if line.isEmpty then .error (.endOfInput x)
    else match Text.decode? line with
      | none => .error .undecodableInput
      | some text =>
        match Single.parse? (Text.trim text) with
        | some v => .ok v
        | none => .error (.notANumber x (Text.trim text))
  (value, rest)

/-- Reads a number into each variable, one line for each. -/
def readAll (now : Situation) : List String → Progress
  | [] => .ok now
  | x :: names =>
    match takeNumber x now.input with
    | (.ok v, rest) => ({ now with input := rest }.set x v).readAll names
    | (.error cause, rest) => .fault cause { now with input := rest }

/-- Writes a variable with its value. -/
def write (now : Situation) (x : String) : Situation :=
  { now with
    output := now.output ++ (x ++ " = " ++ (now.values x).toText).toUTF8.data }

/-- Writes each variable with its value. -/
def writeAll (now : Situation) (names : List String) : Situation :=
  names.foldl write now

end Situation

/-- Goes on unless there was a fault. -/
def Progress.andThen (p : Progress) (next : Situation → Situation) : Progress :=
  match p with
  | ok after => ok (next after)
  | fault cause after => fault cause after

namespace Script

/-- The first line that has a label. -/
def find? (s : Script) (label : String) : Option Nat :=
  s.lines.findIdx? fun line => line.1 = some label

/-- The value of a formula in a situation. -/
def evaluate (s : Script) (now : Situation) {t : Tier}
    (e : Formula t) : Single :=
  e.value s.pooled now.values false

/-- Goes on at one line if a loop is to be entered, else at the other. -/
def test (s : Script) (now : Situation) (parameter : String) (last : Expression)
    (body exit : Nat) : Situation :=
  now.goto
    (if (now.values parameter).le (s.evaluate now last) then body else exit)

/-- Does what is to be done on a line. -/
def perform (s : Script) (now : Situation) : Line → Progress
  | .assign x e => .ok ((now.set x (s.evaluate now e)).goto (now.line + 1))
  | .transfer .read names =>
      (now.readAll names).andThen (·.goto (now.line + 1))
  | .transfer .write names => .ok ((now.writeAll names).goto (now.line + 1))
  | .branch c target =>
      if Single.zero.lt (s.evaluate now c) then
        match s.find? target with
        | some line => .ok (now.goto line)
        | none => .fault (.undefinedLabel target) now
      else .ok (now.goto (now.line + 1))
  | .loop parameter first last exit =>
      .ok (s.test (now.set parameter (s.evaluate now first)) parameter last
        (now.line + 1) (now.line + exit))
  | .next parameter last body =>
      .ok (s.test (now.set parameter (now.values parameter + s.pooled .one))
        parameter last (now.line - body) (now.line + 1))

/-- Does one line; nothing if the program ends there. -/
def step? (s : Script) (now : Situation) : Option Progress :=
  (s.lines[now.line]?).map fun line => s.perform now line.2

end Script

/-- How a program ended. -/
structure Ending where
  /-- What stopped the program before its end, if anything did. -/
  fault : Option Fault
  situation : Situation

/-- Does line after line to the end, as far as the budget goes. -/
def Script.run (s : Script) : (budget : Nat) → Situation → Option Ending
  | 0, _ => none
  | budget + 1, now =>
    match s.step? now with
    | none => some ⟨none, now⟩
    | some (.fault cause after) => some ⟨some cause, after⟩
    | some (.ok after) => s.run budget after

/-- What a literal denotes in a compiled program: the pooled constant that is
near it, and itself if there is none. -/
def Program.literal (p : Program) (v : Single) : Single :=
  (p.constants.find? (·.near v)).getD v

/-- The lines of a program, with its literals as they were pooled. -/
def Source.script (s : Source) (p : Program) : Script where
  lines := s.body.lines none
  pooled := p.literal

end Reckon
