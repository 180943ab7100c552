import Reckon.Code.Composition
import Reckon.Code.Encoding
import Reckon.Machine.Run
import Reckon.Recogniser.Checker
import Reckon.Token.Diagnostic
import Reckon.Token.Reading

/-!
# From source text to result

A source text is read into tokens, which are checked to be a program and then
composed; advice about names is collected on the way and stops nothing. The
program can then be executed, on variables of its own that start at zero.

A lone expression or statement can be evaluated without a program around it. It
is not checked, only composed, and it works on variables that are there
already.
-/

namespace Reckon

/-- Everything that can go wrong with a program, by where it does. -/
inductive Error where
  | scan (e : ScanError)
  | parse (e : ParseError)
  | compose (e : ComposeError)
  | fault (f : Fault)
  | decode (e : DecodeError)
deriving DecidableEq, Repr

/-- The text of an error. It says in which stage it came up. -/
def Error.message : Error → String
  | scan e => "Lexer error: " ++ e.message
  | parse (.conflict c) => "Grammar error: " ++ c.message
  | parse (.illFormed e) => "Parse error: " ++ e.message
  | compose e => e.message
  | fault f => f.message
  | decode e => "Program file error: " ++ e.message

/-- All that comes of a source text. -/
structure Compilation where
  reading : Reading
  diagnostics : List Diagnostic
  parsed : Parsed
  program : Program

namespace Compilation

/-- Compiles a source text. The chosen recogniser is asked first, and reduction
by precedence in any case. -/
def ofText (checker : Checker) (text : String) : Except Error Compilation := do
  let reading ← (Reading.ofText text).mapError .scan
  let diagnostics := Diagnostic.ofTokens reading.tokens
  unless checker = .precedence do
    (checker.check reading.tokens).mapError .parse
  let parsed ← (Language.parse reading.tokens).mapError .parse
  let composed ← (Composer.compose reading.tokens [] .empty).mapError
    (.compose ·.error)
  return { reading, diagnostics, parsed, program := composed.program }

end Compilation

namespace Program

/-- Loads a program file. -/
def load (bytes : List UInt8) : Except Error Program :=
  (ofBytes bytes).mapError .decode

/-- Runs a program on variables of its own, all zero. -/
def execute (p : Program) (limit : Option Nat) (budget : Nat)
    (input : List UInt8) : Option Halt :=
  Machine.run limit p budget (.start (Store.empty.prepare p) input none)

end Program

namespace Store

/-- Evaluates an expression or statement on some variables, which it may also
change. There is no input, and output is dropped. Gives the value, and the
variables afterwards in any case. -/
def evaluate (s : Store) (budget : Nat) (text : String) :
    Option (Except Error (Option Single) × Store) :=
  match (Reading.ofText text) with
  | .error e => some (.error (.scan e), s)
  | .ok reading =>
    match Composer.composeBare reading.tokens [] .empty with
    | .error failure => some (.error (.compose failure.error), s)
    | .ok composed =>
      (Machine.run none composed.program budget (.start s [] none)).map
        fun halt => (halt.value.mapError .fault, halt.machine.store)

end Store

end Reckon
