import Reckon.Code.Listing
import Reckon.Compilation
import Reckon.Token.Listing

/-!
# The command line

What the program does when it is called: the arguments name a command, most
commands work on one file, and the answer is what goes to the two outputs, an
exit code, and possibly a file to be written. Everything is decided here; to
fetch the file, to write the other one and to print is left to the caller.

The commands are

* `tokens FILE [--no-color] [--tables]`: the tokens of a source;
* `table`: the precedence relations of the language;
* `check FILE [--trace] [--parser precedence|recursive|state-machine]`: whether
  a source is a program, and advice about its names;
* `postfix FILE [--emit FILE] [--stats]`: the compiled program, listed or saved;
* `run FILE [--max-steps N]`: runs a source or a saved program.

`-v` may be given anywhere and does not change the answer.
-/

namespace Reckon.CommandLine

/-- A command with what it needs. -/
inductive Command where
  | tokens (file : String) (style : ListingStyle)
  | table
  | check (file : String) (trace : Bool) (checker : Checker)
  | compile (file : String) (save : Option String) (statistics : Bool)
  | run (file : String) (limit : Option Nat)

/-- What a call answers. -/
structure Response where
  code : Nat := 0
  output : String := ""
  errors : String := ""
deriving DecidableEq, Repr

/-- What is left to do after a command. -/
inductive Effect where
  | answer (response : Response)
  /-- Write a file, and then answer. -/
  | save (file : String) (bytes : List UInt8) (response : Response)

namespace Response

/-- An answer on the output. -/
def ofOutput (output : String) : Response := { output }

/-- A failure with its message. -/
def failure (message : String) : Response :=
  { code := 1, errors := message ++ "\n" }

/-- The failure to read a file. -/
def unreadable (file reason : String) : Response :=
  failure ("Failed to read '" ++ file ++ "': " ++ reason)

/-- The failure to write a file. -/
def unwritable (file reason : String) : Response :=
  failure ("Failed to write '" ++ file ++ "': " ++ reason)

/-- The answer to arguments that name no command. -/
def usage : Response :=
  { code := 2
    errors := "usage: [-v] tokens FILE [--no-color] [--tables] | table |\n" ++
      "  check FILE [--trace] [--parser precedence|recursive|state-machine] |\n" ++
      "  postfix FILE [--emit FILE] [--stats] | run FILE [--max-steps N]\n" }

end Response

/-! ## Arguments -/

/-- The options of a command as they are collected. -/
structure Options where
  files : List String := []
  noColour : Bool := false
  tables : Bool := false
  trace : Bool := false
  statistics : Bool := false
  checker : Option String := none
  save : Option String := none
  limit : Option String := none

/-- Whether an argument only asks for more messages. -/
def isVerbose (argument : String) : Bool :=
  argument == "--verbose" ||
    match argument.toList with
    | '-' :: 'v' :: rest => rest.all (· == 'v')
    | _ => false

/-- Splits `--name=value` at its first equals sign. -/
def splitOption (argument : String) : String × Option String :=
  let text := argument.toList
  let name := String.ofList (text.takeWhile (· != '='))
  match text.dropWhile (· != '=') with
  | [] => (name, none)
  | _ :: value => (name, some (String.ofList value))

/-- Notes an option that takes a value; nothing if there is no such option. -/
def Options.withValue (o : Options) (name value : String) : Option Options :=
  match name with
  | "--parser" =>
      if o.checker.isNone then some { o with checker := some value } else none
  | "--emit" =>
      if o.save.isNone then some { o with save := some value } else none
  | "--max-steps" =>
      if o.limit.isNone then some { o with limit := some value } else none
  | _ => none

/-- Notes an option that takes no value; nothing if there is no such option. -/
def Options.withFlag (o : Options) (name : String) : Option Options :=
  match name with
  | "--no-color" => some { o with noColour := true }
  | "--tables" => some { o with tables := true }
  | "--trace" => some { o with trace := true }
  | "--stats" => some { o with statistics := true }
  | _ => none

/-- Collects arguments. Behind `--` all are files. -/
def Options.collect (o : Options) : List String → Option Options
  | [] => some o
  | "--" :: rest => some { o with files := o.files ++ rest }
  | argument :: rest =>
    if isVerbose argument then o.collect rest
    else if argument.startsWith "-" && argument != "-" then
      match o.withFlag argument with
      | some o => o.collect rest
      | none =>
        match splitOption argument with
        | (name, some value) =>
          match o.withValue name value with
          | some o => o.collect rest
          | none => none
        | (name, none) =>
          match rest with
          | value :: rest =>
            match o.withValue name value with
            | some o => o.collect rest
            | none => none
          | [] => none
    else Options.collect { o with files := o.files ++ [argument] } rest

/-- The recogniser named by an option; without one, reduction by precedence. -/
def checker? : Option String → Option Checker
  | none | some "precedence" => some .precedence
  | some "recursive" => some .descent
  | some "state-machine" => some .pushdown
  | some _ => none

/-- The limit given by an option: a whole number of 64 bits. -/
def limit? : Option String → Option (Option Nat)
  | none => some none
  | some text =>
    let digits := match text.toList with
      | '+' :: digits => digits
      | digits => digits
    let value := Single.digitsValue digits
    if digits ≠ [] ∧ digits.all Char.isDigit ∧ value < UInt64.size
      then some (some value)
    else none

/-- The command that the arguments name. An option that another command takes
is no option of this one. -/
def Command.ofArguments? (arguments : List String) : Option Command :=
  match arguments.dropWhile isVerbose with
  | [] => none
  | name :: rest => do
    let o ← Options.collect {} rest
    let checker ← checker? o.checker
    let limit ← limit? o.limit
    let lists := o.noColour || o.tables
    let checks := o.trace || o.checker.isSome
    let compiles := o.save.isSome || o.statistics
    let runs := o.limit.isSome
    match name, o.files with
    | "tokens", [file] =>
      if checks || compiles || runs then none
      else some (.tokens file { colour := !o.noColour, tables := o.tables })
    | "table", [] =>
        if lists || checks || compiles || runs then none else some .table
    | "check", [file] =>
      if lists || compiles || runs then none
        else some (.check file o.trace checker)
    | "postfix", [file] =>
      if lists || checks || runs then none
        else some (.compile file o.save o.statistics)
    | "run", [file] =>
        if lists || checks || compiles then none else some (.run file limit)
    | _, _ => none

/-- The file that a command works on. -/
def Command.file? : Command → Option String
  | tokens file _ => some file
  | table => none
  | check file _ _ => some file
  | compile file _ _ => some file
  | run file _ => some file

/-- Whether a command reads the standard input. -/
def Command.readsInput : Command → Bool
  | run _ _ => true
  | _ => false

/-- Whether a file holds a compiled program, by its name. -/
def isProgramFile (file : String) : Bool :=
  let name := (file.toList.reverse.takeWhile (· != '/')).reverse
  ".prnb".toList.isSuffixOf name && name.length > ".prnb".length

/-! ## Answers -/

/-- The text of a source file, or the failure to get it. -/
def sourceText (file : String) (content : Except String (List UInt8)) :
    Except Response String :=
  match content with
  | .error reason => .error (.unreadable file reason)
  | .ok bytes =>
    match Text.decode? bytes with
    | none => .error (.unreadable file "stream did not contain valid UTF-8")
    | some text => .ok text

/-- What a stage yields, or the failure it reports. -/
def orFailure {α : Type} (value : Except Error α) : Except Response α :=
  value.mapError (.failure ·.message)

/-- The answer, whether or not it is a failure. -/
def settled (answer : Except Response Response) : Response :=
  match answer with
  | .ok response => response
  | .error response => response

/-- Lists the tokens of a source. -/
def listTokens (style : ListingStyle) (text : String) :
    Except Response Response := do
  let reading ← orFailure ((Reading.ofText text).mapError .scan)
  return .ofOutput (reading.listed style)

/-- Shows the precedence relations of the language. -/
def showTable : Except Response Response := do
  let table ← orFailure (Language.precedence.mapError fun c =>
    .parse (.conflict c))
  return .ofOutput
    (toString table.rowCount ++ " symbols, " ++ toString table.relationCount ++
      " relations\n\n" ++ table.matrix)

/-- The steps of a reduction, numbered. -/
def traceText (steps : List TraceStep) : String :=
  String.join (steps.mapIdx fun i step =>
    Text.zeroFilled 4 i ++ "  " ++ step.text ++ "\n") ++ "\n"

/-- Reports on a source that is a program. -/
def checkText (trace : Bool) (checker : Checker) (text : String) :
    Except Response Response := do
  let compiled ← orFailure (Compilation.ofText checker text)
  let code := compiled.parsed.code
  return .ofOutput ((if trace then traceText compiled.parsed.steps else "") ++
    String.join (compiled.diagnostics.map fun d => d.message ++ "\n") ++
    "OK (" ++ checker.name ++ "): " ++
    toString compiled.reading.tokens.length ++ " tokens, " ++
    toString compiled.parsed.reductions ++ " reductions\n" ++
    (if code.ops.isEmpty then "" else "expressions: " ++ code.text ++ "\n"))

/-- Lists a compiled program. -/
def listProgram (statistics : Bool) (p : Program) : Response :=
  .ofOutput (p.text ++ "\n\n" ++ p.printed ++
    if statistics then p.statistics else "")

/-- Saves a compiled program. -/
def saveProgram (file : String) (p : Program) : Effect :=
  let bytes := p.toBytes
  .save file bytes
    (.ofOutput ("wrote " ++ toString p.size ++ " ops (" ++
      toString bytes.length ++ " bytes) to " ++ file ++ "\n"))

/-- Reports on a run: what it wrote, its variables and its value. -/
def reportRun (halt : Halt) : Response :=
  let written := Text.decodeCut halt.machine.output.toList
  match halt.value with
  | .error fault =>
      { code := 1, output := written, errors := fault.message ++ "\n" }
  | .ok result =>
    .ofOutput (written ++ "\n" ++ halt.machine.store.text ++
      match result with
      | some value => "result = " ++ value.toText ++ "\n"
      | none => "")

/-- The program that a source text compiles to, or the failure to compile it. -/
def compileText (text : String) : Except Response Program :=
  orFailure ((Compilation.ofText .precedence text).map (·.program))

/-- The program in a file, saved or to be compiled, or the failure to get
one. -/
def loadProgram (file : String) (content : Except String (List UInt8)) :
    Except Response Program :=
  if isProgramFile file then do
    let bytes ← content.mapError (.unreadable file)
    orFailure (Program.load bytes)
  else do compileText (← sourceText file content)

/-- Carries out a command on the content of its file, or on the reason why that
cannot be read. Only a run can need more than a budget allows. -/
def Command.perform (budget : Nat) (content : Except String (List UInt8))
    (input : List UInt8) : Command → Option Effect
  | tokens file style =>
    some (.answer (settled (sourceText file content >>= listTokens style)))
  | table => some (.answer (settled showTable))
  | check file trace checker =>
    some (.answer
      (settled (sourceText file content >>= checkText trace checker)))
  | compile file save statistics =>
    match sourceText file content >>= compileText with
    | .error response => some (.answer response)
    | .ok p =>
      match save with
      | some target => some (saveProgram target p)
      | none => some (.answer (listProgram statistics p))
  | run file limit =>
    match loadProgram file content with
    | .error response => some (.answer response)
    | .ok p => (p.execute limit budget input).map fun halt =>
        .answer (reportRun halt)

end Reckon.CommandLine
