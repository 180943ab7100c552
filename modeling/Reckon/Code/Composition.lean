import Reckon.Store
import Reckon.Token.Basic

/-!
# From tokens to postfix

The tokens of a body are turned into postfix in one pass from the left. Values
go out at once; operators wait on a stack until one comes that binds less, and
go out then. Brackets and the constructs of the language wait on the same stack
and are taken off by what closes them:

* `if` by the line break. `then` puts out the jump that skips the statement, to
  a label made for it, and the line break puts out that label.
* `do` by `next`. The limit of the loop is kept in a variable made for it; `to`
  puts out the label where the test is, the end of the line the test itself,
  and `next` the step and the jump back to the label.
* `readl` and `writel` by the bracket behind their list. Each name goes out
  with the operation when the comma or the bracket behind it comes.

A line break sends every waiting operator out, down to the innermost loop.

This needs no grammar, and it recognises less than the grammar does: what is
wrong in a way that the stack does not notice is composed all the same. The
labels and variables that were made are known also when composing fails.
-/

namespace Reckon

/-- Why tokens cannot be composed. -/
inductive ComposeError where
  /-- There is no `begin` with an `end` behind it. -/
  | missingBody
  /-- A bracket has no partner. -/
  | unbalanced (token : String) (line : Nat)
  /-- A token that cannot stand here. -/
  | unexpected (token : String) (line : Nat)
  /-- A construct is still open where it has to be closed. -/
  | unterminated (construct : String) (line : Nat)
  /-- A loop without a variable to count in. -/
  | missingParameter (line : Nat)
deriving DecidableEq, Repr

namespace ComposeError

/-- The line of the error; a missing body is on no line. -/
def line? : ComposeError → Option Nat
  | missingBody => none
  | unbalanced _ line => some line
  | unexpected _ line => some line
  | unterminated _ line => some line
  | missingParameter line => some line

/-- What the error complains about. -/
def complaint : ComposeError → String
  | missingBody => "program has no begin/end body"
  | unbalanced token _ => "unbalanced '" ++ token ++ "'"
  | unexpected token _ => "unexpected '" ++ token ++ "'"
  | unterminated construct _ => "'" ++ construct ++ "' is not closed"
  | missingParameter _ => "loop has no parameter before '='"

def message (e : ComposeError) : String :=
  match e.line? with
  | none => "compose error: " ++ e.complaint
  | some line => "compose error: line " ++ toString line ++ ": " ++ e.complaint

end ComposeError

/-- What is known of an open loop: the variable it counts in, the variable of
its limit, and the labels of its test and of its end. -/
structure LoopContext where
  parameter : Option String := none
  limit : Option String := none
  entry : Option String := none
  exit : Option String := none
deriving DecidableEq, Repr

/-- Input or output of variables. -/
inductive Transfer where
  | read
  | write
deriving DecidableEq, Repr

namespace Transfer

def keyword : Transfer → String
  | read => "readl"
  | write => "writel"

def op : Transfer → Op
  | read => .read
  | write => .write

end Transfer

/-- What waits to be put out or to be closed. -/
inductive Pending where
  | operator (op : Op)
  | roundBracket
  | squareBracket
  /-- An `if`, with the label behind its statement once that is made. -/
  | branch (skip : Option String)
  | loop (context : LoopContext)
  | transfer (kind : Transfer)
deriving DecidableEq, Repr

/-- Something pending and the line of the token that made it so. -/
structure Frame where
  pending : Pending
  line : Nat
deriving DecidableEq, Repr

/-- How tightly an operator binds. -/
def Op.priority : Op → Nat
  | .assign => 2
  | .binary .or => 3
  | .binary .and => 4
  | .not => 5
  | .binary .eq | .binary .ne | .binary .lt | .binary .gt | .binary .le
  | .binary .ge => 6
  | .binary .add | .binary .sub => 7
  | .binary .mul | .binary .div | .neg => 8
  | _ => 0

namespace Pending

/-- Operators bind by their priority, all else not at all. -/
def priority : Pending → Nat
  | operator op => op.priority
  | _ => 0

/-- The text of the token. The minus sign of one operand shows as `@`. -/
def text : Pending → String
  | operator op => op.text
  | roundBracket => "("
  | squareBracket => "["
  | branch _ => "if"
  | loop _ => "do"
  | transfer kind => kind.keyword

def isBranch : Pending → Bool
  | branch _ => true
  | _ => false

def isLoop : Pending → Bool
  | loop _ => true
  | _ => false

def isTransfer (kind : Transfer) : Pending → Bool
  | transfer k => k = kind
  | _ => false

/-- What a text makes pending. Marks and the words inside constructs do not. -/
def ofText? : String → Option Pending
  | "if" => some (branch none)
  | "do" => some (loop {})
  | "readl" => some (transfer .read)
  | "writel" => some (transfer .write)
  | text => (Op.ofOperator? text).map operator

end Pending

namespace Frame

/-- Takes a frame off the stack as an operator. A bracket is reported where it
was opened, a construct where it should have been closed. -/
def release (f : Frame) (line : Nat) : Except ComposeError Op :=
  match f.pending with
  | .operator op => .ok op
  | .roundBracket | .squareBracket => .error (.unbalanced f.pending.text f.line)
  | _ => .error (.unterminated f.pending.text line)

/-- Puts out operators until a frame is to stay or none is left. -/
def unwind (stays : Pending → Bool) (line : Nat) :
    List Frame → Program → Except ComposeError (List Frame × Program)
  | [], p => .ok ([], p)
  | f :: rest, p =>
    if stays f.pending then .ok (f :: rest, p)
    else do
      let op ← f.release line
      unwind stays line rest (p.push op)

/-- The loop that is innermost. -/
def innermostLoop? : List Frame → Option LoopContext
  | [] => none
  | f :: rest =>
    match f.pending with
    | .loop context => some context
    | _ => innermostLoop? rest

/-- The `if` that is innermost, by its label once that is made. -/
def innermostBranch? : List Frame → Option (Option String)
  | [] => none
  | f :: rest =>
    match f.pending with
    | .branch skip => some skip
    | _ => innermostBranch? rest

/-- The innermost list of variables to be read or written, unless a round
bracket was opened inside it. -/
def openTransfer? : List Frame → Option Transfer
  | [] => none
  | f :: rest =>
    match f.pending with
    | .transfer kind => some kind
    | .roundBracket => none
    | _ => openTransfer? rest

end Frame

/-- The composer between two tokens. -/
structure Composer where
  /-- What has been put out. -/
  program : Program := {}
  /-- What is pending, innermost first. -/
  stack : List Frame := []
  /-- The labels made so far, behind those given at the start. -/
  labels : List String := []
  /-- The variables made so far, besides those given at the start. -/
  store : Store := .empty

/-- An error, and the labels and variables as they were when it came up. -/
structure ComposeFailure where
  error : ComposeError
  labels : List String
  store : Store

namespace Composer

/-- What composing gives: the result, or the failure. -/
abbrev Result (α : Type) := Except ComposeFailure α

def fail {α : Type} (c : Composer) (error : ComposeError) : Result α :=
  .error ⟨error, c.labels, c.store⟩

/-- Puts out some operations. -/
def emit (c : Composer) (ops : List Op) : Composer :=
  { c with program := c.program.pushAll ops }

/-- Puts out a label, as an operand. -/
def emitLabel (c : Composer) (name : String) : Composer :=
  { c with program := c.program.pushLabel name }

/-- Puts out a label and the mark that makes it a place to jump to. -/
def emitPlace (c : Composer) (name : String) : Composer :=
  (c.emitLabel name).emit [.mark]

/-- Lets something wait. -/
def await (c : Composer) (pending : Pending) (line : Nat) : Composer :=
  { c with stack := ⟨pending, line⟩ :: c.stack }

/-- Takes the innermost frame away. -/
def close (c : Composer) : Composer := { c with stack := c.stack.tail }

/-- Replaces what is pending innermost. -/
def replaceTop (c : Composer) (pending : Pending) : Composer :=
  match c.stack with
  | [] => c
  | f :: rest => { c with stack := { f with pending } :: rest }

/-- Puts out waiting operators until a frame is to stay. -/
def unwind (c : Composer) (stays : Pending → Bool) (line : Nat) :
    Result Composer :=
  match Frame.unwind stays line c.stack c.program with
  | .ok (stack, program) => .ok { c with stack, program }
  | .error error => c.fail error

/-- Puts out waiting operators down to a frame that has to be there. -/
def unwindTo (c : Composer) (target : Pending → Bool) (text : String)
    (line : Nat) : Result Composer := do
  let c ← c.unwind target line
  if c.stack.isEmpty then c.fail (.unbalanced text line) else return c

/-! ## Names made up -/

/-- The first number from one on that is not taken, of so many tried. -/
def freeNumber (taken : Nat → Bool) : (tries : Nat) → (first : Nat) → Nat
  | 0, first => first
  | tries + 1, first =>
      if taken first then freeNumber taken tries (first + 1) else first

/-- The name of a made label. -/
def labelName (n : Nat) : String := "_m" ++ toString n

/-- The name of a variable made for the limit of a loop. -/
def limitName (n : Nat) : String := "_r" ++ toString n

/-- Makes a label. Numbers go up from the number of labels there are. -/
def newLabel (c : Composer) : String × Composer :=
  let number := freeNumber (fun n => c.labels.contains (labelName n))
    c.labels.length (c.labels.length + 1)
  (labelName number, { c with labels := c.labels ++ [labelName number] })

/-- Makes a variable, with the value zero. Numbers go up from the number of
variables there are. -/
def newLimit (c : Composer) : String × Composer :=
  let number := freeNumber (fun n => c.store.contains (limitName n))
    c.store.size (c.store.size + 1)
  (limitName number, { c with store := c.store.set (limitName number) .zero })

/-! ## Constructs -/

/-- `then` ends the condition: what follows is skipped if it is false. -/
def openBranch (c : Composer) (line : Nat) : Result Composer := do
  let (skip, c) := c.newLabel
  let c ← c.unwindTo Pending.isBranch "if" line
  return ((c.emitLabel skip).emit [.jumpIfFalse]).replaceTop
    (.branch (some skip))

/-- The end of the line ends an `if`: the jump, and the place behind it. -/
def closeBranch (c : Composer) (skip : Option String) (line : Nat) :
    Result Composer :=
  match skip with
  | none => c.fail (.unterminated "if ... then" line)
  | some skip => do
    let c ← c.unwindTo Pending.isBranch "if" line
    return ((c.emit [.jump]).emitPlace skip).close

/-- The first equals sign of a loop follows its parameter. -/
def setParameter (c : Composer) (context : LoopContext) (line : Nat) :
    Result Composer :=
  match c.program.ops.getLast? with
  | some (.name name) =>
    .ok (c.replaceTop (.loop { context with parameter := some name }))
  | _ => c.fail (.missingParameter line)

/-- `to` ends the first value: here is the place of the test, and the limit is
about to be set. -/
def openLimit (c : Composer) (context : LoopContext) (line : Nat) :
    Result Composer := do
  let (limit, c) := c.newLimit
  let (entry, c) := c.newLabel
  let c ← c.unwindTo Pending.isLoop "do" line
  let c := (c.emitPlace entry).emit [.name limit]
  return c.replaceTop
    (.loop { context with limit := some limit, entry := some entry })

/-- The end of the line ends the limit: the body is skipped if the parameter is
above it. -/
def openBody (c : Composer) (context : LoopContext) (line : Nat) :
    Result Composer :=
  match context.parameter, context.limit with
  | some parameter, some limit => do
    let (exit, c) := c.newLabel
    let c ← c.unwindTo Pending.isLoop "do" line
    let c := c.emit [.assign, .name parameter, .name limit, .binary .le]
    let c := (c.emitLabel exit).emit [.jumpIfFalse]
    return c.replaceTop (.loop { context with exit := some exit })
  | _, _ => c.fail (.unterminated "do ... to" line)

/-- `next` ends the body: the parameter goes up by one, and the limit is set and
tested again. -/
def closeLoop (c : Composer) (context : LoopContext) (line : Nat) :
    Result Composer :=
  match context.parameter, context.entry, context.exit with
  | some parameter, some entry, some exit => do
    let c ← c.unwindTo Pending.isLoop "do" line
    let c := c.emit [.name parameter, .name parameter]
    let c := { c with program := c.program.pushConstant .one }
    let c := c.emit [.binary .add, .assign]
    let c := (c.emitLabel entry).emit [.jump]
    return (c.emitPlace exit).close
  | _, _, _ => c.fail (.unexpected "next" line)

/-- A closing bracket takes its partner away, or ends a list of variables. -/
def closeBracket (c : Composer) (round : Bool) (line : Nat) : Result Composer :=
  match (if round then Frame.openTransfer? c.stack else none) with
  | some kind => do
    let c := c.emit [kind.op]
    let c ← c.unwindTo (Pending.isTransfer kind) kind.keyword line
    return c.close
  | none =>
    let (partner, text) :=
      if round then (Pending.roundBracket, ")") else (.squareBracket, "]")
    match c.unwindTo (· = partner) partner.text line with
    | .ok c => .ok c.close
    | .error _ => c.fail (.unbalanced text line)

/-! ## One token -/

/-- Whether a minus sign behind this token has an operand on its left. -/
def followsOperand (before : Option Token) : Bool :=
  before.any fun t => t.isOperand || t.isKeyword ")" || t.isKeyword "]"

/-- What an innermost `if` makes of a text; nothing if it is not concerned. -/
def branchText? (c : Composer) (text : String) (line : Nat) :
    Option (Result Composer) :=
  match Frame.innermostBranch? c.stack with
  | none => none
  | some skip =>
    if text = "then" then some (c.openBranch line)
    else if text = "goto" then some (.ok c)
    else if text = lineBreak then some (c.closeBranch skip line)
    else none

/-- What an innermost loop makes of a text; nothing if it is not concerned. -/
def loopText? (c : Composer) (text : String) (line : Nat) :
    Option (Result Composer) :=
  match Frame.innermostLoop? c.stack with
  | none => none
  | some context =>
    if text = "to" then some (c.openLimit context line)
    else if text = lineBreak then
      if context.exit.isNone then some (c.openBody context line)
      else some (c.unwindTo Pending.isLoop "do" line)
    else if text = "next" then some (c.closeLoop context line)
    else none

/-- What an innermost list of variables makes of a text; nothing if it is not
concerned. The bracket and the comma that open the list say nothing. -/
def transferText? (c : Composer) (before : Option Token) (text : String) :
    Option (Result Composer) :=
  match Frame.openTransfer? c.stack with
  | none => none
  | some kind =>
    if text = "," then
      if before.any (·.isKeyword "(") then some (.ok c)
        else some (.ok (c.emit [kind.op]))
    else if text = "(" ∧ before.any (·.isKeyword kind.keyword) then some (.ok c)
    else none

/-- An operator, or the start of a construct. What binds as tightly or more is
put out first, but nothing beyond a loop. -/
def operatorText (c : Composer) (text : String) (token : Token) :
    Result Composer :=
  match Pending.ofText? text with
  | none => c.fail (.unexpected token.text token.line)
  | some pending => do
    let c ← c.unwind (fun top => top.isLoop || top.priority < pending.priority)
      token.line
    return c.await pending token.line

/-- Whether the innermost frame is a loop whose parameter is not known yet. -/
def awaitsParameter (c : Composer) : Option LoopContext :=
  match c.stack with
  | ⟨.loop context, _⟩ :: _ =>
      if context.parameter.isNone then some context else none
  | _ => none

/-- A fixed text that belongs to no construct. -/
def plainText (c : Composer) (text : String) (token : Token) :
    Result Composer :=
  if text = lineBreak then c.unwind Pending.isLoop token.line
  else if text = "(" then .ok (c.await .roundBracket token.line)
  else if text = "[" then .ok (c.await .squareBracket token.line)
  else c.operatorText text token

/-- Takes a fixed text. The innermost `if` is asked first, then the innermost
loop, then the innermost list. -/
def keyword (c : Composer) (before : Option Token) (text : String)
    (token : Token) : Result Composer :=
  let line := token.line
  if text = "-" ∧ !followsOperand before
    then .ok (c.await (.operator .neg) line)
  else if text = "!" then .ok (c.await (.operator .not) line)
  else if text = ")" then c.closeBracket true line
  else if text = "]" then c.closeBracket false line
  else match c.branchText? text line with
    | some result => result
    | none => match c.loopText? text line with
      | some result => result
      | none => do
        let c ← match text, c.awaitsParameter with
          | "=", some context => c.setParameter context line
          | _, _ => .ok c
        match c.transferText? before text with
        | some result => result
        | none => c.plainText text token

/-- Takes a token, given the one before it. -/
def feed (c : Composer) (before : Option Token) (token : Token) :
    Result Composer :=
  match token with
  | .word (.identifier name) _ _ =>
      .ok { c with program := c.program.pushName name }
  | .word (.constant value) _ _ =>
      .ok { c with program := c.program.pushConstant value }
  | .word (.label name) _ _ => .ok (c.emitLabel name)
  | .word (.keyword text) _ _ =>
    if text = ":" then .ok (c.emit [.mark]) else c.keyword before text token
  | .word (.nonterminal _) _ _ => c.fail (.unexpected token.text token.line)
  | .phrase _ _ => c.fail (.unexpected token.text token.line)

/-- Takes tokens one after the other. -/
def feedAll (c : Composer) (before : Option Token) :
    List Token → Result Composer
  | [] => .ok c
  | token :: rest => do
    let c ← c.feed before token
    feedAll c (some token) rest

/-- Ends the last line, unless a line break did. -/
def endLine (c : Composer) (last : Option Token) : Result Composer :=
  match last with
  | some token =>
    if token.isLineBreak then .ok c
    else c.feed last (.keyword lineBreak token.line)
  | none => .ok c

/-- Nothing may be pending at the end. -/
def finish (c : Composer) : Result Composer :=
  match c.stack with
  | [] => .ok c
  | ⟨.roundBracket, line⟩ :: _ => c.fail (.unbalanced "(" line)
  | ⟨.squareBracket, line⟩ :: _ => c.fail (.unbalanced "[" line)
  | ⟨pending, line⟩ :: _ => c.fail (.unterminated pending.text line)

/-- Composes tokens as they are: an expression, or statements without a program
around them. -/
def composeBare (tokens : List Token) (labels : List String) (store : Store) :
    Result Composer := do
  let c ← feedAll { labels, store } none tokens
  let c ← c.endLine tokens.getLast?
  c.finish

/-- The tokens between the first `begin` and the next `end`. -/
def body? (tokens : List Token) : Option (List Token) :=
  match tokens.dropWhile fun t => !t.isKeyword "begin" with
  | [] => none
  | _ :: rest =>
    if rest.any (·.isKeyword "end")
      then some (rest.takeWhile fun t => !t.isKeyword "end")
    else none

/-- Composes the body of a program. -/
def compose (tokens : List Token) (labels : List String) (store : Store) :
    Result Composer :=
  match body? tokens with
  | none => fail { labels, store } .missingBody
  | some body => composeBare body labels store

end Composer

end Reckon
