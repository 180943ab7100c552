import Reckon.Sorting
import Reckon.Token.Basic

/-!
# Advice about names

Findings about declarations, uses, labels and jumps that do not stop a program
from being compiled. Occurrences are collected in one pass: from `var` to
`begin` an identifier declares a name, from `begin` to `end` it uses one, and
there a label is defined before a colon and targeted behind `goto`. Where both
stretches overlap, as they can in a text that is no program, an identifier
declares.

Findings are ordered by line. On one line unused declarations come first, then
undeclared uses, then remarks about definitions, then jumps to nowhere.
-/

namespace Reckon

/-- A name at a line. -/
structure Mention where
  name : String
  line : Nat
deriving DecidableEq, Repr

/-- The occurrences of names by what they do, each in the order of the text. -/
structure Mentions where
  declared : List Mention := []
  used : List Mention := []
  defined : List Mention := []
  targeted : List Mention := []
deriving Repr

namespace Mentions

/-- Where in a program a token stands. -/
structure Place where
  declares : Bool := false
  inBody : Bool := false

/-- The place behind a token. -/
def Place.after (place : Place) (token : Token) : Place :=
  if token.isKeyword "var" then { place with declares := true }
  else if token.isKeyword "begin" then { declares := false, inBody := true }
  else if token.isKeyword "end" then { place with inBody := false }
  else place

/-- What one token mentions, given its neighbours. -/
def ofToken (place : Place) (before : Option Token) (token : Token)
    (after : Option Token) : Mentions :=
  match token with
  | .word (.identifier name) line _ =>
    if place.declares then { declared := [⟨name, line⟩] }
    else if place.inBody then { used := [⟨name, line⟩] }
    else {}
  | .word (.label name) line _ =>
    if place.inBody then
      { defined :=
          if after.any (·.isKeyword ":") then [⟨name, line⟩] else []
        targeted :=
          if before.any (·.isKeyword "goto") then [⟨name, line⟩] else [] }
    else {}
  | _ => {}

/-- Two stretches of text, one behind the other. -/
def append (a b : Mentions) : Mentions :=
  ⟨a.declared ++ b.declared, a.used ++ b.used, a.defined ++ b.defined,
    a.targeted ++ b.targeted⟩

/-- Everything that a row of tokens mentions. -/
def collect (place : Place) (before : Option Token) : List Token → Mentions
  | [] => {}
  | token :: rest =>
    append (ofToken place before token rest.head?)
      (collect (place.after token) (some token) rest)

/-- Whether a name is among some mentions. -/
def names (mentions : List Mention) (name : String) : Bool :=
  mentions.any fun m => m.name == name

/-- The first mention of each name. -/
def firsts (seen : List String) : List Mention → List Mention
  | [] => []
  | m :: rest =>
    if seen.contains m.name then firsts seen rest
    else m :: firsts (m.name :: seen) rest

end Mentions

/-- What can be found about a name. -/
inductive Finding where
  | unusedVariable (name : String)
  | undeclaredVariable (name : String)
  | repeatedLabel (name : String)
  | untargetedLabel (name : String)
  | undefinedLabel (name : String)
deriving DecidableEq, Repr

/-- How serious a finding is. -/
inductive Severity where
  | warning
  | error
deriving DecidableEq, Repr

namespace Finding

/-- What does no harm at run time is only a warning. -/
def severity : Finding → Severity
  | unusedVariable _ => .warning
  | undeclaredVariable _ => .error
  | repeatedLabel _ => .warning
  | untargetedLabel _ => .warning
  | undefinedLabel _ => .error

/-- The wording of a finding. -/
def message : Finding → String
  | unusedVariable name =>
      "variable '" ++ name ++ "' is declared but never used"
  | undeclaredVariable name =>
      "variable '" ++ name ++ "' is used but not declared"
  | repeatedLabel name =>
    "label '" ++ name ++ "' is defined again; jumps use the first definition"
  | untargetedLabel name => "label '" ++ name ++ "' is never a jump target"
  | undefinedLabel name => "jump to undefined label '" ++ name ++ "'"

end Finding

/-- A finding and the line it is about. -/
structure Diagnostic where
  finding : Finding
  line : Nat
deriving DecidableEq, Repr

namespace Diagnostic

open Mentions (names firsts)

/-- Declarations whose name is never used, every one of them. -/
def unused (m : Mentions) : List Diagnostic :=
  (m.declared.filter fun d => !names m.used d.name).map fun d =>
    ⟨.unusedVariable d.name, d.line⟩

/-- Names used but not declared, at their first use. -/
def undeclared (m : Mentions) : List Diagnostic :=
  ((firsts [] m.used).filter fun u => !names m.declared u.name).map fun u =>
    ⟨.undeclaredVariable u.name, u.line⟩

/-- Remarks about definitions of labels, given those before them. -/
def aboutDefinitions (targeted earlier : List Mention) :
    List Mention → List Diagnostic
  | [] => []
  | d :: rest =>
    let later := aboutDefinitions targeted (d :: earlier) rest
    if names earlier d.name then ⟨.repeatedLabel d.name, d.line⟩ :: later
    else if names targeted d.name then later
    else ⟨.untargetedLabel d.name, d.line⟩ :: later

/-- Labels that are targeted but not defined, at the first jump. -/
def undefined (m : Mentions) : List Diagnostic :=
  ((firsts [] m.targeted).filter fun t => !names m.defined t.name).map fun t =>
    ⟨.undefinedLabel t.name, t.line⟩

/-- All findings about a row of tokens, by line. -/
def ofTokens (tokens : List Token) : List Diagnostic :=
  let m := Mentions.collect {} none tokens
  sortBy (fun a b => a.line ≤ b.line)
    (unused m ++ undeclared m ++ aboutDefinitions m.targeted [] m.defined ++
      undefined m)

/-- The text of a finding. -/
def message (d : Diagnostic) : String :=
  let severity := match d.finding.severity with
    | .warning => "warning"
    | .error => "error"
  "line " ++ toString d.line ++ ": " ++ severity ++ ": " ++ d.finding.message

end Diagnostic

end Reckon
