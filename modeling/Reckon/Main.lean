import Reckon.CommandLine

/-!
# The program

Fetches the file of a command, carries the command out and does what it says.
-/

open Reckon CommandLine

/-- What the system says about a file it cannot open. -/
def Reckon.reasonOf (e : IO.Error) : String :=
  match e with
  | .noFileOrDirectory _ _ _ => "No such file or directory (os error 2)"
  | .permissionDenied _ _ _ => "Permission denied (os error 13)"
  | _ => toString e

/-- The content of a file, or the reason why there is none. -/
def Reckon.contentOf (file : String) : IO (Except String (List UInt8)) :=
  try return .ok (← IO.FS.readBinFile file).data.toList
  catch e => return .error (reasonOf e)

/-- Asks with a greater and greater budget until there is an answer. -/
partial def Reckon.settle {α : Type} (ask : Nat → Option α) (budget : Nat) :
  IO α :=
  match ask budget with
  | some answer => return answer
  | none => settle ask (8 * budget)

/-- Prints an answer; gives its exit code. -/
def Reckon.deliver (response : Response) : IO UInt32 := do
  (← IO.getStdout).putStr response.output
  (← IO.getStderr).putStr response.errors
  return UInt32.ofNat response.code

/-- Does what is left to do after a command. -/
def Reckon.finish : Effect → IO UInt32
  | .answer response => deliver response
  | .save file bytes response => do
    let failure ← try
        IO.FS.writeBinFile file ⟨bytes.toArray⟩
        pure none
      catch e => pure (some (reasonOf e))
    match failure with
    | none => deliver response
    | some reason => deliver (.unwritable file reason)

def main (arguments : List String) : IO UInt32 := do
  match Command.ofArguments? arguments with
  | none => deliver .usage
  | some command =>
    let content ← match command.file? with
      | some file => contentOf file
      | none => pure (.ok [])
    let input ← if command.readsInput then
        pure (← (← IO.getStdin).readBinToEnd).data.toList
      else pure []
    finish (← settle (fun budget => command.perform budget content input) 4096)
