import Simpletron.Interplay

/-! The program as it is run: `simpletron [PROGRAM] [--dump]`. Nothing but reading and printing is
here. -/

namespace Simpletron.Main

open Interplay

def say (text : String) : IO Unit := do
  let out ← IO.getStdout
  out.putStr text
  out.flush

partial def nextLine? (seen : ByteArray := .empty) : IO (Option (List UInt8)) := do
  let byte ← (← IO.getStdin).read 1
  if byte.isEmpty then
    return if seen.isEmpty then none else some seen.toList
  else if byte.toList.all Stream.isLineEnd then
    return some seen.toList
  else
    nextLine? (seen ++ byte)

def failure : IO.Error → Stream.Failure
  | .noFileOrDirectory .. => .notFound
  | .inappropriateType .. => .isDirectory
  | .permissionDenied _ code _ => .system code.toNat "Permission denied"
  | err => .system 0 (toString err)

def contents (path : String) : IO (Except Stream.Failure (List UInt8)) := do
  try
    return .ok (← IO.FS.readBinFile path).toList
  catch err =>
    return .error (failure err)

partial def interact (dump : Bool) (ph : Phase) : IO UInt32 := do
  match ph.move dump with
  | .goes (text, next) =>
    say text
    interact dump next
  | .asks prompt hear =>
    say prompt
    let (text, next) := hear (← nextLine?)
    say text
    interact dump next
  | .stops exit complaint =>
    complaint.forM fun c => IO.eprint c.text
    return exit.toUInt32

def source (path? : Option String) : IO CommandLine.Source := do
  match path? with
  | some path => return .file path (← contents path)
  | none => return .dialogue

end Simpletron.Main

open Simpletron in
def main (args : List String) : IO UInt32 := do
  let (text, ph) := Interplay.begin (← Main.source (args.find? (· ≠ "--dump")))
  Main.say text
  Main.interact (args.contains "--dump") ph
