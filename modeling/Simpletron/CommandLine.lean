import Simpletron.Machine.Dump
import Simpletron.Program.Dialogue
import Simpletron.Terminal.Console

namespace Simpletron.CommandLine

inductive Source : Type
  | file (path : String) (contents : Except Stream.Failure (List UInt8))
  | dialogue

structure Complaint : Type where
  doing : String
  causes : List String

namespace Complaint

open Text Text.Numeral

def causeLines : List String → List String
  | [cause] => ["    " ++ cause]
  | causes => causes.mapIdx fun i cause => alignRight 5 (plain.print i) ++ ": " ++ cause

def text (c : Complaint) : String :=
  "Error: " ++ c.doing ++ "\n\nCaused by:\n" ++ String.join ((causeLines c.causes).map (· ++ "\n"))

end Complaint

def causes : Program.Error → List String
  | .stream cause => [(Program.Error.stream cause).message, cause.message]
  | err => [err.message]

structure Loading : Type where
  said : String
  result : Except Complaint Memory
  rest : List UInt8

def parseFile (path : String) (contents : Except Stream.Failure (List UInt8)) :
    Except Complaint Memory :=
  match contents.bind Stream.decode with
  | .error cause => .error ⟨"failed to read " ++ path, [cause.message]⟩
  | .ok source =>
    (Program.parse source).mapError fun err => ⟨"failed to load " ++ path, causes err⟩

def unentered (err : Program.Error) : Complaint := ⟨"failed to load program", causes err⟩

def Source.load (input : List UInt8) : Source → Loading
  | .file path contents => ⟨"", parseFile path contents, input⟩
  | .dialogue =>
    let transcript := Program.Dialogue.transcript input
    ⟨transcript.said, transcript.result.mapError unentered, transcript.rest⟩

def opening : String :=
  "*** Program loading completed ***\n*** Program execution begins  ***\n"

def verdict : Except Fault Status → String
  | .ok _ => "*** Simpletron execution terminated ***\n"
  | .error f =>
    "*** " ++ f.message ++ " ***\n*** Simpletron execution abnormally terminated ***\n"

def exitStatus : Except Fault Status → Nat
  | .ok _ => 0
  | .error _ => 1

def closing (dump : Bool) (result : Except Fault Status) (m : Machine) : String :=
  verdict result ++ if dump then m.dump else ""

structure Report : Type where
  stdout : String
  complaint : Option Complaint := none
  exit : Nat

/-- `none` if the program is still running after `limit` instructions. -/
def execute (limit : Nat) (source : Source) (dump : Bool) (input : List UInt8) : Option Report :=
  let loading := source.load input
  match loading.result with
  | .error complaint => some { stdout := loading.said, complaint := some complaint, exit := 1 }
  | .ok memory =>
    ((Machine.boot memory).run limit ({ input := loading.rest } : Console)).map fun turn =>
      { stdout := loading.said ++ opening ++ turn.terminal.output.sent ++
          closing dump turn.result turn.machine
        exit := exitStatus turn.result }

end Simpletron.CommandLine
