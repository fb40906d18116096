import Simpletron.Memory
import Simpletron.Program.Line
import Simpletron.Text.Lines

/-! Programs: one word a line, `#` before a comment, a sentinel before whatever is not read. A line in
error leaves a draft as it was, so that reading can go on after it. -/

namespace Simpletron.Program

inductive Error : Type
  | garbage (line : Nat) (text : String)
  | unfit (line : Nat) (value : Int)
  | full
  | stream (cause : Stream.Failure)
  deriving DecidableEq

open Text.Numeral

def Error.message : Error → String
  | .garbage n text => "line " ++ plain.print n ++ ": `" ++ text ++ "` is not a word"
  | .unfit n v => "line " ++ plain.print n ++ ": " ++ Word.refusal v
  | .full => "program does not fit in 100 words"
  | .stream cause => "could not read program: " ++ cause.message

structure Draft : Type where
  memory : Memory := .blank
  location : Nat := 0

namespace Draft

def empty : Draft := {}

inductive Receipt : Type
  | blank
  | stored (location : Nat)
  | done
  deriving DecidableEq

def append (d : Draft) (n : Nat) (w : Word) : Except Error (Receipt × Draft) :=
  if 100 ≤ d.location then .error .full
  else match d.memory.write d.location w.toInt with
    | .ok memory => .ok (.stored (d.location + 1), ⟨memory, d.location + 1⟩)
    | .error _ => .error (.unfit n w.toInt)

def take (d : Draft) (n : Nat) : Line → Except Error (Receipt × Draft)
  | .blank => .ok (.blank, d)
  | .sentinel => .ok (.done, d)
  | .word w => d.append n w
  | .unfit v => .error (.unfit n v)
  | .garbage text => .error (.garbage n text)

def takeValue (d : Draft) (n : Nat) (v : Int) : Except Error (Receipt × Draft) :=
  d.take n (.ofValue v)

def takeText (d : Draft) (n : Nat) (cs : List Char) : Except Error (Receipt × Draft) :=
  d.take n (.ofText cs)

def takeAll (d : Draft) (n : Nat) : List (List Char) → Except Error Draft
  | [] => .ok d
  | cs :: rest =>
    match d.takeText n cs with
    | .error e => .error e
    | .ok (.done, d) => .ok d
    | .ok (_, d) => d.takeAll (n + 1) rest

def toMemory (d : Draft) : Memory := d.memory

end Draft

def isLineEnd (c : Char) : Bool := c == '\n'

def parse (source : String) : Except Error Memory :=
  (Draft.empty.takeAll 1 (Text.lines isLineEnd source.toList)).map Draft.toMemory

end Simpletron.Program
