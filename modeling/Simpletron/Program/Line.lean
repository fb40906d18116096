import Simpletron.Fault
import Simpletron.Text.Blank

namespace Simpletron.Program

def sentinel : Int := -99999

inductive Line : Type
  | blank
  | sentinel
  | word (w : Word)
  | unfit (value : Int)
  | garbage (text : String)
  deriving DecidableEq

namespace Line

def ofValue (v : Int) : Line :=
  if v = Program.sentinel then .sentinel
  else match Word.ofInt? v with
    | some w => .word w
    | none => .unfit v

def code (cs : List Char) : List Char := Text.trim (cs.takeWhile (· ≠ '#'))

def ofCode (cs : List Char) : Line :=
  if cs = [] then .blank
  else match Text.Numeral.readBits? 64 cs with
    | some v => ofValue v
    | none => .garbage (String.ofList cs)

def ofText (cs : List Char) : Line := ofCode (code cs)

end Line

end Simpletron.Program
