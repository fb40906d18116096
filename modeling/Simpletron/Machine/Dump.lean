import Simpletron.Machine
import Simpletron.Text.Blank

namespace Simpletron.Machine

open Text Text.Numeral

def register (m : Machine) : Word :=
  if h : m.ip < 100 then m.memory[m.ip] else 0

def registerLine (name value : String) : String := alignLeft 20 name ++ alignRight 5 value

def header : String :=
  "  " ++ String.join ((List.range 10).map fun c : Nat => alignRight 6 (plain.print c))

def row (m : Machine) (r : Nat) : String :=
  alignRight 2 (plain.print (10 * r : Nat)) ++
    String.join (((m.memory.words.drop (10 * r)).take 10).map fun w => " " ++ word.print w.toInt)

def dumpLines (m : Machine) : List String :=
  let current := m.register.toInt
  [ "REGISTERS:",
    registerLine "accumulator" (word.print m.accumulator.toInt),
    registerLine "instructionCounter" (half.print m.ip),
    registerLine "instructionRegister" (word.print current),
    registerLine "operationCode" (half.print (current.tdiv 100)),
    registerLine "operand" (half.print (current.tmod 100)),
    "",
    "MEMORY:",
    header ] ++ (List.range 10).map m.row

def dump (m : Machine) : String := String.join (m.dumpLines.map (· ++ "\n"))

end Simpletron.Machine
