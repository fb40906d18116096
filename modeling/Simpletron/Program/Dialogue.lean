import Simpletron.Program.Draft

namespace Simpletron.Program

structure Dialogue : Type where
  draft : Draft := .empty
  count : Nat := 0

namespace Dialogue

def welcome : String := String.join
  [ "*** Welcome to Simpletron! ***\n",
    "*** Please enter your program one instruction ***\n",
    "*** (or data word) at a time. I will type the ***\n",
    "*** location number and a question mark (?).  ***\n",
    "*** You then type the word for that location. ***\n",
    "*** Type the sentinel -99999 to stop entering ***\n",
    "*** your program. ***\n" ]

def prompt (d : Dialogue) : String := Text.Numeral.half.print d.draft.location ++ " ? "

def complaint (err : Error) : String := "*** " ++ err.message ++ ", try again ***\n"

inductive Outcome : Type
  | again (said : String) (dialogue : Dialogue)
  | finished (memory : Memory)
  | failed (cause : Error)

def answer (d : Dialogue) (line : List UInt8) : Outcome :=
  match Stream.decode line with
  | .error cause => .failed (.stream cause)
  | .ok text =>
    let n := d.count + 1
    match d.draft.takeText n text.toList with
    | .ok (.done, draft) => .finished draft.toMemory
    | .ok (_, draft) => .again "" ⟨draft, n⟩
    | .error .full => .failed .full
    | .error err => .again (complaint err) ⟨d.draft, n⟩

structure Transcript : Type where
  said : String
  result : Except Error Memory
  rest : List UInt8

/-- Goes on after `said` until the program is complete or has failed. The end of the input completes
it. -/
def converse (d : Dialogue) (said : String) (input : List UInt8) : Transcript :=
  let said := said ++ d.prompt
  match _h : Text.firstLine? Stream.isLineEnd input with
  | none => ⟨said, .ok d.draft.toMemory, []⟩
  | some (line, rest) =>
    match d.answer line with
    | .again more d => d.converse (said ++ more) rest
    | .finished memory => ⟨said, .ok memory, rest⟩
    | .failed cause => ⟨said, .error cause, rest⟩
termination_by input.length
decreasing_by exact Text.length_lt_of_firstLine? _ ‹_›

def transcript (input : List UInt8) : Transcript := converse {} welcome input

end Dialogue

end Simpletron.Program
