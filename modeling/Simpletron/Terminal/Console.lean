import Simpletron.Terminal
import Simpletron.Text.Blank
import Simpletron.Text.Lines
import Simpletron.Text.Numeral
import Simpletron.Word

namespace Simpletron

structure Console : Type where
  input : List UInt8
  output : Stream.Output := {}

namespace Console

def prompt : String := "Enter an integer: "

def rejection : String := "*** Please enter a value between -9999 and 9999 ***\n"

def word? (cs : List Char) : Option Word :=
  (Text.Numeral.readBits? 32 (Text.trim cs)).bind Word.ofInt?

def judge (line : List UInt8) : Except Stream.Failure (Option Word) :=
  (Stream.decode line).map fun text => word? text.toList

/-- One round: the prompt, a line, and a complaint if the line holds no word. The line has been
consumed whatever it holds. -/
def ask (c : Console) : Except Terminal.Failure (Option Word) × Console :=
  let prompted := { c with output := c.output.send prompt }
  if c.output.Fits prompt then
    match Text.firstLine? Stream.isLineEnd c.input with
    | none => (.error .exhausted, prompted)
    | some (line, rest) =>
      let taken := { prompted with input := rest }
      match judge line with
      | .error cause => (.error (.stream cause), taken)
      | .ok (some w) => (.ok (some w), taken)
      | .ok none =>
        let rejected := { taken with output := taken.output.send rejection }
        if taken.output.Fits rejection then (.ok none, rejected)
        else (.error (.stream .noRoom), rejected)
  else (.error (.stream .noRoom), prompted)

section Ask

variable {input line rest : List UInt8} {out : Stream.Output}

theorem ask_of_not_fits (h : ¬ out.Fits prompt) :
    ask ⟨input, out⟩ = (.error (.stream .noRoom), ⟨input, out.send prompt⟩) := by
  simp [ask, h]

theorem ask_nil (h : out.Fits prompt) :
    ask ⟨[], out⟩ = (.error .exhausted, ⟨[], out.send prompt⟩) := by
  simp [ask, h, Text.firstLine?]

variable (hfirst : Text.firstLine? Stream.isLineEnd input = some (line, rest))
include hfirst

theorem ask_of_error (h : out.Fits prompt) {cause : Stream.Failure} (hj : judge line = .error cause) :
    ask ⟨input, out⟩ = (.error (.stream cause), ⟨rest, out.send prompt⟩) := by
  simp [ask, h, hfirst, hj]

theorem ask_of_some (h : out.Fits prompt) {w : Word} (hj : judge line = .ok (some w)) :
    ask ⟨input, out⟩ = (.ok (some w), ⟨rest, out.send prompt⟩) := by
  simp [ask, h, hfirst, hj]

theorem ask_of_none (h : out.Fits prompt) (hr : (out.send prompt).Fits rejection)
    (hj : judge line = .ok none) :
    ask ⟨input, out⟩ = (.ok none, ⟨rest, (out.send prompt).send rejection⟩) := by
  simp [ask, h, hr, hfirst, hj]

theorem ask_of_none_of_not_fits (h : out.Fits prompt) (hr : ¬ (out.send prompt).Fits rejection)
    (hj : judge line = .ok none) :
    ask ⟨input, out⟩ = (.error (.stream .noRoom), ⟨rest, (out.send prompt).send rejection⟩) := by
  simp [ask, h, hr, hfirst, hj]

end Ask

theorem length_lt_of_ask {c d : Console} {r : Option Word} (h : c.ask = (.ok r, d)) :
    d.input.length < c.input.length := by
  unfold ask at h
  split at h
  · split at h
    · cases h
    · rename_i line rest hl
      have := Text.length_lt_of_firstLine? _ hl
      split at h
      · cases h
      · cases h
        exact this
      · dsimp only at h
        split at h <;> cases h
        exact this
  · cases h

def read (c : Console) : Except Terminal.Failure Word × Console :=
  match _h : c.ask with
  | (.error cause, d) => (.error cause, d)
  | (.ok (some w), d) => (.ok w, d)
  | (.ok none, d) => d.read
termination_by c.input.length
decreasing_by exact length_lt_of_ask ‹_›

theorem read_of_ask_error {c d : Console} {cause : Terminal.Failure} (h : c.ask = (.error cause, d)) :
    c.read = (.error cause, d) := by
  rw [read, h]

theorem read_of_ask_word {c d : Console} {w : Word} (h : c.ask = (.ok (some w), d)) :
    c.read = (.ok w, d) := by
  rw [read, h]

theorem read_of_ask_again {c d : Console} (h : c.ask = (.ok none, d)) : c.read = d.read := by
  rw [read, h]

def line (v : Int) : String := "Output: " ++ Text.Numeral.plain.print v ++ "\n"

def write (v : Int) (c : Console) : Except Terminal.Failure Unit × Console :=
  (if c.output.Fits (line v) then .ok () else .error (.stream .noRoom),
    { c with output := c.output.send (line v) })

instance : Terminal Console where
  read c :=
    let (result, c) := c.read
    { result := result.map Int32.toInt, terminal := c }
  write v c :=
    let (result, c) := c.write v
    { result := result, terminal := c }

end Console

end Simpletron
