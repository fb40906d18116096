import Simpletron.Text.Numeral

namespace Simpletron.Stream

inductive Failure : Type
  | notText
  | noRoom
  | system (code : Nat) (reason : String)
  deriving DecidableEq

namespace Failure

def notFound : Failure := .system 2 "No such file or directory"

def isDirectory : Failure := .system 21 "Is a directory"

def message : Failure → String
  | .notText => "stream did not contain valid UTF-8"
  | .noRoom => "failed to write whole buffer"
  | .system code reason => reason ++ " (os error " ++ Text.Numeral.plain.print code ++ ")"

end Failure

def isLineEnd (b : UInt8) : Bool := b == 10

def decode (bytes : List UInt8) : Except Failure String :=
  match String.fromUTF8? bytes.toByteArray with
  | some text => .ok text
  | none => .error .notText

/-- What has been sent so far, and how many characters the far end still takes; `none` is no limit.
All that is ever sent is ASCII, where a character is a byte. -/
structure Output : Type where
  sent : String := ""
  room : Option Nat := none
  deriving DecidableEq

namespace Output

def send (out : Output) (text : String) : Output :=
  match out.room with
  | none => { out with sent := out.sent ++ text }
  | some n =>
    { sent := out.sent ++ String.ofList (text.toList.take n), room := some (n - text.length) }

def Fits (out : Output) (text : String) : Prop := ∀ n ∈ out.room, text.length ≤ n

instance (out : Output) (text : String) : Decidable (out.Fits text) :=
  match h : out.room with
  | none => isTrue (by simp [Fits, h])
  | some n => decidable_of_iff (text.length ≤ n) (by simp [Fits, h])

@[simp] theorem fits_endless (sent text : String) : Fits ⟨sent, none⟩ text := nofun

@[simp] theorem send_endless (sent text : String) : send ⟨sent, none⟩ text = ⟨sent ++ text, none⟩ :=
  rfl

end Output

end Simpletron.Stream
