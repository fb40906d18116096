import Simpletron.Stream

namespace Simpletron

/-- The result of a call, the terminal after it, and whether someone raised the machine's interrupt
flag while the call was served. -/
structure Reply (ε τ α : Type) : Type where
  result : Except ε α
  terminal : τ
  raises : Bool := false

def Reply.mapError {ε ε' τ α : Type} (f : ε → ε') (reply : Reply ε τ α) : Reply ε' τ α :=
  { result := reply.result.mapError f, terminal := reply.terminal, raises := reply.raises }

namespace Terminal

inductive Failure : Type
  | exhausted
  | stream (cause : Stream.Failure)
  deriving DecidableEq

def Failure.message : Failure → String
  | .exhausted => "ran out of input"
  | .stream cause => "terminal error: " ++ cause.message

abbrev Reply (τ α : Type) : Type := Simpletron.Reply Failure τ α

end Terminal

class Terminal (τ : Type) where
  read : τ → Terminal.Reply τ Int
  write : Int → τ → Terminal.Reply τ Unit

end Simpletron
