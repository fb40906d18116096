import Simpletron.Terminal
import Simpletron.Word

namespace Simpletron

inductive Fault : Type
  | zeroDivisor (location : Nat)
  | unknownOpcode (code : Int) (location : Nat)
  | outsideMemory (address : Nat)
  | unfit (value : Int)
  | terminal (cause : Terminal.Failure)
  | interrupted
  | notActive
  deriving DecidableEq

open Text.Numeral

def Word.refusal (v : Int) : String := plain.print v ++ " does not fit in a word (-9999 to 9999)"

def Fault.message : Fault → String
  | .zeroDivisor a => "attempt to divide by zero (divisor at location " ++ half.print a ++ ")"
  | .unknownOpcode code a =>
    "invalid operation code " ++ plain.print code ++ " at location " ++ half.print a
  | .outsideMemory a => "address " ++ plain.print a ++ " is outside of memory (00-99)"
  | .unfit v => "value " ++ Word.refusal v
  | .terminal cause => cause.message
  | .interrupted => "execution interrupted"
  | .notActive => "machine is halted"

namespace Word

def check (v : Int) : Except Fault Word :=
  match ofInt? v with
  | some w => .ok w
  | none => .error (.unfit v)

theorem check_eq_ok_iff {v : Int} {w : Word} : check v = .ok w ↔ InRange v ∧ w.toInt = v := by
  rw [← ofInt?_eq_some_iff]
  cases h : ofInt? v <;> simp [check, h]

theorem check_eq_error_iff {v : Int} {f : Fault} :
    check v = .error f ↔ ¬ InRange v ∧ f = .unfit v := by
  rw [← ofInt?_eq_none_iff]
  cases h : ofInt? v <;> simp [check, h, eq_comm]

end Word

end Simpletron
