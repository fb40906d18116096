import Simpletron.Machine

/-! Machines that take over each other's memory, one after another, at one terminal. A machine's
interrupt flag stays within reach after the machine is gone: its handle is the machine's number,
counted from 0. -/

namespace Simpletron

structure Bench (τ : Type) : Type where
  machine : Machine
  terminal : τ
  retired : List Bool := []

namespace Bench

variable {τ : Type}

def newest (b : Bench τ) : Nat := b.retired.length

def isRaised (b : Bench τ) (handle : Nat) : Bool :=
  (b.retired ++ [b.machine.interrupt]).getD handle false

def setFlag (b : Bench τ) (handle : Nat) (up : Bool) : Bench τ :=
  if handle = b.newest then { b with machine := { b.machine with interrupt := up } }
  else { b with retired := b.retired.set handle up }

def raise (b : Bench τ) (handle : Nat) : Bench τ := b.setFlag handle true

def lower (b : Bench τ) (handle : Nat) : Bench τ := b.setFlag handle false

def fresh (b : Bench τ) : Bench τ :=
  { machine := .boot b.machine.memory
    terminal := b.terminal
    retired := b.retired ++ [b.machine.interrupt] }

def after (b : Bench τ) (turn : Machine.Turn τ) : Bench τ :=
  { b with machine := turn.machine, terminal := turn.terminal }

def step [Device τ] (b : Bench τ) : Except Fault Status × Bench τ :=
  let turn := b.machine.step b.terminal
  (turn.result, b.after turn)

def run [Device τ] (limit : Nat) (b : Bench τ) : Option (Except Fault Status × Bench τ) :=
  (b.machine.run limit b.terminal).map fun turn => (turn.result, b.after turn)

end Bench

end Simpletron
