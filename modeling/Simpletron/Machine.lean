import Simpletron.Instruction
import Simpletron.Memory

/-! The machine: an accumulator, an instruction pointer and a memory, stepping through a program
against a device. Instructions change the machine as they go; what they have changed when they fault
stays changed. -/

namespace Simpletron

/-- What a machine reads from and writes to. A device may fail with any fault at all, also with one
that is the machine's own to report. -/
class Device (τ : Type) where
  read : τ → Reply Fault τ Int
  write : Int → τ → Reply Fault τ Unit

instance {τ : Type} [Terminal τ] : Device τ where
  read t := (Terminal.read t).mapError .terminal
  write v t := (Terminal.write v t).mapError .terminal

inductive Status : Type
  | active
  | halted
  | faulted
  deriving DecidableEq

structure Machine : Type where
  memory : Memory
  ip : Nat := 0
  accumulator : Word := 0
  status : Status := .active
  /-- Raised from outside; it stops the machine before its next instruction and stays as it is until
  someone lowers it. -/
  interrupt : Bool := false
  deriving DecidableEq

namespace Machine

structure Turn (τ : Type) : Type where
  result : Except Fault Status
  machine : Machine
  terminal : τ

variable {τ α : Type}

def boot (memory : Memory) : Machine := { memory := memory }

def jump (m : Machine) (a : Nat) : Machine := { m with ip := a }

def advance (m : Machine) : Machine := m.jump (m.ip + 1)

def assign (m : Machine) (w : Word) : Machine := { m with accumulator := w }

def remember (m : Machine) (memory : Memory) : Machine := { m with memory := memory }

def flag (m : Machine) (up : Bool) : Machine := { m with interrupt := up }

def become (m : Machine) (status : Status) : Machine := { m with status := status }

def fetch (m : Machine) : Except Fault Instruction :=
  match m.memory.read m.ip with
  | .error f => .error f
  | .ok w => Instruction.decode w.toInt m.ip

abbrev Action (τ α : Type) : Type := EStateM Fault (Machine × τ) α

namespace Action

def machine : Action τ Machine := do return (← get).1

def update (f : Machine → Machine) : Action τ Unit := modify fun s => (f s.1, s.2)

/-- A call to the device. The flag may go up meanwhile; the instruction is completed all the same. -/
def call (f : τ → Reply Fault τ α) : Action τ α := do
  let (m, t) ← get
  let reply := f t
  set (m.flag (m.interrupt || reply.raises), reply.terminal)
  ofExcept reply.result

def advance : Action τ Unit := update Machine.advance

def jump (a : Nat) : Action τ Unit := update (Machine.jump · a)

def cell (a : Nat) : Action τ Word := do ofExcept ((← machine).memory.read a)

def keep (a : Nat) (v : Int) : Action τ Unit := do
  let memory ← ofExcept ((← machine).memory.write a v)
  update (remember · memory)

def accumulate (v : Int64) : Action τ Unit := do
  if Word.InRange v.toInt then update (assign · v.toInt32) else throw (.unfit v.toInt)

def input [Device τ] (a : Nat) : Action τ Unit := do
  let v ← call Device.read
  keep a v
  advance

def output [Device τ] (a : Nat) : Action τ Unit := do
  let w ← cell a
  call (Device.write w.toInt)
  advance

def load (a : Nat) : Action τ Unit := do
  let w ← cell a
  accumulate w.toInt64
  advance

def store (a : Nat) : Action τ Unit := do
  let m ← machine
  keep a m.accumulator.toInt
  advance

def combine (op : Int64 → Int64 → Int64) (a : Nat) : Action τ Unit := do
  let m ← machine
  let w ← cell a
  accumulate (op m.accumulator.toInt64 w.toInt64)
  advance

def divide (a : Nat) : Action τ Unit := do
  let w ← cell a
  if w.toInt64 = 0 then throw (.zeroDivisor a)
  let m ← machine
  accumulate (m.accumulator.toInt64 / w.toInt64)
  advance

def branchIf (test : Word → Bool) (a : Nat) : Action τ Unit := do
  let m ← machine
  if test m.accumulator then jump a else advance

def halt : Action τ Unit := update (become · .halted)

def perform [Device τ] (op : Opcode) (a : Nat) : Action τ Unit :=
  match op with
  | .read => input a
  | .write => output a
  | .load => load a
  | .store => store a
  | .add => combine (· + ·) a
  | .subtract => combine (· - ·) a
  | .divide => divide a
  | .multiply => combine (· * ·) a
  | .branch => jump a
  | .branchNeg => branchIf (· < 0) a
  | .branchZero => branchIf (· = 0) a
  | .halt => halt

def cycle [Device τ] : Action τ Unit := do
  let m ← machine
  let i ← ofExcept m.fetch
  perform i.opcode i.operand

end Action

def conclude : EStateM.Result Fault (Machine × τ) Unit → Turn τ
  | .ok _ (m, t) => ⟨.ok m.status, m, t⟩
  | .error f (m, t) => ⟨.error f, m.become .faulted, t⟩

def step [Device τ] (m : Machine) (t : τ) : Turn τ :=
  if m.status ≠ .active then ⟨.error .notActive, m, t⟩
  else if m.interrupt then conclude (.error .interrupted (m, t))
  else conclude (Action.cycle.run (m, t))

/-- Back to location 0 with an empty accumulator, whatever went before; the flag stays. -/
def restart (m : Machine) : Machine := { m with ip := 0, accumulator := 0, status := .active }

/-- Steps until the machine is no longer active; `none` if `limit` steps do not get there. -/
def resume [Device τ] : (limit : Nat) → Machine → τ → Option (Turn τ)
  | 0, _, _ => none
  | limit + 1, m, t =>
    let turn := m.step t
    match turn.result with
    | .ok .active => resume limit turn.machine turn.terminal
    | _ => some turn

def run [Device τ] (limit : Nat) (m : Machine) (t : τ) : Option (Turn τ) :=
  resume limit m.restart t

def turns [Device τ] : (n : Nat) → Machine → τ → List (Turn τ)
  | 0, _, _ => []
  | n + 1, m, t =>
    let turn := m.step t
    turn :: match turn.result with
      | .ok .active => turns n turn.machine turn.terminal
      | _ => []

end Machine

end Simpletron
