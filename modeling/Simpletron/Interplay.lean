import Simpletron.CommandLine

/-! The program in front of its user, who sees every prompt before typing the line that it is for.
What is shown and asked for next depends on where the program stands, never on lines to come. -/

namespace Simpletron.Interplay

open CommandLine

inductive Phase : Type
  | entering (d : Program.Dialogue)
  | running (m : Machine)
  | ended (exit : Nat) (complaint : Option Complaint)

/-- What a phase does: it leads to another, with something to show, or asks for a line first. There
is no line at the end of the input. -/
inductive Move : Type
  | goes (next : String × Phase)
  | asks (prompt : String) (hear : Option (List UInt8) → String × Phase)
  | stops (exit : Nat) (complaint : Option Complaint)

def start (memory : Memory) : String × Phase := (opening, .running (.boot memory))

def enter (d : Program.Dialogue) : Option (List UInt8) → String × Phase
  | none => start d.draft.toMemory
  | some line =>
    match d.answer line with
    | .again said d => (said, .entering d)
    | .finished memory => start memory
    | .failed cause => ("", .ended 1 (some (unentered cause)))

def settle (dump : Bool) (shown : String) (turn : Machine.Turn Console) : String × Phase :=
  match turn.result with
  | .ok .active => (shown, .running turn.machine)
  | result => (shown ++ closing dump result turn.machine, .ended (exitStatus result) none)

def attempt (m : Machine) : Machine.Turn Console := m.step { input := [] }

/-- The step is taken again with the line, unless that has no word on it. -/
def supply (dump : Bool) (m : Machine) : Option (List UInt8) → String × Phase
  | none => settle dump "" (attempt m)
  | some line =>
    match Console.judge line with
    | .ok none => (Console.rejection, .running m)
    | _ => settle dump "" (m.step ({ input := line ++ [10] } : Console))

def Phase.move (dump : Bool) : Phase → Move
  | .entering d => .asks d.prompt (enter d)
  | .running m =>
    match (attempt m).result with
    | .error (.terminal .exhausted) => .asks (attempt m).terminal.output.sent (supply dump m)
    | _ => .goes (settle dump (attempt m).terminal.output.sent (attempt m))
  | .ended exit complaint => .stops exit complaint

def begin : Source → String × Phase
  | .file path contents =>
    match parseFile path contents with
    | .ok memory => start memory
    | .error complaint => ("", .ended 1 (some complaint))
  | .dialogue => (Program.Dialogue.welcome, .entering {})

end Simpletron.Interplay
