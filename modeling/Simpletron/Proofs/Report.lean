import Simpletron.Proofs.Entry
import Simpletron.Proofs.Transcript

namespace Simpletron

open Text
open Simpletron.Console (Enlists Mirrors Shows)

theorem Console.exists_mirrors_of_run (m : Machine) {input : List UInt8} {ws : List Word}
    (hws : Enlists input ws) {limit : Nat} {turn : Machine.Turn Script}
    (h : m.run limit ({ inputs := ws.map Int32.toInt } : Script) = some turn) :
    ∃ (c : Console) (y : Journal Script),
      m.run limit ({ input := input } : Console) = some ⟨turn.result, turn.machine, c⟩ ∧
      m.run limit (Journal.mk ({ inputs := ws.map Int32.toInt } : Script) []) =
        some ⟨turn.result, turn.machine, y⟩ ∧
      y.terminal = turn.terminal ∧ Mirrors input c y := by
  let script : Script := { inputs := ws.map Int32.toInt }
  have hlog := Journal.simulation.resume (s := Journal.mk script []) rfl m.restart limit
  have hconsole := (mirrors_simulation input).resume (mirrors_boot hws) m.restart limit
  rw [Machine.run] at h
  rw [h] at hlog
  simp only [Machine.run]
  generalize m.restart.resume limit (Journal.mk script []) = y at hlog hconsole
  generalize m.restart.resume limit ({ input := input } : Console) = x at hconsole
  cases hlog with
  | @some y _ hlog =>
    cases hconsole with
    | @some x _ hconsole =>
      obtain ⟨result, machine, y⟩ := y
      obtain ⟨result', machine', c⟩ := x
      obtain ⟨rfl, rfl, hterminal⟩ := hlog
      obtain ⟨rfl, rfl, hmirrors⟩ := hconsole
      exact ⟨c, y, rfl, rfl, hterminal, hmirrors⟩

namespace CommandLine

/-- The program ends as the run on the script of the words in the input ends. -/
theorem execute_reports (path s t : String) (dump : Bool) :
    let file := Source.file path (.ok (utf8 s.toList))
    let input := utf8 t.toList
    (∀ err, Program.parse s = .error err → ∀ limit,
      execute limit file dump input =
        some ⟨"", some ⟨"failed to load " ++ path, causes err⟩, 1⟩) ∧
    ∃ ws, (∀ vs, Enlists input vs ↔ vs = ws) ∧
      let script : Script := { inputs := ws.map Int32.toInt }
      ∀ memory, Program.parse s = .ok memory →
        ∀ limit turn, (Machine.boot memory).run limit script = some turn →
          ∃ (c : Console) (y : Journal Script) (report : Report),
            (Machine.boot memory).run limit (Journal.mk script []) =
              some ⟨turn.result, turn.machine, y⟩ ∧ y.terminal = turn.terminal ∧
            Shows input y.requests c.output.sent c.input ∧
            turn.terminal.outputs.toList = y.requests.filterMap Request.told? ∧
            execute limit file dump input = some report ∧
            Tells "" dump ⟨turn.result, turn.machine, c⟩ report := by
  intro file input
  refine ⟨fun err herr limit => ?_, _, fun vs => Console.enlists_utf8_iff, ?_⟩
  · rw [execute, load_file, herr]
    rfl
  · intro script memory hmemory limit turn hturn
    obtain ⟨c, y, hconsole, hlog, hterminal, hmirrors⟩ :=
      Console.exists_mirrors_of_run _ (Console.enlists_lines t.toList) hturn
    have hload : file.load input = ⟨"", .ok memory, input⟩ := by
      rw [load_file, hmemory]
      rfl
    have hexecute := execute_of_load hload limit dump
    rw [hconsole] at hexecute
    generalize execute limit file dump input = x at hexecute
    cases hexecute with
    | some htells =>
      exact ⟨c, y, _, hlog, hterminal, hmirrors.shows, hterminal ▸ hmirrors.outputs, rfl, htells⟩

theorem execute_reports_fault :
    let s := "1003\n1103\n1003\n"
    let memory := ((Memory.blank.set 0 (by decide) 1003).set 1 (by decide) 1103).set 2 (by decide) 1003
    let file := Source.file "echo.sml" (.ok (utf8 s.toList))
    let input := utf8 "7up\n7".toList
    Program.parse s = .ok memory ∧ Enlists input [7] ∧
      ∃ turn report, (Machine.boot memory).run 3 ({ inputs := [7] } : Script) = some turn ∧
        turn.result = .error (.terminal .exhausted) ∧ turn.terminal.outputs = #[7] ∧
        execute 3 file false input = some report ∧ report.exit = 1 ∧
        report.stdout = "*** Program loading completed ***\n" ++
          "*** Program execution begins  ***\n" ++
          "Enter an integer: *** Please enter a value between -9999 and 9999 ***\n" ++
          "Enter an integer: Output: 7\nEnter an integer: *** ran out of input ***\n" ++
          "*** Simpletron execution abnormally terminated ***\n" := by
  intro s memory file input
  have hparse : Program.parse s = .ok memory := by decide +kernel
  have hlist : Enlists input [7] := Console.enlists_utf8_iff.mpr (by decide +kernel)
  have hrun : ((Machine.boot memory).run 3 ({ inputs := [7] } : Script)).map
      (fun turn => (turn.result, turn.terminal.outputs)) =
      some (.error (.terminal .exhausted), #[7]) := by decide +kernel
  have hexecute : (execute 3 file false input).map (fun report => (report.exit, report.stdout)) =
      some (1, "*** Program loading completed ***\n" ++ "*** Program execution begins  ***\n" ++
        "Enter an integer: *** Please enter a value between -9999 and 9999 ***\n" ++
        "Enter an integer: Output: 7\nEnter an integer: *** ran out of input ***\n" ++
        "*** Simpletron execution abnormally terminated ***\n") := by decide +kernel
  obtain ⟨turn, hturn, houtcome⟩ := Option.map_eq_some_iff.mp hrun
  obtain ⟨-, ws, hws, hreports⟩ := execute_reports "echo.sml" s "7up\n7" false
  obtain rfl : [7] = ws := (hws [7]).mp hlist
  obtain ⟨_, _, report, -, -, -, -, hreport, -⟩ := hreports memory hparse 3 turn hturn
  rw [hreport, Option.map_some, Option.some.injEq] at hexecute
  obtain ⟨hresult, houtputs⟩ := Prod.mk.inj houtcome
  obtain ⟨hexit, hstdout⟩ := Prod.mk.inj hexecute
  exact ⟨hparse, hlist, turn, report, hturn, hresult, houtputs, hreport, hexit, hstdout⟩

end CommandLine

end Simpletron
