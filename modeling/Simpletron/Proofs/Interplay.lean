import Simpletron.Interplay
import Simpletron.Proofs.Asking
import Simpletron.Proofs.Entry
import Simpletron.Proofs.Requests

namespace Simpletron.Interplay

open Text CommandLine Console

/-- The report in the end, with this shown already and this input to come. -/
inductive Plays (dump : Bool) : String → Phase → List UInt8 → Report → Prop
  | goes {shown ph next input r} : ph.move dump = .goes next →
      Plays dump (shown ++ next.1) next.2 input r → Plays dump shown ph input r
  | typed {shown ph prompt hear input line rest r} : ph.move dump = .asks prompt hear →
      firstLine? Stream.isLineEnd input = some (line, rest) →
      Plays dump (shown ++ prompt ++ (hear (some line)).1) (hear (some line)).2 rest r →
      Plays dump shown ph input r
  | closed {shown ph prompt hear r} : ph.move dump = .asks prompt hear →
      Plays dump (shown ++ prompt ++ (hear none).1) (hear none).2 [] r → Plays dump shown ph [] r
  | stops {shown ph exit complaint input} : ph.move dump = .stops exit complaint →
      Plays dump shown ph input ⟨shown, complaint, exit⟩

variable {dump : Bool} {shown prompt : String} {ph : Phase} {next : String × Phase}
  {hear : Option (List UInt8) → String × Phase} {input line rest : List UInt8} {r : Report}
  {d : Program.Dialogue} {m : Machine} {c c' : Console} {turn : Machine.Turn Console}

section Plays

theorem plays_typed_iff (h : ph.move dump = .asks prompt hear)
    (hfirst : firstLine? Stream.isLineEnd input = some (line, rest)) :
    Plays dump shown ph input r ↔
      Plays dump (shown ++ prompt ++ (hear (some line)).1) (hear (some line)).2 rest r := by
  refine ⟨fun hplay => ?_, .typed h hfirst⟩
  cases hplay with
  | typed h' hfirst' hplay =>
    cases h.symm.trans h'
    cases hfirst.symm.trans hfirst'
    exact hplay
  | closed _ _ => cases hfirst
  | goes h' _ => cases h.symm.trans h'
  | stops h' => cases h.symm.trans h'

theorem plays_closed_iff (h : ph.move dump = .asks prompt hear) :
    Plays dump shown ph [] r ↔
      Plays dump (shown ++ prompt ++ (hear none).1) (hear none).2 [] r := by
  refine ⟨fun hplay => ?_, .closed h⟩
  cases hplay with
  | closed h' hplay =>
    cases h.symm.trans h'
    exact hplay
  | typed _ hfirst _ => cases hfirst
  | goes h' _ => cases h.symm.trans h'
  | stops h' => cases h.symm.trans h'

theorem plays_stops_iff {exit : Nat} {complaint : Option Complaint} :
    Plays dump shown (.ended exit complaint) input r ↔ r = ⟨shown, complaint, exit⟩ := by
  constructor
  · intro hplay
    cases hplay with
    | stops h =>
      cases h
      rfl
    | goes h _ => cases h
    | typed h _ _ => cases h
    | closed h _ => cases h
  · rintro rfl
    exact .stops rfl

end Plays

section Running

def finish (dump : Bool) (turn : Machine.Turn Console) : Report where
  stdout := turn.terminal.output.sent ++ closing dump turn.result turn.machine
  exit := exitStatus turn.result

def Runs (dump : Bool) (m : Machine) (c : Console) (r : Report) : Prop :=
  ∃ limit turn, m.resume limit c = some turn ∧ finish dump turn = r

theorem runs_of_active (h : (m.step c).result = .ok .active)
    (hruns : Runs dump (m.step c).machine (m.step c).terminal r) : Runs dump m c r := by
  obtain ⟨limit, turn, hresume, hfinish⟩ := hruns
  exact ⟨limit + 1, turn, by simpa only [Machine.resume, h] using hresume, hfinish⟩

theorem runs_of_stopped (h : (m.step c).result ≠ .ok .active) :
    Runs dump m c (finish dump (m.step c)) :=
  ⟨1, m.step c, by simp only [Machine.resume], rfl⟩

theorem runs_congr (h : m.step c = m.step c') (hruns : Runs dump m c' r) : Runs dump m c r := by
  obtain ⟨_ | limit, turn, hresume, hfinish⟩ := hruns
  · cases hresume
  · refine ⟨limit + 1, turn, ?_, hfinish⟩
    rw [← hresume, Machine.resume, Machine.resume, h]

theorem step_of_quiet (hq : m.request? ≠ some .read) (input : List UInt8) (shown : String) :
    m.step (⟨input, ⟨shown, none⟩⟩ : Console) =
      ⟨(attempt m).result, (attempt m).machine,
        ⟨input, ⟨shown ++ (attempt m).terminal.output.sent, none⟩⟩⟩ := by
  rw [attempt]
  cases hreq : m.request? with
  | none =>
    obtain ⟨_, _, hstep⟩ := Machine.silent_of_request? hreq
    rw [hstep, hstep, String.append_empty]
  | some q =>
    obtain ⟨k, hstep⟩ := Machine.asks_of_request? hreq
    cases q with
    | read => exact absurd hreq hq
    | write v =>
      rw [hstep, hstep]
      simp only [Request.serve, device_write, write_endless, String.empty_append]

theorem step_of_read (hq : m.request? = some .read) (h : c.read.1 = c'.read.1) :
    m.step c = ⟨(m.step c').result, (m.step c').machine, c.read.2⟩ := by
  obtain ⟨k, hstep⟩ := Machine.asks_of_request? hq
  rw [hstep, hstep]
  simp only [Request.serve, device_read rfl, h]

theorem read_nil (shown : String) :
    read ⟨[], ⟨shown, none⟩⟩ = (.error .exhausted, ⟨[], ⟨shown ++ Console.prompt, none⟩⟩) :=
  Settles.ended.read_eq shown

theorem read_of_rejected (hfirst : firstLine? Stream.isLineEnd input = some (line, rest))
    (hj : judge line = .ok none) (shown : String) :
    read ⟨input, ⟨shown, none⟩⟩ = read ⟨rest, ⟨shown ++ Console.prompt ++ rejection, none⟩⟩ :=
  read_of_ask_again (ask_of_none hfirst (Stream.Output.fits_endless _ _)
    (Stream.Output.fits_endless _ _) hj)

theorem exists_read_of_judge (hj : judge line ≠ .ok none) : ∃ result, ∀ input rest shown,
    firstLine? Stream.isLineEnd input = some (line, rest) →
      read ⟨input, ⟨shown, none⟩⟩ = (result, ⟨rest, ⟨shown ++ Console.prompt, none⟩⟩) := by
  cases hline : judge line with
  | error cause =>
    exact ⟨_, fun _ _ _ hfirst =>
      read_of_ask_error (ask_of_error hfirst (Stream.Output.fits_endless _ _) hline)⟩
  | ok word? =>
    cases word? with
    | none => exact absurd hline hj
    | some w =>
      exact ⟨_, fun _ _ _ hfirst =>
        read_of_ask_word (ask_of_some hfirst (Stream.Output.fits_endless _ _) hline)⟩

theorem step_of_line (hq : m.request? = some .read) (hj : judge line ≠ .ok none)
    (hfirst : firstLine? Stream.isLineEnd input = some (line, rest)) (shown : String) :
    m.step (⟨input, ⟨shown, none⟩⟩ : Console) =
      ⟨(m.step ({ input := line ++ [10] } : Console)).result,
        (m.step ({ input := line ++ [10] } : Console)).machine,
        ⟨rest, ⟨shown ++ Console.prompt, none⟩⟩⟩ := by
  obtain ⟨result, hread⟩ := exists_read_of_judge hj
  have halone : firstLine? Stream.isLineEnd (line ++ [10]) = some (line, []) :=
    firstLine?_append _ (not_ends_of_firstLine? _ hfirst) rfl []
  have hleft := hread input rest shown hfirst
  have hsame : (read ⟨input, ⟨shown, none⟩⟩).1 = (read { input := line ++ [10] }).1 := by
    rw [hleft, hread (line ++ [10]) [] "" halone]
  rw [step_of_read hq hsame, hleft]

theorem step_of_rejected (hq : m.request? = some .read) (hj : judge line = .ok none)
    (hfirst : firstLine? Stream.isLineEnd input = some (line, rest)) (shown : String) :
    m.step (⟨input, ⟨shown, none⟩⟩ : Console) =
      m.step (⟨rest, ⟨shown ++ Console.prompt ++ rejection, none⟩⟩ : Console) := by
  have hread := read_of_rejected hfirst hj shown
  have hlater := step_of_read (c := ⟨rest, ⟨shown ++ Console.prompt ++ rejection, none⟩⟩) hq rfl
  rw [step_of_read hq (congrArg Prod.fst hread), hread, ← hlater]

theorem result_attempt_iff :
    (attempt m).result = .error (.terminal .exhausted) ↔ m.request? = some .read := by
  constructor
  · intro h
    obtain ⟨q, hq, hserve⟩ := Machine.exists_request_of_terminal h
    cases q with
    | read => exact hq
    | write v =>
      rw [Request.serve, device_write, write_endless] at hserve
      cases hserve
  · intro hq
    refine Machine.result_of_serve_error hq ?_
    rw [Request.serve, device_read (read_nil "")]
    rfl

theorem move_of_read (hq : m.request? = some .read) :
    (Phase.running m).move dump = .asks Console.prompt (supply dump m) := by
  have hsent : (attempt m).terminal.output.sent = Console.prompt := by
    rw [attempt, step_of_read hq rfl, read_nil, String.empty_append]
  rw [Phase.move, result_attempt_iff.mpr hq, hsent]

theorem move_of_quiet (hq : m.request? ≠ some .read) : (Phase.running m).move dump =
    .goes (settle dump (attempt m).terminal.output.sent (attempt m)) := by
  have hresult := mt result_attempt_iff.mp hq
  simp only [Phase.move]

theorem supply_of_rejected (hj : judge line = .ok none) :
    supply dump m (some line) = (rejection, .running m) := by
  simp only [supply, hj]

theorem supply_of_accepted (hj : judge line ≠ .ok none) : supply dump m (some line) =
    settle dump "" (m.step ({ input := line ++ [10] } : Console)) := by
  simp only [supply]

theorem settle_of_active (h : turn.result = .ok .active) :
    settle dump shown turn = (shown, .running turn.machine) := by
  simp only [settle, h]

theorem settle_of_stopped (h : turn.result ≠ .ok .active) : settle dump shown turn =
    (shown ++ closing dump turn.result turn.machine, .ended (exitStatus turn.result) none) := by
  simp only [settle]

theorem step_of_closed (hq : m.request? = some .read) (shown : String) :
    m.step (⟨[], ⟨shown, none⟩⟩ : Console) =
      ⟨(attempt m).result, (attempt m).machine, ⟨[], ⟨shown ++ Console.prompt, none⟩⟩⟩ := by
  have hsame : (read ⟨[], ⟨shown, none⟩⟩).1 = (read { input := [] }).1 := by
    rw [read_nil, read_nil]
  rw [step_of_read hq hsame, read_nil, attempt]

theorem runs_of_settle {text : String}
    (hstep : m.step c = ⟨turn.result, turn.machine, ⟨input, ⟨shown ++ text, none⟩⟩⟩)
    (hplay : Plays dump (shown ++ (settle dump text turn).1) (settle dump text turn).2 input r)
    (ih : ∀ n, (settle dump text turn).2 = .running n →
      Runs dump n ⟨input, ⟨shown ++ (settle dump text turn).1, none⟩⟩ r) : Runs dump m c r := by
  by_cases hr : turn.result = .ok .active
  · rw [settle_of_active hr] at ih
    have hactive : (m.step c).result = .ok .active := by rw [hstep, hr]
    refine runs_of_active hactive ?_
    rw [hstep]
    exact ih _ rfl
  · rw [settle_of_stopped hr, plays_stops_iff, ← String.append_assoc] at hplay
    have hstopped : (m.step c).result ≠ .ok .active := by rwa [hstep]
    have hruns : Runs dump m c (finish dump (m.step c)) := runs_of_stopped hstopped
    rw [hstep] at hruns
    rw [hplay]
    exact hruns

theorem move_running (dump : Bool) (m : Machine) :
    m.request? = some .read ∧ (Phase.running m).move dump = .asks Console.prompt (supply dump m) ∨
      m.request? ≠ some .read ∧ (Phase.running m).move dump =
        .goes (settle dump (attempt m).terminal.output.sent (attempt m)) := by
  by_cases hq : m.request? = some .read
  · exact .inl ⟨hq, move_of_read hq⟩
  · exact .inr ⟨hq, move_of_quiet hq⟩

theorem Plays.runs (h : Plays dump shown ph input r) :
    ∀ m, ph = .running m → Runs dump m ⟨input, ⟨shown, none⟩⟩ r := by
  induction h with
  | goes hmove hplay ih =>
    rintro m rfl
    obtain ⟨hq, hm⟩ | ⟨hq, hm⟩ := move_running dump m <;> cases hm.symm.trans hmove
    exact runs_of_settle (step_of_quiet hq _ _) hplay ih
  | @typed shown _ _ _ _ line rest _ hmove hfirst hplay ih =>
    rintro m rfl
    obtain ⟨hq, hm⟩ | ⟨hq, hm⟩ := move_running dump m <;> cases hm.symm.trans hmove
    by_cases hj : judge line = .ok none
    · rw [supply_of_rejected hj] at ih
      exact runs_congr (step_of_rejected hq hj hfirst shown) (ih m rfl)
    · rw [supply_of_accepted hj] at hplay ih
      refine runs_of_settle ?_ hplay ih
      rw [String.append_empty]
      exact step_of_line hq hj hfirst shown
  | @closed shown _ _ _ _ hmove hplay ih =>
    rintro m rfl
    obtain ⟨hq, hm⟩ | ⟨hq, hm⟩ := move_running dump m <;> cases hm.symm.trans hmove
    refine runs_of_settle ?_ hplay ih
    rw [String.append_empty]
    exact step_of_closed hq shown
  | stops hmove =>
    rintro m rfl
    obtain ⟨hq, hm⟩ | ⟨hq, hm⟩ := move_running dump m <;> cases hm.symm.trans hmove

theorem plays_of_settle {text : String} {limit : Nat} {last : Machine.Turn Console}
    (hstep : m.step c = ⟨turn.result, turn.machine, ⟨input, ⟨shown ++ text, none⟩⟩⟩)
    (ih : ∀ n input shown, n.resume limit (⟨input, ⟨shown, none⟩⟩ : Console) = some last →
      Plays dump shown (.running n) input (finish dump last))
    (h : m.resume (limit + 1) c = some last) :
    Plays dump (shown ++ (settle dump text turn).1) (settle dump text turn).2 input
      (finish dump last) := by
  simp only [Machine.resume, hstep] at h
  by_cases hr : turn.result = .ok .active
  · simp only [hr] at h
    rw [settle_of_active hr]
    exact ih _ _ _ h
  · simp only [Option.some.injEq] at h
    rw [settle_of_stopped hr, plays_stops_iff, ← h, finish, String.append_assoc]

theorem plays_of_resume {limit : Nat} {last : Machine.Turn Console} (m : Machine)
    (input : List UInt8) (shown : String)
    (h : m.resume limit (⟨input, ⟨shown, none⟩⟩ : Console) = some last) :
    Plays dump shown (.running m) input (finish dump last) := by
  induction limit generalizing m input shown with
  | zero => cases h
  | succ limit ih =>
    by_cases hq : m.request? = some .read
    -- A read is one step for the machine, and a move for every line that it passes over.
    · induction input using lines_induction Stream.isLineEnd generalizing shown with
      | nil =>
        refine .closed (move_of_read hq) (plays_of_settle ?_ ih h)
        rw [String.append_empty]
        exact step_of_closed hq shown
      | @line input line rest hfirst ihlines =>
        refine .typed (move_of_read hq) hfirst ?_
        by_cases hj : judge line = .ok none
        · rw [supply_of_rejected hj]
          refine ihlines _ ?_
          rw [← h, Machine.resume, Machine.resume, step_of_rejected hq hj hfirst shown]
        · rw [supply_of_accepted hj]
          refine plays_of_settle ?_ ih h
          rw [String.append_empty]
          exact step_of_line hq hj hfirst shown
    · exact .goes (move_of_quiet hq) (plays_of_settle (step_of_quiet hq _ _) ih h)

theorem plays_running_iff :
    Plays dump shown (.running m) input r ↔ Runs dump m ⟨input, ⟨shown, none⟩⟩ r := by
  constructor
  · exact fun h => h.runs m rfl
  · rintro ⟨limit, last, hresume, rfl⟩
    exact plays_of_resume _ _ _ hresume

end Running

def Follows (dump : Bool) (loading : Loading) (r : Report) : Prop :=
  match loading.result with
  | .ok memory =>
    Plays dump (loading.said ++ (start memory).1) (start memory).2 loading.rest r
  | .error complaint => r = ⟨loading.said, some complaint, 1⟩

theorem plays_entering_iff : Plays dump shown (.entering d) input r ↔
    Follows dump ⟨(d.converse shown input).said, (d.converse shown input).result.mapError unentered,
      (d.converse shown input).rest⟩ r := by
  induction input using lines_induction Stream.isLineEnd generalizing shown d with
  | nil =>
    rw [plays_closed_iff rfl, Program.Dialogue.converse]
    rfl
  | @line input line rest hfirst ih =>
    rw [plays_typed_iff rfl hfirst, enter]
    cases hanswer : d.answer line with
    | again more e =>
      rw [Program.Dialogue.converse_of_again hfirst hanswer, ih]
    | finished memory =>
      rw [Program.Dialogue.converse_of_finished hfirst hanswer]
      rfl
    | failed cause =>
      rw [Program.Dialogue.converse_of_failed hfirst hanswer]
      simp only [plays_stops_iff, String.append_empty]
      rfl

theorem plays_begin_iff (source : Source) :
    Plays dump (begin source).1 (begin source).2 input r ↔ Follows dump (source.load input) r := by
  cases source with
  | file path contents =>
    simp only [begin, Source.load, Follows]
    cases parseFile path contents with
    | ok memory => simp only [String.empty_append]
    | error complaint => exact plays_stops_iff
  | dialogue => exact plays_entering_iff

def behind (sent : String) (c : Console) : Console :=
  { c with output := ⟨sent ++ c.output.sent, none⟩ }

theorem behind_simulation (sent : String) :
    Machine.Simulation fun c c' : Console => c.output.room = none ∧ c' = behind sent c := by
  rintro q ⟨input, before, room⟩ _ ⟨hroom, rfl⟩
  obtain rfl : room = none := hroom
  cases q with
  | read =>
    obtain ⟨ls, mid, result, rest, hopens, hls, hend⟩ := exists_settles input
    simp only [Request.serve, behind, device_read (read_of_opens hopens hls hend),
      String.append_assoc, and_self]
  | write v =>
    simp only [Request.serve, behind, device_write, write_endless, String.append_assoc, and_self]

theorem runs_behind_iff (sent : String) : Runs dump m ⟨input, ⟨sent, none⟩⟩ r ↔
    ∃ limit, (m.resume limit ({ input := input } : Console)).map
      (fun turn => finish dump ⟨turn.result, turn.machine, behind sent turn.terminal⟩) = some r := by
  have hstart : ({ input := input } : Console).output.room = none ∧
      (⟨input, ⟨sent, none⟩⟩ : Console) = behind sent { input := input } := by
    simp [behind]
  refine exists_congr fun limit => ?_
  have hresume := (behind_simulation sent).resume hstart m limit
  generalize m.resume limit ({ input := input } : Console) = x,
    m.resume limit (⟨input, ⟨sent, none⟩⟩ : Console) = y at hresume
  cases hresume with
  | none => simp
  | @some turn turn' h =>
    obtain ⟨result, machine, terminal⟩ := turn'
    obtain ⟨rfl, rfl, -, rfl⟩ := h
    simp

/-- With its user, the program comes to a report if and only if it does so when it is executed on all
that the user types, and to the same one. -/
theorem plays_iff_execute (source : Source) (dump : Bool) (input : List UInt8) (r : Report) :
    Plays dump (begin source).1 (begin source).2 input r ↔
      ∃ limit, execute limit source dump input = some r := by
  rw [plays_begin_iff, Follows]
  simp only [execute]
  cases (source.load input).result with
  | error complaint => simp [eq_comm]
  | ok memory =>
    simp only [start, plays_running_iff, runs_behind_iff]
    exact Iff.rfl

end Simpletron.Interplay
