import Simpletron.Proofs.Asking
import Simpletron.Proofs.Atomicity
import Simpletron.Proofs.Requests

/-! A console whose output runs out of room, beside one whose output does not. They are the same up to
the step that writes beyond the room; that step faults, with the room filled to the last byte. -/

namespace Simpletron

def Text.cut (p : Nat) (text : String) : String := String.ofList (text.toList.take p)

theorem Text.IsAscii.utf8_cut {text : String} (h : IsAscii text) (p : Nat) :
    utf8 (cut p text).toList = (utf8 text.toList).take p := by
  have hcut : IsAscii (cut p text) := by
    intro c hc
    rw [cut, String.toList_ofList] at hc
    exact h c (List.mem_of_mem_take hc)
  rw [hcut.utf8_eq, h.utf8_eq, cut, String.toList_ofList, List.map_take]

def Text.behind {α : Type} (ends : α → Bool) : (k : Nat) → List α → List α
  | 0, cs => cs
  | k + 1, cs =>
    match firstLine? ends cs with
    | none => []
    | some (_, rest) => behind ends k rest

open Text

namespace Stream.Output

variable {sent text : String} {n : Nat}

def upTo (n : Nat) (sent : String) : Output := ⟨cut n sent, some (n - sent.length)⟩

theorem upTo_empty (n : Nat) : upTo n "" = { room := some n } := by
  simp [upTo, cut]

theorem sent_upTo (h : sent.length ≤ n) : (upTo n sent).sent = sent := by
  rw [← String.length_toList] at h
  rw [upTo, cut, List.take_of_length_le h, String.ofList_toList]

theorem send_upTo (n : Nat) (sent text : String) : (upTo n sent).send text = upTo n (sent ++ text) := by
  simp only [upTo, send, cut, String.toList_append, List.take_append, String.length_toList,
    String.length_append, String.ofList_append, Nat.sub_add_eq]

theorem fits_upTo_iff (h : sent.length ≤ n) :
    (upTo n sent).Fits text ↔ (sent ++ text).length ≤ n := by
  rw [String.length_append]
  simp only [upTo, Fits, Option.mem_def, Option.some.injEq, forall_eq']
  omega

theorem upTo_append_of_le (h : n ≤ sent.length) (text : String) :
    upTo n (sent ++ text) = upTo n sent := by
  have hcut : cut n (sent ++ text) = cut n sent := by
    rw [cut, String.toList_append, List.take_append_of_le_length (by rwa [String.length_toList]), cut]
  rw [upTo, upTo, hcut, String.length_append, Nat.sub_eq_zero_of_le h,
    Nat.sub_eq_zero_of_le (Nat.le_add_right_of_le h)]

theorem exists_upTo_eq (h : sent.length ≤ n) (hover : n < (sent ++ text).length) :
    ∃ p < text.length, upTo n (sent ++ text) = ⟨sent ++ cut p text, some 0⟩ := by
  have hlt : n - sent.length < text.length := by
    rw [String.length_append] at hover
    omega
  have hcut : cut n (sent ++ text) = sent ++ cut (n - sent.length) text := by
    rw [← String.length_toList] at h
    rw [cut, String.toList_append, List.take_append, List.take_of_length_le h,
      String.ofList_append, String.ofList_toList, String.length_toList, cut]
  exact ⟨n - sent.length, hlt, by rw [upTo, hcut, Nat.sub_eq_zero_of_le hover.le]⟩

end Stream.Output

namespace Console

open Simpletron.Stream (Output)

def upTo (n : Nat) (c : Console) : Console := { c with output := .upTo n c.output.sent }

/-- Where a call can break off: in a prompt, before the line that it asks for; in the rejection of a
line, behind it; in the line that is written. -/
inductive BreaksOff (c : Console) : Request → Console → Prop
  | inPrompt {k p} : p < prompt.length →
      BreaksOff c .read
        ⟨behind Stream.isLineEnd k c.input, ⟨c.output.sent ++ rounds k ++ cut p prompt, some 0⟩⟩
  | inRejection {k p} : p < rejection.length →
      BreaksOff c .read
        ⟨behind Stream.isLineEnd (k + 1) c.input,
          ⟨c.output.sent ++ rounds k ++ prompt ++ cut p rejection, some 0⟩⟩
  | inLine {v p} : p < (line v).length →
      BreaksOff c (.write v) ⟨c.input, ⟨c.output.sent ++ cut p (line v), some 0⟩⟩

/-- A call to a console with endless room, and the same call where there is room for `n` characters. -/
structure Limits {ε α : Type} (noRoom : ε) (n : Nat) (c : Console) (q : Request)
    (x y : Except ε α × Console) : Prop where
  sends : ∃ text, IsAscii text ∧ x.2.output = ⟨c.output.sent ++ text, none⟩
  fits : x.2.output.sent.length ≤ n → y = (x.1, x.2.upTo n)
  breaks : n < x.2.output.sent.length →
    y.1 = .error noRoom ∧ y.2.output = .upTo n x.2.output.sent ∧ BreaksOff c q y.2

variable {n k : Nat} {input rest : List UInt8} {sent : String}

theorem isAscii_empty : IsAscii "" := by decide

theorem isAscii_prompt : IsAscii prompt := by decide

theorem isAscii_rejection : IsAscii rejection := by decide

theorem isAscii_line (v : Int) : IsAscii (line v) :=
  (IsAscii.append (by decide) (.print _ v)).append (by decide)

theorem BreaksOff.again {d : Console} {line : List UInt8}
    (hfirst : firstLine? Stream.isLineEnd input = some (line, rest))
    (h : BreaksOff ⟨rest, ⟨sent ++ prompt ++ rejection, none⟩⟩ .read d) :
    BreaksOff ⟨input, ⟨sent, none⟩⟩ .read d := by
  have hbehind : ∀ k, behind Stream.isLineEnd k rest = behind Stream.isLineEnd (k + 1) input := by
    intro k
    rw [behind, hfirst]
  have hrounds : ∀ k, sent ++ prompt ++ rejection ++ rounds k = sent ++ rounds (k + 1) := by
    intro k
    simp only [rounds_succ, String.append_assoc]
  cases h with
  | inPrompt hp =>
    rw [hrounds, hbehind]
    exact .inPrompt hp
  | inRejection hp =>
    rw [hrounds, hbehind]
    exact .inRejection hp

theorem isAscii_asking (k : Nat) : IsAscii (asking k) := by
  induction k with
  | zero => exact isAscii_prompt
  | succ k ih =>
    rw [asking_succ]
    exact (isAscii_prompt.append isAscii_rejection).append ih

theorem exists_asking_eq (k : Nat) : ∃ more, IsAscii more ∧ asking k = prompt ++ more := by
  cases k with
  | zero => exact ⟨"", isAscii_empty, by decide⟩
  | succ k =>
    refine ⟨rejection ++ asking k, isAscii_rejection.append (isAscii_asking k), ?_⟩
    rw [asking_succ, String.append_assoc]

theorem exists_sent_read (input : List UInt8) (sent : String) :
    ∃ more, IsAscii more ∧ (read ⟨input, ⟨sent, none⟩⟩).2.output = ⟨sent ++ prompt ++ more, none⟩ := by
  obtain ⟨ls, mid, r, rest, hopens, hls, hend⟩ := exists_settles input
  obtain ⟨more, hmore, heq⟩ := exists_asking_eq ls.length
  refine ⟨more, hmore, ?_⟩
  rw [read_of_opens hopens hls hend, heq, String.append_assoc]

theorem limits_of_fits {ε α : Type} {noRoom : ε} {q : Request} {r : Except ε α} {text : String}
    (htext : IsAscii text) (h : (sent ++ text).length ≤ n) :
    Limits noRoom n ⟨input, ⟨sent, none⟩⟩ q (r, ⟨rest, ⟨sent ++ text, none⟩⟩)
      (r, ⟨rest, .upTo n (sent ++ text)⟩) where
  sends := ⟨text, htext, rfl⟩
  fits _ := rfl
  breaks hlt := absurd h (Nat.not_le_of_lt hlt)

theorem limits_of_overflow {ε α : Type} {noRoom : ε} {c : Console} {q : Request}
    {x : Except ε α × Console} {before text more : String}
    (hbefore : ∃ first, IsAscii first ∧ before = c.output.sent ++ first) (htext : IsAscii text)
    (hmore : IsAscii more) (hle : before.length ≤ n) (hover : n < (before ++ text).length)
    (hx : x.2.output = ⟨before ++ text ++ more, none⟩)
    (hb : ∀ p < text.length, BreaksOff c q ⟨rest, ⟨before ++ cut p text, some 0⟩⟩) :
    Limits noRoom n c q x (.error noRoom, ⟨rest, .upTo n (before ++ text)⟩) where
  sends := by
    obtain ⟨first, hfirst, rfl⟩ := hbefore
    refine ⟨first ++ text ++ more, (hfirst.append htext).append hmore, ?_⟩
    rw [hx]
    simp only [String.append_assoc]
  fits hfits := by
    rw [hx, String.length_append] at hfits
    exact absurd hfits (Nat.not_le_of_lt (Nat.lt_add_right _ hover))
  breaks _ := by
    refine ⟨rfl, by rw [hx, Output.upTo_append_of_le hover.le], ?_⟩
    obtain ⟨p, hp, heq⟩ := Output.exists_upTo_eq hle hover
    rw [heq]
    exact hb p hp

theorem Limits.again {ε α : Type} {noRoom : ε} {line : List UInt8} {x y : Except ε α × Console}
    (hfirst : firstLine? Stream.isLineEnd input = some (line, rest))
    (h : Limits noRoom n ⟨rest, ⟨sent ++ prompt ++ rejection, none⟩⟩ .read x y) :
    Limits noRoom n ⟨input, ⟨sent, none⟩⟩ .read x y where
  sends := by
    obtain ⟨text, htext, hx⟩ := h.sends
    refine ⟨prompt ++ rejection ++ text, (isAscii_prompt.append isAscii_rejection).append htext, ?_⟩
    rw [hx]
    simp only [String.append_assoc]
  fits := h.fits
  breaks hlt := (h.breaks hlt).imp_right (And.imp_right (BreaksOff.again hfirst))

theorem limits_of_prompt (h : sent.length ≤ n) (hp : n < (sent ++ prompt).length) :
    Limits (.stream .noRoom) n ⟨input, ⟨sent, none⟩⟩ .read (read ⟨input, ⟨sent, none⟩⟩)
      (read ⟨input, .upTo n sent⟩) := by
  obtain ⟨more, hmore, hread⟩ := exists_sent_read input sent
  have hlimited := mt (Output.fits_upTo_iff h).mp (Nat.not_le_of_lt hp)
  rw [read_of_ask_error (ask_of_not_fits hlimited), Output.send_upTo]
  refine limits_of_overflow ⟨"", isAscii_empty, String.append_empty.symm⟩ isAscii_prompt hmore h hp
    hread fun p hlt => ?_
  have hbreaks := BreaksOff.inPrompt (c := ⟨input, ⟨sent, none⟩⟩) (k := 0) hlt
  rw [rounds_zero, String.append_empty] at hbreaks
  exact hbreaks

theorem limits_of_rejection {line : List UInt8}
    (hfirst : firstLine? Stream.isLineEnd input = some (line, rest))
    (hp : (sent ++ prompt).length ≤ n) (hr : n < (sent ++ prompt ++ rejection).length) :
    Limits (.stream .noRoom) n ⟨input, ⟨sent, none⟩⟩ .read
      (read ⟨rest, ⟨sent ++ prompt ++ rejection, none⟩⟩)
      (.error (.stream .noRoom), ⟨rest, .upTo n (sent ++ prompt ++ rejection)⟩) := by
  obtain ⟨more, hmore, hread⟩ := exists_sent_read rest (sent ++ prompt ++ rejection)
  have hassoc : sent ++ prompt ++ rejection ++ prompt ++ more =
      sent ++ prompt ++ rejection ++ (prompt ++ more) := String.append_assoc
  rw [hassoc] at hread
  refine limits_of_overflow ⟨prompt, isAscii_prompt, rfl⟩ isAscii_rejection
    (isAscii_prompt.append hmore) hp hr hread fun p hlt => ?_
  have hbreaks := BreaksOff.inRejection (c := ⟨input, ⟨sent, none⟩⟩) (k := 0) hlt
  rw [rounds_zero, String.append_empty, behind, hfirst] at hbreaks
  exact hbreaks

theorem limits_read (input : List UInt8) (h : sent.length ≤ n) :
    Limits (.stream .noRoom) n ⟨input, ⟨sent, none⟩⟩ .read (read ⟨input, ⟨sent, none⟩⟩)
      (read ⟨input, .upTo n sent⟩) := by
  by_cases hp : (sent ++ prompt).length ≤ n
  · have hfits := Output.fits_endless sent prompt
    have hlimited := (Output.fits_upTo_iff h).mpr hp
    induction input using lines_induction Stream.isLineEnd generalizing sent with
    | nil =>
      rw [read_of_ask_error (ask_nil hfits), read_of_ask_error (ask_nil hlimited),
        Output.send_upTo, Output.send_endless]
      exact limits_of_fits isAscii_prompt hp
    | @line input line rest hfirst ih =>
      cases hj : judge line with
      | error cause =>
        rw [read_of_ask_error (ask_of_error hfirst hfits hj),
          read_of_ask_error (ask_of_error hfirst hlimited hj), Output.send_upTo,
          Output.send_endless]
        exact limits_of_fits isAscii_prompt hp
      | ok word? =>
        cases word? with
        | some w =>
          rw [read_of_ask_word (ask_of_some hfirst hfits hj),
            read_of_ask_word (ask_of_some hfirst hlimited hj), Output.send_upTo,
            Output.send_endless]
          exact limits_of_fits isAscii_prompt hp
        | none =>
          have hnext := Output.fits_endless (sent ++ prompt) rejection
          have hread := read_of_ask_again (ask_of_none hfirst hfits hnext hj)
          rw [Output.send_endless, Output.send_endless] at hread
          rw [hread]
          by_cases hr : (sent ++ prompt ++ rejection).length ≤ n
          · have hr' := (Output.fits_upTo_iff hp).mpr hr
            rw [← Output.send_upTo] at hr'
            rw [read_of_ask_again (ask_of_none hfirst hlimited hr' hj), Output.send_upTo,
              Output.send_upTo]
            apply Limits.again hfirst
            by_cases hp' : (sent ++ prompt ++ rejection ++ prompt).length ≤ n
            · exact ih hr hp' (Output.fits_endless _ _) ((Output.fits_upTo_iff hr).mpr hp')
            · exact limits_of_prompt hr (Nat.lt_of_not_le hp')
          · have hr' := mt (Output.fits_upTo_iff hp).mp hr
            rw [← Output.send_upTo] at hr'
            rw [read_of_ask_error (ask_of_none_of_not_fits hfirst hlimited hr' hj),
              Output.send_upTo, Output.send_upTo]
            exact limits_of_rejection hfirst hp (Nat.lt_of_not_le hr)
  · exact limits_of_prompt h (Nat.lt_of_not_le hp)

theorem limits_write (v : Int) (input : List UInt8) (h : sent.length ≤ n) :
    Limits (.stream .noRoom) n ⟨input, ⟨sent, none⟩⟩ (.write v) (write v ⟨input, ⟨sent, none⟩⟩)
      (write v ⟨input, .upTo n sent⟩) := by
  have hfits := Output.fits_endless sent (line v)
  by_cases hline : (sent ++ line v).length ≤ n
  · have hlimited := (Output.fits_upTo_iff h).mpr hline
    rw [write, write, if_pos hfits, if_pos hlimited, Output.send_upTo, Output.send_endless]
    exact limits_of_fits (isAscii_line v) hline
  · have hlimited := mt (Output.fits_upTo_iff h).mp hline
    rw [write, write, if_pos hfits, if_neg hlimited, Output.send_upTo, Output.send_endless]
    refine limits_of_overflow ⟨"", isAscii_empty, String.append_empty.symm⟩ (isAscii_line v)
      isAscii_empty h (Nat.lt_of_not_le hline) (by rw [String.append_empty]) fun p hlt => ?_
    exact BreaksOff.inLine (c := ⟨input, ⟨sent, none⟩⟩) hlt

theorem Limits.map {ε ε' α β : Type} {e : ε} {e' : ε'} {c : Console} {q : Request}
    {x y : Except ε α × Console} (h : Limits e n c q x y) (f : Except ε α → Except ε' β)
    (hf : f (.error e) = .error e') : Limits e' n c q (f x.1, x.2) (f y.1, y.2) where
  sends := h.sends
  fits hle := by rw [h.fits hle]
  breaks hlt := by
    rw [(h.breaks hlt).1]
    exact ⟨hf, (h.breaks hlt).2⟩

theorem limits_serve {c : Console} (q : Request) (hroom : c.output.room = none)
    (h : c.output.sent.length ≤ n) :
    Limits (.terminal (.stream .noRoom)) n c q ((q.serve c).result, (q.serve c).terminal)
      ((q.serve (c.upTo n)).result, (q.serve (c.upTo n)).terminal) := by
  obtain ⟨input, sent, room⟩ := c
  obtain rfl : room = none := hroom
  cases q with
  | read =>
    simp only [Request.serve, device_read rfl]
    exact (limits_read input h).map (fun r => (r.map Int32.toInt).mapError Fault.terminal) rfl
  | write v =>
    simp only [Request.serve, device_write]
    exact (limits_write v input h).map (Except.mapError Fault.terminal) rfl

theorem raises_serve (q : Request) (c : Console) : (q.serve c).raises = false := by
  cases q <;> rfl

end Console

namespace Machine

open Simpletron.Stream (Output)
open Simpletron.Console (BreaksOff)

structure Turn.Limits (m : Machine) (n : Nat) (c : Console) (x y : Turn Console) : Prop where
  sends : ∃ text, IsAscii text ∧ x.terminal.output = ⟨c.output.sent ++ text, none⟩
  fits : x.terminal.output.sent.length ≤ n → y = ⟨x.result, x.machine, x.terminal.upTo n⟩
  breaks : n < x.terminal.output.sent.length → y.result = .error (.terminal (.stream .noRoom)) ∧
    y.terminal.output = .upTo n x.terminal.output.sent ∧
    ∃ q, m.request? = some q ∧ BreaksOff c q y.terminal

variable {m : Machine} {c : Console} {input : List UInt8} {n k : Nat}

theorem limits_step (m : Machine) (hroom : c.output.room = none) (h : c.output.sent.length ≤ n) :
    Turn.Limits m n c (m.step c) (m.step (c.upTo n)) := by
  cases hq : m.request? with
  | none =>
    obtain ⟨r, m', hstep⟩ := silent_of_request? hq
    rw [hstep, hstep]
    exact ⟨⟨"", Console.isAscii_empty, by rw [String.append_empty, ← hroom]⟩, fun _ => rfl,
      fun hlt => absurd h (Nat.not_le_of_lt hlt)⟩
  | some q =>
    obtain ⟨k, hstep⟩ := asks_of_request? hq
    obtain ⟨hsends, hfits, hbreaks⟩ := Console.limits_serve q hroom h
    refine ⟨?_, fun hle => ?_, fun hlt => ?_⟩
    · rw [hstep]
      exact hsends
    · rw [hstep] at hle
      obtain ⟨hresult, hterminal⟩ := Prod.mk.inj (hfits hle)
      rw [hstep, hstep, Console.raises_serve, Console.raises_serve, hresult, hterminal]
    · rw [hstep] at hlt
      obtain ⟨hresult, houtput, hbreak⟩ := hbreaks hlt
      refine ⟨result_of_serve_error hq hresult, ?_, q, hq, ?_⟩
      · rw [hstep, hstep]
        exact houtput
      · rw [hstep]
        exact hbreak

theorem endless_after (m : Machine) (input : List UInt8) (k : Nat) :
    (m.after (Console.mk input {}) k).2.output.room = none ∧
      IsAscii (m.after (Console.mk input {}) k).2.output.sent := by
  induction k with
  | zero => exact ⟨rfl, Console.isAscii_empty⟩
  | succ k ih =>
    obtain ⟨text, htext, houtput⟩ := (limits_step _ ih.1 (Nat.le_refl _)).sends
    rw [after_succ, call, houtput]
    exact ⟨rfl, ih.2.append htext⟩

theorem length_sent_mono (m : Machine) (input : List UInt8) :
    Monotone fun k => (m.after (Console.mk input {}) k).2.output.sent.length :=
  monotone_nat_of_le_succ fun k => by
    obtain ⟨text, -, houtput⟩ :=
      (limits_step _ (endless_after m input k).1 (Nat.le_refl _)).sends
    rw [after_succ, call, houtput, String.length_append]
    exact Nat.le_add_right _ _

theorem after_upTo (h : (m.after (Console.mk input {}) k).2.output.sent.length ≤ n) :
    m.after (Console.mk input { room := some n }) k =
      ((m.after (Console.mk input {}) k).1, (m.after (Console.mk input {}) k).2.upTo n) := by
  induction k with
  | zero => simp [after, Console.upTo, Output.upTo_empty]
  | succ k ih =>
    have hk := Nat.le_trans (length_sent_mono m input (Nat.le_succ k)) h
    have hstep := (limits_step (m.after (Console.mk input {}) k).1 (endless_after m input k).1 hk).fits h
    rw [after_succ, call, ih hk, hstep]
    rfl

theorem limits_call (h : (m.after (Console.mk input {}) k).2.output.sent.length ≤ n) :
    Turn.Limits (m.after (Console.mk input {}) k).1 n (m.after (Console.mk input {}) k).2
      (m.call (Console.mk input {}) k) (m.call (Console.mk input { room := some n }) k) := by
  rw [call, call, after_upTo h]
  exact limits_step _ (endless_after m input k).1 h

/-- Up to the step that overfills the output, nothing tells of its end. That step fails, and nothing
but its words and its lines is gone. -/
theorem full_output_stops (m : Machine) (input : List UInt8) (n : Nat) :
    let free : Console := { input := input }
    let tight : Console := { input := input, output := { room := some n } }
    let written := fun k => utf8 (m.after free k).2.output.sent.toList
    (∀ k, (written k).length ≤ n → ∀ j ≤ k,
      (∀ i < j, (m.call tight i).result = (m.call free i).result) ∧
      (m.after tight j).1 = (m.after free j).1 ∧
      (m.after tight j).2.input = (m.after free j).2.input ∧
      (m.after tight j).2.output.sent = (m.after free j).2.output.sent) ∧
    ∀ k, (written k).length ≤ n → n < (written (k + 1)).length →
      let turn := m.call tight k
      turn.result = .error (.terminal (.stream .noRoom)) ∧ turn.machine.status = .faulted ∧
      Unmoved (m.after free k).1 turn.machine ∧
      utf8 turn.terminal.output.sent.toList = (written (k + 1)).take n ∧
      ∃ q, (m.after free k).1.request? = some q ∧ BreaksOff (m.after free k).2 q turn.terminal := by
  intro free tight written
  have hascii : ∀ k, IsAscii (m.after free k).2.output.sent := fun k => (endless_after m input k).2
  have hlength : ∀ k, (written k).length = (m.after free k).2.output.sent.length :=
    fun k => (hascii k).length_utf8
  simp only [hlength]
  refine ⟨fun k hk j hj => ?_, fun k hk hover => ?_⟩
  · have hle : ∀ i ≤ k, (m.after free i).2.output.sent.length ≤ n :=
      fun i hi => Nat.le_trans (length_sent_mono m input hi) hk
    refine ⟨fun i hi => ?_, ?_⟩
    · have hcall := (limits_call (hle i (by omega))).fits (hle (i + 1) (by omega))
      rw [hcall]
    · have hafter := after_upTo (hle j hj)
      rw [hafter]
      exact ⟨rfl, rfl, Output.sent_upTo (hle j hj)⟩
  · obtain ⟨hresult, houtput, hbreak⟩ := (limits_call hk).breaks hover
    have hmachine : (m.after tight k).1 = (m.after free k).1 := by rw [after_upTo hk]
    have hstep := steps_step (m.after tight k).1 (m.after tight k).2
    refine ⟨hresult, ?_, hmachine ▸ unmoved_of_error hstep hresult, ?_, hbreak⟩
    · obtain ⟨-, hs⟩ | ⟨hf, -⟩ := status_of_error hstep hresult
      · exact hs
      · cases hf
    · rw [houtput]
      exact (hascii (k + 1)).utf8_cut n

theorem full_output_stops_rejection :
    let m := boot (Memory.blank.set 0 (by decide) 1005)
    let input : List UInt8 := [120, 10, 53, 10]
    let free : Console := { input := input }
    let tight : Console := { input := input, output := { room := some 20 } }
    (utf8 (m.after free 0).2.output.sent.toList).length ≤ 20 ∧
      20 < (utf8 (m.after free 1).2.output.sent.toList).length ∧
      (m.call tight 0).result = .error (.terminal (.stream .noRoom)) ∧
      (m.call tight 0).machine.status = .faulted ∧ Unmoved m (m.call tight 0).machine ∧
      (m.call tight 0).terminal.input = [53, 10] ∧
      (m.call tight 0).terminal.output = ⟨"Enter an integer: **", some 0⟩ := by
  intro m input free tight
  have hfits : (utf8 (m.after free 0).2.output.sent.toList).length ≤ 20 := Nat.zero_le 20
  have hover : 20 < (utf8 (m.after free 1).2.output.sent.toList).length := by decide +kernel
  obtain ⟨-, hbreaks⟩ := full_output_stops m input 20
  obtain ⟨hresult, hstatus, hunmoved, -⟩ := hbreaks 0 hfits hover
  exact ⟨hfits, hover, hresult, hstatus, hunmoved, by decide +kernel, by decide +kernel⟩

end Machine

end Simpletron
