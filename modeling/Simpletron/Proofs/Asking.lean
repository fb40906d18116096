import Simpletron.Proofs.Encoding
import Simpletron.Proofs.Grammar
import Simpletron.Proofs.Outcome
import Simpletron.Terminal.Console

namespace Simpletron

open Text Text.Numeral
open Simpletron.Stream (Leads Opens)

namespace Console

/-- But for the white space around it, the line is a numeral for the word. -/
def Enters (l : List Char) (w : Word) : Prop :=
  ∃ c, Trims l c ∧ Denotes c w.toInt ∧ Word.InRange w.toInt

/-- How a read ends with no line left to reject: its result, and what is left of the input. -/
inductive Settles : List UInt8 → Except Terminal.Failure Word → List UInt8 → Prop
  | word {input l w rest} : Leads input (utf8 l) rest → Enters l w → Settles input (.ok w) rest
  | notText {input line rest} : Leads input line rest → (∀ l, line ≠ utf8 l) →
      Settles input (.error (.stream .notText)) rest
  | ended : Settles [] (.error .exhausted) []

def rounds (k : Nat) : String := String.join (List.replicate k
  "Enter an integer: *** Please enter a value between -9999 and 9999 ***\n")

def asking (k : Nat) : String := rounds k ++ "Enter an integer: "

/-- What a read comes to after `sent`, and the console behind it: first some lines without a word,
all of them text, then the end. -/
inductive Answers (input : List UInt8) (sent : String) :
    Except Terminal.Failure Word → Console → Prop
  | intro {ls rest r more} : Opens input ls rest → (∀ l ∈ ls, ∀ w, ¬ Enters l w) →
      Settles rest r more → Answers input sent r ⟨more, ⟨sent ++ asking ls.length, none⟩⟩

section Read

variable {input rest more : List UInt8} {l : List Char} {ls : List (List Char)} {sent : String}
  {r : Except Terminal.Failure Word} {c d : Console} {v w : Word}

theorem word?_eq_some_iff : word? l = some w ↔ Enters l w := by
  simp only [word?, Enters, Option.bind_eq_some_iff, readBits?_eq_some_iff,
    Word.ofInt?_eq_some_iff]
  constructor
  · rintro ⟨v, ⟨hdenotes, _⟩, hrange, rfl⟩
    exact ⟨Text.trim l, trims_trim l, hdenotes, hrange⟩
  · rintro ⟨c, htrims, hdenotes, hrange⟩
    rw [trim_eq_of_trims htrims]
    have hfits : FitsBits 32 w.toInt :=
      ⟨Int.le_trans (by decide) hrange.1, Int.lt_of_le_of_lt hrange.2 (by decide)⟩
    exact ⟨_, ⟨hdenotes, hfits⟩, hrange, rfl⟩

theorem word?_eq_none_iff : word? l = none ↔ ∀ w, ¬ Enters l w := by
  rw [Option.eq_none_iff_forall_ne_some]
  exact forall_congr' fun w => not_congr word?_eq_some_iff

theorem Enters.unique (h : Enters l w) (h' : Enters l v) : w = v :=
  Option.some.inj ((word?_eq_some_iff.mpr h).symm.trans (word?_eq_some_iff.mpr h'))

theorem judge_utf8 (l : List Char) : judge (utf8 l) = .ok (word? l) := by
  simp [judge, decode_utf8, Except.map]

theorem rounds_zero : rounds 0 = "" := rfl

theorem rounds_succ (k : Nat) : rounds (k + 1) = prompt ++ rejection ++ rounds k := by
  rw [rounds, List.replicate_succ, String.join_cons, ← rounds]
  rfl

theorem asking_succ (k : Nat) : asking (k + 1) = prompt ++ rejection ++ asking k := by
  rw [asking, rounds_succ, String.append_assoc, ← asking]

theorem read_of_leads (h : Leads input (utf8 l) rest) (hl : ∀ w, ¬ Enters l w) :
    read ⟨input, ⟨sent, none⟩⟩ = read ⟨rest, ⟨sent ++ (prompt ++ rejection), none⟩⟩ := by
  have hjudge : judge (utf8 l) = .ok none := by rw [judge_utf8, word?_eq_none_iff.mpr hl]
  have hask := ask_of_none (Stream.leads_iff_firstLine?.mp h)
    (Stream.Output.fits_endless sent prompt) (Stream.Output.fits_endless _ rejection) hjudge
  rw [read_of_ask_again hask, Stream.Output.send_endless, Stream.Output.send_endless,
    String.append_assoc]

theorem Settles.read_eq (h : Settles input r rest) (sent : String) :
    read ⟨input, ⟨sent, none⟩⟩ = (r, ⟨rest, ⟨sent ++ prompt, none⟩⟩) := by
  have hprompt := Stream.Output.fits_endless sent prompt
  cases h with
  | @word _ l w _ hl hw =>
    have hjudge : judge (utf8 l) = .ok (some w) := by
      rw [judge_utf8, word?_eq_some_iff.mpr hw]
    exact read_of_ask_word (ask_of_some (Stream.leads_iff_firstLine?.mp hl) hprompt hjudge)
  | @notText _ line _ hl hno =>
    have hjudge : judge line = .error .notText := by
      rw [judge, decode_eq_error_iff.mpr ⟨hno, rfl⟩]
      rfl
    exact read_of_ask_error (ask_of_error (Stream.leads_iff_firstLine?.mp hl) hprompt hjudge)
  | ended => exact read_of_ask_error (ask_nil hprompt)

theorem read_of_opens (h : Opens input ls rest) (hls : ∀ l ∈ ls, ∀ w, ¬ Enters l w)
    (hend : Settles rest r more) :
    read ⟨input, ⟨sent, none⟩⟩ = (r, ⟨more, ⟨sent ++ asking ls.length, none⟩⟩) := by
  induction h generalizing sent with
  | nil => exact hend.read_eq sent
  | cons hl _ ih =>
    obtain ⟨hskip, hskips⟩ := List.forall_mem_cons.mp hls
    rw [read_of_leads hl hskip, ih hskips hend, List.length_cons, asking_succ, String.append_assoc]

theorem exists_settles (input : List UInt8) :
    ∃ ls rest r more, Opens input ls rest ∧ (∀ l ∈ ls, ∀ w, ¬ Enters l w) ∧
      Settles rest r more := by
  induction input using lines_induction Stream.isLineEnd with
  | nil => exact ⟨[], [], _, _, .nil, nofun, .ended⟩
  | @line input line rest hfirst ih =>
    have hlead := Stream.leads_iff_firstLine?.mpr hfirst
    by_cases htext : ∃ l, line = utf8 l
    · obtain ⟨l, rfl⟩ := htext
      by_cases hw : ∃ w, Enters l w
      · obtain ⟨w, hw⟩ := hw
        exact ⟨[], input, _, _, .nil, nofun, .word hlead hw⟩
      · obtain ⟨ls, last, r, more, hopens, hls, hend⟩ := ih
        exact ⟨l :: ls, last, r, more, .cons hlead hopens,
          List.forall_mem_cons.mpr ⟨not_exists.mp hw, hls⟩, hend⟩
    · exact ⟨[], input, _, _, .nil, nofun, .notText hlead (not_exists.mp htext)⟩

theorem read_eq_iff : read ⟨input, ⟨sent, none⟩⟩ = (r, d) ↔ Answers input sent r d := by
  constructor
  · intro h
    obtain ⟨ls, rest, r', more, hopens, hls, hend⟩ := exists_settles input
    cases (read_of_opens hopens hls hend).symm.trans h
    exact .intro hopens hls hend
  · rintro ⟨hopens, hls, hend⟩
    exact read_of_opens hopens hls hend

theorem device_read (h : c.read = (r, d)) :
    Device.read c = { result := (r.map Int32.toInt).mapError .terminal, terminal := d } := by
  simp only [Device.read, Terminal.read, h]
  rfl

theorem device_write (v : Int) (c : Console) :
    Device.write v c = { result := (write v c).1.mapError .terminal, terminal := (write v c).2 } :=
  rfl

theorem write_endless (v : Int) (input : List UInt8) (sent : String) :
    write v ⟨input, ⟨sent, none⟩⟩ = (.ok (), ⟨input, ⟨sent ++ line v, none⟩⟩) := by
  simp [write]

theorem inRange_of_judge {line : List UInt8} (h : judge line = .ok (some w)) :
    Word.InRange w.toInt := by
  unfold judge at h
  cases hd : Stream.decode line with
  | error cause =>
    rw [hd] at h
    cases h
  | ok text =>
    rw [hd] at h
    obtain ⟨_, _, _, hrange⟩ : Enters _ w := word?_eq_some_iff.mp (Except.ok.inj h)
    exact hrange

theorem inRange_of_ask (h : c.ask = (.ok (some w), d)) : Word.InRange w.toInt := by
  unfold ask at h
  split at h
  · split at h
    · cases h
    · dsimp only at h
      split at h
      · cases h
      · next hj =>
        cases h
        exact inRange_of_judge hj
      · split at h <;> cases h
  · cases h

theorem inRange_of_read (h : c.read.1 = .ok w) : Word.InRange w.toInt := by
  fun_induction read c with
  | case1 => cases h
  | case2 c w' d hask =>
    cases h
    exact inRange_of_ask hask
  | case3 c d hask ih => exact ih h

end Read

end Console

namespace Machine

variable {m : Machine} {a : Nat}

/-- A console hands over nothing that a machine has no room for. -/
theorem step_ne_unfit (hat : m.At .read a) (c : Console) (v : Int) :
    (m.step c).result ≠ .error (.unfit v) := by
  obtain ⟨r, d, hread⟩ : ∃ r d, c.read = (r, d) := ⟨_, _, rfl⟩
  have hdevice := Console.device_read hread
  intro h
  have hsteps := steps_step m c
  generalize m.step c = turn at h hsteps
  cases hsteps with
  | inactive _ => cases h
  | interrupted _ _ => cases h
  | unfetched _ _ hf =>
    obtain ⟨i, hi, _⟩ := exists_fetch hat
    cases hi.symm.trans hf
  | completed _ _ _ _ => cases h
  | failed _ _ hat' hf =>
    obtain ⟨rfl, rfl⟩ := hat.unique hat'
    cases h
    -- The fault is the console's own, or it handed over an integer that is no word.
    cases hf with
    | read hd =>
      rw [hdevice] at hd
      cases r <;> cases hd
    | input hd hv =>
      rw [hdevice] at hd
      cases r with
      | error cause => cases hd
      | ok w =>
        cases hd
        exact hv (Console.inRange_of_read (congrArg Prod.fst hread))
    | compute _ hr _ => cases hr

end Machine

namespace Console

structure Sound (c : Console) : Prop where
  answers_iff : ∀ sent, c.output = ⟨sent, none⟩ → ∀ r d, c.read = (r, d) ↔ Answers c.input sent r d
  inRange : ∀ w, c.read.1 = .ok w → Word.InRange w.toInt
  fits : ∀ (m : Machine) (a : Nat), m.At .read a → ∀ v, (m.step c).result ≠ .error (.unfit v)

theorem read_sound (c : Console) : c.Sound where
  answers_iff sent h r d := by
    obtain ⟨input, output⟩ := c
    obtain rfl : output = ⟨sent, none⟩ := h
    exact read_eq_iff
  inRange _ h := inRange_of_read h
  fits _ _ hat v := Machine.step_ne_unfit hat c v

/-- Behind a line with nothing on it and one with two numbers, the word; what is no text is left. -/
theorem read_sound_third_line :
    read { input := utf8 "\n+7 8\n -0042\r\n".toList ++ [255, 10] } =
      (.ok (-42), { input := [255, 10], output := { sent :=
        "Enter an integer: *** Please enter a value between -9999 and 9999 ***\n" ++
        "Enter an integer: *** Please enter a value between -9999 and 9999 ***\n" ++
        "Enter an integer: " } }) := by
  have hfirst : Leads (utf8 "\n+7 8\n -0042\r\n".toList ++ [255, 10]) (utf8 [])
      (utf8 "+7 8\n -0042\r\n".toList ++ [255, 10]) := Stream.leads_iff_firstLine?.mpr (by decide)
  have hsecond : Leads (utf8 "+7 8\n -0042\r\n".toList ++ [255, 10]) (utf8 "+7 8".toList)
      (utf8 " -0042\r\n".toList ++ [255, 10]) := Stream.leads_iff_firstLine?.mpr (by decide)
  have hthird : Leads (utf8 " -0042\r\n".toList ++ [255, 10]) (utf8 " -0042\r".toList) [255, 10] :=
    Stream.leads_iff_firstLine?.mpr (by decide)
  have hskips : ∀ l ∈ [[], "+7 8".toList], ∀ w, ¬ Enters l w := by
    rw [List.forall_mem_cons, List.forall_mem_singleton]
    exact ⟨word?_eq_none_iff.mp (by decide), word?_eq_none_iff.mp (by decide)⟩
  have hword : Enters " -0042\r".toList (-42) := word?_eq_some_iff.mp (by decide)
  exact ((read_sound _).answers_iff "" rfl _ _).mpr
    (.intro (.cons hfirst (.cons hsecond .nil)) hskips (.word hthird hword))

end Console

end Simpletron
