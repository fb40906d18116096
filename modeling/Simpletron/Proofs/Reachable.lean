import Simpletron.Proofs.Outcome
import Simpletron.Proofs.Storage
import Simpletron.Terminal.Script

namespace Simpletron

namespace Machine

variable {τ : Type} {m : Machine} {t : τ}

/-- At location 100 there is no instruction left to halt at. -/
structure Sound (m : Machine) : Prop where
  memory : m.memory.Sound
  accumulator : Word.InRange m.accumulator.toInt
  ip_le : m.ip ≤ 100
  not_halted : m.ip = 100 → m.status ≠ .halted

theorem sound_boot {memory : Memory} (h : memory.Sound) : (boot memory).Sound where
  memory := h
  accumulator := Word.inRange_zero
  ip_le := Nat.zero_le 100
  not_halted h := by cases h

namespace Sound

theorem restart (h : m.Sound) : m.restart.Sound where
  memory := h.memory
  accumulator := Word.inRange_zero
  ip_le := Nat.zero_le 100
  not_halted h := by cases h

theorem flag (h : m.Sound) (up : Bool) : (m.flag up).Sound := ⟨h.1, h.2, h.3, h.4⟩

theorem remember (h : m.Sound) {memory : Memory} (hm : memory.Sound) : (m.remember memory).Sound :=
  { h with memory := hm }

theorem assign (h : m.Sound) {w : Word} (hw : Word.InRange w.toInt) : (m.assign w).Sound :=
  { h with accumulator := hw }

theorem jump (h : m.Sound) {a : Nat} (ha : a < 100) : (m.jump a).Sound :=
  { h with ip_le := Nat.le_of_lt ha, not_halted := fun he => absurd he (Nat.ne_of_lt ha) }

theorem advance (h : m.Sound) (hip : m.ip < 100) (ha : m.status = .active) : m.advance.Sound :=
  { h with ip_le := hip, not_halted := fun _ hh => by cases ha.symm.trans hh }

theorem fault (h : m.Sound) : (m.become .faulted).Sound :=
  { h with not_halted := fun _ hh => by cases hh }

theorem halt (h : m.Sound) (hip : m.ip < 100) : (m.become .halted).Sound :=
  { h with not_halted := fun he _ => Nat.ne_of_lt hip he }

end Sound

section Step

variable [Device τ]

theorem Sound.completes {n : Machine} {u : τ} {op : Opcode} {a : Nat} (h : m.Sound)
    (hs : m.status = .active) (hat : m.At op a) (hc : Completes m t op a n u) : n.Sound := by
  have hip := hat.ip_lt
  cases hc with
  | read ha _ hv =>
    have hm := h.memory.set ha (w := Int32.ofInt _) (by rwa [Word.toInt_ofInt hv])
    exact ((h.flag _).remember hm).advance hip hs
  | write ha _ => exact (h.flag _).advance hip hs
  | store ha hv => exact (h.remember (h.memory.set ha hv)).advance hip hs
  | compute ha _ hv => exact (h.assign (by rwa [Word.toInt_ofInt hv])).advance hip hs
  | jump _ => exact h.jump hat.operand_lt
  | pass _ => exact h.advance hip hs
  | halt => exact h.halt hip

theorem Sound.steps {turn : Turn τ} (h : m.Sound) (hstep : Steps m t turn) :
    turn.machine.Sound := by
  cases hstep with
  | inactive _ => exact h
  | interrupted _ _ => exact h.fault
  | unfetched _ _ _ => exact h.fault
  | completed hs _ hat hc => exact h.completes hs hat hc
  | failed _ _ _ hf =>
    obtain ⟨up, rfl⟩ := flag_of_fails hf
    exact (h.flag up).fault

theorem Sound.step (h : m.Sound) : (m.step t).machine.Sound := h.steps (steps_step m t)

theorem Sound.resume (h : m.Sound) {limit : Nat} {turn : Turn τ}
    (hr : m.resume limit t = some turn) : turn.machine.Sound := by
  induction limit generalizing m t with
  | zero => cases hr
  | succ limit ih =>
    simp only [Machine.resume] at hr
    split at hr
    · exact ih h.step hr
    · cases hr
      exact h.step

theorem Sound.run (h : m.Sound) {limit : Nat} {turn : Turn τ} (hr : m.run limit t = some turn) :
    turn.machine.Sound :=
  h.restart.resume hr

end Step

end Machine

mutual

inductive Memory.Obtainable : Memory → Prop
  | blank : Memory.Obtainable .blank
  | image {image m} : Memory.ofImage image = .ok m → Memory.Obtainable m
  | write {m n a v} : Memory.Obtainable m → m.write a v = .ok n → Memory.Obtainable n
  | draft {d} : Program.Draft.Obtainable d → Memory.Obtainable d.toMemory
  | parse {source m} : Program.parse source = .ok m → Memory.Obtainable m
  | retired {m} : Machine.Reachable m → Memory.Obtainable m.memory

/-- The machines that come about. A run begins with a restart and goes on in steps, so that the
machines inside a run are among them, those of a run that never ends too. -/
inductive Machine.Reachable : Machine → Prop
  | boot {memory} : Memory.Obtainable memory → Machine.Reachable (.boot memory)
  | step {m τ} [Device τ] (t : τ) : Machine.Reachable m → Machine.Reachable (m.step t).machine
  | run {m τ} [Device τ] {t : τ} {limit turn} : Machine.Reachable m →
      m.run limit t = some turn → Machine.Reachable turn.machine
  | restart {m} : Machine.Reachable m → Machine.Reachable m.restart
  | flag {m} (up : Bool) : Machine.Reachable m → Machine.Reachable (m.flag up)

end

mutual

theorem Memory.Obtainable.sound : {m : Memory} → m.Obtainable → m.Sound
  | _, .blank => Memory.sound_blank
  | _, .image h => Memory.sound_of_ofImage h
  | _, .write hm h => Memory.Sound.write hm.sound h
  | _, .draft h => h.sound
  | _, .parse h => by
    obtain ⟨d, hd, rfl⟩ := Program.exists_draft_of_parse h
    exact hd.sound
  | _, .retired h => h.sound.memory

theorem Machine.Reachable.sound : {m : Machine} → m.Reachable → m.Sound
  | _, .boot h => Machine.sound_boot h.sound
  | _, @Machine.Reachable.step _ _ _ t h => h.sound.step (t := t)
  | _, @Machine.Reachable.run _ _ _ _ _ _ h hr => h.sound.run hr
  | _, .restart h => h.sound.restart
  | _, .flag up h => h.sound.flag up

end

namespace Machine

variable {τ : Type} [Device τ] {m : Machine} {t : τ}

theorem error_of_ip_eq {turn : Turn τ} (h : m.ip = 100) (hstep : Steps m t turn) :
    ∃ f, turn.result = .error f := by
  cases hr : turn.result with
  | error f => exact ⟨f, rfl⟩
  | ok s =>
    obtain ⟨_, _, _, hat, _, _⟩ := exists_completes hstep hr
    exact absurd h (Nat.ne_of_lt hat.ip_lt)

structure Invariant (m : Machine) : Prop where
  cells : ∀ (a : Nat) (h : a < 100), Word.InRange m.memory[a].toInt
  accumulator : Word.InRange m.accumulator.toInt
  ip_le : m.ip ≤ 100
  at_end : m.ip = 100 →
    (m.status = .active ∧ ∀ (τ : Type) [Device τ] (t : τ), ∃ f, (m.step t).result = .error f) ∨
      m.status = .faulted
  operand_lt : ∀ i : Instruction, m.fetch = .ok i → i.operand.val < 100
  operand_read : ∀ i : Instruction, m.fetch = .ok i → ∃ w, m.memory.read i.operand.val = .ok w
  operand_write : ∀ (i : Instruction) (v : Int) (a : Nat), m.fetch = .ok i →
    m.memory.write i.operand.val v ≠ .error (.outsideMemory a)

theorem invariant_of_reachable (h : m.Reachable) : m.Invariant where
  cells := h.sound.memory
  accumulator := h.sound.accumulator
  ip_le := h.sound.ip_le
  at_end he := by
    cases hs : m.status with
    | active => exact .inl ⟨rfl, fun _ _ t => error_of_ip_eq he (steps_step m t)⟩
    | halted => exact absurd hs (h.sound.not_halted he)
    | faulted => exact .inr rfl
  operand_lt i hi := (fetch_eq_ok_iff.mp hi).operand_lt
  operand_read i hi := ⟨_, Memory.read_of_lt _ (fetch_eq_ok_iff.mp hi).operand_lt⟩
  operand_write i v a hi := by
    rw [Memory.write_of_lt (fetch_eq_ok_iff.mp hi).operand_lt]
    split <;> simp

theorem invariant_past_end :
    let memory := (Memory.blank.set 0 (by decide) 4099).set 99 (by decide) 2000
    let script : Script := { inputs := [] }
    let m := (((boot memory).step script).machine.step script).machine
    m.Reachable ∧ m.ip = 100 ∧ m.accumulator = 4099 ∧ m.status = .active ∧ m.Invariant := by
  intro memory script m
  have h0 : Memory.blank.write 0 4099 = .ok (Memory.blank.set 0 (by decide) 4099) := rfl
  have h99 : (Memory.blank.set 0 (by decide) 4099).write 99 2000 = .ok memory := rfl
  have hm : memory.Obtainable := .write (.write .blank h0) h99
  have hr : m.Reachable := .step script (.step script (.boot hm))
  exact ⟨hr, by decide, by decide, by decide, invariant_of_reachable hr⟩

end Machine

end Simpletron
