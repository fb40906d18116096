import Simpletron.Proofs.Atomicity
import Simpletron.Proofs.LifeCycle
import Simpletron.Proofs.ReadBack

/-! The two parts of a word. Since a word can be split in one way only, a dump shows the current word
in the parts that it is decoded by, and a machine that stopped at an unknown operation is dumped with
that operation and its location. -/

namespace Simpletron

namespace Word

structure Splits (w code operand : Int) : Prop where
  sum : 100 * code + operand = w
  sign : operand = 0 ∨ operand.sign = w.sign
  le : operand.natAbs ≤ 99

variable {w code operand : Int}

theorem splits_tdiv_tmod (w : Int) : Splits w (w.tdiv 100) (w.tmod 100) where
  sum := Int.mul_tdiv_add_tmod w 100
  sign := by
    rw [← Int.sign_eq_zero_iff_zero, Int.sign_tmod]
    split
    · exact .inl rfl
    · exact .inr rfl
  le := by
    rw [Int.natAbs_tmod]
    exact Nat.le_of_lt_succ (Nat.mod_lt _ (by decide))

theorem Splits.nonneg (h : Splits w code operand) (hw : 0 ≤ w) : 0 ≤ operand := by
  obtain hzero | hsign := h.sign
  · exact hzero.ge
  · rw [← Int.sign_nonneg_iff, hsign]
    exact Int.sign_nonneg_iff.mpr hw

theorem Splits.nonpos (h : Splits w code operand) (hw : w ≤ 0) : operand ≤ 0 := by
  obtain hzero | hsign := h.sign
  · exact hzero.le
  · rw [← Int.sign_nonpos_iff, hsign]
    exact Int.sign_nonpos_iff.mpr hw

theorem Splits.unique {code' operand' : Int} (h : Splits w code operand)
    (h' : Splits w code' operand') : code = code' ∧ operand = operand' := by
  have hsum := h.sum.trans h'.sum.symm
  have hle := h.le
  have hle' := h'.le
  -- Two remainders of different signs could be a hundred apart.
  obtain hw | hw := Int.le_total 0 w
  · have hpos := h.nonneg hw
    have hpos' := h'.nonneg hw
    omega
  · have hneg := h.nonpos hw
    have hneg' := h'.nonpos hw
    omega

theorem splits_iff : Splits w code operand ↔ code = w.tdiv 100 ∧ operand = w.tmod 100 := by
  constructor
  · exact fun h => h.unique (splits_tdiv_tmod w)
  · rintro ⟨rfl, rfl⟩
    exact splits_tdiv_tmod w

end Word

namespace Instruction

variable {word code operand : Int} {location : Nat} {i : Instruction} {f : Fault}

theorem parts_of_decode (h : decode word location = .ok i) (hs : Word.Splits word code operand) :
    code = i.opcode.code ∧ operand = i.operand.val := by
  have hw := decode_eq_ok_iff.mp h
  obtain ⟨rfl, rfl⟩ := Word.splits_iff.mp hs
  exact ⟨hw.tdiv, hw.tmod⟩

theorem fault_of_decode (h : decode word location = .error f) (hs : Word.Splits word code operand) :
    f = .unknownOpcode code location := by
  obtain ⟨rfl, -⟩ := Word.splits_iff.mp hs
  exact (decode_eq_error_iff.mp h).2

end Instruction

namespace Machine

open Picture

variable {τ : Type} [Device τ] {m n : Machine} {t : τ} {turn : Turn τ} {code operand : Int}
  {location limit : Nat}

structure ShowsWord (text : String) (w code operand : Int) : Prop where
  word : register? "instructionRegister" text = some w
  code : register? "operationCode" text = some code
  operand : register? "operand" text = some operand

structure ShowsUnknown (text : String) (code : Int) (location : Nat) : Prop where
  code : register? "operationCode" text = some code
  location : register? "instructionCounter" text = some (location : Int)

theorem register_of_lt (h : m.ip < 100) : m.register = m.memory[m.ip] := dif_pos h

theorem register_of_not_lt (h : ¬ m.ip < 100) : m.register = 0 := dif_neg h

theorem showsWord_dump (hm : m.Sound) (h : Word.Splits m.register.toInt code operand) :
    ShowsWord m.dump m.register.toInt code operand := by
  obtain ⟨rfl, rfl⟩ := Word.splits_iff.mp h
  exact {
    word := register_dump hm (.tail _ (.tail _ (.head _)))
    code := register_dump hm (.tail _ (.tail _ (.tail _ (.head _))))
    operand := register_dump hm (.tail _ (.tail _ (.tail _ (.tail _ (.head _))))) }

theorem showsUnknown_dump (hm : m.Sound) (h : m.fetch = .error (.unknownOpcode code location)) :
    ShowsUnknown m.dump code location := by
  obtain ⟨_, hf⟩ | ⟨hip, _, hf⟩ := fetch_eq_error_iff.mp h
  · cases hf
  · cases hf
    have hshows := showsWord_dump hm (Word.splits_tdiv_tmod _)
    rw [register_of_lt hip] at hshows
    exact ⟨hshows.code, register_dump hm (.tail _ (.head _))⟩

/-- If the turn ended at an unknown operation, the dump of its machine shows it. -/
def Turn.Traceable (turn : Turn τ) : Prop :=
  ∀ code location, turn.result = .error (.unknownOpcode code location) →
    ShowsUnknown turn.machine.dump code location

theorem dump_of_unmoved (h : Unmoved m n) : n.dump = m.dump := by
  have hregister : n.register = m.register := by simp only [register, h.ip, h.memory]
  have hrow : n.row = m.row := by
    funext r
    simp only [row, h.memory]
  simp only [dump, dumpLines, hregister, hrow, h.ip, h.accumulator]

theorem shown_or_relays (hm : m.Sound) (hstep : Steps m t turn)
    (h : turn.result = .error (.unknownOpcode code location)) :
    ShowsUnknown turn.machine.dump code location ∨ m.Relays t (.unknownOpcode code location) := by
  obtain ⟨_, hf, _⟩ | ⟨hs, _⟩ := machine_of_error hstep h
  · cases hf
  · cases origin_of_error hstep hs h with
    | fetch hfetch =>
      rw [dump_of_unmoved (unmoved_of_error hstep h)]
      exact .inl (showsUnknown_dump hm hfetch)
    | device hrelays => exact .inr hrelays

theorem Sound.after (h : m.Sound) (t : τ) (n : Nat) : (m.after t n).1.Sound := by
  induction n with
  | zero => exact h
  | succ n ih => exact ih.step

theorem shown_or_relays_of_run (hm : m.Sound) (hrun : m.run limit t = some turn)
    (h : turn.result = .error (.unknownOpcode code location)) :
    ShowsUnknown turn.machine.dump code location ∨
      ∃ k < limit, m.restart.call t k = turn ∧
        (m.restart.after t k).1.Relays (m.restart.after t k).2 (.unknownOpcode code location) := by
  obtain ⟨k, hk, _, rfl⟩ := resume_eq_some_iff.mp hrun
  have hlast := shown_or_relays (hm.restart.after t k) (steps_step _ _) h
  exact hlast.imp_right fun hrelays => ⟨k, hk, rfl, hrelays⟩

theorem traceable_step {τ : Type} [Terminal τ] (hm : m.Sound) (t : τ) : (m.step t).Traceable := by
  intro code location h
  refine (shown_or_relays hm (steps_step m t) h).resolve_right fun hrelays => ?_
  obtain ⟨_, hcause⟩ := terminal_of_relays hrelays
  cases hcause

theorem traceable_of_run {τ : Type} [Terminal τ] {t : τ} {turn : Turn τ} (hm : m.Sound)
    (hrun : m.run limit t = some turn) : turn.Traceable := by
  obtain ⟨k, _, _, rfl⟩ := resume_eq_some_iff.mp hrun
  exact traceable_step (hm.restart.after t k) _

/-- The current word in a dump, beside what it is decoded as, and a machine that stopped at an unknown
operation. A device could also report one that it made up, no terminal does. -/
theorem dump_agrees_with_decode (hm : m.Reachable) :
    (∀ _ : m.ip < 100, ∃ code operand : Int,
      ShowsWord m.dump m.memory[m.ip].toInt code operand ∧
      Word.Splits m.memory[m.ip].toInt code operand ∧
      (∀ i, Instruction.decode m.memory[m.ip].toInt m.ip = .ok i →
        code = i.opcode.code ∧ operand = i.operand.val) ∧
      ∀ f, Instruction.decode m.memory[m.ip].toInt m.ip = .error f →
        f = .unknownOpcode code m.ip) ∧
    (m.ip = 100 → ShowsWord m.dump 0 0 0) ∧
    (∀ {τ : Type} [Terminal τ] (t : τ), (m.step t).Traceable ∧
      ∀ limit turn, m.run limit t = some turn → turn.Traceable) ∧
    ∀ {τ : Type} [Device τ] (t : τ) (limit : Nat) (turn : Turn τ) (code : Int) (location : Nat),
      m.run limit t = some turn → turn.result = .error (.unknownOpcode code location) →
        ShowsUnknown turn.machine.dump code location ∨
          ∃ k < limit, m.restart.call t k = turn ∧
            (m.restart.after t k).1.Relays (m.restart.after t k).2
              (.unknownOpcode code location) := by
  refine ⟨fun hip => ?_, fun hip => ?_, ?_, ?_⟩
  · have hsplits := Word.splits_tdiv_tmod m.register.toInt
    have hshows := showsWord_dump hm.sound hsplits
    rw [register_of_lt hip] at hsplits hshows
    exact ⟨_, _, hshows, hsplits, fun i hi => Instruction.parts_of_decode hi hsplits,
      fun f hf => Instruction.fault_of_decode hf hsplits⟩
  · have hshows := showsWord_dump hm.sound (Word.splits_tdiv_tmod _)
    rw [register_of_not_lt (by omega)] at hshows
    exact hshows
  · intro τ _ t
    exact ⟨traceable_step hm.sound t, fun limit turn hrun => traceable_of_run hm.sound hrun⟩
  · intro τ _ t limit turn code location hrun h
    exact shown_or_relays_of_run hm.sound hrun h

theorem dump_agrees_with_decode_negative :
    let memory := (Memory.blank.set 0 (by decide) 4005).set 5 (by decide) (-1007)
    let script : Script := { inputs := [] }
    let m := ((boot memory).step script).machine
    m.Reachable ∧ m.ip < 100 ∧ ShowsWord m.dump (-1007) (-10) (-7) ∧
      ∃ turn, m.run 2 script = some turn ∧ turn.result = .error (.unknownOpcode (-10) 5) ∧
        ShowsUnknown turn.machine.dump (-10) 5 := by
  intro memory script m
  have h0 : Memory.blank.write 0 4005 = .ok (Memory.blank.set 0 (by decide) 4005) := rfl
  have h5 : (Memory.blank.set 0 (by decide) 4005).write 5 (-1007) = .ok memory := rfl
  have hm : m.Reachable := .step script (.boot (.write (.write .blank h0) h5))
  have hip : m.ip < 100 := by decide
  have hword : m.register.toInt = -1007 := by decide
  obtain ⟨hcurrent, -, hterminal, -⟩ := dump_agrees_with_decode hm
  obtain ⟨code, operand, hshows, hsplits, -⟩ := hcurrent hip
  rw [← register_of_lt hip, hword] at hshows hsplits
  have hdigits : Word.Splits (-1007) (-10) (-7) := ⟨by decide, .inr (by decide), by decide⟩
  obtain ⟨rfl, rfl⟩ := hsplits.unique hdigits
  have hrun : m.run 2 script = some (m.restart.call script 1) :=
    resume_eq_some_iff.mpr ⟨1, Nat.one_lt_two, ⟨by decide, by decide⟩, rfl⟩
  have hresult : (m.restart.call script 1).result = .error (.unknownOpcode (-10) 5) := by decide
  obtain ⟨-, hruns⟩ := hterminal script
  exact ⟨hm, hip, hshows, _, hrun, hresult, hruns 2 _ hrun _ _ hresult⟩

end Machine

end Simpletron
