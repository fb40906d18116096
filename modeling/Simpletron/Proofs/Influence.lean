import Mathlib.Data.Set.Basic
import Simpletron.Proofs.Requests
import Simpletron.Terminal.Script

namespace Simpletron

namespace Opcode

def consumes : Opcode → Bool
  | .write | .load | .add | .subtract | .divide | .multiply => true
  | .read | .store | .branch | .branchNeg | .branchZero | .halt => false

def fills : Opcode → Bool
  | .read | .store => true
  | .write | .load | .add | .subtract | .divide | .multiply => false
  | .branch | .branchNeg | .branchZero | .halt => false

theorem consumes_of_result {op : Opcode} {acc cell v : Int} (h : op.result? acc cell = some v) :
    op.consumes ∧ op.fills = false := by
  cases op <;> simp [result?, consumes, fills] at h ⊢

theorem fills_of_taken {op : Opcode} {acc : Int} {b : Bool} (h : op.taken? acc = some b) :
    op.fills = false := by
  cases op <;> simp [taken?, fills] at h ⊢

end Opcode

namespace Memory

variable {d e : Memory} {a b : Nat}

theorem getElem_set_congr (ha : a < 100) (w : Word) (hb : b < 100) (h : b = a ∨ d[b] = e[b]) :
    (d.set a ha w)[b] = (e.set a ha w)[b] := by
  by_cases hab : a = b
  · subst hab
    rw [getElem_set_self, getElem_set_self]
  · rw [getElem_set_ne _ ha w hb hab, getElem_set_ne _ ha w hb hab]
    exact h.resolve_left (Ne.symm hab)

end Memory

namespace Machine

/-- The cells whose content the next step uses. -/
def uses (m : Machine) : List Nat :=
  if m.status = .active ∧ m.interrupt = false ∧ m.ip < 100 then
    m.ip :: match m.fetch with
      | .ok i => if i.opcode.consumes then [i.operand.val] else []
      | .error _ => []
  else []

variable {τ : Type} [Device τ] {m m' n : Machine} {t u : τ} {op : Opcode} {a b : Nat}

def fills (m : Machine) (t : τ) : List Nat :=
  match (m.step t).result, m.fetch with
  | .ok _, .ok i => if i.opcode.fills then [i.operand.val] else []
  | _, _ => []

def filled (m : Machine) (t : τ) : Nat → List Nat
  | 0 => []
  | n + 1 => m.filled t n ++ (m.after t n).1.fills (m.after t n).2

theorem ip_mem_uses (hs : m.status = .active) (hi : m.interrupt = false) (hip : m.ip < 100) :
    m.ip ∈ m.uses := by
  rw [uses, if_pos ⟨hs, hi, hip⟩]
  exact List.mem_cons_self

theorem operand_mem_uses (hs : m.status = .active) (hi : m.interrupt = false) (hat : m.At op a)
    (hop : op.consumes) : a ∈ m.uses := by
  obtain ⟨i, hf, rfl, rfl⟩ := exists_fetch hat
  simp [uses, hs, hi, hat.ip_lt, hf, hop]

theorem fills_of_ok {s : Status} (hat : m.At op a) (h : (m.step t).result = .ok s) :
    m.fills t = if op.fills then [a] else [] := by
  obtain ⟨i, hf, rfl, rfl⟩ := exists_fetch hat
  simp only [fills, h, hf]

theorem fills_of_error {f : Fault} (h : (m.step t).result = .error f) : m.fills t = [] := by
  simp only [fills, h]

section Frame

theorem getElem_of_completes (h : Completes m t op a n u) (hb : b < 100)
    (hne : op.fills → b ≠ a) : n.memory[b] = m.memory[b] := by
  cases h with
  | read ha _ _ => exact Memory.getElem_set_ne _ ha _ hb (hne rfl).symm
  | store ha _ => exact Memory.getElem_set_ne _ ha _ hb (hne rfl).symm
  | write _ _ => rfl
  | compute _ _ _ => rfl
  | jump _ => rfl
  | pass _ => rfl
  | halt => rfl

theorem getElem_step (hb : b < 100) (h : b ∉ m.fills t) :
    (m.step t).machine.memory[b] = m.memory[b] := by
  have hstep := steps_step m t
  cases hr : (m.step t).result with
  | error f =>
    obtain ⟨_, _, hm⟩ | ⟨_, up, hm⟩ := machine_of_error hstep hr
    · rw [hm]
    · rw [hm]
      rfl
  | ok s =>
    obtain ⟨op, a, _, hat, _, hc⟩ := exists_completes hstep hr
    apply getElem_of_completes hc hb
    intro hop
    rw [fills_of_ok hat hr, if_pos hop] at h
    exact List.ne_of_not_mem_cons h

theorem getElem_after {k : Nat} (hb : b < 100) (h : b ∉ m.filled t k) :
    (m.after t k).1.memory[b] = m.memory[b] := by
  induction k with
  | zero => rfl
  | succ k ih =>
    rw [filled, List.mem_append, not_or] at h
    rw [← ih h.1]
    exact getElem_step hb h.2

end Frame

structure AgreesOn (S : Set Nat) (m m' : Machine) : Prop where
  ip : m'.ip = m.ip
  accumulator : m'.accumulator = m.accumulator
  status : m'.status = m.status
  interrupt : m'.interrupt = m.interrupt
  cells : ∀ a ∈ S, ∀ h : a < 100, m'.memory[a] = m.memory[a]

variable {S T : Set Nat} {d : Memory}

theorem agreesOn_iff_remember :
    AgreesOn S m m' ↔
      ∃ d : Memory, m' = m.remember d ∧ ∀ a ∈ S, ∀ h : a < 100, d[a] = m.memory[a] := by
  constructor
  · intro h
    refine ⟨m'.memory, ?_, h.cells⟩
    rw [remember, ← h.ip, ← h.accumulator, ← h.status, ← h.interrupt]
  · rintro ⟨d, rfl, hc⟩
    exact ⟨rfl, rfl, rfl, rfl, hc⟩

theorem AgreesOn.mono (h : AgreesOn S m m') (hT : T ⊆ S) : AgreesOn T m m' :=
  { h with cells := fun a ha => h.cells a (hT ha) }

theorem fetch_remember (h : ∀ hip : m.ip < 100, d[m.ip] = m.memory[m.ip]) :
    (m.remember d).fetch = m.fetch := by
  by_cases hip : m.ip < 100
  · rw [fetch_of_lt hip, fetch_of_lt (m := m.remember d) hip]
    exact congrArg (fun w : Word => Instruction.decode w.toInt m.ip) (h hip)
  · rw [fetch_of_not_lt hip, fetch_of_not_lt (m := m.remember d) hip]
    rfl

theorem exists_completes_remember (hcell : op.consumes → ∀ ha : a < 100, d[a] = m.memory[a])
    (h : Completes m t op a n u) :
    ∃ e : Memory, Completes (m.remember d) t op a (n.remember e) u ∧
      ∀ (b : Nat) (hb : b < 100), (op.fills ∧ b = a) ∨ d[b] = m.memory[b] →
        e[b] = n.memory[b] := by
  have hkept : op.fills = false → ∀ (b : Nat) (hb : b < 100),
      (op.fills ∧ b = a) ∨ d[b] = m.memory[b] → d[b] = m.memory[b] :=
    fun hno b _ h => h.resolve_left fun h => Bool.false_ne_true (hno ▸ h.1)
  cases h with
  | @read _ v ha hd hv =>
    refine ⟨d.set a ha (Int32.ofInt v), .read ha hd hv, fun b hb h => ?_⟩
    exact Memory.getElem_set_congr ha _ hb (h.imp_left And.right)
  | store ha hv =>
    refine ⟨d.set a ha m.accumulator, .store ha hv, fun b hb h => ?_⟩
    exact Memory.getElem_set_congr ha _ hb (h.imp_left And.right)
  | write ha hd =>
    have hc : d[a] = m.memory[a] := hcell rfl ha
    refine ⟨d, ?_, hkept rfl⟩
    rw [← hc] at hd ⊢
    exact .write (m := m.remember d) ha hd
  | compute ha hr hv =>
    obtain ⟨hop, hno⟩ := Opcode.consumes_of_result hr
    have hc : d[a] = m.memory[a] := hcell hop ha
    rw [← hc] at hr
    exact ⟨d, .compute (m := m.remember d) ha hr hv, hkept hno⟩
  | jump hb => exact ⟨d, .jump (m := m.remember d) hb, hkept (Opcode.fills_of_taken hb)⟩
  | pass hb => exact ⟨d, .pass (m := m.remember d) hb, hkept (Opcode.fills_of_taken hb)⟩
  | halt => exact ⟨d, .halt, hkept rfl⟩

theorem fails_remember {f : Fault} (hcell : op.consumes → ∀ ha : a < 100, d[a] = m.memory[a])
    (h : Fails m t op a f n u) : Fails (m.remember d) t op a f (n.remember d) u := by
  cases h with
  | read hd => exact .read hd
  | input hd hv => exact .input hd hv
  | write ha hd =>
    have hc : d[a] = m.memory[a] := hcell rfl ha
    rw [← hc] at hd ⊢
    exact .write (m := m.remember d) ha hd
  | store hv => exact .store hv
  | compute ha hr hv =>
    have hc : d[a] = m.memory[a] := hcell (Opcode.consumes_of_result hr).1 ha
    rw [← hc] at hr
    exact .compute (m := m.remember d) ha hr hv
  | divide ha hz =>
    have hc : d[a] = m.memory[a] := hcell rfl ha
    rw [← hc] at hz
    exact .divide (m := m.remember d) ha hz

theorem at_remember (h : ∀ hip : m.ip < 100, d[m.ip] = m.memory[m.ip]) (hat : m.At op a) :
    (m.remember d).At op a := by
  obtain ⟨i, hf, rfl, rfl⟩ := exists_fetch hat
  exact fetch_eq_ok_iff.mp ((fetch_remember h).trans hf)

structure Mirrors (m : Machine) (t : τ) (d e : Memory) : Prop where
  step : (m.remember d).step t =
    ⟨(m.step t).result, (m.step t).machine.remember e, (m.step t).terminal⟩
  fills : (m.remember d).fills t = m.fills t
  cells : ∀ (b : Nat) (hb : b < 100), b ∈ m.fills t ∨ d[b] = m.memory[b] →
    e[b] = (m.step t).machine.memory[b]

theorem mirrors_of_error {turn : Turn τ} {f : Fault} (hturn : m.step t = turn)
    (h : turn.result = .error f)
    (hstep : Steps (m.remember d) t ⟨turn.result, turn.machine.remember d, turn.terminal⟩) :
    m.Mirrors t d d := by
  subst hturn
  have hstep' := hstep.step_eq
  have hfills : m.fills t = [] := fills_of_error h
  refine ⟨hstep', ?_, fun b hb hagree => ?_⟩
  · rw [hfills, fills_of_error ((congrArg Turn.result hstep').trans h)]
  · have hno : b ∉ m.fills t := by
      rw [hfills]
      exact List.not_mem_nil
    rw [getElem_step hb hno]
    exact hagree.resolve_left hno

theorem exists_mirrors (t : τ) (hc : ∀ a ∈ m.uses, ∀ ha : a < 100, d[a] = m.memory[a]) :
    ∃ e, m.Mirrors t d e := by
  have hstep := steps_step m t
  generalize hturn : m.step t = turn at hstep
  cases hstep with
  | inactive hs => exact ⟨d, mirrors_of_error hturn rfl (.inactive hs)⟩
  | interrupted hs hi => exact ⟨d, mirrors_of_error hturn rfl (.interrupted hs hi)⟩
  | unfetched hs hi hf =>
    have hfetch := fetch_remember fun hip => hc _ (ip_mem_uses hs hi hip) hip
    exact ⟨d, mirrors_of_error hturn rfl (.unfetched hs hi (hfetch.trans hf))⟩
  | failed hs hi hat hf =>
    have hat' := at_remember (fun hip => hc _ (ip_mem_uses hs hi hip) hip) hat
    have hf' := fails_remember (fun hop => hc _ (operand_mem_uses hs hi hat hop)) hf
    exact ⟨d, mirrors_of_error hturn rfl (.failed (m := m.remember d) hs hi hat' hf')⟩
  | completed hs hi hat hcompletes =>
    have hat' := at_remember (fun hip => hc _ (ip_mem_uses hs hi hip) hip) hat
    obtain ⟨e, hd, hcells⟩ := exists_completes_remember
      (fun hop => hc _ (operand_mem_uses hs hi hat hop)) hcompletes
    have hstep' := Steps.step_eq (.completed (m := m.remember d) hs hi hat' hd)
    have hfills := fills_of_ok hat (congrArg Turn.result hturn)
    refine ⟨e, ?_, ?_, ?_⟩
    · rw [hturn]
      exact hstep'
    · rw [hfills, fills_of_ok hat' (congrArg Turn.result hstep')]
    · intro b hb hagree
      rw [hturn]
      apply hcells b hb
      rw [hfills] at hagree
      refine hagree.imp_left fun hmem => ?_
      split at hmem
      · next hop => exact ⟨hop, List.mem_singleton.mp hmem⟩
      · cases hmem

theorem AgreesOn.step (h : AgreesOn S m m') (huse : ∀ a ∈ m.uses, a ∈ S) (t : τ) :
    (m'.step t).result = (m.step t).result ∧ (m'.step t).terminal = (m.step t).terminal ∧
      m'.fills t = m.fills t ∧
      AgreesOn (S ∪ {a | a ∈ m.fills t}) (m.step t).machine (m'.step t).machine := by
  obtain ⟨d, rfl, hc⟩ := agreesOn_iff_remember.mp h
  obtain ⟨e, hd⟩ := exists_mirrors t fun a ha => hc a (huse a ha)
  rw [hd.step]
  refine ⟨rfl, rfl, hd.fills, agreesOn_iff_remember.mpr ⟨e, rfl, fun a ha hlt => ?_⟩⟩
  exact hd.cells a hlt (ha.symm.imp_right fun hS => hc a hS hlt)

/-- Every cell that a step uses is one of these or was written before in the run. -/
def DependsOn (A : Set Nat) (m : Machine) (t : τ) (n : Nat) : Prop :=
  ∀ k < n, ∀ a ∈ (m.after t k).1.uses, a ∈ A ∨ a ∈ m.filled t k

instance (A : Set Nat) [DecidablePred (· ∈ A)] (m : Machine) (t : τ) (n : Nat) :
    Decidable (m.DependsOn A t n) :=
  inferInstanceAs (Decidable (∀ k < n, ∀ a ∈ (m.after t k).1.uses, a ∈ A ∨ a ∈ m.filled t k))

theorem DependsOn.mono {A : Set Nat} {k n : Nat} (h : m.DependsOn A t n) (hle : k ≤ n) :
    m.DependsOn A t k := fun i hi => h i (Nat.lt_of_lt_of_le hi hle)

theorem AgreesOn.after {A : Set Nat} {n : Nat} (h : AgreesOn A m m') (huse : m.DependsOn A t n) :
    (m'.after t n).2 = (m.after t n).2 ∧ m'.filled t n = m.filled t n ∧
      AgreesOn (A ∪ {a | a ∈ m.filled t n}) (m.after t n).1 (m'.after t n).1 := by
  induction n with
  | zero => exact ⟨rfl, rfl, h.mono (by simp [filled])⟩
  | succ n ih =>
    obtain ⟨hterminal, hfilled, hagree⟩ := ih (huse.mono (Nat.le_succ n))
    obtain ⟨_, hnext, hfills, hmachine⟩ :=
      hagree.step (huse n (Nat.lt_succ_self n)) (m.after t n).2
    rw [after_succ, after_succ, call, call, hterminal, filled, filled, hterminal, hfilled, hfills]
    refine ⟨hnext, rfl, hmachine.mono ?_⟩
    rintro a (ha | ha)
    · exact .inl (.inl ha)
    · exact (List.mem_append.mp ha).imp_left .inr

theorem AgreesOn.call {A : Set Nat} {n : Nat} (h : AgreesOn A m m')
    (huse : m.DependsOn A t (n + 1)) : (m'.call t n).result = (m.call t n).result := by
  obtain ⟨hterminal, _, hagree⟩ := h.after (huse.mono (Nat.le_succ n))
  rw [Machine.call, Machine.call, hterminal]
  exact (hagree.step (huse n (Nat.lt_succ_self n)) _).1

section Simulation

variable {σ : Type} [Device σ] {R : σ → τ → Prop} {s : σ}

theorem Simulation.filled (hR : Simulation R) (h : R s t) (m : Machine) (n : Nat) :
    m.filled s n = m.filled t n := by
  induction n with
  | zero => rfl
  | succ n ih =>
    obtain ⟨hm, ht⟩ := hR.after h m n
    rw [Machine.filled, Machine.filled, ih, hm, Machine.fills, Machine.fills,
      (hR.step ht (m.after t n).1).result]

theorem DependsOn.simulation {A : Set Nat} {n : Nat} (huse : m.DependsOn A t n)
    (hR : Simulation R) (h : R s t) : m.DependsOn A s n := by
  intro k hk a ha
  rw [(hR.after h m k).1] at ha
  rw [hR.filled h]
  exact huse k hk a ha

end Simulation

/-- Two machines that are alike but for cells that the run of one does not use go through the same
run: the same results, the same calls to the device, and the same registers after every step. The
cells in which they differed at first are as they were, but for those written meanwhile. -/
theorem unused_cells_without_influence {A : Set Nat} {n : Nat} (h : AgreesOn A m m')
    (huse : m.DependsOn A t n) :
    (∀ k < n, (m'.call t k).result = (m.call t k).result) ∧
      (∀ k ≤ n, (m'.after t k).2 = (m.after t k).2 ∧
        AgreesOn (A ∪ {a | a ∈ m.filled t k}) (m.after t k).1 (m'.after t k).1) ∧
      (m'.after (Journal.mk t []) n).2 = (m.after (Journal.mk t []) n).2 ∧
      ∀ (a : Nat) (ha : a < 100), a ∉ m.filled t n →
        (m.after t n).1.memory[a] = m.memory[a] ∧ (m'.after t n).1.memory[a] = m'.memory[a] := by
  refine ⟨fun k hk => h.call (huse.mono hk), fun k hk => ?_, ?_, fun a ha hno => ?_⟩
  · obtain ⟨hterminal, _, hagree⟩ := h.after (huse.mono hk)
    exact ⟨hterminal, hagree⟩
  · exact (h.after (huse.simulation Journal.simulation (s := ⟨t, []⟩) rfl)).1
  · have hno' : a ∉ m'.filled t n := by rwa [(h.after huse).2.1]
    exact ⟨getElem_after ha hno, getElem_after ha hno'⟩

theorem unused_cells_without_influence_read :
    let echo := (Memory.blank.set 0 (by decide) 1005).set 1 (by decide) 1105
    let memory := echo.set 2 (by decide) 4300
    let m := boot memory
    let m' := boot ((memory.set 5 (by decide) 77).set 60 (by decide) 4300)
    let script : Script := { inputs := [7] }
    AgreesOn {a | a < 3} m m' ∧ m.DependsOn {a | a < 3} script 3 ∧
      (m'.call script 2).result = .ok .halted ∧ (m'.after script 3).2.outputs = #[7] ∧
      (m'.after script 3).1.memory[60] = 4300 := by
  intro echo memory m m' script
  have hagree : AgreesOn {a | a < 3} m m' := by
    refine ⟨rfl, rfl, rfl, rfl, fun a ha hlt => ?_⟩
    have ha : a < 3 := ha
    rw [show m'.memory = (memory.set 5 (by decide) 77).set 60 (by decide) 4300 from rfl,
      Memory.getElem_set_ne _ _ _ hlt (by omega), Memory.getElem_set_ne _ _ _ hlt (by omega)]
    rfl
  have huse : m.DependsOn {a | a < 3} script 3 := by decide
  obtain ⟨hresult, hafter, _, hcells⟩ := unused_cells_without_influence hagree huse
  refine ⟨hagree, huse, ?_, ?_, ?_⟩
  · rw [hresult 2 (by decide)]
    decide
  · rw [(hafter 3 (by decide)).1]
    decide
  · rw [(hcells 60 (by decide) (by decide)).2]
    rfl

end Machine

end Simpletron
