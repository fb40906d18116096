import Mathlib.Order.Monotone.Basic
import Simpletron.Proofs.Calls

/-! What a step wants of its device: nothing, or one call, and of that call no more than the result
and the flag. -/

namespace Simpletron

inductive Request : Type
  | read
  | write (v : Int)
  deriving DecidableEq

namespace Request

abbrev Answer : Request → Type
  | .read => Int
  | .write _ => Unit

def serve {τ : Type} [Device τ] (t : τ) : (q : Request) → Reply Fault τ q.Answer
  | .read => Device.read t
  | .write v => Device.write v t

end Request

namespace Machine

def request? (m : Machine) : Option Request :=
  if m.status = .active ∧ m.interrupt = false then
    match m.fetch with
    | .ok ⟨.read, _⟩ => some .read
    | .ok ⟨.write, a⟩ => (m.memory.read a.val).toOption.map fun w => .write w.toInt
    | _ => none
  else none

/-- What a step does when it makes this call, as a function of the reply's result. -/
def Asks (m : Machine) (q : Request) : Prop :=
  ∃ k : Except Fault q.Answer → Except Fault Status × Machine, ∀ {τ : Type} [Device τ] (t : τ),
    m.step t =
      ⟨(k (q.serve t).result).1, (k (q.serve t).result).2.flag (q.serve t).raises,
        (q.serve t).terminal⟩

def Silent (m : Machine) : Prop :=
  ∃ r n, ∀ {τ : Type} [Device τ] (t : τ), m.step t = ⟨r, n, t⟩

variable {m : Machine} {op : Opcode} {a : Nat}

theorem at_of_request? {q : Request} (h : m.request? = some q) :
    m.status = .active ∧ m.interrupt = false ∧
      ((q = .read ∧ ∃ a, m.At .read a) ∨
        ∃ (a : Nat) (_ : a < 100), q = .write m.memory[a].toInt ∧ m.At .write a) := by
  unfold request? at h
  split at h
  · next hactive =>
    refine ⟨hactive.1, hactive.2, ?_⟩
    split at h
    · next a hf =>
      cases h
      exact .inl ⟨rfl, a, fetch_eq_ok_iff.mp hf⟩
    · next a hf =>
      have hat := fetch_eq_ok_iff.mp hf
      rw [Memory.read_of_lt _ hat.operand_lt] at h
      cases h
      exact .inr ⟨a, hat.operand_lt, rfl, hat⟩
    · cases h
  · cases h

theorem request?_of_read (hs : m.status = .active) (hi : m.interrupt = false) (hat : m.At .read a) :
    m.request? = some .read := by
  obtain ⟨⟨op, a⟩, hf, rfl, rfl⟩ := exists_fetch hat
  simp [request?, hs, hi, hf]

theorem request?_of_write (hs : m.status = .active) (hi : m.interrupt = false) (ha : a < 100)
    (hat : m.At .write a) : m.request? = some (.write m.memory[a].toInt) := by
  obtain ⟨⟨op, a⟩, hf, rfl, rfl⟩ := exists_fetch hat
  simp [request?, hs, hi, hf, Memory.read_of_lt _ ha, Except.toOption]

section Perform

variable (hs : m.status = .active) (hi : m.interrupt = false) (hat : m.At op a)
include hs hi hat

theorem silent_of_result (ha : a < 100) {v : Int}
    (hv : op.result? m.accumulator.toInt m.memory[a].toInt = some v) : m.Silent := by
  by_cases hrange : Word.InRange v
  · refine ⟨.ok m.status, (m.assign (Int32.ofInt v)).advance, fun t => ?_⟩
    rw [step_of_at hs hi hat, Action.run_perform_of_result ha hv, if_pos hrange]
    rfl
  · refine ⟨.error (.unfit v), m.become .faulted, fun t => ?_⟩
    rw [step_of_at hs hi hat, Action.run_perform_of_result ha hv, if_neg hrange]
    rfl

theorem silent_of_taken {b : Bool} (hb : op.taken? m.accumulator.toInt = some b) : m.Silent := by
  refine ⟨.ok m.status, if b then m.jump a else m.advance, fun t => ?_⟩
  rw [step_of_at hs hi hat, Action.run_perform_of_taken hb]
  cases b <;> rfl

end Perform

theorem silent_store (hs : m.status = .active) (hi : m.interrupt = false) (hat : m.At .store a) :
    m.Silent := by
  have ha := hat.operand_lt
  by_cases hrange : Word.InRange m.accumulator.toInt
  · refine ⟨.ok m.status, (m.remember (m.memory.set a ha m.accumulator)).advance, fun t => ?_⟩
    rw [step_of_at hs hi hat, Action.perform, Action.run_store ha, if_pos hrange]
    rfl
  · refine ⟨.error (.unfit m.accumulator.toInt), m.become .faulted, fun t => ?_⟩
    rw [step_of_at hs hi hat, Action.perform, Action.run_store ha, if_neg hrange]
    rfl

theorem silent_divide (hs : m.status = .active) (hi : m.interrupt = false) (hat : m.At .divide a) :
    m.Silent := by
  have ha := hat.operand_lt
  by_cases hz : m.memory[a].toInt = 0
  · refine ⟨.error (.zeroDivisor a), m.become .faulted, fun t => ?_⟩
    rw [step_of_at hs hi hat, Action.perform, Action.run_divide ha, if_pos hz]
    rfl
  · exact silent_of_result hs hi hat ha (if_neg hz)

theorem silent_of_at (hs : m.status = .active) (hi : m.interrupt = false) (hat : m.At op a)
    (hr : op ≠ .read) (hw : op ≠ .write) : m.Silent := by
  cases op with
  | read => exact absurd rfl hr
  | write => exact absurd rfl hw
  | load => exact silent_of_result hs hi hat hat.operand_lt rfl
  | store => exact silent_store hs hi hat
  | add => exact silent_of_result hs hi hat hat.operand_lt rfl
  | subtract => exact silent_of_result hs hi hat hat.operand_lt rfl
  | divide => exact silent_divide hs hi hat
  | multiply => exact silent_of_result hs hi hat hat.operand_lt rfl
  | branch => exact silent_of_taken hs hi hat rfl
  | branchNeg => exact silent_of_taken hs hi hat rfl
  | branchZero => exact silent_of_taken hs hi hat rfl
  | halt => exact ⟨.ok .halted, m.become .halted, fun t => by rw [step_of_at hs hi hat]; rfl⟩

theorem asks_read (hs : m.status = .active) (hi : m.interrupt = false) (hat : m.At .read a) :
    m.Asks .read := by
  refine ⟨fun
    | .ok v =>
      if Word.InRange v then
        (.ok m.status, (m.remember (m.memory.set a hat.operand_lt (Int32.ofInt v))).advance)
      else (.error (.unfit v), m.become .faulted)
    | .error f => (.error f, m.become .faulted), fun t => ?_⟩
  rw [step_of_at hs hi hat, Action.perform, Action.run_input hat.operand_lt, Request.serve]
  simp only [hi, Bool.false_or]
  cases (Device.read t).result with
  | error f => rfl
  | ok v => by_cases hrange : Word.InRange v <;> simp only [hrange, if_true, if_false] <;> rfl

theorem asks_write (hs : m.status = .active) (hi : m.interrupt = false) (hat : m.At .write a)
    (ha : a < 100) : m.Asks (.write m.memory[a].toInt) := by
  refine ⟨fun
    | .ok () => (.ok m.status, m.advance)
    | .error f => (.error f, m.become .faulted), fun t => ?_⟩
  rw [step_of_at hs hi hat, Action.perform, Action.run_output ha, Request.serve]
  simp only [hi, Bool.false_or]
  cases (Device.write m.memory[a].toInt t).result <;> rfl

theorem silent_of_request? (h : m.request? = none) : m.Silent := by
  by_cases hs : m.status = .active
  · cases hi : m.interrupt with
    | true => exact ⟨.error .interrupted, m.become .faulted, fun t => step_of_raised hs hi⟩
    | false =>
      cases hf : m.fetch with
      | error f => exact ⟨.error f, m.become .faulted, fun t => step_of_fetch_error hs hi hf⟩
      | ok i =>
        obtain ⟨op, a⟩ := i
        have hat := fetch_eq_ok_iff.mp hf
        refine silent_of_at hs hi hat ?_ ?_
        · rintro rfl
          cases (request?_of_read hs hi hat).symm.trans h
        · rintro rfl
          cases (request?_of_write hs hi hat.operand_lt hat).symm.trans h
  · exact ⟨.error .notActive, m, fun t => step_of_not_active hs⟩

theorem asks_of_request? {q : Request} (h : m.request? = some q) : m.Asks q := by
  obtain ⟨hs, hi, ⟨rfl, a, hat⟩ | ⟨a, ha, rfl, hat⟩⟩ := at_of_request? h
  · exact asks_read hs hi hat
  · exact asks_write hs hi hat ha

theorem result_of_serve_error {τ : Type} [Device τ] {t : τ} {q : Request} {f : Fault}
    (h : m.request? = some q) (hf : (q.serve t).result = .error f) :
    (m.step t).result = .error f := by
  obtain ⟨hs, hi, ⟨rfl, a, hat⟩ | ⟨a, ha, rfl, hat⟩⟩ := at_of_request? h
  · rw [Request.serve] at hf
    rw [step_of_at hs hi hat, Action.perform, Action.run_input hat.operand_lt]
    simp only [hf]
    rfl
  · rw [Request.serve] at hf
    rw [step_of_at hs hi hat, Action.perform, Action.run_output ha]
    simp only [hf]
    rfl

theorem exists_request_of_terminal {τ : Type} [Device τ] {t : τ} {cause : Terminal.Failure}
    (h : (m.step t).result = .error (.terminal cause)) :
    ∃ q, m.request? = some q ∧ (q.serve t).result = .error (.terminal cause) := by
  have hstep := steps_step m t
  generalize m.step t = turn at hstep h
  cases hstep with
  | unfetched _ _ hf =>
    cases h
    obtain ⟨_, hf⟩ | ⟨_, _, hf⟩ := fetch_eq_error_iff.mp hf <;> cases hf
  | failed hs hi hat hf =>
    cases h
    cases hf with
    | read hd => exact ⟨_, request?_of_read hs hi hat, hd⟩
    | write ha hd => exact ⟨_, request?_of_write hs hi ha hat, hd⟩
  | _ => cases h

section Simulation

variable {σ τ : Type} [Device σ] [Device τ] {R : σ → τ → Prop}

/-- Devices that give the same replies, and go on to. -/
def Simulation (R : σ → τ → Prop) : Prop :=
  ∀ (q : Request) (s : σ) (t : τ), R s t → (q.serve s).result = (q.serve t).result ∧
    (q.serve s).raises = (q.serve t).raises ∧ R (q.serve s).terminal (q.serve t).terminal

structure Turn.Matches (R : σ → τ → Prop) (x : Turn σ) (y : Turn τ) : Prop where
  result : x.result = y.result
  machine : x.machine = y.machine
  terminal : R x.terminal y.terminal

theorem Simulation.step (hR : Simulation R) {s : σ} {t : τ} (h : R s t) (m : Machine) :
    (m.step s).Matches R (m.step t) := by
  cases hq : m.request? with
  | none =>
    obtain ⟨r, n, hstep⟩ := silent_of_request? hq
    rw [hstep, hstep]
    exact ⟨rfl, rfl, h⟩
  | some q =>
    obtain ⟨k, hstep⟩ := asks_of_request? hq
    obtain ⟨hresult, hraises, hterminal⟩ := hR q s t h
    rw [hstep, hstep, hresult, hraises]
    exact ⟨rfl, rfl, hterminal⟩

theorem Simulation.resume (hR : Simulation R) {s : σ} {t : τ} (h : R s t) (m : Machine)
    (limit : Nat) : Option.Rel (Turn.Matches R) (m.resume limit s) (m.resume limit t) := by
  induction limit generalizing m s t with
  | zero => exact .none
  | succ limit ih =>
    have hstep := hR.step h m
    simp only [Machine.resume, hstep.result, hstep.machine]
    split
    · exact ih hstep.terminal _
    · exact .some hstep

theorem Simulation.after (hR : Simulation R) {s : σ} {t : τ} (h : R s t) (m : Machine) (n : Nat) :
    (m.after s n).1 = (m.after t n).1 ∧ R (m.after s n).2 (m.after t n).2 := by
  induction n with
  | zero => exact ⟨rfl, h⟩
  | succ n ih =>
    have hstep := hR.step ih.2 (m.after t n).1
    rw [after_succ, after_succ, call, call, ih.1]
    exact ⟨hstep.machine, hstep.terminal⟩

theorem Simulation.call (hR : Simulation R) {s : σ} {t : τ} (h : R s t) (m : Machine) (n : Nat) :
    (m.call s n).Matches R (m.call t n) := by
  obtain ⟨hm, ht⟩ := hR.after h m n
  rw [Machine.call, Machine.call, hm]
  exact hR.step ht _

theorem Simulation.stopsAt_iff (hR : Simulation R) {s : σ} {t : τ} (h : R s t) {m : Machine}
    {n : Nat} : m.StopsAt s n ↔ m.StopsAt t n := by
  have hresult : ∀ k, (m.call s k).result = (m.call t k).result := fun k => (hR.call h m k).result
  constructor
  · rintro ⟨hlast, hbefore⟩
    exact ⟨hresult n ▸ hlast, fun k hk => hresult k ▸ hbefore k hk⟩
  · rintro ⟨hlast, hbefore⟩
    exact ⟨(hresult n).symm ▸ hlast, fun k hk => (hresult k).symm ▸ hbefore k hk⟩

end Simulation

end Machine

/-- A device that keeps a record of the calls made to it, each with the device as it was then. -/
structure Journal (τ : Type) : Type where
  terminal : τ
  entries : List (Request × τ) := []

namespace Journal

variable {τ : Type}

def note {ε α : Type} (y : Journal τ) (q : Request) (reply : Reply ε τ α) :
    Reply ε (Journal τ) α :=
  { result := reply.result
    terminal := ⟨reply.terminal, y.entries ++ [(q, y.terminal)]⟩
    raises := reply.raises }

variable [Device τ]

instance : Device (Journal τ) where
  read y := y.note .read (Device.read y.terminal)
  write v y := y.note (.write v) (Device.write v y.terminal)

theorem serve_eq (q : Request) (y : Journal τ) : q.serve y = y.note q (q.serve y.terminal) := by
  cases q <;> rfl

theorem simulation : Machine.Simulation fun (y : Journal τ) (t : τ) => y.terminal = t := by
  rintro q y t rfl
  rw [serve_eq]
  exact ⟨rfl, rfl, rfl⟩

end Journal

namespace Machine

def requests (m : Machine) : Nat := m.request?.toList.length

variable {τ : Type} [Device τ] {m : Machine} {t : τ}

def calls (m : Machine) (t : τ) (k : Nat) : Nat := (m.after (Journal.mk t []) k).2.entries.length

theorem step_journal (m : Machine) (y : Journal τ) :
    m.step y = ⟨(m.step y.terminal).result, (m.step y.terminal).machine,
      ⟨(m.step y.terminal).terminal, y.entries ++ m.request?.toList.map (·, y.terminal)⟩⟩ := by
  cases hq : m.request? with
  | none =>
    obtain ⟨r, n, hstep⟩ := silent_of_request? hq
    rw [hstep, hstep]
    simp
  | some q =>
    obtain ⟨k, hstep⟩ := asks_of_request? hq
    rw [hstep, hstep, Journal.serve_eq]
    rfl

theorem requests_le_one (m : Machine) : m.requests ≤ 1 := by
  unfold requests
  cases m.request? <;> simp

theorem requests_of_raised (h : m.interrupt = true) : m.requests = 0 := by
  simp [requests, request?, h]

theorem active_of_requests (h : 0 < m.requests) : m.status = .active := by
  by_contra hs
  simp [requests, request?, hs] at h

theorem status_of_completes {op : Opcode} {a : Nat} {n : Machine} {u : τ}
    (hc : Completes m t op a n u) (hop : op ≠ .halt) : n.status = m.status := by
  cases hc with
  | halt => exact absurd rfl hop
  | _ => rfl

theorem not_at_halt_of_requests {a : Nat} (h : 0 < m.requests) : ¬ m.At .halt a := by
  intro hat
  obtain ⟨⟨op, a⟩, hf, rfl, -⟩ := exists_fetch hat
  simp [requests, request?, hf] at h

theorem result_of_requests {s : Status} (h : 0 < m.requests) (hr : (m.step t).result = .ok s) :
    s = .active := by
  obtain ⟨op, a, hs, hat, hst, hc⟩ := exists_completes (steps_step m t) hr
  have hop : op ≠ .halt := by
    rintro rfl
    exact not_at_halt_of_requests h hat
  rw [← hst, status_of_completes hc hop, hs]

theorem calls_zero (m : Machine) (t : τ) : m.calls t 0 = 0 := rfl

theorem calls_succ (m : Machine) (t : τ) (k : Nat) :
    m.calls t (k + 1) = m.calls t k + (m.after t k).1.requests := by
  obtain ⟨hm, -⟩ := Journal.simulation.after (s := ⟨t, []⟩) rfl m k
  rw [calls, after_succ, call, step_journal, List.length_append, List.length_map, ← hm, calls,
    requests]

theorem calls_mono (m : Machine) (t : τ) : Monotone (m.calls t) :=
  monotone_nat_of_le_succ fun k => by
    rw [calls_succ]
    exact Nat.le_add_right _ _

theorem calls_of_not_active {k i : Nat} (h : (m.after t k).1.status ≠ .active) (hle : k ≤ i) :
    m.calls t i = m.calls t k := by
  induction hle with
  | refl => rfl
  | @step i hle ih =>
    have hnone : ¬ 0 < (m.after t i).1.requests := fun hpos => by
      rw [after_of_not_active h hle] at hpos
      exact h (active_of_requests hpos)
    rw [calls_succ, ih]
    omega

end Machine

end Simpletron
