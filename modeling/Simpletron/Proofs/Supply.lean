import Simpletron.Proofs.Playback
import Simpletron.Proofs.Requests

namespace Simpletron

namespace Script

def extend (s : Script) (vs : List Int) : Script := { s with inputs := s.inputs ++ vs }

theorem serve_extend {s : Script} (q : Request)
    (h : (q.serve s).result ≠ .error (.terminal .exhausted)) (vs : List Int) :
    q.serve (s.extend vs) = { q.serve s with terminal := (q.serve s).terminal.extend vs } := by
  cases q with
  | read =>
    simp only [Request.serve] at h ⊢
    cases hs : s.inputs with
    | nil =>
      rw [read_of_nil hs] at h
      exact absurd rfl h
    | cons v rest =>
      rw [read_of_cons hs, read_of_cons (s := s.extend vs) (congrArg (· ++ vs) hs)]
      rfl
  | write v => rfl

end Script

namespace Machine

variable {m : Machine} {s : Script} {n : Nat}

section Step

theorem step_extend (h : (m.step s).result ≠ .error (.terminal .exhausted)) (vs : List Int) :
    m.step (s.extend vs) =
      ⟨(m.step s).result, (m.step s).machine, (m.step s).terminal.extend vs⟩ := by
  cases hq : m.request? with
  | none =>
    obtain ⟨r, n, hstep⟩ := silent_of_request? hq
    rw [hstep, hstep]
  | some q =>
    obtain ⟨k, hstep⟩ := asks_of_request? hq
    have hserve := Script.serve_extend q (fun hr => h (result_of_serve_error hq hr)) vs
    rw [hstep, hstep, hserve]

theorem at_read_of_exhausted (h : (m.step s).result = .error (.terminal .exhausted)) :
    m.status = .active ∧ m.interrupt = false ∧ s.inputs = [] ∧ ∃ a, m.At .read a := by
  obtain ⟨q, hq, hserve⟩ := exists_request_of_terminal h
  obtain ⟨hs, hi, ⟨rfl, hat⟩ | ⟨_, _, rfl, _⟩⟩ := at_of_request? hq
  · refine ⟨hs, hi, ?_, hat⟩
    cases hin : s.inputs with
    | nil => rfl
    | cons v rest =>
      rw [Request.serve, Script.read_of_cons hin] at hserve
      cases hserve
  · cases hserve

/-- The step of a `READ` into location `a` to which the terminal hands over `v`, and the script
that it leaves. -/
def receive (m : Machine) (a : Nat) (h : a < 100) (v : Int) (left : Script) : Turn Script :=
  if Word.InRange v then
    ⟨.ok .active, (m.remember (m.memory.set a h (Int32.ofInt v))).advance, left⟩
  else ⟨.error (.unfit v), m.become .faulted, left⟩

theorem step_eq_receive {a : Nat} {v : Int} {rest : List Int} (hs : m.status = .active)
    (hi : m.interrupt = false) (hat : m.At .read a) (hin : s.inputs = v :: rest) :
    m.step s = m.receive a hat.operand_lt v { s with inputs := rest } := by
  have hflag : m.flag m.interrupt = m := rfl
  rw [step_of_at hs hi hat, Action.perform, Action.run_input hat.operand_lt,
    Script.read_of_cons hin, receive]
  simp only [Bool.or_false, hflag]
  by_cases hv : Word.InRange v
  · rw [if_pos hv, if_pos hv, conclude]
    simp [advance, jump, remember, hs]
  · rw [if_neg hv, if_neg hv, conclude]

end Step

def Supplied (m : Machine) (s : Script) (n : Nat) : Prop :=
  ∀ k < n, (m.call s k).result ≠ .error (.terminal .exhausted)

theorem after_extend (h : m.Supplied s n) (vs : List Int) :
    m.after (s.extend vs) n = ((m.after s n).1, (m.after s n).2.extend vs) := by
  induction n with
  | zero => rfl
  | succ n ih =>
    have hn : (m.call s n).result ≠ .error (.terminal .exhausted) := h n (Nat.lt_succ_self n)
    have hbefore : m.Supplied s n := fun k hk => h k (Nat.lt_succ_of_lt hk)
    rw [after_succ, call, ih hbefore, step_extend hn]
    rfl

theorem Supplied.mono {k : Nat} (h : m.Supplied s n) (hle : k ≤ n) : m.Supplied s k :=
  fun i hi => h i (Nat.lt_of_lt_of_le hi hle)

structure Unaffected (m : Machine) (s : Script) (vs : List Int) (n : Nat) : Prop where
  results : ∀ k < n, (m.call (s.extend vs) k).result = (m.call s k).result
  machines : ∀ k ≤ n, (m.after (s.extend vs) k).1 = (m.after s k).1
  outputs : ∀ k ≤ n, (m.after (s.extend vs) k).2.outputs = (m.after s k).2.outputs
  inputs : ∀ k ≤ n, (m.after (s.extend vs) k).2.inputs = (m.after s k).2.inputs ++ vs

theorem Supplied.unaffected (h : m.Supplied s n) (vs : List Int) : m.Unaffected s vs n where
  results k hk := by rw [call, after_extend (h.mono hk.le), step_extend (h k hk), call]
  machines k hk := by rw [after_extend (h.mono hk)]
  outputs k hk := by
    rw [after_extend (h.mono hk)]
    rfl
  inputs k hk := by
    rw [after_extend (h.mono hk)]
    rfl

theorem Supplied.exists_receive (h : m.Supplied s n)
    (hout : (m.call s n).result = .error (.terminal .exhausted)) (v : Int) (rest : List Int) :
    ∃ (a : Nat) (ha : a < 100), (m.after s n).1.At .read a ∧
      m.call (s.extend (v :: rest)) n =
        (m.after s n).1.receive a ha v ⟨rest, (m.after s n).2.outputs⟩ := by
  obtain ⟨hs, hi, hin, a, hat⟩ := at_read_of_exhausted hout
  have hnext : ((m.after s n).2.extend (v :: rest)).inputs = v :: rest := by
    rw [Script.extend, hin, List.nil_append]
  refine ⟨a, hat.operand_lt, hat, ?_⟩
  rw [call, after_extend h, step_eq_receive hs hi hat hnext]
  rfl

theorem more_input (m : Machine) (xs ys : List Int) (outputs : Array Int) (n : Nat) :
    let few : Script := ⟨xs, outputs⟩
    let more : Script := ⟨xs ++ ys, outputs⟩
    (m.Supplied few n → m.Unaffected few ys n) ∧
      ∀ v rest, ys = v :: rest → m.Supplied few n →
        (m.call few n).result = .error (.terminal .exhausted) →
        ∃ (a : Nat) (ha : a < 100), (m.after few n).1.At .read a ∧
          m.call more n = (m.after few n).1.receive a ha v ⟨rest, (m.after few n).2.outputs⟩ := by
  intro few more
  refine ⟨fun h => h.unaffected ys, ?_⟩
  rintro v rest rfl h hout
  exact h.exists_receive hout v rest

theorem more_input_two_reads :
    let m := boot ((Memory.blank.set 0 (by decide) 1005).set 1 (by decide) 1006)
    let few : Script := { inputs := [7] }
    let more : Script := { inputs := [7, 8, 9] }
    m.Supplied few 1 ∧ m.Unaffected few [8, 9] 1 ∧
      (m.call few 1).result = .error (.terminal .exhausted) ∧
      ∃ (a : Nat) (ha : a < 100), (m.after few 1).1.At .read a ∧
        m.call more 1 = (m.after few 1).1.receive a ha 8 { inputs := [9] } := by
  intro m few more
  have hsupplied : m.Supplied few 1 := by
    intro k hk
    obtain rfl := Nat.lt_one_iff.mp hk
    decide
  have hout : (m.call few 1).result = .error (.terminal .exhausted) := by decide
  have hnone : (m.after few 1).2.outputs = #[] := by decide
  obtain ⟨hsame, hnext⟩ := more_input m [7] [8, 9] #[] 1
  rw [hnone] at hnext
  exact ⟨hsupplied, hsame hsupplied, hout, hnext 8 [9] rfl hsupplied hout⟩

end Machine

end Simpletron
