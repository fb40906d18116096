import Simpletron.Proofs.LifeCycle

namespace Simpletron.Machine

variable {τ : Type} [Device τ] {m n : Machine} {t u : τ} {ms : Nat → Machine} {op : Opcode}
  {a limit : Nat}

/-- The next step is a branch that is taken, to where it stands or to a location before. -/
def JumpsBack (m : Machine) : Prop :=
  m.status = .active ∧ m.interrupt = false ∧
    ∃ op a, m.At op a ∧ op.taken? m.accumulator.toInt = some true ∧ a ≤ m.ip

/-- Steps one after another that all leave the machine active, each at any terminal. Its flag may be
touched between two of them. -/
def StaysActive (ms : Nat → Machine) (n : Nat) : Prop :=
  ∀ k < n, ∃ (τ : Type) (_ : Device τ) (t : τ) (up : Bool),
    ((ms k).step t).result = .ok .active ∧ ms (k + 1) = ((ms k).step t).machine.flag up

section Step

theorem ip_of_completes (h : Completes m t op a n u) :
    n.ip = m.ip + 1 ∨ (op.taken? m.accumulator.toInt = some true ∧ n.ip = a) ∨
      n.status = .halted := by
  cases h with
  | read _ _ _ => exact .inl rfl
  | write _ _ => exact .inl rfl
  | store _ _ => exact .inl rfl
  | compute _ _ _ => exact .inl rfl
  | jump hb => exact .inr (.inl ⟨hb, rfl⟩)
  | pass _ => exact .inl rfl
  | halt => exact .inr (.inr rfl)

theorem ip_step_of_active (h : (m.step t).result = .ok .active) (hback : ¬ m.JumpsBack) :
    m.ip < 100 ∧ m.ip < (m.step t).machine.ip := by
  have hstep := steps_step m t
  generalize m.step t = turn at hstep h
  cases hstep with
  | @completed op a n u hs hi hat hc =>
    refine ⟨hat.ip_lt, ?_⟩
    obtain hip | ⟨hb, hip⟩ | hhalt := ip_of_completes hc
    · simp only [hip]
      exact Nat.lt_succ_self m.ip
    · simp only [hip]
      by_contra hle
      exact hback ⟨hs, hi, op, a, hat, hb, Nat.le_of_not_lt hle⟩
    · rw [hhalt] at h
      cases h
  | _ => cases h

end Step

section Steps

theorem StaysActive.ip_add_le {k : Nat} (h : StaysActive ms k)
    (hback : ∀ i < k, ¬ (ms i).JumpsBack) : (ms 0).ip + k ≤ (ms k).ip := by
  induction k with
  | zero => exact Nat.le_refl _
  | succ k ih =>
    obtain ⟨_, _, t, up, hr, hnext⟩ := h k (Nat.lt_succ_self k)
    have hlt := (ip_step_of_active hr (hback k (Nat.lt_succ_self k))).2
    have hle := ih (fun i hi => h i (Nat.lt_succ_of_lt hi)) fun i hi => hback i (Nat.lt_succ_of_lt hi)
    have hip : (ms (k + 1)).ip = ((ms k).step t).machine.ip := by
      rw [hnext]
      rfl
    omega

theorem StaysActive.ip_add_lt {k : Nat} (h : StaysActive ms (k + 1))
    (hback : ∀ i < k + 1, ¬ (ms i).JumpsBack) : (ms 0).ip + k < 100 := by
  obtain ⟨_, _, t, up, hr, hnext⟩ := h k (Nat.lt_succ_self k)
  have hlt := (ip_step_of_active hr (hback k (Nat.lt_succ_self k))).1
  have hle := ip_add_le (fun i hi => h i (Nat.lt_succ_of_lt hi)) fun i hi =>
    hback i (Nat.lt_succ_of_lt hi)
  omega

theorem StaysActive.jumpsBack (h : StaysActive ms 101) : ∃ k < 101, (ms k).JumpsBack := by
  by_contra hno
  have hlt := h.ip_add_lt fun i hi hback => hno ⟨i, hi, hback⟩
  omega

theorem staysActive_of_calls {j k : Nat} (h : ∀ i < k, (m.call t (j + i)).result = .ok .active) :
    StaysActive (fun i => (m.after t (j + i)).1) k :=
  fun i hi => ⟨τ, _, (m.after t (j + i)).2, _, h i hi, rfl⟩

theorem exists_jumpsBack {j : Nat} (h : ∀ i < 101, (m.call t (j + i)).result = .ok .active) :
    ∃ k < 101, (m.after t (j + k)).1.JumpsBack :=
  (staysActive_of_calls h).jumpsBack

theorem exists_stopsAt (h : ∀ k < 101, ¬ (m.after t k).1.JumpsBack) : ∃ k < 101, m.StopsAt t k := by
  cases hr : m.resume 101 t with
  | none =>
    rw [resume_eq_none_iff] at hr
    obtain ⟨k, hk, hback⟩ := exists_jumpsBack (j := 0) fun i hi => by
      rw [Nat.zero_add]
      exact hr i hi
    rw [Nat.zero_add] at hback
    exact absurd hback (h k hk)
  | some turn =>
    obtain ⟨k, hk, hstops, _⟩ := resume_eq_some_iff.mp hr
    exact ⟨k, hk, hstops⟩

end Steps

/-- Of a machine that takes no jump back all steps are numbered below 101, whether it is stepped or
run. -/
structure GetsOn (m : Machine) (t : τ) : Prop where
  window : ∀ j, (∀ i < 101, (m.call t (j + i)).result = .ok .active) →
    ∃ k < 101, (m.after t (j + k)).1.JumpsBack
  stops : m.status = .active → (∀ k < 101, ¬ (m.after t k).1.JumpsBack) →
    ∃ k < 101, m.StopsAt t k ∧
      ((m.call t k).machine.status = .halted ∨ (m.call t k).machine.status = .faulted)
  run : (∀ k < 101, ¬ (m.restart.after t k).1.JumpsBack) →
    ∃ turn, m.run 101 t = some turn ∧
      (turn.machine.status = .halted ∨ turn.machine.status = .faulted)
  endless : (∀ limit, m.run limit t = none) → ∀ j, ∃ k ≥ j, (m.restart.after t k).1.JumpsBack

theorem StopsAt.stopped {k : Nat} (h : m.StopsAt t k) (hm : m.status = .active) :
    (m.call t k).machine.status = .halted ∨ (m.call t k).machine.status = .faulted :=
  (h.halted_or_faulted hm).imp And.right fun ⟨_, _, hs⟩ => hs

theorem endless_by_jumping_back :
    (∀ ms : Nat → Machine, StaysActive ms 101 → ∃ k < 101, (ms k).JumpsBack) ∧
      ∀ {τ : Type} [Device τ] (m : Machine) (t : τ), m.GetsOn t := by
  refine ⟨fun ms h => h.jumpsBack, fun m t => ⟨fun j h => exists_jumpsBack h, ?_, ?_, ?_⟩⟩
  · intro hm h
    obtain ⟨k, hk, hstops⟩ := exists_stopsAt h
    exact ⟨k, hk, hstops, hstops.stopped hm⟩
  · intro h
    obtain ⟨k, hk, hstops⟩ := exists_stopsAt h
    exact ⟨_, resume_eq_some_iff.mpr ⟨k, hk, hstops, rfl⟩, hstops.stopped rfl⟩
  · intro h j
    obtain ⟨k, _, hback⟩ := exists_jumpsBack (m := m.restart) (t := t) (j := j) fun i _ =>
      resume_eq_none_iff.mp (h (j + i + 1)) (j + i) (Nat.lt_succ_self _)
    exact ⟨j + k, Nat.le_add_right j k, hback⟩

theorem endless_by_jumping_back_passes :
    let m := boot ⟨.replicate 100 4100⟩
    let script : Script := { inputs := [] }
    (∀ k < 101, ¬ (m.after script k).1.JumpsBack) ∧
      (∀ k < 100, (m.call script k).result = .ok .active) ∧
      ∃ turn, m.run 101 script = some turn ∧
        (turn.machine.status = .halted ∨ turn.machine.status = .faulted) := by
  intro m script
  have hcell : ∀ (k : Nat) (hk : k < 100), (m.jump k).memory[k] = 4100 :=
    fun k hk => Vector.getElem_replicate hk
  have hat : ∀ k < 100, (m.jump k).At .branchNeg 0 := fun k hk =>
    ⟨hk, by decide, congrArg Int32.toInt (hcell k hk)⟩
  have hpass : Opcode.branchNeg.taken? (0 : Word).toInt = some false := by decide
  have hstep : ∀ k < 100, (m.jump k).step script = ⟨.ok .active, m.jump (k + 1), script⟩ := by
    intro k hk
    rw [step_of_at rfl rfl (hat k hk), Action.run_perform_of_taken hpass]
    rfl
  have hafter : ∀ k ≤ 100, m.after script k = (m.jump k, script) := by
    intro k hk
    induction k with
    | zero => rfl
    | succ k ih => rw [after_succ, call, ih (Nat.le_of_lt hk), hstep k hk]
  have hno : ∀ k < 101, ¬ (m.after script k).1.JumpsBack := by
    rintro k hk ⟨_, _, op, a, hop, hb, _⟩
    rw [hafter k (Nat.le_of_lt_succ hk)] at hop hb
    obtain ⟨rfl, rfl⟩ := hop.unique (hat k hop.ip_lt)
    cases hpass.symm.trans hb
  refine ⟨hno, fun k hk => ?_, (endless_by_jumping_back.2 m script).run hno⟩
  rw [call, hafter k (Nat.le_of_lt hk), hstep k hk]

end Simpletron.Machine
