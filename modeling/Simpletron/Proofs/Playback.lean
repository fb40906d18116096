import Simpletron.Machine
import Simpletron.Terminal.Script

namespace Simpletron.Script

variable {s : Script} {v : Int} {rest : List Int} {f : Fault}

theorem read_of_nil (h : s.inputs = []) :
    Device.read s = { result := .error (.terminal .exhausted), terminal := s } := by
  simp only [Device.read, Terminal.read, Script.read, h]
  rfl

theorem read_of_cons (h : s.inputs = v :: rest) :
    Device.read s = { result := .ok v, terminal := { s with inputs := rest } } := by
  simp only [Device.read, Terminal.read, Script.read, h]
  rfl

theorem exists_inputs_of_read (h : (Device.read s).result = .ok v) :
    ∃ rest, s.inputs = v :: rest ∧ (Device.read s).terminal = { s with inputs := rest } := by
  cases hs : s.inputs with
  | nil =>
    rw [read_of_nil hs] at h
    cases h
  | cons w rest =>
    rw [read_of_cons hs] at h ⊢
    cases h
    exact ⟨rest, rfl, rfl⟩

theorem exhausted_of_read (h : (Device.read s).result = .error f) :
    f = .terminal .exhausted ∧ (Device.read s).terminal = s := by
  cases hs : s.inputs with
  | nil =>
    rw [read_of_nil hs] at h ⊢
    cases h
    exact ⟨rfl, rfl⟩
  | cons w rest =>
    rw [read_of_cons hs] at h
    cases h

theorem write_eq (v : Int) (s : Script) :
    Device.write v s = { result := .ok (), terminal := { s with outputs := s.outputs.push v } } :=
  rfl

end Simpletron.Script
