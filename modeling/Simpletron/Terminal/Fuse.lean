import Simpletron.Terminal

/-! A terminal that raises the machine's interrupt flag right after a given number of calls, whether
they succeed or fail. -/

namespace Simpletron

structure Fuse (τ : Type) : Type where
  terminal : τ
  /-- The calls left until the flag goes up; at zero the fuse is spent. -/
  left : Nat := 0

namespace Fuse

variable {τ : Type}

def burn {ε α : Type} (f : Fuse τ) (reply : Reply ε τ α) : Reply ε (Fuse τ) α :=
  { result := reply.result
    terminal := ⟨reply.terminal, f.left - 1⟩
    raises := reply.raises || f.left == 1 }

instance [Terminal τ] : Terminal (Fuse τ) where
  read f := f.burn (Terminal.read f.terminal)
  write v f := f.burn (Terminal.write v f.terminal)

end Fuse

end Simpletron
