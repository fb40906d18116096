import Simpletron.Terminal

namespace Simpletron

structure Script : Type where
  inputs : List Int
  outputs : Array Int := #[]
  deriving DecidableEq

namespace Script

def read (s : Script) : Terminal.Reply Script Int :=
  match s.inputs with
  | [] => { result := .error .exhausted, terminal := s }
  | v :: rest => { result := .ok v, terminal := { s with inputs := rest } }

def write (v : Int) (s : Script) : Terminal.Reply Script Unit :=
  { result := .ok (), terminal := { s with outputs := s.outputs.push v } }

instance : Terminal Script where
  read := read
  write := write

end Script

end Simpletron
