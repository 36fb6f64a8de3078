import Pineapple.Clocked.Path
import Pineapple.Machine.Arch

/-!
# Programs and their surroundings

An `Env` is what a run of a program depends on besides the state: the instruction that is fetched and the
word that is loaded in each clock cycle. `chip` takes both from the ROM and the pins. A configuration is a
state and the cycle in which the chip is between two instructions in it.
-/

namespace Pineapple

open Rv32i (Instr Word)

structure Env where
  instr : Nat → Arch → Option Instr
  load : Nat → Arch → Instr → Word

namespace Env

/-- One instruction from a configuration. -/
def step (e : Env) (c : Nat × Arch) : Option (Nat × Arch) :=
  (e.instr c.1 c.2).map fun i => (c.1 + c.2.cycles i, c.2.exec i (e.load c.1 c.2 i))

/-- The chip with the given ROM and input pins. -/
def chip (rom : Rom) (inp : Nat → Inputs) : Env where
  instr t a := Rv32i.decode (Top.fetched rom inp t a)
  load t a i := Top.loaded rom inp t a i

end Env

namespace Top

/-- In cycle `t` the chip is between two instructions, in state `a`. -/
structure At (s : Nat → Top) (t : Nat) (a : Arch) : Prop where
  state : (s t).core.state = .fetch
  arch : (s t).arch = a

/-- What an observer of the fetches sees in the cycles from `t` up to but not including `t'`. -/
def emitted {O : Type} (s : Nat → Top) (out : Nat × Arch → List O) (t t' : Nat) : List O :=
  (List.range' t (t' - t)).flatMap fun τ =>
    if (s τ).core.state = .fetch then out (τ, (s τ).arch) else []

end Top

end Pineapple
