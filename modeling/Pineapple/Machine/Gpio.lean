import Pineapple.Machine.Flash

/-!
# Stores to GPIO_OUT

What a program sends over the output pins: the bytes that its instructions store in GPIO_OUT, and the stores that
are on the bus of the chip.
-/

namespace Pineapple

open Rv32i (Instr)

/-- The byte that an instruction stores in GPIO_OUT. -/
def Arch.gpioStore (a : Arch) (i : Instr) : List (BitVec 8) :=
  match a.access i with
  | some ⟨addr, _, some v⟩ => if addr.setWidth 8 = (0xF0 : BitVec 8) then [v.extractLsb' 0 8] else []
  | _ => []

/-- An observer of the stores of a program in the flash. -/
def gpioStores (flash : Bits.ByteMemory 14) (c : Nat × Arch) : List (BitVec 8) :=
  match Rv32i.decode (flashWord flash c.2.mem c.2.pc) with
  | some i => c.2.gpioStore i
  | none => []

/-- The bytes that are stored in GPIO_OUT in the cycles from `t` up to but not including `t'`. -/
def Top.gpioWrites (s : Nat → Top) (t t' : Nat) : List (BitVec 8) :=
  (List.range' t (t' - t)).filterMap fun τ =>
    if (s τ).core.mem_we = true ∧ (s τ).core.mem_addr = 0xF0 then
      some ((s τ).core.mem_wdata.extractLsb' 0 8)
    else none

end Pineapple
