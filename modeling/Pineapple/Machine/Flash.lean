import Pineapple.Bits.ByteMemory
import Pineapple.Machine.Env

/-!
# Programs in the flash

The chip on a board with `spi_ram_model` as the flash, and the environment of a program that is executed from
it: an instruction is the word that the flash holds behind the load window.
-/

namespace Pineapple

open Bits

namespace Board

/-- `b` runs on the given ROM and input pins; `other` is what the rest of the board drives on MISO. -/
def Run (rom : Rom) (ui_in : Nat → BitVec 8) (other : Nat → Bool) (b : Nat → Board) : Prop :=
  ∀ t, b (t + 1) = (b t).step rom (ui_in t) (other t)

/-- The chip of the board. -/
def tops (b : Nat → Board) : Nat → Top := fun t => (b t).top

/-- The input pins of the chip. -/
def inputs (ui_in : Nat → BitVec 8) (other : Nat → Bool) (b : Nat → Board) : Nat → Inputs :=
  fun t => ⟨ui_in t, (b t).miso_bus (other t)⟩

/-- The board between two instructions: no access on the bus, an idle engine and a deselected flash. -/
structure Ready (b : Board) : Prop where
  state : b.top.core.state = .fetch
  bus : b.top.core.mem_valid = false ∧ b.top.core.mem_we = false
  engine : b.top.eng.state = .idle ∧ b.top.eng.req_ready = false
  pins : b.top.eng.pin_cs0 = true ∧ b.top.eng.pin_cs1 = true ∧ b.top.eng.pin_sck = false
  flash : b.flash.phase = .cmd ∧ b.flash.bitcnt = 0 ∧ b.flash.addr_byte = 0

/-- Reset; the chip select of the flash goes high. -/
def reset (b : Board) : Board where
  top := b.top.reset
  flash := { b.flash.deselect with miso := false }

end Board

/-- The word of the flash that a fetch at `pc` reads through the load window. -/
def flashWord (flash : ByteMemory 14) (m : MemRegs) (pc : BitVec 8) : BitVec 32 :=
  ofLE 32 (flash.load (BitVec.ofNat 14 (m.flash_page.toNat * 44 + (pc.toNat - 0xB4))) 4)

/-- The environment of a program in the flash; loads are the chip's. -/
def Env.flash (flash : ByteMemory 14) (rom : Rom) (inp : Nat → Inputs) : Env where
  instr _ a := if a.mem.InFlash a.pc then Rv32i.decode (flashWord flash a.mem a.pc) else none
  load := (Env.chip rom inp).load

end Pineapple
