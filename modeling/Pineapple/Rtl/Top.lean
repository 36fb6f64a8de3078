import Pineapple.Rtl.Core
import Pineapple.Rtl.Mem
import Pineapple.Rtl.SpiRam

/-!
# `tt_um_pineapple_one.v`: the chip, and the chip with its SPI memories

`Top` composes the core and the memory. `MemBoard` and `Board` are the wirings of the testbenches:
`spi_ram_model` slaves on CS0 and CS1 share SCK and MOSI, and MISO is taken from the selected one.
-/

namespace Pineapple

/-- The input pins of the chip in one clock cycle. -/
structure Inputs where
  ui_in : BitVec 8
  /-- `uio_in[2]`. -/
  miso : Bool

/-- `u_core` and `u_mem`. -/
structure Top where
  core : Core
  mem : Mem

namespace Top

variable (s : Top)

def bus : Bus := s.core.bus

def mem_ready : Bool := s.mem.ready s.bus

def mem_rdata (rom : Rom) (ui_in : BitVec 8) : BitVec 32 := s.mem.rdata s.bus rom ui_in

def uo_out : BitVec 8 := s.mem.gpio_out

def reset : Top := { core := s.core.reset, mem := s.mem.reset }

/-- One rising clock edge with `rst_n` high. -/
def step (rom : Rom) (inp : Inputs) : Top where
  core := s.core.step s.mem_ready (s.mem_rdata rom inp.ui_in)
  mem := s.mem.step s.bus inp.miso

end Top

/-! ## With SPI memories -/

/-- The pins of the slave on CS0. -/
def Qspi.pins0 (e : Qspi) : SpiPins := ⟨e.pin_cs0, e.pin_sck, e.pin_mosi⟩

/-- The pins of the slave on CS1. -/
def Qspi.pins1 (e : Qspi) : SpiPins := ⟨e.pin_cs1, e.pin_sck, e.pin_mosi⟩

/-- `mem.v` with a flash on CS0 and a PSRAM on CS1. -/
structure MemBoard where
  mem : Mem
  flash : SpiRam
  psram : SpiRam

namespace MemBoard

variable (x : MemBoard)

/-- `(!cs0) ? miso_flash : (!cs1) ? miso_psram : 1'b0`. -/
def miso_bus : Bool :=
  if !x.mem.u_qspi.pin_cs0 then x.flash.miso
  else if !x.mem.u_qspi.pin_cs1 then x.psram.miso
  else false

/-- One rising clock edge; the slaves see the pins change from their old to their new values. -/
def step (bus : Bus) : MemBoard :=
  let mem := x.mem.step bus x.miso_bus
  { mem := mem
    flash := x.flash.step x.mem.u_qspi.pins0 mem.u_qspi.pins0
    psram := x.psram.step x.mem.u_qspi.pins1 mem.u_qspi.pins1 }

/-- Reset; the chip selects go high, which clears the framing of both slaves. -/
def reset : MemBoard where
  mem := x.mem.reset
  flash := { x.flash.deselect with miso := false }
  psram := { x.psram.deselect with miso := false }

end MemBoard

/-- The chip with a flash on CS0. -/
structure Board where
  top : Top
  flash : SpiRam

namespace Board

variable (b : Board)

/-- MISO; `other` is what the rest of the board drives while CS0 is high. -/
def miso_bus (other : Bool) : Bool :=
  if !b.top.mem.u_qspi.pin_cs0 then b.flash.miso else other

/-- One rising clock edge. -/
def step (rom : Rom) (ui_in : BitVec 8) (other : Bool) : Board :=
  let top := b.top.step rom ⟨ui_in, b.miso_bus other⟩
  { top := top
    flash := b.flash.step b.top.mem.u_qspi.pins0 top.mem.u_qspi.pins0 }

end Board

end Pineapple
