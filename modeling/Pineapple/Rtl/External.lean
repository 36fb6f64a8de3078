import Pineapple.Rtl.Top
import Pineapple.Spi.Transaction

/-!
# External accesses of the chip

The addresses `mem.v` serves over SPI, the transaction each of them asks for, and the clock cycles an
instruction waits for it.
-/

namespace Pineapple

namespace MemRegs

variable (m : MemRegs)

/-- `addr` is in the PSRAM window. -/
def InPsram (addr : BitVec 8) : Prop := 0xE0 ≤ addr.toNat ∧ addr.toNat ≤ 0xEF

/-- `addr` is in the load window while `FLASH_MODE` is set. -/
def InFlash (addr : BitVec 8) : Prop :=
  m.flash_mode = true ∧ 0xB4 ≤ addr.toNat ∧ addr.toNat ≤ 0xDF

def External (addr : BitVec 8) : Prop := InPsram addr ∨ m.InFlash addr

instance (addr : BitVec 8) : Decidable (InPsram addr) := inferInstanceAs (Decidable (_ ∧ _))

instance (addr : BitVec 8) : Decidable (m.InFlash addr) := inferInstanceAs (Decidable (_ ∧ _))

instance (addr : BitVec 8) : Decidable (m.External addr) := inferInstanceAs (Decidable (_ ∨ _))

/-- The registers after a clock edge with the bus `b`. -/
def afterBus (b : Bus) : MemRegs := if b.we then m.write b.addr b.wdata b.size else m

/-- Clock cycles for which the access of size code `size` at `addr` keeps `mem_ready` low. -/
def stall (addr : BitVec 8) (size : BitVec 2) : Nat :=
  if m.External addr then 2 * (32 + 8 * nbytes size) + 2 else 0

/-- The SPI request `r` is the one the access `b` asks for: same bytes and size, the device and the
address of the window, and a write only to the PSRAM. -/
structure Asks (b : Bus) (r : Req) : Prop where
  valid : r.valid = true
  size : r.size = b.size
  wdata : r.wdata = b.wdata
  psram : 0xE0 ≤ b.addr.toNat → r.dev = 2 ∧ r.addr.toNat = b.addr.toNat - 0xE0 ∧ r.we = b.we
  flash : b.addr.toNat < 0xE0 →
    r.dev = 1 ∧ r.addr.toNat = m.flash_page.toNat * 44 + (b.addr.toNat - 0xB4) ∧ r.we = false

end MemRegs

namespace Top

/-- `s` runs on the given ROM and input pins. -/
def Run (rom : Rom) (inp : Nat → Inputs) (s : Nat → Top) : Prop :=
  ∀ t, s (t + 1) = (s t).step rom (inp t)

/-- The engine. -/
def eng (s : Top) : Qspi := s.mem.u_qspi

/-- What the engine's request inputs carry. -/
def req (s : Top) : Req := s.mem.req s.bus

/-- In cycle `t` the core raises `mem_valid` for an external address. -/
def RaisesExternal (s : Nat → Top) (t : Nat) : Prop :=
  (s t).core.mem_valid = true ∧ (∀ u, t = u + 1 → (s u).core.mem_valid = false) ∧
    (s t).mem.External (s t).core.mem_addr

/-- Wait states of the fetch from `s`. -/
def fetchStall (s : Top) : Nat := if s.mem.External s.core.pc then 130 else 0

/-- Wait states of the data access of the instruction word `w` from `s`. -/
def dataStall (s : Top) (w : BitVec 32) : Nat :=
  if Ir.opcode w = OP_LOAD ∨ Ir.opcode w = OP_STORE then
    s.mem.stall ((Ir.alu_y w s.core.regs).extractLsb' 0 8) (Ir.access_size w)
  else 0

/-- The next `ST_FETCH` after the one in cycle `t` is `n` cycles later. -/
structure NextFetch (s : Nat → Top) (t n : Nat) : Prop where
  fetch : (s (t + n)).core.state = .fetch
  not_fetch : ∀ j, t < j → j < t + n → (s j).core.state ≠ .fetch

end Top

end Pineapple
