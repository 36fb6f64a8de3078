import Pineapple.Rtl.Core
import Pineapple.Rtl.Qspi

/-!
# `mem.v`: address decode, on-chip ROM and RAM, memory-mapped registers

`MemRegs` holds the registers of the module itself and `Mem` adds the `u_qspi` instance. The boot
ROM is a parameter `rom` of the definitions that read it (`rom_word_at`), so that what holds for
every program is stated for every ROM; `bootRom` is the table the module includes.
-/

namespace Pineapple

def ROM_BYTES : BitVec 8 := 176
def RAM_BASE : BitVec 8 := 0xB0
def RAM_BYTES : BitVec 8 := 48
def LOAD_BASE : BitVec 8 := 0xB4
def EXT_PSRAM_BASE : BitVec 8 := 0xE0
def EXT_PSRAM_BYTES : BitVec 8 := 16
/-- `RAM_BYTES / 4`. -/
def NWORDS : BitVec 4 := 12
/-- `(RAM_BASE + RAM_BYTES) - LOAD_BASE`. -/
def WINDOW_BYTES : BitVec 8 := (RAM_BASE + RAM_BYTES) - LOAD_BASE

/-- The function `rom_word_at`. -/
abbrev Rom := BitVec 6 → BitVec 32

/-- The registers of `mem.v`. `ram_words` is indexed by 4 bits; the array has only the entries below
`NWORDS`. A read of one of the others has no specified value, so they hold arbitrary words which no
write reaches. -/
structure MemRegs where
  ram_words : BitVec 4 → BitVec 32
  flash_mode : Bool
  flash_page : BitVec 8
  gpio_out : BitVec 8

/-- `mem.v` with its `qspi_shared_engine`. -/
structure Mem extends MemRegs where
  u_qspi : Qspi

/-! ## Address decode -/

section Decode

variable (addr : BitVec 8)

def in_rom : Bool := addr.ult ROM_BYTES
def in_ram_range : Bool := RAM_BASE.ule addr && addr.ult (RAM_BASE + RAM_BYTES)
def in_load_range : Bool := LOAD_BASE.ule addr && addr.ult (RAM_BASE + RAM_BYTES)
def in_ext_psram : Bool := EXT_PSRAM_BASE.ule addr && addr.ult (EXT_PSRAM_BASE + EXT_PSRAM_BYTES)

def ram_addr : BitVec 6 := (addr - RAM_BASE).extractLsb' 0 6
def ram_widx0 : BitVec 4 := (ram_addr addr).extractLsb' 2 4
def ram_widx1 : BitVec 4 := (ram_addr addr).extractLsb' 2 4 + 1
def ram_byte_off : BitVec 2 := (ram_addr addr).extractLsb' 0 2

/-- The 32 bits of the pair `{w1, w0}` that start at byte `off` of `w0`. -/
def pair_word (w1 w0 : BitVec 32) (off : BitVec 2) : BitVec 32 :=
  (w1 ++ w0).extractLsb' (off.toNat * 8) 32

def rom_word (rom : Rom) : BitVec 32 :=
  pair_word (rom (addr.extractLsb' 2 6 + 1)) (rom (addr.extractLsb' 2 6)) (addr.extractLsb' 0 2)

end Decode

namespace MemRegs

variable (m : MemRegs) (addr : BitVec 8)

def in_ext_flash : Bool := m.flash_mode && in_load_range addr
def in_ram : Bool := in_ram_range addr && !m.in_ext_flash addr
def in_ext : Bool := m.in_ext_flash addr || in_ext_psram addr

/-- 1 = flash (CS0), 2 = psram (CS1). -/
def req_dev : BitVec 2 := if m.in_ext_flash addr then 1 else 2

def flash_page_base : BitVec 24 := m.flash_page.setWidth 24 * WINDOW_BYTES.setWidth 24

def ext_addr : BitVec 24 :=
  if m.in_ext_flash addr then m.flash_page_base + (addr - LOAD_BASE).setWidth 24
  else (addr - EXT_PSRAM_BASE).setWidth 24

/-- The two RAM words an access at `addr` can touch. -/
def ram_word : BitVec 32 :=
  pair_word (m.ram_words (ram_widx1 addr)) (m.ram_words (ram_widx0 addr)) (ram_byte_off addr)

/-- The combinational read path; `ext_rdata` is the engine's `req_rdata`. -/
def rdata (rom : Rom) (gpio_in : BitVec 8) (ext_rdata : BitVec 32) : BitVec 32 :=
  if in_rom addr then rom_word addr rom
  else if m.in_ram addr then m.ram_word addr
  else if m.in_ext addr then ext_rdata
  else if addr = 0xF0 then m.gpio_out.setWidth 32
  else if addr = 0xF4 then gpio_in.setWidth 32
  else if addr = 0xFC then m.flash_page.setWidth 32
  else 0

/-- A write to one entry of `ram_words`; a write beyond the array has no effect. -/
def setWord (i : BitVec 4) (w : BitVec 32) : MemRegs :=
  if i.ult NWORDS then { m with ram_words := Function.update m.ram_words i w } else m

/-- `w` with its bits `[8 * off +: n]` replaced by `v`. -/
def putBits (w : BitVec 32) (off : BitVec 2) {n : Nat} (v : BitVec n) : BitVec 32 :=
  let mask := (BitVec.allOnes n).setWidth 32 <<< (off.toNat * 8)
  (w &&& ~~~mask) ||| (v.setWidth 32 <<< (off.toNat * 8))

/-- The RAM branch of the write path. -/
def writeRam (wdata : BitVec 32) (size : BitVec 2) : MemRegs :=
  let w0 := m.ram_words (ram_widx0 addr)
  let w1 := m.ram_words (ram_widx1 addr)
  let off := ram_byte_off addr
  match size with
  | 0 => m.setWord (ram_widx0 addr) (putBits w0 off (wdata.extractLsb' 0 8))
  | 1 =>
    if off = 3 then
      (m.setWord (ram_widx0 addr) (putBits w0 3 (wdata.extractLsb' 0 8))).setWord
        (ram_widx1 addr) (putBits w1 0 (wdata.extractLsb' 8 8))
    else m.setWord (ram_widx0 addr) (putBits w0 off (wdata.extractLsb' 0 16))
  | _ => m.setWord (ram_widx0 addr) wdata

/-- The synchronous write path for an access with `we` high. -/
def write (wdata : BitVec 32) (size : BitVec 2) : MemRegs :=
  if in_ram_range addr && !m.in_ext_flash addr then m.writeRam addr wdata size
  else if addr = 0xF0 then { m with gpio_out := wdata.extractLsb' 0 8 }
  else if addr = 0xF8 then { m with flash_mode := true }
  else if addr = 0xFC then { m with flash_page := wdata.extractLsb' 0 8 }
  else m

/-- The asynchronous reset branch; the RAM is not reset. -/
def reset : MemRegs := { m with gpio_out := 0, flash_mode := false, flash_page := 0 }

end MemRegs

namespace Mem

variable (m : Mem) (bus : Bus)

/-- The request `mem.v` presents to the engine. -/
def req : Req where
  valid := bus.valid && m.in_ext bus.addr
  we := bus.we && !m.in_ext_flash bus.addr
  dev := m.req_dev bus.addr
  addr := m.ext_addr bus.addr
  wdata := bus.wdata
  size := bus.size

def ready : Bool := if (m.req bus).valid then m.u_qspi.req_ready else true

def rdata (rom : Rom) (gpio_in : BitVec 8) : BitVec 32 :=
  m.toMemRegs.rdata bus.addr rom gpio_in m.u_qspi.req_rdata

def reset : Mem := { m.toMemRegs.reset with u_qspi := m.u_qspi.reset }

/-- One rising clock edge with `rst_n` high. -/
def step (miso : Bool) : Mem :=
  { (if bus.we then m.toMemRegs.write bus.addr bus.wdata bus.size else m.toMemRegs) with
    u_qspi := m.u_qspi.step (m.req bus) miso }

end Mem

end Pineapple
