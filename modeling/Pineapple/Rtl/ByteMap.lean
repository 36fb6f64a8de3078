import Pineapple.Bits.ByteMemory
import Pineapple.Boot.Host
import Pineapple.Spi.Transaction

/-!
# The on-chip memory as an array of bytes

What the ROM, the RAM and the registers of `mem.v` are for a program: one byte at each address, an output
register and the two flash registers. Nothing here knows of words.
-/

namespace Pineapple

open Bits

/-- The on-chip memory map; `byte` is only used from 0x00 to 0xDF. -/
@[ext]
structure ByteMap where
  byte : ByteMemory 8
  gpio_out : BitVec 8
  flash_mode : Bool
  flash_page : BitVec 8

namespace ByteMap

variable (σ : ByteMap) (b : Bus)

/-- The effect of a store. -/
def store : ByteMap :=
  if 0xB0 ≤ b.addr.toNat ∧ b.addr.toNat ≤ 0xDF then
    { σ with byte := σ.byte.store b.addr (fun k => b.wdata.extractLsb' (8 * k) 8) (nbytes b.size) }
  else if b.addr = 0xF0 then { σ with gpio_out := b.wdata.extractLsb' 0 8 }
  else if b.addr = 0xF8 then { σ with flash_mode := true }
  else if b.addr = 0xFC then { σ with flash_page := b.wdata.extractLsb' 0 8 }
  else σ

/-- The effect of one clock edge with the bus `b`. -/
def after : ByteMap := if b.we then σ.store b else σ

end ByteMap

/-- The `n` bytes from `addr` on are all in the ROM or all in the RAM. -/
def InRegion (addr : BitVec 8) (n : Nat) : Prop :=
  addr.toNat + n ≤ 0xB0 ∨ (0xB0 ≤ addr.toNat ∧ addr.toNat + n ≤ 0xE0)

/-- A store to the RAM does not leave it, and a word store is aligned. -/
def Bus.StoreOk (b : Bus) : Prop :=
  0xB0 ≤ b.addr.toNat → b.addr.toNat ≤ 0xDF →
    b.addr.toNat + nbytes b.size ≤ 0xE0 ∧ (nbytes b.size = 4 → b.addr.toNat % 4 = 0)

/-- The byte of the ROM at an address. -/
def romByte (rom : Rom) (addr : Nat) : BitVec 8 :=
  (rom (BitVec.ofNat 6 (addr / 4))).extractLsb' (8 * (addr % 4)) 8

/-- The bytes that the words of `mem.v` hold. -/
def MemRegs.byteMap (m : MemRegs) (rom : Rom) : ByteMap where
  byte a :=
    if a.toNat < 0xB0 then romByte rom a.toNat
    else if a.toNat ≤ 0xDF then m.ramByte a.toNat
    else 0
  gpio_out := m.gpio_out
  flash_mode := m.flash_mode
  flash_page := m.flash_page

/-- Two states that differ at most in entries beyond the array of RAM words. -/
structure MemRegs.SameArray (m m' : MemRegs) : Prop where
  words : ∀ i, i.ult NWORDS = true → m'.ram_words i = m.ram_words i
  gpio_out : m'.gpio_out = m.gpio_out
  flash_mode : m'.flash_mode = m.flash_mode
  flash_page : m'.flash_page = m.flash_page

end Pineapple
