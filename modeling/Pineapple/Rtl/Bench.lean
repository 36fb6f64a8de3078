import Pineapple.Bits.ByteMemory
import Pineapple.Rtl.External

/-!
# Accesses to `mem.v` and the memories behind its windows

The master of the test bench makes accesses the way the core does: it holds the bus until `mem_ready`,
drops `mem_valid` and reads the data. `Windows` says what the two external windows are, without the SPI
bus: a read-only flash seen through a page register, and a byte memory.
-/

namespace Pineapple

open Bits

/-- The bus after `mem_ready`: the address stays, the access is gone. -/
def Bus.drop (b : Bus) : Bus := { b with valid := false, we := false }

/-- The bus with the access on it. -/
def Bus.hold (b : Bus) : Bus := { b with valid := true }

namespace MemBoard

/-- Hold `b` until `mem_ready`, for at most `fuel` cycles. -/
def waitReady : Nat → MemBoard → Bus → Option MemBoard
  | 0, _, _ => none
  | fuel + 1, x, b =>
    if x.mem.ready b then some (x.step b) else waitReady fuel (x.step b) b

/-- `n` cycles with a fixed bus. -/
def idle : Nat → MemBoard → Bus → MemBoard
  | 0, x, _ => x
  | n + 1, x, b => idle n (x.step b) b

/-- One access and the `gap + 1` cycles before the next one; the data is read in the first of them. -/
def access (fuel : Nat) (rom : Rom) (gpio_in : BitVec 8) (x : MemBoard) (b : Bus) (gap : Nat) :
    Option (BitVec 32 × MemBoard) :=
  (waitReady fuel x b.hold).map fun y =>
    (y.mem.rdata b.drop rom gpio_in, y.idle (gap + 1) b.drop)

/-- A sequence of accesses, each with its gap, and the data they return. -/
def accesses (fuel : Nat) (rom : Rom) (gpio_in : BitVec 8) :
    MemBoard → List (Bus × Nat) → Option (List (BitVec 32) × MemBoard)
  | x, [] => some ([], x)
  | x, (b, gap) :: rest =>
    match access fuel rom gpio_in x b gap with
    | none => none
    | some (v, y) =>
      match accesses fuel rom gpio_in y rest with
      | none => none
      | some (vs, z) => some (v :: vs, z)

end MemBoard

/-! ## The memories behind the windows -/

structure Windows where
  regs : MemRegs
  flash : ByteMemory 14
  psram : ByteMemory 14

namespace Windows

variable (σ : Windows) (b : Bus)

/-- The effect of an access: a store in the PSRAM window stores the low bytes of `wdata`, in address
order, and nothing else changes either memory. -/
def after : Windows where
  regs := σ.regs.afterBus b
  flash := σ.flash
  psram :=
    if b.we = true ∧ MemRegs.InPsram b.addr then
      σ.psram.store (BitVec.ofNat 14 (b.addr.toNat - 0xE0)) (fun k => b.wdata.extractLsb' (8 * k) 8)
        (nbytes b.size)
    else σ.psram

/-- The bytes a read returns, `none` if its address is not external. -/
def read : Option (List (BitVec 8)) :=
  if MemRegs.InPsram b.addr then
    some (σ.psram.load (BitVec.ofNat 14 (b.addr.toNat - 0xE0)) (nbytes b.size))
  else if σ.regs.InFlash b.addr then
    some (σ.flash.load (BitVec.ofNat 14 (σ.regs.flash_page.toNat * 44 + (b.addr.toNat - 0xB4)))
      (nbytes b.size))
  else none

/-- The effect of a sequence of accesses. -/
def afterAll (bs : List Bus) : Windows := bs.foldl after σ

end Windows

namespace MemBoard

def windows (x : MemBoard) : Windows := ⟨x.mem.toMemRegs, x.flash.mem, x.psram.mem⟩

end MemBoard

end Pineapple
