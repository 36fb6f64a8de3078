import Pineapple.Bits.Shift
import Pineapple.Rtl.Mem

/-!
# The bootloader's wire protocol

What a host drives on `ui_in[2:0]`: START, then one CLOCK pulse for each bit of the message, with the bit
on DATA while CLOCK is high. Cycle 0 is the first one after the release of reset.
-/

namespace Pineapple

open Bits

namespace Boot

def data (ui_in : BitVec 8) : Bool := ui_in.getLsbD 0
def clock (ui_in : BitVec 8) : Bool := ui_in.getLsbD 1
def start (ui_in : BitVec 8) : Bool := ui_in.getLsbD 2

/-- CLOCK is low from cycle `p` up to cycle `r`, high from there up to cycle `f` with `b` on DATA, and low
again; the high phase and the low phase after it last at least 128 cycles. -/
structure Pulse (ui_in : Nat → BitVec 8) (p r f : Nat) (b : Bool) : Prop where
  low : ∀ τ, p ≤ τ → τ < r → clock (ui_in τ) = false
  high : ∀ τ, r ≤ τ → τ < f → clock (ui_in τ) = true
  data : ∀ τ, r ≤ τ → τ < f → data (ui_in τ) = b
  long : r + 128 ≤ f
  after : ∀ τ, f ≤ τ → τ < f + 128 → clock (ui_in τ) = false

/-- Bit `j` of a message on the wire: the bytes in order, each with its most significant bit first. -/
def messageBit (msg : List (BitVec 8)) (j : Nat) : Bool := (msg.getD (j / 8) 0).getMsbD (j % 8)

/-- The waveform of a host that raises START in cycle `S` and sends the message. The CLOCK pulse of bit `j`
rises in cycle `rise j` and falls in cycle `fall j`. -/
structure Sends (ui_in : Nat → BitVec 8) (msg : List (BitVec 8)) (S : Nat) (rise fall : Nat → Nat) :
    Prop where
  started : ∀ τ, S ≤ τ → τ < rise 0 → start (ui_in τ) = true
  after_reset : 512 ≤ rise 0
  after_start : S + 512 ≤ rise 0
  first : Pulse ui_in 0 (rise 0) (fall 0) (messageBit msg 0)
  next : ∀ j, j + 1 < 8 * msg.length →
    fall j + 128 ≤ rise (j + 1) ∧
      Pulse ui_in (fall j) (rise (j + 1)) (fall (j + 1)) (messageBit msg (j + 1))

end Boot

/-- The byte of the on-chip RAM at an address from 0xB0 to 0xDF. -/
def MemRegs.ramByte (m : MemRegs) (addr : Nat) : BitVec 8 :=
  (m.ram_words (BitVec.ofNat 4 ((addr - 0xB0) / 4))).extractLsb' (8 * ((addr - 0xB0) % 4)) 8

end Pineapple
