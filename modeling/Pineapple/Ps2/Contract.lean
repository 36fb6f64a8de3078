import Pineapple.Clocked.Polling
import Pineapple.Clocked.Transducer
import Pineapple.Machine.Gpio
import Pineapple.Ps2.Program
import Pineapple.St7789.Contract

/-!
# What the PS/2 readers are for
-/

namespace Pineapple

open Clocked
open Rv32i (Word)

namespace Ps2

def clock (ui_in : BitVec 8) : Bool := ui_in.getLsbD CLOCK_BIT
def data (ui_in : BitVec 8) : Bool := ui_in.getLsbD DATA_BIT

/-- The clocks of eleven instructions in the flash, the most that the way through a page takes. -/
def pageClocks : Nat := 11 * 137

/-- The clocks of ten instructions, the least that the way through a page that receives takes. -/
def leastPageClocks : Nat := 10 * 137

/-- From cycle `t` on a keyboard sends the bytes, each in a frame of eleven CLOCK pulses. The edges of CLOCK are in the
cycles `edge`, the falling ones with even numbers. It is high for `idle` cycles after the last pulse of a frame, and
every other phase is as long as the way through a page. The bits of a byte are on DATA while CLOCK is low, from the
second pulse on, the least significant one first; the start bit, the parity and the stop bit are arbitrary. -/
structure Sends (ui_in : Nat → BitVec 8) (idle t : Nat) (bytes : List (BitVec 8)) (edge : Nat → Nat) : Prop where
  before : ∀ τ, t ≤ τ → τ < edge 0 → clock (ui_in τ) = true
  phase : ∀ p < 22 * bytes.length, HasPhase (fun τ => clock (ui_in τ)) edge p
  long : ∀ p < 22 * bytes.length, edge p + pageClocks ≤ edge (p + 1)
  idle : ∀ k < bytes.length, edge (22 * k + 21) + idle ≤ edge (22 * (k + 1))
  data : ∀ k < bytes.length, ∀ i < 8, ∀ τ, edge (22 * k + 2 * (i + 1)) ≤ τ → τ < edge (22 * k + 2 * (i + 1) + 1) →
    data (ui_in τ) = (bytes.getD k 0).getLsbD i

/-- A keyboard that sends the bytes with phases of `unit` cycles, from the first edge at `unit * c` on. -/
def keys (unit c : Nat) (bytes : List (BitVec 8)) (τ : Nat) : BitVec 8 :=
  (if τ / unit < c ∨ (τ / unit - c) % 2 = 1 ∨ 22 * bytes.length ≤ τ / unit - c then 8 else 0) |||
    (if (bytes.getD ((τ / unit - c) / 22) 0).getLsbD ((τ / unit - c) % 22 / 2 - 1) then 16 else 0)

/-! ## The translation -/

/-- What the reader remembers of the bytes before. -/
structure Framing where
  break_pending : Bool
  ext_pending : Bool
  deriving DecidableEq, Repr

namespace Framing

def start : Framing := ⟨false, false⟩

variable (f : Framing) (byte : BitVec 8)

/-- After a byte. -/
def next : Framing :=
  if f.break_pending then ⟨false, false⟩
  else if byte = 0xF0 then { f with break_pending := true }
  else if byte = 0xE0 then { f with ext_pending := true }
  else if f.ext_pending then { f with ext_pending := false }
  else f

/-- The ASCII code that a byte gives: only a plain make code gives one, and it is 0 where the table has none. -/
def emits : List (BitVec 8) :=
  if f.break_pending ∨ byte = 0xF0 ∨ byte = 0xE0 ∨ f.ext_pending then []
  else [BitVec.ofNat 8 (Ascii.ascii_val byte.toNat)]

end Framing

/-- The raw reader stores each byte. -/
def echo : Transducer Unit (BitVec 8) (BitVec 8) := ⟨fun _ _ => (), fun _ byte => [byte]⟩

/-- The other reader translates. -/
def translation : Transducer Framing (BitVec 8) (BitVec 8) := ⟨Framing.next, Framing.emits⟩

/-- An observer of a reader: what is in ACCUM when a frame is complete, and what is stored in GPIO_OUT. -/
def events (flash : Bits.ByteMemory 14) (c : Nat × Arch) : List (Word ⊕ BitVec 8) :=
  (if St7789.AtPage (STOP_HIGH + 1) c.2 then [.inl (c.2.reg (BitVec.ofNat 5 ACCUM))] else []) ++
    (gpioStores flash c).map .inr

/-- A byte in a register. -/
def word (byte : BitVec 8) : Word := byte.setWidth 32

end Ps2

end Pineapple
