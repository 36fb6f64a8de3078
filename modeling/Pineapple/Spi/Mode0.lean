import Pineapple.Bits.Shift

/-!
# A mode-0 SPI slave behind output pins

The slave sees the levels of four pins, SCK (bit 0), MOSI (bit 1), DC (bit 2) and an active-low CS (bit 3), one after
the other. It takes a bit on each rising edge of SCK while CS is low, the most significant bit first, and completes a
byte every eight bits; CS high clears its bit counter.
-/

namespace Spi

open Bits

structure Mode0 where
  /-- The number of bits since the last byte. -/
  bits : Nat
  shift_reg : BitVec 8
  /-- The level of SCK. -/
  sck : Bool

namespace Mode0

def sckOf (v : BitVec 8) : Bool := v.getLsbD 0
def mosiOf (v : BitVec 8) : Bool := v.getLsbD 1
def dcOf (v : BitVec 8) : Bool := v.getLsbD 2
def csOf (v : BitVec 8) : Bool := v.getLsbD 3

/-- The slave after a reset. -/
def reset : Mode0 := ⟨0, 0, false⟩

variable (s : Mode0) (v : BitVec 8)

/-- The pins go to the levels `v`, which is a rising edge of SCK while CS is low. -/
def takes : Bool := !csOf v && !s.sck && sckOf v

/-- The slave after the pins go to the levels `v`. -/
def next : Mode0 :=
  if csOf v then { s with bits := 0, sck := sckOf v }
  else if s.takes v then ⟨(s.bits + 1) % 8, shiftIn s.shift_reg (mosiOf v), true⟩
  else { s with sck := sckOf v }

/-- The byte that is complete then, with the level of DC. -/
def completes : Option (Bool × BitVec 8) :=
  if s.takes v = true ∧ s.bits = 7 then some (dcOf v, shiftIn s.shift_reg (mosiOf v)) else none

/-- The slave after a sequence of levels. -/
def after (vs : List (BitVec 8)) : Mode0 := vs.foldl next s

/-- The bytes that a sequence of levels completes. -/
def decode : Mode0 → List (BitVec 8) → List (Bool × BitVec 8)
  | _, [] => []
  | s, v :: vs => (s.completes v).toList ++ decode (s.next v) vs

/-- MOSI and DC keep their levels where SCK rises. -/
def Stable (u v : BitVec 8) : Prop := sckOf u = false → sckOf v = true → mosiOf v = mosiOf u ∧ dcOf v = dcOf u

instance (u v : BitVec 8) : Decidable (Stable u v) := inferInstanceAs (Decidable (_ → _ → _ ∧ _))

end Mode0

end Spi
