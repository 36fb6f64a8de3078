import Mathlib.Logic.Function.Iterate
import Mathlib.Logic.Relation
import Pineapple.Boot.Host

/-!
# A listener on the bootloader's wire

What is received from a waveform of `ui_in`, whoever drives it: START is sampled every 56 clocks, and then CLOCK every
21 clocks, with DATA 21 clocks after the sample that saw CLOCK rise. No handshake tells the host when the samples are,
so the bits that are heard need not be those that were sent. The clocks in between are those that `build_boot_rom.py`
spends on its bookkeeping.
-/

namespace Pineapple

namespace Boot

/-- The edge of CLOCK that is waited for. After the rising edge the bit is known. -/
inductive Edge where
  | rise
  | fall (bit : Bool)

/-- The level of CLOCK after the edge. -/
def Edge.level : Edge → Bool
  | .rise => true
  | .fall _ => false

/-- The bit that is known before its clock pulse is over. -/
def Edge.bit : Edge → List Bool
  | .rise => []
  | .fall bit => [bit]

/-- In cycle `time` the turn of a polling loop begins that waits for the edge, with the `bits` of a byte before it. -/
structure Receiver where
  time : Nat
  edge : Edge
  bits : List Bool

/-- One turn of a polling loop. -/
def Receiver.step (ui_in : Nat → BitVec 8) (r : Receiver) : Receiver :=
  match r.edge with
  | .rise =>
    if clock (ui_in (r.time + 6)) then
      let bit := data (ui_in (r.time + 27))
      ⟨r.time + (if bit then 56 else 49), .fall bit, r.bits⟩
    else ⟨r.time + 21, .rise, r.bits⟩
  | .fall bit =>
    if clock (ui_in (r.time + 6)) then ⟨r.time + 21, .fall bit, r.bits⟩
    else ⟨r.time + 42, .rise, r.bits ++ [bit]⟩

/-- The second receiver comes from the first within one byte. -/
def Receiver.Hears (ui_in : Nat → BitVec 8) : Receiver → Receiver → Prop :=
  Relation.ReflTransGen fun r r' => r.bits.length < 8 ∧ r.step ui_in = r'

/-- The byte that eight bits spell, the most significant first. -/
def toByte (bits : List Bool) : BitVec 8 := bits.foldl Bits.shiftIn 0

/-- The clocks from a byte to the first poll of the next, after `k` bytes before it: the length byte, byte 0, is only
copied; data bytes are stored, the 45th of them behind the load window, in the external PSRAM. -/
def pause (k : Nat) : Nat := if k = 0 then 49 else if k = 45 then 145 else 63

/-- A listener: before START, at a poll in cycle `time`, or after the bytes that it `heard`. -/
inductive Listener where
  | demo (time : Nat)
  | receiving (heard : List (BitVec 8)) (r : Receiver)

/-- The next poll. -/
def Listener.step (ui_in : Nat → BitVec 8) : Listener → Listener
  | .demo time => if start (ui_in (time + 6)) then .receiving [] ⟨time + 42, .rise, []⟩ else .demo (time + 56)
  | .receiving heard r =>
    let r' := r.step ui_in
    if r'.bits.length < 8 then .receiving heard r'
    else .receiving (heard ++ [toByte r'.bits]) ⟨r'.time + pause heard.length, .rise, []⟩

def Listener.time : Listener → Nat
  | .demo time => time
  | .receiving _ r => r.time

def Listener.heard : Listener → List (BitVec 8)
  | .demo _ => []
  | .receiving heard _ => heard

/-- The listener that starts in cycle `t`, after `n` polls. -/
def listens (ui_in : Nat → BitVec 8) (t n : Nat) : Listener := (Listener.step ui_in)^[n] (.demo t)

/-- A length byte of at least 46, and 46 data bytes after it. -/
def Overrun (heard : List (BitVec 8)) : Prop := 47 ≤ heard.length ∧ 46 ≤ (heard.headD 0).toNat

instance (heard : List (BitVec 8)) : Decidable (Overrun heard) := inferInstanceAs (Decidable (_ ∧ _))

end Boot

end Pineapple
