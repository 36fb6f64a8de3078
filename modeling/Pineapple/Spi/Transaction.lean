import Pineapple.Bits.LittleEndian
import Pineapple.Bits.Shift
import Pineapple.Rtl.Qspi

/-!
# Single-line SPI transactions

What a request to the engine means on the wire, said without reference to the engine's shift
register: the bits the master sends, the bytes it samples, and the waveform of a whole transaction
as a statement about the pins in consecutive clock cycles.
-/

namespace Pineapple

open Bits

/-- The number of bytes an access of size code `size` transfers. -/
def nbytes (size : BitVec 2) : Nat := if size = 0 then 1 else if size = 1 then 2 else 4

namespace Req

variable (r : Req)

/-- SCK pulses of the transaction: command, address and data. -/
def nbits : Nat := 32 + 8 * nbytes r.size

/-- Clock cycles from the acceptance of the request to the cycle in which `req_ready` is high. -/
def latency : Nat := 2 * r.nbits + 2

/-- The bits the master sends, first to last: 0x02 or 0x03, the address, and for a write the low
bytes of `wdata` in address order; every byte with its most significant bit first. -/
def wireBits : List Bool :=
  msbBits (if r.we then (0x02 : BitVec 8) else 0x03) ++ msbBits r.addr ++
    (if r.we then (toLE r.wdata (nbytes r.size)).flatMap msbBits else [])

end Req

/-- The word made of the `n` bytes that `miso` carries at the SCK rising edges number
`32, …, 32 + 8 * n - 1` of a transaction accepted in cycle `t`. The rising edge number `i` is the
clock edge of cycle `t + 2 + 2 * i`. -/
def sampledWord (miso : Nat → Bool) (t n : Nat) : BitVec 32 :=
  ofLE 32 ((List.range n).map fun k => ofMsb (fun j => miso (t + 2 + 2 * (32 + 8 * k + j))) 8)

namespace Qspi

/-- The engine takes the request at the next clock edge. -/
def Accepts (e : Qspi) (r : Req) : Prop := e.state = .idle ∧ r.valid = true

/-- SCK rises at the clock edge of cycle `t`. -/
def SckRises (e : Nat → Qspi) (t : Nat) : Prop :=
  (e t).pin_sck = false ∧ (e (t + 1)).pin_sck = true

/-- The waveform of the transaction for the request `r` accepted in cycle `t`. The selected chip select
is low from the cycle after the acceptance until `req_ready` rises, so around every SCK edge. -/
structure Transaction (e : Nat → Qspi) (miso : Nat → Bool) (r : Req) (t : Nat) : Prop where
  busy : ∀ j, t < j → j ≤ t + r.latency → (e j).state ≠ .idle
  idle : (e (t + r.latency + 1)).state = .idle
  cs0 : ∀ j, t < j → j ≤ t + r.latency + 1 →
    ((e j).pin_cs0 = false ↔ r.dev = 1 ∧ j < t + r.latency)
  cs1 : ∀ j, t < j → j ≤ t + r.latency + 1 →
    ((e j).pin_cs1 = false ↔ r.dev = 2 ∧ j < t + r.latency)
  rises : ∀ j, t ≤ j → j ≤ t + r.latency → (SckRises e j ↔ ∃ i < r.nbits, j = t + 2 + 2 * i)
  mosi : ∀ i (h : i < r.wireBits.length),
    (e (t + 2 + 2 * i)).pin_mosi = r.wireBits[i] ∧ (e (t + 2 + 2 * i + 1)).pin_mosi = r.wireBits[i]
  ready : ∀ j, t < j → j ≤ t + r.latency + 1 → ((e j).req_ready = true ↔ j = t + r.latency)
  rdata : (e (t + r.latency)).req_rdata = sampledWord miso t (nbytes r.size)

/-- What every two consecutive cycles `e`, `e'` of the pins obey: at most one chip select is low, SCK
rises only while one is, SCK is low around the falling edge of a chip select, and MOSI changes only
while SCK is driven low, hence never on a rising edge and never before the sampling is over. -/
structure Waveform (e e' : Qspi) : Prop where
  one_cs : e.pin_cs0 = true ∨ e.pin_cs1 = true
  rise : e.pin_sck = false → e'.pin_sck = true →
    (e.pin_cs0 = false ∧ e'.pin_cs0 = false) ∨ (e.pin_cs1 = false ∧ e'.pin_cs1 = false)
  cs0_fall : e.pin_cs0 = true → e'.pin_cs0 = false → e.pin_sck = false ∧ e'.pin_sck = false
  cs1_fall : e.pin_cs1 = true → e'.pin_cs1 = false → e.pin_sck = false ∧ e'.pin_sck = false
  mosi : e'.pin_mosi ≠ e.pin_mosi → e'.pin_sck = false

end Qspi

end Pineapple
