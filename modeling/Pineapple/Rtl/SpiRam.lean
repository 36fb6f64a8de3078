import Mathlib.Logic.Function.Basic

/-!
# `spi_ram_model.v`: the behavioural SPI memory

The slave has no clock: its two `always` blocks react to edges of `sck` and `cs_n`. A step is given
the three input pins before and after one edge of the master's clock and runs the blocks whose
events occurred; both read the registers as they were before.
-/

namespace Pineapple

/-- `PHASE_CMD`, `PHASE_ADDR`, `PHASE_DATA`. -/
inductive SpiPhase where
  | cmd
  | addr
  | data
  deriving DecidableEq, Repr

/-- The input pins of the slave. -/
structure SpiPins where
  cs_n : Bool
  sck : Bool
  mosi : Bool
  deriving DecidableEq

/-- The registers of `spi_ram_model`. -/
structure SpiRam where
  mem : BitVec 14 → BitVec 8
  bitcnt : BitVec 3
  phase : SpiPhase
  addr_byte : BitVec 2
  addr : BitVec 24
  we : Bool
  shift_in : BitVec 8
  cur_out : BitVec 8
  miso : Bool

namespace SpiRam

variable (s : SpiRam)

/-- `{shift_in[6:0], mosi}`. -/
def shifted (mosi : Bool) : BitVec 8 := (s.shift_in.extractLsb' 0 7).concat mosi

/-- `{addr[15:0], shift_in[6:0], mosi}`. -/
def next_addr (mosi : Bool) : BitVec 24 := s.addr.extractLsb' 0 16 ++ s.shifted mosi

/-- The framing registers as `cs_n` high leaves them. -/
def deselect : SpiRam := { s with phase := .cmd, bitcnt := 0, addr_byte := 0 }

/-- The `always @(posedge sck)` block while selected. -/
def onSckRise (mosi : Bool) : SpiRam :=
  if s.bitcnt = 7 then
    match s.phase with
    | .cmd =>
      { s with
        shift_in := s.shifted mosi
        bitcnt := 0
        we := s.shifted mosi = 0x02
        phase := .addr }
    | .addr =>
      { s with
        shift_in := s.shifted mosi
        bitcnt := 0
        addr := s.next_addr mosi
        phase := if s.addr_byte = 2 then .data else .addr
        cur_out := if s.addr_byte = 2 then s.mem ((s.next_addr mosi).extractLsb' 0 14) else s.cur_out
        addr_byte := s.addr_byte + 1 }
    | .data =>
      { s with
        shift_in := s.shifted mosi
        bitcnt := 0
        mem := if s.we then Function.update s.mem (s.addr.extractLsb' 0 14) (s.shifted mosi)
          else s.mem
        addr := s.addr + 1
        cur_out := s.mem (s.addr.extractLsb' 0 14 + 1) }
  else { s with shift_in := s.shifted mosi, bitcnt := s.bitcnt + 1 }

/-- The value the `always @(negedge sck or posedge cs_n)` block drives on `miso`. -/
def misoOut (cs_n : Bool) : Bool :=
  if cs_n then false
  else if s.phase = .data ∧ ¬ s.we then s.cur_out.getLsbD (7 - s.bitcnt).toNat
  else false

/-- The slave after its pins went from `old` to `new`. -/
def step (old new : SpiPins) : SpiRam :=
  let csRise := !old.cs_n && new.cs_n
  let sckRise := !old.sck && new.sck
  let sckFall := old.sck && !new.sck
  let s' :=
    if sckRise || csRise then (if new.cs_n then s.deselect else s.onSckRise new.mosi) else s
  { s' with miso := if sckFall || csRise then s.misoOut new.cs_n else s.miso }

end SpiRam

end Pineapple
