import Mathlib.Logic.Function.Basic

/-!
# `qspi_shared_engine.v`: the single-line SPI master

The engine's registers (its pins are registers too) and one rising clock edge. The request inputs
and `pin_miso` are the inputs of a step.
-/

namespace Pineapple

def CMD_READ : BitVec 8 := 0x03
def CMD_WRITE : BitVec 8 := 0x02

/-- The engine's states `ST_*`. -/
inductive QspiState where
  | idle
  /-- SCK low half of a bit period. -/
  | shiftLo
  /-- SCK high half: sample and shift. -/
  | shiftHi
  | done
  /-- One cycle in which `req_ready` is visible before `req_valid` is looked at again. -/
  | post
  deriving DecidableEq, Repr

/-- The request inputs. -/
structure Req where
  valid : Bool
  we : Bool
  dev : BitVec 2
  addr : BitVec 24
  wdata : BitVec 32
  size : BitVec 2
  deriving DecidableEq

/-- The registers of `qspi_shared_engine`. -/
structure Qspi where
  state : QspiState
  nbits_total : BitVec 7
  bits_done : BitVec 7
  sreg : BitVec 64
  data_bits : BitVec 6
  req_rdata : BitVec 32
  req_ready : Bool
  pin_cs0 : Bool
  pin_cs1 : Bool
  pin_sck : Bool
  pin_mosi : Bool

/-- The data field of the shift preload: the bytes of `wd` in address order, at the top. -/
def data_field (we : Bool) (size : BitVec 2) (wd : BitVec 32) : BitVec 32 :=
  if !we then 0
  else
    match size with
    | 0 => wd.extractLsb' 0 8 ++ 0#24
    | 1 => wd.extractLsb' 0 8 ++ wd.extractLsb' 8 8 ++ 0#16
    | _ => wd.extractLsb' 0 8 ++ wd.extractLsb' 8 8 ++ wd.extractLsb' 16 8 ++ wd.extractLsb' 24 8

/-- `{CMD(8), ADDR(24), DATA(32)}`. -/
def build_preload (we : Bool) (size : BitVec 2) (addr : BitVec 24) (wd : BitVec 32) : BitVec 64 :=
  (if we then CMD_WRITE else CMD_READ) ++ addr ++ data_field we size wd

/-- The `case (data_bits)` of `ST_DONE`: the sampled bytes, put back into address order. -/
def rdata_field (data_bits : BitVec 6) (sreg : BitVec 64) : BitVec 32 :=
  if data_bits = 8 then 0#24 ++ sreg.extractLsb' 0 8
  else if data_bits = 16 then 0#16 ++ sreg.extractLsb' 0 8 ++ sreg.extractLsb' 8 8
  else
    sreg.extractLsb' 0 8 ++ sreg.extractLsb' 8 8 ++ sreg.extractLsb' 16 8 ++ sreg.extractLsb' 24 8

namespace Qspi

/-- The asynchronous reset branch; `nbits_total`, `bits_done` and `data_bits` are not reset. -/
def reset (e : Qspi) : Qspi :=
  { e with
    state := .idle
    pin_cs0 := true
    pin_cs1 := true
    pin_sck := false
    pin_mosi := true
    req_ready := false
    req_rdata := 0
    sreg := 0 }

/-- One rising clock edge with `rst_n` high. Every state but `ST_DONE` takes the default
`req_ready <= 1'b0`. -/
def step (e : Qspi) (req : Req) (pin_miso : Bool) : Qspi :=
  match e.state with
  | .idle =>
    if req.valid then
      { e with
        req_ready := false
        pin_sck := false
        pin_cs0 := if req.dev = 1 then false else true
        pin_cs1 := if req.dev = 2 then false else true
        data_bits := if req.size = 0 then 8 else if req.size = 1 then 16 else 32
        nbits_total := 32 + (if req.size = 0 then 8 else if req.size = 1 then 16 else 32)
        bits_done := 0
        sreg := build_preload req.we req.size req.addr req.wdata
        state := .shiftLo }
    else { e with req_ready := false, pin_sck := false }
  | .shiftLo =>
    { e with
      req_ready := false
      pin_sck := false
      pin_mosi := e.sreg.getLsbD 63
      state := .shiftHi }
  | .shiftHi =>
    { e with
      req_ready := false
      pin_sck := true
      sreg := (e.sreg.extractLsb' 0 63).concat pin_miso
      bits_done := if e.bits_done + 1 = e.nbits_total then e.bits_done else e.bits_done + 1
      state := if e.bits_done + 1 = e.nbits_total then .done else .shiftLo }
  | .done =>
    { e with
      pin_cs0 := true
      pin_cs1 := true
      pin_sck := false
      req_rdata := rdata_field e.data_bits e.sreg
      req_ready := true
      state := .post }
  | .post => { e with req_ready := false, state := .idle }

end Qspi

end Pineapple
