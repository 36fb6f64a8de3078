import Pineapple.Tools.Paged

/-!
# `build_st7789_flash_image.py`

The script that builds the flash image of the ST7789 driver, with one definition for each of its functions. What
`assert` raises is an assertion error with its message.
-/

namespace Pineapple

namespace St7789

def GPIO_OUT : Int := 0xF0

/-- The constants at the head of the script. -/
structure Config where
  PANEL_WIDTH : Int
  PANEL_HEIGHT : Int
  MADCTL_VALUE : Int
  FILL_COLOR : Int
  DELAY_COUNT : Int
  USE_SIM_PANEL_SIZE : Bool
  SIM_PIXEL_COUNT : Int
  SIM_DELAY_COUNT : Int

/-- The values in the file. -/
def shipped : Config where
  PANEL_WIDTH := 240
  PANEL_HEIGHT := 240
  MADCTL_VALUE := 0x00
  FILL_COLOR := 0xF800
  DELAY_COUNT := 2000000
  USE_SIM_PANEL_SIZE := true
  SIM_PIXEL_COUNT := 3
  SIM_DELAY_COUNT := 20

variable (c : Config)

def pixel_count : Int :=
  if c.USE_SIM_PANEL_SIZE then c.SIM_PIXEL_COUNT else c.PANEL_WIDTH * c.PANEL_HEIGHT

def delay_count : Int :=
  if c.USE_SIM_PANEL_SIZE then c.SIM_DELAY_COUNT else c.DELAY_COUNT

def DC_CMD : Nat := 0
def DC_DATA : Nat := 1 <<< 2

/-- The four calls that send one bit of `byte_val`, with SCK low and then high. -/
def bitCalls (byte_val : Int) (dc_bit i : Nat) : List PagedCall :=
  let bit := lowBits (byte_val >>> (7 - i)) 1
  let mosi := bit <<< 1
  let setup_val := dc_bit ||| mosi
  let pulse_val := setup_val ||| 1
  [.page (.ADDI 2 0 setup_val), .page (.SW 2 0 GPIO_OUT), .page (.ADDI 2 0 pulse_val), .page (.SW 2 0 GPIO_OUT)]

/-- Eight pages, one for each bit. -/
def emit_byte_pages (byte_val : Int) (dc_bit : Nat) (next_page_after : Int) (p : PagedAsm) :
    Except PyError PagedAsm :=
  (List.range 8).foldlM (fun p i => do
    let p ← p.calls (bitCalls byte_val dc_bit i)
    if i = 7 then p.switch_to next_page_after none else p.switch_to (p._cur_page_num + 1) none) p

def emit_cmd (byte_val next_page_after : Int) (p : PagedAsm) : Except PyError PagedAsm :=
  emit_byte_pages byte_val DC_CMD next_page_after p

def emit_data (byte_val next_page_after : Int) (p : PagedAsm) : Except PyError PagedAsm :=
  emit_byte_pages byte_val DC_DATA next_page_after p

def reserve_page (want : Nat) (p : PagedAsm) : Except PyError PagedAsm :=
  if p._cur_page_num = want then .ok p
  else .error (.assertion <|
    s!"page numbering drifted: expected to be building page {want}, actually about to build page " ++
    s!"{p._cur_page_num} -- a call site above disagrees with actual page count, fix the hardcoded target page " ++
    "numbers to match")

def load_const32 (rd : Nat) (value : Int) (scratch : Nat) (p : PagedAsm) : Except PyError PagedAsm :=
  if 0 ≤ value ∧ value < 1 <<< 24 then do
    let lo := lowBits value 12
    let hi := value >>> (12 : Nat)
    let p ← p.calls [.page (.ADDI rd 0 lo)]
    if hi ≠ 0 then
      p.calls [.page (.ADDI scratch 0 hi), .page (.SLLI scratch scratch 12), .page (.ADD rd rd scratch)]
    else .ok p
  else .error (.assertion s!"load_const32 only handles <2**24 here, got {value}")

/-- A DELAY page; the script has it twice. -/
def delay_page (next_page : Int) (p : PagedAsm) : Except PyError PagedAsm :=
  p.calls [.page (.ADDI 2 0 (delay_count c)), .page (.label "DELAY_LOOP"), .page (.BEQ 2 0 "DELAY_DONE"),
    .page (.ADDI 2 2 (-1)), .page (.JAL 0 "DELAY_LOOP"), .page (.label "DELAY_DONE"),
    .ending (.switch_to next_page none)]

def RING_START : Int := 147
def RING_LEN : Nat := 16
def CTRL_PAGE : Int := RING_START + RING_LEN
def DONE_PAGE : Int := CTRL_PAGE + 1

/-- The ring: two bytes of eight bits, the last of which goes to the control page. -/
def fill_ring (p : PagedAsm) : Except PyError PagedAsm :=
  [(0, lowBits (c.FILL_COLOR >>> (8 : Nat)) 8), (1, lowBits c.FILL_COLOR 8)].foldlM (fun p (b : Nat × Nat) =>
    (List.range 8).foldlM (fun p i => do
      let p ← p.calls (bitCalls b.2 DC_DATA i)
      if 8 * b.1 + i + 1 = RING_LEN then p.switch_to CTRL_PAGE none
      else p.switch_to (p._cur_page_num + 1) none) p) p

def control_page (p : PagedAsm) : Except PyError PagedAsm :=
  p.calls [.page (.ADDI 5 5 (-1)), .page (.BNE 5 0 "NOT_DONE"), .page (.ADDI 30 0 DONE_PAGE),
    .page (.JAL 0 "CONVERGE"), .page (.label "NOT_DONE"), .page (.ADDI 30 0 RING_START), .page (.label "CONVERGE"),
    .ending (.switch_to_computed none)]

def done_page (p : PagedAsm) : Except PyError PagedAsm :=
  p.calls [.page (.label "SPIN"), .page (.JAL 0 "SPIN"), .ending (.finalize_last_page none)]

/-- The whole script. -/
def script : Except PyError PagedAsm := do
  let p ← reserve_page 0 .default
  let p ← p.calls [.page (.ADDI 2 0 0), .page (.SW 2 0 GPIO_OUT)]
  let p ← load_const32 5 (pixel_count c) 8 p
  let p ← p.switch_to 1 none
  let p ← emit_cmd 0x01 9 (← reserve_page 1 p)
  let p ← delay_page c 10 (← reserve_page 9 p)
  let p ← emit_cmd 0x11 18 (← reserve_page 10 p)
  let p ← delay_page c 19 (← reserve_page 18 p)
  let p ← emit_cmd 0x3A 27 (← reserve_page 19 p)
  let p ← emit_data 0x05 35 (← reserve_page 27 p)
  let p ← emit_cmd 0x36 43 (← reserve_page 35 p)
  let p ← emit_data c.MADCTL_VALUE 51 (← reserve_page 43 p)
  let p ← emit_cmd 0x2A 59 (← reserve_page 51 p)
  let p ← emit_data 0 67 (← reserve_page 59 p)
  let p ← emit_data 0 75 (← reserve_page 67 p)
  let p ← emit_data ((c.PANEL_WIDTH - 1) >>> (8 : Nat)) 83 (← reserve_page 75 p)
  let p ← emit_data (lowBits (c.PANEL_WIDTH - 1) 8) 91 (← reserve_page 83 p)
  let p ← emit_cmd 0x2B 99 (← reserve_page 91 p)
  let p ← emit_data 0 107 (← reserve_page 99 p)
  let p ← emit_data 0 115 (← reserve_page 107 p)
  let p ← emit_data ((c.PANEL_HEIGHT - 1) >>> (8 : Nat)) 123 (← reserve_page 115 p)
  let p ← emit_data (lowBits (c.PANEL_HEIGHT - 1) 8) 131 (← reserve_page 123 p)
  let p ← emit_cmd 0x29 139 (← reserve_page 131 p)
  let p ← emit_cmd 0x2C 147 (← reserve_page 139 p)
  let p ← fill_ring c (← reserve_page 147 p)
  let p ← control_page (← reserve_page 163 p)
  done_page (← reserve_page 164 p)

/-- The flash image. -/
def image : Except PyError (List (BitVec 8)) := return (← script c).finalize

end St7789

end Pineapple
