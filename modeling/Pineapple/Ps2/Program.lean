import Pineapple.Tools.Paged

/-!
# `build_ps2_reader.py` and `build_ps2_ascii.py`

The scripts that build the flash images of the two PS/2 keyboard readers, with one definition for each of their
functions. The pages that receive a frame are the same in both.
-/

namespace Pineapple

namespace Ps2

def GPIO_OUT : Int := 0xF0
def GPIO_IN : Int := 0xF4

def CLOCK_BIT : Nat := 3
def DATA_BIT : Nat := 4
def CLOCK_MASK : Int := 1 <<< CLOCK_BIT
def DATA_MASK : Int := 1 <<< DATA_BIT

def ACCUM : Nat := 4

def reserve_page (want : Nat) (p : PagedAsm) : Except PyError PagedAsm :=
  if p._cur_page_num = want then .ok p
  else .error (.assertion <|
    s!"page numbering drifted: expected to be building page {want}, actually about to build page " ++
    s!"{p._cur_page_num}")

/-- A page that polls until CLOCK reads `level`. -/
def wait_clock (level : Nat) (next_page : Int) (p : PagedAsm) : Except PyError PagedAsm := do
  let p ← p.calls [.page (.label "POLL"), .page (.LBU 1 0 GPIO_IN), .page (.ANDI 2 1 CLOCK_MASK)]
  let p ← p.calls [.page (if level = 0 then .BNE 2 0 "POLL" else .BEQ 2 0 "POLL")]
  p.switch_to next_page none

/-- The same for CLOCK low; the read that saw it also gives a bit of the scancode. -/
def wait_clock_low_and_sample (bit_value : Int) (next_page : Int) (p : PagedAsm) : Except PyError PagedAsm :=
  p.calls [.page (.label "POLL"), .page (.LBU 1 0 GPIO_IN), .page (.ANDI 2 1 CLOCK_MASK), .page (.BNE 2 0 "POLL"),
    .page (.ANDI 3 1 DATA_MASK), .page (.BEQ 3 0 "SKIP_SET"), .page (.ORI ACCUM ACCUM bit_value),
    .page (.label "SKIP_SET"), .ending (.switch_to next_page none)]

def BIT_PAGES_START : Nat := 3
def PARITY_LOW : Nat := BIT_PAGES_START + 16
def PARITY_HIGH : Nat := PARITY_LOW + 1
def STOP_LOW : Nat := PARITY_HIGH + 1
def STOP_HIGH : Nat := PARITY_HIGH + 2

/-- The pages of the data bits; `page_num` is `BIT_PAGES_START + 2 * bit_i` when turn `bit_i` begins. -/
def bit_pages (p : PagedAsm) : Except PyError PagedAsm :=
  (List.range 8).foldlM (fun p bit_i => do
    let page_num := BIT_PAGES_START + 2 * bit_i
    let bit_value : Int := 1 <<< bit_i
    let p ← wait_clock_low_and_sample bit_value ((page_num + 1 : Nat) : Int) (← reserve_page page_num p)
    wait_clock 1 ((page_num + 2 : Nat) : Int) (← reserve_page (page_num + 1) p)) p

/-- Pages 1 to 22, which receive a frame. -/
def receive_pages (p : PagedAsm) : Except PyError PagedAsm := do
  let p ← wait_clock 0 2 (← reserve_page 1 p)
  let p ← wait_clock 1 3 (← reserve_page 2 p)
  let p ← bit_pages p
  let p ← wait_clock 0 PARITY_HIGH (← reserve_page PARITY_LOW p)
  let p ← wait_clock 1 ((PARITY_HIGH + 1 : Nat) : Int) (← reserve_page PARITY_HIGH p)
  let p ← wait_clock 0 STOP_HIGH (← reserve_page STOP_LOW p)
  wait_clock 1 ((STOP_HIGH + 1 : Nat) : Int) (← reserve_page STOP_HIGH p)

/-! ## The raw reader -/

namespace Reader

def RESULT_PAGE : Nat := STOP_HIGH + 1

def script : Except PyError PagedAsm := do
  let p ← reserve_page 0 .default
  let p ← p.calls [.page (.ADDI ACCUM 0 0)]
  let p ← p.switch_to 1 none
  let p ← receive_pages p
  let p ← reserve_page RESULT_PAGE p
  let p ← p.calls [.page (.SW ACCUM 0 GPIO_OUT), .page (.ADDI ACCUM 0 0)]
  p.switch_to 1 none

def TOTAL_PAGES : Nat := RESULT_PAGE + 1

/-- The flash image. -/
def image : Except PyError (List (BitVec 8)) := do
  let p ← script
  let image := p.finalize
  if image.length = TOTAL_PAGES * 44 then .ok image else .error (.assertion "")

end Reader

/-! ## The reader with a translation to ASCII -/

namespace Ascii

def BREAK_PENDING : Nat := 5
def EXT_PENDING : Nat := 6

/-- Scan Code Set 2 make codes and the unshifted ASCII codes. -/
def SCANCODE_TO_ASCII : List (Nat × Nat) :=
  [(0x1C, 0x61), (0x32, 0x62), (0x21, 0x63), (0x23, 0x64), (0x24, 0x65), (0x2B, 0x66), (0x34, 0x67), (0x33, 0x68),
   (0x43, 0x69), (0x3B, 0x6A), (0x42, 0x6B), (0x4B, 0x6C), (0x3A, 0x6D), (0x31, 0x6E), (0x44, 0x6F), (0x4D, 0x70),
   (0x15, 0x71), (0x2D, 0x72), (0x1B, 0x73), (0x2C, 0x74), (0x3C, 0x75), (0x2A, 0x76), (0x1D, 0x77), (0x22, 0x78),
   (0x35, 0x79), (0x1A, 0x7A),
   (0x45, 0x30), (0x16, 0x31), (0x1E, 0x32), (0x26, 0x33), (0x25, 0x34), (0x2E, 0x35), (0x36, 0x36), (0x3D, 0x37),
   (0x3E, 0x38), (0x46, 0x39),
   (0x29, 0x20), (0x5A, 0x0D), (0x66, 0x08), (0x0D, 0x09),
   (0x4E, 0x2D), (0x55, 0x3D), (0x54, 0x5B), (0x5B, 0x5D), (0x5D, 0x5C), (0x4C, 0x3B), (0x52, 0x27), (0x41, 0x2C),
   (0x49, 0x2E), (0x4A, 0x2F), (0x0E, 0x60)]

/-- `SCANCODE_TO_ASCII.get(scancode, 0)`. -/
def ascii_val (scancode : Nat) : Nat := (SCANCODE_TO_ASCII.lookup scancode).getD 0

def PROCESS_BP : Nat := STOP_HIGH + 1
def PROCESS_F0 : Nat := PROCESS_BP + 1
def PROCESS_E0 : Nat := PROCESS_F0 + 1
def PROCESS_EXTCHECK : Nat := PROCESS_E0 + 1
def PROCESS_DISPATCH : Nat := PROCESS_EXTCHECK + 1
def EMIT_PAGE : Nat := PROCESS_DISPATCH + 1
def TABLE_START : Nat := EMIT_PAGE + 1
def MAX_SAFE_SCANCODE : Nat := 255 - TABLE_START

/-- Is a break sequence already in progress? -/
def process_bp (p : PagedAsm) : Except PyError PagedAsm :=
  p.calls [.page (.BEQ BREAK_PENDING 0 "NOT_BP"), .page (.ADDI BREAK_PENDING 0 0), .page (.ADDI EXT_PENDING 0 0),
    .page (.ADDI ACCUM 0 0), .page (.ADDI 30 0 1), .page (.JAL 0 "CONVERGE"), .page (.label "NOT_BP"),
    .page (.ADDI 30 0 PROCESS_F0), .page (.label "CONVERGE"), .ending (.switch_to_computed none)]

/-- Is this byte the break-code prefix? -/
def process_f0 (p : PagedAsm) : Except PyError PagedAsm :=
  p.calls [.page (.ADDI 7 0 0xF0), .page (.BEQ ACCUM 7 "IS_F0"), .page (.ADDI 30 0 PROCESS_E0),
    .page (.JAL 0 "CONVERGE"), .page (.label "IS_F0"), .page (.ADDI BREAK_PENDING 0 1), .page (.ADDI ACCUM 0 0),
    .page (.ADDI 30 0 1), .page (.label "CONVERGE"), .ending (.switch_to_computed none)]

/-- Is this byte the extended-code prefix? -/
def process_e0 (p : PagedAsm) : Except PyError PagedAsm :=
  p.calls [.page (.ADDI 7 0 0xE0), .page (.BEQ ACCUM 7 "IS_E0"), .page (.ADDI 30 0 PROCESS_EXTCHECK),
    .page (.JAL 0 "CONVERGE"), .page (.label "IS_E0"), .page (.ADDI EXT_PENDING 0 1), .page (.ADDI ACCUM 0 0),
    .page (.ADDI 30 0 1), .page (.label "CONVERGE"), .ending (.switch_to_computed none)]

/-- Is an extended make code in progress? -/
def process_extcheck (p : PagedAsm) : Except PyError PagedAsm :=
  p.calls [.page (.BEQ EXT_PENDING 0 "NOT_EP"), .page (.ADDI EXT_PENDING 0 0), .page (.ADDI ACCUM 0 0),
    .page (.ADDI 30 0 1), .page (.JAL 0 "CONVERGE"), .page (.label "NOT_EP"), .page (.ADDI 30 0 PROCESS_DISPATCH),
    .page (.label "CONVERGE"), .ending (.switch_to_computed none)]

/-- The page of a plain make code, with the check that its number is below 256. -/
def process_dispatch (p : PagedAsm) : Except PyError PagedAsm :=
  p.calls [.page (.ADDI 7 0 MAX_SAFE_SCANCODE), .page (.BLT 7 ACCUM "OUT_OF_RANGE"), .page (.ADDI 7 0 TABLE_START),
    .page (.ADD 30 ACCUM 7), .page (.JAL 0 "CONVERGE"), .page (.label "OUT_OF_RANGE"), .page (.ADDI 30 0 TABLE_START),
    .page (.label "CONVERGE"), .ending (.switch_to_computed none)]

def emit_page (p : PagedAsm) : Except PyError PagedAsm :=
  p.calls [.page (.SW 8 0 GPIO_OUT), .page (.ADDI ACCUM 0 0), .ending (.switch_to 1 none)]

/-- The translation pages, one for each scancode. -/
def table_pages (p : PagedAsm) : Except PyError PagedAsm :=
  (List.range (MAX_SAFE_SCANCODE + 1)).foldlM (fun p scancode => do
    let p ← reserve_page (TABLE_START + scancode) p
    p.calls [.page (.ADDI 8 0 (ascii_val scancode)), .ending (.switch_to EMIT_PAGE none)]) p

def script : Except PyError PagedAsm := do
  let p ← reserve_page 0 .default
  let p ← p.calls [.page (.ADDI ACCUM 0 0), .page (.ADDI BREAK_PENDING 0 0), .page (.ADDI EXT_PENDING 0 0)]
  let p ← p.switch_to 1 none
  let p ← receive_pages p
  let p ← process_bp (← reserve_page PROCESS_BP p)
  let p ← process_f0 (← reserve_page PROCESS_F0 p)
  let p ← process_e0 (← reserve_page PROCESS_E0 p)
  let p ← process_extcheck (← reserve_page PROCESS_EXTCHECK p)
  let p ← process_dispatch (← reserve_page PROCESS_DISPATCH p)
  let p ← emit_page (← reserve_page EMIT_PAGE p)
  if p._cur_page_num = TABLE_START then table_pages p else .error (.assertion "")

/-- The flash image. -/
def image : Except PyError (List (BitVec 8)) := return (← script).finalize

end Ascii

end Ps2

end Pineapple
