import Pineapple.Paged.Program

/-!
# `build_flash_pagetest.py`

The script of the test image with four pages: page 0 stores 0x11, page 1 stores 0x22 and comes back to itself once,
page 2 stores 0x33, and page 3 stores 0x44 and spins.
-/

namespace Pineapple

namespace Pagetest

def GPIO_OUT : Int := 0xF0

def script : List PagedCall := [
  -- page 0
  .page (.ADDI 5 0 0), .page (.ADDI 2 0 0x11), .page (.SW 2 0 GPIO_OUT), .ending (.switch_to 1 none),
  -- page 1; x5 is zero on the first visit
  .page (.ADDI 2 0 0x22), .page (.SW 2 0 GPIO_OUT), .page (.BNE 5 0 "GOTO_PAGE2"), .page (.ADDI 5 0 1),
  .page (.ADDI 30 0 1), .page (.JAL 0 "CONVERGE"), .page (.label "GOTO_PAGE2"), .page (.ADDI 30 0 2),
  .page (.label "CONVERGE"), .ending (.switch_to_computed none),
  -- page 2
  .page (.ADDI 2 0 0x33), .page (.SW 2 0 GPIO_OUT), .ending (.switch_to 3 none),
  -- page 3
  .page (.ADDI 2 0 0x44), .page (.SW 2 0 GPIO_OUT), .page (.label "SPIN"), .page (.JAL 0 "SPIN"),
  .ending (.finalize_last_page none)]

/-- The flash image. -/
def image : Except PyError (List (BitVec 8)) := do
  let p ← PagedAsm.default.calls script
  let image := p.finalize
  if image.length = 4 * 44 then .ok image
  else .error (.assertion s!"expected exactly 4 pages (176 bytes), got {image.length} bytes")

/-! ## Its pages -/

def page0 : Page := ⟨[.ADDI 0 0 0, .ADDI 5 0 0, .ADDI 2 0 0x11, .SW 2 0 GPIO_OUT], .switch_to 1 none⟩

def page1 : Page where
  body := [.ADDI 2 0 0x22, .SW 2 0 GPIO_OUT, .BNE 5 0 "GOTO_PAGE2", .ADDI 5 0 1, .ADDI 30 0 1, .JAL 0 "CONVERGE",
    .label "GOTO_PAGE2", .ADDI 30 0 2, .label "CONVERGE"]
  ending := .switch_to_computed none

def page2 : Page := ⟨[.ADDI 2 0 0x33, .SW 2 0 GPIO_OUT], .switch_to 3 none⟩

def page3 : Page := ⟨[.ADDI 2 0 0x44, .SW 2 0 GPIO_OUT, .label "SPIN", .JAL 0 "SPIN"], .finalize_last_page none⟩

def pages : List Page := [page0, page1, page2, page3]

end Pagetest

end Pineapple
