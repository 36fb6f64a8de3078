import Pineapple.Paged.Program
import Pineapple.St7789.Program

/-!
# The pages of the ST7789 driver

Page 0 sets the registers, then come the bytes of the initialisation, eight pages each, with two DELAY pages among
them, the ring of the two colour bytes, the control page and the last page. Only the last three pages go elsewhere
than to the page after them.
-/

namespace Pineapple

namespace St7789

/-- The calls of `load_const32`. -/
def constCalls (rd scratch : Nat) (value : Int) : List Call :=
  .ADDI rd 0 (lowBits value 12) ::
    if value >>> (12 : Nat) ≠ 0 then
      [.ADDI scratch 0 (value >>> (12 : Nat)), .SLLI scratch scratch 12, .ADD rd rd scratch]
    else []

/-- The value that is stored with SCK low for a bit of `byte_val`; the next one is odd. -/
def setupVal (byte_val : Int) (dc_bit i : Nat) : Nat := dc_bit ||| (lowBits (byte_val >>> (7 - i)) 1 <<< 1)

/-- The page of a bit, at page `n`. -/
def bitPage (byte_val : Int) (dc_bit n i : Nat) : Page where
  body := [.ADDI 2 0 (setupVal byte_val dc_bit i), .SW 2 0 GPIO_OUT, .ADDI 2 0 (setupVal byte_val dc_bit i ||| 1 : Nat),
    .SW 2 0 GPIO_OUT]
  ending := .switch_to ((n + i + 1 : Nat) : Int) none

/-- The pages of a byte, from page `n` on. -/
def bytePages (byte_val : Int) (dc_bit n : Nat) : List Page := (List.range 8).map (bitPage byte_val dc_bit n)

/-- The pages of bytes one after the other, from page `n` on. -/
def bytesPages (n : Nat) : List (Int × Nat) → List Page
  | [] => []
  | (byte_val, dc_bit) :: bytes => bytePages byte_val dc_bit n ++ bytesPages (n + 8) bytes

variable (c : Config)

def initPage : Page where
  body := [.ADDI 0 0 0, .ADDI 2 0 0, .SW 2 0 GPIO_OUT] ++ constCalls 5 8 (pixel_count c)
  ending := .switch_to 1 none

def delayPage (next_page : Int) : Page where
  body := [.ADDI 2 0 (delay_count c), .label "DELAY_LOOP", .BEQ 2 0 "DELAY_DONE", .ADDI 2 2 (-1),
    .JAL 0 "DELAY_LOOP", .label "DELAY_DONE"]
  ending := .switch_to next_page none

def controlPage : Page where
  body := [.ADDI 5 5 (-1), .BNE 5 0 "NOT_DONE", .ADDI 30 0 DONE_PAGE, .JAL 0 "CONVERGE", .label "NOT_DONE",
    .ADDI 30 0 RING_START, .label "CONVERGE"]
  ending := .switch_to_computed none

def donePage : Page where
  body := [.label "SPIN", .JAL 0 "SPIN"]
  ending := .finalize_last_page none

/-- What the driver sends before the pixels: each byte with its DC bit. The delays are after the first byte and
after the second one. -/
def initBytes : List (Int × Nat) :=
  [(0x3A, DC_CMD), (0x05, DC_DATA), (0x36, DC_CMD), (c.MADCTL_VALUE, DC_DATA),
    (0x2A, DC_CMD), (0, DC_DATA), (0, DC_DATA), ((c.PANEL_WIDTH - 1) >>> (8 : Nat), DC_DATA),
      (lowBits (c.PANEL_WIDTH - 1) 8, DC_DATA),
    (0x2B, DC_CMD), (0, DC_DATA), (0, DC_DATA), ((c.PANEL_HEIGHT - 1) >>> (8 : Nat), DC_DATA),
      (lowBits (c.PANEL_HEIGHT - 1) 8, DC_DATA),
    (0x29, DC_CMD), (0x2C, DC_CMD)]

/-- The two bytes of the colour. -/
def colorBytes : List (Int × Nat) :=
  [(lowBits (c.FILL_COLOR >>> (8 : Nat)) 8, DC_DATA), (lowBits c.FILL_COLOR 8, DC_DATA)]

/-- The pages after page 0. -/
def pagesFrom1 : List Page :=
  bytesPages 1 [(0x01, DC_CMD)] ++ delayPage c 10 :: bytesPages 10 [(0x11, DC_CMD)] ++ delayPage c 19 ::
    bytesPages 19 (initBytes c) ++ bytesPages 147 (colorBytes c) ++ [controlPage, donePage]

/-- All 165 pages. -/
def pages : List Page := initPage c :: pagesFrom1 c

end St7789

end Pineapple
