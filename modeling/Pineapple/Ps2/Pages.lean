import Pineapple.Paged.Program
import Pineapple.Ps2.Program

/-!
# The pages of the PS/2 readers

The pages that the scripts make. Pages 1 to 22 are the same in both readers; page `n` waits for phase `n - 1` of a
frame, the low ones of which have odd numbers here.
-/

namespace Pineapple

namespace Ps2

def waitPage (level : Nat) (next_page : Int) : Page where
  body := [.label "POLL", .LBU 1 0 GPIO_IN, .ANDI 2 1 CLOCK_MASK,
    if level = 0 then .BNE 2 0 "POLL" else .BEQ 2 0 "POLL"]
  ending := .switch_to next_page none

def samplePage (bit_value next_page : Int) : Page where
  body := [.label "POLL", .LBU 1 0 GPIO_IN, .ANDI 2 1 CLOCK_MASK, .BNE 2 0 "POLL", .ANDI 3 1 DATA_MASK,
    .BEQ 3 0 "SKIP_SET", .ORI ACCUM ACCUM bit_value, .label "SKIP_SET"]
  ending := .switch_to next_page none

/-- Page `n` samples a bit of the scancode. -/
def samples (n : Nat) : Prop := n % 2 = 1 ∧ 3 ≤ n ∧ n ≤ 17

instance (n : Nat) : Decidable (samples n) := inferInstanceAs (Decidable (_ ∧ _ ∧ _))

def receivePage (n : Nat) : Page :=
  if samples n then samplePage (1 <<< ((n - 3) / 2)) ((n + 1 : Nat) : Int)
  else waitPage ((n + 1) % 2) ((n + 1 : Nat) : Int)

def receivePages : List Page := (List.range 22).map fun k => receivePage (k + 1)

namespace Reader

def initPage : Page := ⟨[.ADDI 0 0 0, .ADDI ACCUM 0 0], .switch_to 1 none⟩

def resultPage : Page := ⟨[.SW ACCUM 0 GPIO_OUT, .ADDI ACCUM 0 0], .switch_to 1 none⟩

def pages : List Page := initPage :: (receivePages ++ [resultPage])

end Reader

namespace Ascii

def initPage : Page :=
  ⟨[.ADDI 0 0 0, .ADDI ACCUM 0 0, .ADDI BREAK_PENDING 0 0, .ADDI EXT_PENDING 0 0], .switch_to 1 none⟩

def bpPage : Page where
  body := [.BEQ BREAK_PENDING 0 "NOT_BP", .ADDI BREAK_PENDING 0 0, .ADDI EXT_PENDING 0 0, .ADDI ACCUM 0 0,
    .ADDI 30 0 1, .JAL 0 "CONVERGE", .label "NOT_BP", .ADDI 30 0 PROCESS_F0, .label "CONVERGE"]
  ending := .switch_to_computed none

/-- The pages of the two prefixes: the byte is compared with `code`, and the flag is set if it is equal. -/
def codePage (code : Int) (label : String) (flag : Nat) (next_page : Int) : Page where
  body := [.ADDI 7 0 code, .BEQ ACCUM 7 label, .ADDI 30 0 next_page, .JAL 0 "CONVERGE", .label label,
    .ADDI flag 0 1, .ADDI ACCUM 0 0, .ADDI 30 0 1, .label "CONVERGE"]
  ending := .switch_to_computed none

def f0Page : Page := codePage 0xF0 "IS_F0" BREAK_PENDING PROCESS_E0
def e0Page : Page := codePage 0xE0 "IS_E0" EXT_PENDING PROCESS_EXTCHECK

def extcheckPage : Page where
  body := [.BEQ EXT_PENDING 0 "NOT_EP", .ADDI EXT_PENDING 0 0, .ADDI ACCUM 0 0, .ADDI 30 0 1, .JAL 0 "CONVERGE",
    .label "NOT_EP", .ADDI 30 0 PROCESS_DISPATCH, .label "CONVERGE"]
  ending := .switch_to_computed none

def dispatchPage : Page where
  body := [.ADDI 7 0 MAX_SAFE_SCANCODE, .BLT 7 ACCUM "OUT_OF_RANGE", .ADDI 7 0 TABLE_START, .ADD 30 ACCUM 7,
    .JAL 0 "CONVERGE", .label "OUT_OF_RANGE", .ADDI 30 0 TABLE_START, .label "CONVERGE"]
  ending := .switch_to_computed none

def emitPage : Page := ⟨[.SW 8 0 GPIO_OUT, .ADDI ACCUM 0 0], .switch_to 1 none⟩

def tablePage (scancode : Nat) : Page := ⟨[.ADDI 8 0 (ascii_val scancode)], .switch_to EMIT_PAGE none⟩

def tablePages : List Page := (List.range (MAX_SAFE_SCANCODE + 1)).map tablePage

def processPages : List Page := [bpPage, f0Page, e0Page, extcheckPage, dispatchPage, emitPage]

def pages : List Page := initPage :: (receivePages ++ (processPages ++ tablePages))

end Ascii

end Ps2

end Pineapple
