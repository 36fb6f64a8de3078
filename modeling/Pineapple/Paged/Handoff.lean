import Pineapple.Boot.Host
import Pineapple.Machine.Gpio
import Pineapple.Paged.Machine

/-!
# `build_flash_handoff_stub.py`

The program of one instruction that is sent to the boot ROM for a program in the flash. It sets FLASH_MODE, so the
next instruction comes from the flash.
-/

namespace Pineapple

namespace Paged

def FLASH_MODE : Int := 0xF8

/-- The bytes of the stub. -/
def handoff_stub : Except PyError (List (BitVec 8)) := do
  let words ← ((Asm.new 0).SW 0 0 FLASH_MODE).finalize
  let prog_bytes ← words_to_bytes words
  if prog_bytes.length ≤ 44 then .ok prog_bytes else .error (.assertion "")

/-- The bytes that are sent. -/
def stub : List (BitVec 8) := [0x23, 0x2C, 0x00, 0x0E]

example : handoff_stub = .ok stub := by decide

/-- In cycle `T` the stub has handed over to the flash: it is the first fetch with FLASH_MODE set. -/
structure HandsOver (s : Nat → Top) (T : Nat) : Prop where
  fetch : (s T).core.state = .fetch
  handed : HandedOff (s T).arch
  first : ∀ τ < T, (s τ).core.state = .fetch → (s τ).mem.flash_mode = false

/-- The host of the stub. -/
abbrev SendsStub (ui_in : Nat → BitVec 8) (S : Nat) (rise fall : Nat → Nat) : Prop :=
  Boot.Sends ui_in (BitVec.ofNat 8 stub.length :: stub) S rise fall

end Paged

end Pineapple
