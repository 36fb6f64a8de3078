import Pineapple.Rtl.Mem

/-!
# `boot_rom_body.vh`: the boot ROM

The table `mem.v` includes into `rom_word_at`, one 32-bit word per entry.
-/

namespace Pineapple

/-- The words of `boot_rom_body.vh`, from word index 0. -/
def bootRomWords : List (BitVec 32) :=
  [0x0a500113, 0x0e200023, 0x0e004303, 0x00230863, 0x00100413, 0x00741413, 0x0080006f, 0x00000413,
   0x00000493, 0x0f402103, 0x00417113, 0x00011c63, 0x00148493, 0x00f4f493, 0x00946133, 0x0e202823,
   0xfe5ff06f, 0x028000ef, 0x00030233, 0x0b400293, 0x00020c63, 0x018000ef, 0x00628023, 0x00128293,
   0xfff20213, 0xfedff06f, 0x04c0006f, 0x00000313, 0x00000393, 0x0f402103, 0x00217113, 0xfe010ce3,
   0x0f402103, 0x00117113, 0x00131313, 0x00010463, 0x00136313, 0x0f402103, 0x00217113, 0xfe011ce3,
   0x00138393, 0x00800193, 0xfc33c6e3, 0x00008067]

/-- `rom_word_at` of `mem.v`; `default` is the unused ROM space. -/
def bootRom : Rom := fun widx => bootRomWords.getD widx.toNat 0

end Pineapple
