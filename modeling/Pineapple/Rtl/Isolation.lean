import Pineapple.Boot.Host
import Pineapple.Rtl.External

/-!
# The on-chip bytes behind the load window

With `FLASH_MODE` set, the 44 RAM bytes at 0xB4-0xDF are out of reach for every access that starts at their
addresses. What is left to say is which accesses reach them from below.
-/

namespace Pineapple

namespace MemRegs

/-- Two states that differ at most in the 44 bytes at 0xB4-0xDF, the entries 1 to 11 of the array. -/
structure SameOutside (m m' : MemRegs) : Prop where
  words : ∀ i, i = 0 ∨ i.ult NWORDS = false → m'.ram_words i = m.ram_words i
  gpio_out : m'.gpio_out = m.gpio_out
  flash_mode : m'.flash_mode = m.flash_mode
  flash_page : m'.flash_page = m.flash_page

/-- The 44 bytes of two states are the same. -/
def SameWindow (m m' : MemRegs) : Prop := ∀ a, 0xB4 ≤ a → a ≤ 0xDF → m'.ramByte a = m.ramByte a

end MemRegs

/-- An access of the core: a word store is aligned; a word read may be a fetch, from any address. -/
structure Bus.CoreAccess (b : Bus) : Prop where
  valid : b.valid = true
  aligned : b.we = true → nbytes b.size = 4 → b.addr.toNat % 4 = 0

/-- The access starts at 0xB0-0xB3 and ends beyond: a half-word at 0xB3, or a word read from 0xB1-0xB3. -/
def Bus.Straddles (b : Bus) : Prop :=
  0xB0 ≤ b.addr.toNat ∧ b.addr.toNat ≤ 0xB3 ∧ 0xB4 < b.addr.toNat + nbytes b.size

instance (b : Bus) : Decidable b.Straddles := inferInstanceAs (Decidable (_ ∧ _ ∧ _))

/-- The access `b` neither changes the 44 bytes nor, if it is a read, returns a value that depends on them. -/
structure MemRegs.IsolatedAt (m : MemRegs) (rom : Rom) (b : Bus) : Prop where
  kept : m.SameWindow (m.afterBus b)
  independent : b.we = false → ∀ m', m.SameOutside m' → ∀ gpio_in ext,
    (m'.rdata b.addr rom gpio_in ext).extractLsb' 0 (8 * nbytes b.size) =
      (m.rdata b.addr rom gpio_in ext).extractLsb' 0 (8 * nbytes b.size)

/-- Two chips that differ at most in the 44 bytes. -/
structure Top.SameOutside (s s' : Top) : Prop where
  core : s'.core = s.core
  u_qspi : s'.mem.u_qspi = s.mem.u_qspi
  regs : s.mem.toMemRegs.SameOutside s'.mem.toMemRegs

end Pineapple
