import Mathlib.Tactic.Common
import Pineapple.Boot.Host
import Pineapple.Rtl.Proofs.MemProofs

/-!
# Proofs: byte stores to the on-chip RAM
-/

namespace Pineapple

namespace MemRegs

variable (m : MemRegs)

/-- One byte of a word with a byte replaced. -/
theorem putBits_byte (w : BitVec 32) (off : BitVec 2) (v : BitVec 8) {k : Nat} (hk : k < 4) :
    (putBits w off v).extractLsb' (8 * k) 8 =
      if k = off.toNat then v else w.extractLsb' (8 * k) 8 := by
  have hoff := off.isLt
  apply BitVec.eq_of_getLsbD_eq
  intro i hi
  have hmask : ((BitVec.allOnes 8).setWidth 32 <<< (off.toNat * 8)).getLsbD (8 * k + i) =
      decide (k = off.toNat) := by
    rw [BitVec.getLsbD_shiftLeft, BitVec.getLsbD_setWidth, BitVec.getLsbD_allOnes,
      decide_eq_true (show 8 * k + i < 32 by omega), Bool.true_and]
    rw [← Bool.coe_iff_coe]
    simp only [Bool.and_eq_true, Bool.not_eq_true', decide_eq_true_eq, decide_eq_false_iff_not]
    omega
  have hval : (v.setWidth 32 <<< (off.toNat * 8)).getLsbD (8 * k + i) =
      (decide (k = off.toNat) && v.getLsbD i) := by
    rw [BitVec.getLsbD_shiftLeft, BitVec.getLsbD_setWidth]
    by_cases h : k = off.toNat
    · simp [h, show 8 * off.toNat + i < 32 by omega, show ¬ 8 * off.toNat + i < off.toNat * 8 by omega,
        show 8 * off.toNat + i - off.toNat * 8 = i by omega, show i < 32 by omega]
    · rw [decide_eq_false h, Bool.false_and]
      by_cases hlt : 8 * k + i < off.toNat * 8
      · simp [hlt]
      · simp [BitVec.getLsbD_of_ge v (8 * k + i - off.toNat * 8) (by omega)]
  rw [BitVec.getLsbD_extractLsb', decide_eq_true hi, Bool.true_and, putBits, BitVec.getLsbD_or,
    BitVec.getLsbD_and, BitVec.getLsbD_not, hmask, hval]
  by_cases h : k = off.toNat
  · simp [h]
  · simp [h, hi, show 8 * k + i < 32 by omega]

variable {m} {addr : BitVec 8}

/-- A byte store to the RAM writes one entry of `ram_words`. -/
theorem write_byte_eq (hmode : m.flash_mode = false) (h1 : 0xB0 ≤ addr.toNat) (h2 : addr.toNat ≤ 0xDF)
    (v : BitVec 32) :
    let i : BitVec 4 := BitVec.ofNat 4 ((addr.toNat - 0xB0) / 4)
    let off : BitVec 2 := BitVec.ofNat 2 ((addr.toNat - 0xB0) % 4)
    let w := putBits (m.ram_words i) off (v.extractLsb' 0 8)
    m.write addr v 0 = { m with ram_words := Function.update m.ram_words i w } := by
  intro i off w
  have hram : in_ram_range addr = true := (in_ram_range_iff _).mpr ⟨h1, h2⟩
  have hflash : m.in_ext_flash addr = false := by rw [in_ext_flash, hmode, Bool.false_and]
  have hoff : (addr - RAM_BASE).toNat = addr.toNat - 0xB0 := by
    rw [BitVec.toNat_sub]
    show (2 ^ 8 - 176 + addr.toNat) % 2 ^ 8 = _
    omega
  have hra : (ram_addr addr).toNat = addr.toNat - 0xB0 := by
    rw [ram_addr, BitVec.extractLsb'_toNat, hoff]
    omega
  have hw : ram_widx0 addr = i := by
    apply BitVec.eq_of_toNat_eq
    rw [ram_widx0, BitVec.extractLsb'_toNat, hra, BitVec.toNat_ofNat, Nat.shiftRight_eq_div_pow]
  have hb : ram_byte_off addr = off := by
    apply BitVec.eq_of_toNat_eq
    rw [ram_byte_off, BitVec.extractLsb'_toNat, hra, BitVec.toNat_ofNat, Nat.shiftRight_zero]
    omega
  have hlt : i.ult NWORDS = true := by
    rw [BitVec.ult_iff_lt, BitVec.lt_def, BitVec.toNat_ofNat]
    show _ < 12
    omega
  rw [write, hram, hflash, if_pos (by decide)]
  show m.setWord (ram_widx0 addr)
    (putBits (m.ram_words (ram_widx0 addr)) (ram_byte_off addr) (v.extractLsb' 0 8)) = _
  rw [hw, hb, setWord, if_pos hlt]

/-- A byte store to the RAM leaves the other registers alone. -/
theorem write_byte_regs (hmode : m.flash_mode = false) (h1 : 0xB0 ≤ addr.toNat)
    (h2 : addr.toNat ≤ 0xDF) (v : BitVec 32) :
    (m.write addr v 0).flash_mode = m.flash_mode ∧ (m.write addr v 0).flash_page = m.flash_page := by
  rw [write_byte_eq hmode h1 h2]
  exact ⟨rfl, rfl⟩

/-- The RAM after a byte store. -/
theorem ramByte_write (hmode : m.flash_mode = false) (h1 : 0xB0 ≤ addr.toNat) (h2 : addr.toNat ≤ 0xDF)
    (v : BitVec 32) {b : Nat} (hb1 : 0xB0 ≤ b) (hb2 : b ≤ 0xDF) :
    (m.write addr v 0).ramByte b = if b = addr.toNat then v.extractLsb' 0 8 else m.ramByte b := by
  rw [write_byte_eq hmode h1 h2, ramByte, ramByte]
  dsimp only
  by_cases hw : (b - 0xB0) / 4 = (addr.toNat - 0xB0) / 4
  · have hk : (BitVec.ofNat 2 ((addr.toNat - 0xB0) % 4)).toNat = (addr.toNat - 0xB0) % 4 := by
      rw [BitVec.toNat_ofNat]
      omega
    rw [hw, Function.update_self, putBits_byte _ _ _ (by omega), hk]
    by_cases h : b = addr.toNat
    · rw [if_pos h, if_pos (by rw [h])]
    · rw [if_neg h, if_neg (by omega)]
  · have hne : BitVec.ofNat 4 ((b - 0xB0) / 4) ≠ BitVec.ofNat 4 ((addr.toNat - 0xB0) / 4) := by
      intro h
      have := congrArg BitVec.toNat h
      rw [BitVec.toNat_ofNat, BitVec.toNat_ofNat] at this
      omega
    rw [Function.update_of_ne hne, if_neg (by omega)]

end MemRegs

end Pineapple
