import Mathlib.Tactic.Common
import Pineapple.Rtl.External

/-!
# Proofs: the address decode of `mem.v`

The decode wires as conditions on the address as a number, the request they produce, and the effect of
the write path on the registers that steer them.
-/

namespace Pineapple

section Decode

variable (addr : BitVec 8)

theorem in_ext_psram_iff : in_ext_psram addr = true ↔ MemRegs.InPsram addr := by
  rw [in_ext_psram, Bool.and_eq_true, BitVec.ule_iff_le, BitVec.ult_iff_lt]
  show 224 ≤ addr.toNat ∧ addr.toNat < 240 ↔ 224 ≤ addr.toNat ∧ addr.toNat ≤ 239
  omega

theorem in_load_range_iff : in_load_range addr = true ↔ 0xB4 ≤ addr.toNat ∧ addr.toNat ≤ 0xDF := by
  rw [in_load_range, Bool.and_eq_true, BitVec.ule_iff_le, BitVec.ult_iff_lt]
  show 180 ≤ addr.toNat ∧ addr.toNat < 224 ↔ _
  omega

theorem in_ram_range_iff : in_ram_range addr = true ↔ 0xB0 ≤ addr.toNat ∧ addr.toNat ≤ 0xDF := by
  rw [in_ram_range, Bool.and_eq_true, BitVec.ule_iff_le, BitVec.ult_iff_lt]
  show 176 ≤ addr.toNat ∧ addr.toNat < 224 ↔ _
  omega

theorem in_rom_iff : in_rom addr = true ↔ addr.toNat < 0xB0 := by
  rw [in_rom, BitVec.ult_iff_lt]
  exact Iff.rfl

end Decode

namespace MemRegs

variable (m : MemRegs) (addr : BitVec 8)

theorem in_ext_flash_iff : m.in_ext_flash addr = true ↔ m.InFlash addr := by
  rw [in_ext_flash, Bool.and_eq_true, in_load_range_iff, InFlash]

theorem in_ext_iff : m.in_ext addr = true ↔ m.External addr := by
  rw [in_ext, Bool.or_eq_true, in_ext_flash_iff, in_ext_psram_iff, External, or_comm]

theorem flash_page_base_toNat : m.flash_page_base.toNat = m.flash_page.toNat * 44 := by
  have hp := m.flash_page.isLt
  have hw : (WINDOW_BYTES.setWidth 24).toNat = 44 := rfl
  rw [flash_page_base, BitVec.toNat_mul, hw, BitVec.toNat_setWidth]
  omega

theorem ext_addr_flash (h : m.in_ext_flash addr = true) :
    (m.ext_addr addr).toNat = m.flash_page.toNat * 44 + (addr.toNat - 0xB4) := by
  obtain ⟨-, hlo, hhi⟩ := (m.in_ext_flash_iff addr).mp h
  have hp := m.flash_page.isLt
  have hb := m.flash_page_base_toNat
  have hs : ((addr - LOAD_BASE).setWidth 24).toNat = addr.toNat - 0xB4 := by
    rw [BitVec.toNat_setWidth, BitVec.toNat_sub]
    show (2 ^ 8 - 180 + addr.toNat) % 2 ^ 8 % 2 ^ 24 = _
    omega
  rw [ext_addr, if_pos h, BitVec.toNat_add, hb, hs]
  omega

theorem ext_addr_psram (h : m.in_ext_flash addr = false) (hp : in_ext_psram addr = true) :
    (m.ext_addr addr).toNat = addr.toNat - 0xE0 := by
  obtain ⟨hlo, hhi⟩ := (in_ext_psram_iff addr).mp hp
  rw [ext_addr, h, if_neg Bool.false_ne_true, BitVec.toNat_setWidth, BitVec.toNat_sub]
  show (2 ^ 8 - 224 + addr.toNat) % 2 ^ 8 % 2 ^ 24 = _
  omega

/-- The PSRAM window and the load window are disjoint. -/
theorem in_ext_flash_of_psram (h : 0xE0 ≤ addr.toNat) : m.in_ext_flash addr = false := by
  rw [Bool.eq_false_iff, ne_eq, in_ext_flash_iff, InFlash]
  omega

theorem stall_of_in_ext {size : BitVec 2} (h : m.in_ext addr = true) :
    m.stall addr size = 2 * (32 + 8 * nbytes size) + 2 := if_pos ((m.in_ext_iff addr).mp h)

theorem stall_of_not_in_ext {size : BitVec 2} (h : m.in_ext addr = false) : m.stall addr size = 0 := by
  rw [stall, if_neg]
  rw [← in_ext_iff, h]
  exact Bool.false_ne_true

/-- No register of `mem.v` is behind an external address. -/
theorem write_of_in_ext (wdata : BitVec 32) (size : BitVec 2) (h : m.in_ext addr = true) :
    m.write addr wdata size = m := by
  have hext := (m.in_ext_iff addr).mp h
  have hram : (in_ram_range addr && !m.in_ext_flash addr) = false := by
    by_cases hf : m.in_ext_flash addr = true
    · simp [hf]
    · have hr : ¬ in_ram_range addr = true := by
        rw [in_ram_range_iff]
        rw [in_ext_flash_iff] at hf
        rcases hext with h | h
        · unfold InPsram at h
          omega
        · exact absurd h hf
      simp [hr]
  have hne : ∀ v : BitVec 8, 0xF0 ≤ v.toNat → addr ≠ v := by
    rintro v hv rfl
    rcases hext with h | h
    · unfold InPsram at h
      omega
    · unfold InFlash at h
      omega
  rw [write, hram, if_neg Bool.false_ne_true, if_neg (hne _ (by decide)), if_neg (hne _ (by decide)),
    if_neg (hne _ (by decide))]

/-- An external read returns the engine's data. -/
theorem rdata_of_external (rom : Rom) (gpio_in : BitVec 8) (v : BitVec 32) (h : m.External addr) :
    m.rdata addr rom gpio_in v = v := by
  have hext : m.in_ext addr = true := (m.in_ext_iff addr).mpr h
  have hrom : in_rom addr = false := by
    rw [Bool.eq_false_iff, ne_eq, in_rom_iff]
    rcases h with h | h
    · unfold InPsram at h
      omega
    · unfold InFlash at h
      omega
  have hram : m.in_ram addr = false := by
    rw [in_ram]
    rcases h with h | h
    · have : in_ram_range addr = false := by
        rw [Bool.eq_false_iff, ne_eq, in_ram_range_iff]
        unfold InPsram at h
        omega
      rw [this, Bool.false_and]
    · rw [(m.in_ext_flash_iff addr).mpr h, Bool.not_true, Bool.and_false]
  rw [rdata, hrom, hram, hext]
  rfl

/-- Any other read does not. -/
theorem rdata_of_not_external (rom : Rom) (gpio_in : BitVec 8) (v v' : BitVec 32)
    (h : ¬ m.External addr) : m.rdata addr rom gpio_in v = m.rdata addr rom gpio_in v' := by
  have hext : m.in_ext addr = false := by
    rw [Bool.eq_false_iff, ne_eq, in_ext_iff]
    exact h
  rw [rdata, rdata, hext]
  rfl

end MemRegs

/-! ## What a store changes -/

namespace MemRegs

variable (m : MemRegs) (addr : BitVec 8) (v : BitVec 32) (size : BitVec 2)

theorem setWord_eq (i : BitVec 4) (w : BitVec 32) : ∃ ws, m.setWord i w = { m with ram_words := ws } := by
  unfold setWord
  split
  · exact ⟨_, rfl⟩
  · exact ⟨m.ram_words, rfl⟩

/-- The RAM branch changes the RAM only. -/
theorem writeRam_eq : ∃ ws, m.writeRam addr v size = { m with ram_words := ws } := by
  unfold writeRam
  dsimp only
  split
  · exact m.setWord_eq _ _
  · split
    · obtain ⟨ws, h⟩ := m.setWord_eq (ram_widx0 addr)
        (putBits (m.ram_words (ram_widx0 addr)) 3 (v.extractLsb' 0 8))
      rw [h]
      exact setWord_eq _ _ _
    · exact m.setWord_eq _ _
  · exact m.setWord_eq _ _

variable {addr} in
/-- A store that hits neither `FLASH_MODE` nor `FLASH_PAGE` leaves both alone. -/
theorem write_flash (h8 : addr ≠ 0xF8) (hC : addr ≠ 0xFC) :
    (m.write addr v size).flash_mode = m.flash_mode ∧
      (m.write addr v size).flash_page = m.flash_page := by
  obtain ⟨ws, hram⟩ := m.writeRam_eq addr v size
  rw [write, if_neg h8, if_neg hC, hram]
  split
  · exact ⟨rfl, rfl⟩
  · split <;> exact ⟨rfl, rfl⟩

/-- FLASH_MODE is sticky. -/
theorem write_flash_mode (h : m.flash_mode = true) : (m.write addr v size).flash_mode = true := by
  obtain ⟨ws, hram⟩ := m.writeRam_eq addr v size
  rw [write, hram]
  repeat' split
  all_goals first
    | exact h
    | rfl

/-- `gpio_out` changes only in a store to GPIO_OUT. -/
theorem write_gpio : (m.write addr v size).gpio_out =
    if addr = 0xF0 then v.extractLsb' 0 8 else m.gpio_out := by
  by_cases h0 : addr = 0xF0
  · subst h0
    rw [write, show in_ram_range 0xF0 = false by decide, Bool.false_and, if_neg (by decide), if_pos rfl,
      if_pos rfl]
  · obtain ⟨ws, hram⟩ := m.writeRam_eq addr v size
    rw [write, if_neg h0, if_neg h0, hram]
    split
    · rfl
    · split
      · rfl
      · split <;> rfl

end MemRegs

/-- The request `mem.v` presents for an external access. -/
theorem Mem.asks_req {m : Mem} {b : Bus} (hv : b.valid = true) (h : m.in_ext b.addr = true) :
    m.Asks b (m.req b) where
  valid := by simp [Mem.req, hv, h]
  size := rfl
  wdata := rfl
  psram := by
    intro hlo
    have hf := m.in_ext_flash_of_psram b.addr hlo
    have hp : in_ext_psram b.addr = true := by
      rwa [MemRegs.in_ext, hf, Bool.false_or] at h
    exact ⟨by simp [Mem.req, MemRegs.req_dev, hf], m.ext_addr_psram b.addr hf hp,
      by simp [Mem.req, hf]⟩
  flash := by
    intro hlo
    have hp : in_ext_psram b.addr = false := by
      rw [Bool.eq_false_iff, ne_eq, in_ext_psram_iff, MemRegs.InPsram]; omega
    have hf : m.in_ext_flash b.addr = true := by
      rwa [MemRegs.in_ext, hp, Bool.or_false] at h
    exact ⟨by simp [Mem.req, MemRegs.req_dev, hf], m.ext_addr_flash b.addr hf,
      by simp [Mem.req, hf]⟩

end Pineapple
