import Mathlib.Tactic.IntervalCases
import Pineapple.Rtl.BootRom
import Pineapple.Rtl.ByteMap
import Pineapple.Rtl.Proofs.StallProofs

/-!
# Proofs: the words of `mem.v` are bytes

The part-selects of the read path and of the write path byte by byte, for every offset and size. A store is
then a store of the byte map, and a run a sequence of them.
-/

namespace Pineapple

open Bits

/-! ## Part-selects -/

/-- A field of a field. -/
theorem extract_extract {w n : Nat} (v : BitVec w) (s i l : Nat) (h : i + l ≤ n) :
    (v.extractLsb' s n).extractLsb' i l = v.extractLsb' (s + i) l := by
  apply BitVec.eq_of_getLsbD_eq
  intro j hj
  rw [BitVec.getLsbD_extractLsb', BitVec.getLsbD_extractLsb', BitVec.getLsbD_extractLsb',
    decide_eq_true (show i + j < n by omega), Bool.true_and, Nat.add_assoc]

/-- A byte of the 32 bits at an offset of a pair of words. -/
theorem pair_word_byte (w1 w0 : BitVec 32) (off : BitVec 2) {k : Nat} (hk : k < 4) :
    (pair_word w1 w0 off).extractLsb' (8 * k) 8 =
      if off.toNat + k < 4 then w0.extractLsb' (8 * (off.toNat + k)) 8
      else w1.extractLsb' (8 * (off.toNat + k - 4)) 8 := by
  have hoff := off.isLt
  apply BitVec.eq_of_getLsbD_eq
  intro i hi
  rw [pair_word, BitVec.getLsbD_extractLsb', decide_eq_true hi, Bool.true_and, BitVec.getLsbD_extractLsb',
    decide_eq_true (show 8 * k + i < 32 by omega), Bool.true_and, BitVec.getLsbD_append]
  by_cases h : off.toNat + k < 4
  · rw [if_pos (by omega), if_pos h, BitVec.getLsbD_extractLsb', decide_eq_true hi, Bool.true_and]
    congr 1
    omega
  · rw [if_neg (by omega), if_neg h, BitVec.getLsbD_extractLsb', decide_eq_true hi, Bool.true_and]
    congr 1
    omega

namespace MemRegs

/-- A byte of a word with `j` bytes replaced. -/
theorem putBits_bytes (w : BitVec 32) (off : BitVec 2) (j : Nat) (v : BitVec (8 * j)) {k : Nat} (hk : k < 4) :
    (putBits w off v).extractLsb' (8 * k) 8 =
      if off.toNat ≤ k ∧ k < off.toNat + j then v.extractLsb' (8 * (k - off.toNat)) 8
      else w.extractLsb' (8 * k) 8 := by
  have hoff := off.isLt
  apply BitVec.eq_of_getLsbD_eq
  intro i hi
  have hmask : ((BitVec.allOnes (8 * j)).setWidth 32 <<< (off.toNat * 8)).getLsbD (8 * k + i) =
      decide (off.toNat ≤ k ∧ k < off.toNat + j) := by
    rw [BitVec.getLsbD_shiftLeft, BitVec.getLsbD_setWidth, BitVec.getLsbD_allOnes,
      decide_eq_true (show 8 * k + i < 32 by omega), Bool.true_and]
    rw [← Bool.coe_iff_coe]
    simp only [Bool.and_eq_true, Bool.not_eq_true', decide_eq_true_eq, decide_eq_false_iff_not]
    omega
  have hval : (v.setWidth 32 <<< (off.toNat * 8)).getLsbD (8 * k + i) =
      (decide (off.toNat ≤ k ∧ k < off.toNat + j) && v.getLsbD (8 * (k - off.toNat) + i)) := by
    rw [BitVec.getLsbD_shiftLeft, BitVec.getLsbD_setWidth, decide_eq_true (show 8 * k + i < 32 by omega),
      Bool.true_and]
    by_cases h1 : off.toNat ≤ k
    · rw [decide_eq_false (show ¬ 8 * k + i < off.toNat * 8 by omega),
        decide_eq_true (show 8 * k + i - off.toNat * 8 < 32 by omega),
        show 8 * k + i - off.toNat * 8 = 8 * (k - off.toNat) + i by omega]
      by_cases h2 : k < off.toNat + j
      · simp [h1, h2]
      · simp [h2, BitVec.getLsbD_of_ge v (8 * (k - off.toNat) + i) (by omega)]
    · simp [h1, show 8 * k + i < off.toNat * 8 by omega]
  rw [BitVec.getLsbD_extractLsb', decide_eq_true hi, Bool.true_and, putBits, BitVec.getLsbD_or,
    BitVec.getLsbD_and, BitVec.getLsbD_not, hmask, hval]
  by_cases h : off.toNat ≤ k ∧ k < off.toNat + j
  · simp [h, hi]
  · simp [h, hi, show 8 * k + i < 32 by omega]

/-! ## The RAM -/

section Ram

variable {m : MemRegs} {addr : BitVec 8}

/-- The words and the offset of a RAM address. -/
theorem ram_index (h1 : 0xB0 ≤ addr.toNat) (h2 : addr.toNat ≤ 0xDF) :
    ram_widx0 addr = BitVec.ofNat 4 ((addr.toNat - 0xB0) / 4) ∧
      ram_widx1 addr = BitVec.ofNat 4 ((addr.toNat - 0xB0) / 4 + 1) ∧
      (ram_byte_off addr).toNat = (addr.toNat - 0xB0) % 4 := by
  have hra : (ram_addr addr).toNat = addr.toNat - 0xB0 := by
    have hsub : (addr - RAM_BASE).toNat = addr.toNat - 0xB0 := by
      rw [BitVec.toNat_sub]
      show (2 ^ 8 - 176 + addr.toNat) % 2 ^ 8 = _
      omega
    rw [ram_addr, BitVec.extractLsb'_toNat, hsub, Nat.shiftRight_zero]
    omega
  have hw : ram_widx0 addr = BitVec.ofNat 4 ((addr.toNat - 0xB0) / 4) := by
    apply BitVec.eq_of_toNat_eq
    rw [ram_widx0, BitVec.extractLsb'_toNat, hra, BitVec.toNat_ofNat, Nat.shiftRight_eq_div_pow]
  refine ⟨hw, ?_, ?_⟩
  · rw [ram_widx1, show (ram_addr addr).extractLsb' 2 4 = _ from hw, BitVec.ofNat_add]
    rfl
  · rw [ram_byte_off, BitVec.extractLsb'_toNat, hra, Nat.shiftRight_zero]

/-- A byte of the word that starts at a RAM address. -/
theorem ram_word_byte (h1 : 0xB0 ≤ addr.toNat) {k : Nat} (hk : k < 4) (h2 : addr.toNat + k ≤ 0xDF) :
    (m.ram_word addr).extractLsb' (8 * k) 8 = m.ramByte (addr.toNat + k) := by
  obtain ⟨hw0, hw1, hoff⟩ := ram_index h1 (by omega)
  rw [ram_word, pair_word_byte _ _ _ hk, hoff, hw0, hw1, ramByte]
  split
  · rw [show (addr.toNat + k - 0xB0) / 4 = (addr.toNat - 0xB0) / 4 by omega,
      show (addr.toNat + k - 0xB0) % 4 = (addr.toNat - 0xB0) % 4 + k by omega]
  · rw [show (addr.toNat + k - 0xB0) / 4 = (addr.toNat - 0xB0) / 4 + 1 by omega,
      show (addr.toNat + k - 0xB0) % 4 = (addr.toNat - 0xB0) % 4 + k - 4 by omega]

/-- The bytes after a write to one entry of the array. -/
theorem ramByte_setWord (n : Nat) (hn : n < 16) (w : BitVec 32) {b : Nat} (h1 : 0xB0 ≤ b) (h2 : b ≤ 0xDF) :
    (m.setWord (BitVec.ofNat 4 n) w).ramByte b =
      if (b - 0xB0) / 4 = n then w.extractLsb' (8 * ((b - 0xB0) % 4)) 8 else m.ramByte b := by
  by_cases hb : (b - 0xB0) / 4 = n
  · have hlt : (BitVec.ofNat 4 n).ult NWORDS = true := by
      rw [BitVec.ult_iff_lt, BitVec.lt_def, BitVec.toNat_ofNat]
      show _ < 12
      omega
    rw [if_pos hb, setWord, if_pos hlt, ramByte]
    dsimp only
    rw [hb, Function.update_self]
  · have hne : BitVec.ofNat 4 ((b - 0xB0) / 4) ≠ BitVec.ofNat 4 n := by
      intro h
      have := congrArg BitVec.toNat h
      rw [BitVec.toNat_ofNat, BitVec.toNat_ofNat] at this
      omega
    rw [if_neg hb, setWord]
    split
    · rw [ramByte]
      dsimp only
      rw [Function.update_of_ne hne, ramByte]
    · rfl

theorem writeRam_byte (wdata : BitVec 32) : m.writeRam addr wdata 0 = m.setWord (ram_widx0 addr)
    (putBits (m.ram_words (ram_widx0 addr)) (ram_byte_off addr) (wdata.extractLsb' 0 8)) := rfl

theorem writeRam_half (wdata : BitVec 32) (h : ram_byte_off addr ≠ 3) :
    m.writeRam addr wdata 1 = m.setWord (ram_widx0 addr)
      (putBits (m.ram_words (ram_widx0 addr)) (ram_byte_off addr) (wdata.extractLsb' 0 16)) := if_neg h

/-- The half-word that straddles two words. -/
theorem writeRam_straddle (wdata : BitVec 32) (h : ram_byte_off addr = 3) :
    m.writeRam addr wdata 1 = (m.setWord (ram_widx0 addr)
      (putBits (m.ram_words (ram_widx0 addr)) 3 (wdata.extractLsb' 0 8))).setWord (ram_widx1 addr)
      (putBits (m.ram_words (ram_widx1 addr)) 0 (wdata.extractLsb' 8 8)) := if_pos h

theorem writeRam_word (wdata : BitVec 32) {size : BitVec 2} (h0 : size ≠ 0) (h1 : size ≠ 1) :
    m.writeRam addr wdata size = m.setWord (ram_widx0 addr) wdata := by
  unfold writeRam
  split
  · exact absurd rfl h0
  · exact absurd rfl h1
  · rfl

/-- The bytes after one entry of the array got `j` bytes at an offset. -/
theorem ramByte_putBits (n off j : Nat) (hn : n < 16) (o : BitVec 2) (ho : o.toNat = off) (v : BitVec (8 * j))
    (hj : off + j ≤ 4) {b : Nat} (h1 : 0xB0 ≤ b) (h2 : b ≤ 0xDF) :
    (m.setWord (BitVec.ofNat 4 n) (putBits (m.ram_words (BitVec.ofNat 4 n)) o v)).ramByte b =
      if 0xB0 + 4 * n + off ≤ b ∧ b < 0xB0 + 4 * n + off + j then
        v.extractLsb' (8 * (b - (0xB0 + 4 * n + off))) 8
      else m.ramByte b := by
  rw [ramByte_setWord _ hn _ h1 h2]
  split
  · rename_i hb
    rw [putBits_bytes _ _ _ _ (Nat.mod_lt _ (by omega)), ho]
    by_cases h : 0xB0 + 4 * n + off ≤ b ∧ b < 0xB0 + 4 * n + off + j
    · rw [if_pos (by omega), if_pos h, show b - (0xB0 + 4 * n + off) = (b - 0xB0) % 4 - off by omega]
    · rw [if_neg (by omega), if_neg h, ramByte, hb]
  · rw [if_neg (by omega)]

/-- The bytes after a store to the RAM, one case for each branch of the write path. -/
theorem ramByte_writeRam (h1 : 0xB0 ≤ addr.toNat) (h2 : addr.toNat ≤ 0xDF) (wdata : BitVec 32)
    (size : BitVec 2) (hw : nbytes size = 4 → addr.toNat % 4 = 0) {b : Nat} (hb1 : 0xB0 ≤ b) (hb2 : b ≤ 0xDF) :
    (m.writeRam addr wdata size).ramByte b =
      if addr.toNat ≤ b ∧ b < addr.toNat + nbytes size then wdata.extractLsb' (8 * (b - addr.toNat)) 8
      else m.ramByte b := by
  obtain ⟨hw0, hw1, hoff⟩ := ram_index h1 h2
  have haddr : 0xB0 + 4 * ((addr.toNat - 0xB0) / 4) + (addr.toNat - 0xB0) % 4 = addr.toNat := by omega
  rcases nbytes_cases size with ⟨rfl, hn⟩ | ⟨rfl, hn⟩ | ⟨h0, h1', hn⟩ <;> rw [hn]
  · -- SB
    rw [writeRam_byte, hw0, @ramByte_putBits m _ _ 1 (by omega) _ hoff _ (by omega) _ hb1 hb2, haddr]
    split
    · rw [extract_extract _ _ _ _ (by omega), Nat.zero_add]
    · rfl
  · by_cases h3 : (addr.toNat - 0xB0) % 4 = 3
    · -- SH with one byte in each word
      rw [writeRam_straddle _ (BitVec.eq_of_toNat_eq (hoff.trans h3)), hw0, hw1, ramByte_setWord _ (by omega) _ hb1 hb2,
        @ramByte_putBits m _ 3 1 (by omega) 3 rfl _ (by omega) _ hb1 hb2]
      split
      · rename_i hb
        rw [@putBits_bytes _ _ 1 _ _ (Nat.mod_lt _ (by omega)), show (0 : BitVec 2).toNat = 0 from rfl]
        by_cases h : b = addr.toNat + 1
        · rw [if_pos (by omega), if_pos (by omega), extract_extract _ _ _ _ (by omega),
            show 8 + 8 * ((b - 0xB0) % 4 - 0) = 8 * (b - addr.toNat) by omega]
        · rw [if_neg (by omega), if_neg (by omega), ramByte, hb]
      · by_cases h : b = addr.toNat
        · rw [if_pos (by omega), if_pos (by omega), extract_extract _ _ _ _ (by omega),
            show 0 + 8 * (b - (0xB0 + 4 * ((addr.toNat - 0xB0) / 4) + 3)) = 8 * (b - addr.toNat) by omega]
        · rw [if_neg (by omega), if_neg (by omega)]
    · rw [writeRam_half _ (fun h => h3 (hoff.symm.trans (congrArg BitVec.toNat h))), hw0,
        @ramByte_putBits m _ _ 2 (by omega) _ hoff _ (by omega) _ hb1 hb2, haddr]
      split
      · rw [extract_extract _ _ _ _ (by omega), Nat.zero_add]
      · rfl
  · -- an aligned SW
    have hal := hw hn
    rw [writeRam_word _ h0 h1', hw0, ramByte_setWord _ (by omega) _ hb1 hb2]
    by_cases h : addr.toNat ≤ b ∧ b < addr.toNat + 4
    · rw [if_pos (by omega), if_pos h, show (b - 0xB0) % 4 = b - addr.toNat by omega]
    · rw [if_neg (by omega), if_neg h]

end Ram

/-! ## The map -/

section Map

variable {m : MemRegs} {rom : Rom} {addr : BitVec 8}

theorem byteMap_rom {a : BitVec 8} (h : a.toNat < 0xB0) : (m.byteMap rom).byte a = romByte rom a.toNat :=
  if_pos h

theorem byteMap_ram {a : BitVec 8} (h1 : 0xB0 ≤ a.toNat) (h2 : a.toNat ≤ 0xDF) :
    (m.byteMap rom).byte a = m.ramByte a.toNat := by
  rw [byteMap]
  dsimp only
  rw [if_neg (by omega), if_pos h2]

/-- A byte of the ROM word that starts at an address. -/
theorem rom_word_byte {k : Nat} (hk : k < 4) :
    (rom_word addr rom).extractLsb' (8 * k) 8 = romByte rom (addr.toNat + k) := by
  have hw : addr.extractLsb' 2 6 = BitVec.ofNat 6 (addr.toNat / 4) := by
    apply BitVec.eq_of_toNat_eq
    rw [BitVec.extractLsb'_toNat, BitVec.toNat_ofNat, Nat.shiftRight_eq_div_pow]
  have hw1 : addr.extractLsb' 2 6 + 1 = BitVec.ofNat 6 (addr.toNat / 4 + 1) := by
    rw [hw, BitVec.ofNat_add]
    rfl
  have hoff : (addr.extractLsb' 0 2).toNat = addr.toNat % 4 := by
    rw [BitVec.extractLsb'_toNat, Nat.shiftRight_zero]
  rw [rom_word, pair_word_byte _ _ _ hk, hoff, hw1, hw, romByte]
  split
  · rw [show (addr.toNat + k) / 4 = addr.toNat / 4 by omega,
      show (addr.toNat + k) % 4 = addr.toNat % 4 + k by omega]
  · rw [show (addr.toNat + k) / 4 = addr.toNat / 4 + 1 by omega,
      show (addr.toNat + k) % 4 = addr.toNat % 4 + k - 4 by omega]

/-- The read path returns the bytes of the map. -/
theorem rdata_byteMap (hmode : m.flash_mode = false) (gpio_in : BitVec 8) (ext : BitVec 32) {n : Nat}
    (hn : n ≤ 4) (h : InRegion addr n) {k : Nat} (hk : k < n) :
    (m.rdata addr rom gpio_in ext).extractLsb' (8 * k) 8 = (m.byteMap rom).byte (addr + BitVec.ofNat 8 k) := by
  have hka : (addr + BitVec.ofNat 8 k).toNat = addr.toNat + k := by
    rw [BitVec.toNat_add, BitVec.toNat_ofNat]
    rcases h with h | h <;> omega
  rcases h with h | ⟨h1, h2⟩
  · rw [rdata, if_pos ((in_rom_iff _).mpr (by omega)), byteMap_rom (by omega), hka,
      rom_word_byte (by omega)]
  · have hrom : ¬ in_rom addr = true := by
      rw [in_rom_iff]
      omega
    have hram : m.in_ram addr = true := by
      rw [in_ram, in_ext_flash, hmode, Bool.false_and, Bool.not_false, Bool.and_true, in_ram_range_iff]
      omega
    rw [rdata, if_neg hrom, if_pos hram, byteMap_ram (by omega) (by omega), hka,
      ram_word_byte h1 (by omega) (by omega)]

/-- The write path is a store of the map. -/
theorem byteMap_write (hmode : m.flash_mode = false) (b : Bus) (hb : b.StoreOk) :
    (m.write b.addr b.wdata b.size).byteMap rom = (m.byteMap rom).store b := by
  have hflash : m.in_ext_flash b.addr = false := by rw [in_ext_flash, hmode, Bool.false_and]
  by_cases hr : 0xB0 ≤ b.addr.toNat ∧ b.addr.toNat ≤ 0xDF
  · obtain ⟨hend, hal⟩ := hb hr.1 hr.2
    obtain ⟨ws, hws⟩ := m.writeRam_eq b.addr b.wdata b.size
    have hbyte : ∀ a : BitVec 8, ((m.writeRam b.addr b.wdata b.size).byteMap rom).byte a =
        (m.byteMap rom).byte.store b.addr (fun k => b.wdata.extractLsb' (8 * k) 8) (nbytes b.size) a := by
      intro a
      have hsub : 0xB0 ≤ a.toNat → a.toNat ≤ 0xDF →
          ((a - b.addr).toNat < nbytes b.size ↔ b.addr.toNat ≤ a.toNat ∧ a.toNat < b.addr.toNat + nbytes b.size) ∧
            (b.addr.toNat ≤ a.toNat → (a - b.addr).toNat = a.toNat - b.addr.toNat) := by
        intro h1 h2
        have := nbytes_le b.size
        rw [BitVec.toNat_sub]
        omega
      by_cases ha : 0xB0 ≤ a.toNat ∧ a.toNat ≤ 0xDF
      · obtain ⟨hin, hoff⟩ := hsub ha.1 ha.2
        rw [byteMap_ram ha.1 ha.2, ramByte_writeRam hr.1 hr.2 _ _ hal ha.1 ha.2, ByteMemory.store]
        by_cases h : b.addr.toNat ≤ a.toNat ∧ a.toNat < b.addr.toNat + nbytes b.size
        · rw [if_pos h, if_pos (hin.mpr h), hoff h.1]
        · rw [if_neg h, if_neg (fun h' => h (hin.mp h')), byteMap_ram ha.1 ha.2]
      · have hout : ¬ (a - b.addr).toNat < nbytes b.size := by
          have := nbytes_le b.size
          have := a.isLt
          rw [BitVec.toNat_sub]
          omega
        rw [ByteMemory.store, if_neg hout, hws, byteMap, byteMap]
        dsimp only
        by_cases h0 : a.toNat < 0xB0
        · rw [if_pos h0, if_pos h0]
        · rw [if_neg h0, if_neg h0, if_neg (by omega), if_neg (by omega)]
    have hwrite : m.write b.addr b.wdata b.size = m.writeRam b.addr b.wdata b.size := by
      rw [write, (in_ram_range_iff _).mpr hr, hflash]
      rfl
    rw [ByteMap.store, if_pos hr, hwrite]
    refine ByteMap.ext (funext hbyte) ?_ ?_ ?_ <;> rw [hws] <;> rfl
  · have hram : ¬ in_ram_range b.addr = true := fun h => hr ((in_ram_range_iff _).mp h)
    rw [ByteMap.store, if_neg hr, write, Bool.eq_false_iff.mpr hram, Bool.false_and,
      if_neg Bool.false_ne_true]
    repeat' split
    all_goals rfl

/-- Entries beyond the array have no influence on the map. -/
theorem SameArray.byteMap_eq {m m' : MemRegs} (h : m.SameArray m') : m'.byteMap rom = m.byteMap rom := by
  refine ByteMap.ext (funext fun a => ?_) h.gpio_out h.flash_mode h.flash_page
  rw [byteMap, byteMap]
  dsimp only
  split
  · rfl
  · split
    · rw [ramByte, ramByte, h.words]
      rw [BitVec.ult_iff_lt, BitVec.lt_def, BitVec.toNat_ofNat]
      show _ < 12
      omega
    · rfl

end Map

end MemRegs

/-! ## Runs -/

namespace Mem

section Run

variable {m : Nat → Mem} {bus : Nat → Bus} {miso : Nat → Bool} (rom : Rom)

/-- One clock edge. -/
theorem Run.byteMap_step (hm : Run m bus miso) {t : Nat} (hmode : (m t).flash_mode = false)
    (hok : (bus t).we = true → (bus t).StoreOk) :
    (m (t + 1)).byteMap rom = ((m t).byteMap rom).after (bus t) := by
  rw [hm.regs t, MemRegs.afterBus, ByteMap.after]
  split
  · rename_i hwe
    exact MemRegs.byteMap_write hmode (bus t) (hok hwe)
  · rfl

/-- The map after a run is the map before it with the accesses of the run applied to it in order. -/
theorem Run.byteMap_history (hm : Run m bus miso) {t : Nat} (hmode : ∀ τ < t, (m τ).flash_mode = false)
    (hok : ∀ τ < t, (bus τ).we = true → (bus τ).StoreOk) :
    (m t).byteMap rom = ((List.range t).map bus).foldl ByteMap.after ((m 0).byteMap rom) := by
  induction t with
  | zero => rfl
  | succ t ih =>
    rw [hm.byteMap_step rom (hmode t (by omega)) (hok t (by omega)),
      ih (fun τ hτ => hmode τ (by omega)) (fun τ hτ => hok τ (by omega)), List.range_succ, List.map_append,
      List.foldl_append]
    rfl

/-- The bytes of the ROM stay what they are, whatever is stored. -/
theorem Run.byteMap_rom (t : Nat) {a : BitVec 8} (ha : a.toNat < 0xB0) :
    ((m t).byteMap rom).byte a = romByte rom a.toNat := MemRegs.byteMap_rom ha

/-- Two runs on the same bus that start with the same array have the same bytes. -/
theorem Run.byteMap_same {m' : Nat → Mem} {miso' : Nat → Bool} (hm : Run m bus miso) (hm' : Run m' bus miso')
    (h0 : (m 0).SameArray (m' 0).toMemRegs) {t : Nat} (hmode : ∀ τ < t, (m τ).flash_mode = false)
    (hok : ∀ τ < t, (bus τ).we = true → (bus τ).StoreOk) : (m' t).byteMap rom = (m t).byteMap rom := by
  induction t with
  | zero => exact h0.byteMap_eq
  | succ t ih =>
    have hsame := ih (fun τ hτ => hmode τ (by omega)) (fun τ hτ => hok τ (by omega))
    have hmode' : (m' t).flash_mode = false :=
      (congrArg ByteMap.flash_mode hsame).trans (hmode t (by omega))
    rw [hm.byteMap_step rom (hmode t (by omega)) (hok t (by omega)), hm'.byteMap_step rom hmode' (hok t (by omega)),
      hsame]

/-- The words of `mem.v` are an array of bytes. In a run in which `FLASH_MODE` is clear up to cycle `T`, the
map is in every cycle what the stores so far made of it, with the ROM unchanged; a read of one region returns
the bytes of the map in its low bits; and entries beyond the array influence neither. -/
theorem onchip_memory_is_bytes (hm : Run m bus miso) {T : Nat} (hmode : ∀ τ ≤ T, (m τ).flash_mode = false)
    (hok : ∀ τ ≤ T, (bus τ).we = true → (bus τ).StoreOk) :
    let σ := fun t => ((List.range t).map bus).foldl ByteMap.after ((m 0).byteMap rom)
    (∀ t ≤ T + 1, (m t).byteMap rom = σ t ∧ ∀ a : BitVec 8, a.toNat < 0xB0 → (σ t).byte a = romByte rom a.toNat) ∧
      (∀ t ≤ T, InRegion (bus t).addr (nbytes (bus t).size) → ∀ gpio_in, ∀ k < nbytes (bus t).size,
        ((m t).rdata (bus t) rom gpio_in).extractLsb' (8 * k) 8 =
          (σ t).byte ((bus t).addr + BitVec.ofNat 8 k)) ∧
      ∀ m' miso', Run m' bus miso' → (m 0).SameArray (m' 0).toMemRegs →
        (∀ t ≤ T + 1, (m' t).byteMap rom = σ t) ∧
          ∀ t ≤ T, InRegion (bus t).addr (nbytes (bus t).size) → ∀ gpio_in, ∀ k < nbytes (bus t).size,
            ((m' t).rdata (bus t) rom gpio_in).extractLsb' (8 * k) 8 =
              ((m t).rdata (bus t) rom gpio_in).extractLsb' (8 * k) 8 := by
  intro σ
  have hσ : ∀ t ≤ T + 1, (m t).byteMap rom = σ t := fun t ht =>
    hm.byteMap_history rom (fun τ hτ => hmode τ (by omega)) (fun τ hτ => hok τ (by omega))
  have hread : ∀ t ≤ T, InRegion (bus t).addr (nbytes (bus t).size) → ∀ gpio_in, ∀ k < nbytes (bus t).size,
      ((m t).rdata (bus t) rom gpio_in).extractLsb' (8 * k) 8 =
        (σ t).byte ((bus t).addr + BitVec.ofNat 8 k) := by
    intro t ht hreg gpio_in k hk
    rw [← hσ t (by omega)]
    exact MemRegs.rdata_byteMap (hmode t ht) gpio_in _ (nbytes_le _) hreg hk
  refine ⟨fun t ht => ⟨hσ t ht, fun a ha => ?_⟩, hread, fun m' miso' hm' h0 => ?_⟩
  · rw [← hσ t ht]
    exact Run.byteMap_rom rom t ha
  · have hsame : ∀ t ≤ T + 1, (m' t).byteMap rom = (m t).byteMap rom := fun t ht =>
      hm.byteMap_same rom hm' h0 (fun τ hτ => hmode τ (by omega)) (fun τ hτ => hok τ (by omega))
    refine ⟨fun t ht => (hsame t ht).trans (hσ t ht), fun t ht hreg gpio_in k hk => ?_⟩
    have hmode' : (m' t).flash_mode = false :=
      (congrArg ByteMap.flash_mode (hsame t (by omega))).trans (hmode t ht)
    rw [hread t ht hreg gpio_in k hk, ← hσ t (by omega), ← hsame t (by omega)]
    exact MemRegs.rdata_byteMap hmode' gpio_in _ (nbytes_le _) hreg hk

end Run

/-- A half-word stored at 0xB3, in two words of the RAM, and one of its bytes read back from 0xB4. -/
theorem onchip_memory_is_bytes_straddle :
    let q : Qspi := ⟨.idle, 0, 0, 0, 0, 0, false, true, true, false, true⟩
    let bus : Nat → Bus := fun t => if t = 0 then ⟨0xB3, 0xBEEF, 1, true, true⟩ else ⟨0xB4, 0, 0, false, true⟩
    let m : Nat → Mem := Clocked.run (fun (m : Mem) i => m.step i false) bus ⟨⟨fun _ => 0, false, 0, 0⟩, q⟩
    ((m 1).rdata (bus 1) bootRom 0).extractLsb' 0 8 = 0xBE := by
  intro q bus m
  have hm : Run m bus fun _ => false := fun _ => rfl
  have hmode : ∀ τ ≤ 1, (m τ).flash_mode = false := by
    intro τ hτ
    interval_cases τ
    · rfl
    · decide
  have hok : ∀ τ ≤ 1, (bus τ).we = true → (bus τ).StoreOk := by
    intro τ hτ
    interval_cases τ
    · exact fun _ _ _ => ⟨by decide, by decide⟩
    · exact fun h => absurd h (by decide)
  obtain ⟨-, h, -⟩ := onchip_memory_is_bytes bootRom hm hmode hok
  exact (h 1 (le_refl 1) (Or.inr ⟨by decide, by decide⟩) 0 0 (by decide)).trans (by decide)

end Mem

end Pineapple
