import Pineapple.Boot.Proofs.RomProofs
import Pineapple.Machine.Proofs.CycleProofs
import Pineapple.Machine.Proofs.FlowProofs
import Pineapple.Rtl.Isolation
import Pineapple.Rtl.Proofs.ByteMapProofs

/-!
# Proofs: the on-chip bytes behind the load window

Which single accesses reach the 44 bytes once `FLASH_MODE` is set, and that a run without such an access
neither changes them nor depends on them.
-/

namespace Pineapple

/-- Vectors with the same bytes are the same. -/
theorem extract_bytes_ext {u v : BitVec 32} {n : Nat}
    (h : ∀ k < n, u.extractLsb' (8 * k) 8 = v.extractLsb' (8 * k) 8) :
    u.extractLsb' 0 (8 * n) = v.extractLsb' 0 (8 * n) := by
  apply BitVec.eq_of_getLsbD_eq
  intro i hi
  have hb := congrArg (fun x => x.getLsbD (i % 8)) (h (i / 8) (by omega))
  simp only [BitVec.getLsbD_extractLsb', decide_eq_true (show i % 8 < 8 by omega), Bool.true_and,
    show 8 * (i / 8) + i % 8 = i by omega] at hb
  rw [BitVec.getLsbD_extractLsb', BitVec.getLsbD_extractLsb', Nat.zero_add, hb]

namespace MemRegs

section Access

variable {m m' : MemRegs} {rom : Rom} {addr : BitVec 8}

theorem SameOutside.in_ext_flash (h : m.SameOutside m') (addr : BitVec 8) :
    m'.in_ext_flash addr = m.in_ext_flash addr := by
  rw [MemRegs.in_ext_flash, MemRegs.in_ext_flash, h.flash_mode]

theorem SameOutside.ramByte (h : m.SameOutside m') {b : Nat} (h1 : 0xB0 ≤ b) (h2 : b ≤ 0xB3) :
    m'.ramByte b = m.ramByte b := by
  rw [MemRegs.ramByte, MemRegs.ramByte, show (b - 0xB0) / 4 = 0 by omega, h.words (BitVec.ofNat 4 0) (Or.inl rfl)]

/-- A read that does not straddle is the same in both. -/
theorem SameOutside.rdata (h : m.SameOutside m') (hmode : m.flash_mode = true) {n : Nat}
    (hs : 0xB0 ≤ addr.toNat → addr.toNat ≤ 0xB3 → addr.toNat + n ≤ 0xB4) (gpio_in : BitVec 8)
    (ext : BitVec 32) :
    (m'.rdata addr rom gpio_in ext).extractLsb' 0 (8 * n) =
      (m.rdata addr rom gpio_in ext).extractLsb' 0 (8 * n) := by
  have hflash := h.in_ext_flash addr
  by_cases hram : m.in_ram addr = true
  · have hram' : m'.in_ram addr = true := by rwa [in_ram, hflash]
    have haddr : 0xB0 ≤ addr.toNat ∧ addr.toNat ≤ 0xB3 := by
      rw [in_ram, Bool.and_eq_true, Bool.not_eq_true', MemRegs.in_ext_flash, hmode, Bool.true_and, in_ram_range_iff,
        Bool.eq_false_iff, ne_eq, in_load_range_iff] at hram
      omega
    have hrom : ¬ in_rom addr = true := by
      rw [in_rom_iff]
      omega
    have := hs haddr.1 haddr.2
    rw [MemRegs.rdata, MemRegs.rdata, if_neg hrom, if_neg hrom, if_pos hram, if_pos hram']
    apply extract_bytes_ext
    intro k hk
    rw [ram_word_byte haddr.1 (by omega) (by omega), ram_word_byte haddr.1 (by omega) (by omega),
      h.ramByte (by omega) (by omega)]
  · have hram' : ¬ m'.in_ram addr = true := by rwa [in_ram, hflash]
    rw [MemRegs.rdata, MemRegs.rdata, if_neg hram, if_neg hram', in_ext, in_ext, hflash, h.gpio_out,
      h.flash_page]

theorem not_in_ram (hmode : m.flash_mode = true) (h : ¬ (0xB0 ≤ addr.toNat ∧ addr.toNat ≤ 0xB3)) :
    (in_ram_range addr && !m.in_ext_flash addr) = false := by
  rw [Bool.eq_false_iff, ne_eq, Bool.and_eq_true, Bool.not_eq_true', in_ram_range_iff, Bool.eq_false_iff, ne_eq,
    in_ext_flash_iff, InFlash]
  rintro ⟨hr, hf⟩
  exact hf ⟨hmode, by omega, hr.2⟩

/-- With `FLASH_MODE` set, a store that is not a straddling half-word changes at most entry 0 of the array,
by a function of that entry. -/
theorem write_entry (b : Bus) (hs : ¬ b.Straddles)
    (h1 : 0xB0 ≤ b.addr.toNat) (h2 : b.addr.toNat ≤ 0xB3) :
    ∃ f : BitVec 32 → BitVec 32, ∀ m : MemRegs, m.flash_mode = true →
      m.write b.addr b.wdata b.size = { m with ram_words := Function.update m.ram_words 0 (f (m.ram_words 0)) } := by
  have hwrite : ∀ m : MemRegs, m.write b.addr b.wdata b.size = m.writeRam b.addr b.wdata b.size := by
    intro m
    have hflash : m.in_ext_flash b.addr = false := by
      rw [Bool.eq_false_iff, ne_eq, in_ext_flash_iff, InFlash]
      omega
    rw [write, (in_ram_range_iff _).mpr (by omega), hflash]
    rfl
  obtain ⟨hw0, -, hoff⟩ := @ram_index b.addr h1 (by omega)
  rw [show (b.addr.toNat - 0xB0) / 4 = 0 by omega] at hw0
  have hset : ∀ (m : MemRegs) w, m.setWord 0 w = { m with ram_words := Function.update m.ram_words 0 w } :=
    fun m w => rfl
  rcases nbytes_cases b.size with ⟨hz, hn⟩ | ⟨hz, hn⟩ | ⟨h0, h1', hn⟩
  · refine ⟨fun w => putBits w (ram_byte_off b.addr) (b.wdata.extractLsb' 0 8), fun m _ => ?_⟩
    rw [hwrite, hz, writeRam_byte, hw0]
    exact hset m _
  · have h3 : ram_byte_off b.addr ≠ 3 := by
      intro h
      have h3 : (b.addr.toNat - 0xB0) % 4 = 3 := hoff.symm.trans (congrArg BitVec.toNat h)
      exact hs ⟨h1, h2, by omega⟩
    refine ⟨fun w => putBits w (ram_byte_off b.addr) (b.wdata.extractLsb' 0 16), fun m _ => ?_⟩
    rw [hwrite, hz, writeRam_half _ h3, hw0]
    exact hset m _
  · refine ⟨fun _ => b.wdata, fun m _ => ?_⟩
    rw [hwrite, writeRam_word _ h0 h1', hw0]
    exact hset m _

/-- Any other store with `FLASH_MODE` set leaves the RAM alone. -/
theorem write_ram_words (hmode : m.flash_mode = true) (wdata : BitVec 32) (size : BitVec 2)
    (h : ¬ (0xB0 ≤ addr.toNat ∧ addr.toNat ≤ 0xB3)) :
    (m.write addr wdata size).ram_words = m.ram_words := by
  rw [write, not_in_ram hmode h, if_neg Bool.false_ne_true]
  repeat' split
  all_goals rfl

/-- A store that does not straddle keeps the 44 bytes and the entries beyond the array. -/
theorem write_kept (hmode : m.flash_mode = true) {b : Bus} (hs : ¬ b.Straddles) {i : BitVec 4} (hi : i ≠ 0) :
    (m.write b.addr b.wdata b.size).ram_words i = m.ram_words i := by
  by_cases h : 0xB0 ≤ b.addr.toNat ∧ b.addr.toNat ≤ 0xB3
  · obtain ⟨f, hf⟩ := write_entry b hs h.1 h.2
    rw [hf m hmode]
    exact Function.update_of_ne hi _ _
  · rw [write_ram_words hmode _ _ h]

/-- A store that does not straddle has the same effect on both. -/
theorem SameOutside.write (h : m.SameOutside m') (hmode : m.flash_mode = true) {b : Bus} (hs : ¬ b.Straddles) :
    (m.write b.addr b.wdata b.size).SameOutside (m'.write b.addr b.wdata b.size) := by
  have hmode' : m'.flash_mode = true := h.flash_mode.trans hmode
  by_cases hb : 0xB0 ≤ b.addr.toNat ∧ b.addr.toNat ≤ 0xB3
  · obtain ⟨f, hf⟩ := write_entry b hs hb.1 hb.2
    rw [hf m hmode, hf m' hmode']
    refine ⟨fun i hi => ?_, h.gpio_out, h.flash_mode, h.flash_page⟩
    dsimp only
    rw [h.words 0 (Or.inl rfl)]
    by_cases hi0 : i = 0
    · rw [hi0, Function.update_self, Function.update_self]
    · rw [Function.update_of_ne hi0, Function.update_of_ne hi0, h.words i hi]
  · refine ⟨fun i hi => ?_, ?_, ?_, ?_⟩
    · rw [write_ram_words hmode _ _ hb, write_ram_words hmode' _ _ hb, h.words i hi]
    all_goals
      rw [MemRegs.write, MemRegs.write, not_in_ram hmode hb, not_in_ram hmode' hb, if_neg Bool.false_ne_true,
        if_neg Bool.false_ne_true]
      repeat' split
    all_goals
      first
        | rfl
        | exact h.gpio_out
        | exact h.flash_mode
        | exact h.flash_page

theorem write_mode (hmode : m.flash_mode = true) (wdata : BitVec 32) (size : BitVec 2) :
    (m.write addr wdata size).flash_mode = true := by
  obtain ⟨ws, hram⟩ := m.writeRam_eq addr wdata size
  rw [MemRegs.write, hram]
  repeat' split
  all_goals first | rfl | exact hmode

/-- The one store that reaches the 44 bytes. -/
theorem ramByte_straddle {b : Bus} (hb : b.CoreAccess) (hwe : b.we = true)
    (hs : b.Straddles) {a : Nat} (h1 : 0xB4 ≤ a) (h2 : a ≤ 0xDF) :
    (m.write b.addr b.wdata b.size).ramByte a =
      if a = 0xB4 then b.wdata.extractLsb' 8 8 else m.ramByte a := by
  obtain ⟨hlo, hhi, hend⟩ := hs
  have hflash : m.in_ext_flash b.addr = false := by
    rw [Bool.eq_false_iff, ne_eq, in_ext_flash_iff, InFlash]
    omega
  have hal := hb.aligned hwe
  have hsz : nbytes b.size = 1 ∨ nbytes b.size = 2 ∨ nbytes b.size = 4 := by
    rcases nbytes_cases b.size with ⟨-, h⟩ | ⟨-, h⟩ | ⟨-, -, h⟩ <;> omega
  have hn : nbytes b.size = 2 ∧ b.addr.toNat = 0xB3 := by omega
  rw [MemRegs.write, (in_ram_range_iff _).mpr (by omega), hflash]
  show (m.writeRam b.addr b.wdata b.size).ramByte a = _
  rw [ramByte_writeRam hlo (by omega) _ _ hal (by omega) h2, hn.1, hn.2]
  by_cases ha : a = 0xB4
  · rw [if_pos (by omega), if_pos ha, ha]
  · rw [if_neg (by omega), if_neg ha]

/-- A straddling read returns the byte at 0xB4. -/
theorem rdata_straddle {b : Bus} (hs : b.Straddles) (gpio_in : BitVec 8) (ext : BitVec 32) :
    ((m.rdata b.addr rom gpio_in ext).extractLsb' 0 (8 * nbytes b.size)).extractLsb' (8 * (0xB4 - b.addr.toNat)) 8 =
      m.ramByte 0xB4 := by
  obtain ⟨hlo, hhi, hend⟩ := hs
  have h4 := nbytes_le b.size
  have hrom : ¬ in_rom b.addr = true := by
    rw [in_rom_iff]
    omega
  have hram : m.in_ram b.addr = true := by
    rw [in_ram, Bool.and_eq_true, Bool.not_eq_true', Bool.eq_false_iff, ne_eq, in_ext_flash_iff, in_ram_range_iff,
      InFlash]
    omega
  rw [extract_extract _ _ _ _ (by omega), Nat.zero_add, MemRegs.rdata, if_neg hrom, if_pos hram,
    ram_word_byte hlo (by omega) (by omega), show b.addr.toNat + (0xB4 - b.addr.toNat) = 0xB4 by omega]

/-- With `FLASH_MODE` set, an access is isolated from the 44 bytes unless it straddles; a half-word store that
straddles does no harm if it stores the byte that is there. -/
theorem isolatedAt_iff (hmode : m.flash_mode = true) {b : Bus} (hb : b.CoreAccess) :
    m.IsolatedAt rom b ↔ ¬ (b.Straddles ∧ (b.we = true → b.wdata.extractLsb' 8 8 ≠ m.ramByte 0xB4)) := by
  constructor
  · rintro ⟨hkept, hind⟩ ⟨hs, hne⟩
    by_cases hwe : b.we = true
    · have h := hkept 0xB4 (le_refl _) (by omega)
      rw [afterBus, if_pos hwe, ramByte_straddle hb hwe hs (le_refl _) (by omega), if_pos rfl] at h
      exact hne hwe h
    · -- the state with the entry of 0xB4 complemented
      let m' : MemRegs := { m with ram_words := Function.update m.ram_words 1 (~~~m.ram_words 1) }
      have hout : m.SameOutside m' := by
        refine ⟨fun i hi => Function.update_of_ne ?_ _ _, rfl, rfl, rfl⟩
        rintro rfl
        rcases hi with h | h
        · exact absurd h (by decide)
        · exact absurd h (by decide)
      have h := congrArg (fun v => v.extractLsb' (8 * (0xB4 - b.addr.toNat)) 8)
        (hind (Bool.eq_false_iff.mpr hwe) m' hout 0 0)
      rw [rdata_straddle hs, rdata_straddle hs] at h
      have hbit := congrArg (fun v => v.getLsbD 0) h
      simp [ramByte, m'] at hbit
  · intro h
    by_cases hs : b.Straddles
    · have hwe : b.we = true := by
        by_contra hwe
        exact h ⟨hs, fun h => absurd h hwe⟩
      have heq : b.wdata.extractLsb' 8 8 = m.ramByte 0xB4 := by
        by_contra hne
        exact h ⟨hs, fun _ => hne⟩
      refine ⟨fun a h1 h2 => ?_, fun hno => absurd (hno.symm.trans hwe) (by decide)⟩
      rw [afterBus, if_pos hwe, ramByte_straddle hb hwe hs h1 h2, heq]
      split
      · rename_i ha
        rw [ha]
      · rfl
    · refine ⟨fun a h1 h2 => ?_, fun _ m' hout gpio_in ext => ?_⟩
      · rw [afterBus]
        split
        · rw [ramByte, write_kept hmode hs, ramByte]
          intro hz
          have := congrArg BitVec.toNat hz
          rw [BitVec.toNat_ofNat] at this
          have h0 : (0 : BitVec 4).toNat = 0 := rfl
          omega
        · rfl
      · refine hout.rdata hmode (fun h1 h2 => ?_) gpio_in ext
        by_contra hlt
        exact hs ⟨h1, h2, by omega⟩

end Access

end MemRegs

/-! ## What the core reads -/

theorem extract_word (v : BitVec 32) : v.extractLsb' 0 (8 * nbytes 2) = v := BitVec.extractLsb'_eq_self

/-- The loaded value depends on the bytes of the access only. -/
theorem Ir.load_value_congr (ir : BitVec 32) {d d' : BitVec 32}
    (h : d.extractLsb' 0 (8 * nbytes (Ir.access_size ir)) = d'.extractLsb' 0 (8 * nbytes (Ir.access_size ir))) :
    Ir.load_value ir d = Ir.load_value ir d' := by
  have hf : ∀ f : BitVec 3, f = 0 ∨ f = 1 ∨ f = 2 ∨ f = 3 ∨ f = 4 ∨ f = 5 ∨ f = 6 ∨ f = 7 := by decide
  rw [Ir.access_size] at h
  rw [Ir.load_value, Ir.load_value]
  rcases hf (Ir.funct3 ir) with h0 | h0 | h0 | h0 | h0 | h0 | h0 | h0 <;> rw [h0] at h ⊢
  · exact congrArg (BitVec.signExtend 32) h
  · exact congrArg (BitVec.signExtend 32) h
  · exact (extract_word d).symm.trans (h.trans (extract_word d'))
  · exact (extract_word d).symm.trans (h.trans (extract_word d'))
  · exact congrArg (BitVec.setWidth 32) h
  · exact congrArg (BitVec.setWidth 32) h
  · exact (extract_word d).symm.trans (h.trans (extract_word d'))
  · exact (extract_word d).symm.trans (h.trans (extract_word d'))

/-- The core looks at `mem_rdata` in `ST_DECODE` and in the `ST_WB` of a load. -/
theorem Core.step_congr (c : Core) (ready : Bool) {d d' : BitVec 32} (hdec : c.state = .decode → d = d')
    (hwb : c.state = .wb → Ir.opcode c.ir = OP_LOAD → Ir.load_value c.ir d = Ir.load_value c.ir d') :
    c.step ready d = c.step ready d' := by
  cases hst : c.state with
  | decode => rw [hdec hst]
  | wb =>
    have hregs : Ir.writeback c.ir c.regs c.pc c.alu_result d = Ir.writeback c.ir c.regs c.pc c.alu_result d' := by
      by_cases hl : Ir.opcode c.ir = OP_LOAD
      · rw [Ir.writeback, Ir.writeback, hwb hst hl]
      · rw [Ir.writeback, Ir.writeback]
        simp only [hl, if_false]
    simp only [Core.step, hst, hregs]
  | _ => simp only [Core.step, hst]

namespace Top

/-- What the bus carries in the states that read it, and that it did not straddle there. -/
structure Settled (s : Top) : Prop where
  we : s.core.mem_we = true →
    s.core.state = .memWait ∧ Ir.opcode s.core.ir = OP_STORE ∧ s.core.mem_valid = true
  fetchWait : s.core.state = .fetchWait → s.core.mem_valid = true ∧ s.core.mem_size = 2
  memWait : s.core.state = .memWait → Ir.opcode s.core.ir = OP_LOAD →
    s.core.mem_valid = true ∧ s.core.mem_size = Ir.access_size s.core.ir
  decode : s.mem.flash_mode = true → s.core.state = .decode → s.core.mem_size = 2 ∧ ¬ s.bus.Straddles
  wb : s.mem.flash_mode = true → s.core.state = .wb → Ir.opcode s.core.ir = OP_LOAD →
    s.core.mem_size = Ir.access_size s.core.ir ∧ ¬ s.bus.Straddles

theorem reset_settled (s : Top) : Settled s.reset where
  we := fun h => absurd h Bool.false_ne_true
  fetchWait := fun h => CoreState.noConfusion h
  memWait := fun h => CoreState.noConfusion h
  decode := fun _ h => CoreState.noConfusion h
  wb := fun _ h => CoreState.noConfusion h

section Step

variable {s s' : Top} {rom : Rom} {inp : Inputs}

theorem step_mode_of_read (h : s.core.mem_we = false) :
    (s.step rom inp).mem.flash_mode = s.mem.flash_mode := by
  show (if s.bus.we then _ else s.mem.toMemRegs : MemRegs).flash_mode = _
  rw [show s.bus.we = false from h]
  rfl

theorem Settled.step (h : Settled s)
    (hs : s.mem.flash_mode = true → s.core.mem_valid = true → ¬ s.bus.Straddles) :
    Settled (s.step rom inp) := by
  have hcore : (s.step rom inp).core = s.core.step s.mem_ready (s.mem_rdata rom inp.ui_in) := rfl
  have hread : s.core.state ≠ .memWait → s.core.mem_we = false := fun hne =>
    Bool.eq_false_iff.mpr fun hwe => hne (h.we hwe).1
  cases hst : s.core.state with
  | fetch =>
    constructor <;> simp only [hcore, Core.step, hst, Top.bus] <;> simp
  | fetchWait =>
    have hwe := hread (by rw [hst]; exact CoreState.noConfusion)
    obtain ⟨hv, hsz⟩ := h.fetchWait hst
    have hmode := @step_mode_of_read s rom inp hwe
    by_cases hr : s.mem_ready = true
    · refine ⟨?_, ?_, ?_, fun hm _ => ?_, ?_⟩
      case refine_4 =>
        rw [hmode] at hm
        have := hs hm hv
        simp only [hcore, Core.step, hst, hr, if_true, Top.bus]
        exact ⟨hsz, this⟩
      all_goals
        simp only [hcore, Core.step, hst, hr, if_true, hwe]
        simp
    · constructor <;> simp only [hcore, Core.step, hst, hr, hwe] <;> simp [hst, hv, hsz, hwe]
  | decode =>
    have hwe := hread (by rw [hst]; exact CoreState.noConfusion)
    constructor <;> simp only [hcore, Core.step, hst, hwe] <;> simp
  | exec =>
    have hwe := hread (by rw [hst]; exact CoreState.noConfusion)
    constructor <;> simp only [hcore, Core.step, hst, hwe] <;> simp
  | mem =>
    by_cases hl : Ir.opcode s.core.ir = OP_LOAD
    · constructor <;> simp only [hcore, Core.step, hst, hl, if_true] <;> simp
    · by_cases hS : Ir.opcode s.core.ir = OP_STORE
      · constructor <;> simp only [hcore, Core.step, hst, if_neg hl, if_pos hS] <;> simp [hS]
      · constructor <;> simp only [hcore, Core.step, hst, hl, hS, if_false] <;> simp
  | memWait =>
    by_cases hr : s.mem_ready = true
    · refine ⟨?_, ?_, ?_, ?_, fun hm _ hl => ?_⟩
      case refine_5 =>
        have hl' : Ir.opcode s.core.ir = OP_LOAD := by
          simpa only [hcore, Core.step, hst, hr, if_true] using hl
        have hwe : s.core.mem_we = false := Bool.eq_false_iff.mpr fun hwe =>
          absurd ((h.we hwe).2.1.symm.trans hl') (by decide)
        rw [step_mode_of_read hwe] at hm
        obtain ⟨hv, hsz⟩ := h.memWait hst hl'
        have := hs hm hv
        simp only [hcore, Core.step, hst, hr, if_true, Top.bus]
        exact ⟨hsz, this⟩
      all_goals
        simp only [hcore, Core.step, hst, hr, if_true]
        simp
    · have hstep : (s.step rom inp).core = s.core := by
        rw [hcore, Core.step, hst]
        exact if_neg hr
      refine ⟨?_, ?_, ?_, ?_, ?_⟩
      · rw [hstep]
        exact h.we
      · rw [hstep]
        exact h.fetchWait
      · rw [hstep]
        exact h.memWait
      · rw [hstep, hst]
        exact fun _ h => CoreState.noConfusion h
      · rw [hstep, hst]
        exact fun _ h => CoreState.noConfusion h
  | wb =>
    constructor <;> simp only [hcore, Core.step, hst] <;> simp

/-- One clock edge of two chips that differ at most in the 44 bytes: they still do, and the bytes stay. -/
theorem SameOutside.step (h : SameOutside s s') (hset : Settled s) (hmode : s.mem.flash_mode = true)
    (hs : s.core.mem_valid = true → ¬ s.bus.Straddles) :
    SameOutside (s.step rom inp) (s'.step rom inp) ∧ (s.step rom inp).mem.flash_mode = true ∧
      ∀ i, i ≠ 0 → (s.step rom inp).mem.ram_words i = s.mem.ram_words i ∧
        (s'.step rom inp).mem.ram_words i = s'.mem.ram_words i := by
  have hbus : s'.bus = s.bus := congrArg Core.bus h.core
  have hmode' : s'.mem.flash_mode = true := h.regs.flash_mode.trans hmode
  have hreq : s'.mem.req s'.bus = s.mem.req s.bus := by
    rw [hbus]
    simp only [Mem.req, MemRegs.in_ext, MemRegs.req_dev, MemRegs.ext_addr, MemRegs.flash_page_base,
      h.regs.in_ext_flash, h.regs.flash_page]
  have hready : s'.mem_ready = s.mem_ready := by
    rw [mem_ready, mem_ready, Mem.ready, Mem.ready, hreq, h.u_qspi]
  have hwrite : s.bus.we = true → ¬ s.bus.Straddles := fun hwe => hs (hset.we hwe).2.2
  have hregs : ∀ x : Top, (x.step rom inp).mem.toMemRegs = x.mem.afterBus x.bus := fun _ => rfl
  -- the values that the core looks at
  have hread : ∀ n, s.core.mem_size = n → ¬ s.bus.Straddles →
      (s'.mem_rdata rom inp.ui_in).extractLsb' 0 (8 * nbytes n) =
        (s.mem_rdata rom inp.ui_in).extractLsb' 0 (8 * nbytes n) := by
    rintro n rfl hstr
    rw [mem_rdata, mem_rdata, Mem.rdata, Mem.rdata, hbus, h.u_qspi]
    refine h.regs.rdata hmode (fun h1 h2 => ?_) _ _
    by_contra hlt
    exact hstr ⟨h1, h2, by show 0xB4 < _ + nbytes s.core.mem_size; omega⟩
  have hcore : (s'.step rom inp).core = (s.step rom inp).core := by
    show s'.core.step s'.mem_ready _ = s.core.step s.mem_ready _
    rw [h.core, hready]
    refine Core.step_congr _ _ (fun hst => ?_) (fun hst hl => ?_)
    · obtain ⟨hsz, hstr⟩ := hset.decode hmode hst
      exact (extract_word _).symm.trans ((hread 2 hsz hstr).trans (extract_word _))
    · obtain ⟨hsz, hstr⟩ := hset.wb hmode hst hl
      exact Ir.load_value_congr _ (hread _ hsz hstr)
  refine ⟨⟨hcore, ?_, ?_⟩, ?_, fun i hi => ?_⟩
  · show s'.mem.u_qspi.step (s'.mem.req s'.bus) _ = s.mem.u_qspi.step (s.mem.req s.bus) _
    rw [hreq, h.u_qspi]
  · rw [hregs, hregs, hbus, MemRegs.afterBus, MemRegs.afterBus]
    split
    · rename_i hwe
      exact h.regs.write hmode (hwrite hwe)
    · exact h.regs
  · rw [hregs, MemRegs.afterBus]
    split
    · exact MemRegs.write_mode hmode _ _
    · exact hmode
  · rw [hregs, hregs, hbus, MemRegs.afterBus, MemRegs.afterBus]
    split
    · rename_i hwe
      exact ⟨MemRegs.write_kept hmode (hwrite hwe) hi, MemRegs.write_kept hmode' (hwrite hwe) hi⟩
    · exact ⟨rfl, rfl⟩

end Step

section Run

variable {rom : Rom} {inp : Nat → Inputs} {s s' : Nat → Top}

theorem Run.settled {s0 : Top} (hr : Run rom inp s) (h0 : s 0 = s0.reset)
    (hs : ∀ τ, (s τ).mem.flash_mode = true → (s τ).core.mem_valid = true → ¬ (s τ).bus.Straddles) (t : Nat) :
    Settled (s t) := by
  induction t with
  | zero => exact h0 ▸ reset_settled s0
  | succ t ih =>
    rw [hr t]
    exact ih.step (hs t)

/-- From a cycle with `FLASH_MODE` set on, a run without straddling accesses keeps the 44 bytes and is, but for
them, the run of every chip that differs in them. -/
theorem Run.isolated {s0 : Top} (hr : Run rom inp s) (h0 : s 0 = s0.reset)
    (hs : ∀ τ, (s τ).mem.flash_mode = true → (s τ).core.mem_valid = true → ¬ (s τ).bus.Straddles)
    {T : Nat} (hmode : (s T).mem.flash_mode = true) (hr' : Run rom (fun t => inp (T + t)) s')
    (h : SameOutside (s T) (s' 0)) (t : Nat) :
    SameOutside (s (T + t)) (s' t) ∧ (s (T + t)).mem.flash_mode = true ∧
      ∀ i, i ≠ 0 → (s (T + t)).mem.ram_words i = (s T).mem.ram_words i ∧
        (s' t).mem.ram_words i = (s' 0).mem.ram_words i := by
  induction t with
  | zero => exact ⟨h, hmode, fun i _ => ⟨rfl, rfl⟩⟩
  | succ t ih =>
    obtain ⟨hsame, hm, hw⟩ := ih
    have hset := hr.settled h0 hs (T + t)
    obtain ⟨h1, h2, h3⟩ := @SameOutside.step _ _ rom (inp (T + t)) hsame hset hm (hs (T + t) hm)
    rw [show T + (t + 1) = T + t + 1 by omega, hr (T + t), hr' t]
    refine ⟨h1, h2, fun i hi => ⟨?_, ?_⟩⟩
    · exact ((h3 i hi).1).trans (hw i hi).1
    · exact ((h3 i hi).2).trans (hw i hi).2

/-- What `FLASH_MODE` isolates. An access of the core keeps the 44 on-chip bytes behind the load window, and
its value does not depend on them, if and only if it does not straddle 0xB3/0xB4 (or is a half-word store of the
byte that is there). In every run from a reset whose accesses do not straddle while `FLASH_MODE` is set, the
bytes never change from then on, and no register of the chip and no pin depends on them. -/
theorem flash_mode_isolates_iff (rom : Rom) :
    (∀ (m : MemRegs) (b : Bus), m.flash_mode = true → b.CoreAccess →
      (m.IsolatedAt rom b ↔ ¬ (b.Straddles ∧ (b.we = true → b.wdata.extractLsb' 8 8 ≠ m.ramByte 0xB4)))) ∧
    ∀ (s0 : Top) (inp : Nat → Inputs) (s : Nat → Top), Run rom inp s → s 0 = s0.reset →
      (∀ τ, (s τ).mem.flash_mode = true → (s τ).core.mem_valid = true → ¬ (s τ).bus.Straddles) →
      ∀ T, (s T).mem.flash_mode = true →
        ∀ s' : Nat → Top, Run rom (fun t => inp (T + t)) s' → SameOutside (s T) (s' 0) →
          ∀ t, SameOutside (s (T + t)) (s' t) ∧
            (s T).mem.SameWindow (s (T + t)).mem.toMemRegs ∧ (s' 0).mem.SameWindow (s' t).mem.toMemRegs := by
  refine ⟨fun m b hmode hb => MemRegs.isolatedAt_iff hmode hb, ?_⟩
  intro s0 inp s hr h0 hs T hmode s' hr' h t
  obtain ⟨hsame, -, hw⟩ := hr.isolated h0 hs hmode hr' h t
  have hne : ∀ a, 0xB4 ≤ a → a ≤ 0xDF → BitVec.ofNat 4 ((a - 0xB0) / 4) ≠ 0 := by
    intro a h1 h2 hz
    have := congrArg BitVec.toNat hz
    rw [BitVec.toNat_ofNat] at this
    have hz : (0 : BitVec 4).toNat = 0 := rfl
    omega
  refine ⟨hsame, fun a h1 h2 => ?_, fun a h1 h2 => ?_⟩
  · rw [MemRegs.ramByte, (hw _ (hne a h1 h2)).1, MemRegs.ramByte]
  · rw [MemRegs.ramByte, (hw _ (hne a h1 h2)).2, MemRegs.ramByte]

end Run

/-- A half-word store at 0xB3 reaches the byte at 0xB4. -/
theorem flash_mode_leaks :
    ¬ ∀ (m : MemRegs) (b : Bus), m.flash_mode = true → b.CoreAccess → m.IsolatedAt bootRom b := by
  intro h
  have hkept := (h ⟨fun _ => 0, true, 0, 0⟩ ⟨0xB3, 0xFF00, 1, true, true⟩ rfl ⟨rfl, by decide⟩).kept 0xB4
    (le_refl _) (by decide)
  exact absurd hkept (by decide)

/-! ## A program with fixed addresses -/

section Program

open Rv32i (Instr)

/-- The words of a program are at the start of the ROM, and each of them goes on to another one. -/
structure InRom (rom : Rom) (program : List Instr) : Prop where
  fits : 0 < program.length ∧ program.length ≤ 44
  word : ∀ k < program.length, Rv32i.decode (rom (BitVec.ofNat 6 k)) = program[k]?
  flow : ∀ k < program.length, ∀ i ∈ program[k]?, i.isJalr = false ∧
    ∀ pc ∈ i.succs (Boot.addr k), ∃ k' < program.length, pc = Boot.addr k'

/-- The data access has the base `x0` and does not straddle. -/
def fixedAccess : Instr → Bool
  | .load op _ rs1 imm | .store op _ rs1 imm =>
    rs1 == 0 && !decide (Bus.Straddles ⟨imm.setWidth 8, 0, sizeCode op.width, false, true⟩)
  | _ => true

variable {rom : Rom} {inp : Nat → Inputs} {s : Nat → Top} {program : List Instr} {t k : Nat} {i : Instr}

theorem fixedAccess_addr {a : Arch} {acc : Rv32i.Access} (h : fixedAccess i = true) (ha : a.access i = some acc) :
    ¬ Bus.Straddles ⟨acc.addr.setWidth 8, 0, sizeCode acc.width, false, true⟩ := by
  have hbase : ∀ imm : BitVec 12, (a.reg 0 + imm.signExtend 32).setWidth 8 = imm.setWidth 8 := by
    intro imm
    rw [Arch.reg_x0, BitVec.zero_add, setWidth_signExtend_low imm (by decide)]
  cases i with
  | load op rd rs1 imm =>
    cases ha
    simp only [fixedAccess, Bool.and_eq_true, beq_iff_eq, Bool.not_eq_true', decide_eq_false_iff_not] at h
    obtain ⟨rfl, h⟩ := h
    show ¬ Bus.Straddles ⟨(a.reg 0 + imm.signExtend 32).setWidth 8, _, _, _, _⟩
    rwa [hbase]
  | store op rs2 rs1 imm =>
    cases ha
    simp only [fixedAccess, Bool.and_eq_true, beq_iff_eq, Bool.not_eq_true', decide_eq_false_iff_not] at h
    obtain ⟨rfl, h⟩ := h
    show ¬ Bus.Straddles ⟨(a.reg 0 + imm.signExtend 32).setWidth 8, _, _, _, _⟩
    rwa [hbase]
  | _ => cases ha

variable (hp : InRom rom program)

include hp

variable (inp) in
theorem InRom.fetched (hpc : (s t).core.pc = Boot.addr k) (hk : k < program.length) :
    ∃ i ∈ program[k]?, Rv32i.decode (fetched rom inp t (s t).arch) = some i := by
  refine ⟨program.get ⟨k, hk⟩, List.getElem?_eq_getElem hk, ?_⟩
  have hk44 : k < 44 := Nat.lt_of_lt_of_le hk hp.fits.2
  show Rv32i.decode ((s t).mem.toMemRegs.rdata (s t).core.pc rom _ _) = _
  rw [hpc, Boot.rdata_rom _ _ _ _ hk44, hp.word k hk]
  exact List.getElem?_eq_getElem hk

variable (hs : Run rom inp s) (h0 : AtFetch (s 0))

include hs h0

/-- Every fetch is of a word of the program. -/
theorem InRom.fetch_pc (hpc : (s 0).core.pc = 0) (hf : (s t).core.state = .fetch) :
    ∃ k < program.length, (s t).core.pc = Boot.addr k := by
  induction t using Nat.strong_induction_on with
  | _ t ih =>
    cases t with
    | zero => exact ⟨0, hp.fits.1, hpc⟩
    | succ τ =>
      obtain ⟨t, w, m, n, h1, h2, hft, -, -, hins⟩ := exists_instruction hs h0 τ
      obtain ⟨k, hk, hpck⟩ := ih t (by omega) hft.state
      obtain ⟨i, hi, hdec⟩ := hp.fetched inp hpck hk
      obtain ⟨hnext, hst⟩ := run_step hs hft hdec
      have hend : τ + 1 = t + (s t).arch.cycles i := by
        have hpos := cycles_pos (s t).arch i
        by_contra hne
        rcases Nat.lt_or_gt_of_ne hne with hlt | hgt
        · exact hst.next.not_fetch (τ + 1) (by omega) hlt hf
        · exact (hins.nextFetch hs hft).not_fetch _ (by omega) (by omega) hnext.state
      obtain ⟨hj, hsuccs⟩ := hp.flow k hk i hi
      have hpc' : (s (τ + 1)).core.pc = ((s t).arch.exec i _).pc :=
        congrArg (fun a : Arch => a.pc) (hend ▸ hst.arch)
      rw [hpc']
      exact hsuccs _ (hpck ▸ (s t).arch.exec_pc_mem _ hj)

/-- A program whose data accesses are at fixed addresses that do not straddle makes no access that does. -/
theorem InRom.not_straddles (hpc : (s 0).core.pc = 0) (hfixed : ∀ i ∈ program, fixedAccess i = true) (τ : Nat)
    (hv : (s τ).core.mem_valid = true) : ¬ (s τ).bus.Straddles := by
  obtain ⟨t, w, m, n, h1, h2, hf, hm, hn, hins⟩ := exists_instruction hs h0 τ
  obtain ⟨k, hk, hpck⟩ := hp.fetch_pc hs h0 hpc hf.state
  obtain ⟨i, hi, hdec⟩ := hp.fetched inp hpck hk
  rw [← hins.word_eq hs hf hm] at hdec
  rcases (hins.valid_iff hs hf τ h1 h2.le).mp hv with ⟨h3, h4⟩ | ⟨hac, h3, h4⟩
  · -- the fetch is from the ROM
    have hheld := hins.fetch.held (τ - (t + 1)) (by omega)
    rw [show t + 1 + (τ - (t + 1)) = τ by omega] at hheld
    have haddr : (s τ).bus.addr = Boot.addr k := (congrArg Bus.addr hheld).trans hpck
    intro hstr
    have hlo : 0xB0 ≤ (s τ).bus.addr.toNat := hstr.1
    have hk44 := hp.fits.2
    rw [haddr, Boot.addr_toNat (by omega)] at hlo
    omega
  · have hheld := hins.access.held (τ - (t + m + 5)) (by omega)
    rw [show t + m + 5 + (τ - (t + m + 5)) = τ by omega] at hheld
    obtain ⟨acc, ha⟩ : ∃ acc, (s t).arch.access i = some acc := by
      rcases access_cases (s t).core.regs w hdec with ⟨-, a, ha, -⟩ | ⟨-, a, v, ha, -⟩ | ⟨hl, hst, -⟩
      · exact ⟨a, ha⟩
      · exact ⟨a, ha⟩
      · exact absurd (of_decide_eq_true hac) (not_or.mpr ⟨hl, hst⟩)
    have hperf := bus_of_access hdec ha
    have haddr : (s τ).bus.addr = acc.addr.setWidth 8 := (congrArg Bus.addr hheld).trans hperf.addr
    have hsize : (s τ).bus.size = sizeCode acc.width := (congrArg Bus.size hheld).trans hperf.size
    have hno := fixedAccess_addr (hfixed i (List.mem_of_getElem? hi)) ha
    unfold Bus.Straddles at hno ⊢
    rw [haddr, hsize]
    exact hno

end Program

/-- A program that sets `FLASH_MODE` and then, for ever, writes and reads the four bytes below the load window and the
load window. -/
def windowProgram : List Rv32i.Instr :=
  [.store .sb 0 0 0xF8, .opImm .addi 1 0 0x5A, .store .sw 1 0 0xB0, .load .lw 2 0 0xB0, .store .sh 1 0 0xB2,
   .load .lhu 3 0 0xB2, .store .sw 1 0 0xB4, .load .lw 4 0 0xB4, .load .lbu 5 0 0xDF, .jal 0 0x1FFFE4]

def windowRom : Rom := fun i =>
  [0x0E000C23, 0x05A00093, 0x0A102823, 0x0B002103, 0x0A101923, 0x0B205183, 0x0A102A23, 0x0B402203, 0x0DF04283,
   0xFE5FF06F].getD i.toNat 0

theorem windowRom_program : InRom windowRom windowProgram := ⟨by decide, by decide, by decide⟩

/-- The run of `windowRom` from a state, with all input pins low. -/
def windowRun : Top → Nat → Top :=
  Clocked.run (fun s (i : Inputs) => step s windowRom i) (fun _ => ⟨0, false⟩)

/-- A chip after reset. -/
def windowReset : Top where
  core := ⟨.fetch, 0, 0, 0, 0, fun _ => 0, 0, 0, 2, false, false⟩
  mem := ⟨⟨fun _ => 0, false, 0, 0⟩, ⟨.idle, 0, 0, 0, 0, 0, false, true, true, false, true⟩⟩

/-- The chip with `windowRom` does the same with the 44 bytes complemented, and keeps them. It stores at 0xB0 in cycle
19, at 0xB2 in cycle 33 and at 0xB4 in cycle 47. -/
theorem flash_mode_isolates_iff_window :
    let x := windowRun windowReset
    let ones : BitVec 4 → BitVec 32 := fun i => if i = 0 ∨ i.ult NWORDS = false then 0 else 0xFFFFFFFF
    let y := windowRun ⟨(x 7).core, ⟨⟨ones, true, 0, 0⟩, (x 7).mem.u_qspi⟩⟩
    MemRegs.IsolatedAt ⟨ones, true, 0, 0⟩ windowRom ⟨0xB0, 0x5A, 2, true, true⟩ ∧
      (((x 19).bus.we, (x 19).bus.addr), ((x 33).bus.we, (x 33).bus.addr), ((x 47).bus.we, (x 47).bus.addr)) =
        ((true, 0xB0), (true, 0xB2), (true, 0xB4)) ∧
      ∀ t, (y t).core = (x (7 + t)).core ∧ (x 7).mem.SameWindow (x (7 + t)).mem.toMemRegs ∧
        (y 0).mem.SameWindow (y t).mem.toMemRegs := by
  intro x ones y
  have hs : ∀ τ, (x τ).mem.flash_mode = true → (x τ).core.mem_valid = true → ¬ (x τ).bus.Straddles := fun τ _ hv =>
    windowRom_program.not_straddles (s := x) (fun _ => rfl) ⟨rfl, ⟨rfl, rfl⟩, ⟨rfl, rfl⟩⟩ rfl (by decide) τ hv
  have hmem : (windowRun windowReset 7).mem.flash_mode = true ∧ (windowRun windowReset 7).mem.flash_page = 0 ∧
      (windowRun windowReset 7).mem.gpio_out = 0 ∧ ∀ i, (windowRun windowReset 7).mem.ram_words i = 0 := by
    decide +kernel
  obtain ⟨hmode, hpage, hgpio, hwords⟩ := hmem
  have hsame : SameOutside (x 7) (y 0) :=
    ⟨rfl, rfl, fun i hi => (if_pos hi).trans (hwords i).symm, hgpio.symm, hmode.symm, hpage.symm⟩
  obtain ⟨hsingle, hrun⟩ := flash_mode_isolates_iff windowRom
  refine ⟨(hsingle _ _ rfl ⟨rfl, by decide⟩).mpr (by decide), by decide +kernel, fun t => ?_⟩
  obtain ⟨h1, h2, h3⟩ := hrun windowReset (fun _ => ⟨0, false⟩) x (fun _ => rfl) rfl hs 7 hmode y (fun _ => rfl) hsame t
  exact ⟨h1.core, h2, h3⟩

end Top

end Pineapple
