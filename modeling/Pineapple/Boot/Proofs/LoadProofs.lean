import Pineapple.Boot.Contract
import Pineapple.Boot.Proofs.RamProofs
import Pineapple.Boot.Proofs.ReceiveProofs

/-!
# Proofs: the boot ROM loads a program

From reset through the self-test and the demo loop to START, and from there byte by byte. `AtByte` is the
invariant of BYTE_LOOP: the length that is left, the write pointer, and the RAM with the bytes so far.
-/

namespace Pineapple

open Rv32i (Instr Word Reg)

/-- `m'` differs from `m` at most in `gpio_out`. -/
structure MemRegs.Kept (m m' : MemRegs) : Prop where
  ram_words : m'.ram_words = m.ram_words
  flash_mode : m'.flash_mode = m.flash_mode
  flash_page : m'.flash_page = m.flash_page

theorem MemRegs.Kept.refl (m : MemRegs) : Kept m m := ⟨rfl, rfl, rfl⟩

theorem MemRegs.Kept.trans {m m' m'' : MemRegs} (h : Kept m m') (h' : Kept m' m'') : Kept m m'' :=
  ⟨h'.1.trans h.1, h'.2.trans h.2, h'.3.trans h.3⟩

theorem MemRegs.Kept.ramByte {m m' : MemRegs} (h : Kept m m') (b : Nat) :
    m'.ramByte b = m.ramByte b := by
  rw [MemRegs.ramByte, h.ram_words, MemRegs.ramByte]

/-- An LED write changes `gpio_out` only. -/
theorem MemRegs.kept_led (m : MemRegs) (v : BitVec 32) (size : BitVec 2) :
    Kept m (m.write 0xF0 v size) := by
  have hram : in_ram_range 0xF0 = false := by decide
  rw [MemRegs.write, hram, Bool.false_and, if_neg (by decide), if_pos rfl]
  exact ⟨rfl, rfl, rfl⟩

namespace Boot

variable {inp : Nat → Inputs} {t : Nat} {a : Arch}

/-! ## To START -/

/-- The address of the self-test is external. -/
theorem stall_selftest (m : MemRegs) : m.stall 0xE0 0 = 82 := by
  rw [MemRegs.stall, if_pos (.inl (by decide))]
  rfl

/-- The store of the self-test goes to the PSRAM. -/
theorem selftest_store (hpc : a.pc = addr 1) :
    (env inp).step (t, a) = some (t + 89, a.goto (addr 2)) := by
  have hwrite : ∀ v, a.mem.write 0xE0 v 0 = a.mem := fun v =>
    a.mem.write_of_in_ext _ _ _ ((a.mem.in_ext_iff _).mpr (.inl (by decide)))
  have h := boot_store inp .sb (t := t) hpc rfl (stall_selftest _)
  have hmem : a.mem.write ((a.reg 0 + (0xE0 : BitVec 12).signExtend 32).setWidth 8) (a.reg 2)
      (sizeCode (Rv32i.StoreOp.width .sb)) = a.mem := hwrite _
  rwa [hmem] at h

variable (inp) in
/-- SELFTEST_PASS and MAIN_INIT. -/
theorem selftest_pass (hpc : a.pc = addr 7) :
    ∃ a', Boots inp (t, a) (t + 14, a') ∧ a'.pc = addr MAIN_LOOP ∧ a'.mem = a.mem :=
  ⟨_, Boots.step hpc (by decide) (by decide) (boot_opImm hpc rfl)
    (Boots.step rfl (by decide) (by decide) (boot_opImm rfl rfl) (.refl _)), rfl, rfl⟩

variable (inp) in
/-- The failure branch of the self-test and MAIN_INIT. -/
theorem selftest_fail (hpc : a.pc = addr 4) :
    ∃ a', Boots inp (t, a) (t + 28, a') ∧ a'.pc = addr MAIN_LOOP ∧ a'.mem = a.mem :=
  ⟨_, Boots.step hpc (by decide) (by decide) (boot_opImm hpc rfl)
    (Boots.step rfl (by decide) (by decide) (boot_shift rfl rfl)
      (Boots.step rfl (by decide) (by decide) (boot_j 8 rfl rfl rfl)
        (Boots.step rfl (by decide) (by decide) (boot_opImm rfl rfl) (.refl _)))), rfl, rfl⟩

/-- The load of the self-test reads what MISO carried in its transaction. -/
theorem selftest_load (hpc : a.pc = addr 2) : (env inp).step (96, a) = some (185, (a.setReg 6
    (((sampledWord (fun τ => (inp τ).miso) 101 1).extractLsb' 0 8).setWidth 32)).goto (addr 3)) := by
  have hrom : a.pc.toNat < 0xB0 := by rw [hpc]; decide
  have hread : (env inp).load 96 a (.load .lbu 6 0 0xE0) = sampledWord (fun τ => (inp τ).miso) 101 1 := by
    show a.mem.rdata 0xE0 bootRom _ (sampledWord _ (96 + a.fetchStall + 5) 1) = _
    rw [MemRegs.rdata_of_external _ _ _ _ _ (.inl (by decide)), Arch.fetchStall_rom _ hrom]
  rw [Env.step_load (fetchStall_boot hpc (by decide)) (instr_boot inp hpc rfl) (stall_selftest _), hread, hpc,
    addr_succ, ← BitVec.setWidth_eq_extractLsb' (show 8 ≤ 32 by decide)]
  rfl

/-- The branch of the self-test. -/
theorem beq_passes (inp : Nat → Inputs) : Rv32i.BranchOp.holds .beq
    (((sampledWord (fun τ => (inp τ).miso) 101 1).extractLsb' 0 8).setWidth 32) 0xA5#32 = decide (Passes inp) := by
  have hbyte : ∀ v : BitVec 8, v.setWidth 32 = 0xA5#32 ↔ v = 0xA5 := by decide
  rw [Rv32i.BranchOp.holds, Bool.eq_iff_iff, beq_iff_eq, decide_eq_true_eq]
  exact hbyte _

variable (inp) in
/-- SELFTEST ends in the demo loop, whatever the PSRAM answers. -/
theorem selftest (hpc : a.pc = addr 0) :
    ∃ a', Boots inp (0, a) (demoStart inp, a') ∧ a'.pc = addr MAIN_LOOP ∧ a'.mem = a.mem := by
  obtain ⟨b, hread, h2, h6, hmem⟩ : ∃ b : Arch, Boots inp (0, a) (185, b.goto (addr 3)) ∧ b.reg 2 = 0xA5#32 ∧
      b.reg 6 = ((sampledWord (fun τ => (inp τ).miso) 101 1).extractLsb' 0 8).setWidth 32 ∧ b.mem = a.mem :=
    ⟨_, Boots.step hpc (by decide) (by decide) (boot_opImm hpc rfl)
      (Boots.step rfl (by decide) (by decide) (selftest_store rfl)
        (Boots.step rfl (by decide) (by decide) (selftest_load rfl) (.refl _))), rfl, rfl, rfl⟩
  have hbranch := boot_branch inp (t := 185) (a := b.goto (addr 3)) 7 rfl rfl rfl
  rw [Arch.reg_goto, Arch.reg_goto, h2, h6, beq_passes] at hbranch
  unfold demoStart
  by_cases hp : Passes inp
  · rw [decide_eq_true hp, if_pos rfl] at hbranch
    obtain ⟨a', hpass, hpc', hmem'⟩ := selftest_pass inp (t := 192) (a := b.goto (addr 7)) rfl
    rw [if_pos hp]
    exact ⟨a', hread.trans (Boots.step rfl (by decide) (by decide) hbranch hpass), hpc', hmem'.trans hmem⟩
  · rw [decide_eq_false hp, if_neg Bool.false_ne_true] at hbranch
    obtain ⟨a', hfail, hpc', hmem'⟩ := selftest_fail inp (t := 192) (a := b.goto (addr 4)) rfl
    rw [if_neg hp]
    exact ⟨a', hread.trans (Boots.step rfl (by decide) (by decide) hbranch hfail), hpc', hmem'.trans hmem⟩

theorem demoStart_cases (inp : Nat → Inputs) : demoStart inp = 206 ∨ demoStart inp = 220 := by
  rw [demoStart]
  split
  · exact .inl rfl
  · exact .inr rfl

/-- The poll of START. -/
theorem poll_start (hpc : a.pc = addr MAIN_LOOP) {b : Bool} (h : start (inp (t + 6)).ui_in = b) :
    Boots inp (t, a) (t + 21, (a.setReg 2 (if b then 4#32 else 0#32)).goto
      (addr (if b = true then START_SEEN else 12))) := by
  refine Boots.step hpc (by decide) (by decide) (boot_gpio hpc rfl) ?_
  refine Boots.step rfl (by decide) (by decide) (boot_opImm rfl rfl) ?_
  refine Boots.step rfl (by decide) (by decide) (boot_branch _ 17 rfl rfl rfl) ?_
  refine .of_eq rfl ?_
  simp [Rv32i.ImmOp.eval, Rv32i.BranchOp.holds, mask_start, h]
  cases b <;> rfl

variable (inp) in
/-- The rest of the demo loop: the counter goes to the LEDs. -/
theorem demo_count (hpc : a.pc = addr 12) :
    ∃ a', Boots inp (t, a) (t + 35, a') ∧ a'.pc = addr MAIN_LOOP ∧ a.mem.Kept a'.mem := by
  obtain ⟨v, hcount⟩ : ∃ v : Arch, Boots inp (t, a) (t + 21, v.goto (addr 15)) ∧ v.mem = a.mem :=
    ⟨_, Boots.step hpc (by decide) (by decide) (boot_opImm hpc rfl)
      (Boots.step rfl (by decide) (by decide) (boot_opImm rfl rfl)
        (Boots.step rfl (by decide) (by decide) (boot_opReg rfl rfl) (.refl _))), rfl⟩
  have hstall : v.mem.stall 0xF0 2 = 0 := by
    apply Arch.stall_eq_zero
    rintro (⟨-, h⟩ | ⟨-, -, h⟩)
    · exact absurd h (by decide)
    · exact absurd h (by decide)
  have hstore := boot_store inp .sw (t := t + 21) (a := v.goto (addr 15)) rfl rfl hstall
  refine ⟨_, hcount.1.trans (Boots.step rfl (by decide) (by decide) hstore
    (Boots.step rfl (by decide) (by decide) (boot_j 9 rfl rfl rfl) (.refl _))), rfl, ?_⟩
  rw [← hcount.2]
  exact v.mem.kept_led _ 2

/-- The demo loop leaves for START_SEEN at the first sample that sees START. -/
theorem demo_loop (hpc : a.pc = addr MAIN_LOOP) (n : Nat) (h : start (inp (t + 6 + 56 * n)).ui_in = true) :
    ∃ u a', u ≤ t + 56 * n + 21 ∧ Boots inp (t, a) (u, a') ∧ a'.pc = addr START_SEEN ∧
      a.mem.Kept a'.mem := by
  induction n generalizing t a with
  | zero =>
    have hleave := poll_start hpc h
    exact ⟨_, _, le_rfl, hleave, rfl, .refl _⟩
  | succ n ih =>
    cases hb : start (inp (t + 6)).ui_in with
    | true =>
      have hleave := poll_start hpc hb
      exact ⟨_, _, by omega, hleave, rfl, .refl _⟩
    | false =>
      have hstay := poll_start hpc hb
      obtain ⟨a1, hb1, hpc1, hk1⟩ := demo_count inp (t := t + 21)
        (a := (a.setReg 2 0#32).goto (addr 12)) rfl
      obtain ⟨u, a2, hu, hb2, hpc2, hk2⟩ := ih (t := t + 56) hpc1 (by
        rw [show t + 56 + 6 + 56 * n = t + 6 + 56 * (n + 1) by omega]
        exact h)
      exact ⟨u, a2, by omega, (hstay.trans hb1).trans hb2, hpc2, hk1.trans hk2⟩

/-! ## One byte -/

/-- BYTE_LOOP with `i` of the `bytes` loaded over the RAM of `m`. -/
structure AtByte (m : MemRegs) (bytes : List (BitVec 8)) (i : Nat) (a : Arch) : Prop where
  pc : a.pc = addr BYTE_LOOP
  left : a.reg 4 = BitVec.ofNat 32 (bytes.length - i)
  ptr : a.reg 5 = BitVec.ofNat 32 (0xB4 + i)
  flash_mode : a.mem.flash_mode = m.flash_mode
  flash_page : a.mem.flash_page = m.flash_page
  ram : ∀ b, 0xB0 ≤ b → b ≤ 0xDF → a.mem.ramByte b =
    if 0xB4 ≤ b ∧ b < 0xB4 + i then bytes.getD (b - 0xB4) 0 else m.ramByte b

theorem low_byte (v : BitVec 8) : (v.setWidth 32).extractLsb' 0 8 = v := by
  apply BitVec.eq_of_getLsbD_eq
  intro i hi
  simp [hi, show i < 32 by omega]

/-- The write pointer as an address. -/
theorem ptr_addr {n : Nat} (v : Word) (hv : v = BitVec.ofNat 32 n) :
    (v + (0 : BitVec 12).signExtend 32).setWidth 8 = BitVec.ofNat 8 n := by
  subst hv
  rw [show (0 : BitVec 12).signExtend 32 = 0#32 by decide, BitVec.add_zero]
  apply BitVec.eq_of_toNat_eq
  rw [BitVec.toNat_setWidth, BitVec.toNat_ofNat, BitVec.toNat_ofNat]
  omega

variable (inp) in
/-- The bookkeeping of BYTE_LOOP after its store. -/
theorem advance (hpc : a.pc = addr 23) :
    ∃ a', Boots inp (t, a) (t + 21, a') ∧ a'.pc = addr BYTE_LOOP ∧ a'.mem = a.mem ∧
      a'.reg 4 = a.reg 4 + (0xFFF : BitVec 12).signExtend 32 ∧
      a'.reg 5 = a.reg 5 + (1 : BitVec 12).signExtend 32 := by
  refine ⟨_, Boots.step hpc (by decide) (by decide) (boot_opImm hpc rfl)
    (Boots.step rfl (by decide) (by decide) (boot_opImm rfl rfl)
      (Boots.step rfl (by decide) (by decide) (boot_j 20 rfl rfl rfl) (.refl _))), rfl, rfl, ?_, ?_⟩
  · rw [Arch.reg_goto, Arch.reg_goto, Arch.reg_setReg, if_pos (by decide), Arch.reg_goto, Arch.reg_setReg,
      if_neg (by decide)]
    rfl
  · rw [Arch.reg_goto, Arch.reg_goto, Arch.reg_setReg, if_neg (by decide), Arch.reg_goto, Arch.reg_setReg,
      if_pos (by decide)]
    rfl

variable (inp) in
/-- The store of BYTE_LOOP and the way back to its head. The 45th byte goes to the address of the self-test. -/
theorem store_turn {i : Nat} (hpc : a.pc = addr 22) (hptr : a.reg 5 = BitVec.ofNat 32 (0xB4 + i))
    (hmode : a.mem.flash_mode = false) (hi : i ≤ 44) :
    ∃ a', Boots inp (t, a) (t + (if i = 44 then 110 else 28), a') ∧ a'.pc = addr BYTE_LOOP ∧
      a'.mem = a.mem.write (BitVec.ofNat 8 (0xB4 + i)) (a.reg 6) 0 ∧
      a'.reg 4 = a.reg 4 + (0xFFF : BitVec 12).signExtend 32 ∧
      a'.reg 5 = a.reg 5 + (1 : BitVec 12).signExtend 32 := by
  have haddr := ptr_addr _ hptr
  have hnat : (BitVec.ofNat 8 (0xB4 + i)).toNat = 0xB4 + i := by
    rw [BitVec.toNat_ofNat]
    omega
  have hstall : a.mem.stall ((a.reg 5 + (0 : BitVec 12).signExtend 32).setWidth 8)
      (sizeCode (Rv32i.StoreOp.width .sb)) = if i = 44 then 82 else 0 := by
    rw [haddr]
    by_cases h44 : i = 44
    · subst h44
      exact stall_selftest _
    · rw [if_neg h44]
      apply Arch.stall_eq_zero
      rintro (⟨h, -⟩ | ⟨h, -⟩)
      · omega
      · rw [hmode] at h
        cases h
  have hstore := boot_store inp .sb (t := t) hpc rfl hstall
  rw [haddr] at hstore
  have h5 : (a.reg 5).toNat = 0xB4 + i := by
    rw [hptr, BitVec.toNat_ofNat]
    omega
  obtain ⟨a', hback, hpc', hmem', h4, h5'⟩ := advance inp (t := t + (7 + if i = 44 then 82 else 0)) (a := (a.setMem
    (a.mem.write (BitVec.ofNat 8 (0xB4 + i)) (a.reg 6) 0)).goto (addr 23)) rfl
  have htime : t + (7 + if i = 44 then 82 else 0) + 21 = t + if i = 44 then 110 else 28 := by
    split <;> rfl
  rw [htime] at hback
  exact ⟨a', Boots.store_step hpc (by omega) (by omega) hstore hback, hpc', hmem', h4, h5'⟩

variable (inp) in
/-- The store of a byte that has a place in the load window. -/
theorem store_byte {m : MemRegs} {bytes : List (BitVec 8)} {i : Nat} (hm : m.flash_mode = false)
    (hpc : a.pc = addr 22) (h6 : a.reg 6 = (bytes.getD i 0).setWidth 32)
    (ha : AtByte m bytes i (a.goto (addr BYTE_LOOP))) (hi : i < bytes.length) (hwin : i < 44) :
    ∃ a', Boots inp (t, a) (t + 28, a') ∧ AtByte m bytes (i + 1) a' := by
  have hptr : a.reg 5 = BitVec.ofNat 32 (0xB4 + i) := ha.ptr
  have hleft : a.reg 4 = BitVec.ofNat 32 (bytes.length - i) := ha.left
  have hmode : a.mem.flash_mode = false := ha.flash_mode.trans hm
  have hnat : (BitVec.ofNat 8 (0xB4 + i)).toNat = 0xB4 + i := by
    rw [BitVec.toNat_ofNat]
    omega
  have hmem : ∀ b, 0xB0 ≤ b → b ≤ 0xDF →
      (a.mem.write (BitVec.ofNat 8 (0xB4 + i)) (a.reg 6) 0).ramByte b =
        if 0xB4 ≤ b ∧ b < 0xB4 + (i + 1) then bytes.getD (b - 0xB4) 0 else m.ramByte b := by
    intro b h1 h2
    rw [MemRegs.ramByte_write hmode (by omega) (by omega) _ h1 h2, hnat]
    by_cases hb : b = 0xB4 + i
    · rw [if_pos hb, if_pos (by omega), h6, show b - 0xB4 = i by omega, low_byte]
    · rw [if_neg hb, show a.mem.ramByte b = _ from ha.ram b h1 h2]
      exact if_congr (by omega) rfl rfl
  obtain ⟨hkeep, hkeep'⟩ := MemRegs.write_byte_regs hmode (show 0xB0 ≤ (BitVec.ofNat 8 (0xB4 + i)).toNat by
    omega) (by omega) (a.reg 6)
  obtain ⟨a', hstore, hpc', hmem', h4, h5'⟩ := store_turn inp (t := t) hpc hptr hmode (by omega)
  rw [if_neg (by omega)] at hstore
  refine ⟨a', hstore, hpc', ?_, ?_, ?_, ?_, ?_⟩
  · exact h4.trans (decrement hleft (by omega))
  · exact h5'.trans (increment hptr)
  · exact (congrArg MemRegs.flash_mode hmem').trans (hkeep.trans ha.flash_mode)
  · exact (congrArg MemRegs.flash_page hmem').trans (hkeep'.trans ha.flash_page)
  · exact fun b h1 h2 => (congrArg (·.ramByte b) hmem').trans (hmem b h1 h2)

variable (inp) in
/-- As long as there is a length left, BYTE_LOOP calls RECV_BYTE. -/
theorem byte_loop_call (hpc : a.pc = addr BYTE_LOOP) (h4 : a.reg 4 ≠ 0#32) :
    Boots inp (t, a) (t + 14, (a.setReg 1 ((addr 22).setWidth 32)).goto (addr RECV_BYTE)) := by
  have hbranch := boot_branch inp (t := t) 26 hpc rfl rfl
  have hno : Rv32i.BranchOp.holds .beq (a.reg 4) (a.reg 0) = false := by
    simpa [Rv32i.BranchOp.holds] using h4
  rw [hno] at hbranch
  exact Boots.step hpc (by decide) (by decide) hbranch
    (Boots.step rfl (by decide) (by decide) (boot_jal 27 rfl rfl rfl) (.refl _))

/-- With no length left, BYTE_LOOP goes on to RUN, which jumps to the load window. -/
theorem byte_loop_run (hpc : a.pc = addr BYTE_LOOP) (h4 : a.reg 4 = 0#32) :
    Boots inp (t, a) (t + 14, a.goto 0xB4) := by
  have hbranch := boot_branch inp (t := t) 26 hpc rfl rfl
  have hyes : Rv32i.BranchOp.holds .beq (a.reg 4) (a.reg 0) = true := by
    rw [h4]
    rfl
  rw [hyes] at hbranch
  exact Boots.step hpc (by decide) (by decide) hbranch
    (Boots.step rfl (by decide) (by decide) (boot_j 45 rfl rfl rfl) (.refl _))

theorem ofNat_ne_zero {n : Nat} (h0 : n ≠ 0) (h : n < 256) : BitVec.ofNat 32 n ≠ 0#32 := by
  intro h'
  have := congrArg BitVec.toNat h'
  rw [BitVec.toNat_ofNat] at this
  simp at this
  omega

/-- BYTE_LOOP receives the next byte. -/
theorem receive_byte {m : MemRegs} {bytes : List (BitVec 8)} {i p : Nat} {rise fall : Nat → Nat}
    (ha : AtByte m bytes i a) (hi : i < bytes.length) (hlen : bytes.length < 256)
    (hp : Pulses (fun τ => (inp τ).ui_in) p rise fall (bytes.getD i 0).getMsbD 8) (hlo : p ≤ t + 34)
    (hhi : t + 14 ≤ rise 0) :
    ∃ u a', fall 7 + 43 ≤ u ∧ u < fall 7 + 64 ∧ Boots inp (t, a) (u, a') ∧ a'.pc = addr 22 ∧
      a'.reg 6 = (bytes.getD i 0).setWidth 32 ∧ AtByte m bytes i (a'.goto (addr BYTE_LOOP)) := by
  have hleft : a.reg 4 ≠ 0#32 := by
    rw [ha.left]
    exact ofNat_ne_zero (by omega) (by omega)
  have hcall := byte_loop_call inp (t := t) ha.pc hleft
  obtain ⟨u, a1, h1, h2, hrecv, hpc1, h6, hf⟩ := recv_byte (t := t + 14) (k := 22)
    (a := (a.setReg 1 ((addr 22).setWidth 32)).goto (addr RECV_BYTE)) (by decide) rfl hp (by omega)
    (by omega) (Arch.reg_setReg_self _ _ (by decide))
  refine ⟨u, a1, h1, h2, hcall.trans hrecv, hpc1, h6, ?_⟩
  exact
    { pc := rfl
      left := (hf.reg 4 (by decide)).trans ha.left
      ptr := (hf.reg 5 (by decide)).trans ha.ptr
      flash_mode := (congrArg MemRegs.flash_mode hf.mem).trans ha.flash_mode
      flash_page := (congrArg MemRegs.flash_page hf.mem).trans ha.flash_page
      ram := fun b h1 h2 => (congrArg (·.ramByte b) hf.mem).trans (ha.ram b h1 h2) }

/-- One turn of BYTE_LOOP loads the next byte. -/
theorem load_byte {m : MemRegs} {bytes : List (BitVec 8)} {i p : Nat} {rise fall : Nat → Nat}
    (hm : m.flash_mode = false) (ha : AtByte m bytes i a) (hi : i < bytes.length) (hwin : i < 44)
    (hlen : bytes.length < 256)
    (hp : Pulses (fun τ => (inp τ).ui_in) p rise fall (bytes.getD i 0).getMsbD 8) (hlo : p ≤ t + 34)
    (hhi : t + 14 ≤ rise 0) :
    ∃ u a', fall 7 + 57 ≤ u ∧ u < fall 7 + 92 ∧ Boots inp (t, a) (u, a') ∧ AtByte m bytes (i + 1) a' := by
  obtain ⟨u, a1, h1, h2, hrecv, hpc1, h6, ha1⟩ := receive_byte ha hi hlen hp hlo hhi
  obtain ⟨a2, hstore, ha2⟩ := store_byte inp (t := u) hm hpc1 h6 ha1 hi hwin
  exact ⟨u + 28, a2, by omega, by omega, hrecv.trans hstore, ha2⟩

/-! ## The message -/

variable {S : Nat} {rise fall : Nat → Nat} {bytes : List (BitVec 8)}

variable (inp) in
/-- The length goes to `x4`, and the write pointer to the load window. -/
theorem length_seen (hpc : a.pc = addr 18) :
    ∃ a', Boots inp (t, a) (t + 14, a') ∧ a'.pc = addr BYTE_LOOP ∧ a'.mem = a.mem ∧ a'.reg 4 = a.reg 6 ∧
      a'.reg 5 = 0xB4#32 := by
  refine ⟨_, Boots.step hpc (by decide) (by decide) (boot_opReg hpc rfl)
    (Boots.step rfl (by decide) (by decide) (boot_opImm rfl rfl) (.refl _)), rfl, rfl, ?_, ?_⟩
  · rw [Arch.reg_goto, Arch.reg_setReg, if_neg (by decide), Arch.reg_goto, Arch.reg_setReg, if_pos (by decide)]
    exact BitVec.add_zero _
  · rw [Arch.reg_goto, Arch.reg_setReg, if_pos (by decide)]
    rfl

/-- From START_SEEN to BYTE_LOOP: the length byte is received. -/
theorem start_seen {m : MemRegs} (hsends : Sends (fun τ => (inp τ).ui_in)
    (BitVec.ofNat 8 bytes.length :: bytes) S rise fall) (hlen : bytes.length < 256)
    (hpc : a.pc = addr START_SEEN) (hm : m.Kept a.mem) (ht : t + 7 ≤ rise 0) :
    ∃ u a', fall 7 + 57 ≤ u ∧ u < fall 7 + 92 ∧ Boots inp (t, a) (u, a') ∧ AtByte m bytes 0 a' := by
  have hp := hsends.byte (k := 0) (Nat.succ_pos _)
  simp only [if_true, Nat.mul_zero, Nat.zero_add, List.getD_cons_zero] at hp
  obtain ⟨u, a1, h1, h2, hrecv, hpc1, h6, hf⟩ := recv_byte (t := t + 7) (k := 18)
    (a := (a.setReg 1 ((addr 18).setWidth 32)).goto (addr RECV_BYTE)) (by decide) rfl hp (by omega)
    (by omega) (Arch.reg_setReg_self _ _ (by decide))
  have hcall : Boots inp (t, a) (t + 7, (a.setReg 1 ((addr 18).setWidth 32)).goto (addr RECV_BYTE)) :=
    Boots.step hpc (by decide) (by decide) (boot_jal 27 hpc rfl rfl) (.refl _)
  have hlength : (BitVec.ofNat 8 bytes.length).setWidth 32 = BitVec.ofNat 32 bytes.length := by
    apply BitVec.eq_of_toNat_eq
    rw [BitVec.toNat_setWidth, BitVec.toNat_ofNat, BitVec.toNat_ofNat]
    omega
  obtain ⟨a2, hseen, hpc2, hmem2, h4, h5⟩ := length_seen inp (t := u) hpc1
  have hmem : a2.mem = a.mem := hmem2.trans hf.mem
  refine ⟨u + 14, a2, by omega, by omega, (hcall.trans hrecv).trans hseen, ?_⟩
  refine
    { pc := hpc2
      left := by rw [h4, h6, hlength, Nat.sub_zero]
      ptr := h5
      flash_mode := (congrArg MemRegs.flash_mode hmem).trans hm.flash_mode
      flash_page := (congrArg MemRegs.flash_page hmem).trans hm.flash_page
      ram := fun b h1 h2 => ?_ }
  rw [if_neg (by omega), ← hm.ramByte b]
  exact congrArg (·.ramByte b) hmem

/-- The bytes are received one after the other. -/
theorem load_bytes {m : MemRegs} (hsends : Sends (fun τ => (inp τ).ui_in)
    (BitVec.ofNat 8 bytes.length :: bytes) S rise fall) (hlen : bytes.length < 256)
    (hm : m.flash_mode = false) (ha : AtByte m bytes 0 a) (hlo : fall 7 + 57 ≤ t)
    (hhi : t < fall 7 + 92) (i : Nat) (hi : i ≤ bytes.length) (hwin : i ≤ 44) :
    ∃ u a', fall (8 * i + 7) + 57 ≤ u ∧ u < fall (8 * i + 7) + 92 ∧ Boots inp (t, a) (u, a') ∧
      AtByte m bytes i a' := by
  induction i with
  | zero => exact ⟨t, a, hlo, hhi, .refl _, ha⟩
  | succ i ih =>
    obtain ⟨u, a1, h1, h2, hb1, ha1⟩ := ih (by omega) (by omega)
    have hlen' : (BitVec.ofNat 8 bytes.length :: bytes).length = bytes.length + 1 := rfl
    have hp := hsends.byte (k := i + 1) (by omega)
    have hgap := (hsends.next (8 * i + 7) (by omega)).1
    rw [if_neg (Nat.succ_ne_zero i), List.getD_cons_succ, show 8 * (i + 1) - 1 = 8 * i + 7 by omega] at hp
    obtain ⟨u', a2, h3, h4, hb2, ha2⟩ := load_byte (t := u) hm ha1 (by omega) (by omega) hlen hp (by omega)
      (by rw [show 8 * (i + 1) + 0 = 8 * i + 7 + 1 by omega]; omega)
    exact ⟨u', a2, h3, h4, hb1.trans hb2, ha2⟩

/-- From reset, the ROM receives every byte that has a place in the load window. -/
theorem reset_to_byte (hpc : a.pc = addr 0) (hm : a.mem.flash_mode = false)
    (hsends : Sends (fun τ => (inp τ).ui_in) (BitVec.ofNat 8 bytes.length :: bytes) S rise fall)
    (hlen : bytes.length < 256) (i : Nat) (hi : i ≤ bytes.length) (hwin : i ≤ 44) :
    ∃ u a', fall (8 * i + 7) + 57 ≤ u ∧ u < fall (8 * i + 7) + 92 ∧ Boots inp (0, a) (u, a') ∧
      AtByte a.mem bytes i a' := by
  obtain ⟨a1, hb1, hpc1, hmem1⟩ := selftest inp hpc
  have hreset := hsends.after_reset
  have hstart := hsends.after_start
  have hdemo := demoStart_cases inp
  -- the first poll that is not before START
  obtain ⟨n, hn1, hn2⟩ : ∃ n, S ≤ demoStart inp + 6 + 56 * n ∧ demoStart inp + 6 + 56 * n + 200 ≤ rise 0 :=
    ⟨(S - (demoStart inp + 6) + 55) / 56, by omega, by omega⟩
  obtain ⟨t2, a2, ht2, hb2, hpc2, hk2⟩ := demo_loop hpc1 n (hsends.started _ hn1 (by omega))
  rw [hmem1] at hk2
  obtain ⟨t3, a3, h3, h3', hb3, ha3⟩ := start_seen (t := t2) hsends hlen hpc2 hk2 (by omega)
  obtain ⟨u, a4, h4, h4', hb4, ha4⟩ := load_bytes (t := t3) hsends hlen hm ha3 h3 h3' i hi hwin
  exact ⟨u, a4, h4, h4', ((hb1.trans hb2).trans hb3).trans hb4, ha4⟩

/-- After the last byte the ROM jumps to the load window. -/
theorem run_program {m : MemRegs} (ha : AtByte m bytes bytes.length a) :
    Boots inp (t, a) (t + 14, a.goto 0xB4) :=
  byte_loop_run ha.pc (by rw [ha.left, Nat.sub_self])

end Boot

end Pineapple
