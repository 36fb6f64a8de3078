import Pineapple.Boot.Proofs.LoadProofs
import Pineapple.Machine.Proofs.CycleProofs

/-!
# Proofs: the self-test and the demo loop, cycle by cycle

One turn of the demo loop takes 56 clocks, with its sample of START in the seventh and its store in the
forty-eighth. `AtDemo` is its invariant; every cycle of a run in which START was not sampled belongs to the
self-test or to one of the turns.
-/

namespace Pineapple

open Rv32i (Instr Word Reg)

namespace Boot

variable {inp : Nat → Inputs} {s : Nat → Top} {t j k : Nat} {a : Arch} {i : Instr} {c : Nat × Arch}

/-! ## Cycles in which nothing happens -/

/-- No transaction starts and no store goes to the LEDs, which show `g`. -/
structure Still (g : BitVec 8) (s : Top) : Prop where
  accepts : ¬ Qspi.Accepts s.eng s.req
  store : ¬ LedStore s
  led : s.uo_out = g

/-- The instruction reads or writes no external address and no LED. -/
def Silent (a : Arch) (i : Instr) : Prop :=
  ∀ acc, a.access i = some acc → acc.data = none ∧ ¬ a.mem.External (acc.addr.setWidth 8)

theorem Silent.of_none (h : a.access i = none) : Silent a i := by
  intro acc ha
  rw [h] at ha
  cases ha

theorem external_rom (m : MemRegs) {pc : BitVec 8} (h : pc.toNat < 0xB0) : ¬ m.External pc := by
  rintro (h' | h')
  · unfold MemRegs.InPsram at h'
    omega
  · unfold MemRegs.InFlash at h'
    omega

/-- The pins are not external. -/
theorem silent_gpio (a : Arch) : Silent a (.load .lw 2 0 0xF4) := by
  intro acc ha
  cases ha
  refine ⟨rfl, show ¬ a.mem.External 0xF4 from ?_⟩
  rintro (⟨-, h⟩ | ⟨-, -, h⟩)
  · exact absurd h (by decide)
  · exact absurd h (by decide)

/-- The chip goes from one state to another with nothing to be seen. -/
structure Calm (s : Nat → Top) (c c' : Nat × Arch) : Prop where
  at_fetch : Top.At s c'.1 c'.2
  mem : c'.2.mem = c.2.mem
  le : c.1 ≤ c'.1
  still : ∀ τ, c.1 ≤ τ → τ < c'.1 → Still c.2.mem.gpio_out (s τ)

theorem Calm.trans {c c' c'' : Nat × Arch} (h : Calm s c c') (h' : Calm s c' c'') : Calm s c c'' where
  at_fetch := h'.at_fetch
  mem := h'.mem.trans h.mem
  le := h.le.trans h'.le
  still τ h1 h2 := by
    by_cases hτ : τ < c'.1
    · exact h.still τ h1 hτ
    · have := h'.still τ (by omega) h2
      rwa [h.mem] at this

section Run

variable (hs : Top.Run bootRom inp s) (h0 : Top.AtFetch (s 0))

include hs h0

/-- The cycles of a word of the ROM. -/
theorem word_cycles (hat : Top.At s t a) (hpc : a.pc = addr j) (hi : program[j]? = some i) :
    Top.Cycles s t a i := by
  obtain ⟨hst, rfl⟩ := hat
  exact Top.run_cycles hs (Top.atFetch_of_state hs h0 hst) (instr_boot inp hpc hi)

/-- The configuration after a word of the ROM. -/
theorem word_at (hat : Top.At s t a) (hstep : (env inp).step (t, a) = some c) : Top.At s c.1 c.2 :=
  (@Top.run_path _ _ _ Unit (fun _ => []) hs h0 _ Top.agrees_chip _ _ _ (.single hstep) hat).1

/-- A silent word of the ROM. -/
theorem calm_step (hat : Top.At s t a) (hpc : a.pc = addr j) (hi : program[j]? = some i) (hq : Silent a i)
    (hstep : (env inp).step (t, a) = some c) : Calm s (t, a) c := by
  have hc := word_cycles hs h0 hat hpc hi
  have hnext : c = (t + a.cycles i, a.exec i ((env inp).load t a i)) :=
    Option.some.inj (hstep.symm.trans (Env.step_eq (instr_boot inp hpc hi)))
  have hstore : a.store i = a.mem := by
    rw [Arch.store]
    cases ha : a.access i with
    | none => rfl
    | some acc =>
      obtain ⟨addr, width, data⟩ := acc
      obtain ⟨hd, -⟩ := hq _ ha
      cases hd
      rfl
  have hat' := word_at hs h0 hat hstep
  subst hnext
  refine ⟨hat', hstore, Nat.le_add_right _ _, fun τ h1 h2 => ⟨?_, ?_, ?_⟩⟩
  · rw [hc.accepts τ h1 h2]
    rintro (⟨-, h⟩ | ⟨-, acc, ha, h⟩)
    · exact external_rom _ (by rw [hpc, addr_toNat (lt_of_program hi)]; have := lt_of_program hi; omega) h
    · exact (hq acc ha).2 h
  · rintro ⟨hwe, -⟩
    obtain ⟨-, -, acc, v, ha, hv⟩ := (hc.we τ h1 h2).mp hwe
    rw [(hq acc ha).1] at hv
    cases hv
  · by_cases hτ : τ + 1 < t + a.cycles i
    · exact congrArg MemRegs.gpio_out (hc.before τ h1 hτ)
    · exact (congrArg MemRegs.gpio_out (hc.after τ h2 (by omega))).trans (by rw [hstore])

/-! ## One turn of the demo loop -/

/-- The store of the demo loop. -/
theorem led_store (hat : Top.At s t a) (hpc : a.pc = addr 15) :
    Top.At s (t + 7) ((a.setMem (a.mem.write 0xF0 (a.reg 2) 2)).goto (addr 16)) ∧
      ∀ τ, t ≤ τ → τ < t + 7 → ¬ Qspi.Accepts (s τ).eng (s τ).req ∧ (LedStore (s τ) ↔ τ = t + 5) ∧
        (s τ).uo_out = if τ < t + 6 then a.mem.gpio_out else (a.reg 2).extractLsb' 0 8 := by
  have hext : ¬ a.mem.External 0xF0 := by
    rintro (⟨-, h⟩ | ⟨-, -, h⟩)
    · exact absurd h (by decide)
    · exact absurd h (by decide)
  have hacc : a.access (.store .sw 2 0 0xF0) = some ⟨a.reg 0 + (0xF0 : BitVec 12).signExtend 32, .word, a.reg 2⟩ :=
    rfl
  have hstall : a.dataStall (.store .sw 2 0 0xF0) = 0 := Arch.stall_eq_zero _ hext
  have hf : a.fetchStall = 0 := Arch.fetchStall_rom _ (by rw [hpc]; decide)
  have hcyc : a.cycles (.store .sw 2 0 0xF0) = 7 := by rw [Arch.cycles, hf, hstall]
  have hc := word_cycles hs h0 hat hpc (i := .store .sw 2 0 0xF0) rfl
  refine ⟨word_at hs h0 hat (boot_store inp .sw hpc rfl (Arch.stall_eq_zero _ hext)), fun τ h1 h2 => ?_⟩
  refine ⟨?_, ?_, ?_⟩
  · rw [hc.accepts τ h1 (by omega)]
    rintro (⟨-, h⟩ | ⟨-, acc, ha, h⟩)
    · exact external_rom _ (by rw [hpc]; decide) h
    · cases Option.some.inj (hacc.symm.trans ha)
      exact hext h
  · have hwe := hc.we τ h1 (by omega)
    rw [hf, hcyc] at hwe
    constructor
    · rintro ⟨h, -⟩
      have := hwe.mp h
      omega
    · rintro rfl
      refine ⟨hwe.mpr ⟨by omega, by omega, _, _, hacc, rfl⟩, ?_⟩
      exact (hc.access _ hacc _ (by omega) (by omega)).addr
  · by_cases hτ : τ < t + 6
    · rw [if_pos hτ]
      exact congrArg MemRegs.gpio_out (hc.before τ h1 (by omega))
    · rw [if_neg hτ]
      exact (congrArg MemRegs.gpio_out (hc.after τ (by omega) (by omega))).trans
        ((a.mem.write_gpio 0xF0 (a.reg 2) 2).trans (if_pos rfl))

end Run

/-- What the LEDs show after `k` stores. -/
def leds (inp : Nat → Inputs) (k : Nat) : BitVec 8 := if k = 0 then 0 else verdict inp + BitVec.ofNat 8 (k % 16)

/-- The head of the demo loop after `k` stores. -/
structure AtDemo (inp : Nat → Inputs) (s : Nat → Top) (k t : Nat) (a : Arch) : Prop where
  at_fetch : Top.At s t a
  pc : a.pc = addr MAIN_LOOP
  verdict : a.reg 8 = (verdict inp).setWidth 32
  count : a.reg 9 = BitVec.ofNat 32 (k % 16)
  led : a.mem.gpio_out = leds inp k
  flash_mode : a.mem.flash_mode = false
  flash_page : a.mem.flash_page = 0

theorem count_succ (k : Nat) : BitVec.ofNat 32 (k % 16) + (1 : BitVec 12).signExtend 32 &&&
    (0xF : BitVec 12).signExtend 32 = BitVec.ofNat 32 ((k + 1) % 16) := by
  have h : ∀ n < 16, BitVec.ofNat 32 n + (1 : BitVec 12).signExtend 32 &&& (0xF : BitVec 12).signExtend 32 =
      BitVec.ofNat 32 ((n + 1) % 16) := by decide
  rw [h _ (Nat.mod_lt _ (by decide))]
  congr 1
  omega

/-- The stored word: the verdict is in bit 7 and the counter in the low four. -/
theorem verdict_or (inp : Nat → Inputs) (k : Nat) :
    ((verdict inp).setWidth 32 ||| BitVec.ofNat 32 (k % 16)).extractLsb' 0 8 =
      verdict inp + BitVec.ofNat 8 (k % 16) := by
  have h0 : ∀ n < 16, ((0 : BitVec 8).setWidth 32 ||| BitVec.ofNat 32 n).extractLsb' 0 8 = 0 + BitVec.ofNat 8 n := by
    decide
  have h1 : ∀ n < 16, ((0x80 : BitVec 8).setWidth 32 ||| BitVec.ofNat 32 n).extractLsb' 0 8 =
      0x80 + BitVec.ofNat 8 n := by decide
  rw [verdict]
  split
  · exact h0 _ (Nat.mod_lt _ (by decide))
  · exact h1 _ (Nat.mod_lt _ (by decide))

/-- What is seen in the cycles of the self-test. -/
def SelfTestCycle (s : Nat → Top) (τ : Nat) : Prop :=
  (Qspi.Accepts (s τ).eng (s τ).req ↔ τ = 12 ∨ τ = 101) ∧ ¬ LedStore (s τ) ∧ (s τ).uo_out = 0

variable (inp) in
/-- A branch that is not taken. -/
theorem boot_branch_no {op : Rv32i.BranchOp} {rs1 rs2 : Reg} {off : BitVec 13} (hpc : a.pc = addr j)
    (hi : program[j]? = some (.branch op rs1 rs2 off)) (hno : op.holds (a.reg rs1) (a.reg rs2) = false) :
    (env inp).step (t, a) = some (t + 7, a.goto (addr (j + 1))) := by
  rw [Env.step_branch (fetchStall_boot hpc (lt_of_program hi)) (instr_boot inp hpc hi), hno,
    if_neg Bool.false_ne_true, hpc, addr_succ]

section Turn

variable (hs : Top.Run bootRom inp s) (h0 : Top.AtFetch (s 0))

include hs h0

/-- The load of the demo loop, whatever it reads. -/
theorem demo_sample (h : AtDemo inp s k t a) :
    Calm s (t, a) (t + 7, (a.setReg 2 ((inp (t + 6)).ui_in.setWidth 32)).goto (addr 10)) :=
  calm_step hs h0 h.at_fetch h.pc rfl (silent_gpio a) (boot_gpio h.pc rfl)

/-- The demo loop up to its store. -/
theorem demo_calm (h : AtDemo inp s k t a) (hstart : start (inp (t + 6)).ui_in = false) :
    ∃ a', Calm s (t, a) (t + 42, a') ∧ a'.pc = addr 15 ∧ a'.reg 8 = a.reg 8 ∧
      a'.reg 9 = BitVec.ofNat 32 ((k + 1) % 16) ∧ a'.reg 2 = a.reg 8 ||| BitVec.ofNat 32 ((k + 1) % 16) := by
  have c1 := demo_sample hs h0 h
  have c2 := calm_step hs h0 c1.at_fetch rfl rfl (.of_none rfl) (boot_opImm rfl rfl)
  -- START is low, so the loop goes on
  have hno : ∀ b : Arch, b.reg 2 = (inp (t + 6)).ui_in.setWidth 32 &&& (4 : BitVec 12).signExtend 32 →
      Rv32i.BranchOp.holds .bne (b.reg 2) (b.reg 0) = false := by
    intro b hb
    rw [hb, show (4 : BitVec 12).signExtend 32 = 4#32 by decide, mask_start, hstart]
    rfl
  have c3 := calm_step hs h0 c2.at_fetch rfl rfl (.of_none rfl)
    (boot_branch_no inp rfl rfl (hno _ (Arch.reg_setReg_self _ _ (by decide))))
  have c4 := calm_step hs h0 c3.at_fetch rfl rfl (.of_none rfl) (boot_opImm rfl rfl)
  have c5 := calm_step hs h0 c4.at_fetch rfl rfl (.of_none rfl) (boot_opImm rfl rfl)
  have c6 := calm_step hs h0 c5.at_fetch rfl rfl (.of_none rfl) (boot_opReg rfl rfl)
  have h9 : Rv32i.ImmOp.eval .andi (Rv32i.ImmOp.eval .addi (a.reg 9) ((1 : BitVec 12).signExtend 32))
      ((0xF : BitVec 12).signExtend 32) = BitVec.ofNat 32 ((k + 1) % 16) := by
    rw [h.count]
    exact count_succ k
  refine ⟨_, ((((c1.trans c2).trans c3).trans c4).trans c5).trans c6, rfl, rfl, h9, ?_⟩
  exact congrArg (a.reg 8 ||| ·) h9

/-- One turn of the demo loop. -/
theorem demo_turn (h : AtDemo inp s k t a) (hstart : start (inp (t + 6)).ui_in = false) :
    (∃ a', AtDemo inp s (k + 1) (t + 56) a') ∧
      ∀ τ, t ≤ τ → τ < t + 56 → ¬ Qspi.Accepts (s τ).eng (s τ).req ∧ (LedStore (s τ) ↔ τ = t + 47) ∧
        (s τ).uo_out = leds inp (if τ < t + 48 then k else k + 1) := by
  obtain ⟨a1, hcalm, hpc1, h8, h9, h2⟩ := demo_calm hs h0 h hstart
  obtain ⟨hat2, hstore⟩ := led_store hs h0 hcalm.at_fetch hpc1
  have hjump := calm_step hs h0 hat2 rfl rfl (.of_none rfl) (boot_j 9 rfl rfl rfl)
  have hled : (a1.reg 2).extractLsb' 0 8 = leds inp (k + 1) := by
    rw [h2, h.verdict, verdict_or, leds, if_neg (Nat.succ_ne_zero k)]
  have hgpio : (a1.mem.write 0xF0 (a1.reg 2) 2).gpio_out = leds inp (k + 1) := by
    rw [MemRegs.write_gpio, if_pos rfl, hled]
  obtain ⟨hmode, hpage⟩ := a1.mem.write_flash (a1.reg 2) 2 (show (0xF0 : BitVec 8) ≠ 0xF8 by decide) (by decide)
  have hmem : a1.mem = a.mem := hcalm.mem
  rw [hmem] at hmode hpage
  refine ⟨⟨_, hjump.at_fetch, rfl, h8.trans h.verdict, h9, hgpio, ?_, ?_⟩, fun τ h1 h2 => ?_⟩
  · exact (congrArg (fun m => (MemRegs.write m 0xF0 (a1.reg 2) 2).flash_mode) hmem).trans (hmode.trans h.flash_mode)
  · exact (congrArg (fun m => (MemRegs.write m 0xF0 (a1.reg 2) 2).flash_page) hmem).trans (hpage.trans h.flash_page)
  · by_cases hτ : τ < t + 42
    · obtain ⟨hacc, hno, hg⟩ := hcalm.still τ h1 hτ
      refine ⟨hacc, iff_of_false hno (by omega), ?_⟩
      rw [if_pos (by omega), hg, ← h.led]
    by_cases hτ' : τ < t + 49
    · obtain ⟨hacc, hiff, hg⟩ := hstore τ (by omega) (by omega)
      refine ⟨hacc, hiff.trans (by omega), ?_⟩
      rw [hg, hled, congrArg MemRegs.gpio_out hcalm.mem, h.led]
      by_cases hlt : τ < t + 48
      · rw [if_pos (by omega), if_pos hlt]
      · rw [if_neg (by omega), if_neg hlt]
    · obtain ⟨hacc, hno, hg⟩ := hjump.still τ (by omega) (by omega)
      refine ⟨hacc, iff_of_false hno (by omega), ?_⟩
      rw [if_neg (by omega), hg]
      exact hgpio

/-- The sample of START of a turn. -/
theorem demo_wb (h : AtDemo inp s k t a) :
    (s (t + 6)).core.state = .wb ∧ (s (t + 6)).core.pc.toNat = 4 * MAIN_LOOP := by
  have hc := word_cycles hs h0 h.at_fetch h.pc (i := .load .lw 2 0 0xF4) rfl
  have hf : a.fetchStall = 0 := Arch.fetchStall_rom _ (by rw [h.pc]; decide)
  have hd : a.dataStall (.load .lw 2 0 0xF4) = 0 := by
    refine Arch.stall_eq_zero _ (show ¬ a.mem.External 0xF4 from ?_)
    exact (silent_gpio a _ rfl).2
  have := hc.wb
  rw [hf, hd, h.pc] at this
  exact ⟨this.1, by rw [this.2]; rfl⟩

/-- As long as START was not sampled, the head of the demo loop comes back every 56 clocks. -/
theorem demo_turns {L : Nat} (hL : NotStarted inp s L) (h : AtDemo inp s 0 t a) (n : Nat)
    (hn : t + 56 * n ≤ L) : ∃ a', AtDemo inp s n (t + 56 * n) a' := by
  induction n with
  | zero => exact ⟨a, h⟩
  | succ n ih =>
    obtain ⟨a', ha'⟩ := ih (by omega)
    obtain ⟨h1, h2⟩ := demo_wb hs h0 ha'
    exact (demo_turn hs h0 ha' (hL _ (by omega) h1 h2)).1

/-- Every cycle of the demo loop. -/
theorem demo_cycle {L : Nat} (hL : NotStarted inp s L) (h : AtDemo inp s 0 t a) {τ : Nat} (h1 : t ≤ τ)
    (h2 : τ ≤ L) : ¬ Qspi.Accepts (s τ).eng (s τ).req ∧ (LedStore (s τ) ↔ ∃ k, τ = t + 47 + 56 * k) ∧
      (s τ).uo_out = leds inp ((τ + 8 - t) / 56) := by
  obtain ⟨n, hn1, hn2⟩ : ∃ n, t + 56 * n ≤ τ ∧ τ < t + 56 * n + 56 := ⟨(τ - t) / 56, by omega, by omega⟩
  obtain ⟨a', ha'⟩ := demo_turns hs h0 hL h n (by omega)
  by_cases hτ : τ < t + 56 * n + 7
  · obtain ⟨hacc, hno, hg⟩ := (demo_sample hs h0 ha').still τ hn1 hτ
    refine ⟨hacc, iff_of_false hno ?_, ?_⟩
    · rintro ⟨k, hk⟩
      omega
    · rw [hg, show (τ + 8 - t) / 56 = n by omega]
      exact ha'.led
  · obtain ⟨hw1, hw2⟩ := demo_wb hs h0 ha'
    obtain ⟨hacc, hiff, hg⟩ := (demo_turn hs h0 ha' (hL _ (by omega) hw1 hw2)).2 τ hn1 (by omega)
    refine ⟨hacc, hiff.trans ⟨fun h => ⟨n, by omega⟩, fun ⟨k, hk⟩ => by omega⟩, ?_⟩
    rw [hg]
    congr 1
    split <;> omega

/-! ## The self-test -/

/-- A one-byte access of the ROM to 0xE0. -/
theorem selftest_word {acc : Rv32i.Access} (hat : Top.At s t a) (hpc : a.pc = addr j)
    (hi : program[j]? = some i) (hacc : a.access i = some acc) (haddr : acc.addr.setWidth 8 = 0xE0)
    (hwidth : acc.width = .byte) (hstep : (env inp).step (t, a) = some c) :
    Top.At s c.1 c.2 ∧ c.1 = t + 89 ∧ c.2.mem = a.mem ∧ OneByte inp s (t + 5) ∧
      (s (t + 5)).req.we = acc.data.isSome ∧ (∀ v, acc.data = some v → (s (t + 5)).req.wdata = v) ∧
      ∀ τ, t ≤ τ → τ < t + 89 → (Qspi.Accepts (s τ).eng (s τ).req ↔ τ = t + 5) ∧ ¬ LedStore (s τ) ∧
        (s τ).uo_out = a.mem.gpio_out := by
  have hext : a.mem.External 0xE0 := .inl (by decide)
  have hd : a.dataStall i = 82 := by
    rw [Arch.dataStall, hacc]
    show a.mem.stall (acc.addr.setWidth 8) (sizeCode acc.width) = 82
    rw [haddr, hwidth]
    exact if_pos hext
  have hf : a.fetchStall = 0 := Arch.fetchStall_rom _ (by
    have := lt_of_program hi
    rw [hpc, addr_toNat this]
    omega)
  have hcyc : a.cycles i = 89 := by rw [Arch.cycles, hf, hd]
  have hc := word_cycles hs h0 hat hpc hi
  have hstore : a.store i = a.mem := by
    rw [Arch.store, hacc]
    obtain ⟨_, _, data⟩ := acc
    cases data with
    | none => rfl
    | some v =>
      show a.mem.write _ _ _ = _
      rw [haddr]
      exact a.mem.write_of_in_ext _ _ _ ((a.mem.in_ext_iff _).mpr hext)
  have hnext : c = (t + a.cycles i, a.exec i ((env inp).load t a i)) :=
    Option.some.inj (hstep.symm.trans (Env.step_eq (instr_boot inp hpc hi)))
  have hperf := hc.access acc hacc (t + 5) (by omega) (by omega)
  have haccept : ∀ τ, t ≤ τ → τ < t + 89 → (Qspi.Accepts (s τ).eng (s τ).req ↔ τ = t + 5) := by
    intro τ h1 h2
    rw [hc.accepts τ h1 (by omega), hf]
    constructor
    · rintro (⟨-, h⟩ | ⟨h, -⟩)
      · have := lt_of_program hi
        exact absurd h (external_rom _ (by rw [hpc, addr_toNat this]; omega))
      · exact h
    · exact fun h => .inr ⟨h, acc, hacc, by rw [haddr]; exact hext⟩
  have hregs : (s (t + 5)).mem.toMemRegs = a.mem := hc.before (t + 5) (by omega) (by omega)
  have hbus : (s (t + 5)).bus.addr = 0xE0 := hperf.addr.trans haddr
  have hasks := Mem.asks_req (m := (s (t + 5)).mem) (b := (s (t + 5)).bus) hperf.valid (by
    rw [hbus]
    exact ((s (t + 5)).mem.in_ext_iff _).mpr (.inl (by decide)))
  obtain ⟨hdev, hreqaddr, hwe⟩ := hasks.psram (by rw [hbus]; decide)
  refine ⟨word_at hs h0 hat hstep, by rw [hnext, hcyc], by rw [hnext]; exact hstore, ⟨hdev, ?_, ?_, ?_⟩, ?_, ?_, ?_⟩
  · apply BitVec.eq_of_toNat_eq
    rw [hbus] at hreqaddr
    exact hreqaddr
  · refine hasks.size.trans (hperf.size.trans ?_)
    rw [hwidth]
    rfl
  · exact Qspi.transaction_of_accepts (t := t + 5) hs.mem.engine ((haccept _ (by omega) (by omega)).mpr rfl)
  · exact hwe.trans hperf.we
  · exact fun v hv => hasks.wdata.trans (hperf.wdata v hv)
  · refine fun τ h1 h2 => ⟨haccept τ h1 h2, ?_, ?_⟩
    · rintro ⟨hwe', hled⟩
      obtain ⟨h3, h4, -⟩ := (hc.we τ h1 (by omega)).mp hwe'
      have := (hc.access acc hacc τ h3 h4).addr
      rw [hled, haddr] at this
      exact absurd this (by decide)
    · by_cases hτ : τ + 1 < t + 89
      · exact congrArg MemRegs.gpio_out (hc.before τ h1 (by omega))
      · exact (congrArg MemRegs.gpio_out (hc.after τ (by omega) (by omega))).trans (by rw [hstore])

/-- The self-test up to its branch. -/
theorem selftest_accesses (hpc : (s 0).core.pc = 0) (hgpio : (s 0).mem.gpio_out = 0) :
    ∃ a, Top.At s 185 a ∧ a.pc = addr 3 ∧ a.mem = (s 0).arch.mem ∧ a.reg 2 = 0xA5#32 ∧
      a.reg 6 = ((sampledWord (fun τ => (inp τ).miso) 101 1).extractLsb' 0 8).setWidth 32 ∧
      OneByte inp s 12 ∧ (s 12).req.we = true ∧ (s 12).req.wdata.extractLsb' 0 8 = 0xA5 ∧
      OneByte inp s 101 ∧ (s 101).req.we = false ∧ ∀ τ < 185, SelfTestCycle s τ := by
  have hpc0 : (s 0).arch.pc = addr 0 := hpc
  have c1 := calm_step hs h0 ⟨h0.state, rfl⟩ hpc0 rfl (.of_none rfl) (boot_opImm hpc0 rfl)
  have hstall : ∀ m : MemRegs, m.stall 0xE0 0 = 82 := fun m => if_pos (.inl (by decide))
  obtain ⟨hat2, ht2, hm2, hone2, hwe2, hdata2, hcyc2⟩ := selftest_word hs h0 c1.at_fetch rfl rfl rfl rfl rfl
    (boot_store inp .sb rfl rfl (hstall _))
  obtain ⟨hat3, ht3, hm3, hone3, hwe3, -, hcyc3⟩ := selftest_word hs h0 hat2 rfl rfl rfl rfl rfl
    (selftest_load rfl)
  refine ⟨_, hat3, rfl, ?_, rfl, rfl, hone2, hwe2, ?_, hone3, hwe3, fun τ hτ => ?_⟩
  · exact hm3.trans hm2
  · rw [hdata2 _ rfl]
    rfl
  · by_cases h7 : τ < 7
    · obtain ⟨hacc, hno, hg⟩ := c1.still τ (Nat.zero_le τ) h7
      exact ⟨iff_of_false hacc (by omega), hno, hg.trans hgpio⟩
    by_cases h96 : τ < 96
    · obtain ⟨hacc, hno, hg⟩ := hcyc2 τ (by omega) h96
      exact ⟨hacc.trans (by omega), hno, hg.trans hgpio⟩
    · obtain ⟨hacc, hno, hg⟩ := hcyc3 τ (by omega) hτ
      exact ⟨hacc.trans (by omega), hno, hg.trans ((congrArg MemRegs.gpio_out hm2).trans hgpio)⟩

/-- The branch of the self-test and MAIN_INIT. -/
theorem selftest_verdict (hat : Top.At s 185 a) (hpc : a.pc = addr 3) (hgpio : a.mem.gpio_out = 0)
    (hmode : a.mem.flash_mode = false) (hpage : a.mem.flash_page = 0)
    (h2 : a.reg 2 = 0xA5#32)
    (h6 : a.reg 6 = ((sampledWord (fun τ => (inp τ).miso) 101 1).extractLsb' 0 8).setWidth 32) :
    ∃ a', AtDemo inp s 0 (demoStart inp) a' ∧
      ∀ τ, 185 ≤ τ → τ < demoStart inp → SelfTestCycle s τ := by
  have hcycle : ∀ {b : Nat × Arch}, Calm s (185, a) b → ∀ τ, 185 ≤ τ → τ < b.1 → SelfTestCycle s τ := by
    intro b hb τ h1 h2
    obtain ⟨hacc, hno, hg⟩ := hb.still τ h1 h2
    exact ⟨iff_of_false hacc (by omega), hno, hg.trans hgpio⟩
  have hbranch := boot_branch inp (t := 185) 7 hpc rfl rfl
  rw [h2, h6, beq_passes] at hbranch
  by_cases hp : Passes inp
  · rw [decide_eq_true hp, if_pos rfl] at hbranch
    have c1 := calm_step hs h0 hat hpc rfl (.of_none rfl) hbranch
    have c2 := calm_step hs h0 c1.at_fetch rfl rfl (.of_none rfl) (boot_opImm rfl rfl)
    have c3 := calm_step hs h0 c2.at_fetch rfl rfl (.of_none rfl) (boot_opImm rfl rfl)
    have hcalm := (c1.trans c2).trans c3
    have hstart : demoStart inp = 206 := if_pos hp
    rw [hstart]
    refine ⟨_, ⟨c3.at_fetch, rfl, ?_, rfl, hgpio, hmode, hpage⟩, hcycle hcalm⟩
    rw [verdict, if_pos hp]
    rfl
  · rw [decide_eq_false hp, if_neg Bool.false_ne_true] at hbranch
    have c1 := calm_step hs h0 hat hpc rfl (.of_none rfl) hbranch
    have c2 := calm_step hs h0 c1.at_fetch rfl rfl (.of_none rfl) (boot_opImm rfl rfl)
    have c3 := calm_step hs h0 c2.at_fetch rfl rfl (.of_none rfl) (boot_shift rfl rfl)
    have c4 := calm_step hs h0 c3.at_fetch rfl rfl (.of_none rfl) (boot_j 8 rfl rfl rfl)
    have c5 := calm_step hs h0 c4.at_fetch rfl rfl (.of_none rfl) (boot_opImm rfl rfl)
    have hcalm := (((c1.trans c2).trans c3).trans c4).trans c5
    have hstart : demoStart inp = 220 := if_neg hp
    rw [hstart]
    refine ⟨_, ⟨c5.at_fetch, rfl, ?_, rfl, hgpio, hmode, hpage⟩, hcycle hcalm⟩
    rw [verdict, if_neg hp]
    rfl

end Turn

/-! ## Every run -/

theorem leds_bits (inp : Nat → Inputs) (k : Nat) : (leds inp k).extractLsb' 4 3 = 0 ∧
    (leds inp k).getLsbD 7 = (decide (k ≠ 0) && !decide (Passes inp)) := by
  have h0 : ∀ n < 16, ((0 : BitVec 8) + BitVec.ofNat 8 n).extractLsb' 4 3 = 0 ∧
      ((0 : BitVec 8) + BitVec.ofNat 8 n).getLsbD 7 = false := by decide
  have h1 : ∀ n < 16, ((0x80 : BitVec 8) + BitVec.ofNat 8 n).extractLsb' 4 3 = 0 ∧
      ((0x80 : BitVec 8) + BitVec.ofNat 8 n).getLsbD 7 = true := by decide
  by_cases hk : k = 0
  · rw [leds, if_pos hk, hk]
    exact ⟨rfl, rfl⟩
  · rw [leds, if_neg hk, decide_eq_true hk, verdict]
    by_cases hp : Passes inp
    · rw [if_pos hp, decide_eq_true hp]
      exact h0 _ (Nat.mod_lt _ (by decide))
    · rw [if_neg hp, decide_eq_false hp]
      exact h1 _ (Nat.mod_lt _ (by decide))

/-- The self-test and the demo counter, for every MISO waveform and every run in which START was not sampled:
the two transactions of the self-test are the only ones, the stores to the LEDs are 56 clocks apart, and after
`k + 1` of them the LEDs show the verdict in bit 7 and `k + 1` modulo 16 in the low bits. -/
theorem selftest_and_counter {s0 : Top} {L : Nat} (hs : Top.Run bootRom inp s) (h0 : s 0 = s0.reset)
    (hL : NotStarted inp s L) :
    (∀ τ ≤ L, Qspi.Accepts (s τ).eng (s τ).req ↔ τ = 12 ∨ τ = 101) ∧
    (OneByte inp s 12 ∧ (s 12).req.we = true ∧ (s 12).req.wdata.extractLsb' 0 8 = 0xA5) ∧
    (OneByte inp s 101 ∧ (s 101).req.we = false) ∧
    (∀ τ ≤ L, LedStore (s τ) ↔ ∃ k, τ = demoStart inp + 47 + 56 * k) ∧
    (∀ τ ≤ L, τ < demoStart inp + 48 → (s τ).uo_out = 0) ∧
    (∀ τ ≤ L, ∀ k, demoStart inp + 48 + 56 * k ≤ τ → τ < demoStart inp + 48 + 56 * (k + 1) →
      (s τ).uo_out = verdict inp + BitVec.ofNat 8 ((k + 1) % 16)) ∧
    (∀ τ ≤ L, (s τ).uo_out.extractLsb' 4 3 = 0) ∧
    ∀ τ' ≤ L, ∀ τ ≤ τ', (s τ).uo_out.getLsbD 7 = true → (s τ').uo_out.getLsbD 7 = true := by
  have hf0 : Top.AtFetch (s 0) := h0 ▸ Top.reset_atFetch s0
  obtain ⟨a, hat, hpc, hmem, h2, h6, hw1, hw2, hw3, hr1, hr2, hfirst⟩ := selftest_accesses hs hf0
    (by rw [h0]; rfl) (by rw [h0]; rfl)
  obtain ⟨a', hdemo, hsecond⟩ := selftest_verdict hs hf0 hat hpc (by rw [hmem, h0]; rfl) (by rw [hmem, h0]; rfl)
    (by rw [hmem, h0]; rfl) h2 h6
  have hstart : 206 ≤ demoStart inp := by
    rw [demoStart]
    split <;> decide
  -- a cycle of the self-test, or one of the demo loop
  have hcycle : ∀ τ ≤ L, (Qspi.Accepts (s τ).eng (s τ).req ↔ τ = 12 ∨ τ = 101) ∧
      (LedStore (s τ) ↔ ∃ k, τ = demoStart inp + 47 + 56 * k) ∧
      (s τ).uo_out = leds inp ((τ + 8 - demoStart inp) / 56) := by
    intro τ hτ
    by_cases hself : τ < demoStart inp
    · obtain ⟨hacc, hno, hled⟩ : SelfTestCycle s τ := by
        by_cases h185 : τ < 185
        · exact hfirst τ h185
        · exact hsecond τ (by omega) hself
      refine ⟨hacc, iff_of_false hno ?_, ?_⟩
      · rintro ⟨k, hk⟩
        omega
      · rw [hled, show (τ + 8 - demoStart inp) / 56 = 0 by omega]
        rfl
    · obtain ⟨hacc, hiff, hled⟩ := demo_cycle hs hf0 hL hdemo (by omega) hτ
      exact ⟨iff_of_false hacc (by omega), hiff, hled⟩
  refine ⟨fun τ hτ => (hcycle τ hτ).1, ⟨hw1, hw2, hw3⟩, ⟨hr1, hr2⟩, fun τ hτ => (hcycle τ hτ).2.1,
    fun τ hτ hlt => ?_, fun τ hτ k h1 h2 => ?_, fun τ hτ => ?_, fun τ' hτ' τ hτ h7 => ?_⟩
  · rw [(hcycle τ hτ).2.2, show (τ + 8 - demoStart inp) / 56 = 0 by omega]
    rfl
  · rw [(hcycle τ hτ).2.2, show (τ + 8 - demoStart inp) / 56 = k + 1 by omega, leds, if_neg (Nat.succ_ne_zero k)]
  · rw [(hcycle τ hτ).2.2]
    exact (leds_bits inp _).1
  · rw [(hcycle τ (by omega)).2.2, (leds_bits inp _).2, Bool.and_eq_true, decide_eq_true_eq] at h7
    have hle : (τ + 8 - demoStart inp) / 56 ≤ (τ' + 8 - demoStart inp) / 56 := by omega
    rw [(hcycle τ' hτ').2.2, (leds_bits inp _).2, decide_eq_true (show _ ≠ 0 by omega), h7.2]
    rfl

/-- A chip with all input pins low never samples START, and its PSRAM does not answer. -/
theorem selftest_and_counter_idle :
    let inp : Nat → Inputs := fun _ => ⟨0, false⟩
    let s := Clocked.run (fun s (i : Inputs) => Top.step s bootRom i) inp powerUp.reset
    (s 268).uo_out = verdict inp + 1 := by
  intro inp s
  have hL : NotStarted inp s 268 := fun τ _ _ _ => show start 0 = false by decide
  obtain ⟨-, -, -, -, -, h, -⟩ := @selftest_and_counter inp s powerUp 268 (fun _ => rfl) rfl hL
  have hstart := demoStart_cases inp
  exact h 268 (le_refl _) 0 (by omega) (by omega)

end Boot

end Pineapple
