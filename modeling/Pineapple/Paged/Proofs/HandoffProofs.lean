import Pineapple.Boot.Proofs.DemoProofs
import Pineapple.Boot.Proofs.HandoverProofs
import Pineapple.Machine.Proofs.GpioProofs
import Pineapple.Paged.Handoff
import Pineapple.Tools.Proofs.AgreeProofs

/-!
# Proofs: from reset to the first instruction in the flash

The demo loop stores its counter in each of its turns. Once it has seen START the boot ROM does not come back to it,
so what it has stored by then is all that is stored before the handoff.
-/

namespace Pineapple

open Rv32i (Instr Word Reg)

namespace Boot

variable {inp : Nat → Inputs} {s : Nat → Top} {t j k n T : Nat} {a a' : Arch} {i : Instr} {c c' : Nat × Arch}

/-! ## The stores of the demo loop -/

/-- The first `k` bytes that the demo loop stores. -/
def demoStores (inp : Nat → Inputs) (k : Nat) : List (BitVec 8) := (List.range k).map fun i => leds inp (i + 1)

/-- The demo loop makes `k` turns before it sees START. -/
structure Turns (inp : Nat → Inputs) (k : Nat) : Prop where
  low : ∀ i < k, start (inp (demoStart inp + 56 * i + 6)).ui_in = false
  high : start (inp (demoStart inp + 56 * k + 6)).ui_in = true

section Demo

variable (hs : Top.Run bootRom inp s) (h0 : Top.AtFetch (s 0))

include hs h0

/-- One turn makes one store. -/
theorem gpioWrites_turn (h : AtDemo inp s k t a) (hstart : start (inp (t + 6)).ui_in = false) :
    Top.gpioWrites s t (t + 56) = [leds inp (k + 1)] := by
  obtain ⟨-, hturn⟩ := demo_turn hs h0 h hstart
  have hstore : LedStore (s (t + 47)) := ((hturn (t + 47) (by omega) (by omega)).2.1).mpr rfl
  have hval : (s (t + 47)).core.mem_wdata.extractLsb' 0 8 = leds inp (k + 1) := by
    have hled := (hturn (t + 47 + 1) (by omega) (by omega)).2.2
    have hsucc := (uo_out_succ hs (t + 47)).trans (if_pos hstore)
    rw [← hsucc, hled, if_neg (by omega)]
  rw [Top.gpioWrites, Nat.add_sub_cancel_left]
  refine @filterMap_range'_one _ _ t 56 (t + 47) _ (by omega) (by omega) ?_ fun τ h1 h2 hne => ?_
  · rw [← hval]
    exact if_pos hstore
  · exact if_neg fun hst => hne ((hturn τ h1 h2).2.1.mp hst)

/-- The demo loop until it sees START. -/
theorem demo_stores (h : AtDemo inp s 0 t a) (n : Nat)
    (hlow : ∀ i < n, start (inp (t + 56 * i + 6)).ui_in = false) :
    (∃ a', AtDemo inp s n (t + 56 * n) a') ∧ Top.gpioWrites s t (t + 56 * n) = demoStores inp n := by
  induction n with
  | zero => exact ⟨⟨a, h⟩, Top.gpioWrites_self t⟩
  | succ n ih =>
    obtain ⟨⟨a₁, h₁⟩, hw⟩ := ih fun i hi => hlow i (by omega)
    have hstart := hlow n (by omega)
    have hturn := gpioWrites_turn hs h0 h₁ hstart
    refine ⟨(demo_turn hs h0 h₁ hstart).1, ?_⟩
    rw [show t + 56 * (n + 1) = t + 56 * n + 56 by omega,
      Top.gpioWrites_append (show t ≤ t + 56 * n by omega) (by omega), hw, hturn, demoStores, demoStores,
      List.range_succ, List.map_append]
    rfl

end Demo

/-- The self-test stores nothing in the LEDs. -/
theorem selftest_stores (hs : Top.Run bootRom inp s) {s0 : Top} (h0 : s 0 = s0.reset) :
    (∃ a, AtDemo inp s 0 (demoStart inp) a) ∧ Top.gpioWrites s 0 (demoStart inp) = [] := by
  have hf0 : Top.AtFetch (s 0) := h0 ▸ Top.reset_atFetch s0
  obtain ⟨a, hat, hpc, hmem, h2, h6, -, -, -, -, -, hfirst⟩ := selftest_accesses hs hf0
    (by rw [h0]; rfl) (by rw [h0]; rfl)
  obtain ⟨a', hdemo, hsecond⟩ := selftest_verdict hs hf0 hat hpc (by rw [hmem, h0]; rfl) (by rw [hmem, h0]; rfl)
    (by rw [hmem, h0]; rfl) h2 h6
  refine ⟨⟨a', hdemo⟩, ?_⟩
  unfold Top.gpioWrites
  rw [List.filterMap_eq_nil_iff]
  intro τ hτ
  obtain ⟨-, hlt⟩ := List.mem_range'_1.mp hτ
  have hcycle : SelfTestCycle s τ := by
    by_cases h185 : τ < 185
    · exact hfirst τ h185
    · exact hsecond τ (by omega) (by omega)
  exact if_neg hcycle.2.1

/-! ## After START -/

/-- The ROM is behind the demo loop; a return goes to the byte loop. -/
structure Past (a : Arch) : Prop where
  word : ∃ k, 17 ≤ k ∧ k < 44 ∧ a.pc = addr k ∧
    (27 ≤ k → a.reg 1 = (addr 18).setWidth 32 ∨ a.reg 1 = (addr 22).setWidth 32)

/-- The words that stay before or in RECV_BYTE and do not call it. -/
def stays (k : Nat) : Bool := decide (17 ≤ k ∧ k ≠ 17 ∧ k ≠ 21 ∧ k ≠ 26 ∧ k ≠ 43)

theorem stays_check : ((List.range 44).all fun k => !stays k || program[k]?.all fun i =>
    !i.isJalr && i.dest != some 1 && (i.succs (addr k)).all fun pc =>
      decide (4 * 17 ≤ pc.toNat ∧ pc.toNat < 4 * 44 ∧ pc.toNat % 4 = 0 ∧ (4 * 27 ≤ pc.toNat → 27 ≤ k))) = true := by
  decide

theorem past_step {d : Word} (h : Past a) (hpc : a.pc = addr k) (hi : program[k]? = some i)
    (hrom : (a.exec i d).pc.toNat < 0xB0) : Past (a.exec i d) := by
  have hk := lt_of_program hi
  obtain ⟨k', h17, hk', hpc', h1⟩ := h.word
  obtain rfl : k' = k := by
    have := congrArg BitVec.toNat (hpc'.symm.trans hpc)
    rw [addr_toNat hk', addr_toNat hk] at this
    omega
  by_cases hst : stays k' = true
  · have hall := List.all_eq_true.mp stays_check k' (List.mem_range.mpr hk)
    rw [hst, hi] at hall
    simp only [Bool.not_true, Bool.false_or, Option.all_some, Bool.and_eq_true, Bool.not_eq_true', bne_iff_ne,
      List.all_eq_true, decide_eq_true_eq] at hall
    obtain ⟨⟨hj, hdest⟩, hsuccs⟩ := hall
    obtain ⟨hlo, hhi, hal, hrecv⟩ := hsuccs _ (hpc ▸ a.exec_pc_mem d hj)
    obtain ⟨m, hm, hpcm⟩ := exists_addr hrom hal
    rw [hpcm, addr_toNat hm] at hlo hrecv
    refine ⟨m, by omega, hm, hpcm, fun h27 => ?_⟩
    rw [a.exec_reg d hdest]
    exact h1 (hrecv (by omega))
  · have hcase : k' = 17 ∨ k' = 21 ∨ k' = 26 ∨ k' = 43 := by
      have := of_decide_eq_false (Bool.not_eq_true _ ▸ hst)
      omega
    rcases hcase with rfl | rfl | rfl | rfl
    all_goals cases hi
    -- the calls of RECV_BYTE
    · refine ⟨27, by omega, by omega, by rw [Arch.exec_jal, hpc]; rfl, fun _ => .inl ?_⟩
      rw [Arch.exec_jal, hpc, Arch.reg_goto, Arch.reg_setReg, if_pos (by decide)]
      rfl
    · refine ⟨27, by omega, by omega, by rw [Arch.exec_jal, hpc]; rfl, fun _ => .inr ?_⟩
      rw [Arch.exec_jal, hpc, Arch.reg_goto, Arch.reg_setReg, if_pos (by decide)]
      rfl
    -- RUN leaves the ROM
    · rw [Arch.exec_jal, hpc] at hrom
      have hout : (addr 26 + (0x4C : BitVec 21).setWidth 8).toNat < 0xB0 := hrom
      exact absurd hout (by decide)
    -- the return
    · rcases h1 (by omega) with h1 | h1
      · refine ⟨18, by omega, by omega, ?_, fun h27 => absurd h27 (by omega)⟩
        rw [Arch.exec_jalr, h1]
        exact addr_ret (by decide)
      · refine ⟨22, by omega, by omega, ?_, fun h27 => absurd h27 (by omega)⟩
        rw [Arch.exec_jalr, h1]
        exact addr_ret (by decide)

/-- An observer of the store of the demo loop. -/
def stores (c : Nat × Arch) : List Unit := if c.2.pc = addr 15 then [()] else []

theorem stores_eq_nil (hk : k < 44) (h15 : k ≠ 15) (hpc : a.pc = addr k) : stores (t, a) = [] := by
  refine if_neg fun h => h15 ?_
  have := congrArg BitVec.toNat (hpc.symm.trans h)
  rw [addr_toNat hk, addr_toNat (by decide)] at this
  omega

/-- A path of the ROM from there on does not come back to the demo loop. -/
theorem Boots.past (hb : Boots inp c c') (h : Past c.2) : Clocked.Silent (env inp).step stores c c' := by
  -- the states of the path that are in the ROM are past the demo loop
  have key : ∀ {os : List (Nat × Arch)} {c c' : Nat × Arch}, Clocked.Path (env inp).step strays c os c' → os = [] →
      (c.2.pc.toNat < 0xB0 → Past c.2) → Clocked.Silent (env inp).step stores c c' := by
    intro os c c' hp
    induction hp with
    | nil c => exact fun _ _ => .refl c
    | @cons c c₁ c' os hstep rest ih =>
      intro hos hpast
      obtain ⟨hseen, hos⟩ := List.append_eq_nil_iff.mp hos
      have hrom : c.2.pc.toNat < 0xB0 := by
        by_contra hout
        rw [strays, if_neg fun h => hout h.1.1] at hseen
        cases hseen
      have hc := hpast hrom
      obtain ⟨k, h17, hk, hpc, -⟩ := hc.word
      obtain ⟨i, hi⟩ : ∃ i, program[k]? = some i := ⟨program.get ⟨k, hk⟩, List.getElem?_eq_getElem hk⟩
      have hnext : c₁ = (c.1 + c.2.cycles i, c.2.exec i ((env inp).load c.1 c.2 i)) :=
        Option.some.inj (hstep.symm.trans (Env.step_eq (instr_boot inp hpc hi)))
      refine .cons hstep (stores_eq_nil hk (by omega) hpc) (ih hos fun hrom₁ => ?_)
      rw [hnext] at hrom₁ ⊢
      exact past_step hc hpc hi hrom₁
  exact key hb rfl fun _ => h

variable {S : Nat} {rise fall : Nat → Nat} {bytes : List (BitVec 8)}

/-- From the sample that sees START the ROM loads the program, and nothing is stored in the LEDs. -/
theorem after_start (hs : Top.Run bootRom inp s) (h0 : Top.AtFetch (s 0)) (h : AtDemo inp s k t a)
    (hstart : start (inp (t + 6)).ui_in = true)
    (hsends : Sends (fun τ => (inp τ).ui_in) (BitVec.ofNat 8 bytes.length :: bytes) S rise fall)
    (hlen : bytes.length ≤ 44) (ht : t + 28 ≤ rise 0) :
    ∃ T a', Top.At s T (a'.goto 0xB4) ∧ t ≤ T ∧ AtByte a.mem bytes bytes.length a' ∧ Top.gpioWrites s t T = [] ∧
      fall (8 * bytes.length + 7) ≤ T ∧ T ≤ fall (8 * bytes.length + 7) + 105 := by
  -- the three words of the sample
  obtain ⟨a₁, hboots, hquiet, hpc, hmem⟩ : ∃ a₁, Boots inp (t, a) (t + 21, a₁) ∧
      Clocked.Silent (env inp).step stores (t, a) (t + 21, a₁) ∧ a₁.pc = addr START_SEEN ∧ a₁.mem = a.mem := by
    refine ⟨_, Boots.step h.pc (by decide) (by decide) (boot_gpio h.pc rfl)
      (Boots.step rfl (by decide) (by decide) (boot_opImm rfl rfl)
        (Boots.step rfl (by decide) (by decide) (boot_branch _ 17 rfl rfl rfl) (.refl _))),
      .cons (boot_gpio h.pc rfl) (stores_eq_nil (by decide) (by decide) h.pc)
        (.cons (boot_opImm rfl rfl) (stores_eq_nil (by decide) (by decide) rfl)
          (.single (boot_branch _ 17 rfl rfl rfl) (stores_eq_nil (by decide) (by decide) rfl))), ?_, rfl⟩
    refine congrArg addr (if_pos ?_)
    show ((inp (t + 6)).ui_in.setWidth 32 &&& 4#32 != 0#32) = true
    rw [mask_start, hstart]
    rfl
  -- the message
  have hkept : a.mem.Kept a₁.mem := hmem.symm ▸ .refl a.mem
  obtain ⟨u, a₂, h1, h1', hb₂, ha₂⟩ := start_seen (t := t + 21) hsends (by omega) hpc hkept (by omega)
  obtain ⟨v, a₃, h2, h2', hb₃, ha₃⟩ := load_bytes (t := u) hsends (by omega) h.flash_mode ha₂ h1 h1' bytes.length
    le_rfl hlen
  have hrest := (hb₂.trans hb₃).trans (run_program (t := v) ha₃)
  have hpast : Past a₁ := ⟨17, le_rfl, by decide, hpc, fun h27 => absurd h27 (by decide)⟩
  obtain ⟨hat, hfetch⟩ := Boots.fetches hs h0 h.at_fetch (hboots.trans hrest)
  obtain ⟨-, hle, hem⟩ := Top.run_path hs h0 Top.agrees_chip (hquiet.trans (Boots.past hrest hpast)) h.at_fetch
  refine ⟨v + 14, a₃, hat, hle, ha₃, ?_, by omega, by omega⟩
  unfold Top.gpioWrites
  rw [List.filterMap_eq_nil_iff]
  intro τ hτ
  obtain ⟨hlo, hhi⟩ := List.mem_range'_1.mp hτ
  refine if_neg fun hst => ?_
  obtain ⟨t', k', i, hlo', hw⟩ := exists_inWord_from hs h0 h.at_fetch.state hlo
    fun w hw hw' hf => (hfetch w hw (by omega) hf).1
  have hlt := hw.le
  obtain ⟨-, ⟨-, haddr⟩ | ⟨rfl, -⟩ | ⟨rfl, haddr⟩⟩ := hw.store hst.1
  · exact absurd (hst.2.symm.trans haddr) (by decide)
  · have hno : stores (t', (s t').arch) = [] := Top.emitted_eq_nil.mp hem t' hlo' (by omega) hw.fetch
    rw [stores, if_pos (show (s t').arch.pc = addr 15 from hw.pc)] at hno
    cases hno
  · obtain ⟨h5, h5'⟩ := (hfetch t' hlo' (by omega) hw.fetch).2 hw.pc
    have := congrArg BitVec.toNat (haddr.symm.trans hst.2)
    rw [BitVec.toNat_setWidth] at this
    change _ = 240 at this
    omega

/-- From reset, with a program from the host, the ROM jumps to the program shortly after the last bit; the stores before
are those of the demo loop. -/
theorem program_loaded (hs : Top.Run bootRom inp s) {s0 : Top} (h0 : s 0 = s0.reset)
    (hsends : Sends (fun τ => (inp τ).ui_in) (BitVec.ofNat 8 bytes.length :: bytes) S rise fall)
    (hlen : bytes.length ≤ 44) :
    ∃ k T m a, Turns inp k ∧ Top.At s T (a.goto 0xB4) ∧ AtByte m bytes bytes.length a ∧ a.mem.flash_mode = false ∧
      a.mem.flash_page = 0 ∧ Top.gpioWrites s 0 T = demoStores inp k ∧
      fall (8 * bytes.length + 7) ≤ T ∧ T ≤ fall (8 * bytes.length + 7) + 105 := by
  have hf0 : Top.AtFetch (s 0) := h0 ▸ Top.reset_atFetch s0
  obtain ⟨⟨a₀, hdemo⟩, hself⟩ := selftest_stores hs h0
  have hstart := demoStart_cases inp
  -- the first sample that sees START
  have hreset := hsends.after_reset
  have hafter := hsends.after_start
  obtain ⟨n, hn⟩ : ∃ n, n = (S - (demoStart inp + 6) + 55) / 56 := ⟨_, rfl⟩
  have hsome : ∃ n, start (inp (demoStart inp + 56 * n + 6)).ui_in = true :=
    ⟨n, hsends.started _ (by omega) (by omega)⟩
  obtain ⟨k, hk, hlow⟩ : ∃ k, start (inp (demoStart inp + 56 * k + 6)).ui_in = true ∧
      ∀ i < k, start (inp (demoStart inp + 56 * i + 6)).ui_in = false :=
    ⟨Nat.find hsome, Nat.find_spec hsome, fun i hi => Bool.not_eq_true _ ▸ Nat.find_min hsome hi⟩
  have hkn : k ≤ n := by
    by_contra hlt
    have := hsends.started (demoStart inp + 56 * n + 6) (by omega) (by omega)
    exact Bool.false_ne_true ((hlow n (by omega)).symm.trans this)
  obtain ⟨⟨a₁, ha₁⟩, hdemos⟩ := demo_stores hs hf0 hdemo k hlow
  obtain ⟨T, a₂, hat, hle, hbyte, hload, hlo, hhi⟩ := after_start hs hf0 ha₁ hk hsends hlen (by omega)
  refine ⟨k, T, a₁.mem, a₂, ⟨hlow, hk⟩, hat, hbyte, hbyte.flash_mode.trans ha₁.flash_mode,
    hbyte.flash_page.trans ha₁.flash_page, ?_, hlo, hhi⟩
  rw [Top.gpioWrites_append (Nat.zero_le _) hle, hload, List.append_nil,
    Top.gpioWrites_append (Nat.zero_le _) (show demoStart inp ≤ _ from Nat.le_add_right _ _), hself, hdemos]
  rfl

end Boot

namespace Paged

open Boot (Turns demoStores AtDemo AtByte addr)

variable {inp : Nat → Inputs} {s : Nat → Top} {t T : Nat} {a : Arch} {rom : Rom}

/-! ## The stub -/

/-- FLASH_MODE is sticky. -/
theorem flash_mode_mono (hs : Top.Run rom inp s) {t' : Nat} (h : t ≤ t') (hm : (s t').mem.flash_mode = false) :
    (s t).mem.flash_mode = false := by
  induction h with
  | refl => exact hm
  | @step t' h ih =>
    refine ih (Bool.not_eq_true _ ▸ fun hset => ?_)
    rw [show (s (t' + 1)).mem.toMemRegs = _ from hs.mem.regs t', MemRegs.afterBus] at hm
    split at hm
    · exact Bool.false_ne_true (hm.symm.trans ((s t').mem.toMemRegs.write_flash_mode _ _ _ hset))
    · exact Bool.false_ne_true (hm.symm.trans hset)

/-- An address of the load window is in the RAM as long as FLASH_MODE is clear. -/
theorem in_ram_window {m : MemRegs} (hm : m.flash_mode = false) : ¬ m.External 0xB4 ∧ m.in_ram 0xB4 = true := by
  constructor
  · rintro (⟨h, -⟩ | ⟨h, -⟩)
    · exact absurd h (by decide)
    · exact Bool.false_ne_true (hm.symm.trans h)
  · rw [MemRegs.in_ram, MemRegs.in_ext_flash, hm]
    rfl

/-- The bytes of the stub are one instruction. -/
theorem stub_word {m : MemRegs} (hb : AtByte m stub stub.length a) (hm : a.mem.flash_mode = false) :
    (Boot.env inp).instr t (a.goto 0xB4) = some (.store .sw 0 0 0xF8) := by
  have hbytes : (List.range 4).map (fun j => a.mem.ramByte (0xB4 + j)) = stub := by
    have hbyte : ∀ j < 4, a.mem.ramByte (0xB4 + j) = stub.getD j 0 := by
      intro j hj
      have h4 : stub.length = 4 := rfl
      rw [hb.ram _ (by omega) (by omega), if_pos (by omega), Nat.add_sub_cancel_left]
    rw [List.map_congr_left fun j hj => hbyte j (List.mem_range.mp hj)]
    rfl
  have hword : a.mem.ram_word 0xB4 = 0x0E002C23 := by
    rw [Asm.ram_word_eq a.mem (by decide) (by decide), show (0xB4 : BitVec 8).toNat = 0xB4 from rfl, hbytes]
    rfl
  show Rv32i.decode (a.mem.rdata 0xB4 bootRom _ _) = _
  rw [MemRegs.rdata, show in_rom 0xB4 = false from rfl, if_neg Bool.false_ne_true, if_pos (in_ram_window hm).2, hword]
  decide

/-- The stub sets FLASH_MODE and stores nothing in GPIO_OUT. -/
theorem stub_step (hs : Top.Run bootRom inp s) (h0 : Top.AtFetch (s 0)) (hat : Top.At s t (a.goto 0xB4))
    {m : MemRegs} (hb : AtByte m stub stub.length a) (hm : a.mem.flash_mode = false) (hp : a.mem.flash_page = 0) :
    (∃ a', Top.At s (t + 7) a' ∧ HandedOff a') ∧ (∀ τ, t < τ → τ < t + 7 → (s τ).core.state ≠ .fetch) ∧
      Top.gpioWrites s t (t + 7) = [] := by
  have hi := @stub_word inp t a m hb hm
  have hf : (a.goto 0xB4).fetchStall = 0 := Arch.stall_eq_zero _ (in_ram_window hm).1
  have haddr : ((a.goto 0xB4).reg 0 + (0xF8 : BitVec 12).signExtend 32).setWidth 8 = (0xF8 : BitVec 8) := by
    rw [Arch.reg_x0]
    rfl
  have hext : ¬ a.mem.External 0xF8 := by
    rintro (⟨-, h⟩ | ⟨-, -, h⟩)
    · exact absurd h (by decide)
    · exact absurd h (by decide)
  have hd : (a.goto 0xB4).dataStall (.store .sw 0 0 0xF8) = 0 := by
    show a.mem.stall (((a.goto 0xB4).reg 0 + (0xF8 : BitVec 12).signExtend 32).setWidth 8) _ = 0
    rw [haddr]
    exact Arch.stall_eq_zero _ hext
  have hcyc : (a.goto 0xB4).cycles (.store .sw 0 0 0xF8) = 7 := by
    rw [Arch.cycles, hf, hd]
  have hnext := Top.steps_of_agrees hs h0 Top.agrees_chip hat hi
  rw [hcyc] at hnext
  refine ⟨⟨_, hnext.1, ?_⟩, fun τ h1 h2 => ?_, ?_⟩
  · rw [Arch.exec_store, haddr]
    have hmem : (a.goto 0xB4).mem.write 0xF8 ((a.goto 0xB4).reg 0) (sizeCode (Rv32i.StoreOp.width .sw)) =
        { a.mem with flash_mode := true } := rfl
    rw [hmem]
    exact ⟨rfl, hp, rfl⟩
  · have hnot := hnext.2.next.not_fetch
    rw [hcyc] at hnot
    exact hnot τ h1 h2
  · have hstate := hat.state
    have harch := hat.arch
    have hcycles : Top.Cycles s t (a.goto 0xB4) (.store .sw 0 0 0xF8) := by
      rw [← harch] at hi ⊢
      exact Top.run_cycles hs (Top.atFetch_of_state hs h0 hstate) hi
    have hw := hcycles.gpioWrites
    rw [hcyc] at hw
    rw [hw, Arch.gpioStore_const, if_neg (by decide)]

/-- From reset, with the stub from the host, the chip hands over to the flash shortly after the last bit; the stores
before are those of the demo loop. -/
theorem stub_hands_over (hs : Top.Run bootRom inp s) {s0 : Top} (h0 : s 0 = s0.reset) {S : Nat} {rise fall : Nat → Nat}
    (hsends : SendsStub (fun τ => (inp τ).ui_in) S rise fall) :
    ∃ k T, Turns inp k ∧ HandsOver s T ∧ Top.gpioWrites s 0 T = demoStores inp k ∧
      fall (8 * stub.length + 7) ≤ T ∧ T ≤ fall (8 * stub.length + 7) + 112 := by
  have hf0 : Top.AtFetch (s 0) := h0 ▸ Top.reset_atFetch s0
  obtain ⟨k, T, m, a, hturns, hat, hbyte, hmode, hpage, hdemo, hlo, hhi⟩ := Boot.program_loaded hs h0 hsends (by decide)
  obtain ⟨⟨a', hat', hhanded⟩, hnot, hstub⟩ := stub_step hs hf0 hat hbyte hmode hpage
  refine ⟨k, T + 7, hturns, ⟨hat'.state, hat'.arch.symm ▸ hhanded, fun τ hτ hf => ?_⟩, ?_, by omega, by omega⟩
  · have hτT : τ ≤ T := by
      by_contra hlt
      exact hnot τ (by omega) hτ hf
    have hT : (s T).mem.flash_mode = false := (congrArg (fun a : Arch => a.mem.flash_mode) hat.arch).trans hmode
    exact flash_mode_mono hs hτT hT
  · rw [Top.gpioWrites_append (Nat.zero_le _) (show T ≤ T + 7 by omega), hstub, List.append_nil, hdemo]

/-- The same on a board that has an image in its flash. -/
theorem board_hands_over {ui_in : Nat → BitVec 8} {other : Nat → Bool} {b : Nat → Board}
    (hb : Board.Run bootRom ui_in other b) {b0 : Board} (hreset : b 0 = b0.reset) {img : List (BitVec 8)}
    (hflash : InFlash b0.flash.mem img) {S : Nat} {rise fall : Nat → Nat} (hstub : SendsStub ui_in S rise fall) :
    (b 0).Ready ∧ InFlash (b 0).flash.mem img ∧ ∃ k T, Turns (Board.inputs ui_in other b) k ∧
      HandsOver (Board.tops b) T ∧ fall 39 ≤ T ∧ T ≤ fall 39 + 112 ∧
      Top.gpioWrites (Board.tops b) 0 T = demoStores (Board.inputs ui_in other b) k := by
  have htop : Board.tops b 0 = b0.top.reset := congrArg Board.top hreset
  obtain ⟨k, T, hturns, hover, hdemo, hlo, hhi⟩ := stub_hands_over hb.top htop hstub
  refine ⟨hreset ▸ Board.reset_ready b0, ?_, k, T, hturns, hover, hlo, hhi, hdemo⟩
  rw [hreset]
  exact hflash

end Paged

end Pineapple
