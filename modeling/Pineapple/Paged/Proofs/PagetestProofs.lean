import Pineapple.Paged.Pagetest
import Pineapple.Paged.Proofs.ChainProofs
import Pineapple.Paged.Proofs.ResetProofs

/-!
# Proofs: the test image with four pages

One lemma for each visit of a page, with the byte it stores. Page 1 is visited with x5 zero and then with x5 one; page 3
does not end.
-/

namespace Pineapple

open Clocked
open Rv32i (Instr Word Reg readReg writeReg)

namespace Pagetest

/-! ## The image -/

/-- The script builds an image, and it holds the pages. -/
theorem image_holds : ∃ img, image = .ok img ∧ img.length = 176 ∧ Paged.WellFormed pages ∧
    ∀ flash, Paged.InFlash flash img → Paged.Holds flash pages := by
  have hfit0 : page0.Fits 0 := ⟨by decide, (by decide : 4 + 1 ≤ 9), _, rfl, rfl⟩
  have hfit : ∀ (n : Nat) (pg : Page), [page1, page2, page3][n]? = some pg → pg.Fits (n + 1) ∧ pg.scratch = 30 := by
    intro n pg hn
    have hmem := List.mem_of_getElem? hn
    simp only [List.mem_cons, List.not_mem_nil, or_false] at hmem
    rcases hmem with rfl | rfl | rfl
    · exact ⟨⟨by decide, (by decide : 7 + 0 ≤ 9), _, rfl, rfl⟩, rfl⟩
    · exact ⟨⟨by decide, (by decide : 2 + 1 ≤ 9), _, rfl, rfl⟩, rfl⟩
    · exact ⟨⟨by decide, (by decide : 3 + 1 ≤ 9), _, rfl, rfl⟩, rfl⟩
  obtain ⟨p, hp⟩ := script_ok hfit0 fun n pg hn => (hfit n pg hn).1
  obtain ⟨hwf, hold, hlen⟩ := Paged.script_holds hfit0 (fun n pg hn => (hfit n pg hn).1) (fun pg hpg => by
    rcases List.mem_cons.mp hpg with rfl | hpg
    · rfl
    · obtain ⟨n, hn⟩ := List.mem_iff_getElem?.mp hpg
      exact (hfit n pg hn).2) (by decide) hp
  have hlen : p.finalize.length = 176 := hlen
  refine ⟨p.finalize, ?_, hlen, hwf, hold⟩
  exact bind_ok.mpr ⟨p, hp, if_pos hlen⟩

/-! ## The visits -/

/-- The observer of the stores. -/
def stored (flash : Bits.ByteMemory 14) (c : Nat × PState) : List (BitVec 8) := gpioStores flash (c.1, c.2.arch)

variable {flash : Bits.ByteMemory 14} {load : Nat → Arch → Instr → Word} {t n j : Nat} {pg : Page} {regs : Regs}
  {mem : MemRegs}

section Visit

variable (h : Paged.WellFormed pages) (hold : Paged.Holds flash pages)

include h hold

/-- The two instructions that store a byte; they change x2 only. -/
theorem store_byte (hn : pages[n]? = some pg) {v : BitVec 12} {byte : BitVec 8}
    (hi : pg.instrs[j]? = some (.opImm .addi 2 0 v)) (hi' : pg.instrs[j + 1]? = some (.store .sw 2 0 0xF0))
    (hv : (v.signExtend 32).extractLsb' 0 8 = byte) :
    ∃ regs' mem', Path (Paged.step pages load) (stored flash) (t, ⟨n, j, regs, mem⟩) [byte]
      (t + 137 + 137, ⟨n, j + 2, regs', mem'⟩) ∧ ∀ r : Reg, r ≠ 2 → readReg regs' r = readReg regs r := by
  obtain ⟨x, hx⟩ : ∃ x, x = writeReg regs 2 (v.signExtend 32) := ⟨_, rfl⟩
  have hstep : Paged.step pages load (t, ⟨n, j, regs, mem⟩) = some (t + 137, ⟨n, j + 1, x, mem⟩) := by
    have hs : Paged.step pages load (t, ⟨n, j, regs, mem⟩) = _ := Paged.step_opImm (σ := ⟨n, j, regs, mem⟩) h hn hi
    have hzero : Rv32i.ImmOp.eval .addi (readReg regs 0) (v.signExtend 32) = v.signExtend 32 := BitVec.zero_add _
    rw [hs, hx]
    exact congrArg (fun w => some (t + 137, PState.mk n (j + 1) (writeReg regs 2 w) mem)) hzero
  have hquiet : stored flash (t, ⟨n, j, regs, mem⟩) = [] := by
    rw [stored, gpioStores_arch (σ := ⟨n, j, regs, mem⟩) hold hn (Paged.full_of_instrs hi)]
    exact gpioStore_of_isStore rfl
  have hval : (readReg x 2).extractLsb' 0 8 = byte := by rw [hx, readReg_writeReg (by decide), hv]
  have hbyte : stored flash (t + 137, ⟨n, j + 1, x, mem⟩) = [byte] := by
    rw [stored, gpioStores_arch (σ := ⟨n, j + 1, x, mem⟩) hold hn (Paged.full_of_instrs hi'), gpioStore_out]
    exact congrArg (fun b => [b]) hval
  have hstep' : Paged.step pages load (t + 137, ⟨n, j + 1, x, mem⟩) =
      some (t + 137 + 137, ⟨n, j + 2, x, { mem with gpio_out := byte }⟩) := by
    have hs : Paged.step pages load (t + 137, ⟨n, j + 1, x, mem⟩) = _ :=
      Paged.step_gpio (σ := ⟨n, j + 1, x, mem⟩) h hn hi'
    rw [hs, show readReg (PState.mk n (j + 1) x mem).regs 2 = readReg x 2 from rfl, hval]
    rfl
  refine ⟨x, { mem with gpio_out := byte }, Silent.path (.single hstep hquiet) (.one hstep' hbyte), fun r hr => ?_⟩
  rw [hx, readReg_writeReg_ne hr]

/-- Page 0, from behind the dead NOP. -/
theorem visit_page0 : ∃ regs' mem', Path (Paged.step pages load) (stored flash) (t, ⟨0, 1, regs, mem⟩) [0x11]
    (t + 137 * 10, ⟨1, 0, regs', mem'⟩) ∧ readReg regs' 5 = 0 := by
  have hn : pages[0]? = some page0 := rfl
  have hi1 : page0.instrs[1]? = some (.opImm .addi 5 0 0) := rfl
  have hq : Paged.Quiet (stored flash) 0 4 := Paged.quiet_stores h hold hn rfl
  have hq1 : stored flash (t, ⟨0, 1, regs, mem⟩) = [] :=
    (gpioStores_arch (σ := ⟨0, 1, regs, mem⟩) hold hn (Paged.full_of_instrs hi1) t).trans rfl
  have hs : Paged.step pages load (t, ⟨0, 1, regs, mem⟩) = some (t + 137, ⟨0, 2, writeReg regs 5 0, mem⟩) :=
    Paged.step_opImm (σ := ⟨0, 1, regs, mem⟩) h hn hi1
  obtain ⟨regs₂, mem₂, hbyte, hkept⟩ := @store_byte flash load (t + 137) 0 2 page0 (writeReg regs 5 0) mem h hold hn
    0x11 0x11 rfl rfl rfl
  refine ⟨writeReg regs₂ 30 1, mem₂, Silent.path (.single hs hq1) (hbyte.silent ?_), ?_⟩
  · exact Paged.chain_leave h hn hq (m := 1) rfl le_rfl (by decide) rfl (.refl _)
  · rw [readReg_writeReg_ne (by decide), hkept 5 (by decide), readReg_writeReg (by decide)]

/-- The first visit of page 1. -/
theorem visit_page1 (h5 : readReg regs 5 = 0) : ∃ regs' mem', Path (Paged.step pages load) (stored flash)
    (t, ⟨1, 0, regs, mem⟩) [0x22] (t + 137 * 10, ⟨1, 0, regs', mem'⟩) ∧ readReg regs' 5 = 1 := by
  have hn : pages[1]? = some page1 := rfl
  have hq : Paged.Quiet (stored flash) 1 2 := Paged.quiet_stores h hold hn rfl
  obtain ⟨regs₁, mem₁, hbyte, hkept⟩ := @store_byte flash load t 1 0 page1 regs mem h hold hn 0x22 0x22 rfl rfl rfl
  have hi3 : page1.instrs[3]? = some (.opImm .addi 5 0 1) := rfl
  have hi4 : page1.instrs[4]? = some (.opImm .addi 30 0 1) := rfl
  obtain ⟨x, hx⟩ : ∃ x, x = writeReg regs₁ 5 1 := ⟨_, rfl⟩
  refine ⟨writeReg x 30 1, mem₁, hbyte.silent ?_, ?_⟩
  · have hstay : Rv32i.BranchOp.holds .bne (readReg regs₁ 5) (readReg regs₁ 0) = false := by
      rw [hkept 5 (by decide), h5]
      rfl
    refine Paged.chain_branch h hn hq (l := 6) rfl le_rfl (by decide) hstay ?_
    refine Paged.chain_imm h hn hq hi3 (by decide) (v := 1) (BitVec.zero_add _) ?_
    rw [← hx]
    refine Paged.chain_imm h hn hq hi4 (by decide) (v := 1) (BitVec.zero_add _) ?_
    refine Paged.chain_jal h hn hq (j := 5) (l := 7) rfl (by decide) (by decide) ?_
    exact Paged.chain_leave_computed h hn hq (j := 7) (m := 1) rfl (by decide) (by decide) rfl
      (readReg_writeReg (by decide) _) (.refl _)
  · rw [readReg_writeReg_ne (by decide), hx, readReg_writeReg (by decide)]

/-- The second visit of page 1. -/
theorem visit_page1_again (h5 : readReg regs 5 = 1) : ∃ regs' mem', Path (Paged.step pages load) (stored flash)
    (t, ⟨1, 0, regs, mem⟩) [0x22] (t + 137 * 8, ⟨2, 0, regs', mem'⟩) := by
  have hn : pages[1]? = some page1 := rfl
  have hq : Paged.Quiet (stored flash) 1 2 := Paged.quiet_stores h hold hn rfl
  obtain ⟨regs₁, mem₁, hbyte, hkept⟩ := @store_byte flash load t 1 0 page1 regs mem h hold hn 0x22 0x22 rfl rfl rfl
  have hi6 : page1.instrs[6]? = some (.opImm .addi 30 0 2) := rfl
  refine ⟨writeReg regs₁ 30 2, mem₁, hbyte.silent ?_⟩
  have hgo : Rv32i.BranchOp.holds .bne (readReg regs₁ 5) (readReg regs₁ 0) = true := by
    rw [hkept 5 (by decide), h5]
    rfl
  refine Paged.chain_branch h hn hq (l := 6) rfl le_rfl (by decide) hgo ?_
  refine Paged.chain_imm h hn hq hi6 (by decide) (v := 2) (BitVec.zero_add _) ?_
  exact Paged.chain_leave_computed h hn hq (j := 7) (m := 2) rfl (by decide) (by decide) rfl
    (readReg_writeReg (by decide) _) (.refl _)

theorem visit_page2 : ∃ regs' mem', Path (Paged.step pages load) (stored flash) (t, ⟨2, 0, regs, mem⟩) [0x33]
    (t + 137 * 11, ⟨3, 0, regs', mem'⟩) := by
  have hn : pages[2]? = some page2 := rfl
  have hq : Paged.Quiet (stored flash) 2 2 := Paged.quiet_stores h hold hn rfl
  obtain ⟨regs₁, mem₁, hbyte, -⟩ := @store_byte flash load t 2 0 page2 regs mem h hold hn 0x33 0x33 rfl rfl rfl
  refine ⟨writeReg regs₁ 30 3, mem₁, hbyte.silent ?_⟩
  exact Paged.chain_leave h hn hq (m := 3) rfl le_rfl (by decide) rfl (.refl _)

/-- The jump to itself at the end of page 3. -/
theorem spin (k : Nat) : Silent (Paged.step pages load) (stored flash) (t, ⟨3, 2, regs, mem⟩)
    (t + 137 * k, ⟨3, 2, regs, mem⟩) := by
  have hn : pages[3]? = some page3 := rfl
  have hq : Paged.Quiet (stored flash) 3 2 := Paged.quiet_stores h hold hn rfl
  induction k generalizing t with
  | zero => exact .refl _
  | succ k ih =>
    have hrest := @ih (t + 137)
    rw [show t + 137 * (k + 1) = t + 137 + 137 * k by omega]
    exact Paged.chain_jal h hn hq (j := 2) (l := 2) rfl le_rfl (by decide) hrest

/-- The whole run, for as long as one likes. -/
theorem run (k : Nat) : ∃ regs' mem', Path (Paged.step pages load) (stored flash) (t, ⟨0, 1, regs, mem⟩)
    [0x11, 0x22, 0x22, 0x33, 0x44] (t + 137 * (41 + k), ⟨3, 2, regs', mem'⟩) := by
  obtain ⟨regs₁, mem₁, hp₁, h5₁⟩ := @visit_page0 flash load t regs mem h hold
  obtain ⟨regs₂, mem₂, hp₂, h5₂⟩ := @visit_page1 flash load (t + 137 * 10) regs₁ mem₁ h hold h5₁
  obtain ⟨regs₃, mem₃, hp₃⟩ := @visit_page1_again flash load (t + 137 * 20) regs₂ mem₂ h hold h5₂
  obtain ⟨regs₄, mem₄, hp₄⟩ := @visit_page2 flash load (t + 137 * 28) regs₃ mem₃ h hold
  obtain ⟨regs₅, mem₅, hp₅, -⟩ := @store_byte flash load (t + 137 * 39) 3 0 page3 regs₄ mem₄ h hold rfl
    0x44 0x44 rfl rfl rfl
  have hspin := @spin flash load (t + 137 * 39 + 137 + 137) regs₅ mem₅ h hold k
  refine ⟨regs₅, mem₅, ?_⟩
  rw [show t + 137 * (41 + k) = t + 137 * 39 + 137 + 137 + 137 * k by omega]
  exact hp₁.trans (hp₂.trans (hp₃.trans (hp₄.trans (hp₅.silent hspin))))

end Visit

/-! ## From reset -/

section Board

variable {img : List (BitVec 8)} {ui_in : Nat → BitVec 8} {other : Nat → Bool} {b : Nat → Board}

/-- What the image stores. -/
def bytes : List (BitVec 8) := [0x11, 0x22, 0x22, 0x33, 0x44]

/-- From reset with the stub, the stores are the counter of the demo loop and then the five bytes, in this order: never
another one, and all of them within 41 instructions from the flash after the hand-over. The pins stay at the last
one. -/
theorem pagetest_stores (himg : image = .ok img) (hb : Board.Run bootRom ui_in other b) {b0 : Board}
    (hreset : b 0 = b0.reset) (hflash : Paged.InFlash b0.flash.mem img) {S : Nat} {rise fall : Nat → Nat}
    (hstub : Paged.SendsStub ui_in S rise fall) :
    ∃ k, Boot.Turns (Board.inputs ui_in other b) k ∧
      (∀ t, Top.gpioWrites (Board.tops b) 0 t <+: Boot.demoStores (Board.inputs ui_in other b) k ++ bytes) ∧
      ∀ t, fall 39 + 112 + 137 * 41 ≤ t →
        Top.gpioWrites (Board.tops b) 0 t = Boot.demoStores (Board.inputs ui_in other b) k ++ bytes ∧
          (b t).top.uo_out = 0x44 := by
  obtain ⟨hready, hflash', k, T, hturns, hover, hlo, hhi, hdemo⟩ := Paged.board_hands_over hb hreset hflash hstub
  obtain ⟨img', himg', -, hwf, hold⟩ := image_holds
  cases himg.symm.trans himg'
  have hat : Top.At (Board.tops b) T (Paged.start (Board.tops b T).arch).arch :=
    ⟨hover.fetch, (Paged.start_arch hover.handed).symm⟩
  have hidx : ∀ pg, pages[(Paged.start (Board.tops b T).arch).page]? = some pg →
      (Paged.start (Board.tops b T).arch).index ≤ pg.instrs.length := by
    intro pg hn
    cases hn
    show 1 ≤ page0.instrs.length
    decide
  -- the stores up to any later turn of the last loop
  have hturn : ∀ n, Top.gpioWrites (Board.tops b) 0 (T + 137 * (41 + n)) =
      Boot.demoStores (Board.inputs ui_in other b) k ++ bytes := by
    intro n
    obtain ⟨regs', mem', hpath⟩ := @run (b 0).flash.mem (Env.chip bootRom (Board.inputs ui_in other b)).load T
      (Board.tops b T).arch.regs (Board.tops b T).arch.mem hwf (hold _ hflash') n
    obtain ⟨-, hle, hws⟩ := Paged.run_stores hwf (hold _ hflash') hb hready hidx hpath hat
    rw [Top.gpioWrites_append (Nat.zero_le T) hle, hdemo, hws]
    rfl
  have hall : ∀ t, Top.gpioWrites (Board.tops b) 0 t <+: Boot.demoStores (Board.inputs ui_in other b) k ++ bytes := by
    intro t
    rw [← hturn t]
    exact Top.gpioWrites_prefix (by omega)
  refine ⟨k, hturns, hall, fun t ht => ?_⟩
  have hpre : Boot.demoStores (Board.inputs ui_in other b) k ++ bytes <+: Top.gpioWrites (Board.tops b) 0 t := by
    rw [← hturn 0]
    exact Top.gpioWrites_prefix (by omega)
  have hws := List.IsPrefix.eq_of_length (hall t) (Nat.le_antisymm (hall t).length_le hpre.length_le)
  refine ⟨hws, ?_⟩
  show (Board.tops b t).uo_out = 0x44
  have hlast : bytes = [0x11, 0x22, 0x22, 0x33] ++ [0x44] := rfl
  rw [Top.uo_out_last hb.top t, hws, hlast, ← List.append_assoc, List.getLastD_concat]

end Board

theorem pagetest_stores_wave : ∃ img, image = .ok img ∧
    let ui_in := fun τ => (Boot.wave (BitVec.ofNat 8 Paged.stub.length :: Paged.stub) τ).ui_in
    let b := Clocked.run (fun (b : Board) (v : BitVec 8) => b.step bootRom v false) ui_in (Paged.handedOver img).reset
    ∃ k, Top.gpioWrites (Board.tops b) 0 100000 =
      Boot.demoStores (Board.inputs ui_in (fun _ => false) b) k ++ [0x11, 0x22, 0x22, 0x33, 0x44] := by
  obtain ⟨img, himg, hlen, -⟩ := image_holds
  refine ⟨img, himg, ?_⟩
  intro ui_in b
  obtain ⟨k, -, -, hall⟩ := @pagetest_stores img ui_in (fun _ => false) b himg (fun _ => rfl) (Paged.handedOver img) rfl
    (Paged.handedOver_inFlash (by omega)) 0 _ _ (Boot.sends_wave _)
  exact ⟨k, (hall 100000 (by decide)).1⟩

end Pagetest

end Pineapple
