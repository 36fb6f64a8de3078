import Pineapple.Paged.Proofs.CallerProofs
import Pineapple.St7789.Proofs.PagesProofs

/-!
# Proofs: the DELAY pages

The counter of a DELAY page starts at the sign-extended low twelve bits of the delay count and is decremented until
it is zero, so the page always ends.
-/

namespace Pineapple

open Clocked
open Rv32i (Instr Word Reg readReg writeReg)

namespace St7789

variable {c : Config}

/-! ## The driver in the flash -/

/-- An image of the driver in the flash holds its pages. -/
theorem image_holds {img : List (BitVec 8)} (himg : image c = .ok img) :
    Paged.WellFormed (pages c) ∧ (∀ flash, Paged.InFlash flash img → Paged.Holds flash (pages c)) ∧
      img.length = 44 * 165 := by
  obtain ⟨p, hp, himg⟩ := bind_ok.mp himg
  cases himg
  rw [script_eq c (pixel_count_of_script c hp)] at hp
  have hregs : ∀ cl ∈ scriptCalls (pages c), cl.RegsOk := by
    intro cl hcl
    obtain ⟨pg, hpg, hcl⟩ := List.mem_flatMap.mp (List.mem_of_mem_tail hcl)
    rcases List.mem_cons.mp hpg with rfl | hpg
    · exact (fits_init c 0).regs cl hcl
    · exact (fits_from1 c hpg 0).regs cl hcl
  have hscratch : ∀ (n : Nat) (pg : Page), (pagesOf (scriptCalls (pages c)))[n]? = some pg →
      0 < pg.scratch ∧ pg.scratch < 32 := by
    intro n pg hn
    rw [pagesOf_pages] at hn
    have h30 : pg.scratch = 30 := by
      rcases List.mem_cons.mp (List.mem_of_getElem? hn) with rfl | hpg
      · rfl
      · exact scratch_from1 c hpg
    omega
  have hfin := finished_of_calls hregs hp
  have hlen : p.pages.length = 165 := by
    rw [hfin.length, pagesOf_pages, pages_length]
  have hwf := Paged.wellFormed_of_finished hfin (by omega) hscratch
  rw [pagesOf_pages] at hwf
  refine ⟨hwf, fun flash hflash => ?_, (Paged.finalize_length hfin).trans (congrArg _ hlen)⟩
  have hold := Paged.holds_of_finished hfin (by omega) hflash
  rwa [pagesOf_pages] at hold

/-! ## The loop -/

section Loop

variable {load : Nat → Arch → Instr → Word} {n : Nat} {next : Int} {mem : MemRegs}

/-- The observer sees only the decrement on page `n`. -/
structure Sees {O : Type} (n : Nat) (out : Nat × PState → List O) (os : List O) : Prop where
  dec : ∀ t regs mem, out (t, ⟨n, 2, regs, mem⟩) = os
  other : ∀ t j regs mem, j ≠ 2 → j ≤ 4 → out (t, ⟨n, j, regs, mem⟩) = []

/-- The instructions of a DELAY page. -/
theorem delay_instr {j : Nat} {i : Instr} (h : [.opImm .addi 2 0 (BitVec.ofInt 12 (delay_count c)),
    .branch .beq 2 0 (BitVec.ofInt 13 (4 * (4 : Nat) - 4 * (1 : Nat))), .opImm .addi 2 2 (BitVec.ofInt 12 (-1)),
      .jal 0 (BitVec.ofInt 21 (4 * (1 : Nat) - 4 * (3 : Nat)))][j]? = some i) :
    (delayPage c next).instrs[j]? = some i := h

/-- From the branch on, `k` turns of the loop. -/
theorem delay_loop (h : Paged.WellFormed (pages c)) (hn : (pages c)[n]? = some (delayPage c next)) {k : Nat}
    (hk : k < 2 ^ 32) (t : Nat) {regs : Regs} (hx : readReg regs 2 = BitVec.ofNat 32 k) :
    ∃ t' regs', readReg regs' 2 = 0 ∧ (∀ r, r ≠ 2 → readReg regs' r = readReg regs r) ∧
      ∀ {O : Type} (out : Nat × PState → List O) (os : List O), Sees n out os →
        Path (Paged.step (pages c) load) out (t, ⟨n, 1, regs, mem⟩) (List.replicate k os).flatten
          (t', ⟨n, 4, regs', mem⟩) := by
  -- the branch, which is taken if and only if the counter is zero
  have hbranch : ∀ {regs : Regs} (t : Nat), Paged.step (pages c) load (t, ⟨n, 1, regs, mem⟩) =
      some (t + 137, ⟨n, if Rv32i.BranchOp.holds .beq (readReg regs 2) (readReg regs 0) then 4 else 2, regs, mem⟩) :=
    fun t => Paged.step_branch h hn rfl (by decide) (delay_instr rfl)
  induction k generalizing t regs with
  | zero =>
    have hb := @hbranch regs t
    have htaken : Rv32i.BranchOp.holds .beq (readReg regs 2) (readReg regs 0) = true := by
      rw [hx]
      rfl
    rw [if_pos htaken] at hb
    exact ⟨t + 137, regs, hx, fun r _ => rfl, fun out os ho => .one hb (ho.other t 1 regs mem (by decide) (by decide))⟩
  | succ k ih =>
    have hb := @hbranch regs t
    have hfall : Rv32i.BranchOp.holds .beq (readReg regs 2) (readReg regs 0) = false := by
      rw [hx]
      refine beq_eq_false_iff_ne.mpr fun he => ?_
      have := congrArg BitVec.toNat he
      rw [BitVec.toNat_ofNat, Nat.mod_eq_of_lt hk] at this
      exact absurd this (Nat.succ_ne_zero k)
    rw [if_neg (by rw [hfall]; decide)] at hb
    obtain ⟨regs₁, hregs₁⟩ : ∃ r, r = writeReg regs 2 (readReg regs 2 + (-1 : BitVec 12).signExtend 32) := ⟨_, rfl⟩
    have hd : Paged.step (pages c) load (t + 137, ⟨n, 2, regs, mem⟩) = some (t + 137 + 137, ⟨n, 3, regs₁, mem⟩) := by
      have hstep : Paged.step (pages c) load (t + 137, ⟨n, 2, regs, mem⟩) = _ :=
        Paged.step_opImm h hn (delay_instr rfl)
      rw [hstep, hregs₁]
      rfl
    have hj : Paged.step (pages c) load (t + 137 + 137, ⟨n, 3, regs₁, mem⟩) =
        some (t + 137 + 137 + 137, ⟨n, 1, regs₁, mem⟩) := Paged.step_jal h hn rfl (by decide) (delay_instr rfl)
    have hx₁ : readReg regs₁ 2 = BitVec.ofNat 32 k := by
      rw [hregs₁, readReg_writeReg (by decide)]
      exact decrement hx rfl
    obtain ⟨t', regs', h2, hrest, hpath⟩ := ih (by omega) (t + 137 + 137 + 137) hx₁
    refine ⟨t', regs', h2, fun r hr => ?_, fun out os ho => ?_⟩
    · rw [hrest r hr, hregs₁, readReg_writeReg_ne hr]
    · have hturn := (Path.one hb (ho.other t 1 regs mem (by decide) (by decide))).trans
        (Path.one hd (ho.dec _ regs mem))
      have hback := (Path.one hj (ho.other _ 3 regs₁ mem (by decide) (by decide))).trans (hpath out os ho)
      rw [List.replicate_succ, List.flatten_cons]
      exact hturn.trans hback

/-- From the branch on, the loop and the end of the page. -/
theorem delay_rest (h : Paged.WellFormed (pages c)) (hn : (pages c)[n]? = some (delayPage c ((n + 1 : Nat) : Int)))
    (hlt : n + 1 < 165) (t : Nat) (regs : Regs) :
    ∃ t' regs', readReg regs' 2 = 0 ∧ readReg regs' 5 = readReg regs 5 ∧
      ∀ {O : Type} (out : Nat × PState → List O) (os : List O), Sees n out os →
        Path (Paged.step (pages c) load) out (t, ⟨n, 1, regs, mem⟩)
          (List.replicate (readReg regs 2).toNat os).flatten (t', ⟨n + 1, 0, regs', mem⟩) := by
  have hx : readReg regs 2 = BitVec.ofNat 32 (readReg regs 2).toNat := by
    rw [BitVec.ofNat_toNat, BitVec.setWidth_eq]
  obtain ⟨t₂, regs₂, h2, hrest, hloop⟩ := @delay_loop c load n _ mem h hn _ (readReg regs 2).isLt t _ hx
  have hnext : (delayPage c ((n + 1 : Nat) : Int)).next ⟨n, 4, regs₂, mem⟩ = BitVec.ofNat 32 (n + 1) :=
    Paged.next_const rfl (by omega)
  have hnextn : ((delayPage c ((n + 1 : Nat) : Int)).next ⟨n, 4, regs₂, mem⟩).toNat = n + 1 := by
    rw [hnext, BitVec.toNat_ofNat]
    omega
  obtain ⟨regs₃, hregs₃⟩ : ∃ r, r = writeReg regs₂ 30 (BitVec.ofNat 32 (n + 1)) := ⟨_, rfl⟩
  have hleave : Paged.step (pages c) load (t₂, ⟨n, 4, regs₂, mem⟩) = some (t₂ + 137 * 7, ⟨n + 1, 0, regs₃, mem⟩) := by
    have hs : Paged.step (pages c) load (t₂, ⟨n, 4, regs₂, mem⟩) = _ :=
      Paged.step_leave hn rfl (by rw [hnextn, pages_length]; exact hlt)
    rw [hs, Page.leave, hnextn, hnext, hregs₃]
    rfl
  refine ⟨t₂ + 137 * 7, regs₃, ?_, ?_, fun out os ho => ?_⟩
  · rw [hregs₃, readReg_writeReg_ne (by decide), h2]
  · rw [hregs₃, readReg_writeReg_ne (by decide), hrest 5 (by decide)]
  · have hp := (hloop out os ho).trans (Path.one hleave (ho.other t₂ 4 regs₂ mem (by decide) (by decide)))
    rwa [List.append_nil] at hp

/-- The whole page: the counter starts at the sign-extended immediate. -/
theorem delay_path (h : Paged.WellFormed (pages c)) (hn : (pages c)[n]? = some (delayPage c ((n + 1 : Nat) : Int)))
    (hlt : n + 1 < 165) (t : Nat) (regs : Regs) :
    ∃ t' regs', readReg regs' 2 = 0 ∧ readReg regs' 5 = readReg regs 5 ∧
      ∀ {O : Type} (out : Nat × PState → List O) (os : List O), Sees n out os →
        Path (Paged.step (pages c) load) out (t, ⟨n, 0, regs, mem⟩)
          (List.replicate (BitVec.ofInt 32 ((delay_count c).bmod 4096)).toNat os).flatten
          (t', ⟨n + 1, 0, regs', mem⟩) := by
  obtain ⟨v, hv⟩ : ∃ v, v = BitVec.ofInt 32 ((delay_count c).bmod 4096) := ⟨_, rfl⟩
  obtain ⟨regs₁, hregs₁⟩ : ∃ r, r = writeReg regs 2 v := ⟨_, rfl⟩
  have hset : Paged.step (pages c) load (t, ⟨n, 0, regs, mem⟩) = some (t + 137, ⟨n, 1, regs₁, mem⟩) := by
    have hval : Rv32i.ImmOp.eval .addi (readReg regs 0) ((BitVec.ofInt 12 (delay_count c)).signExtend 32) = v := by
      rw [hv, ← signExtend_ofInt]
      exact BitVec.zero_add _
    have hstep : Paged.step (pages c) load (t, ⟨n, 0, regs, mem⟩) = _ := Paged.step_opImm h hn (delay_instr rfl)
    rw [hstep, hregs₁, ← hval]
    rfl
  have hx : readReg regs₁ 2 = v := by
    rw [hregs₁, readReg_writeReg (by decide)]
  obtain ⟨t', regs', h2, h5, hrest⟩ := @delay_rest c load n mem h hn hlt (t + 137) regs₁
  refine ⟨t', regs', h2, ?_, fun out os ho => ?_⟩
  · rw [h5, hregs₁, readReg_writeReg_ne (by decide)]
  · have hp := (Path.one hset (ho.other t 0 regs mem (by decide) (by decide))).trans (hrest out os ho)
    rwa [hx, hv, List.nil_append] at hp

end Loop

/-! ## The chip -/

section Chip

variable {img : List (BitVec 8)} {rom : Rom} {ui_in : Nat → BitVec 8} {other : Nat → Bool} {b : Nat → Board} {n : Nat}

theorem delay_page_of (hn : n = 9 ∨ n = 18) : (pages c)[n]? = some (delayPage c ((n + 1 : Nat) : Int)) := by
  rcases hn with rfl | rfl
  · rfl
  · rfl

theorem atPage_arch {σ : PState} (hj : σ.index < 11) (hp : σ.page < 256) (hn : n < 256) :
    AtPage n σ.arch ↔ σ.page = n ∧ σ.index = 0 := by
  constructor
  · intro h
    have hpc : windowAddr σ.index = 0xB4 := h.pc
    have hpage : BitVec.ofNat 8 σ.page = BitVec.ofNat 8 n := h.flash_page
    have h1 := windowAddr_toNat hj
    rw [hpc] at h1
    have h2 := congrArg BitVec.toNat hpage
    rw [BitVec.toNat_ofNat, BitVec.toNat_ofNat] at h2
    have h3 : (0xB4 : BitVec 8).toNat = 0xB4 := rfl
    omega
  · rintro ⟨rfl, h0⟩
    exact ⟨rfl, rfl, by show windowAddr σ.index = _; rw [h0]; rfl⟩

/-- The observer of the decrements sees the instruction of the page. -/
theorem decrements_arch {flash : Bits.ByteMemory 14} {P : List Page} (hold : Paged.Holds flash P)
    {σ : PState} {pg : Page} (hn : P[σ.page]? = some pg) {i : Instr} (hi : (pg.full σ.page)[σ.index]? = some i)
    (t : Nat) :
    decrements flash (t, σ.arch) = if i = .opImm .addi 2 2 (-1) then [()] else [] := by
  have hd := hold σ.page σ.index pg i hn hi σ.arch.mem rfl
  by_cases hc : i = .opImm .addi 2 2 (-1)
  · rw [if_pos hc]
    exact if_pos (hd.trans (congrArg some hc))
  · rw [if_neg hc]
    exact if_neg fun he => hc (Option.some.inj (hd.symm.trans he))

theorem blind_decrements {flash : Bits.ByteMemory 14} {P : List Page} (h : Paged.WellFormed P)
    (hold : Paged.Holds flash P) : Paged.Blind P (decrements flash) := by
  intro t σ pg hn hlen hj
  obtain ⟨i, hi⟩ : ∃ i, (pg.full σ.page)[σ.index]? = some i :=
    ⟨_, List.getElem?_eq_getElem (by rw [h.full_length _ _ hn]; exact hj)⟩
  rw [decrements_arch hold hn hi, if_neg]
  have hmem : i ∈ pg.glue σ.page := by
    rw [Page.full, List.getElem?_append_right hlen] at hi
    exact List.mem_of_getElem? hi
  rintro rfl
  simp [Page.glue] at hmem

/-- The observer sees the decrement of the page. -/
theorem sees_decrements {flash : Bits.ByteMemory 14} (h : Paged.WellFormed (pages c))
    (hold : Paged.Holds flash (pages c)) {next : Int} (hn : (pages c)[n]? = some (delayPage c next)) :
    Sees n (fun x : Nat × PState => decrements flash (x.1, x.2.arch)) [()] := by
  have hdec : ∀ {j : Nat} {i : Instr}, (delayPage c next).instrs[j]? = some i → ∀ t regs mem,
      decrements flash (t, (PState.mk n j regs mem).arch) = if i = .opImm .addi 2 2 (-1) then [()] else [] :=
    fun hi t regs mem => decrements_arch hold hn (Paged.full_of_instrs hi) t
  refine ⟨fun t regs mem => (hdec (delay_instr rfl) t regs mem).trans (if_pos rfl), fun t j regs mem h2 h4 => ?_⟩
  have hcase : j = 0 ∨ j = 1 ∨ j = 3 ∨ j = 4 := by omega
  rcases hcase with rfl | rfl | rfl | rfl
  · exact (hdec (delay_instr rfl) t regs mem).trans (if_neg (by simp))
  · exact (hdec (delay_instr rfl) t regs mem).trans (if_neg (by simp))
  · exact (hdec (delay_instr rfl) t regs mem).trans (if_neg (by simp))
  · exact blind_decrements h hold t ⟨n, 4, regs, mem⟩ _ hn le_rfl (Nat.le_of_ble_eq_true rfl)

/-- An observer of the arrival on the next page. -/
theorem blind_atPage (hn : n = 9 ∨ n = 18) :
    Paged.Blind (pages c) fun x => if AtPage (n + 1) x.2 then [()] else [] := by
  intro t σ pg hpg hlen hj
  have hlt : σ.page < 165 := pages_length c ▸ (List.getElem?_eq_some_iff.mp hpg).1
  refine if_neg fun hat => ?_
  obtain ⟨hp, hi⟩ := (atPage_arch hj (by omega) (by omega)).mp hat
  rw [hp] at hpg
  have h4 : pg.instrs.length = 4 := by
    rcases hn with rfl | rfl
    · cases hpg
      rfl
    · cases hpg
      rfl
  omega

theorem sees_atPage (hn : n = 9 ∨ n = 18) :
    Sees n (fun x : Nat × PState => if AtPage (n + 1) x.2.arch then [()] else []) [] := by
  have hno : ∀ j regs mem, j ≤ 4 → ¬ AtPage (n + 1) (PState.mk n j regs mem).arch := by
    intro j regs mem hj hat
    have hjl : (PState.mk n j regs mem).index < 11 := by show j < 11; omega
    have hpl : (PState.mk n j regs mem).page < 256 := by show n < 256; omega
    have hp : n = n + 1 := ((atPage_arch hjl hpl (by omega)).mp hat).1
    omega
  exact ⟨fun t regs mem => if_neg (hno 2 regs mem (by decide)), fun t j regs mem _ hj => if_neg (hno j regs mem hj)⟩

theorem arch_of_atPage {a : Arch} (h : AtPage n a) : (PState.mk n 0 a.regs a.mem).arch = a := by
  obtain ⟨hmode, hpage, hpc⟩ := h
  obtain ⟨⟨pc, regs⟩, ⟨ws, mode, page, gpio⟩⟩ := a
  cases hmode
  cases hpage
  cases hpc
  rfl

/-- A DELAY page on the chip. -/
theorem delay_runs (himg : image c = .ok img) (hn : n = 9 ∨ n = 18) (hb : Board.Run rom ui_in other b)
    (h0 : (b 0).Ready) (hflash : Paged.InFlash (b 0).flash.mem img) (hat : AtPage n (b 0).top.arch) :
    ∃ T a, Top.At (Board.tops b) T a ∧ AtPage (n + 1) a ∧
      (∀ τ < T, ∀ a', Top.At (Board.tops b) τ a' → ¬ AtPage (n + 1) a') ∧
      (Top.emitted (Board.tops b) (decrements (b 0).flash.mem) 0 T).length =
        (BitVec.ofInt 32 ((delay_count c).bmod 4096)).toNat ∧
      a.reg 2 = 0 ∧ a.reg 5 = (b 0).top.arch.reg 5 := by
  obtain ⟨hwf, hold, -⟩ := image_holds himg
  have hold := hold _ hflash
  have hpage : (pages c)[n]? = _ := delay_page_of hn
  obtain ⟨T, regs', h2, h5, hpath⟩ := @delay_path c (Env.chip rom (Board.inputs ui_in other b)).load n
    (b 0).top.arch.mem hwf hpage (by omega) 0 (b 0).top.arch.regs
  -- the path of the chip, for each of the two observers
  have hrun : ∀ (out : Nat × Arch → List Unit) (os : List Unit), Paged.Blind (pages c) out →
      Sees n (fun x => out (x.1, x.2.arch)) os →
      Top.At (Board.tops b) T (PState.mk (n + 1) 0 regs' (b 0).top.arch.mem).arch ∧
        Top.emitted (Board.tops b) out 0 T =
          (List.replicate (BitVec.ofInt 32 ((delay_count c).bmod 4096)).toNat os).flatten := by
    intro out os hblind hsees
    have hp := Paged.simulate hwf hold hblind (fun _ _ => Nat.zero_le _) (hpath _ os hsees)
    rw [arch_of_atPage hat] at hp
    obtain ⟨hat', -, hem⟩ := Top.run_path hb.top h0.atFetch (Board.agrees_flash hb h0) hp ⟨h0.state, rfl⟩
    exact ⟨hat', hem⟩
  obtain ⟨hend, hcount⟩ := hrun _ _ (blind_decrements hwf hold) (sees_decrements hwf hold hpage)
  obtain ⟨-, hfirst⟩ := hrun _ _ (blind_atPage hn) (sees_atPage hn)
  refine ⟨T, _, hend, (atPage_arch (Nat.zero_lt_succ 10) (by show n + 1 < 256; omega) (by omega)).mpr ⟨rfl, rfl⟩,
    fun τ hτ a' ha' hbad => ?_, ?_, h2, h5⟩
  · rw [List.flatten_replicate_nil] at hfirst
    have := Top.emitted_eq_nil.mp hfirst τ (Nat.zero_le _) hτ ha'.state
    rw [ha'.arch, if_pos hbad] at this
    cases this
  · rw [hcount]
    simp

/-- The counter starts at the delay count if and only if that is not negative as a 12-bit immediate. -/
theorem start_eq_iff {count : Int} (h0 : 0 ≤ count) (h1 : count < 2 ^ 24) :
    ((BitVec.ofInt 32 (count.bmod 4096)).toNat : Int) = count ↔ count < 2048 := by
  rw [BitVec.toNat_ofInt, Int.bmod_def]
  split
  · omega
  · omega

/-- The number of decrements of a DELAY page. -/
theorem waits_iff (himg : image c = .ok img) (hn : n = 9 ∨ n = 18) (hb : Board.Run rom ui_in other b)
    (h0 : (b 0).Ready) (hflash : Paged.InFlash (b 0).flash.mem img) (hat : AtPage n (b 0).top.arch) (count : Int) :
    Waits b n count ↔ ((BitVec.ofInt 32 ((delay_count c).bmod 4096)).toNat : Int) = count := by
  obtain ⟨T, a, hT, hpage, hfirst, hcount, h2, h5⟩ := delay_runs himg hn hb h0 hflash hat
  rw [← hcount]
  refine ⟨?_, fun h => ⟨T, a, hT, hpage, hfirst, h, h2, h5⟩⟩
  rintro ⟨T', a', hT', hpage', hfirst', hcount', -⟩
  -- both cycles are the first one on the next page
  obtain rfl : T = T' := by
    rcases Nat.lt_trichotomy T T' with hlt | heq | hgt
    · exact absurd hpage (hfirst' T hlt a hT)
    · exact heq
    · exact absurd hpage' (hfirst T' hgt a' hT')
  exact hcount'

/-- A DELAY page performs the configured number of decrements if and only if that number is below 2048; it always
ends on the next page, with `x2` zero and `x5` unchanged. -/
theorem delay_iff (himg : image c = .ok img) (hc0 : 0 ≤ delay_count c) (hc1 : delay_count c < 2 ^ 24)
    (hn : n = 9 ∨ n = 18) (hb : Board.Run rom ui_in other b) (h0 : (b 0).Ready)
    (hflash : Paged.InFlash (b 0).flash.mem img) (hat : AtPage n (b 0).top.arch) :
    (∃ count, Waits b n count) ∧ (Waits b n (delay_count c) ↔ delay_count c < 2048) := by
  rw [waits_iff himg hn hb h0 hflash hat, start_eq_iff hc0 hc1]
  exact ⟨⟨_, (waits_iff himg hn hb h0 hflash hat _).mpr rfl⟩, Iff.rfl⟩

end Chip

/-- The configuration of a real panel. -/
def realPanel : Config := { shipped with USE_SIM_PANEL_SIZE := false }

/-- A board at the beginning of page 9 of an image. -/
def boardAt9 (img : List (BitVec 8)) : Board :=
  { Paged.handedOver img with
    top :=
      { core := { (Paged.handedOver img).top.core with pc := 0xB4 }
        mem := { (Paged.handedOver img).top.mem with flash_page := 9 } } }

theorem image_ok (h : 0 ≤ pixel_count c ∧ pixel_count c < 2 ^ 24) :
    ∃ img, image c = .ok img ∧ Paged.InFlash (boardAt9 img).flash.mem img := by
  obtain ⟨p, hp⟩ := (script_ok_iff c).mpr h
  have himg : image c = .ok p.finalize := bind_ok.mpr ⟨p, hp, rfl⟩
  exact ⟨_, himg, Paged.handedOver_inFlash (by rw [(image_holds himg).2.2]; decide)⟩

theorem boardAt9_ready (img : List (BitVec 8)) : (boardAt9 img).Ready :=
  ⟨rfl, ⟨rfl, rfl⟩, ⟨rfl, rfl⟩, ⟨rfl, rfl, rfl⟩, ⟨rfl, rfl, rfl⟩⟩

theorem delay_iff_shipped :
    ∃ img, image shipped = .ok img ∧
      let b := Clocked.run (fun (b : Board) (_ : Unit) => b.step bootRom 0 false) (fun _ => ()) (boardAt9 img)
      Waits b 9 20 := by
  obtain ⟨img, himg, hflash⟩ := image_ok (c := shipped) (by decide)
  refine ⟨img, himg, ?_⟩
  intro b
  exact (@delay_iff shipped img bootRom (fun _ => 0) (fun _ => false) b 9 himg (by decide) (by decide) (.inl rfl)
    (fun _ => rfl) (boardAt9_ready img) hflash ⟨rfl, rfl, rfl⟩).2.mpr (by decide)

/-- On a real panel the delay is 2000000 in the file and 1152 in the image. -/
theorem delay_fails :
    ∃ img, image realPanel = .ok img ∧
      let b := Clocked.run (fun (b : Board) (_ : Unit) => b.step bootRom 0 false) (fun _ => ()) (boardAt9 img)
      Board.Run bootRom (fun _ => 0) (fun _ => false) b ∧ (b 0).Ready ∧ Paged.InFlash (b 0).flash.mem img ∧
        AtPage 9 (b 0).top.arch ∧ delay_count realPanel = 2000000 ∧ Waits b 9 1152 ∧ ¬ Waits b 9 2000000 := by
  obtain ⟨img, himg, hflash⟩ := image_ok (c := realPanel) (by decide)
  refine ⟨img, himg, ?_⟩
  intro b
  have hcount := fun count => @waits_iff realPanel img bootRom (fun _ => 0) (fun _ => false) b 9 himg (.inl rfl)
    (fun _ => rfl) (boardAt9_ready img) hflash ⟨rfl, rfl, rfl⟩ count
  refine ⟨fun _ => rfl, boardAt9_ready img, hflash, ⟨rfl, rfl, rfl⟩, rfl, (hcount 1152).mpr (by decide), fun h => ?_⟩
  exact absurd ((hcount 2000000).mp h) (by decide)

end St7789

end Pineapple
