import Mathlib.Logic.Relation
import Pineapple.Paged.Proofs.SwitchProofs

/-!
# Proofs: a run of an image

From the handoff on the chip takes the run of the paged machine, and its fetches of caller instructions are the
instructions of that run, one after the other.
-/

namespace Pineapple

open Clocked
open Rv32i (Instr Word readReg)

namespace Paged

variable {P : List Page} {pg : Page} {σ : PState} {load : Nat → Arch → Instr → Word}

/-! ## The observer of the caller -/

theorem callers_arch (h : WellFormed P) (hn : P[σ.page]? = some pg) (hj : σ.index < 11) (t : Nat) :
    callers P (t, σ.arch) = caller P σ := by
  have hlt : σ.page < 256 := (List.getElem?_eq_some_iff.mp hn).1.trans_le h.count
  have hpage : (BitVec.ofNat 8 σ.page).toNat = σ.page := by
    rw [BitVec.toNat_ofNat]
    omega
  have hidx : windowIndex σ.arch.pc = σ.index := windowIndex_windowAddr hj
  show (if (P[(BitVec.ofNat 8 σ.page).toNat]?.bind fun pg => pg.instrs[windowIndex σ.arch.pc]?).isSome then
    [((BitVec.ofNat 8 σ.page).toNat, windowIndex σ.arch.pc)] else []) = _
  rw [hpage, hidx]
  rfl

theorem blind_callers (h : WellFormed P) : Blind P (callers P) := by
  intro t σ pg hn hlen hj
  rw [callers_arch h hn hj, caller, hn, Option.bind_some, List.getElem?_eq_none hlen]
  rfl

/-! ## The run of the paged machine -/

/-- A step is possible where the program keeps its promises. -/
theorem step_of_keeps {c : Nat × PState} (hpage : c.2.page < P.length) (hk : Keeps P c.2) :
    ∃ c', step P load c = some c' := by
  obtain ⟨pg, hn⟩ : ∃ pg, P[c.2.page]? = some pg := ⟨_, List.getElem?_eq_getElem hpage⟩
  rw [step, hn, Option.bind_some]
  cases hi : pg.instrs[c.2.index]? with
  | some i => exact ⟨_, if_pos (hk.allowed pg i hn hi)⟩
  | none => exact ⟨_, if_pos (hk.target pg hn hi)⟩

/-- A step takes time and leads to a page of the program. -/
theorem page_of_step (h : WellFormed P) {c c' : Nat × PState} (hs : step P load c = some c') :
    c.1 < c'.1 ∧ c'.2.page < P.length := by
  obtain ⟨pg, hn, hs⟩ := Option.bind_eq_some_iff.mp hs
  have hroom := h.room hn
  cases hi : pg.instrs[c.2.index]? with
  | some i =>
    rw [hi] at hs
    simp only [Option.ite_none_right_eq_some, Option.some.injEq] at hs
    obtain ⟨-, rfl⟩ := hs
    exact ⟨Nat.lt_add_of_pos_right (Top.cycles_pos _ _), (List.getElem?_eq_some_iff.mp hn).1⟩
  | none =>
    rw [hi] at hs
    simp only [Option.ite_none_right_eq_some, Option.some.injEq] at hs
    obtain ⟨ht, rfl⟩ := hs
    exact ⟨Nat.lt_add_of_pos_right (by omega), ht⟩

/-- From a page of the program every state that is reached is on one. -/
theorem page_of_reaches (h : WellFormed P) {c c' : Nat × PState} (hpage : c.2.page < P.length)
    (hr : Reaches (step P load) c c') : c'.2.page < P.length := by
  induction hr with
  | refl => exact hpage
  | tail _ hs _ => exact (page_of_step h hs).2

/-- A constant page number is loaded as it is. -/
theorem next_const {next : Nat} (h : pg.ending.target σ.page = some (next : Int)) (hlt : next < 2048) :
    pg.next σ = BitVec.ofNat 32 next := by
  have hmsb : (BitVec.ofInt 12 (next : Int)).msb = false := by
    rw [BitVec.ofInt_natCast, BitVec.msb_eq_false_iff_two_mul_lt, BitVec.toNat_ofNat]
    omega
  rw [Page.next, h]
  show (BitVec.ofInt 12 (next : Int)).signExtend 32 = _
  rw [BitVec.signExtend_eq_setWidth_of_msb_false hmsb, BitVec.ofInt_natCast]
  apply BitVec.eq_of_toNat_eq
  rw [BitVec.toNat_setWidth, BitVec.toNat_ofNat, BitVec.toNat_ofNat]
  omega

theorem allowed_of_plain {i : Instr} (h : plain i = true) (σ : PState) : σ.allowed i := by
  cases i with
  | store op rs2 rs1 imm =>
    simp only [plain, Bool.and_eq_true, beq_iff_eq] at h
    obtain ⟨⟨rfl, h8⟩, hC⟩ := h
    have haddr : (readReg σ.regs 0 + imm.signExtend 32).setWidth 8 = imm.setWidth 8 := by
      rw [show readReg σ.regs 0 = 0#32 from rfl, BitVec.zero_add, setWidth_signExtend_low imm (by decide)]
    show (_ && _) = true
    rw [haddr, h8, hC]
    rfl
  | jalr rd rs1 imm => cases h
  | _ => rfl

/-- Where every instruction of the page is plain and the page goes to a page, the promises are kept. -/
theorem keeps_of_page (hn : P[σ.page]? = some pg) (hi : pg.instrs.all plain = true)
    (ht : (pg.next σ).toNat < P.length) : Keeps P σ := by
  refine ⟨fun pg' i hn' h => ?_, fun pg' hn' _ => ?_⟩
  · cases hn.symm.trans hn'
    exact allowed_of_plain (List.all_eq_true.mp hi i (List.mem_of_getElem? h)) σ
  · cases hn.symm.trans hn'
    exact ht

theorem start_arch {a : Arch} (h : HandedOff a) : (start a).arch = a := by
  obtain ⟨hmode, hpage, hpc⟩ := h
  obtain ⟨⟨pc, regs⟩, ⟨ws, mode, page, gpio⟩⟩ := a
  cases hmode
  cases hpage
  cases hpc
  rfl

/-! ## The pages of a script -/

theorem mem_pagesOf {cs : List PagedCall} (h : pg ∈ pagesOf cs) : .ending pg.ending ∈ cs := by
  induction cs using List.reverseRecOn with
  | nil => cases h
  | append_singleton cs c ih =>
    cases c with
    | page c =>
      rw [pagesOf_page] at h
      exact List.mem_append_left _ (ih h)
    | ending e =>
      rw [pagesOf_ending] at h
      rcases List.mem_append.mp h with h | h
      · exact List.mem_append_left _ (ih h)
      · rw [List.mem_singleton.mp h]
        exact List.mem_append_right _ List.mem_cons_self

/-- Page 0 begins with the dead NOP. -/
theorem first_page (cs : List PagedCall) :
    (pagesOf cs = [] → ∃ rest, PagedAsm.openCalls cs = .ADDI 0 0 0 :: rest) ∧
      ∀ pg, (pagesOf cs)[0]? = some pg → ∃ rest, pg.body = .ADDI 0 0 0 :: rest := by
  induction cs using List.reverseRecOn with
  | nil =>
    refine ⟨fun _ => ⟨[], rfl⟩, fun pg h => ?_⟩
    cases h
  | append_singleton cs c ih =>
    cases c with
    | page c =>
      rw [pagesOf_page, show [PagedCall.page c] = [c].map .page from rfl, PagedAsm.openCalls_page]
      refine ⟨fun h => ?_, ih.2⟩
      obtain ⟨rest, hrest⟩ := ih.1 h
      exact ⟨rest ++ [c], by rw [hrest, List.cons_append]⟩
    | ending e =>
      rw [pagesOf_ending]
      refine ⟨fun h => absurd h (by simp), fun pg h => ?_⟩
      cases hp : pagesOf cs with
      | nil =>
        rw [hp] at h
        cases h
        exact ih.1 hp
      | cons pg' pages =>
        refine ih.2 pg ?_
        rw [hp] at h ⊢
        exact h

/-! ## The run of the chip -/

section Board

variable {cs : List PagedCall} {p : PagedAsm} {rom : Rom} {ui_in : Nat → BitVec 8} {other : Nat → Bool}
  {b : Nat → Board}

/-- The scratch registers of a script. -/
theorem scratch_of_calls (hr : ∀ c ∈ cs, c.RegsOk)
    (hs : ∀ e r, PagedCall.ending e ∈ cs → e.scratch_reg = some r → r ≠ 0) :
    ∀ (n : Nat) (pg : Page), (pagesOf cs)[n]? = some pg → 0 < pg.scratch ∧ pg.scratch < 32 := by
  intro n pg hn
  have hmem := mem_pagesOf (List.mem_of_getElem? hn)
  rw [Page.scratch]
  cases hreg : pg.ending.scratch_reg with
  | none => decide
  | some r => exact ⟨Nat.pos_of_ne_zero (hs _ r hmem hreg), hr _ hmem r hreg⟩

/-- With the image of a script at the beginning of the flash and the chip in the state of the handoff, the run of
the paged machine is the run of the chip: the chip is in the states of the paged machine, in cycles that increase
without end, and the caller instructions it fetches are those of the paged machine, in order, and no others. -/
theorem run_image (hr : ∀ c ∈ cs, c.RegsOk)
    (hs : ∀ e r, PagedCall.ending e ∈ cs → e.scratch_reg = some r → r ≠ 0)
    (hp : PagedAsm.default.calls cs = .ok p) (hpages : 0 < p.pages.length) (hcount : p.pages.length ≤ 256)
    (hb : Board.Run rom ui_in other b) (h0 : (b 0).Ready) (hflash : InFlash (b 0).flash.mem p.finalize)
    (hstart : HandedOff (b 0).top.arch)
    (hkeeps : ∀ c, Reaches (step (pagesOf cs) (Env.chip rom (Board.inputs ui_in other b)).load)
      (0, start (b 0).top.arch) c → Keeps (pagesOf cs) c.2) :
    ∃ c : Nat → Nat × PState, c 0 = (0, start (b 0).top.arch) ∧
      ∀ n, step (pagesOf cs) (Env.chip rom (Board.inputs ui_in other b)).load (c n) = some (c (n + 1)) ∧
        (c n).1 < (c (n + 1)).1 ∧ Top.At (Board.tops b) (c n).1 (c n).2.arch ∧
        Top.emitted (Board.tops b) (callers (pagesOf cs)) 0 (c n).1 =
          (List.range n).flatMap fun k => caller (pagesOf cs) (c k).2 := by
  have hfin := finished_of_calls hr hp
  have hwf := wellFormed_of_finished hfin hcount (scratch_of_calls hr hs)
  have hold := holds_of_finished hfin hcount hflash
  have hpage0 : (start (b 0).top.arch).page < (pagesOf cs).length := hfin.length ▸ hpages
  obtain ⟨c, hc0, hc⟩ := @exists_run _ (step (pagesOf cs) (Env.chip rom (Board.inputs ui_in other b)).load)
    (0, start (b 0).top.arch) fun c hc => step_of_keeps (page_of_reaches hwf hpage0 hc) (hkeeps c hc)
  refine ⟨c, hc0, fun n => ⟨(hc n).1, (page_of_step hwf (hc n).1).1, ?_⟩⟩
  have hblind := blind_callers hwf
  have hidx : ∀ k, ∀ pg, (pagesOf cs)[(c k).2.page]? = some pg → (c k).2.index ≤ pg.instrs.length := by
    intro k
    induction k with
    | zero =>
      intro pg hn
      rw [hc0] at hn ⊢
      obtain ⟨rest, hrest⟩ := (first_page cs).2 pg hn
      show 1 ≤ pg.instrs.length
      rw [Page.instrs, instrsOf_length, hrest]
      exact Nat.le_add_left 1 (rest.filterMap Call.form).length
    | succ k ih => exact (simulate_step hwf hold hblind ih (hc k).1).1
  have hpath := @simulate _ (b 0).flash.mem rom (Board.inputs ui_in other b) _ _ hwf hold hblind _ _ _ (hidx 0)
    (Path.of_run (fun k => (hc k).1) n)
  rw [hc0, start_arch hstart] at hpath
  obtain ⟨hat, -, hem⟩ := Top.run_path hb.top h0.atFetch (Board.agrees_flash hb h0) hpath ⟨h0.state, rfl⟩
  refine ⟨hat, hem.trans (List.flatMap_congr fun k _ => ?_)⟩
  obtain ⟨pg, hn⟩ : ∃ pg, (pagesOf cs)[(c k).2.page]? = some pg :=
    ⟨_, List.getElem?_eq_getElem (page_of_reaches hwf hpage0 (hc k).2)⟩
  have hroom := hwf.room hn
  have hle := hidx k pg hn
  exact callers_arch hwf hn (by omega) _

end Board

theorem handedOver_ready (image : List (BitVec 8)) : (handedOver image).Ready :=
  ⟨rfl, ⟨rfl, rfl⟩, ⟨rfl, rfl⟩, ⟨rfl, rfl, rfl⟩, ⟨rfl, rfl, rfl⟩⟩

theorem finalize_length {cs : List PagedCall} {p : PagedAsm} (h : Finished cs p) :
    p.finalize.length = 44 * p.pages.length := by
  have h44 : ∀ bytes ∈ p.pages, bytes.length = 44 := by
    intro bytes hb
    obtain ⟨n, hn, rfl⟩ := List.getElem_of_mem hb
    obtain ⟨pg, hn'⟩ : ∃ pg, (pagesOf cs)[n]? = some pg := ⟨_, List.getElem?_eq_getElem (h.length ▸ hn)⟩
    exact (h.assembled n _ _ hn' (List.getElem?_eq_getElem hn)).bytes_length
  rw [PagedAsm.finalize, List.length_flatten, List.map_congr_left h44, List.map_const', List.sum_replicate_nat,
    Nat.mul_comm]

theorem handedOver_inFlash {image : List (BitVec 8)} (h : image.length ≤ 2 ^ 14) :
    InFlash (handedOver image).flash.mem image := by
  intro i hi
  have hmod : (BitVec.ofNat 14 i).toNat = i := by
    rw [BitVec.toNat_ofNat]
    omega
  show image.getD (BitVec.ofNat 14 i).toNat 0 = image[i]
  rw [hmod, List.getD_eq_getElem?_getD, List.getElem?_eq_getElem hi, Option.getD_some]

/-- Two pages that switch to each other. -/
def pingPong : List PagedCall :=
  [.page (.ADDI 1 0 5), .ending (.switch_to 1 none), .page (.ADDI 1 1 (-1)), .ending (.switch_to 0 (some 2))]

theorem run_image_pingPong :
    ∃ p, PagedAsm.default.calls pingPong = .ok p ∧ p.pages.length = 2 ∧
      let b := Clocked.run (fun (b : Board) (_ : Unit) => b.step bootRom 0 false) (fun _ => ()) (handedOver p.finalize)
      ∃ c : Nat → Nat × PState, c 0 = (0, start (b 0).top.arch) ∧
        ∀ n, step (pagesOf pingPong) (Env.chip bootRom (Board.inputs (fun _ => 0) (fun _ => false) b)).load (c n) =
            some (c (n + 1)) ∧
          (c n).1 < (c (n + 1)).1 ∧ Top.At (Board.tops b) (c n).1 (c n).2.arch ∧
          Top.emitted (Board.tops b) (callers (pagesOf pingPong)) 0 (c n).1 =
            (List.range n).flatMap fun k => caller (pagesOf pingPong) (c k).2 := by
  obtain ⟨p, hp, hlen⟩ : ∃ p, PagedAsm.default.calls pingPong = .ok p ∧ p.pages.length = 2 := ⟨_, rfl, rfl⟩
  have hr : ∀ c ∈ pingPong, c.RegsOk := by decide
  have hfin := finished_of_calls hr hp
  refine ⟨p, hp, hlen, ?_⟩
  intro b
  have hflash : InFlash (b 0).flash.mem p.finalize := by
    refine handedOver_inFlash ?_
    rw [finalize_length hfin]
    omega
  have hs : ∀ e r, PagedCall.ending e ∈ pingPong → e.scratch_reg = some r → r ≠ 0 := by
    intro e r he hr
    simp only [pingPong, List.mem_cons, List.not_mem_nil, reduceCtorEq, false_or, or_false,
      PagedCall.ending.injEq] at he
    rcases he with rfl | rfl
    · cases hr
    · cases hr
      decide
  refine @run_image _ p _ _ _ b hr hs hp (by omega) (by omega) (fun _ => rfl) (handedOver_ready _) hflash
    ⟨rfl, rfl, rfl⟩ ?_
  · intro c hc
    have hpage := page_of_reaches (wellFormed_of_finished hfin (by omega) (scratch_of_calls hr hs))
      (show 0 < 2 by decide) hc
    obtain ⟨t, ⟨page, index, regs, mem⟩⟩ := c
    have hpages : page = 0 ∨ page = 1 := by
      have : page < 2 := hpage
      omega
    rcases hpages with rfl | rfl
    · refine keeps_of_page rfl rfl ?_
      rw [@next_const _ _ 1 rfl (by decide)]
      decide
    · refine keeps_of_page rfl rfl ?_
      rw [@next_const _ _ 0 rfl (by decide)]
      decide

end Paged

end Pineapple
