import Pineapple.Machine.Proofs.FlashProofs
import Pineapple.Machine.Proofs.FlowProofs
import Pineapple.Paged.Proofs.ImageProofs

/-!
# Proofs: the chip takes the steps of the paged machine

An instruction of the caller is one instruction of the chip. The end of a page is the NOPs, the ADDI, the store
to FLASH_PAGE on the old page, and the jump on the new one; an observer that does not see the words after the
caller's last one sees nothing of it.
-/

namespace Pineapple

open Clocked
open Rv32i (Instr Word Reg readReg writeReg)

/-! ## Addresses of the load window -/

theorem windowAddr_toNat {j : Nat} (hj : j < 11) : (windowAddr j).toNat = 0xB4 + 4 * j := by
  rw [windowAddr, BitVec.toNat_ofNat]
  omega

theorem windowIndex_windowAddr {j : Nat} (hj : j < 11) : windowIndex (windowAddr j) = j := by
  rw [windowIndex, windowAddr_toNat hj]
  omega

theorem windowAddr_succ (j : Nat) : windowAddr j + 4 = windowAddr (j + 1) := by
  rw [windowAddr, windowAddr, show (4 : BitVec 8) = BitVec.ofNat 8 4 from rfl, ← BitVec.ofNat_add]
  congr 1

/-- The low byte of an offset from word `j` to word `l`. -/
theorem windowAddr_offset {n : Nat} (hn : 8 ≤ n) (j l : Nat) :
    windowAddr j + (BitVec.ofInt n (4 * (l : Int) - 4 * j)).setWidth 8 = windowAddr l := by
  have hlow : (BitVec.ofInt n (4 * (l : Int) - 4 * j)).setWidth 8 = BitVec.ofInt 8 (4 * (l : Int) - 4 * j) := by
    apply BitVec.eq_of_toNat_eq
    have hdvd : ((2 ^ 8 : Nat) : Int) ∣ ((2 ^ n : Nat) : Int) := by
      exact_mod_cast Nat.pow_dvd_pow 2 hn
    have hmod : ∀ x m : Int, 0 < m → ((x % m).toNat : Int) = x % m := by
      intro x m hm
      exact Int.toNat_of_nonneg (Int.emod_nonneg _ (by omega))
    have hpow : 0 < ((2 ^ n : Nat) : Int) := by positivity
    apply Int.ofNat_inj.mp
    rw [BitVec.toNat_setWidth, BitVec.toNat_ofInt, BitVec.toNat_ofInt, Int.natCast_emod, hmod _ _ hpow,
      hmod _ _ (by decide), Int.emod_emod_of_dvd _ hdvd]
  have hcast : windowAddr j = BitVec.ofInt 8 (0xB4 + 4 * (j : Int)) := by
    rw [windowAddr, ← BitVec.ofInt_natCast]
    rfl
  have hcast' : windowAddr l = BitVec.ofInt 8 (0xB4 + 4 * (l : Int)) := by
    rw [windowAddr, ← BitVec.ofInt_natCast]
    rfl
  rw [hlow, hcast, hcast', ← BitVec.ofInt_add]
  congr 1
  omega

/-! ## The instructions of a page -/

theorem labelIndex_le (name : String) : ∀ {cs : List Call} {l : Nat}, labelIndex name cs = some l →
    l ≤ (cs.filterMap Call.form).length := by
  intro cs
  induction cs with
  | nil =>
    intro l h
    cases h
  | cons c cs ih =>
    intro l h
    cases hf : c.form with
    | none =>
      rw [List.filterMap_cons_none hf]
      cases c with
      | label n =>
        rw [labelIndex] at h
        split at h
        · cases h
          exact Nat.zero_le _
        · exact ih h
      | _ => cases hf
    | some f =>
      rw [Asm.labelIndex_of_form hf] at h
      obtain ⟨l', hl', rfl⟩ := Option.map_eq_some_iff.mp h
      rw [List.filterMap_cons_some hf, List.length_cons]
      exact Nat.succ_le_succ (ih hl')

theorem instrsOf_length (cs : List Call) : (instrsOf cs).length = (cs.filterMap Call.form).length := by
  rw [instrsOf, List.length_mapIdx]

/-- An instruction of the caller that is no JALR goes to a word of the page, or to the one after the last. -/
theorem succs_window {cs : List Call} {j : Nat} {i : Instr} (hi : (instrsOf cs)[j]? = some i)
    (hj : i.isJalr = false) {pc : BitVec 8} (hpc : pc ∈ i.succs (windowAddr j)) :
    ∃ l ≤ (instrsOf cs).length, pc = windowAddr l := by
  have hlt : j < (instrsOf cs).length := (List.getElem?_eq_some_iff.mp hi).1
  have hlt' : j < (cs.filterMap Call.form).length := instrsOf_length cs ▸ hlt
  have hnext : ∃ l ≤ (instrsOf cs).length, windowAddr j + 4 = windowAddr l := ⟨j + 1, hlt, windowAddr_succ j⟩
  rw [instrsOf, List.getElem?_mapIdx, List.getElem?_eq_getElem hlt'] at hi
  obtain ⟨l, hl, hlle⟩ : ∃ l : Nat, l = (((cs.filterMap Call.form)[j].target.bind fun name =>
      labelIndex name cs).getD 0) ∧ l ≤ (instrsOf cs).length := by
    refine ⟨_, rfl, ?_⟩
    cases ht : (cs.filterMap Call.form)[j].target with
    | none => exact Nat.zero_le _
    | some name =>
      rw [Option.bind_some]
      cases hn : labelIndex name cs with
      | none => exact Nat.zero_le _
      | some l =>
        rw [Option.getD_some, instrsOf_length]
        exact labelIndex_le name hn
  have hi : (cs.filterMap Call.form)[j].instr (4 * (l : Int) - 4 * j) = i := by
    rw [hl]
    exact Option.some.inj hi
  cases hf : (cs.filterMap Call.form)[j] with
  | branch op rs1 rs2 name =>
    rw [hf] at hi
    subst hi
    rcases List.mem_cons.mp hpc with rfl | h
    · exact ⟨l, hlle, windowAddr_offset (by decide) j l⟩
    · exact List.mem_singleton.mp h ▸ hnext
  | jal rd name =>
    rw [hf] at hi
    subst hi
    exact ⟨l, hlle, List.mem_singleton.mp hpc ▸ windowAddr_offset (by decide) j l⟩
  | jalr rd rs1 v =>
    rw [hf] at hi
    subst hi
    cases hj
  | _ =>
    rw [hf] at hi
    subst hi
    exact List.mem_singleton.mp hpc ▸ hnext

/-! ## One instruction of the caller -/

namespace PState

variable {σ : PState} {i : Instr}

theorem not_jalr_of_allowed (h : σ.allowed i) : i.isJalr = false := by
  cases i with
  | jalr rd rs1 imm => cases h
  | _ => rfl

/-- An instruction that is allowed leaves FLASH_MODE and FLASH_PAGE alone. -/
theorem flash_of_allowed (h : σ.allowed i) (d : Word) : (σ.arch.exec i d).mem.flash_mode = true ∧
    (σ.arch.exec i d).mem.flash_page = BitVec.ofNat 8 σ.page := by
  by_cases hs : i.isStore = true
  · cases i with
    | store op rs2 rs1 imm =>
      obtain ⟨h8, hC⟩ := Bool.and_eq_true_iff.mp h
      exact MemRegs.write_flash _ _ _ (bne_iff_ne.mp h8) (bne_iff_ne.mp hC)
    | _ => cases hs
  · rw [Arch.exec_mem σ.arch d (Bool.not_eq_true _ ▸ hs)]
    exact ⟨rfl, rfl⟩

/-- The chip after an instruction of the caller. -/
theorem exec_arch {pg : Page} (hi : pg.instrs[σ.index]? = some i) (hlen : pg.instrs.length ≤ 9)
    (h : σ.allowed i) (d : Word) : (σ.exec i d).index ≤ pg.instrs.length ∧ (σ.exec i d).arch = σ.arch.exec i d := by
  obtain ⟨l, hl, hpc⟩ := succs_window hi (not_jalr_of_allowed h)
    (Arch.exec_pc_mem σ.arch d (not_jalr_of_allowed h))
  have hl' : l ≤ pg.instrs.length := hl
  have hidx : windowIndex (σ.arch.exec i d).pc = l := by
    rw [hpc, windowIndex_windowAddr (by omega)]
  obtain ⟨hmode, hpage⟩ := flash_of_allowed h d
  refine ⟨hidx.trans_le hl', ?_⟩
  rw [arch, exec, hidx, ← hpc, ← hmode, ← hpage]

end PState

/-! ## The image in the flash -/

namespace Paged

/-- The pages have a place in the image: at most 256 of them, each of eleven instructions. -/
structure WellFormed (P : List Page) : Prop where
  count : P.length ≤ 256
  full_length : ∀ (n : Nat) (pg : Page), P[n]? = some pg → (pg.full n).length = 11
  scratch : ∀ (n : Nat) (pg : Page), P[n]? = some pg → 0 < pg.scratch ∧ pg.scratch < 32

/-- The flash holds the instructions of the pages. -/
def Holds (flash : Bits.ByteMemory 14) (P : List Page) : Prop :=
  ∀ (n j : Nat) (pg : Page) (i : Instr), P[n]? = some pg → (pg.full n)[j]? = some i →
    ∀ m : MemRegs, m.flash_page = BitVec.ofNat 8 n → Rv32i.decode (flashWord flash m (windowAddr j)) = some i

variable {P : List Page} {n : Nat} {pg : Page}

/-- The lengths of the parts of a page. -/
theorem WellFormed.room (h : WellFormed P) (hn : P[n]? = some pg) :
    pg.instrs.length + (pg.ending.target n).toList.length ≤ 9 := by
  have := h.full_length n pg hn
  rw [Page.full, Page.glue] at this
  simp only [List.length_append, List.length_replicate, List.length_map, List.length_cons, List.length_nil] at this
  omega

theorem WellFormed.scratchReg (h : WellFormed P) (hn : P[n]? = some pg) : pg.scratchReg ≠ 0 := by
  obtain ⟨h0, h1⟩ := h.scratch n pg hn
  intro he
  have := congrArg BitVec.toNat he
  rw [Page.scratchReg, BitVec.toNat_ofNat] at this
  have h32 : pg.scratch % 2 ^ 5 = 0 := this
  omega

/-- An instruction of the caller is where it was written. -/
theorem full_of_instrs {j : Nat} {i : Instr} (hi : pg.instrs[j]? = some i) : (pg.full n)[j]? = some i := by
  rw [Page.full, List.getElem?_append_left (List.getElem?_eq_some_iff.mp hi).1, hi]

/-- The finished pages of a script are in the flash. -/
theorem holds_of_finished {cs : List PagedCall} {p : PagedAsm} (h : Finished cs p) (hcount : p.pages.length ≤ 256)
    {flash : Bits.ByteMemory 14} (hflash : InFlash flash p.finalize) : Holds flash (pagesOf cs) :=
  fun _ _ _ _ hpg hi _ hm => flash_decode h hcount hflash hpg hi hm rfl

theorem wellFormed_of_finished {cs : List PagedCall} {p : PagedAsm} (h : Finished cs p)
    (hcount : p.pages.length ≤ 256)
    (hs : ∀ (n : Nat) (pg : Page), (pagesOf cs)[n]? = some pg → 0 < pg.scratch ∧ pg.scratch < 32) :
    WellFormed (pagesOf cs) := by
  refine ⟨h.length ▸ hcount, fun n pg hn => ?_, hs⟩
  have hlt : n < p.pages.length := h.length ▸ (List.getElem?_eq_some_iff.mp hn).1
  exact (h.assembled n pg _ hn (List.getElem?_eq_getElem hlt)).full_length

/-! ## The end of a page -/

/-- The observer does not see the words after the caller's last one. -/
def Blind {O : Type} (P : List Page) (out : Nat × Arch → List O) : Prop :=
  ∀ t (σ : PState) (pg : Page), P[σ.page]? = some pg → pg.instrs.length ≤ σ.index → σ.index < 11 →
    out (t, σ.arch) = []

section Run

variable {flash : Bits.ByteMemory 14} {rom : Rom} {inp : Nat → Inputs} {O : Type} {out : Nat × Arch → List O}
  {σ : PState} {t : Nat}

theorem inFlash_arch (hj : σ.index < 11) : σ.arch.mem.InFlash σ.arch.pc := by
  have := windowAddr_toNat hj
  exact ⟨rfl, by rw [show σ.arch.pc = windowAddr σ.index from rfl]; omega,
    by rw [show σ.arch.pc = windowAddr σ.index from rfl]; omega⟩

theorem fetchStall_arch (hj : σ.index < 11) : σ.arch.fetchStall + 7 = 137 := by
  rw [Arch.fetchStall_flash _ (inFlash_arch hj)]

/-- The instruction that the chip fetches. -/
theorem instr_arch (h : WellFormed P) (hold : Holds flash P) (hn : P[σ.page]? = some pg) {i : Instr}
    (hi : (pg.full σ.page)[σ.index]? = some i) : (Env.flash flash rom inp).instr t σ.arch = some i := by
  have hj : σ.index < 11 := h.full_length _ _ hn ▸ (List.getElem?_eq_some_iff.mp hi).1
  refine (if_pos (inFlash_arch hj)).trans ?_
  exact hold _ _ pg i hn hi _ rfl

variable (h : WellFormed P) (hold : Holds flash P) (hblind : Blind P out)

include h hold hblind

/-- The NOPs. -/
theorem nops (hn : P[σ.page]? = some pg) (m : Nat) (hlen : pg.instrs.length ≤ σ.index)
    (hnop : ∀ j, σ.index ≤ j → j < σ.index + m → (pg.full σ.page)[j]? = some (.opImm .addi 0 0 0)) :
    Silent (Env.flash flash rom inp).step out (t, σ.arch)
      (t + 137 * m, PState.arch { σ with index := σ.index + m }) := by
  induction m generalizing σ t with
  | zero => exact .refl _
  | succ m ih =>
    have hi := hnop σ.index le_rfl (by omega)
    have hj : σ.index < 11 := h.full_length _ _ hn ▸ (List.getElem?_eq_some_iff.mp hi).1
    have hstep := Env.step_opImm (t := t) (fetchStall_arch hj) (@instr_arch _ _ _ rom inp _ _ h hold hn _ hi)
    have harch : (σ.arch.setReg 0 (Rv32i.ImmOp.eval .addi (σ.arch.reg 0) ((0 : BitVec 12).signExtend 32))).goto
        (σ.arch.pc + 4) = PState.arch { σ with index := σ.index + 1 } := by
      rw [show σ.arch.pc + 4 = windowAddr (σ.index + 1) from windowAddr_succ _]
      rfl
    rw [harch] at hstep
    have hrest := ih (σ := { σ with index := σ.index + 1 }) (t := t + 137) hn (by simp only; omega)
      fun j h1 h2 => hnop j (by simp only at h1; omega) (by simp only at h2; omega)
    rw [show t + 137 * (m + 1) = t + 137 + 137 * m by omega, show σ.index + (m + 1) = σ.index + 1 + m by omega]
    exact .cons hstep (hblind t σ pg hn hlen hj) hrest

/-- The ADDI of a constant page number. -/
theorem load_next (hn : P[σ.page]? = some pg) (hlen : pg.instrs.length ≤ σ.index) {next : Int}
    (hi : (pg.full σ.page)[σ.index]? = some (.opImm .addi pg.scratchReg 0 (BitVec.ofInt 12 next))) :
    Silent (Env.flash flash rom inp).step out (t, σ.arch) (t + 137, PState.arch { σ with
      index := σ.index + 1
      regs := writeReg σ.regs pg.scratchReg ((BitVec.ofInt 12 next).signExtend 32) }) := by
  have hj : σ.index < 11 := h.full_length _ _ hn ▸ (List.getElem?_eq_some_iff.mp hi).1
  have hstep := Env.step_opImm (t := t) (fetchStall_arch hj) (@instr_arch _ _ _ rom inp _ _ h hold hn _ hi)
  refine .single ?_ (hblind t σ pg hn hlen hj)
  rw [hstep, show σ.arch.pc + 4 = windowAddr (σ.index + 1) from windowAddr_succ _]
  have hzero : Rv32i.ImmOp.eval .addi (σ.arch.reg 0) ((BitVec.ofInt 12 next).signExtend 32) =
      (BitVec.ofInt 12 next).signExtend 32 := BitVec.zero_add _
  rw [hzero]
  rfl

/-- The store to FLASH_PAGE, after which the fetch is from the new page. -/
theorem store_page (hn : P[σ.page]? = some pg) (hlen : pg.instrs.length ≤ σ.index)
    (hi : (pg.full σ.page)[σ.index]? = some (.store .sw pg.scratchReg 0 0xFC)) :
    Silent (Env.flash flash rom inp).step out (t, σ.arch) (t + 137, PState.arch { σ with
      index := σ.index + 1
      page := (readReg σ.regs pg.scratchReg).toNat }) := by
  have hj : σ.index < 11 := h.full_length _ _ hn ▸ (List.getElem?_eq_some_iff.mp hi).1
  have haddr : (σ.arch.reg 0 + (0xFC : BitVec 12).signExtend 32).setWidth 8 = (0xFC : BitVec 8) := by
    rw [Arch.reg_x0]
    rfl
  have hstep := Env.step_store (t := t) (k := 0) (fetchStall_arch hj)
    (@instr_arch _ _ _ rom inp _ _ h hold hn _ hi) (by rw [haddr]; rfl)
  refine .single ?_ (hblind t σ pg hn hlen hj)
  have hmem : σ.arch.mem.write 0xFC (σ.arch.reg pg.scratchReg) (sizeCode .word) = { σ.mem with
      flash_mode := true
      flash_page := BitVec.ofNat 8 (readReg σ.regs pg.scratchReg).toNat } := by
    have hpage : BitVec.ofNat 8 (readReg σ.regs pg.scratchReg).toNat =
        (readReg σ.regs pg.scratchReg).extractLsb' 0 8 := by
      apply BitVec.eq_of_toNat_eq
      rw [BitVec.extractLsb'_toNat, BitVec.toNat_ofNat, Nat.shiftRight_zero]
    rw [hpage]
    rfl
  rw [hstep, haddr, show σ.arch.pc + 4 = windowAddr (σ.index + 1) from windowAddr_succ _]
  exact congrArg (fun m => some (t + 137, Arch.mk ⟨windowAddr (σ.index + 1), σ.regs⟩ m)) hmem

/-- The jump to the beginning of the page. -/
theorem trampoline (hn : P[σ.page]? = some pg) (hidx : σ.index = 10)
    (hi : (pg.full σ.page)[10]? = some (.jal 0 (BitVec.ofInt 21 (-40)))) :
    Silent (Env.flash flash rom inp).step out (t, σ.arch)
      (t + 137, PState.arch { σ with index := 0 }) := by
  have hj : σ.index < 11 := by omega
  have hstep := Env.step_jal (t := t) (fetchStall_arch hj)
    (@instr_arch _ _ _ rom inp _ _ h hold hn _ (hidx.symm ▸ hi))
  have hroom := h.room hn
  refine .single ?_ (hblind t σ pg hn (by omega) hj)
  have hpc : σ.arch.pc + (BitVec.ofInt 21 (-40)).setWidth 8 = windowAddr 0 := by
    rw [show σ.arch.pc = windowAddr 10 from congrArg windowAddr hidx]
    decide
  rw [hstep, hpc]
  rfl

/-- The whole end of a page. -/
theorem leave_path (hn : P[σ.page]? = some pg) (hidx : σ.index = pg.instrs.length)
    (hlt : (pg.next σ).toNat < P.length) :
    Silent (Env.flash flash rom inp).step out (t, σ.arch)
      (t + 137 * (11 - pg.instrs.length), (pg.leave σ).arch) := by
  have hroom := h.room hn
  obtain ⟨L, hL⟩ : ∃ L, L = (pg.ending.target σ.page).toList.length := ⟨_, rfl⟩
  rw [← hL] at hroom
  -- the words of the page from the caller's last one on
  have hglue : ∀ j, pg.instrs.length ≤ j → (pg.full σ.page)[j]? = (pg.glue σ.page)[j - pg.instrs.length]? :=
    fun j hj => List.getElem?_append_right hj
  have hnop : ∀ j, pg.instrs.length ≤ j → j < pg.instrs.length + (9 - pg.instrs.length - L) →
      (pg.full σ.page)[j]? = some (.opImm .addi 0 0 0) := by
    intro j h1 h2
    rw [hglue j h1, Page.glue, List.append_assoc, List.getElem?_append_left, List.getElem?_replicate, if_pos]
    · rw [List.length_map, ← hL]
      omega
    · rw [List.length_replicate, List.length_map, ← hL]
      omega
  have hstore : (pg.full σ.page)[9]? = some (.store .sw pg.scratchReg 0 0xFC) := by
    rw [hglue 9 (by omega), Page.glue, List.getElem?_append_right]
    · simp only [List.length_append, List.length_replicate, List.length_map, ← hL]
      rw [show 9 - pg.instrs.length - (9 - pg.instrs.length - L + L) = 0 by omega]
      rfl
    · simp only [List.length_append, List.length_replicate, List.length_map, ← hL]
      omega
  have hjal : ∀ (n : Nat) (pg' : Page), P[n]? = some pg' →
      (pg'.full n)[10]? = some (.jal 0 (BitVec.ofInt 21 (-40))) := by
    intro n pg' hn'
    have hfull := h.full_length n pg' hn'
    have hlast : (pg'.full n).getLast? = some (.jal 0 (BitVec.ofInt 21 (-40))) := by
      rw [Page.full, Page.glue]
      simp
    rwa [List.getLast?_eq_getElem?, hfull] at hlast
  have hnops := @nops _ _ _ rom inp _ _ _ t h hold hblind hn (9 - pg.instrs.length - L)
    hidx.ge (hidx ▸ hnop)
  rw [hidx] at hnops
  -- the store and the jump, from a state that has the page number in the scratch register
  have hend : ∀ (t : Nat) (regs : Regs), (readReg regs pg.scratchReg) = pg.next σ →
      Silent (Env.flash flash rom inp).step out (t, PState.arch { σ with index := 9, regs := regs })
        (t + 137 + 137, PState.arch ⟨(pg.next σ).toNat, 0, regs, σ.mem⟩) := by
    intro t regs hreg
    have h1 := @store_page _ _ _ rom inp _ _ { σ with index := 9, regs := regs } t
      h hold hblind hn (show _ ≤ 9 by omega) hstore
    rw [hreg] at h1
    obtain ⟨pg', hpg'⟩ : ∃ pg', P[(pg.next σ).toNat]? = some pg' := ⟨_, List.getElem?_eq_getElem hlt⟩
    exact h1.trans (@trampoline _ _ _ rom inp _ _ ⟨(pg.next σ).toNat, 10, regs, σ.mem⟩ _
      h hold hblind hpg' rfl (hjal _ _ hpg'))
  refine hnops.trans ?_
  cases htarget : pg.ending.target σ.page with
  | none =>
    rw [htarget] at hL
    have hL0 : L = 0 := hL
    rw [hL0, Nat.sub_zero, show pg.instrs.length + (9 - pg.instrs.length) = 9 by omega,
      show t + 137 * (11 - pg.instrs.length) = t + 137 * (9 - pg.instrs.length) + 137 + 137 by omega]
    have hnext : pg.next σ = readReg σ.regs pg.scratchReg := by rw [Page.next, htarget]
    have hleave : pg.leave σ = ⟨(pg.next σ).toNat, 0, σ.regs, σ.mem⟩ := by
      rw [Page.leave, htarget]
      rfl
    rw [hleave]
    exact hend _ σ.regs hnext.symm
  | some next =>
    rw [htarget] at hL
    have hL1 : L = 1 := hL
    have hnext : pg.next σ = (BitVec.ofInt 12 next).signExtend 32 := by rw [Page.next, htarget]
    have hleave : pg.leave σ =
        ⟨(pg.next σ).toNat, 0, writeReg σ.regs pg.scratchReg (pg.next σ), σ.mem⟩ := by
      rw [Page.leave, htarget]
      rfl
    have hload : (pg.full σ.page)[8]? = some (.opImm .addi pg.scratchReg 0 (BitVec.ofInt 12 next)) := by
      rw [hglue 8 (by omega), Page.glue, htarget]
      simp only [Option.toList_some, List.map_cons, List.map_nil, List.length_cons, List.length_nil]
      rw [List.append_assoc, List.getElem?_append_right (by rw [List.length_replicate]; omega),
        List.length_replicate, show 8 - pg.instrs.length - (9 - pg.instrs.length - (0 + 1)) = 0 by omega]
      rfl
    rw [hL1, show pg.instrs.length + (9 - pg.instrs.length - 1) = 8 by omega,
      show t + 137 * (11 - pg.instrs.length) = t + 137 * (9 - pg.instrs.length - 1) + 137 + 137 + 137 by omega,
      hleave]
    have h8 := @load_next _ _ _ rom inp _ _ { σ with index := 8 } (t + 137 * (9 - pg.instrs.length - 1))
      h hold hblind hn (show _ ≤ 8 by omega) _ hload
    rw [← hnext] at h8
    exact h8.trans (hend _ _ (by rw [readReg, if_neg (h.scratchReg hn), writeReg, if_neg (h.scratchReg hn),
      Function.update_self]))

/-! ## The simulation -/

/-- One step of the paged machine is a path of the program in the flash. -/
theorem simulate_step {c c' : Nat × PState} (hidx : ∀ pg, P[c.2.page]? = some pg → c.2.index ≤ pg.instrs.length)
    (hstep : step P (Env.flash flash rom inp).load c = some c') :
    (∀ pg, P[c'.2.page]? = some pg → c'.2.index ≤ pg.instrs.length) ∧
      Path (Env.flash flash rom inp).step out (c.1, c.2.arch) (out (c.1, c.2.arch)) (c'.1, c'.2.arch) := by
  obtain ⟨t, σ⟩ := c
  obtain ⟨pg, hn, hstep⟩ := Option.bind_eq_some_iff.mp hstep
  have hroom := h.room hn
  have hle := hidx pg hn
  cases hi : pg.instrs[σ.index]? with
  | some i =>
    rw [hi] at hstep
    simp only [Option.ite_none_right_eq_some, Option.some.injEq] at hstep
    obtain ⟨hallow, rfl⟩ := hstep
    obtain ⟨hidx', harch⟩ := PState.exec_arch hi (by omega) hallow ((Env.flash flash rom inp).load t σ.arch i)
    refine ⟨fun pg' hn' => ?_, ?_⟩
    · cases hn.symm.trans hn'
      exact hidx'
    · refine .single ?_
      rw [Env.step_eq (instr_arch h hold hn (full_of_instrs hi))]
      exact congrArg some (Prod.ext rfl harch.symm)
  | none =>
    rw [hi] at hstep
    simp only [Option.ite_none_right_eq_some, Option.some.injEq] at hstep
    obtain ⟨hlt, rfl⟩ := hstep
    have heq : σ.index = pg.instrs.length := le_antisymm hle (List.getElem?_eq_none_iff.mp hi)
    refine ⟨fun pg' _ => Nat.zero_le _, ?_⟩
    rw [hblind t σ pg hn heq.ge (by omega)]
    exact leave_path h hold hblind hn heq hlt

/-- So is a whole path. -/
theorem simulate {c c' : Nat × PState} {os : List O}
    (hidx : ∀ pg, P[c.2.page]? = some pg → c.2.index ≤ pg.instrs.length)
    (hp : Path (step P (Env.flash flash rom inp).load) (fun c => out (c.1, c.2.arch)) c os c') :
    Path (Env.flash flash rom inp).step out (c.1, c.2.arch) os (c'.1, c'.2.arch) :=
  (@Path.simulate _ _ _ _ _ _ _ (fun c => (c.1, c.2.arch))
    (fun c => ∀ pg, P[c.2.page]? = some pg → c.2.index ≤ pg.instrs.length)
    (fun _ _ hinv hs => simulate_step h hold hblind hinv hs) _ _ _ hp hidx).2

end Run

end Paged

end Pineapple
