import Pineapple.Ps2.Proofs.ProcessProofs

/-!
# Proofs: the translation

Each of the pages behind the receive pages either takes the byte and goes back to START_LOW, or leaves ACCUM and the
flags alone and goes on. The page number that the dispatch computes is below 256.
-/

namespace Pineapple

open Clocked
open Rv32i (Instr Word Reg readReg writeReg)

namespace Ps2

namespace Ascii

/-! ## The pages -/

theorem page_process {n : Nat} (hn : n < 6) : pages[23 + n]? = processPages[n]? := by
  have hreceive : receivePages.length = 22 := rfl
  have hprocess : processPages.length = 6 := rfl
  rw [pages, show 23 + n = 22 + n + 1 by omega, List.getElem?_cons_succ,
    List.getElem?_append_right (by omega), hreceive, Nat.add_sub_cancel_left,
    List.getElem?_append_left (by omega)]

theorem page_table {scancode : Nat} (h : scancode < 227) : pages[29 + scancode]? = some (tablePage scancode) := by
  have hreceive : receivePages.length = 22 := rfl
  have hprocess : processPages.length = 6 := rfl
  rw [pages, show 29 + scancode = 28 + scancode + 1 by omega, List.getElem?_cons_succ,
    List.getElem?_append_right (by omega), List.getElem?_append_right (by omega), hreceive, hprocess,
    show 28 + scancode - 22 - 6 = scancode by omega, tablePages, List.getElem?_map,
    List.getElem?_range (show scancode < MAX_SAFE_SCANCODE + 1 from h)]
  rfl

theorem pages_length : pages.length = 256 := by
  have hreceive : receivePages.length = 22 := rfl
  have hprocess : processPages.length = 6 := rfl
  have htable : tablePages.length = 227 := by
    rw [tablePages, List.length_map, List.length_range]
    rfl
  rw [pages, List.length_cons, List.length_append, List.length_append]
  omega

/-! ## Registers -/

def flag (b : Bool) : Word := if b then 1 else 0

/-- The flags are in `x5` and `x6`. -/
structure Flags (f : Framing) (regs : Regs) : Prop where
  break_pending : readReg regs 5 = flag f.break_pending
  ext_pending : readReg regs 6 = flag f.ext_pending

/-- The next page finds the byte and the flags unchanged. -/
def Same (regs regs' : Regs) : Prop := ∀ r : Reg, r = 4 ∨ r = 5 ∨ r = 6 → readReg regs' r = readReg regs r

theorem Same.flags {f : Framing} {regs regs' : Regs} (h : Same regs regs') (hf : Flags f regs) : Flags f regs' :=
  ⟨(h 5 (by simp)).trans hf.break_pending, (h 6 (by simp)).trans hf.ext_pending⟩

theorem same_writeReg {regs regs' : Regs} (h : Same regs regs') {r : Reg} (hr : r ≠ 4 ∧ r ≠ 5 ∧ r ≠ 6) (v : Word) :
    Same regs (writeReg regs' r v) := by
  intro s hs
  have hne : s ≠ r := by
    rcases hs with rfl | rfl | rfl
    · exact hr.1.symm
    · exact hr.2.1.symm
    · exact hr.2.2.symm
  rw [readReg_writeReg_ne hne, h s hs]

theorem Same.refl (regs : Regs) : Same regs regs := fun _ _ => rfl

/-- What the page of a byte that is taken leaves. -/
theorem flags_writeReg (regs : Regs) (b e : Bool) (h5 : readReg regs 5 = flag b) (h6 : readReg regs 6 = flag e)
    (h4 : readReg regs 4 = 0) (v : Word) :
    Flags ⟨b, e⟩ (writeReg regs 30 v) ∧ readReg (writeReg regs 30 v) 4 = 0 := by
  refine ⟨⟨?_, ?_⟩, ?_⟩
  · rw [readReg_writeReg_ne (by decide), h5]
  · rw [readReg_writeReg_ne (by decide), h6]
  · rw [readReg_writeReg_ne (by decide), h4]

theorem word_inj {a b : BitVec 8} : word a = word b ↔ a = b := by
  constructor
  · intro h
    rw [← low_word a, ← low_word b, h]
  · rintro rfl
    rfl

theorem flag_eq_zero (b : Bool) : (flag b == 0#32) = !b := by
  cases b <;> rfl

/-! ## The dispatch -/

theorem out_of_range : ∀ byte : BitVec 8, (226 : Word).slt (word byte) = decide (226 < byte.toNat) := by decide

theorem table_page_number : ∀ byte : BitVec 8, word byte + 29 = BitVec.ofNat 32 (29 + byte.toNat) := by decide

theorem ascii_val_out_of_range {n : Nat} (h : 226 < n) : ascii_val n = 0 := by
  have hkeys : ∀ p ∈ SCANCODE_TO_ASCII, p.1 ≤ 226 := by decide
  have hnone : SCANCODE_TO_ASCII.lookup n = none := by
    rw [List.lookup_eq_none_iff]
    intro p hp
    have := hkeys p hp
    simp
    omega
  rw [ascii_val, hnone, Option.getD_none]

/-- The scancode whose page is taken. -/
def dispatched (byte : BitVec 8) : Nat := if 226 < byte.toNat then 0 else byte.toNat

theorem dispatched_lt (byte : BitVec 8) : dispatched byte < 227 := by
  unfold dispatched
  split <;> omega

theorem ascii_val_dispatched (byte : BitVec 8) : ascii_val (dispatched byte) = ascii_val byte.toNat := by
  unfold dispatched
  split
  · rename_i h
    exact (ascii_val_out_of_range h).symm
  · rfl

section Paths

variable {O : Type} {out : Nat × PState → List O} {load : Nat → Arch → Instr → Word} {f : Framing} {byte : BitVec 8}
  {t : Nat} {regs : Regs} {mem : MemRegs}

variable (out load) in
/-- From the instruction `j` of page `n` the program goes silently, and within `time` clocks, to the beginning of page
`m`. -/
def Goes (time n j m : Nat) (regs regs' : Regs) : Prop := ∀ t mem, ∃ t', t < t' ∧ t' ≤ t + time ∧
  Silent (Paged.step pages load) out (t, ⟨n, j, regs, mem⟩) (t', ⟨m, 0, regs', mem⟩)

theorem Goes.trans {time time' n j m m' : Nat} {regs regs' regs'' : Regs} (h : Goes out load time n j m regs regs')
    (h' : Goes out load time' m 0 m' regs' regs'') : Goes out load (time + time') n j m' regs regs'' := by
  intro t mem
  obtain ⟨t₁, hlt₁, hle₁, hp₁⟩ := h t mem
  obtain ⟨t₂, hlt₂, hle₂, hp₂⟩ := h' t₁ mem
  exact ⟨t₂, by omega, by omega, hp₁.trans hp₂⟩

variable (load) (h : Paged.WellFormed pages)

include h

/-- The rest of PROCESS_BP. -/
theorem bp_rest (hq : Paged.Quiet out 23 1) (regs : Regs) :
    (∃ regs', Flags ⟨false, false⟩ regs' ∧ readReg regs' 4 = 0 ∧ Goes out load (137 * 10) 23 1 1 regs regs') ∧
      ∃ regs', Same regs regs' ∧ Goes out load (137 * 10) 23 6 24 regs regs' := by
  have hn : pages[23]? = some bpPage := page_process (n := 0) (by decide)
  constructor
  · obtain ⟨x₁, hx₁⟩ : ∃ x, x = writeReg (writeReg (writeReg regs 5 0) 6 0) 4 0 := ⟨_, rfl⟩
    have hregs := flags_writeReg x₁ false false
      (by rw [hx₁, readReg_writeReg_ne (by decide), readReg_writeReg_ne (by decide), readReg_writeReg (by decide)]; rfl)
      (by rw [hx₁, readReg_writeReg_ne (by decide), readReg_writeReg (by decide)]; rfl)
      (by rw [hx₁, readReg_writeReg (by decide)]) 1
    subst hx₁
    refine ⟨_, hregs.1, hregs.2, fun t mem => ⟨t + 137 + 137 + 137 + 137 + 137 + 137 * 4, by omega, by omega, ?_⟩⟩
    refine Paged.chain_imm h hn hq (v := 0) rfl le_rfl (BitVec.zero_add _) ?_
    refine Paged.chain_imm h hn hq (v := 0) rfl (by decide) (BitVec.zero_add _) ?_
    refine Paged.chain_imm h hn hq (v := 0) rfl (by decide) (BitVec.zero_add _) ?_
    refine Paged.chain_imm h hn hq (v := 1) rfl (by decide) (BitVec.zero_add _) ?_
    refine Paged.chain_jal h hn hq (l := 7) rfl (by decide) (by decide) ?_
    exact Paged.chain_leave_computed h hn hq (m := 1) rfl (by decide) (by rw [pages_length]; decide) rfl
      (readReg_writeReg (by decide) _) (.refl _)
  · refine ⟨writeReg regs 30 24, same_writeReg (.refl regs) (by decide) _, fun t mem => ⟨t + 137 + 137 * 4, by omega,
      by omega, ?_⟩⟩
    refine Paged.chain_imm h hn hq (v := 24) rfl (by decide) (BitVec.zero_add _) ?_
    exact Paged.chain_leave_computed h hn hq (m := 24) rfl (by decide) (by rw [pages_length]; decide) rfl
      (readReg_writeReg (by decide) _) (.refl _)

/-- The page of a prefix, which is taken by the flag in `fl`. -/
theorem code_page (m : Nat) (code : BitVec 8) (fl : Reg) {n : Nat} {pg : Page} {imm : BitVec 12}
    (hn : pages[n]? = some pg)
    (hinstrs : pg.instrs = [.opImm .addi 7 0 imm, .branch .beq 4 7 (BitVec.ofInt 13 (4 * (4 : Nat) - 4 * (1 : Nat))),
      .opImm .addi 30 0 (BitVec.ofInt 12 m), .jal 0 (BitVec.ofInt 21 (4 * (7 : Nat) - 4 * (3 : Nat))),
      .opImm .addi fl 0 1, .opImm .addi 4 0 0, .opImm .addi 30 0 1])
    (hend : pg.ending = .switch_to_computed none) (himm : imm.signExtend 32 = word code) (hfl : fl = 5 ∨ fl = 6)
    (hm : m < 256) (hmm : (BitVec.ofInt 12 m).signExtend 32 = BitVec.ofNat 32 m)
    (hq : Paged.Quiet out n 0) (h4 : readReg regs 4 = word byte) :
    (byte = code → ∃ regs', readReg regs' fl = 1 ∧
      (∀ r : Reg, r = 5 ∨ r = 6 → r ≠ fl → readReg regs' r = readReg regs r) ∧
      readReg regs' 4 = 0 ∧ Goes out load (137 * 11) n 0 1 regs regs') ∧
    (byte ≠ code → ∃ regs', Same regs regs' ∧ Goes out load (137 * 11) n 0 m regs regs') := by
  have hscratch : pg.scratchReg = 30 := by
    rw [Page.scratchReg, Page.scratch, hend]
    rfl
  have hnone : ∀ n, pg.ending.target n = none := fun n => by rw [hend]; rfl
  have hlen : pg.instrs.length = 7 := by rw [hinstrs]; rfl
  have hi0 : pg.instrs[0]? = some (.opImm .addi 7 0 imm) := by rw [hinstrs]; rfl
  have hi2 : pg.instrs[2]? = some (.opImm .addi 30 0 (BitVec.ofInt 12 m)) := by rw [hinstrs]; rfl
  obtain ⟨x₁, hx₁⟩ : ∃ x, x = writeReg regs 7 (word code) := ⟨_, rfl⟩
  have hx4 : readReg x₁ 4 = word byte := by rw [hx₁, readReg_writeReg_ne (by decide), h4]
  have hx7 : readReg x₁ 7 = word code := by rw [hx₁, readReg_writeReg (by decide)]
  have hhead : ∀ {t mem c}, Silent (Paged.step pages load) out
      (t + 137 + 137, ⟨n, if decide (byte = code) then 4 else 2, x₁, mem⟩) c →
      Silent (Paged.step pages load) out (t, ⟨n, 0, regs, mem⟩) c := by
    intro t mem c rest
    refine Paged.chain_imm h hn hq (v := word code) hi0 le_rfl ((BitVec.zero_add _).trans himm) ?_
    rw [← hx₁]
    refine Paged.chain_branch h hn hq (l := 4) (b := decide (byte = code)) (by rw [hinstrs]; rfl) (Nat.zero_le _)
      (by decide) ?_ rest
    rw [hx4, hx7]
    show (word byte == word code) = _
    by_cases he : byte = code
    · rw [he]
      simp
    · rw [decide_eq_false he]
      exact beq_eq_false_iff_ne.mpr fun hw => he (word_inj.mp hw)
  constructor
  · intro he
    obtain ⟨x₂, hx₂⟩ : ∃ x, x = writeReg (writeReg x₁ fl 1) 4 0 := ⟨_, rfl⟩
    have hfl4 : fl ≠ 4 := by rcases hfl with rfl | rfl <;> decide
    have hfl0 : fl ≠ 0 := by rcases hfl with rfl | rfl <;> decide
    have hfl30 : fl ≠ 30 := by rcases hfl with rfl | rfl <;> decide
    refine ⟨writeReg x₂ 30 1, ?_, fun r hr hne => ?_, ?_, fun t mem =>
      ⟨t + 137 + 137 + 137 + 137 + 137 + 137 * 4, by omega, by omega, hhead ?_⟩⟩
    · rw [readReg_writeReg_ne hfl30, hx₂, readReg_writeReg_ne hfl4, readReg_writeReg hfl0]
    · have hr30 : r ≠ 30 := by rcases hr with rfl | rfl <;> decide
      have hr4 : r ≠ 4 := by rcases hr with rfl | rfl <;> decide
      have hr7 : r ≠ 7 := by rcases hr with rfl | rfl <;> decide
      rw [readReg_writeReg_ne hr30, hx₂, readReg_writeReg_ne hr4, readReg_writeReg_ne hne, hx₁, readReg_writeReg_ne hr7]
    · rw [readReg_writeReg_ne (by decide), hx₂, readReg_writeReg (by decide)]
    rw [decide_eq_true he, if_pos rfl]
    refine Paged.chain_imm h hn hq (v := 1) (by rw [hinstrs]; rfl) (Nat.zero_le _) (BitVec.zero_add _) ?_
    refine Paged.chain_imm h hn hq (v := 0) (by rw [hinstrs]; rfl) (Nat.zero_le _) (BitVec.zero_add _) ?_
    rw [← hx₂]
    refine Paged.chain_imm h hn hq (v := 1) (by rw [hinstrs]; rfl) (Nat.zero_le _) (BitVec.zero_add _) ?_
    refine Paged.chain_leave_computed h hn hq (m := 1) hlen (Nat.zero_le _) (by rw [pages_length]; decide) (hnone n)
      ?_ (.refl _)
    rw [hscratch]
    exact readReg_writeReg (by decide) _
  · intro he
    refine ⟨writeReg x₁ 30 (BitVec.ofNat 32 m), ?_, fun t mem =>
      ⟨t + 137 + 137 + 137 + 137 + 137 * 4, by omega, by omega, hhead ?_⟩⟩
    · exact same_writeReg (hx₁ ▸ same_writeReg (.refl regs) (by decide) _) (by decide) _
    rw [decide_eq_false he, if_neg (by decide)]
    refine Paged.chain_imm h hn hq (v := BitVec.ofNat 32 m) hi2 (Nat.zero_le _) ((BitVec.zero_add _).trans hmm) ?_
    refine Paged.chain_jal h hn hq (l := 7) (by rw [hinstrs]; rfl) (Nat.zero_le _) (by decide) ?_
    refine Paged.chain_leave_computed h hn hq (m := m) hlen (Nat.zero_le _) (by rw [pages_length]; exact hm) (hnone n)
      ?_ (.refl _)
    rw [hscratch]
    exact readReg_writeReg (by decide) _

/-- PROCESS_EXTCHECK. -/
theorem extcheck_page (hq : Paged.Quiet out 26 0) (hf : Flags f regs) :
    (f.ext_pending = true → ∃ regs', Flags ⟨f.break_pending, false⟩ regs' ∧ readReg regs' 4 = 0 ∧
      Goes out load (137 * 11) 26 0 1 regs regs') ∧
    (f.ext_pending = false → ∃ regs', Same regs regs' ∧ Goes out load (137 * 11) 26 0 27 regs regs') := by
  have hn : pages[26]? = some extcheckPage := page_process (n := 3) (by decide)
  have hhead : ∀ {t mem c}, Silent (Paged.step pages load) out
      (t + 137, ⟨26, if !f.ext_pending then 5 else 1, regs, mem⟩) c →
      Silent (Paged.step pages load) out (t, ⟨26, 0, regs, mem⟩) c := by
    intro t mem c rest
    refine Paged.chain_branch h hn hq (l := 5) (b := !f.ext_pending) rfl le_rfl (by decide) ?_ rest
    rw [← flag_eq_zero, ← hf.ext_pending]
    rfl
  constructor
  · intro he
    have hregs := flags_writeReg (writeReg (writeReg regs 6 0) 4 0) f.break_pending false
      (by rw [readReg_writeReg_ne (by decide), readReg_writeReg_ne (by decide), hf.break_pending])
      (by rw [readReg_writeReg_ne (by decide), readReg_writeReg (by decide)]; rfl)
      (by rw [readReg_writeReg (by decide)]) 1
    refine ⟨_, hregs.1, hregs.2, fun t mem => ⟨t + 137 + 137 + 137 + 137 + 137 + 137 * 5, by omega, by omega, hhead ?_⟩⟩
    rw [he, if_neg (by decide)]
    refine Paged.chain_imm h hn hq (v := 0) rfl (Nat.zero_le _) (BitVec.zero_add _) ?_
    refine Paged.chain_imm h hn hq (v := 0) rfl (Nat.zero_le _) (BitVec.zero_add _) ?_
    refine Paged.chain_imm h hn hq (v := 1) rfl (Nat.zero_le _) (BitVec.zero_add _) ?_
    refine Paged.chain_jal h hn hq (l := 6) rfl (Nat.zero_le _) (by decide) ?_
    exact Paged.chain_leave_computed h hn hq (m := 1) rfl (Nat.zero_le _) (by rw [pages_length]; decide) rfl
      (readReg_writeReg (by decide) _) (.refl _)
  · intro he
    refine ⟨writeReg regs 30 27, same_writeReg (.refl regs) (by decide) _, fun t mem =>
      ⟨t + 137 + 137 + 137 * 5, by omega, by omega, hhead ?_⟩⟩
    rw [he, if_pos (by decide)]
    refine Paged.chain_imm h hn hq (v := 27) rfl (Nat.zero_le _) (BitVec.zero_add _) ?_
    exact Paged.chain_leave_computed h hn hq (m := 27) rfl (Nat.zero_le _) (by rw [pages_length]; decide) rfl
      (readReg_writeReg (by decide) _) (.refl _)

/-! ## A plain make code -/

/-- PROCESS_DISPATCH: no byte leads behind page 255. -/
theorem dispatch_page (hq : Paged.Quiet out 27 0) (h4 : readReg regs 4 = word byte) :
    ∃ regs', Same regs regs' ∧ Goes out load (137 * 11) 27 0 (29 + dispatched byte) regs regs' := by
  have hn : pages[27]? = some dispatchPage := page_process (n := 4) (by decide)
  have hi0 : dispatchPage.instrs[0]? = some (.opImm .addi 7 0 226) := rfl
  obtain ⟨x₁, hx₁⟩ : ∃ x, x = writeReg regs 7 226 := ⟨_, rfl⟩
  have hx4 : readReg x₁ 4 = word byte := by rw [hx₁, readReg_writeReg_ne (by decide), h4]
  have hx7 : readReg x₁ 7 = 226 := by rw [hx₁, readReg_writeReg (by decide)]
  have hsame₁ : Same regs x₁ := hx₁ ▸ same_writeReg (.refl regs) (by decide) _
  have hhead : ∀ {t mem c}, Silent (Paged.step pages load) out
      (t + 137 + 137, ⟨27, if decide (226 < byte.toNat) then 5 else 2, x₁, mem⟩) c →
      Silent (Paged.step pages load) out (t, ⟨27, 0, regs, mem⟩) c := by
    intro t mem c rest
    refine Paged.chain_imm h hn hq (v := 226) hi0 le_rfl (BitVec.zero_add _) ?_
    rw [← hx₁]
    refine Paged.chain_branch h hn hq (l := 5) (b := decide (226 < byte.toNat)) rfl (Nat.zero_le _) (by decide) ?_ rest
    rw [← out_of_range, ← hx4, ← hx7]
    rfl
  by_cases hbig : 226 < byte.toNat
  · have hpage : 29 + dispatched byte = 29 := by rw [dispatched, if_pos hbig]
    rw [hpage]
    refine ⟨writeReg x₁ 30 29, same_writeReg hsame₁ (by decide) _, fun t mem =>
      ⟨t + 137 + 137 + 137 + 137 * 5, by omega, by omega, hhead ?_⟩⟩
    rw [decide_eq_true hbig, if_pos rfl]
    refine Paged.chain_imm h hn hq (v := 29) rfl (Nat.zero_le _) (BitVec.zero_add _) ?_
    exact Paged.chain_leave_computed h hn hq (m := 29) rfl (Nat.zero_le _) (by rw [pages_length]; decide) rfl
      (readReg_writeReg (by decide) _) (.refl _)
  · have hpage : dispatched byte = byte.toNat := if_neg hbig
    obtain ⟨x₂, hx₂⟩ : ∃ x, x = writeReg x₁ 7 29 := ⟨_, rfl⟩
    have hi2 : dispatchPage.instrs[2]? = some (.opImm .addi 7 0 29) := rfl
    have hi3 : dispatchPage.instrs[3]? = some (.opReg .add 30 4 7) := rfl
    refine ⟨writeReg x₂ 30 (BitVec.ofNat 32 (29 + dispatched byte)), ?_, fun t mem =>
      ⟨t + 137 + 137 + 137 + 137 + 137 + 137 * 5, by omega, by omega, hhead ?_⟩⟩
    · exact same_writeReg (hx₂ ▸ same_writeReg hsame₁ (by decide) _) (by decide) _
    rw [decide_eq_false hbig, if_neg (by decide)]
    refine Paged.chain_imm h hn hq (v := 29) hi2 (Nat.zero_le _) (BitVec.zero_add _) ?_
    rw [← hx₂]
    refine Paged.chain_reg h hn hq (v := BitVec.ofNat 32 (29 + dispatched byte)) hi3 (Nat.zero_le _) ?_ ?_
    · rw [hpage, ← table_page_number, ← hx4, hx₂, readReg_writeReg_ne (by decide), readReg_writeReg (by decide)]
      rfl
    refine Paged.chain_jal h hn hq (l := 6) rfl (Nat.zero_le _) (by decide) ?_
    exact Paged.chain_leave_computed h hn hq (m := 29 + dispatched byte) rfl (Nat.zero_le _)
      (by rw [pages_length, hpage]; omega) rfl (readReg_writeReg (by decide) _) (.refl _)

variable (regs) in
/-- A translation page. -/
theorem table_page {scancode : Nat} (hs : scancode < 227) (hq : Paged.Quiet out (29 + scancode) 0) :
    ∃ regs', Same regs regs' ∧ (readReg regs' 8).extractLsb' 0 8 = BitVec.ofNat 8 (ascii_val scancode) ∧
      Goes out load (137 * 11) (29 + scancode) 0 28 regs regs' := by
  have hn := page_table hs
  have hi0 : (tablePage scancode).instrs[0]? = some (.opImm .addi 8 0 (BitVec.ofInt 12 (ascii_val scancode))) := rfl
  obtain ⟨x₁, hx₁⟩ : ∃ x, x = writeReg regs 8 ((BitVec.ofInt 12 (ascii_val scancode)).signExtend 32) := ⟨_, rfl⟩
  have hsame₁ : Same regs x₁ := hx₁ ▸ same_writeReg (.refl regs) (by decide) _
  refine ⟨writeReg x₁ 30 28, same_writeReg hsame₁ (by decide) _, ?_, fun t mem =>
    ⟨t + 137 + 137 * 10, by omega, by omega, ?_⟩⟩
  · rw [readReg_writeReg_ne (by decide), hx₁, readReg_writeReg (by decide),
      ← BitVec.setWidth_eq_extractLsb' (by decide), setWidth_signExtend_low _ (by decide), BitVec.ofInt_natCast]
    apply BitVec.eq_of_toNat_eq
    rw [BitVec.toNat_setWidth, BitVec.toNat_ofNat, BitVec.toNat_ofNat]
    omega
  · refine Paged.chain_imm h hn hq hi0 le_rfl (BitVec.zero_add _) ?_
    rw [← hx₁]
    exact Paged.chain_leave h hn hq (m := 28) rfl (Nat.zero_le _) (by rw [pages_length]; decide) rfl (.refl _)

end Paths

/-! ## The whole way -/

section Seen

variable (load : Nat → Arch → Instr → Word) {flash : Bits.ByteMemory 14} (h : Paged.WellFormed pages)
  (hold : Paged.Holds flash pages) {f : Framing} {byte : BitVec 8} {regs : Regs}

include h hold

/-- The pages from PROCESS_F0 on store nothing but on EMIT_PAGE. -/
theorem quiet_page {n : Nat} (hn : 24 ≤ n) (hlt : n < 256) (hemit : n ≠ 28) : Paged.Quiet (seen flash) n 0 := by
  by_cases htable : n < 29
  · have hcase : n = 24 ∨ n = 25 ∨ n = 26 ∨ n = 27 := by omega
    rcases hcase with rfl | rfl | rfl | rfl
    · exact seen_quiet h hold (page_process (n := 1) (by decide)) (.inl (by decide)) rfl
    · exact seen_quiet h hold (page_process (n := 2) (by decide)) (.inl (by decide)) rfl
    · exact seen_quiet h hold (page_process (n := 3) (by decide)) (.inl (by decide)) rfl
    · exact seen_quiet h hold (page_process (n := 4) (by decide)) (.inl (by decide)) rfl
  · obtain ⟨scancode, rfl⟩ : ∃ scancode, n = 29 + scancode := ⟨n - 29, by omega⟩
    exact seen_quiet h hold (page_table (by omega)) (.inl (by omega)) rfl

/-- The first instruction of PROCESS_BP. -/
theorem entry_path (hf : Flags f regs) (h4 : readReg regs 4 = word byte) (t : Nat) (mem : MemRegs) :
    Path (Paged.step pages load) (seen flash) (t, ⟨23, 0, regs, mem⟩) [.inl (word byte)]
      (t + 137, ⟨23, if !f.break_pending then 6 else 1, regs, mem⟩) := by
  have hn : pages[23]? = some bpPage := page_process (n := 0) (by decide)
  have hi0 : bpPage.instrs[0]? = some (.branch .beq 5 0 (BitVec.ofInt 13 (4 * (6 : Nat) - 4 * (0 : Nat)))) := rfl
  have hstep : Paged.step pages load (t, ⟨23, 0, regs, mem⟩) =
      some (t + 137, ⟨23, if !f.break_pending then 6 else 1, regs, mem⟩) := by
    have hs : Paged.step pages load (t, ⟨23, 0, regs, mem⟩) = _ :=
      Paged.step_branch (σ := ⟨23, 0, regs, mem⟩) h hn rfl (by decide) hi0
    have hb : Rv32i.BranchOp.holds .beq (readReg regs 5) (readReg regs 0) = !f.break_pending := by
      rw [hf.break_pending]
      exact flag_eq_zero _
    rw [show (PState.mk 23 0 regs mem).regs = regs from rfl, hb] at hs
    exact hs
  refine .one hstep ?_
  rw [seen_instr h hold hn hi0, if_pos ⟨rfl, rfl⟩, gpioStore_of_isStore rfl, h4]
  rfl

/-- EMIT_PAGE stores what the translation page has loaded. -/
theorem emit_path {v : BitVec 8} (h8 : (readReg regs 8).extractLsb' 0 8 = v) (hf : Flags f regs) (t : Nat)
    (mem : MemRegs) : ∃ t' regs' mem', Path (Paged.step pages load) (seen flash) (t, ⟨28, 0, regs, mem⟩) [.inr v]
      (t', ⟨1, 0, regs', mem'⟩) ∧ t < t' ∧ t' ≤ t + 137 * 11 ∧ Flags f regs' ∧ readReg regs' 4 = 0 := by
  have hn : pages[28]? = some emitPage := page_process (n := 5) (by decide)
  have hi0 : emitPage.instrs[0]? = some (.store .sw 8 0 0xF0) := rfl
  have hi1 : emitPage.instrs[1]? = some (.opImm .addi 4 0 0) := rfl
  have hq : Paged.Quiet (seen flash) 28 1 := seen_quiet h hold hn (.inl (by decide)) rfl
  obtain ⟨x₁, hx₁⟩ : ∃ x, x = writeReg regs 4 0 := ⟨_, rfl⟩
  have hstore : Paged.step pages load (t, ⟨28, 0, regs, mem⟩) =
      some (t + 137, ⟨28, 1, regs, { mem with gpio_out := v }⟩) := by
    have hs : Paged.step pages load (t, ⟨28, 0, regs, mem⟩) = _ := Paged.step_gpio (σ := ⟨28, 0, regs, mem⟩) h hn hi0
    rw [show readReg (PState.mk 28 0 regs mem).regs 8 = readReg regs 8 from rfl, h8] at hs
    exact hs
  have hseen : seen flash (t, ⟨28, 0, regs, mem⟩) = [.inr v] := by
    have hlow : (readReg (PState.mk 28 0 regs mem).arch.regs 8).extractLsb' 0 8 = v := h8
    rw [seen_instr h hold hn hi0, if_neg (by decide), gpioStore_out, hlow]
    rfl
  have hrest : Silent (Paged.step pages load) (seen flash) (t + 137, ⟨28, 1, regs, { mem with gpio_out := v }⟩)
      (t + 137 + 137 + 137 * 9, ⟨1, 0, writeReg x₁ 30 1, { mem with gpio_out := v }⟩) := by
    refine Paged.chain_imm h hn hq hi1 le_rfl (v := 0) (BitVec.zero_add _) ?_
    rw [← hx₁]
    exact Paged.chain_leave h hn hq (m := 1) rfl (by decide) (by rw [pages_length]; decide) rfl (.refl _)
  have hregs := flags_writeReg x₁ f.break_pending f.ext_pending
    (by rw [hx₁, readReg_writeReg_ne (by decide), hf.break_pending])
    (by rw [hx₁, readReg_writeReg_ne (by decide), hf.ext_pending])
    (by rw [hx₁, readReg_writeReg (by decide)]) 1
  refine ⟨t + 137 + 137 + 137 * 9, _, { mem with gpio_out := v }, ?_, by omega, by omega, hregs.1, hregs.2⟩
  have hp := (Path.one hstore hseen).trans hrest
  rwa [List.append_nil] at hp

/-- A plain make code, from PROCESS_DISPATCH on. -/
theorem make_path (hf : Flags f regs) (h4 : readReg regs 4 = word byte) (t : Nat) (mem : MemRegs) :
    ∃ t' regs' mem', Path (Paged.step pages load) (seen flash) (t, ⟨27, 0, regs, mem⟩)
      [.inr (BitVec.ofNat 8 (ascii_val byte.toNat))] (t', ⟨1, 0, regs', mem'⟩) ∧ t < t' ∧ t' ≤ t + 137 * 33 ∧
        Flags f regs' ∧ readReg regs' 4 = 0 := by
  have hlt := dispatched_lt byte
  obtain ⟨regs₁, hsame₁, hgo₁⟩ :=
    dispatch_page load h (quiet_page h hold (by decide) (by decide) (by decide)) h4
  obtain ⟨regs₂, hsame₂, h8, hgo₂⟩ := table_page load regs₁ h hlt
    (quiet_page h hold (by omega) (by omega) (by omega))
  rw [ascii_val_dispatched] at h8
  obtain ⟨t₁, hlt₁, hle₁, hp₁⟩ := (hgo₁.trans hgo₂) t mem
  obtain ⟨t₂, regs', mem', hp₂, hlt₂, hle₂, hf', h4'⟩ :=
    emit_path load h hold h8 (hsame₂.flags (hsame₁.flags hf)) t₁ mem
  exact ⟨t₂, regs', mem', hp₁.path hp₂, by omega, by omega, hf', h4'⟩

variable {load} in
/-- Every byte. -/
theorem processes : Processes pages load (seen flash) (translation.traced word) Flags (7 * pageClocks) := by
  refine ⟨fun f regs regs' hkept hf => ?_, fun f byte t regs mem hf h4 => ?_⟩
  · exact ⟨(hkept 5 (by decide) (by decide) (by decide) (by decide) (by decide)).trans hf.break_pending,
      (hkept 6 (by decide) (by decide) (by decide) (by decide) (by decide)).trans hf.ext_pending⟩
  have hentry := entry_path load h hold hf h4 t mem
  have hq23 : Paged.Quiet (seen flash) 23 1 :=
    seen_quiet h hold (page_process (n := 0) (by decide)) (.inr (by decide)) rfl
  have hbp := bp_rest load h hq23 regs
  have htime : 7 * pageClocks = 10549 := rfl
  rw [htime]
  -- where the byte is taken nothing is stored
  have taken : ∀ {time j : Nat} {f' : Framing} {regs' : Regs}, translation.emits f byte = [] →
      translation.next f byte = f' → (if !f.break_pending then 6 else 1) = j → time ≤ 10000 →
      Goes (seen flash) load time 23 j 1 regs regs' → Flags f' regs' → readReg regs' 4 = 0 →
      ∃ t' regs' mem', Path (Paged.step pages load) (seen flash) (t, ⟨23, 0, regs, mem⟩)
        ((translation.traced word).emits f byte) (t', ⟨1, 0, regs', mem'⟩) ∧ t < t' ∧ t' ≤ t + 10549 ∧
          Flags ((translation.traced word).next f byte) regs' ∧ readReg regs' 4 = 0 := by
    intro time j f' regs' hemits hnext hj htime hgo hf' h4'
    obtain ⟨t', hlt, hle, hp⟩ := hgo (t + 137) mem
    rw [hj] at hentry
    refine ⟨t', regs', mem, ?_, by omega, by omega, ?_, h4'⟩
    · rw [Transducer.traced_emits, hemits]
      exact hentry.trans hp
    · show Flags (translation.next f byte) regs'
      rw [hnext]
      exact hf'
  by_cases hb : f.break_pending = true
  · obtain ⟨regs', hf', h4', hgo⟩ := hbp.1
    exact taken (if_pos (.inl hb)) (if_pos hb) (by rw [hb]; rfl) (by decide) hgo hf' h4'
  have hbf : f.break_pending = false := Bool.not_eq_true _ ▸ hb
  have hj : (if !f.break_pending then 6 else 1) = 6 := by
    rw [hbf]
    rfl
  obtain ⟨regs₁, hsame₁, hgo₁⟩ := hbp.2
  have hf₁ := hsame₁.flags hf
  have h4₁ : readReg regs₁ 4 = word byte := (hsame₁ 4 (.inl rfl)).trans h4
  obtain ⟨hhit, hpass⟩ := code_page load h 25 0xF0 5 (page_process (n := 1) (by decide)) rfl rfl (by decide)
    (.inl rfl) (by decide) (by decide) (quiet_page h hold (by decide) (by decide) (by decide)) h4₁
  by_cases hF0 : byte = 0xF0
  · obtain ⟨regs', h5, h6, h4', hgo⟩ := hhit hF0
    refine taken (if_pos (.inr (.inl hF0))) ((if_neg hb).trans (if_pos hF0)) hj (by decide)
      (hgo₁.trans hgo) ⟨h5, ?_⟩ h4'
    rw [h6 6 (.inr rfl) (by decide)]
    exact hf₁.ext_pending
  obtain ⟨regs₂, hsame₂, hgo₂⟩ := hpass hF0
  have hf₂ := hsame₂.flags hf₁
  have h4₂ : readReg regs₂ 4 = word byte := (hsame₂ 4 (.inl rfl)).trans h4₁
  obtain ⟨hhit, hpass⟩ := code_page load h 26 0xE0 6 (page_process (n := 2) (by decide)) rfl rfl (by decide)
    (.inr rfl) (by decide) (by decide) (quiet_page h hold (by decide) (by decide) (by decide)) h4₂
  by_cases hE0 : byte = 0xE0
  · obtain ⟨regs', h6, h5, h4', hgo⟩ := hhit hE0
    refine taken (if_pos (.inr (.inr (.inl hE0))))
      ((if_neg hb).trans ((if_neg hF0).trans (if_pos hE0))) hj (by decide)
      ((hgo₁.trans hgo₂).trans hgo) ⟨?_, h6⟩ h4'
    rw [h5 5 (.inl rfl) (by decide)]
    exact hf₂.break_pending
  obtain ⟨regs₃, hsame₃, hgo₃⟩ := hpass hE0
  have hf₃ := hsame₃.flags hf₂
  have h4₃ : readReg regs₃ 4 = word byte := (hsame₃ 4 (.inl rfl)).trans h4₂
  obtain ⟨hhit, hpass⟩ := extcheck_page load h (quiet_page h hold (by decide) (by decide) (by decide)) hf₃
  by_cases he : f.ext_pending = true
  · obtain ⟨regs', hf', h4', hgo⟩ := hhit he
    exact taken (if_pos (.inr (.inr (.inr he))))
      ((if_neg hb).trans ((if_neg hF0).trans ((if_neg hE0).trans (if_pos he)))) hj (by decide)
      (((hgo₁.trans hgo₂).trans hgo₃).trans hgo) hf' h4'
  obtain ⟨regs₄, hsame₄, hgo₄⟩ := hpass (Bool.not_eq_true _ ▸ he)
  have h4₄ : readReg regs₄ 4 = word byte := (hsame₄ 4 (.inl rfl)).trans h4₃
  obtain ⟨t₁, hlt₁, hle₁, hp₁⟩ := (((hgo₁.trans hgo₂).trans hgo₃).trans hgo₄) (t + 137) mem
  obtain ⟨t₂, regs', mem', hp₂, hlt₂, hle₂, hf', h4'⟩ := make_path load h hold (hsame₄.flags hf₃) h4₄ t₁ mem
  have hplain : ¬ (f.break_pending = true ∨ byte = 0xF0 ∨ byte = 0xE0 ∨ f.ext_pending = true) := by
    rintro (h | h | h | h)
    · exact hb h
    · exact hF0 h
    · exact hE0 h
    · exact he h
  refine ⟨t₂, regs', mem', ?_, by omega, by omega, ?_, h4'⟩
  · have hemits : translation.emits f byte = [BitVec.ofNat 8 (ascii_val byte.toNat)] := if_neg hplain
    rw [Transducer.traced_emits, hemits]
    rw [hj] at hentry
    exact hentry.trans (hp₁.path hp₂)
  · have hnext : translation.next f byte = f :=
      (if_neg hb).trans ((if_neg hF0).trans ((if_neg hE0).trans (if_neg he)))
    show Flags (translation.next f byte) regs'
    rw [hnext]
    exact hf'

end Seen

end Ascii

end Ps2

end Pineapple
