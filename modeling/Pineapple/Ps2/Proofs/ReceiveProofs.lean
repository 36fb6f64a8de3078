import Pineapple.Paged.Proofs.ChainProofs
import Pineapple.Ps2.Contract
import Pineapple.Ps2.Proofs.ScriptProofs

/-!
# Proofs: the receive pages

A page polls CLOCK every 411 clocks. The sample that sees the level it waits for is 1371 clocks at most before the page
after it begins, so the first sample there is 1507 clocks later.
-/

namespace Pineapple

open Clocked
open Rv32i (Instr Word Reg readReg writeReg)

namespace Ps2

/-! ## The pages -/

/-- A program with the receive pages, and a page behind them. -/
structure HasReceive (P : List Page) : Prop where
  wf : Paged.WellFormed P
  page : ∀ n, 1 ≤ n → n ≤ 22 → P[n]? = some (receivePage n)
  count : 23 < P.length

theorem receivePages_get {n : Nat} (h1 : 1 ≤ n) (h22 : n ≤ 22) : receivePages[n - 1]? = some (receivePage n) := by
  have hlt : n - 1 < 22 := by omega
  rw [receivePages, List.getElem?_map, List.getElem?_range hlt, Option.map_some, Nat.sub_add_cancel h1]

theorem Reader.hasReceive (h : Paged.WellFormed Reader.pages) : HasReceive Reader.pages := by
  refine ⟨h, fun n h1 h22 => ?_, by decide⟩
  obtain ⟨m, rfl⟩ : ∃ m, n = m + 1 := ⟨n - 1, by omega⟩
  show (receivePages ++ _)[m]? = _
  rw [List.getElem?_append_left (show m < receivePages.length by show m < 22; omega)]
  exact receivePages_get (n := m + 1) (by omega) h22

theorem Ascii.hasReceive (h : Paged.WellFormed Ascii.pages) : HasReceive Ascii.pages := by
  refine ⟨h, fun n h1 h22 => ?_, ?_⟩
  · obtain ⟨m, rfl⟩ : ∃ m, n = m + 1 := ⟨n - 1, by omega⟩
    show (receivePages ++ _)[m]? = _
    rw [List.getElem?_append_left (show m < receivePages.length by show m < 22; omega)]
    exact receivePages_get (n := m + 1) (by omega) h22
  · have hreceive : receivePages.length = 22 := rfl
    have hprocess : processPages.length = 6 := rfl
    rw [pages, List.length_cons, List.length_append, List.length_append]
    omega

/-- The three instructions of a poll loop; it is left when CLOCK has the level of phase `n - 1`. -/
theorem poll_instrs (n : Nat) : (receivePage n).instrs[0]? = some (.load .lbu 1 0 0xF4) ∧
    (receivePage n).instrs[1]? = some (.opImm .andi 2 1 8) ∧
    (receivePage n).instrs[2]? = some (.branch (if n % 2 = 1 then .bne else .beq) 2 0
      (BitVec.ofInt 13 (4 * (0 : Nat) - 4 * (2 : Nat)))) := by
  unfold receivePage
  split
  · rename_i h
    rw [if_pos h.1]
    exact ⟨rfl, rfl, rfl⟩
  · unfold waitPage
    by_cases hn : n % 2 = 1
    · rw [if_pos hn, show (n + 1) % 2 = 0 by omega]
      exact ⟨rfl, rfl, rfl⟩
    · rw [if_neg hn, if_neg (show ¬ (n + 1) % 2 = 0 by omega)]
      exact ⟨rfl, rfl, rfl⟩

theorem sample_instrs (bit_value next : Int) :
    (samplePage bit_value next).instrs[3]? = some (.opImm .andi 3 1 16) ∧
    (samplePage bit_value next).instrs[4]? = some (.branch .beq 3 0 (BitVec.ofInt 13 (4 * (6 : Nat) - 4 * (4 : Nat)))) ∧
    (samplePage bit_value next).instrs[5]? = some (.opImm .ori 4 4 (BitVec.ofInt 12 bit_value)) ∧
    (samplePage bit_value next).instrs.length = 6 := ⟨rfl, rfl, rfl, rfl⟩

theorem wait_instrs (level : Nat) (next : Int) : (waitPage level next).instrs.length = 3 := by
  unfold waitPage
  split
  · rfl
  · rfl

/-! ## Registers -/

/-- The registers that the receive pages leave alone. -/
def Kept (regs regs' : Regs) : Prop :=
  ∀ r : Reg, r ≠ 1 → r ≠ 2 → r ≠ 3 → r ≠ 4 → r ≠ 30 → readReg regs' r = readReg regs r

theorem Kept.refl (regs : Regs) : Kept regs regs := fun _ _ _ _ _ _ => rfl

theorem Kept.trans {regs regs' regs'' : Regs} (h : Kept regs regs') (h' : Kept regs' regs'') : Kept regs regs'' :=
  fun r h1 h2 h3 h4 h30 => (h' r h1 h2 h3 h4 h30).trans (h r h1 h2 h3 h4 h30)

theorem mask_clock : ∀ v : BitVec 8, v.setWidth 32 &&& 8#32 = if clock v then 8#32 else 0#32 := by decide

theorem mask_data : ∀ v : BitVec 8, v.setWidth 32 &&& 16#32 = if data v then 16#32 else 0#32 := by decide

/-- The registers after a sample. -/
def polled (regs : Regs) (v : BitVec 8) : Regs :=
  writeReg (writeReg regs 1 (v.setWidth 32)) 2 (if clock v then 8 else 0)

/-- The registers after the rest of a page that samples a bit. -/
theorem kept_polled (regs : Regs) (v : BitVec 8) : Kept regs (polled regs v) ∧
    readReg (polled regs v) 4 = readReg regs 4 ∧ readReg (polled regs v) 1 = v.setWidth 32 := by
  refine ⟨fun r h1 h2 _ _ _ => ?_, ?_, ?_⟩
  · rw [polled, readReg_writeReg_ne h2, readReg_writeReg_ne h1]
  · rw [polled, readReg_writeReg_ne (by decide), readReg_writeReg_ne (by decide)]
  · rw [polled, readReg_writeReg_ne (by decide), readReg_writeReg (by decide)]

/-- The bit that page `n` sets in ACCUM. -/
def sampled (n : Nat) (v : BitVec 8) : BitVec 8 :=
  if samples n ∧ data v = true then BitVec.ofNat 8 (1 <<< ((n - 3) / 2)) else 0

theorem or_zero (w : Word) : w ||| word 0 = w := BitVec.or_zero

theorem bit_immediate :
    ∀ i < 8, (BitVec.ofInt 12 ((1 <<< i : Nat) : Int)).signExtend 32 = word (BitVec.ofNat 8 (1 <<< i)) := by
  decide

/-! ## The poll loop -/

section Paths

variable {O : Type} {P : List Page} {out : Nat × PState → List O} {rom : Rom} {inp : Nat → Inputs} (hP : HasReceive P)
  (hq : ∀ n, 1 ≤ n → n ≤ 22 → Paged.Quiet out n 0) {n : Nat} (h1 : 1 ≤ n) (h22 : n ≤ 22) {t : Nat} {regs : Regs}
  {mem : MemRegs} {c : Nat × PState}

include hP hq h1 h22

/-- One turn of the poll loop. -/
theorem poll_turn (rest : Silent (Paged.step P (Env.chip rom inp).load) out
      (t + 411, ⟨n, if clock (inp (t + 136)).ui_in = phaseLevel (n - 1) then 3 else 0,
        polled regs (inp (t + 136)).ui_in, mem⟩) c) :
    Silent (Paged.step P (Env.chip rom inp).load) out (t, ⟨n, 0, regs, mem⟩) c := by
  obtain ⟨hi0, hi1, hi2⟩ := poll_instrs n
  have hn := hP.page n h1 h22
  refine Paged.chain_gpio_in hP.wf hn (hq n h1 h22) hi0 (Nat.zero_le _) ?_
  obtain ⟨v, hv⟩ : ∃ v, v = (inp (t + 136)).ui_in := ⟨_, rfl⟩
  rw [← hv] at rest ⊢
  refine Paged.chain_imm hP.wf hn (hq n h1 h22) hi1 (Nat.zero_le _) (v := if clock v then 8 else 0) ?_ ?_
  · rw [readReg_writeReg (by decide)]
    exact mask_clock v
  obtain ⟨b, hb⟩ : ∃ b, b = Rv32i.BranchOp.holds (if n % 2 = 1 then .bne else .beq) (readReg (polled regs v) 2)
    (readReg (polled regs v) 0) := ⟨_, rfl⟩
  refine Paged.chain_branch hP.wf hn (hq n h1 h22) hi2 (Nat.zero_le _) (by decide) (b := b) hb.symm ?_
  have hloop : b = !decide (clock v = phaseLevel (n - 1)) := by
    have h2 : readReg (polled regs v) 2 = if clock v then 8 else 0 := by
      rw [polled, readReg_writeReg (by decide)]
    have h0 : readReg (polled regs v) 0 = 0 := rfl
    rw [hb, h2, h0, phaseLevel]
    by_cases hodd : n % 2 = 1
    · rw [if_pos hodd, decide_eq_false (show ¬ (n - 1) % 2 = 1 by omega)]
      cases clock v <;> rfl
    · rw [if_neg hodd, decide_eq_true (show (n - 1) % 2 = 1 by omega)]
      cases clock v <;> rfl
  have hindex : (if b = true then 0 else 2 + 1) = if clock v = phaseLevel (n - 1) then 3 else 0 := by
    rw [hloop]
    by_cases hc : clock v = phaseLevel (n - 1)
    · rw [if_pos hc, decide_eq_true hc]
      rfl
    · rw [if_neg hc, decide_eq_false hc]
      rfl
  rw [hindex]
  exact rest

/-- The turns before the sample that sees the level. -/
theorem poll_turns (k : Nat) (hwait : ∀ j < k, clock (inp (t + 136 + 411 * j)).ui_in = !phaseLevel (n - 1)) :
    ∃ regs', Kept regs regs' ∧ readReg regs' 4 = readReg regs 4 ∧
      Silent (Paged.step P (Env.chip rom inp).load) out (t, ⟨n, 0, regs, mem⟩) (t + 411 * k, ⟨n, 0, regs', mem⟩) := by
  induction k generalizing t regs with
  | zero => exact ⟨regs, .refl regs, rfl, .refl _⟩
  | succ k ih =>
    obtain ⟨hkept, h4, -⟩ := kept_polled regs (inp (t + 136)).ui_in
    obtain ⟨regs', hkept', h4', hp⟩ := @ih (t + 411) (polled regs (inp (t + 136)).ui_in) fun j hj => by
      rw [show t + 411 + 136 + 411 * j = t + 136 + 411 * (j + 1) by omega]
      exact hwait (j + 1) (by omega)
    refine ⟨regs', hkept.trans hkept', h4'.trans h4, poll_turn hP hq h1 h22 ?_⟩
    have h0 := hwait 0 (by omega)
    rw [Nat.mul_zero, Nat.add_zero] at h0
    rw [if_neg (by rw [h0]; cases phaseLevel (n - 1) <;> decide), show t + 411 * (k + 1) = t + 411 + 411 * k by omega]
    exact hp

/-- The rest of the page. -/
theorem leave_page {v : BitVec 8} (hx : readReg regs 1 = v.setWidth 32) : ∃ t' regs', t + 959 ≤ t' ∧ t' ≤ t + 1096 ∧
    (¬ samples n → t' = t + 1096) ∧ Kept regs regs' ∧ readReg regs' 4 = readReg regs 4 ||| word (sampled n v) ∧
      Silent (Paged.step P (Env.chip rom inp).load) out (t, ⟨n, 3, regs, mem⟩) (t', ⟨n + 1, 0, regs', mem⟩) := by
  have hn := hP.page n h1 h22
  have hcount := hP.count
  have hscratch : (receivePage n).scratchReg = 30 := by
    unfold receivePage
    split <;> rfl
  have htarget : (receivePage n).ending.target n = some ((n + 1 : Nat) : Int) := by
    unfold receivePage
    split <;> rfl
  by_cases hs : samples n
  · have hpage : receivePage n = samplePage (1 <<< ((n - 3) / 2)) ((n + 1 : Nat) : Int) := if_pos hs
    obtain ⟨hi3, hi4, hi5, hlen⟩ := sample_instrs (1 <<< ((n - 3) / 2)) ((n + 1 : Nat) : Int)
    rw [← hpage] at hi3 hi4 hi5 hlen
    have hbit : (BitVec.ofInt 12 ((1 <<< ((n - 3) / 2) : Nat) : Int)).signExtend 32 =
        word (BitVec.ofNat 8 (1 <<< ((n - 3) / 2))) := bit_immediate _ (by have := hs.2.2; omega)
    obtain ⟨x₁, hx₁⟩ : ∃ x₁, x₁ = writeReg regs 3 (if data v then 16 else 0) := ⟨_, rfl⟩
    have hx3 : readReg x₁ 3 = if data v then 16 else 0 := by
      rw [hx₁, readReg_writeReg (by decide)]
    have hand : Rv32i.ImmOp.eval .andi (readReg regs 1) ((16 : BitVec 12).signExtend 32) =
        if data v then 16 else 0 := by
      rw [hx]
      exact mask_data v
    cases hd : data v with
    | false =>
      refine ⟨t + 137 + 137 + 137 * 5, writeReg x₁ 30 (BitVec.ofNat 32 (n + 1)), by omega, by omega,
        fun h => absurd hs h, fun r _ _ h3 _ h30 => ?_, ?_, ?_⟩
      · rw [readReg_writeReg_ne h30, hx₁, readReg_writeReg_ne h3]
      · rw [sampled, if_neg (by rw [hd]; simp), or_zero, readReg_writeReg_ne (by decide), hx₁,
          readReg_writeReg_ne (by decide)]
      · refine Paged.chain_imm hP.wf hn (hq n h1 h22) hi3 (Nat.zero_le _) hand ?_
        rw [← hx₁]
        refine Paged.chain_branch hP.wf hn (hq n h1 h22) hi4 (Nat.zero_le _) (by decide) (b := true) ?_ ?_
        · rw [hx3, hd]
          rfl
        rw [if_pos rfl]
        refine Paged.chain_leave hP.wf hn (hq n h1 h22) hlen (Nat.zero_le _) (by omega) htarget ?_
        rw [hscratch]
        exact .refl _
    | true =>
      obtain ⟨x₂, hx₂⟩ : ∃ x₂, x₂ = writeReg x₁ 4 (readReg regs 4 ||| word (sampled n v)) := ⟨_, rfl⟩
      refine ⟨t + 137 + 137 + 137 + 137 * 5, writeReg x₂ 30 (BitVec.ofNat 32 (n + 1)), by omega, by omega,
        fun h => absurd hs h, fun r _ _ h3 h4 h30 => ?_, ?_, ?_⟩
      · rw [readReg_writeReg_ne h30, hx₂, readReg_writeReg_ne h4, hx₁, readReg_writeReg_ne h3]
      · rw [readReg_writeReg_ne (by decide), hx₂, readReg_writeReg (by decide)]
      · refine Paged.chain_imm hP.wf hn (hq n h1 h22) hi3 (Nat.zero_le _) hand ?_
        rw [← hx₁]
        refine Paged.chain_branch hP.wf hn (hq n h1 h22) hi4 (Nat.zero_le _) (by decide) (b := false) ?_ ?_
        · rw [hx3, hd]
          rfl
        rw [if_neg (by decide)]
        refine Paged.chain_imm hP.wf hn (hq n h1 h22) hi5 (Nat.zero_le _)
          (v := readReg regs 4 ||| word (sampled n v)) ?_ ?_
        · rw [hbit, sampled, if_pos ⟨hs, hd⟩, hx₁, readReg_writeReg_ne (by decide)]
          rfl
        rw [← hx₂]
        refine Paged.chain_leave hP.wf hn (hq n h1 h22) hlen (Nat.zero_le _) (by omega) htarget ?_
        rw [hscratch]
        exact .refl _
  · have hpage : receivePage n = waitPage ((n + 1) % 2) ((n + 1 : Nat) : Int) := if_neg hs
    have hlen := wait_instrs ((n + 1) % 2) ((n + 1 : Nat) : Int)
    rw [← hpage] at hlen
    refine ⟨t + 137 * 8, writeReg regs 30 (BitVec.ofNat 32 (n + 1)), by omega, by omega, fun _ => by omega,
      fun r _ _ _ _ h30 => readReg_writeReg_ne h30 _, ?_, ?_⟩
    · rw [sampled, if_neg (fun h => hs h.1), or_zero, readReg_writeReg_ne (by decide)]
    · refine Paged.chain_leave hP.wf hn (hq n h1 h22) hlen (Nat.zero_le _) (by omega) htarget ?_
      rw [hscratch]
      exact .refl _

/-- The whole page, with the sample that sees the level. -/
theorem receive_page {k : Nat} (hk : Detects (fun τ => clock (inp τ).ui_in) 411 (n - 1) (t + 136) k) :
    ∃ t' regs', t + 411 * k + 1370 ≤ t' ∧ t' ≤ t + 411 * k + 1507 ∧
      (¬ samples n → t' = t + 411 * k + 1507) ∧ Kept regs regs' ∧
      readReg regs' 4 = readReg regs 4 ||| word (sampled n (inp (t + 136 + 411 * k)).ui_in) ∧
      Silent (Paged.step P (Env.chip rom inp).load) out (t, ⟨n, 0, regs, mem⟩) (t', ⟨n + 1, 0, regs', mem⟩) := by
  obtain ⟨regs₁, hkept₁, h4₁, hp₁⟩ := @poll_turns _ P out rom inp hP hq n h1 h22 t regs mem k hk.first
  obtain ⟨v, hv⟩ : ∃ v, v = (inp (t + 136 + 411 * k)).ui_in := ⟨_, rfl⟩
  obtain ⟨hkept₂, h4₂, hx⟩ := kept_polled regs₁ v
  obtain ⟨t', regs', hlo, hhi, hexact, hkept₃, h4₃, hp₃⟩ :=
    @leave_page _ P out rom inp hP hq n h1 h22 (t + 411 * k + 411) (polled regs₁ v) mem v hx
  refine ⟨t', regs', by omega, by omega, fun h => by have := hexact h; omega, (hkept₁.trans hkept₂).trans hkept₃, ?_,
    hp₁.trans (poll_turn hP hq h1 h22 ?_)⟩
  · rw [h4₃, h4₂, h4₁, hv]
  · have hseen : clock (inp (t + 411 * k + 136)).ui_in = phaseLevel (n - 1) := by
      rw [show t + 411 * k + 136 = t + 136 + 411 * k by omega]
      exact hk.seen
    rw [if_pos hseen, show t + 411 * k + 136 = t + 136 + 411 * k by omega, ← hv]
    exact hp₃

end Paths

end Ps2

end Pineapple
