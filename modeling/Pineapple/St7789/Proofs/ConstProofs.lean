import Pineapple.Machine.Proofs.FlowProofs
import Pineapple.Machine.Proofs.StepProofs
import Pineapple.St7789.Contract
import Pineapple.St7789.Pages
import Pineapple.Tools.Proofs.PagedProofs

/-!
# Proofs: the constants that `load_const32` loads

A call without a target appends one word, which decodes to the instruction it names. The words are executed one
after the other, so the register gets the sum of two sign-extended halves.
-/

namespace Pineapple

open Rv32i (Instr Word Reg readReg writeReg)

namespace Core

variable {c : Nat → Core} {ready : Nat → Bool} {rdata : Nat → Word} {t t' : Nat} {ws : List Word}

/-- The words are executed one after the other; none of them loads. -/
theorem Fetched.exec (hc : Run c ready rdata) {is : List Instr} (hs : (c t).state = .fetch)
    (h : Fetched ready rdata t ws t') (hi : ws.map Rv32i.decode = is.map some)
    (hload : ∀ i ∈ is, ∀ op rd rs1 imm, i ≠ .load op rd rs1 imm) :
    (c t').hart = is.foldl (fun x i => i.exec x 0) (c t).hart := by
  induction h generalizing is with
  | nil t =>
    obtain rfl : is = [] := List.map_eq_nil_iff.mp hi.symm
    rfl
  | @cons t m k t' w ws waits word rest ih =>
    cases is with
    | nil => cases hi
    | cons i is =>
      rw [List.map_cons, List.map_cons, List.cons.injEq] at hi
      have hwb := run_wb hc (run_decode hc hs waits.fetch_low waits.fetch_ready) waits.mem_low waits.mem_ready
      have hnext := run_next hc hwb
      rw [word] at hnext
      have hfetch : (c (t + m + k + 7)).state = .fetch := by
        rw [hnext]
        rfl
      rw [ih hfetch hi.2 fun j hj => hload j (List.mem_cons_of_mem _ hj), hnext, nextState_hart hi.1,
        exec_hart_congr (hload i List.mem_cons_self) _ 0]
      rfl

end Core

namespace Asm

/-- Calls without targets append finished words, which decode to the instructions. -/
theorem calls_words {cs : List Call} {fs : List Form} (hf : cs.map Call.form = fs.map some)
    (hr : ∀ f ∈ fs, f.RegsOk) (ht : ∀ f ∈ fs, f.target = none) (a : Asm) :
    ∃ b, ∃ ws : List Nat, a.calls cs = .ok b ∧ b.instrs = a.instrs ++ ws.map some ∧
      ws.map (fun w => Rv32i.decode (BitVec.ofNat 32 w)) = fs.map fun f => some (f.instr 0) := by
  induction cs generalizing fs a with
  | nil =>
    cases fs with
    | nil => exact ⟨a, [], rfl, (List.append_nil _).symm, rfl⟩
    | cons f fs => cases hf
  | cons c cs ih =>
    cases fs with
    | nil => cases hf
    | cons f fs =>
      rw [List.map_cons, List.map_cons, List.cons.injEq] at hf
      obtain ⟨w, fx, hcall, hem⟩ := call_emits hf.1 (hr f List.mem_cons_self) a
      obtain ⟨b, ws, hb, hinstrs, hdec⟩ := ih hf.2 (fun f' h => hr f' (List.mem_cons_of_mem _ h))
        (fun f' h => ht f' (List.mem_cons_of_mem _ h)) (a.emit w fx)
      have hwrap : f.wrap.target = none := by
        have := ht f List.mem_cons_self
        cases f <;> first | rfl | cases this
      obtain ⟨v, rfl, henc⟩ : ∃ v, w = some v ∧ Encoded f.wrap 0 v := by
        generalize f.wrap = g at hem hwrap
        cases hem with
        | word _ h => exact ⟨_, rfl, h 0⟩
        | branch | jal => cases hwrap
      obtain ⟨i, hi, hm⟩ := henc.decodes
      refine ⟨b, v :: ws, bind_ok.mpr ⟨_, hcall, hb⟩, ?_, ?_⟩
      · rw [hinstrs, emit]
        simp
      · rw [List.map_cons, List.map_cons, hdec, hi, Form.eq_instr hm, Form.instr_wrap]

end Asm

namespace St7789

/-! ## The value -/

theorem signExtend_ofInt (v : Int) : (BitVec.ofInt 12 v).signExtend 32 = BitVec.ofInt 32 (v.bmod 4096) := by
  apply BitVec.eq_of_toInt_eq
  have hlo := @Int.le_bmod v (2 ^ 12) (by decide)
  have hhi := @Int.bmod_lt v (2 ^ 12) (by decide)
  rw [BitVec.toInt_signExtend_of_le (by omega), BitVec.toInt_ofInt]
  exact (toInt_ofInt_of_range (n := 31) (v := v.bmod (2 ^ 12)) (by omega) (by omega)).symm

theorem shift_ofInt (v : Int) : BitVec.ofInt 32 v <<< 12 = BitVec.ofInt 32 (v * 4096) := by
  rw [BitVec.shiftLeft_eq_mul_twoPow, BitVec.ofInt_mul]
  rfl

/-- The two halves give the constant back if and only if neither is negative. -/
theorem loaded_eq_iff {value : Int} (h0 : 0 ≤ value) (h1 : value < 2 ^ 24) :
    (loaded value).toNat = value ↔ value % 4096 < 2048 ∧ value < 2 ^ 23 := by
  rw [loaded, BitVec.toNat_ofInt]
  have hlo : (value % 4096).bmod 4096 = if value % 4096 < 2048 then value % 4096 else value % 4096 - 4096 := by
    rw [Int.bmod_def]
    omega
  have hhi : (value / 4096).bmod 4096 = if value < 2 ^ 23 then value / 4096 else value / 4096 - 4096 := by
    rw [Int.bmod_def]
    omega
  rw [hlo, hhi]
  omega

theorem load_const32_eq (p : PagedAsm) (rd scratch : Nat) {value : Int} (h0 : 0 ≤ value) (h1 : value < 2 ^ 24) :
    load_const32 rd value scratch p = p.calls ((constCalls rd scratch value).map .page) := by
  rw [load_const32, if_pos ⟨h0, h1⟩, constCalls]
  by_cases h : value >>> (12 : Nat) = 0
  · simp only [h, ne_eq, not_true_eq_false, if_false]
    rfl
  · simp only [h, ne_eq, not_false_eq_true, if_true]
    rfl

/-! ## What the instructions do -/

/-- The instructions that change nothing but a register and the program counter. -/
def arithmetic : Instr → Bool
  | .opImm _ _ _ _ | .shift _ _ _ _ | .opReg _ _ _ _ => true
  | _ => false

/-- The registers after such an instruction. -/
def effect (regs : Regs) : Instr → Regs
  | .opImm op rd rs1 imm => writeReg regs rd (op.eval (readReg regs rs1) (imm.signExtend 32))
  | .shift op rd rs1 sh => writeReg regs rd (op.eval (readReg regs rs1) sh)
  | .opReg op rd rs1 rs2 => writeReg regs rd (op.eval (readReg regs rs1) (readReg regs rs2))
  | _ => regs

theorem exec_effect {is : List Instr} (h : is.all arithmetic = true) (x : Rv32i.Hart) :
    (is.foldl (fun x i => i.exec x 0) x).regs = is.foldl effect x.regs := by
  induction is generalizing x with
  | nil => rfl
  | cons i is ih =>
    obtain ⟨hi, his⟩ := Bool.and_eq_true_iff.mp h
    rw [List.foldl_cons, List.foldl_cons, ih his]
    congr 1
    cases i with
    | opImm | shift | opReg => rfl
    | _ => cases hi

/-- The instructions of `load_const32`. -/
def constInstrs (rd scratch : Reg) (value : Int) : List Instr :=
  .opImm .addi rd 0 (BitVec.ofInt 12 (lowBits value 12 : Nat)) ::
    if value >>> (12 : Nat) ≠ 0 then
      [.opImm .addi scratch 0 (BitVec.ofInt 12 (value >>> (12 : Nat))), .shift .slli scratch scratch 12,
        .opReg .add rd rd scratch]
    else []

theorem constInstrs_arithmetic (rd scratch : Reg) (value : Int) :
    (constInstrs rd scratch value).all arithmetic = true := by
  unfold constInstrs
  split
  · rfl
  · rfl

/-- The register gets the sum of the two sign-extended halves. -/
theorem const_effect {rd scratch : Reg} (hrd : rd ≠ 0) (hs : scratch ≠ 0) (hne : rd ≠ scratch) (value : Int)
    (x : Regs) :
    readReg ((constInstrs rd scratch value).foldl effect x) rd = loaded value ∧
      ∀ r, r ≠ rd → r ≠ scratch → readReg ((constInstrs rd scratch value).foldl effect x) r = readReg x r := by
  have hlo : (lowBits value 12 : Int) = value % 4096 := by
    rw [lowBits]
    omega
  have hhi : value >>> (12 : Nat) = value / 4096 := Int.shiftRight_eq_div_pow value 12
  -- an ADDI from x0
  have hload : ∀ (x : Regs) (r : Reg) (v : Int),
      effect x (.opImm .addi r 0 (BitVec.ofInt 12 v)) = writeReg x r (BitVec.ofInt 32 (v.bmod 4096)) := by
    intro x r v
    rw [← signExtend_ofInt]
    exact congrArg (writeReg x r) (BitVec.zero_add _)
  rw [constInstrs, hhi, hlo, List.foldl_cons, hload, loaded]
  by_cases hz : value / 4096 = 0
  · rw [if_neg (not_not.mpr hz), hz]
    refine ⟨?_, fun r h1 _ => readReg_writeReg_ne h1 _⟩
    rw [List.foldl_nil, readReg_writeReg hrd]
    simp
  · rw [if_pos hz, List.foldl_cons, hload]
    -- the register file before each of the last two instructions
    obtain ⟨x₁, hx₁⟩ : ∃ x₁, x₁ = writeReg x rd (BitVec.ofInt 32 ((value % 4096).bmod 4096)) := ⟨_, rfl⟩
    obtain ⟨x₂, hx₂⟩ : ∃ x₂, x₂ = writeReg x₁ scratch (BitVec.ofInt 32 ((value / 4096).bmod 4096)) := ⟨_, rfl⟩
    obtain ⟨x₃, hx₃⟩ : ∃ x₃, x₃ = writeReg x₂ scratch (readReg x₂ scratch <<< 12) := ⟨_, rfl⟩
    have hregs : [Instr.shift .slli scratch scratch 12, .opReg .add rd rd scratch].foldl effect x₂ =
        writeReg x₃ rd (readReg x₃ rd + readReg x₃ scratch) := by
      rw [hx₃]
      rfl
    rw [← hx₁, ← hx₂, hregs]
    have hrd₃ : readReg x₃ rd = BitVec.ofInt 32 ((value % 4096).bmod 4096) := by
      rw [hx₃, readReg_writeReg_ne hne, hx₂, readReg_writeReg_ne hne, hx₁, readReg_writeReg hrd]
    have hs₃ : readReg x₃ scratch = BitVec.ofInt 32 ((value / 4096).bmod 4096 * 4096) := by
      rw [hx₃, readReg_writeReg hs, hx₂, readReg_writeReg hs, shift_ofInt]
    rw [hrd₃, hs₃, ← BitVec.ofInt_add]
    refine ⟨readReg_writeReg hrd _, fun r h1 h2 => ?_⟩
    rw [readReg_writeReg_ne h1, hx₃, readReg_writeReg_ne h2, hx₂, readReg_writeReg_ne h2, hx₁,
      readReg_writeReg_ne h1]

section Run

variable {c : Nat → Core} {ready : Nat → Bool} {rdata : Nat → Word} {t t' rd scratch : Nat} {value : Int}

theorem reg_ne {m n : Nat} (hm : m < 32) (hn : n < 32) (h : m ≠ n) : BitVec.ofNat 5 m ≠ BitVec.ofNat 5 n := by
  intro he
  have := congrArg BitVec.toNat he
  rw [BitVec.toNat_ofNat, BitVec.toNat_ofNat] at this
  omega

/-- What the instructions of `load_const32` do. -/
theorem loads_of_fetched (hrd : 0 < rd ∧ rd < 32) (hs : 0 < scratch ∧ scratch < 32) (hne : rd ≠ scratch)
    (hc : Core.Run c ready rdata) (hf : (c t).state = .fetch) {ws : List Word} (hx : Core.Fetched ready rdata t ws t')
    (hdec : ws.map Rv32i.decode =
      ((constCalls rd scratch value).filterMap Call.form).map fun f => some (f.instr 0)) :
    readReg (c t').regs (BitVec.ofNat 5 rd) = loaded value ∧
      ∀ r, r ≠ BitVec.ofNat 5 rd → r ≠ BitVec.ofNat 5 scratch → readReg (c t').regs r = readReg (c t).regs r := by
  obtain ⟨is, his⟩ : ∃ is, is = constInstrs (BitVec.ofNat 5 rd) (BitVec.ofNat 5 scratch) value := ⟨_, rfl⟩
  have har : is.all arithmetic = true := his ▸ constInstrs_arithmetic _ _ value
  have hwords : ws.map Rv32i.decode = is.map some := by
    rw [hdec, his, constCalls, constInstrs]
    split
    · rfl
    · rfl
  have hhart := Core.Fetched.exec hc hf hx hwords fun i hi op r r' imm he => by
    have := List.all_eq_true.mp har i hi
    rw [he] at this
    cases this
  have hregs : (c t').regs = is.foldl effect (c t).regs :=
    (congrArg Rv32i.Hart.regs hhart).trans (exec_effect har (c t).hart)
  rw [hregs, his]
  exact const_effect (reg_ne (n := 0) hrd.2 (by decide) (by omega)) (reg_ne (n := 0) hs.2 (by decide) (by omega))
    (reg_ne hrd.2 hs.2 hne) _ _

/-- `load_const32` emits words for every constant that it admits. They load the constant, and change no other
register, if and only if neither half is negative when it is sign-extended: bits 11 and 23 are clear. -/
theorem load_const32_iff (p : PagedAsm) (hrd : 0 < rd ∧ rd < 32) (hs : 0 < scratch ∧ scratch < 32)
    (hne : rd ≠ scratch) (h0 : 0 ≤ value) (h1 : value < 2 ^ 24) :
    ∃ q, ∃ ws : List Nat, load_const32 rd value scratch p = .ok q ∧
      q._cur.instrs = p._cur.instrs ++ ws.map some ∧
      ∀ c ready rdata t t', Core.Run c ready rdata → (c t).state = .fetch →
        Core.Fetched ready rdata t (ws.map (BitVec.ofNat 32)) t' →
        (LoadsConst c t t' rd scratch value ↔ value % 4096 < 2048 ∧ value < 2 ^ 23) := by
  have hforms : (constCalls rd scratch value).map Call.form =
      ((constCalls rd scratch value).filterMap Call.form).map some := by
    rw [constCalls]
    split <;> rfl
  have hregs : ∀ f ∈ (constCalls rd scratch value).filterMap Call.form, f.RegsOk ∧ f.target = none := by
    rw [constCalls]
    split <;> simp [Call.form, Form.RegsOk, Form.regs, Form.target, hrd.2, hs.2]
  obtain ⟨a, ws, ha, hinstrs, hdec⟩ :=
    Asm.calls_words hforms (fun f hf => (hregs f hf).1) (fun f hf => (hregs f hf).2) p._cur
  refine ⟨_, ws, (load_const32_eq p rd scratch h0 h1).trans (PagedAsm.calls_page ha), hinstrs, ?_⟩
  intro c ready rdata t t' hc hf hx
  obtain ⟨hv, hrest⟩ := loads_of_fetched hrd hs hne hc hf hx (by rw [List.map_map]; exact hdec)
  rw [LoadsConst, hv, loaded_eq_iff h0 h1]
  exact and_iff_left hrest

end Run

/-- The pixel count of a 240x240 panel. -/
theorem load_const32_iff_panel :
    ∃ q, ∃ ws : List Nat, load_const32 5 57600 8 .default = .ok q ∧
      q._cur.instrs = PagedAsm.default._cur.instrs ++ ws.map some ∧
      ∀ c ready rdata t t', Core.Run c ready rdata → (c t).state = .fetch →
        Core.Fetched ready rdata t (ws.map (BitVec.ofNat 32)) t' →
        (LoadsConst c t t' 5 8 57600 ↔ (57600 : Int) % 4096 < 2048 ∧ (57600 : Int) < 2 ^ 23) :=
  load_const32_iff .default (by decide) (by decide) (by decide) (by decide) (by decide)

/-- For 2048 the only instruction is an ADDI whose immediate is negative. -/
theorem load_const32_fails :
    let rdata : Nat → Word := fun _ => 0x80000293
    let c := Clocked.run (fun c (i : Bool × Word) => Core.step c i.1 i.2) (fun t => (true, rdata t))
      ⟨.fetch, 0xB8, 0, 0, 0, fun _ => 0, 0, 0, 0, false, false⟩
    ∃ q, load_const32 5 2048 8 .default = .ok q ∧ q._cur.instrs = PagedAsm.default._cur.instrs ++ [some 0x80000293] ∧
      Core.Run c (fun _ => true) rdata ∧ (c 0).state = .fetch ∧
      Core.Fetched (fun _ => true) rdata 0 [0x80000293] 7 ∧ ¬ LoadsConst c 0 7 5 8 2048 := by
  intro rdata c
  refine ⟨_, rfl, rfl, fun _ => rfl, rfl, ?_, ?_⟩
  · exact .cons (m := 0) (k := 0) ⟨by simp, rfl, by simp, rfl⟩ rfl (.nil 7)
  · rintro ⟨hv, -⟩
    have hne : ¬ ((readReg (c 7).regs 5).toNat : Int) = 2048 := by decide +kernel
    exact hne hv

end St7789

end Pineapple
