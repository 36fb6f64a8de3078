import Pineapple.Boot.Program
import Pineapple.Machine.Proofs.ExecProofs

/-!
# Proofs: running the boot ROM

A state whose program counter is the address of a word of the boot program executes that instruction, in
seven clocks if its data access is on-chip.
-/

namespace Pineapple

open Rv32i (Instr Word Reg)

namespace Boot

/-- The environment of the boot ROM. -/
abbrev env (inp : Nat → Inputs) : Env := Env.chip bootRom inp

/-- The address of a word of the ROM. -/
def addr (j : Nat) : BitVec 8 := BitVec.ofNat 8 (4 * j)

theorem addr_toNat {j : Nat} (hj : j < 44) : (addr j).toNat = 4 * j := by
  rw [addr, BitVec.toNat_ofNat]
  omega

theorem addr_inRom {j : Nat} (hj : j < 44) : (addr j).toNat < 0xB0 ∧ (addr j).toNat % 4 = 0 := by
  rw [addr_toNat hj]
  omega

/-- An aligned address of the ROM is the address of one of its words. -/
theorem exists_addr {pc : BitVec 8} (h1 : pc.toNat < 0xB0) (h2 : pc.toNat % 4 = 0) :
    ∃ j < 44, pc = addr j := by
  refine ⟨pc.toNat / 4, by omega, ?_⟩
  apply BitVec.eq_of_toNat_eq
  rw [addr_toNat (by omega)]
  omega

theorem addr_succ (j : Nat) : addr j + 4 = addr (j + 1) := by
  rw [addr, addr, Nat.mul_succ, BitVec.ofNat_add]
  rfl

theorem program_length : program.length = 44 := rfl

variable {inp : Nat → Inputs} {t j : Nat} {a : Arch} {i : Instr}

theorem lt_of_program (hi : program[j]? = some i) : j < 44 := by
  rw [← program_length]
  exact (List.getElem?_eq_some_iff.mp hi).1

/-- An aligned read of the ROM. -/
theorem rdata_rom (m : MemRegs) (rom : Rom) (gpio_in : BitVec 8) (ext : Word) (hj : j < 44) :
    m.rdata (addr j) rom gpio_in ext = rom (BitVec.ofNat 6 j) := by
  have hrom : in_rom (addr j) = true := by
    rw [in_rom_iff, addr_toNat hj]
    omega
  have hoff : (addr j).extractLsb' 0 2 = 0 := by
    apply BitVec.eq_of_toNat_eq
    rw [BitVec.extractLsb'_toNat, addr_toNat hj]
    show 4 * j >>> 0 % 4 = 0
    omega
  have hidx : (addr j).extractLsb' 2 6 = BitVec.ofNat 6 j := by
    apply BitVec.eq_of_toNat_eq
    rw [BitVec.extractLsb'_toNat, addr_toNat hj, BitVec.toNat_ofNat, Nat.shiftRight_eq_div_pow]
    omega
  rw [MemRegs.rdata, if_pos hrom, rom_word, hoff, hidx, pair_word]
  exact BitVec.extractLsb'_append_eq_right

variable (inp) in
theorem instr_boot (hpc : a.pc = addr j) (hi : program[j]? = some i) :
    (env inp).instr t a = some i := by
  have hj := lt_of_program hi
  have hw : bootRom (BitVec.ofNat 6 j) = bootRomWords.getD j 0 := by
    rw [bootRom, BitVec.toNat_ofNat, Nat.mod_eq_of_lt (by omega)]
  have hdec : Rv32i.decode (bootRomWords.getD j 0) = some i := by
    have h := congrArg (fun l => l[j]?) decode_boot
    simp only [List.getElem?_map, hi, Option.map_some] at h
    obtain ⟨w, hw, hd⟩ := Option.map_eq_some_iff.mp h
    rw [List.getD_eq_getElem?_getD, hw]
    exact hd
  show Rv32i.decode (a.mem.rdata a.pc bootRom _ _) = some i
  rw [hpc, rdata_rom _ _ _ _ hj, hw, hdec]

theorem fetchStall_boot (hpc : a.pc = addr j) (hj : j < 44) : a.fetchStall + 7 = 7 := by
  rw [Arch.fetchStall_rom]
  rw [hpc, addr_toNat hj]
  omega

/-! ## Steps -/

theorem boot_opImm {op : Rv32i.ImmOp} {rd rs1 : Reg} {imm : BitVec 12} (hpc : a.pc = addr j)
    (hi : program[j]? = some (.opImm op rd rs1 imm)) : (env inp).step (t, a) =
      some (t + 7, (a.setReg rd (op.eval (a.reg rs1) (imm.signExtend 32))).goto (addr (j + 1))) := by
  rw [Env.step_opImm (fetchStall_boot hpc (lt_of_program hi)) (instr_boot inp hpc hi), hpc, addr_succ]

theorem boot_shift {op : Rv32i.ShiftOp} {rd rs1 : Reg} {shamt : BitVec 5} (hpc : a.pc = addr j)
    (hi : program[j]? = some (.shift op rd rs1 shamt)) : (env inp).step (t, a) =
      some (t + 7, (a.setReg rd (op.eval (a.reg rs1) shamt)).goto (addr (j + 1))) := by
  rw [Env.step_shift (fetchStall_boot hpc (lt_of_program hi)) (instr_boot inp hpc hi), hpc, addr_succ]

theorem boot_opReg {op : Rv32i.RegOp} {rd rs1 rs2 : Reg} (hpc : a.pc = addr j)
    (hi : program[j]? = some (.opReg op rd rs1 rs2)) : (env inp).step (t, a) =
      some (t + 7, (a.setReg rd (op.eval (a.reg rs1) (a.reg rs2))).goto (addr (j + 1))) := by
  rw [Env.step_opReg (fetchStall_boot hpc (lt_of_program hi)) (instr_boot inp hpc hi), hpc, addr_succ]

variable (inp) in
/-- A branch to the word `k`. -/
theorem boot_branch {op : Rv32i.BranchOp} {rs1 rs2 : Reg} {off : BitVec 13} (k : Nat)
    (hpc : a.pc = addr j) (hi : program[j]? = some (.branch op rs1 rs2 off))
    (hk : addr j + off.setWidth 8 = addr k) : (env inp).step (t, a) =
      some (t + 7, a.goto (addr (if op.holds (a.reg rs1) (a.reg rs2) then k else j + 1))) := by
  rw [Env.step_branch (fetchStall_boot hpc (lt_of_program hi)) (instr_boot inp hpc hi), hpc, addr_succ, hk,
    apply_ite addr]

/-- A jump to the word `k`. -/
theorem boot_jal {rd : Reg} {off : BitVec 21} (k : Nat) (hpc : a.pc = addr j)
    (hi : program[j]? = some (.jal rd off)) (hk : addr j + off.setWidth 8 = addr k) :
    (env inp).step (t, a) =
      some (t + 7, (a.setReg rd ((addr j).setWidth 32 + 4)).goto (addr k)) := by
  rw [Env.step_jal (fetchStall_boot hpc (lt_of_program hi)) (instr_boot inp hpc hi), hpc, hk]

/-- A jump without a link to the word `k`. -/
theorem boot_j {off : BitVec 21} (k : Nat) (hpc : a.pc = addr j)
    (hi : program[j]? = some (.jal 0 off)) (hk : addr j + off.setWidth 8 = addr k) :
    (env inp).step (t, a) = some (t + 7, a.goto (addr k)) := boot_jal k hpc hi hk

/-- A return to the word `k`. -/
theorem boot_jalr {rs1 : Reg} {imm : BitVec 12} {k : Nat} (hpc : a.pc = addr j)
    (hi : program[j]? = some (.jalr 0 rs1 imm))
    (hk : ((a.reg rs1 + imm.signExtend 32) &&& ~~~1).setWidth 8 = addr k) :
    (env inp).step (t, a) = some (t + 7, a.goto (addr k)) := by
  rw [Env.step_jalr (fetchStall_boot hpc (lt_of_program hi)) (instr_boot inp hpc hi), hk]
  rfl

variable (inp) in
/-- A store, with the stall `k` of its address. -/
theorem boot_store (op : Rv32i.StoreOp) {rs2 rs1 : Reg} {imm : BitVec 12} {k : Nat}
    (hpc : a.pc = addr j) (hi : program[j]? = some (.store op rs2 rs1 imm))
    (hk : a.mem.stall ((a.reg rs1 + imm.signExtend 32).setWidth 8) (sizeCode op.width) = k) :
    (env inp).step (t, a) = some (t + (7 + k), (a.setMem (a.mem.write
      ((a.reg rs1 + imm.signExtend 32).setWidth 8) (a.reg rs2) (sizeCode op.width))).goto
        (addr (j + 1))) := by
  rw [Env.step_store (fetchStall_boot hpc (lt_of_program hi)) (instr_boot inp hpc hi) hk, hpc, addr_succ]

/-- A load from GPIO_IN reads the pins six clocks later. -/
theorem boot_gpio (hpc : a.pc = addr j) (hi : program[j]? = some (.load .lw 2 0 0xF4)) :
    (env inp).step (t, a) =
      some (t + 7, (a.setReg 2 ((inp (t + 6)).ui_in.setWidth 32)).goto (addr (j + 1))) := by
  have hf := fetchStall_boot hpc (lt_of_program hi)
  have haddr : (a.reg 0 + (0xF4 : BitVec 12).signExtend 32).setWidth 8 = 0xF4 := rfl
  have hk : a.mem.stall ((a.reg 0 + (0xF4 : BitVec 12).signExtend 32).setWidth 8)
      (sizeCode (Rv32i.LoadOp.width .lw)) = 0 := by
    rw [haddr]
    apply Arch.stall_eq_zero
    rintro (⟨h1, h2⟩ | ⟨h1, h2, h3⟩)
    · exact absurd h2 (by decide)
    · exact absurd h3 (by decide)
  have hd : a.dataStall (.load .lw 2 0 0xF4) = 0 := hk
  have hload : (env inp).load t a (.load .lw 2 0 0xF4) = (inp (t + 6)).ui_in.setWidth 32 := by
    have hf0 : a.fetchStall = 0 := by omega
    show a.mem.rdata 0xF4 bootRom (inp (t + a.fetchStall + a.dataStall _ + 6)).ui_in _ = _
    rw [hd, hf0]
    have hflash : a.mem.in_ext_flash 0xF4 = false := by
      rw [MemRegs.in_ext_flash, show in_load_range 0xF4 = false by decide, Bool.and_false]
    rw [MemRegs.rdata, show in_rom 0xF4 = false by decide, MemRegs.in_ram, MemRegs.in_ext, hflash]
    rfl
  rw [Env.step_load hf (instr_boot inp hpc hi) hk, hload, hpc, addr_succ]
  rfl

end Boot

end Pineapple
