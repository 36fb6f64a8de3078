import Pineapple.Rtl.Agreement
import Pineapple.Rtl.Proofs.MemProofs

/-!
# Proofs: agreement of two chips

The relation `Low` between two chips is kept by every clock edge as long as they fetch from the ROM: it is the same in
all registers but the register file, the ALU's result and the RAM, and in those as far as the points say.
-/

namespace Pineapple

/-! ## Words -/

theorem Agree.refl (n : Nat) (v : BitVec 32) : Agree n v v := fun _ _ => rfl

theorem Agree.mono {n m : Nat} {v v' : BitVec 32} (h : Agree n v v') (hm : m ≤ n) : Agree m v v' :=
  fun j hj => h j (Nat.lt_of_lt_of_le hj hm)

theorem agree_zero (v v' : BitVec 32) : Agree 0 v v' := fun _ hj => absurd hj (Nat.not_lt_zero _)

theorem Agree.eq {v v' : BitVec 32} (h : Agree 32 v v') : v = v' := BitVec.eq_of_getLsbD_eq h

/-- A mask of bits that agree. -/
theorem Agree.and {n : Nat} {v v' mask : BitVec 32} (h : Agree n v v') (hmask : mask.toNat < 1 <<< n) :
    v &&& mask = v' &&& mask := by
  refine BitVec.eq_of_getLsbD_eq fun i _ => ?_
  rw [BitVec.getLsbD_and, BitVec.getLsbD_and]
  by_cases hi : i < n
  · rw [h i hi]
  · have hfalse : mask.getLsbD i = false := by
      rw [Nat.one_shiftLeft] at hmask
      exact Nat.testBit_lt_two_pow (Nat.lt_of_lt_of_le hmask (Nat.pow_le_pow_right (by decide) (Nat.not_lt.mp hi)))
    rw [hfalse, Bool.and_false, Bool.and_false]

/-- Low bits of a loaded word, whatever the load does with the rest. -/
theorem Agree.load_value {n : Nat} {v v' : BitVec 32} (h : Agree n v v') (hn : n ≤ 8) (ir : BitVec 32) :
    Agree n (Ir.load_value ir v) (Ir.load_value ir v') := by
  intro j hj
  have hbit := h j hj
  have h8 : j < 8 := by omega
  unfold Ir.load_value
  split <;> simp only [BitVec.getLsbD_signExtend, BitVec.getLsbD_setWidth, BitVec.getLsbD_extractLsb', Nat.zero_add,
    if_pos, h8, show j < 16 by omega, hbit]

/-! ## Instructions -/

namespace Point

/-- The registers agree as the point says. -/
structure Holds (p : Point) (c c' : Core) : Prop where
  pc : c.pc = p.pc
  regs : ∀ r, r ≠ 0 → Agree (p.bits r) (c.regs r) (c'.regs r)
  link : ∀ v, p.link = some v → (c.regs 1).extractLsb' 0 8 = v ∧ (c'.regs 1).extractLsb' 0 8 = v

/-- What `ST_EXEC` has computed. -/
structure Computed (p : Point) (c c' : Core) : Prop where
  next_pc : c.next_pc = c'.next_pc
  target : c.next_pc ∈ p.targets c.ir
  alu : Agree (p.aluBits c.ir) c.alu_result c'.alu_result

variable {p : Point} {c c' : Core} {ir : BitVec 32} {pins : Nat}

theorem Holds.rs1 (h : p.Holds c c') (ir : BitVec 32) :
    Agree (p.bits (Ir.rs1 ir)) (Ir.rs1_val ir c.regs) (Ir.rs1_val ir c'.regs) := by
  unfold Ir.rs1_val
  split
  · exact .refl _ _
  · rename_i hr
    exact h.regs _ hr

theorem Holds.rs2 (h : p.Holds c c') (ir : BitVec 32) :
    Agree (p.bits (Ir.rs2 ir)) (Ir.rs2_val ir c.regs) (Ir.rs2_val ir c'.regs) := by
  unfold Ir.rs2_val
  split
  · exact .refl _ _
  · rename_i hr
    exact h.regs _ hr

theorem Holds.rs1_eq (h : p.Holds c c') (hb : p.bits (Ir.rs1 ir) = 32) :
    Ir.rs1_val ir c.regs = Ir.rs1_val ir c'.regs := (hb ▸ h.rs1 ir).eq

theorem Holds.rs2_eq (h : p.Holds c c') (hb : p.bits (Ir.rs2 ir) = 32) :
    Ir.rs2_val ir c.regs = Ir.rs2_val ir c'.regs := (hb ▸ h.rs2 ir).eq

/-- The ALU's result of an instruction with an immediate operand. -/
theorem alu_y_imm (himm : Ir.opcode ir = OP_IMM ∨ Ir.opcode ir = OP_LOAD ∨ Ir.opcode ir = OP_STORE) (regs : Regs) :
    Ir.alu_y ir regs = alu (Ir.alu_op ir) (Ir.rs1_val ir regs)
      (if Ir.opcode ir = OP_STORE then Ir.imm_s ir else Ir.imm_i ir) := by
  unfold Ir.alu_y Ir.alu_a Ir.alu_b
  rcases himm with h | h | h <;> simp [h, OP_IMM, OP_LOAD, OP_STORE]

theorem Holds.address (h : p.Holds c c') (hmem : Ir.opcode ir = OP_LOAD ∨ Ir.opcode ir = OP_STORE)
    (hb : p.bits (Ir.rs1 ir) = 32) : Ir.alu_y ir c.regs = Ir.alu_y ir c'.regs := by
  rw [alu_y_imm (.inr hmem), alu_y_imm (.inr hmem), h.rs1_eq hb]

/-- The ALU's result agrees in the bits that the point says. -/
theorem Holds.alu (h : p.Holds c c') (ir : BitVec 32) :
    Agree (p.aluBits ir) (Ir.alu_y ir c.regs) (Ir.alu_y ir c'.regs) := by
  unfold aluBits
  by_cases himm : Ir.opcode ir = OP_IMM
  · rw [if_pos himm, alu_y_imm (.inl himm), alu_y_imm (.inl himm)]
    split
    · rename_i hb
      rcases hb with hb | ⟨hand, hmask⟩
      · rw [h.rs1_eq hb]
        exact .refl _ _
      · have hop : Ir.alu_op ir = 9 := by
          unfold Ir.alu_op
          rw [if_pos himm, hand]
          rfl
        have hstore : ¬ Ir.opcode ir = OP_STORE := by
          rw [himm]
          decide
        rw [hop, if_neg hstore]
        show Agree 32 (Ir.rs1_val ir c.regs &&& Ir.imm_i ir) (Ir.rs1_val ir c'.regs &&& Ir.imm_i ir)
        rw [(h.rs1 ir).and hmask]
        exact .refl _ _
    · exact agree_zero _ _
  · rw [if_neg himm]
    split
    · rename_i hb
      have hreg : Ir.alu_b ir c.regs = Ir.alu_b ir c'.regs := by
        unfold Ir.alu_b
        rw [h.rs2_eq hb.2]
      unfold Ir.alu_y Ir.alu_a
      rw [h.rs1_eq hb.1, hreg]
      exact .refl _ _
    · exact agree_zero _ _

/-- The next PC is the same, and it is one of the targets. -/
theorem Holds.next_pc (h : p.Holds c c') (hpc : c.pc = c'.pc) (hallowed : p.Allowed ir) :
    Ir.next_pc ir c.regs c.pc = Ir.next_pc ir c'.regs c'.pc ∧ Ir.next_pc ir c.regs c.pc ∈ p.targets ir := by
  unfold Ir.next_pc targets
  rw [← hpc, h.pc]
  by_cases hjal : Ir.opcode ir = OP_JAL
  · rw [if_pos hjal, if_pos hjal, if_pos hjal]
    exact ⟨rfl, List.mem_singleton.mpr rfl⟩
  rw [if_neg hjal, if_neg hjal, if_neg hjal]
  by_cases hjalr : Ir.opcode ir = OP_JALR
  · rw [if_pos hjalr, if_pos hjalr, if_pos hjalr]
    obtain ⟨hrs1, hlink⟩ := hallowed.jalr hjalr
    obtain ⟨v, hv⟩ := Option.isSome_iff_exists.mp hlink
    have hval : ∀ regs : Regs, Ir.rs1_val ir regs = regs 1 := by
      intro regs
      unfold Ir.rs1_val
      rw [hrs1]
      rfl
    obtain ⟨h1, h1'⟩ := h.link v hv
    rw [hval, hval, h1, h1', hv]
    exact ⟨rfl, List.mem_singleton.mpr rfl⟩
  rw [if_neg hjalr, if_neg hjalr, if_neg hjalr]
  by_cases hbranch : Ir.opcode ir = OP_BRANCH
  · rw [if_pos hbranch, if_pos hbranch, if_pos hbranch]
    obtain ⟨hb1, hb2⟩ := hallowed.branch hbranch
    have hcond : Ir.branch_cond ir c.regs = Ir.branch_cond ir c'.regs := by
      unfold Ir.branch_cond
      rw [h.rs1_eq hb1, h.rs2_eq hb2]
    rw [hcond]
    refine ⟨rfl, ?_⟩
    split <;> simp
  · rw [if_neg hbranch, if_neg hbranch, if_neg hbranch]
    exact ⟨rfl, List.mem_singleton.mpr rfl⟩

/-- An instruction that does not write the register. -/
theorem writeback_ne (regs : Regs) (pc : BitVec 8) (res d : BitVec 32) {r : BitVec 5} (hr : Ir.rd ir ≠ r) :
    Ir.writeback ir regs pc res d r = regs r := by
  unfold Ir.writeback
  split_ifs <;> simp [Function.update_of_ne (Ne.symm hr)]

/-- The register file after `ST_WB`. -/
theorem Holds.writeback (h : p.Holds c c') (hpc : c.pc = c'.pc) {d d' : BitVec 32}
    (halu : Agree (p.aluBits ir) c.alu_result c'.alu_result)
    (hload : Ir.opcode ir = OP_LOAD → Agree (loadBits ir pins) (Ir.load_value ir d) (Ir.load_value ir d'))
    {r : BitVec 5} (hr : r ≠ 0) : Agree (p.afterBits ir pins r) (Ir.writeback ir c.regs c.pc c.alu_result d r)
      (Ir.writeback ir c'.regs c'.pc c'.alu_result d' r) := by
  unfold afterBits
  by_cases hrd : Ir.rd ir = r
  · have hne : Ir.rd ir ≠ 0 := hrd ▸ hr
    rw [if_pos hrd]
    unfold Ir.writeback resultBits
    rw [← hpc, if_pos hne, if_pos hne, hrd]
    by_cases hlui : Ir.opcode ir = OP_LUI
    · rw [if_pos hlui, if_pos hlui, if_pos (.inl hlui), Function.update_self, Function.update_self]
      exact .refl _ _
    by_cases hauipc : Ir.opcode ir = OP_AUIPC
    · rw [if_neg hlui, if_neg hlui, if_pos hauipc, if_pos hauipc, if_pos (.inr (.inl hauipc)), Function.update_self,
        Function.update_self]
      exact .refl _ _
    rw [if_neg hlui, if_neg hlui, if_neg hauipc, if_neg hauipc]
    by_cases hjal : Ir.opcode ir = OP_JAL
    · rw [if_pos hjal, if_pos hjal, if_pos (.inr (.inr (.inl hjal))), Function.update_self, Function.update_self]
      exact .refl _ _
    by_cases hjalr : Ir.opcode ir = OP_JALR
    · rw [if_neg hjal, if_neg hjal, if_pos hjalr, if_pos hjalr, if_pos (.inr (.inr (.inr hjalr))), Function.update_self,
        Function.update_self]
      exact .refl _ _
    have hnone : ¬ (Ir.opcode ir = OP_LUI ∨ Ir.opcode ir = OP_AUIPC ∨ Ir.opcode ir = OP_JAL ∨
        Ir.opcode ir = OP_JALR) := by
      simp [hlui, hauipc, hjal, hjalr]
    rw [if_neg hjal, if_neg hjal, if_neg hjalr, if_neg hjalr, if_neg hnone]
    by_cases hl : Ir.opcode ir = OP_LOAD
    · rw [if_pos hl, if_pos hl, if_pos hl, Function.update_self, Function.update_self]
      exact hload hl
    rw [if_neg hl, if_neg hl, if_neg hl]
    by_cases hop : Ir.opcode ir = OP_IMM ∨ Ir.opcode ir = OP_REG
    · rw [if_pos hop, if_pos hop, if_pos hop, Function.update_self, Function.update_self]
      exact halu
    · rw [if_neg hop, if_neg hop, if_neg hop]
      exact h.regs r hr
  · rw [if_neg hrd, writeback_ne _ _ _ _ hrd, writeback_ne _ _ _ _ hrd]
    exact h.regs r hr

/-- What is in `x1` after a call. -/
theorem writeback_link (regs : Regs) (pc : BitVec 8) (res d : BitVec 32) (hrd : Ir.rd ir = 1)
    (hjal : Ir.opcode ir = OP_JAL) : (Ir.writeback ir regs pc res d 1).extractLsb' 0 8 = pc + 4 := by
  have hval : Ir.writeback ir regs pc res d 1 = pc.setWidth 32 + 4 := by
    unfold Ir.writeback
    rw [hrd, hjal]
    simp [OP_LUI, OP_AUIPC, OP_JAL]
  have hpc := pc.isLt
  have h4 : (4 : BitVec 32).toNat = 4 ∧ (4 : BitVec 8).toNat = 4 := ⟨rfl, rfl⟩
  rw [hval]
  apply BitVec.eq_of_toNat_eq
  rw [BitVec.extractLsb'_toNat, Nat.shiftRight_zero, BitVec.toNat_add, BitVec.toNat_add, BitVec.toNat_setWidth, h4.1,
    h4.2]
  omega

/-- The point that the next instruction is at. -/
theorem Holds.next (h : p.Holds c c') (hpc : c.pc = c'.pc) {q : Point} (hq : p.Covers ir pins q) {d d' : BitVec 32}
    (halu : Agree (p.aluBits ir) c.alu_result c'.alu_result)
    (hload : Ir.opcode ir = OP_LOAD → Agree (loadBits ir pins) (Ir.load_value ir d) (Ir.load_value ir d'))
    {n n' : Core} (hpc' : n.pc = q.pc) (hn : n.regs = Ir.writeback ir c.regs c.pc c.alu_result d)
    (hn' : n'.regs = Ir.writeback ir c'.regs c'.pc c'.alu_result d') : q.Holds n n' := by
  obtain ⟨hlink, hknown⟩ := hq
  refine ⟨hpc', fun r hr => ?_, fun v hv => ?_⟩
  · unfold bits
    rw [if_neg hr]
    cases hl : q.known.lookup r with
    | none => exact agree_zero _ _
    | some n =>
      obtain ⟨l₁, l₂, hsplit, -⟩ := List.lookup_eq_some_iff.mp hl
      have hle := hknown (r, n) (hsplit ▸ by simp)
      rw [hn, hn', Option.getD_some]
      exact (h.writeback hpc halu hload hr).mono hle
  · rcases hlink with hlink | hlink
    · exact absurd (hlink.symm.trans hv) (by simp)
    rw [hlink] at hv
    unfold afterLink at hv
    rw [hn, hn']
    by_cases hrd : Ir.rd ir = 1
    · rw [if_pos hrd] at hv
      by_cases hjal : Ir.opcode ir = OP_JAL
      · rw [if_pos hjal] at hv
        rw [writeback_link _ _ _ _ hrd hjal, writeback_link _ _ _ _ hrd hjal, ← hpc, h.pc]
        exact ⟨Option.some.inj hv, Option.some.inj hv⟩
      · rw [if_neg hjal] at hv
        cases hv
    · rw [if_neg hrd] at hv
      rw [writeback_ne _ _ _ _ hrd, writeback_ne _ _ _ _ hrd]
      exact h.link v hv

/-- How far two cores are with the instruction at the point. -/
def Stage (p : Point) (rom : Rom) (c c' : Core) : Prop :=
  match c.state with
  | .fetch => True
  | .fetchWait | .decode => c.mem_addr = c.pc
  | .exec => c.ir = rom_word c.pc rom
  | .mem => c.ir = rom_word c.pc rom ∧ p.Computed c c'
  | .memWait | .wb => c.ir = rom_word c.pc rom ∧ p.Computed c c' ∧
      (Ir.opcode c.ir = OP_LOAD → c.mem_addr = (Ir.alu_y c.ir c.regs).extractLsb' 0 8)

end Point

/-- Two cores that agree as far as the points say. -/
structure Core.Low (rom : Rom) (Γ : List Point) (c c' : Core) : Prop where
  state : c.state = c'.state
  pc : c.pc = c'.pc
  ir : c.ir = c'.ir
  bus : c.bus = c'.bus
  place : (∃ p ∈ Γ, p.Holds c c' ∧ p.Stage rom c c') ∨ (c.state = .fetch ∧ in_rom c.pc = false)

/-- What the cores read agrees. -/
structure Core.SameReads (rom : Rom) (pins : Nat) (c : Core) (d d' : BitVec 32) : Prop where
  decode : c.state = .decode → d = rom_word c.pc rom ∧ d' = rom_word c.pc rom
  load : c.state = .wb → Ir.opcode c.ir = OP_LOAD →
    Agree (Point.loadBits c.ir pins) (Ir.load_value c.ir d) (Ir.load_value c.ir d')

namespace Point

variable {p : Point} {c c' n n' : Core}

theorem Holds.congr (h : p.Holds c c') (hpc : n.pc = c.pc) (hn : n.regs = c.regs) (hn' : n'.regs = c'.regs) :
    p.Holds n n' where
  pc := hpc.trans h.pc
  regs := by
    rw [hn, hn']
    exact h.regs
  link := by
    rw [hn, hn']
    exact h.link

end Point

section Core

variable {rom : Rom} {Γ : List Point} {pins : Nat} {c c' : Core} {d d' : BitVec 32}

/-- What a load or a store puts on the bus agrees. -/
theorem Core.Low.mem_bus (h : Core.Low rom Γ c c') (hΓ : ∀ p ∈ Γ, p.Checks pins rom Γ) (hst : c.state = .mem) :
    (Ir.opcode c.ir = OP_LOAD ∨ Ir.opcode c.ir = OP_STORE → Ir.alu_y c.ir c.regs = Ir.alu_y c'.ir c'.regs) ∧
      (Ir.opcode c.ir = OP_STORE → Ir.rs2_val c.ir c.regs = Ir.rs2_val c'.ir c'.regs) := by
  rcases h.place with ⟨p, hp, hholds, hstage⟩ | ⟨hf, -⟩
  · unfold Point.Stage at hstage
    rw [hst] at hstage
    obtain ⟨hir, -⟩ := hstage
    have hallowed := (hΓ p hp).allowed
    rw [← hholds.pc, ← hir] at hallowed
    rw [← h.ir]
    refine ⟨fun hop => ?_, fun hop => hholds.rs2_eq (hallowed.store hop).2⟩
    rcases hop with hop | hop
    · exact hholds.address (.inl hop) (hallowed.load hop)
    · exact hholds.address (.inr hop) (hallowed.store hop).1
  · rw [hst] at hf
    cases hf

/-- One clock edge of the cores. -/
theorem Core.Low.step (h : Core.Low rom Γ c c') (hΓ : ∀ p ∈ Γ, p.Checks pins rom Γ) (ready : Bool)
    (hd : c.SameReads rom pins d d') (hrom : c.state = .fetch → in_rom c.pc = true) :
    Core.Low rom Γ (c.step ready d) (c'.step ready d') := by
  obtain ⟨hstate, hpc, hir, hbus, hplace⟩ := id h
  have haddr : c.mem_addr = c'.mem_addr := congrArg Bus.addr hbus
  have hwdata : c.mem_wdata = c'.mem_wdata := congrArg Bus.wdata hbus
  have hsize : c.mem_size = c'.mem_size := congrArg Bus.size hbus
  have hwe : c.mem_we = c'.mem_we := congrArg Bus.we hbus
  have hvalid : c.mem_valid = c'.mem_valid := congrArg Bus.valid hbus
  obtain ⟨p, hp, hholds, hstage⟩ : ∃ p ∈ Γ, p.Holds c c' ∧ p.Stage rom c c' := by
    rcases hplace with hplace | ⟨hf, hout⟩
    · exact hplace
    · exact absurd (hrom hf) (by simp [hout])
  have hcheck := hΓ p hp
  unfold Point.Stage at hstage
  cases hst : c.state with
  | fetch =>
    have hst' : c'.state = .fetch := hstate.symm.trans hst
    simp only [Core.step, hst, hst']
    exact ⟨rfl, hpc, hir, by simp [Core.bus, hpc, hwdata], .inl ⟨p, hp, hholds.congr rfl rfl rfl, rfl⟩⟩
  | fetchWait =>
    have hst' : c'.state = .fetchWait := hstate.symm.trans hst
    rw [hst] at hstage
    simp only [Core.step, hst, hst']
    cases ready with
    | false => exact h
    | true =>
      exact ⟨rfl, hpc, hir, by simp [Core.bus, haddr, hwdata, hsize, hwe],
        .inl ⟨p, hp, hholds.congr rfl rfl rfl, hstage⟩⟩
  | decode =>
    have hst' : c'.state = .decode := hstate.symm.trans hst
    obtain ⟨hd, hd'⟩ := hd.decode hst
    simp only [Core.step, hst, hst']
    exact ⟨rfl, hpc, hd.trans hd'.symm, hbus, .inl ⟨p, hp, hholds.congr rfl rfl rfl, hd⟩⟩
  | exec =>
    have hst' : c'.state = .exec := hstate.symm.trans hst
    rw [hst] at hstage
    have hallowed := hcheck.allowed
    rw [← hholds.pc, ← hstage] at hallowed
    obtain ⟨hnext, htarget⟩ := hholds.next_pc hpc hallowed
    simp only [Core.step, hst, hst', ← hir]
    exact ⟨rfl, hpc, rfl, hbus, .inl ⟨p, hp, hholds.congr rfl rfl rfl, hstage, hnext, htarget, hholds.alu _⟩⟩
  | mem =>
    have hst' : c'.state = .mem := hstate.symm.trans hst
    rw [hst] at hstage
    obtain ⟨hrw, hcomp⟩ := hstage
    obtain ⟨halu, hrs2⟩ := h.mem_bus hΓ hst
    rw [← hir] at halu hrs2
    simp only [Core.step, hst, hst', ← hir]
    by_cases hl : Ir.opcode c.ir = OP_LOAD
    · rw [if_pos hl, if_pos hl]
      exact ⟨rfl, hpc, rfl, by simp [Core.bus, hwdata, halu (.inl hl)], .inl ⟨p, hp, hholds.congr rfl rfl rfl, hrw,
        ⟨hcomp.next_pc, hcomp.target, hcomp.alu⟩, fun _ => rfl⟩⟩
    rw [if_neg hl, if_neg hl]
    by_cases hs : Ir.opcode c.ir = OP_STORE
    · rw [if_pos hs, if_pos hs]
      exact ⟨rfl, hpc, rfl, by simp [Core.bus, hrs2 hs, halu (.inr hs)], .inl ⟨p, hp, hholds.congr rfl rfl rfl, hrw,
        ⟨hcomp.next_pc, hcomp.target, hcomp.alu⟩, fun h => absurd h hl⟩⟩
    · rw [if_neg hs, if_neg hs]
      exact ⟨rfl, hpc, rfl, by simp [Core.bus, haddr, hwdata, hsize], .inl ⟨p, hp, hholds.congr rfl rfl rfl, hrw,
        ⟨hcomp.next_pc, hcomp.target, hcomp.alu⟩, fun h => absurd h hl⟩⟩
  | memWait =>
    have hst' : c'.state = .memWait := hstate.symm.trans hst
    rw [hst] at hstage
    simp only [Core.step, hst, hst']
    cases ready with
    | false => exact h
    | true =>
      obtain ⟨hrw, hcomp, hload⟩ := hstage
      exact ⟨rfl, hpc, hir, by simp [Core.bus, haddr, hwdata, hsize], .inl ⟨p, hp, hholds.congr rfl rfl rfl, hrw,
        ⟨hcomp.next_pc, hcomp.target, hcomp.alu⟩, hload⟩⟩
  | wb =>
    have hst' : c'.state = .wb := hstate.symm.trans hst
    rw [hst] at hstage
    obtain ⟨hrw, hcomp, -⟩ := hstage
    have hcovered := hcheck.covered
    rw [← hholds.pc, ← hrw] at hcovered
    simp only [Core.step, hst, hst', ← hir]
    refine ⟨rfl, hcomp.next_pc, rfl, by simp [Core.bus, haddr, hwdata, hsize, hvalid], ?_⟩
    rcases hcovered _ hcomp.target with hout | ⟨q, hq, hqpc, hcov⟩
    · exact .inr ⟨rfl, hout⟩
    · exact .inl ⟨q, hq, hholds.next hpc hcov hcomp.alu (hd.load hst) hqpc.symm rfl rfl, trivial⟩

end Core

/-! ## The engine -/

/-- Two engines that are the same, except perhaps for what the reset does not initialise: these are written before
they are read. -/
def Qspi.Same (e e' : Qspi) : Prop :=
  e' = e ∨ (e.state = .idle ∧ ∃ n b d, e' = { e with nbits_total := n, bits_done := b, data_bits := d })

namespace Qspi.Same

variable {e e' : Qspi}

theorem step (h : Same e e') (req : Req) (miso : Bool) : Same (e.step req miso) (e'.step req miso) := by
  rcases h with rfl | ⟨hst, n, b, d, rfl⟩
  · exact .inl rfl
  · unfold Qspi.step
    rw [hst]
    by_cases hv : req.valid = true
    · simp only [hv, if_true]
      exact .inl rfl
    · simp only [hv]
      exact .inr ⟨rfl, n, b, d, rfl⟩

theorem state (h : Same e e') : e.state = e'.state := by
  rcases h with rfl | ⟨-, n, b, d, rfl⟩ <;> rfl

theorem req_ready (h : Same e e') : e.req_ready = e'.req_ready := by
  rcases h with rfl | ⟨-, n, b, d, rfl⟩ <;> rfl

theorem req_rdata (h : Same e e') : e.req_rdata = e'.req_rdata := by
  rcases h with rfl | ⟨-, n, b, d, rfl⟩ <;> rfl

theorem pins (h : Same e e') : e.pins0 = e'.pins0 ∧ e.pins1 = e'.pins1 := by
  rcases h with rfl | ⟨-, n, b, d, rfl⟩ <;> exact ⟨rfl, rfl⟩

theorem reset (e e' : Qspi) : Same e.reset e'.reset := .inr ⟨rfl, _, _, _, rfl⟩

end Qspi.Same

/-! ## The memory -/

/-- The registers that the program writes, but for the RAM. -/
structure MemRegs.SameRegs (m m' : MemRegs) : Prop where
  gpio_out : m.gpio_out = m'.gpio_out
  flash_mode : m.flash_mode = m'.flash_mode
  flash_page : m.flash_page = m'.flash_page

namespace MemRegs

variable {m m' : MemRegs} {addr : BitVec 8}

theorem SameRegs.in_ext_flash (h : m.SameRegs m') (addr : BitVec 8) : m.in_ext_flash addr = m'.in_ext_flash addr := by
  unfold MemRegs.in_ext_flash
  rw [h.flash_mode]

theorem SameRegs.write (h : m.SameRegs m') (addr : BitVec 8) (v : BitVec 32) (size : BitVec 2) :
    (m.write addr v size).SameRegs (m'.write addr v size) := by
  obtain ⟨ws, hram⟩ := m.writeRam_eq addr v size
  obtain ⟨ws', hram'⟩ := m'.writeRam_eq addr v size
  unfold MemRegs.write
  rw [hram, hram', h.in_ext_flash]
  split_ifs
  · exact ⟨h.gpio_out, h.flash_mode, h.flash_page⟩
  · exact ⟨rfl, h.flash_mode, h.flash_page⟩
  · exact ⟨h.gpio_out, rfl, h.flash_page⟩
  · exact ⟨h.gpio_out, h.flash_mode, rfl⟩
  · exact h

end MemRegs

/-- Low bits of the input port. -/
theorem agree_gpio_in {pins : Nat} {v v' : BitVec 8} (h : ∀ j < pins, v.getLsbD j = v'.getLsbD j) :
    Agree pins (v.setWidth 32) (v'.setWidth 32) := by
  intro j hj
  rw [BitVec.getLsbD_setWidth, BitVec.getLsbD_setWidth, h j hj]

/-- What a load from a constant address returns. -/
theorem MemRegs.agree_load (m m' : MemRegs) {rom : Rom} {ir : BitVec 32} {pins : Nat} {regs : Regs}
    {ui_in ui_in' : BitVec 8} (hin : ∀ j < pins, ui_in.getLsbD j = ui_in'.getLsbD j) (ext : BitVec 32)
    (hl : Ir.opcode ir = OP_LOAD) {addr : BitVec 8} (haddr : addr = (Ir.alu_y ir regs).extractLsb' 0 8) :
    Agree (Point.loadBits ir pins) (Ir.load_value ir (m.rdata addr rom ui_in ext))
      (Ir.load_value ir (m'.rdata addr rom ui_in' ext)) := by
  unfold Point.loadBits
  by_cases hrs1 : Ir.rs1 ir = 0
  · have himm : addr = (Ir.imm_i ir).extractLsb' 0 8 := by
      have hop : Ir.alu_op ir = 0 := by simp [Ir.alu_op, hl, OP_LOAD, OP_IMM, OP_REG]
      have hstore : ¬ Ir.opcode ir = OP_STORE := by simp [hl, OP_LOAD, OP_STORE]
      rw [haddr, Point.alu_y_imm (.inr (.inl hl)), hop, if_neg hstore, Ir.rs1_val, if_pos hrs1]
      simp [alu]
    rw [if_neg (not_not.mpr hrs1), ← himm]
    split_ifs with hps hf4
    · have hext : ∀ m : MemRegs, m.External addr := fun m => .inl ((in_ext_psram_iff addr).mp hps)
      rw [m.rdata_of_external addr rom ui_in ext (hext m), m'.rdata_of_external addr rom ui_in' ext (hext m')]
      exact .refl _ _
    · have hval : ∀ (m : MemRegs) (v : BitVec 8), m.rdata addr rom v ext = v.setWidth 32 := by
        intro m v
        rw [hf4]
        simp [MemRegs.rdata, in_rom, MemRegs.in_ram, in_ram_range, MemRegs.in_ext, MemRegs.in_ext_flash, in_load_range,
          in_ext_psram, ROM_BYTES, RAM_BASE, RAM_BYTES, LOAD_BASE, EXT_PSRAM_BASE, EXT_PSRAM_BYTES]
      rw [hval, hval]
      exact ((agree_gpio_in hin).mono (Nat.min_le_left _ _)).load_value (Nat.min_le_right _ _) ir
    · exact agree_zero _ _
  · rw [if_pos hrs1]
    exact agree_zero _ _

/-! ## The chip -/

/-- Two chips that agree as far as the points say. -/
structure Top.Low (rom : Rom) (Γ : List Point) (s s' : Top) : Prop where
  core : Core.Low rom Γ s.core s'.core
  u_qspi : Qspi.Same s.mem.u_qspi s'.mem.u_qspi
  regs : s.mem.toMemRegs.SameRegs s'.mem.toMemRegs

/-- Inputs that agree on MISO and on the low `pins` bits of `ui_in`. -/
structure Inputs.Agrees (pins : Nat) (inp inp' : Inputs) : Prop where
  miso : inp.miso = inp'.miso
  ui_in : ∀ j < pins, inp.ui_in.getLsbD j = inp'.ui_in.getLsbD j

namespace Top

variable {rom : Rom} {Γ : List Point} {pins : Nat} {s s' : Top} {inp inp' : Inputs}

/-- What the cores read in a cycle. -/
theorem Low.reads (h : Low rom Γ s s') (hΓ : ∀ p ∈ Γ, p.Checks pins rom Γ) (hin : inp.Agrees pins inp') :
    s.core.SameReads rom pins (s.mem_rdata rom inp.ui_in) (s'.mem_rdata rom inp'.ui_in) := by
  have hbus : s'.bus = s.bus := h.core.bus.symm
  unfold mem_rdata Mem.rdata
  rw [hbus, ← h.u_qspi.req_rdata]
  constructor
  · intro hst
    rcases h.core.place with ⟨p, hp, hholds, hstage⟩ | ⟨hf, -⟩
    · unfold Point.Stage at hstage
      rw [hst] at hstage
      have haddr : s.bus.addr = s.core.pc := hstage
      have hrom : in_rom s.core.pc = true := hholds.pc ▸ (hΓ p hp).in_rom
      unfold MemRegs.rdata
      rw [haddr, if_pos hrom, if_pos hrom]
      exact ⟨rfl, rfl⟩
    · rw [hst] at hf
      cases hf
  · intro hst hl
    rcases h.core.place with ⟨p, hp, hholds, hstage⟩ | ⟨hf, -⟩
    · unfold Point.Stage at hstage
      rw [hst] at hstage
      exact MemRegs.agree_load _ _ hin.ui_in _ hl (hstage.2.2 hl)
    · rw [hst] at hf
      cases hf

/-- The engines are asked for the same. -/
theorem Low.req (h : Low rom Γ s s') : s.mem.req s.bus = s'.mem.req s'.bus := by
  have hbus : s'.bus = s.bus := h.core.bus.symm
  rw [hbus]
  simp only [Mem.req, MemRegs.in_ext, MemRegs.req_dev, MemRegs.ext_addr, MemRegs.flash_page_base, h.regs.in_ext_flash,
    h.regs.flash_page]

/-- One clock edge of the chips. -/
theorem Low.step (h : Low rom Γ s s') (hΓ : ∀ p ∈ Γ, p.Checks pins rom Γ) (hin : inp.Agrees pins inp')
    (hrom : s.core.state = .fetch → in_rom s.core.pc = true) : Low rom Γ (s.step rom inp) (s'.step rom inp') := by
  have hbus : s'.bus = s.bus := h.core.bus.symm
  have hready : s'.mem_ready = s.mem_ready := by
    rw [mem_ready, mem_ready, Mem.ready, Mem.ready, h.req, h.u_qspi.req_ready]
  refine ⟨?_, ?_, ?_⟩
  · show Core.Low rom Γ _ (s'.core.step s'.mem_ready _)
    rw [hready]
    exact h.core.step hΓ _ (h.reads hΓ hin) hrom
  · show Qspi.Same (s.mem.u_qspi.step (s.mem.req s.bus) inp.miso) (s'.mem.u_qspi.step (s'.mem.req s'.bus) inp'.miso)
    rw [h.req, hin.miso]
    exact h.u_qspi.step _ _
  · show MemRegs.SameRegs (if s.bus.we then _ else _) (if s'.bus.we then _ else _)
    rw [hbus]
    split
    · exact h.regs.write _ _ _
    · exact h.regs

/-- What the chips show. -/
theorem Low.view (h : Low rom Γ s s') : SameView s s' := by
  obtain ⟨h0, h1⟩ := h.u_qspi.pins
  exact ⟨h.core.bus, h.regs.gpio_out, congrArg SpiPins.cs_n h0, congrArg SpiPins.cs_n h1, congrArg SpiPins.sck h0,
    congrArg SpiPins.mosi h0, h.core.pc, h.core.state, h.u_qspi.state, h.regs.flash_mode, h.regs.flash_page⟩

/-- Two chips that are reset: nothing in their register files has to agree. -/
theorem low_reset (s s' : Top) {p : Point} (hp : p ∈ Γ) (hpc : p.pc = 0) (hlink : p.link = none)
    (hknown : p.known = []) : Low rom Γ s.reset s'.reset where
  core := by
    refine ⟨rfl, rfl, rfl, rfl, .inl ⟨p, hp, ⟨hpc.symm, fun r hr => ?_, fun v hv => ?_⟩, trivial⟩⟩
    · unfold Point.bits
      rw [if_neg hr, hknown]
      exact agree_zero _ _
    · rw [hlink] at hv
      cases hv
  u_qspi := .reset _ _
  regs := ⟨rfl, rfl, rfl⟩

/-- A run of the chips from a reset, up to the first fetch from elsewhere. -/
theorem Run.low {s s' : Nat → Top} {inp inp' : Nat → Inputs} (hr : Run rom inp s) (hr' : Run rom inp' s')
    (hΓ : ∀ p ∈ Γ, p.Checks pins rom Γ) (hin : ∀ t, (inp t).Agrees pins (inp' t)) (h0 : Low rom Γ (s 0) (s' 0))
    {T : Nat} (hrom : ∀ t < T, (s t).core.state = .fetch → in_rom (s t).core.pc = true) : Low rom Γ (s T) (s' T) := by
  induction T with
  | zero => exact h0
  | succ T ih =>
    rw [hr T, hr' T]
    exact (ih fun t ht => hrom t (Nat.lt_succ_of_lt ht)).step hΓ (hin T) (hrom T (Nat.lt_succ_self T))

end Top

end Pineapple
