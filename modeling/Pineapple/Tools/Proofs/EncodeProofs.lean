import Mathlib.Tactic.Common
import Pineapple.Tools.Asm
import Pineapple.Isa.Rv32i

/-!
# Proofs: decode after encode

The words of the six formats as sums of their fields, and from that what an RV32I decoder finds in them.
-/

namespace Pineapple

open Rv32i (Instr Word Reg)

namespace Asm

/-- Fields that do not overlap are added. -/
theorem or_eq_add (k : Nat) {x v : Nat} (hx : 2 ^ k ∣ x) (hv : v < 2 ^ k) : x ||| v = x + v := by
  obtain ⟨y, rfl⟩ := hx
  exact (Nat.two_pow_add_eq_or_of_lt hv y).symm

/-- A field of a word. -/
theorem field (w a n : Nat) :
    ((BitVec.ofNat 32 w).extractLsb' a n).toNat = w % 2 ^ 32 / 2 ^ a % 2 ^ n := by
  rw [BitVec.extractLsb'_toNat, BitVec.toNat_ofNat, Nat.shiftRight_eq_div_pow]

theorem field_eq {w a n v : Nat} (h : w % 2 ^ 32 / 2 ^ a % 2 ^ n = v) :
    ((BitVec.ofNat 32 w).extractLsb' a n).toNat = v := (field w a n).trans h

theorem lowBits_lt (v : Int) (k : Nat) : lowBits v k < 2 ^ k := by
  have h : (0 : Int) < 2 ^ k := Int.pow_pos (by decide)
  have h1 := Int.emod_nonneg v (Int.ne_of_gt h)
  have h2 := Int.emod_lt_of_pos v h
  rw [lowBits, Int.toNat_lt h1]
  exact_mod_cast h2

/-- The low bits as a bit vector. -/
theorem ofNat_lowBits (v : Int) (k : Nat) : BitVec.ofNat k (lowBits v k) = BitVec.ofInt k v := by
  apply BitVec.eq_of_toNat_eq
  rw [BitVec.toNat_ofNat, BitVec.toNat_ofInt, Nat.mod_eq_of_lt (lowBits_lt v k)]
  rfl

/-! ## The formats as sums -/

section Formats

variable {f7 r2 r1 f3 d op : Nat}

/-- The six fields of a word, from the top. -/
theorem fields_eq (h2 : r2 < 32) (h1 : r1 < 32) (h3 : f3 < 8) (hd : d < 32) (ho : op < 128) :
    (f7 <<< 25) ||| (r2 <<< 20) ||| (r1 <<< 15) ||| (f3 <<< 12) ||| (d <<< 7) ||| op =
      f7 * 2 ^ 25 + r2 * 2 ^ 20 + r1 * 2 ^ 15 + f3 * 2 ^ 12 + d * 2 ^ 7 + op := by
  simp only [Nat.shiftLeft_eq]
  have e2 : f7 * 2 ^ 25 ||| r2 * 2 ^ 20 = f7 * 2 ^ 25 + r2 * 2 ^ 20 :=
    or_eq_add 25 (by omega) (by omega)
  rw [e2, or_eq_add 20 (v := r1 * 2 ^ 15) (by omega) (by omega),
    or_eq_add 15 (v := f3 * 2 ^ 12) (by omega) (by omega),
    or_eq_add 12 (v := d * 2 ^ 7) (by omega) (by omega), or_eq_add 7 (by omega) (by omega)]

/-- A word that is the sum of its fields. -/
structure Packs (w f7 r2 r1 f3 d op : Nat) : Prop where
  h7 : f7 < 128
  h2 : r2 < 32
  h1 : r1 < 32
  h3 : f3 < 8
  hd : d < 32
  ho : op < 128
  eq : w = f7 * 2 ^ 25 + r2 * 2 ^ 20 + r1 * 2 ^ 15 + f3 * 2 ^ 12 + d * 2 ^ 7 + op

variable {w : Nat}

theorem Packs.lt (h : Packs w f7 r2 r1 f3 d op) : w < 2 ^ 32 := by
  obtain ⟨h7, h2, h1, h3, hd, ho, rfl⟩ := h
  omega

theorem Packs.opcode (h : Packs w f7 r2 r1 f3 d op) :
    Rv32i.opcode (BitVec.ofNat 32 w) = BitVec.ofNat 7 op := by
  obtain ⟨h7, h2, h1, h3, hd, ho, rfl⟩ := h
  apply BitVec.eq_of_toNat_eq
  rw [Rv32i.opcode, field, BitVec.toNat_ofNat]
  omega

theorem Packs.rd (h : Packs w f7 r2 r1 f3 d op) : Rv32i.rd (BitVec.ofNat 32 w) = BitVec.ofNat 5 d := by
  obtain ⟨h7, h2, h1, h3, hd, ho, rfl⟩ := h
  apply BitVec.eq_of_toNat_eq
  rw [Rv32i.rd, field, BitVec.toNat_ofNat]
  omega

theorem Packs.funct3 (h : Packs w f7 r2 r1 f3 d op) :
    Rv32i.funct3 (BitVec.ofNat 32 w) = BitVec.ofNat 3 f3 := by
  obtain ⟨h7, h2, h1, h3, hd, ho, rfl⟩ := h
  apply BitVec.eq_of_toNat_eq
  rw [Rv32i.funct3, field, BitVec.toNat_ofNat]
  omega

theorem Packs.rs1 (h : Packs w f7 r2 r1 f3 d op) : Rv32i.rs1 (BitVec.ofNat 32 w) = BitVec.ofNat 5 r1 := by
  obtain ⟨h7, h2, h1, h3, hd, ho, rfl⟩ := h
  apply BitVec.eq_of_toNat_eq
  rw [Rv32i.rs1, field, BitVec.toNat_ofNat]
  omega

theorem Packs.rs2 (h : Packs w f7 r2 r1 f3 d op) : Rv32i.rs2 (BitVec.ofNat 32 w) = BitVec.ofNat 5 r2 := by
  obtain ⟨h7, h2, h1, h3, hd, ho, rfl⟩ := h
  apply BitVec.eq_of_toNat_eq
  rw [Rv32i.rs2, field, BitVec.toNat_ofNat]
  omega

theorem Packs.funct7 (h : Packs w f7 r2 r1 f3 d op) :
    Rv32i.funct7 (BitVec.ofNat 32 w) = BitVec.ofNat 7 f7 := by
  obtain ⟨h7, h2, h1, h3, hd, ho, rfl⟩ := h
  apply BitVec.eq_of_toNat_eq
  rw [Rv32i.funct7, field, BitVec.toNat_ofNat]
  omega

theorem Packs.immI (h : Packs w f7 r2 r1 f3 d op) :
    Rv32i.immI (BitVec.ofNat 32 w) = BitVec.ofNat 12 (f7 * 32 + r2) := by
  obtain ⟨h7, h2, h1, h3, hd, ho, rfl⟩ := h
  apply BitVec.eq_of_toNat_eq
  rw [Rv32i.immI, field, BitVec.toNat_ofNat]
  omega

theorem Packs.immU (h : Packs w f7 r2 r1 f3 d op) :
    Rv32i.immU (BitVec.ofNat 32 w) = BitVec.ofNat 20 (f7 * 2 ^ 13 + r2 * 2 ^ 8 + r1 * 2 ^ 3 + f3) := by
  obtain ⟨h7, h2, h1, h3, hd, ho, rfl⟩ := h
  apply BitVec.eq_of_toNat_eq
  rw [Rv32i.immU, field, BitVec.toNat_ofNat]
  omega

theorem toNat_append {n m : Nat} (x : BitVec n) (y : BitVec m) :
    (x ++ y).toNat = x.toNat * 2 ^ m + y.toNat := by
  rw [BitVec.toNat_append, Nat.shiftLeft_eq, or_eq_add m (Nat.dvd_mul_left _ _) y.isLt]

theorem Packs.immS (h : Packs w f7 r2 r1 f3 d op) :
    Rv32i.immS (BitVec.ofNat 32 w) = BitVec.ofNat 12 (f7 * 32 + d) := by
  obtain ⟨h7, h2, h1, h3, hd, ho, rfl⟩ := h
  apply BitVec.eq_of_toNat_eq
  rw [Rv32i.immS, toNat_append, field_eq (v := f7) (by omega), field_eq (v := d) (by omega),
    BitVec.toNat_ofNat]
  omega

theorem Packs.immB (h : Packs w f7 r2 r1 f3 d op) : Rv32i.immB (BitVec.ofNat 32 w) =
    BitVec.ofNat 13 (f7 / 64 * 2 ^ 12 + d % 2 * 2 ^ 11 + f7 % 64 * 2 ^ 5 + d / 2 * 2) := by
  obtain ⟨h7, h2, h1, h3, hd, ho, rfl⟩ := h
  apply BitVec.eq_of_toNat_eq
  rw [Rv32i.immB, toNat_append, toNat_append, toNat_append, toNat_append,
    field_eq (v := f7 / 64) (by omega), field_eq (v := d % 2) (by omega),
    field_eq (v := f7 % 64) (by omega), field_eq (v := d / 2) (by omega), BitVec.toNat_ofNat,
    BitVec.toNat_ofNat]
  omega

theorem Packs.immJ (h : Packs w f7 r2 r1 f3 d op) : Rv32i.immJ (BitVec.ofNat 32 w) =
    BitVec.ofNat 21 (f7 / 64 * 2 ^ 20 + (r1 * 8 + f3) * 2 ^ 12 + r2 % 2 * 2 ^ 11 + f7 % 64 * 2 ^ 5 +
      r2 / 2 * 2) := by
  obtain ⟨h7, h2, h1, h3, hd, ho, rfl⟩ := h
  apply BitVec.eq_of_toNat_eq
  rw [Rv32i.immJ, toNat_append, toNat_append, toNat_append, toNat_append,
    field_eq (v := f7 / 64) (by omega), field_eq (v := r1 * 8 + f3) (by omega),
    field_eq (v := r2 % 2) (by omega), field_eq (v := f7 % 64 * 2 ^ 4 + r2 / 2) (by omega),
    BitVec.toNat_ofNat, BitVec.toNat_ofNat]
  omega

end Formats

/-! ## The words of the methods -/

section Words

variable {f7 f3 rd rs1 rs2 op : Nat}

theorem packs_r (op : Nat) (h7 : f7 < 128) (h2 : rs2 < 32) (h1 : rs1 < 32) (h3 : f3 < 8) (hd : rd < 32)
    (ho : op < 128) : Packs (_r f7 rs2 rs1 f3 rd op) f7 rs2 rs1 f3 rd op :=
  ⟨h7, h2, h1, h3, hd, ho, fields_eq h2 h1 h3 hd ho⟩

theorem packs_i (op : Nat) (imm : Int) (h1 : rs1 < 32) (h3 : f3 < 8) (hd : rd < 32) (ho : op < 128) :
    Packs (_i imm rs1 f3 rd op) (_s12 imm / 32) (_s12 imm % 32) rs1 f3 rd op := by
  have hlt : _s12 imm < 2 ^ 12 := lowBits_lt imm 12
  refine ⟨by omega, by omega, h1, h3, hd, ho, ?_⟩
  simp only [_i, Nat.shiftLeft_eq]
  rw [or_eq_add 20 (v := rs1 * 2 ^ 15) (by omega) (by omega),
    or_eq_add 15 (v := f3 * 2 ^ 12) (by omega) (by omega),
    or_eq_add 12 (v := rd * 2 ^ 7) (by omega) (by omega), or_eq_add 7 (by omega) (by omega)]
  omega

theorem packs_u (op : Nat) (imm20 : Int) (hd : rd < 32) (ho : op < 128) :
    Packs (_u imm20 rd op) (lowBits imm20 20 / 2 ^ 13) (lowBits imm20 20 / 2 ^ 8 % 32)
      (lowBits imm20 20 / 2 ^ 3 % 32) (lowBits imm20 20 % 8) rd op := by
  have hlt := lowBits_lt imm20 20
  refine ⟨by omega, by omega, by omega, by omega, hd, ho, ?_⟩
  simp only [_u, Nat.shiftLeft_eq]
  rw [or_eq_add 12 (v := rd * 2 ^ 7) (by omega) (by omega), or_eq_add 7 (by omega) (by omega)]
  omega

theorem packs_s (imm : Int) (h2 : rs2 < 32) (h1 : rs1 < 32) (h3 : f3 < 8) :
    Packs (_s f3 rs2 rs1 imm) (_s12 imm / 32) rs2 rs1 f3 (_s12 imm % 32) OPC.OP_STORE := by
  have hlt : _s12 imm < 2 ^ 12 := lowBits_lt imm 12
  have hlow : _s12 imm &&& 0x1F = _s12 imm % 32 := Nat.and_two_pow_sub_one_eq_mod _ 5
  refine ⟨by omega, h2, h1, h3, by omega, by decide, ?_⟩
  rw [_s, hlow, Nat.shiftRight_eq_div_pow]
  exact fields_eq h2 h1 h3 (by omega) (by decide)

theorem bits_eq (v a n : Nat) : (v >>> a) &&& (2 ^ n - 1) = v / 2 ^ a % 2 ^ n := by
  rw [Nat.and_two_pow_sub_one_eq_mod, Nat.shiftRight_eq_div_pow]

theorem packs_branch (off : Int) (h2 : rs2 < 32) (h1 : rs1 < 32) (h3 : f3 < 8) :
    Packs (branchWord off f3 rs1 rs2) (lowBits off 13 / 2 ^ 12 * 64 + lowBits off 13 / 2 ^ 5 % 64) rs2
      rs1 f3 (lowBits off 13 / 2 % 16 * 2 + lowBits off 13 / 2 ^ 11 % 2) OPC.OP_BRANCH := by
  have hlt := lowBits_lt off 13
  refine ⟨by omega, h2, h1, h3, by omega, by decide, ?_⟩
  have e12 : lowBits off 13 >>> 12 &&& 1 = _ := bits_eq _ 12 1
  have e5 : lowBits off 13 >>> 5 &&& 0x3F = _ := bits_eq _ 5 6
  have e1 : lowBits off 13 >>> 1 &&& 0xF = _ := bits_eq _ 1 4
  have e11 : lowBits off 13 >>> 11 &&& 1 = _ := bits_eq _ 11 1
  have hop : OPC.OP_BRANCH < 2 ^ 7 := by decide
  unfold branchWord
  generalize lowBits off 13 = imm at *
  simp only [e12, e5, e1, e11, Nat.shiftLeft_eq]
  rw [or_eq_add 31 (v := imm / 2 ^ 5 % 2 ^ 6 * 2 ^ 25) (by omega) (by omega),
    or_eq_add 25 (v := rs2 * 2 ^ 20) (by omega) (by omega),
    or_eq_add 20 (v := rs1 * 2 ^ 15) (by omega) (by omega),
    or_eq_add 15 (v := f3 * 2 ^ 12) (by omega) (by omega),
    or_eq_add 12 (v := imm / 2 ^ 1 % 2 ^ 4 * 2 ^ 8) (by omega) (by omega),
    or_eq_add 8 (v := imm / 2 ^ 11 % 2 ^ 1 * 2 ^ 7) (by omega) (by omega), or_eq_add 7 (by omega) hop]
  omega

theorem packs_jal (off : Int) (hd : rd < 32) :
    Packs (jalWord off rd) (lowBits off 21 / 2 ^ 20 * 64 + lowBits off 21 / 2 ^ 5 % 64)
      (lowBits off 21 / 2 % 16 * 2 + lowBits off 21 / 2 ^ 11 % 2) (lowBits off 21 / 2 ^ 15 % 32)
      (lowBits off 21 / 2 ^ 12 % 8) rd OPC.OP_JAL := by
  have hlt := lowBits_lt off 21
  refine ⟨by omega, by omega, by omega, by omega, hd, by decide, ?_⟩
  have e20 : lowBits off 21 >>> 20 &&& 1 = _ := bits_eq _ 20 1
  have e1 : lowBits off 21 >>> 1 &&& 0x3FF = _ := bits_eq _ 1 10
  have e11 : lowBits off 21 >>> 11 &&& 1 = _ := bits_eq _ 11 1
  have e12 : lowBits off 21 >>> 12 &&& 0xFF = _ := bits_eq _ 12 8
  have hop : OPC.OP_JAL < 2 ^ 7 := by decide
  unfold jalWord
  generalize lowBits off 21 = imm at *
  simp only [e20, e1, e11, e12, Nat.shiftLeft_eq]
  rw [or_eq_add 31 (v := imm / 2 ^ 1 % 2 ^ 10 * 2 ^ 21) (by omega) (by omega),
    or_eq_add 21 (v := imm / 2 ^ 11 % 2 ^ 1 * 2 ^ 20) (by omega) (by omega),
    or_eq_add 20 (v := imm / 2 ^ 12 % 2 ^ 8 * 2 ^ 12) (by omega) (by omega),
    or_eq_add 12 (v := rd * 2 ^ 7) (by omega) (by omega), or_eq_add 7 (by omega) hop]
  have h1 : imm / 2 ^ 1 % 2 ^ 10 = imm / 2 ^ 5 % 64 * 16 + imm / 2 % 16 := by omega
  have h12 : imm / 2 ^ 12 % 2 ^ 8 = imm / 2 ^ 15 % 32 * 8 + imm / 2 ^ 12 % 8 := by omega
  have h20 : imm / 2 ^ 20 % 2 ^ 1 = imm / 2 ^ 20 := by omega
  rw [h1, h12, h20]
  generalize imm / 2 ^ 5 % 64 = b10_5, imm / 2 % 16 = b4_1, imm / 2 ^ 15 % 32 = b19_15,
    imm / 2 ^ 12 % 8 = b14_12, imm / 2 ^ 20 = b20, imm / 2 ^ 11 % 2 ^ 1 = b11
  omega

end Words

end Asm

end Pineapple
