import Mathlib.Tactic.Common
import Pineapple.Bits.ByteMemory
import Pineapple.Bits.Shift
import Pineapple.Rtl.SpiRam

/-!
# Proofs: the SPI memory, byte by byte

Eight rising edges of SCK are one `byteDone`, a command byte and three address bytes are one `header`,
and the data bytes after it are a store or a sequence of loads.
-/

namespace Pineapple

open Bits

namespace SpiRam

/-- The framing registers between two transactions. -/
def Framed (s : SpiRam) : Prop := s.phase = .cmd ∧ s.bitcnt = 0 ∧ s.addr_byte = 0

theorem Framed.deselect_eq {s : SpiRam} (h : s.Framed) : s.deselect = s := by
  obtain ⟨h1, h2, h3⟩ := h
  cases s
  simp_all [deselect]

/-! ## Rising edges -/

section Rises

variable (s : SpiRam) (f : Nat → Bool)

/-- The slave after `n` rising edges of SCK with the bits `f 0, …, f (n - 1)` on MOSI. -/
def rises : Nat → SpiRam
  | 0 => s
  | n + 1 => (rises n).onSckRise (f n)

theorem rises_add (m n : Nat) : s.rises f (m + n) = (s.rises f m).rises (fun j => f (m + j)) n := by
  induction n with
  | zero => rfl
  | succ n ih => rw [← Nat.add_assoc, rises, ih, rises]

/-- The slave after the last bit of the byte `b`. -/
def byteDone (b : BitVec 8) : SpiRam :=
  match s.phase with
  | .cmd => { s with shift_in := b, bitcnt := 0, we := b = 0x02, phase := .addr }
  | .addr =>
    { s with
      shift_in := b
      bitcnt := 0
      addr := s.addr.extractLsb' 0 16 ++ b
      phase := if s.addr_byte = 2 then .data else .addr
      cur_out := if s.addr_byte = 2 then s.mem ((s.addr.extractLsb' 0 16 ++ b).extractLsb' 0 14)
        else s.cur_out
      addr_byte := s.addr_byte + 1 }
  | .data =>
    { s with
      shift_in := b
      bitcnt := 0
      mem := if s.we then Function.update s.mem (s.addr.extractLsb' 0 14) b else s.mem
      addr := s.addr + 1
      cur_out := s.mem (s.addr.extractLsb' 0 14 + 1) }

variable {s f}

theorem onSckRise_bit (h : s.bitcnt ≠ 7) (m : Bool) :
    s.onSckRise m = { s with shift_in := s.shifted m, bitcnt := s.bitcnt + 1 } := if_neg h

/-- Within a byte only the bit counter and the shift register move. -/
theorem rises_lt (hb : s.bitcnt = 0) {i : Nat} (hi : i < 8) :
    s.rises f i = { s with shift_in := shiftMany s.shift_in f i, bitcnt := BitVec.ofNat 3 i } := by
  induction i with
  | zero => cases s; simp_all [rises, shiftMany]
  | succ i ih =>
    have hne : ¬ BitVec.ofNat 3 i = 7 := by
      rw [← BitVec.toNat_inj, BitVec.toNat_ofNat]
      show ¬ i % 2 ^ 3 = 7
      omega
    rw [rises, ih (by omega), onSckRise_bit hne]
    simp only [shifted, shiftMany, shiftIn, BitVec.ofNat_add]
    rfl

theorem onSckRise_last (h : s.bitcnt = 7) (m : Bool) :
    s.onSckRise m = s.byteDone (s.shifted m) := by
  rw [onSckRise, if_pos h]
  cases hp : s.phase <;> simp [byteDone, hp, next_addr]

theorem rises_byte (hb : s.bitcnt = 0) : s.rises f 8 = s.byteDone (ofMsb f 8) := by
  have hsh : ((shiftMany s.shift_in f 7).extractLsb' 0 7).concat (f 7) = ofMsb f 8 :=
    shiftMany_full s.shift_in f
  rw [rises, rises_lt hb (by omega), onSckRise_last rfl, shifted, hsh]
  cases hp : s.phase <;> simp [byteDone, hp]

theorem rises_byte_add (hb : s.bitcnt = 0) (n : Nat) :
    s.rises f (8 + n) = (s.byteDone (ofMsb f 8)).rises (fun j => f (8 + j)) n := by
  rw [rises_add, rises_byte hb]

theorem byteDone_bitcnt (b : BitVec 8) : (s.byteDone b).bitcnt = 0 := by
  cases hp : s.phase <;> simp [byteDone, hp]

/-! ## Command and address -/

/-- The slave when the command `c` and the address `a` have been received. -/
def header (s : SpiRam) (c : BitVec 8) (a : BitVec 24) : SpiRam :=
  { s with
    phase := .data
    bitcnt := 0
    addr_byte := 3
    addr := a
    we := c = 0x02
    shift_in := a.extractLsb' 0 8
    cur_out := s.mem (a.extractLsb' 0 14) }

/-- Three bytes shifted into the address register replace it. -/
theorem addr_bytes (x a : BitVec 24) :
    ((x.extractLsb' 0 16 ++ a.extractLsb' 16 8).extractLsb' 0 16 ++ a.extractLsb' 8 8).extractLsb' 0 16
      ++ a.extractLsb' 0 8 = a := by
  apply BitVec.eq_of_getLsbD_eq
  intro i hi
  rw [BitVec.getLsbD_append]
  by_cases h1 : i < 8
  · simp [h1]
  · rw [if_neg h1, BitVec.getLsbD_extractLsb', BitVec.getLsbD_append]
    by_cases h2 : 0 + (i - 8) < 8
    · have h3 : i - 8 < 16 := by omega
      have h4 : i - 8 < 8 := by omega
      simp [h3, h4, show 8 + (i - 8) = i by omega]
    · rw [if_neg h2, BitVec.getLsbD_extractLsb', BitVec.getLsbD_append]
      have h3 : i - 8 < 16 := by omega
      have h4 : i - 8 - 8 < 16 := by omega
      have h5 : i - 8 - 8 < 8 := by omega
      simp [h3, h4, h5, show 16 + (i - 8 - 8) = i by omega]

theorem rises_header (hf : s.Framed) {c : BitVec 8} {a : BitVec 24} (hc : ofMsb f 8 = c)
    (h2 : ofMsb (fun j => f (8 + j)) 8 = a.extractLsb' 16 8)
    (h1 : ofMsb (fun j => f (16 + j)) 8 = a.extractLsb' 8 8)
    (h0 : ofMsb (fun j => f (24 + j)) 8 = a.extractLsb' 0 8) (n : Nat) :
    s.rises f (32 + n) = (s.header c a).rises (fun j => f (32 + j)) n := by
  obtain ⟨hp, hb, hab⟩ := hf
  have hhead : (((s.byteDone c).byteDone (a.extractLsb' 16 8)).byteDone (a.extractLsb' 8 8)).byteDone
      (a.extractLsb' 0 8) = s.header c a := by
    simp only [byteDone, hp, hab, header, BitVec.reduceAdd, BitVec.reduceEq, ↓reduceIte]
    simp only [addr_bytes]
    simp
  rw [show 32 + n = 8 + (8 + (8 + (8 + n))) by omega, rises_byte_add hb, rises_byte_add (byteDone_bitcnt _),
    rises_byte_add (byteDone_bitcnt _), rises_byte_add (byteDone_bitcnt _)]
  simp only [hc, h2, ← Nat.add_assoc, Nat.reduceAdd, h1, h0, hhead]

/-! ## Data bytes -/

/-- The registers after `k` data bytes `b 0, …, b (k - 1)`. -/
structure AfterBytes (s : SpiRam) (b : Nat → BitVec 8) (k : Nat) (s' : SpiRam) : Prop where
  phase : s'.phase = .data
  bitcnt : s'.bitcnt = 0
  we : s'.we = s.we
  addr : s'.addr = s.addr + BitVec.ofNat 24 k
  mem : s'.mem = if s.we then ByteMemory.store s.mem (s.addr.extractLsb' 0 14) b k else s.mem
  cur_out : s.we = false → s'.cur_out = s.mem (s.addr.extractLsb' 0 14 + BitVec.ofNat 14 k)

theorem extract_add (a : BitVec 24) (k : Nat) :
    (a + BitVec.ofNat 24 k).extractLsb' 0 14 = a.extractLsb' 0 14 + BitVec.ofNat 14 k := by
  apply BitVec.eq_of_toNat_eq
  simp only [BitVec.extractLsb'_toNat, BitVec.toNat_add, BitVec.toNat_ofNat, Nat.shiftRight_zero]
  omega

theorem rises_data (hp : s.phase = .data) (hb : s.bitcnt = 0)
    (hc : s.we = false → s.cur_out = s.mem (s.addr.extractLsb' 0 14)) (k : Nat) (hk : k < 2 ^ 14) :
    AfterBytes s (fun i => ofMsb (fun j => f (8 * i + j)) 8) k (s.rises f (8 * k)) := by
  induction k with
  | zero =>
    exact ⟨hp, hb, rfl, (BitVec.add_zero _).symm, by simp [rises],
      fun h => (hc h).trans (by rw [BitVec.add_zero])⟩
  | succ k ih =>
    have h := ih (by omega)
    rw [show 8 * (k + 1) = 8 * k + 8 by omega, rises_add, rises_byte h.bitcnt]
    generalize s.rises f (8 * k) = x at h
    have hsum : ∀ w (y : BitVec w), y + BitVec.ofNat w k + 1 = y + BitVec.ofNat w (k + 1) := by
      intro w y
      rw [BitVec.ofNat_add, ← BitVec.add_assoc]
      rfl
    refine
      { phase := by simp [byteDone, h.phase]
        bitcnt := byteDone_bitcnt _
        we := by simp [byteDone, h.phase, h.we]
        addr := by simp only [byteDone, h.phase, h.addr, hsum]
        mem := ?_
        cur_out := fun hw => ?_ }
    · simp only [byteDone, h.phase, h.we, h.mem, h.addr, extract_add]
      cases s.we with
      | false => rfl
      | true => exact ByteMemory.update_store _ _ (fun i => ofMsb (fun j => f (8 * i + j)) 8) k (by omega)
    · have hm : x.mem = s.mem := by rw [h.mem, hw]; rfl
      simp only [byteDone, h.phase, hm, h.addr, extract_add, hsum]

/-- The bits a read byte puts on MISO, the most significant first. -/
theorem misoOut_rises (hp : s.phase = .data) (hb : s.bitcnt = 0) (hw : s.we = false) {j : Nat}
    (hj : j < 8) : (s.rises f j).misoOut false = s.cur_out.getLsbD (7 - j) := by
  have hsub : (8 - j % 8 + 7) % 8 = 7 - j := by omega
  rw [rises_lt hb hj]
  simp [misoOut, hp, hw, hsub]

end Rises

end SpiRam

end Pineapple
