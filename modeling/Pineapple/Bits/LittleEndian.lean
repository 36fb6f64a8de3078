import Mathlib.Data.List.GetD

/-!
# Little-endian bytes

Words as lists of bytes, the byte at the lowest address first.
-/

namespace Bits

/-- The word whose little-endian bytes are `bs`, zero-extended or truncated to `w` bits. -/
def ofLE (w : Nat) : List (BitVec 8) → BitVec w
  | [] => 0
  | b :: bs => (ofLE w bs <<< 8) ||| b.setWidth w

/-- The `n` low bytes of a word, in address order. -/
def toLE {w : Nat} (v : BitVec w) (n : Nat) : List (BitVec 8) :=
  (List.range n).map fun i => v.extractLsb' (8 * i) 8

@[simp] theorem ofLE_nil (w : Nat) : ofLE w [] = 0 := rfl

@[simp] theorem length_toLE {w : Nat} (v : BitVec w) (n : Nat) : (toLE v n).length = n := by
  simp [toLE]

theorem getElem_toLE {w : Nat} (v : BitVec w) (n i : Nat) (h : i < (toLE v n).length) :
    (toLE v n)[i] = v.extractLsb' (8 * i) 8 := by
  simp [toLE]

/-- Bit `i` of the word is bit `i % 8` of byte `i / 8`. -/
theorem getLsbD_ofLE (w : Nat) (bs : List (BitVec 8)) (i : Nat) :
    (ofLE w bs).getLsbD i = (decide (i < w) && (bs.getD (i / 8) 0).getLsbD (i % 8)) := by
  induction bs generalizing i with
  | nil => simp
  | cons b bs ih =>
    rw [ofLE, BitVec.getLsbD_or, BitVec.getLsbD_shiftLeft, ih, BitVec.getLsbD_setWidth]
    by_cases h8 : i < 8
    · have hd : i / 8 = 0 := by omega
      have hm : i % 8 = i := by omega
      simp [h8, hd, hm]
    · have hd : i / 8 = (i - 8) / 8 + 1 := by omega
      have hm : (i - 8) % 8 = i % 8 := by omega
      have hb : b.getLsbD i = false := BitVec.getLsbD_of_ge b i (by omega)
      by_cases hw : i < w
      · have hw' : i - 8 < w := by omega
        simp [h8, hd, hm, hb, hw, hw']
      · simp [hw]

/-- The bytes of a word put together again, when they all fit. -/
theorem ofLE_toLE {w : Nat} (v : BitVec w) (n : Nat) (h : w ≤ 8 * n) : ofLE w (toLE v n) = v := by
  apply BitVec.eq_of_getLsbD_eq
  intro i hi
  have hlt : i / 8 < (toLE v n).length := by rw [length_toLE]; omega
  rw [getLsbD_ofLE, List.getD_eq_getElem _ _ hlt, getElem_toLE, BitVec.getLsbD_extractLsb']
  have h1 : i % 8 < 8 := Nat.mod_lt _ (by omega)
  have h2 : 8 * (i / 8) + i % 8 = i := by omega
  simp [hi, h1, h2]

/-- Byte `k` of the word made of `bs` is `bs[k]`. -/
theorem extract_ofLE (w : Nat) (bs : List (BitVec 8)) (k : Nat) (hk : 8 * k + 8 ≤ w) :
    (ofLE w bs).extractLsb' (8 * k) 8 = bs.getD k 0 := by
  apply BitVec.eq_of_getLsbD_eq
  intro i hi
  have h1 : (8 * k + i) / 8 = k := by omega
  have h2 : (8 * k + i) % 8 = i := by omega
  have h3 : 8 * k + i < w := by omega
  rw [BitVec.getLsbD_extractLsb', getLsbD_ofLE, h1, h2]
  simp [hi, h3]

/-- The first byte is the low byte of the word. -/
theorem ofLE_cons (w : Nat) (b : BitVec 8) (bs : List (BitVec 8)) :
    ofLE (w + 8) (b :: bs) = ofLE w bs ++ b := by
  apply BitVec.eq_of_getLsbD_eq
  intro i hi
  rw [getLsbD_ofLE, BitVec.getLsbD_append, getLsbD_ofLE]
  by_cases h8 : i < 8
  · have hd : i / 8 = 0 := by omega
    have hm : i % 8 = i := by omega
    simp [h8, hi, hd, hm]
  · have hd : i / 8 = (i - 8) / 8 + 1 := by omega
    have hm : (i - 8) % 8 = i % 8 := by omega
    have hw : i - 8 < w := by omega
    simp [h8, hi, hd, hm, hw]

theorem ofLE_one (b0 : BitVec 8) : ofLE 32 [b0] = 0#24 ++ b0 := ofLE_cons 24 b0 []

theorem ofLE_two (b0 b1 : BitVec 8) : ofLE 32 [b0, b1] = 0#16 ++ b1 ++ b0 := by
  have h1 : ofLE 24 [b1] = 0#16 ++ b1 := ofLE_cons 16 b1 []
  rw [show ofLE 32 [b0, b1] = ofLE 24 [b1] ++ b0 from ofLE_cons 24 b0 [b1], h1]

theorem ofLE_four (b0 b1 b2 b3 : BitVec 8) :
    ofLE 32 [b0, b1, b2, b3] = b3 ++ b2 ++ b1 ++ b0 := by
  have h3 : ofLE 8 [b3] = b3 := by simp [ofLE]
  have h2 : ofLE 16 [b2, b3] = b3 ++ b2 := by
    rw [show ofLE 16 [b2, b3] = ofLE 8 [b3] ++ b2 from ofLE_cons 8 b2 [b3], h3]
  have h1 : ofLE 24 [b1, b2, b3] = b3 ++ b2 ++ b1 := by
    rw [show ofLE 24 [b1, b2, b3] = ofLE 16 [b2, b3] ++ b1 from ofLE_cons 16 b1 [b2, b3], h2]
  rw [show ofLE 32 [b0, b1, b2, b3] = ofLE 24 [b1, b2, b3] ++ b0 from ofLE_cons 24 b0 [b1, b2, b3],
    h1]

end Bits
