import Mathlib.Data.List.GetD
import Mathlib.Data.List.Induction
import Mathlib.Logic.Function.Basic

/-!
# Shift registers

A register of `w + 1` bits into which one bit is shifted at the low end in each step, as serial links
that send the most significant bit first use it.
-/

namespace Bits

/-- Shift `b` in at the low end; the top bit is lost. -/
def shiftIn {w : Nat} (v : BitVec (w + 1)) (b : Bool) : BitVec (w + 1) :=
  (v.extractLsb' 0 w).concat b

/-- The register after the bits `f 0, …, f (n - 1)` were shifted in, in this order. -/
def shiftMany {w : Nat} (v : BitVec (w + 1)) (f : Nat → Bool) : Nat → BitVec (w + 1)
  | 0 => v
  | n + 1 => shiftIn (shiftMany v f n) (f n)

/-- The `n`-bit word that the bits `f 0, …, f (n - 1)` spell, the most significant first. -/
def ofMsb (f : Nat → Bool) : (n : Nat) → BitVec n
  | 0 => 0#0
  | n + 1 => (ofMsb f n).concat (f n)

/-- The bits of a word, the most significant first. -/
def msbBits {n : Nat} (v : BitVec n) : List Bool := List.ofFn fun i : Fin n => v.getMsbD i

theorem getLsbD_shiftIn {w : Nat} (v : BitVec (w + 1)) (b : Bool) (i : Nat) :
    (shiftIn v b).getLsbD i = if i = 0 then b else (decide (i < w + 1) && v.getLsbD (i - 1)) := by
  unfold shiftIn
  rw [BitVec.getLsbD_concat]
  by_cases h0 : i = 0
  · simp [h0]
  · have hi : (i - 1 < w) ↔ (i < w + 1) := by omega
    simp [h0, hi]

/-- After `n` shifts the low `n` bits are the bits shifted in, and the bits of the start value have
moved up by `n`. -/
theorem getLsbD_shiftMany {w : Nat} (v : BitVec (w + 1)) (f : Nat → Bool) (n i : Nat)
    (hi : i < w + 1) :
    (shiftMany v f n).getLsbD i = if i < n then f (n - 1 - i) else v.getLsbD (i - n) := by
  induction n generalizing i with
  | zero => simp [shiftMany]
  | succ n ih =>
    rw [shiftMany, getLsbD_shiftIn]
    by_cases h0 : i = 0
    · simp [h0]
    · rw [ih (i - 1) (by omega)]
      have h1 : (i - 1 < n) ↔ (i < n + 1) := by omega
      have h2 : n - 1 - (i - 1) = n + 1 - 1 - i := by omega
      have h3 : i - 1 - n = i - (n + 1) := by omega
      simp [h0, h1, h2, h3, hi]

/-- The same for the bits of a list, shifted into a cleared register. -/
theorem getLsbD_foldl_shiftIn {w : Nat} (bits : List Bool) (i : Nat) (hi : i < w + 1) :
    (bits.foldl shiftIn (0 : BitVec (w + 1))).getLsbD i = bits.reverse.getD i false := by
  induction bits using List.reverseRecOn generalizing i with
  | nil => simp
  | append_singleton bits b ih =>
    rw [List.foldl_append, List.foldl_cons, List.foldl_nil, getLsbD_shiftIn, List.reverse_append,
      List.reverse_singleton, List.singleton_append]
    cases i with
    | zero => rfl
    | succ i =>
      rw [if_neg (Nat.succ_ne_zero i), Nat.add_sub_cancel, ih i (by omega), List.getD_cons_succ, decide_eq_true hi,
        Bool.true_and]

@[simp] theorem getLsbD_ofMsb (f : Nat → Bool) (n i : Nat) :
    (ofMsb f n).getLsbD i = (decide (i < n) && f (n - 1 - i)) := by
  induction n generalizing i with
  | zero => simp [ofMsb]
  | succ n ih =>
    rw [ofMsb, BitVec.getLsbD_concat]
    by_cases h0 : i = 0
    · simp [h0]
    · have h1 : (i - 1 < n) ↔ (i < n + 1) := by omega
      have h2 : n - 1 - (i - 1) = n + 1 - 1 - i := by omega
      rw [ih (i - 1), if_neg h0, h2]
      simp [h1]

/-- The bits of a field, read from its top bit down, spell the field. -/
theorem ofMsb_field {w : Nat} (v : BitVec w) (lo n : Nat) :
    ofMsb (fun j => v.getLsbD (lo + n - 1 - j)) n = v.extractLsb' lo n := by
  apply BitVec.eq_of_getLsbD_eq
  intro i hi
  rw [getLsbD_ofMsb, BitVec.getLsbD_extractLsb']
  have h1 : lo + n - 1 - (n - 1 - i) = lo + i := by omega
  simp [hi, h1]

/-- A field of the register that only holds shifted-in bits spells the bits that were shifted in. -/
theorem extract_shiftMany {w : Nat} (v : BitVec (w + 1)) (f : Nat → Bool) (n lo len : Nat)
    (hn : lo + len ≤ n) (hw : lo + len ≤ w + 1) :
    (shiftMany v f n).extractLsb' lo len = ofMsb (fun j => f (n - (lo + len) + j)) len := by
  apply BitVec.eq_of_getLsbD_eq
  intro i hi
  rw [BitVec.getLsbD_extractLsb', getLsbD_shiftMany _ _ _ _ (by omega), getLsbD_ofMsb]
  have h1 : lo + i < n := by omega
  have h2 : n - 1 - (lo + i) = n - (lo + len) + (len - 1 - i) := by omega
  simp [hi, h1, h2]

/-- Shifting in a whole word's bits replaces the register. -/
theorem shiftMany_full {w : Nat} (v : BitVec (w + 1)) (f : Nat → Bool) :
    shiftMany v f (w + 1) = ofMsb f (w + 1) := by
  apply BitVec.eq_of_getLsbD_eq
  intro i hi
  rw [getLsbD_shiftMany _ _ _ _ hi, getLsbD_ofMsb]
  simp [hi]

@[simp] theorem length_msbBits {n : Nat} (v : BitVec n) : (msbBits v).length = n := by
  simp [msbBits]

theorem getElem_msbBits {n : Nat} (v : BitVec n) (i : Nat) (h : i < (msbBits v).length) :
    (msbBits v)[i] = v.getMsbD i := by
  simp [msbBits]

theorem msbBits_eq_map {n : Nat} (v : BitVec n) : msbBits v = (List.range n).map v.getMsbD := by
  apply List.ext_getElem
  · simp
  · intro i h1 h2
    rw [getElem_msbBits, List.getElem_map, List.getElem_range]

/-- A register of the same width, after all the bits of a word. -/
theorem foldl_shiftIn_msbBits {w : Nat} (v : BitVec (w + 1)) : (msbBits v).foldl shiftIn 0 = v := by
  apply BitVec.eq_of_getLsbD_eq
  intro i hi
  rw [getLsbD_foldl_shiftIn _ _ hi, List.getD_eq_getElem _ _ (by simpa using hi), List.getElem_reverse,
    getElem_msbBits, BitVec.getMsbD, length_msbBits, decide_eq_true (by omega), Bool.true_and]
  congr 1
  omega

/-- A register that is wide enough for all the bits holds the same value as any wider one. -/
theorem setWidth_foldl_shiftIn {w w' : Nat} (bits : List Bool) (h : bits.length ≤ w + 1) :
    (bits.foldl shiftIn (0 : BitVec (w + 1))).setWidth (w' + 1) = bits.foldl shiftIn (0 : BitVec (w' + 1)) := by
  apply BitVec.eq_of_getLsbD_eq
  intro i hi
  rw [BitVec.getLsbD_setWidth, decide_eq_true hi, Bool.true_and, getLsbD_foldl_shiftIn _ _ hi]
  by_cases hw : i < w + 1
  · exact getLsbD_foldl_shiftIn _ _ hw
  · rw [BitVec.getLsbD_of_ge _ _ (by omega), List.getD_eq_default _ _ (by rw [List.length_reverse]; omega)]

theorem length_flatMap_msbBits {n : Nat} (bs : List (BitVec n)) :
    (bs.flatMap msbBits).length = n * bs.length := by
  induction bs with
  | nil => rfl
  | cons b bs ih => simp only [List.flatMap_cons, List.length_append, length_msbBits, ih,
      List.length_cons, Nat.mul_succ]; omega

theorem msbBits_append {n m : Nat} (x : BitVec n) (y : BitVec m) :
    msbBits (x ++ y) = msbBits x ++ msbBits y := by
  apply List.ext_getElem
  · simp
  · intro i h1 h2
    rw [getElem_msbBits, BitVec.getMsbD_append]
    by_cases hi : i < n
    · rw [List.getElem_append_left (by simpa using hi), getElem_msbBits, if_neg (by omega)]
    · rw [List.getElem_append_right (by simpa using hi), getElem_msbBits, if_pos (by omega)]
      simp

end Bits
