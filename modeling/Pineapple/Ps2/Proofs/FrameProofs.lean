import Pineapple.Ps2.Proofs.ReceiveProofs

/-!
# Proofs: frames

A reader that waits for a frame in step goes through the receive pages with one phase each, and it is in step with the
next frame if it is back before that frame begins.
-/

namespace Pineapple

open Clocked
open Rv32i (Instr Word Reg readReg writeReg)

namespace Ps2

/-! ## The bits of a byte -/

/-- The byte with the bits from `m` on cleared. -/
def firstBits (byte : BitVec 8) (m : Nat) : BitVec 8 := BitVec.ofNat 8 (byte.toNat % (1 <<< m))

/-- The number of bits that have been sampled before page `n`. -/
def bitsBefore (n : Nat) : Nat := min 8 ((n - 2) / 2)

theorem getLsbD_firstBits (byte : BitVec 8) (m i : Nat) :
    (firstBits byte m).getLsbD i = (decide (i < m) && byte.getLsbD i) := by
  rw [firstBits, BitVec.getLsbD_ofNat, Nat.one_shiftLeft, Nat.testBit_mod_two_pow]
  by_cases hi : i < 8
  · rw [decide_eq_true hi, Bool.true_and]
    rfl
  · rw [decide_eq_false hi, BitVec.getLsbD_of_ge byte i (by omega), Bool.and_false, Bool.false_and]

theorem firstBits_succ (byte : BitVec 8) (m : Nat) :
    firstBits byte m ||| (if byte.getLsbD m then BitVec.ofNat 8 (1 <<< m) else 0) = firstBits byte (m + 1) := by
  refine BitVec.eq_of_getLsbD_eq fun i hi => ?_
  have hbit : (if byte.getLsbD m then BitVec.ofNat 8 (1 <<< m) else 0 : BitVec 8).getLsbD i =
      (decide (m = i) && byte.getLsbD m) := by
    cases byte.getLsbD m with
    | false =>
      rw [if_neg (by decide), Bool.and_false]
      exact BitVec.getLsbD_zero
    | true =>
      rw [if_pos rfl, Bool.and_true, BitVec.getLsbD_ofNat, Nat.one_shiftLeft, Nat.testBit_two_pow, decide_eq_true hi,
        Bool.true_and]
  rw [BitVec.getLsbD_or, getLsbD_firstBits, getLsbD_firstBits, hbit]
  by_cases he : m = i
  · rw [he]
    simp
  · rw [decide_eq_false he, Bool.false_and, Bool.or_false]
    exact congrArg (· && byte.getLsbD i) (decide_eq_decide.mpr (by omega))

theorem firstBits_zero (byte : BitVec 8) : firstBits byte 0 = 0 := by
  rw [firstBits, Nat.one_shiftLeft, Nat.pow_zero, Nat.mod_one]
  rfl

theorem firstBits_eight (byte : BitVec 8) : firstBits byte 8 = byte := by
  refine BitVec.eq_of_getLsbD_eq fun i hi => ?_
  rw [getLsbD_firstBits, decide_eq_true hi, Bool.true_and]

theorem word_or (a b : BitVec 8) : word a ||| word b = word (a ||| b) := (BitVec.setWidth_or ..).symm

/-- The next page, with the data bit that is on the line if the page samples one. -/
theorem accum_succ (byte v : BitVec 8) {n : Nat} (hn : 1 ≤ n)
    (hdata : samples n → data v = byte.getLsbD ((n - 3) / 2)) :
    word (firstBits byte (bitsBefore n)) ||| word (sampled n v) = word (firstBits byte (bitsBefore (n + 1))) := by
  rw [word_or]
  by_cases hs : samples n
  · obtain ⟨hodd, h3, h17⟩ := hs
    have hbefore : bitsBefore n = (n - 3) / 2 := by
      unfold bitsBefore
      omega
    have hafter : bitsBefore (n + 1) = (n - 3) / 2 + 1 := by
      unfold bitsBefore
      omega
    rw [hbefore, hafter, ← firstBits_succ byte ((n - 3) / 2), sampled, hdata ⟨hodd, h3, h17⟩]
    by_cases hb : byte.getLsbD ((n - 3) / 2) = true
    · rw [if_pos ⟨⟨hodd, h3, h17⟩, hb⟩, if_pos hb]
    · rw [if_neg fun h => hb h.2, if_neg hb]
  · have hsame : bitsBefore (n + 1) = bitsBefore n := by
      unfold bitsBefore
      unfold samples at hs
      omega
    rw [hsame, sampled, if_neg fun h => hs h.1]
    exact congrArg word BitVec.or_zero

/-! ## One frame -/

section Frame

variable {O : Type} {P : List Page} {out : Nat × PState → List O} {rom : Rom} {inp : Nat → Inputs} (hP : HasReceive P)
  (hq : ∀ n, 1 ≤ n → n ≤ 22 → Paged.Quiet out n 0) {idle t₀ : Nat} {bytes : List (BitVec 8)} {edge : Nat → Nat}
  (hs : Sends (fun τ => (inp τ).ui_in) idle t₀ bytes edge) {k t : Nat} {regs : Regs} {mem : MemRegs}

/-- The line of CLOCK. -/
abbrev clockLine (inp : Nat → Inputs) (τ : Nat) : Bool := clock (inp τ).ui_in

include hP hq hs

/-- From START_LOW in step, the first `n` phases of a frame. -/
theorem frame_path (hk : k < bytes.length) (h0 : InStep (clockLine inp) edge 410 (22 * k) (t + 136))
    (h4 : readReg regs 4 = 0) (n : Nat) (hn : n ≤ 22) :
    ∃ t' regs', t ≤ t' ∧ Kept regs regs' ∧ readReg regs' 4 = word (firstBits (bytes.getD k 0) (bitsBefore (n + 1))) ∧
      InStep (clockLine inp) edge 410 (22 * k + n) (t' + 136) ∧
      (∀ p, n = p + 1 → edge (22 * k + p) ≤ t' ∧ t' ≤ edge (22 * k + p) + 1781) ∧
      Silent (Paged.step P (Env.chip rom inp).load) out (t, ⟨1, 0, regs, mem⟩) (t', ⟨n + 1, 0, regs', mem⟩) := by
  induction n with
  | zero =>
    refine ⟨t, regs, le_rfl, .refl regs, ?_, h0, fun p hp => absurd hp (by omega), .refl _⟩
    rw [h4, show bitsBefore (0 + 1) = 0 from rfl, firstBits_zero]
    rfl
  | succ n ih =>
    obtain ⟨t₁, regs₁, hle, hkept, hx4, hstep, -, hp⟩ := ih (by omega)
    have hphase := hs.phase (22 * k + n) (by omega)
    have hlong := hs.long (22 * k + n) (by omega)
    unfold pageClocks at hlong
    obtain ⟨j, hdet, hlo, hhi⟩ := hstep.detects (d := 411) (by omega) (by omega) hphase (by omega)
    have hparity : phaseLevel (22 * k + n) = phaseLevel (n + 1 - 1) := by
      unfold phaseLevel
      exact decide_eq_decide.mpr (by omega)
    have hdet' : Detects (fun τ => clock (inp τ).ui_in) 411 (n + 1 - 1) (t₁ + 136) j :=
      ⟨hparity ▸ hdet.seen, hparity ▸ hdet.first⟩
    obtain ⟨t₂, regs₂, hlo₂, hhi₂, -, hkept₂, hx4₂, hp₂⟩ :=
      @receive_page _ P out rom inp hP hq (n + 1) (by omega) (by omega) t₁ regs₁ mem j hdet'
    refine ⟨t₂, regs₂, by omega, hkept.trans hkept₂, ?_, hphase.next (by omega) (by omega), fun p hpn => ?_,
      hp.trans hp₂⟩
    · rw [hx4₂, hx4]
      refine accum_succ _ _ (by omega) fun hsamp => ?_
      obtain ⟨hodd, h3, h17⟩ := hsamp
      refine hs.data k hk ((n + 1 - 3) / 2) (by omega) _ ?_ ?_
      · rw [show 22 * k + 2 * ((n + 1 - 3) / 2 + 1) = 22 * k + n by omega]
        exact hlo
      · rw [show 22 * k + 2 * ((n + 1 - 3) / 2 + 1) + 1 = 22 * k + n + 1 by omega]
        omega
    · obtain rfl : p = n := by omega
      omega

end Frame

end Ps2

end Pineapple
