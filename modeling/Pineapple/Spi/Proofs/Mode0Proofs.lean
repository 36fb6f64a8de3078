import Mathlib.Data.List.Chain
import Mathlib.Tactic.Common
import Pineapple.Spi.Mode0

/-!
# Proofs: bytes on the pins

A bit is sent by two sets of levels, one with SCK low and one with SCK high. Eight of them make a byte, which an
aligned slave completes with its last bit.
-/

namespace Spi

open Bits

namespace Mode0

variable (s : Mode0)

theorem decode_append (vs ws : List (BitVec 8)) : s.decode (vs ++ ws) = s.decode vs ++ (s.after vs).decode ws := by
  induction vs generalizing s with
  | nil => rfl
  | cons v vs ih =>
    rw [List.cons_append, decode, decode, ih, List.append_assoc]
    rfl

theorem after_append (vs ws : List (BitVec 8)) : s.after (vs ++ ws) = (s.after vs).after ws := List.foldl_append

/-- Levels with CS and SCK low. -/
theorem next_low {v : BitVec 8} (hcs : csOf v = false) (hsck : sckOf v = false) :
    s.next v = { s with sck := false } ∧ s.completes v = none := by
  rw [completes, next, takes, hcs, hsck]
  simp

/-- The levels `u` and then `v` send a bit. -/
structure Sends (u v : BitVec 8) : Prop where
  low : csOf u = false ∧ sckOf u = false
  high : csOf v = false ∧ sckOf v = true

variable {s} {u v : BitVec 8}

/-- One bit. -/
theorem after_bit (h : Sends u v) : s.after [u, v] = ⟨(s.bits + 1) % 8, shiftIn s.shift_reg (mosiOf v), true⟩ := by
  show (s.next u).next v = _
  rw [(s.next_low h.low.1 h.low.2).1, next, h.high.1, takes, h.high.1, h.high.2]
  rfl

theorem decode_bit (h : Sends u v) :
    s.decode [u, v] = if s.bits = 7 then [(dcOf v, shiftIn s.shift_reg (mosiOf v))] else [] := by
  have hv : ({ s with sck := false } : Mode0).completes v =
      if s.bits = 7 then some (dcOf v, shiftIn s.shift_reg (mosiOf v)) else none := by
    rw [completes, takes, h.high.1, h.high.2]
    simp
  show (s.completes u).toList ++ (((s.next u).completes v).toList ++ []) = _
  rw [(s.next_low h.low.1 h.low.2).2, (s.next_low h.low.1 h.low.2).1, hv]
  split <;> rfl

/-! ## Bytes -/

section Byte

variable {u v : Nat → BitVec 8} {f : Nat → Bool} (h : ∀ i < 8, Sends (u i) (v i)) (hf : ∀ i < 8, mosiOf (v i) = f i)

/-- The levels of the first `n` bits. -/
def bitLevels (u v : Nat → BitVec 8) (n : Nat) : List (BitVec 8) := (List.range n).flatMap fun i => [u i, v i]

theorem bitLevels_succ (u v : Nat → BitVec 8) (n : Nat) : bitLevels u v (n + 1) = bitLevels u v n ++ [u n, v n] := by
  rw [bitLevels, List.range_succ, List.flatMap_append, List.flatMap_singleton]
  rfl

theorem bitLevels_prefix (u v : Nat → BitVec 8) {m n : Nat} (hmn : m ≤ n) :
    ∃ more, bitLevels u v n = bitLevels u v m ++ more := by
  induction hmn with
  | refl => exact ⟨[], (List.append_nil _).symm⟩
  | @step n _ ih =>
    obtain ⟨more, ih⟩ := ih
    exact ⟨more ++ [u n, v n], by rw [bitLevels_succ, ih, List.append_assoc]⟩

include h hf

/-- A slave completes no byte before the bits that it lacks. -/
theorem decode_bits {n : Nat} (hn : n ≤ 8) (h0 : s.bits + n ≤ 7) : s.decode (bitLevels u v n) = [] ∧
    (s.after (bitLevels u v n)).bits = s.bits + n ∧
      (s.after (bitLevels u v n)).shift_reg = shiftMany s.shift_reg f n := by
  induction n with
  | zero => exact ⟨rfl, rfl, rfl⟩
  | succ n ih =>
    obtain ⟨h1, h2, h3⟩ := ih (by omega) (by omega)
    rw [bitLevels_succ, decode_append, after_append, h1, decode_bit (h n (by omega)), after_bit (h n (by omega)), h2,
      if_neg (by omega), h3, hf n (by omega)]
    exact ⟨rfl, by show (s.bits + n + 1) % 8 = _; omega, rfl⟩

/-- An aligned slave completes the byte, and is aligned again. -/
theorem decode_byte (h0 : s.bits = 0) : s.decode (bitLevels u v 8) = [(dcOf (v 7), ofMsb f 8)] ∧
    (s.after (bitLevels u v 8)).bits = 0 := by
  obtain ⟨h1, h2, h3⟩ := @decode_bits s u v f h hf 7 (by decide) (by omega)
  have h7 : (s.after (bitLevels u v 7)).bits = 7 := by omega
  rw [bitLevels_succ, decode_append, after_append, h1, decode_bit (h 7 (by decide)), after_bit (h 7 (by decide)),
    if_pos h7, h3, hf 7 (by decide), h7]
  exact ⟨congrArg (fun w => [(dcOf (v 7), w)]) (shiftMany_full s.shift_reg f), rfl⟩

/-- A slave that has already taken some bits completes a byte too early. Its last bit is not the last one that was
sent. -/
theorem decode_pending (h0 : 1 ≤ s.bits) (h7 : s.bits ≤ 7) (rest : List (BitVec 8)) :
    ∃ d w bytes, s.decode (bitLevels u v 8 ++ rest) = (d, w) :: bytes ∧ w.getLsbD 0 = f (7 - s.bits) := by
  obtain ⟨n, hn⟩ : ∃ n, n = 7 - s.bits := ⟨_, rfl⟩
  have hlast : n < 8 := by omega
  obtain ⟨h1, h2, -⟩ := @decode_bits s u v f h hf n (by omega) (by omega)
  have h7 : (s.after (bitLevels u v n)).bits = 7 := by omega
  obtain ⟨more, hmore⟩ := bitLevels_prefix u v (show n + 1 ≤ 8 by omega)
  rw [hmore, bitLevels_succ, List.append_assoc, List.append_assoc, decode_append, h1, List.nil_append, decode_append,
    decode_bit (h n hlast), if_pos h7, hf n hlast, ← hn]
  refine ⟨_, _, _, rfl, ?_⟩
  rw [getLsbD_shiftIn]
  simp

end Byte

/-! ## Sampled levels -/

/-- The slave has seen the levels `v`. -/
structure Settled (s : Mode0) (v : BitVec 8) : Prop where
  sck : s.sck = sckOf v
  bits : csOf v = true → s.bits = 0

theorem settled_next (s : Mode0) (v : BitVec 8) : (s.next v).Settled v := by
  unfold next
  split
  · exact ⟨rfl, fun _ => rfl⟩
  · rename_i hcs
    split
    · rename_i ht
      unfold takes at ht
      simp only [Bool.and_eq_true] at ht
      exact ⟨ht.2.symm, fun h => absurd h hcs⟩
    · exact ⟨rfl, fun h => absurd h hcs⟩

/-- Levels that do not change. -/
theorem Settled.next_eq {s : Mode0} {v : BitVec 8} (h : s.Settled v) : s.next v = s ∧ s.completes v = none := by
  have ht : s.takes v = false := by
    unfold takes
    rw [h.sck]
    cases sckOf v <;> simp
  obtain ⟨bits, shift_reg, sck⟩ := s
  obtain ⟨rfl, hbits⟩ := h
  unfold next completes
  rw [ht]
  constructor
  · by_cases hcs : csOf v = true
    · obtain rfl : bits = 0 := hbits hcs
      rw [if_pos hcs]
    · rw [if_neg hcs]
      rfl
  · simp

theorem Settled.after {pins : Nat → BitVec 8} {s : Mode0} {t : Nat} (h : s.Settled (pins t)) (n : Nat) :
    (s.after ((List.range' (t + 1) n).map pins)).Settled (pins (t + n)) := by
  cases n with
  | zero => exact h
  | succ n =>
    rw [List.range'_concat, List.map_append, after_append, show t + 1 + 1 * n = t + (n + 1) by omega]
    exact settled_next _ _

/-- A slave that samples pins in each cycle sees what is stored in them, and nothing else. -/
theorem decode_sampled {pins : Nat → BitVec 8} {store : Nat → Option (BitVec 8)}
    (hp : ∀ τ, pins (τ + 1) = (store τ).getD (pins τ)) {s : Mode0} {t : Nat} (h : s.Settled (pins t)) (n : Nat) :
    s.decode ((List.range' (t + 1) n).map pins) = s.decode ((List.range' t n).filterMap store) ∧
      s.after ((List.range' (t + 1) n).map pins) = s.after ((List.range' t n).filterMap store) := by
  induction n generalizing s t with
  | zero => exact ⟨rfl, rfl⟩
  | succ n ih =>
    obtain ⟨hdec, haft⟩ := ih (settled_next s (pins (t + 1)))
    rw [List.range'_succ, List.range'_succ, List.map_cons]
    cases hst : store t with
    | none =>
      have hsame : pins (t + 1) = pins t := by
        rw [hp, hst]
        rfl
      rw [List.filterMap_cons_none hst]
      rw [hsame, (h.next_eq).1] at hdec haft
      refine ⟨?_, ?_⟩
      · rw [decode, hsame, (h.next_eq).2, (h.next_eq).1]
        exact hdec
      · show (s.next (pins (t + 1))).after _ = _
        rw [hsame, (h.next_eq).1]
        exact haft
    | some v =>
      have hval : pins (t + 1) = v := by
        rw [hp, hst]
        rfl
      rw [List.filterMap_cons_some hst]
      rw [hval] at hdec haft ⊢
      refine ⟨?_, haft⟩
      rw [decode, decode, hdec]

/-! ## Steady levels -/

/-- CS is low throughout, and MOSI and DC keep their levels where SCK rises, whatever the levels before are. -/
structure Steady (vs : List (BitVec 8)) : Prop where
  cs : ∀ v ∈ vs, csOf v = false
  stable : ∀ u, (u :: vs).IsChain Stable

theorem Steady.nil : Steady [] :=
  ⟨fun _ hv => absurd hv List.not_mem_nil, .singleton⟩

theorem Steady.append {vs ws : List (BitVec 8)} (hv : Steady vs) (hw : Steady ws) : Steady (vs ++ ws) :=
  ⟨fun v h => (List.mem_append.mp h).elim (hv.cs v) (hw.cs v), fun u =>
    (hv.stable u).append (hw.stable u).tail fun w _ => (List.isChain_cons.mp (hw.stable w)).1⟩

theorem Steady.flatten {L : List (List (BitVec 8))} (h : ∀ vs ∈ L, Steady vs) : Steady L.flatten := by
  induction L with
  | nil => exact .nil
  | cons vs L ih => exact (h vs List.mem_cons_self).append (ih fun ws hws => h ws (List.mem_cons_of_mem _ hws))

/-- The levels of a bit. -/
theorem Sends.steady {u v : BitVec 8} (h : Sends u v) (hst : Stable u v) : Steady [u, v] := by
  refine ⟨fun w hw => ?_, fun w => ?_⟩
  · rcases List.mem_cons.mp hw with rfl | hw
    · exact h.low.1
    · rw [List.mem_singleton.mp hw]
      exact h.high.1
  · have hlow : Stable w u := fun _ hu => absurd (h.low.2.symm.trans hu) Bool.false_ne_true
    exact List.isChain_cons_cons.mpr ⟨hlow, List.isChain_cons_cons.mpr ⟨hst, .singleton v⟩⟩

theorem steady_bitLevels {u v : Nat → BitVec 8} {n : Nat} (h : ∀ i < n, Sends (u i) (v i) ∧ Stable (u i) (v i)) :
    Steady (bitLevels u v n) := by
  refine Steady.flatten fun vs hvs => ?_
  obtain ⟨i, hi, rfl⟩ := List.mem_map.mp hvs
  obtain ⟨hs, hst⟩ := h i (List.mem_range.mp hi)
  exact hs.steady hst

end Mode0

end Spi
