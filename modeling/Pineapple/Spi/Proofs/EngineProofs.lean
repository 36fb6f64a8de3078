import Mathlib.Algebra.Ring.Parity
import Mathlib.Tactic.Common
import Pineapple.Clocked.Trace
import Pineapple.Spi.Transaction

/-!
# Proofs: the engine's run of one transaction

From the acceptance of a request on, the engine's registers in every cycle are given in closed form:
`loState i` and `hiState i` for the two halves of bit period `i`, then `doneState` and `postState`.
None of them mentions the request inputs after the acceptance.
-/

namespace Pineapple

open Bits

theorem nbytes_cases (size : BitVec 2) :
    (size = 0 ∧ nbytes size = 1) ∨ (size = 1 ∧ nbytes size = 2) ∨
      (size ≠ 0 ∧ size ≠ 1 ∧ nbytes size = 4) := by
  unfold nbytes
  split_ifs with h0 h1
  · exact Or.inl ⟨h0, rfl⟩
  · exact Or.inr (Or.inl ⟨h1, rfl⟩)
  · exact Or.inr (Or.inr ⟨h0, h1, rfl⟩)

theorem nbytes_pos (size : BitVec 2) : 1 ≤ nbytes size := by
  rcases nbytes_cases size with ⟨-, h⟩ | ⟨-, h⟩ | ⟨-, -, h⟩ <;> omega

theorem nbytes_le (size : BitVec 2) : nbytes size ≤ 4 := by
  rcases nbytes_cases size with ⟨-, h⟩ | ⟨-, h⟩ | ⟨-, -, h⟩ <;> omega

namespace Req

variable (r : Req)

/-- The shift preload of the request. -/
def preload : BitVec 64 := build_preload r.we r.size r.addr r.wdata

theorem nbits_le : r.nbits ≤ 64 := by
  have := nbytes_le r.size
  simp only [nbits]; omega

theorem nbits_gt : 32 < r.nbits := by
  have := nbytes_pos r.size
  simp only [nbits]; omega

theorem data_field_word (wd : BitVec 32) {size : BitVec 2} (h0 : size ≠ 0) (h1 : size ≠ 1) :
    data_field true size wd = wd.extractLsb' 0 8 ++ wd.extractLsb' 8 8 ++ wd.extractLsb' 16 8 ++
      wd.extractLsb' 24 8 := by
  unfold data_field
  split
  · simp at *
  · split
    · exact absurd rfl h0
    · exact absurd rfl h1
    · rfl

/-- The data field starts with the bytes a write sends. -/
theorem data_field_prefix (wd : BitVec 32) (size : BitVec 2) :
    ∃ rest, msbBits (data_field true size wd) = (toLE wd (nbytes size)).flatMap msbBits ++ rest := by
  have htake : ∀ n, toLE wd n = (List.range n).map fun i => wd.extractLsb' (8 * i) 8 := fun _ => rfl
  rcases nbytes_cases size with ⟨rfl, h⟩ | ⟨rfl, h⟩ | ⟨h0, h1, h⟩
  · refine ⟨msbBits 0#24, ?_⟩
    rw [h, htake]
    exact (msbBits_append (wd.extractLsb' 0 8) 0#24).trans (by simp [List.range_succ])
  · refine ⟨msbBits 0#16, ?_⟩
    rw [h, htake]
    refine (msbBits_append (wd.extractLsb' 0 8 ++ wd.extractLsb' 8 8) 0#16).trans ?_
    rw [msbBits_append]
    simp [List.range_succ]
  · refine ⟨[], ?_⟩
    rw [h, htake, data_field_word wd h0 h1]
    refine (msbBits_append (wd.extractLsb' 0 8 ++ wd.extractLsb' 8 8 ++ wd.extractLsb' 16 8)
      (wd.extractLsb' 24 8)).trans ?_
    rw [msbBits_append, msbBits_append]
    simp [List.range_succ]

/-- The preload starts with the bits of the transaction. -/
theorem wireBits_prefix : ∃ rest, msbBits r.preload = r.wireBits ++ rest := by
  unfold preload build_preload wireBits
  rw [msbBits_append, msbBits_append]
  cases hw : r.we with
  | true =>
    obtain ⟨rest, h⟩ := data_field_prefix r.wdata r.size
    exact ⟨rest, by rw [h]; simp [CMD_WRITE]⟩
  | false => exact ⟨msbBits (data_field false r.size r.wdata), by simp [CMD_READ]⟩

theorem length_wireBits_le : r.wireBits.length ≤ r.nbits := by
  unfold wireBits nbits
  cases hw : r.we with
  | true =>
    simp only [↓reduceIte, List.length_append, length_msbBits, length_flatMap_msbBits, length_toLE]
    omega
  | false => simp

/-- Bit `i` on the wire is bit `63 - i` of the preload. -/
theorem getElem_wireBits (i : Nat) (h : i < r.wireBits.length) :
    r.wireBits[i] = r.preload.getLsbD (63 - i) := by
  obtain ⟨rest, hr⟩ := r.wireBits_prefix
  have h64 := r.nbits_le
  have hlen := r.length_wireBits_le
  have hi : i < (msbBits r.preload).length := by simp; omega
  have : (msbBits r.preload)[i] = r.wireBits[i] := by
    simp only [hr, List.getElem_append_left h]
  rw [← this, getElem_msbBits, BitVec.getMsbD]
  have h1 : i < 64 := by omega
  simp [h1]

end Req

namespace Qspi

/-- `e` runs on the given request inputs and MISO waveform. -/
def Run (e : Nat → Qspi) (req : Nat → Req) (miso : Nat → Bool) : Prop :=
  ∀ t, e (t + 1) = (e t).step (req t) (miso t)

theorem Run.trace {e : Nat → Qspi} {req : Nat → Req} {miso : Nat → Bool} (he : Run e req miso) :
    Clocked.Trace (fun e (i : Req × Bool) => e.step i.1 i.2) (fun t => (req t, miso t)) e := he

/-! ## Closed forms -/

section ClosedForm

variable (e0 : Qspi) (r : Req) (f : Nat → Bool)

/-- SCK low half of bit period `i` after the bits `f 0, …, f (i - 1)` were sampled. `e0` is the
engine as it was when it accepted `r`. -/
def loState (i : Nat) : Qspi where
  state := .shiftLo
  nbits_total := BitVec.ofNat 7 r.nbits
  bits_done := BitVec.ofNat 7 i
  sreg := shiftMany r.preload f i
  data_bits := BitVec.ofNat 6 (8 * nbytes r.size)
  req_rdata := e0.req_rdata
  req_ready := false
  pin_cs0 := if r.dev = 1 then false else true
  pin_cs1 := if r.dev = 2 then false else true
  pin_sck := decide (0 < i)
  pin_mosi := if i = 0 then e0.pin_mosi else r.preload.getLsbD (64 - i)

/-- SCK high half of bit period `i`. -/
def hiState (i : Nat) : Qspi :=
  { loState e0 r f i with
    state := .shiftHi
    pin_sck := false
    pin_mosi := r.preload.getLsbD (63 - i) }

/-- `ST_DONE`, after all bits. -/
def doneState : Qspi :=
  { loState e0 r f r.nbits with
    state := .done
    bits_done := BitVec.ofNat 7 (r.nbits - 1) }

/-- `ST_POST`: `req_ready` is high. -/
def postState : Qspi :=
  { doneState e0 r f with
    state := .post
    pin_cs0 := true
    pin_cs1 := true
    pin_sck := false
    req_ready := true
    req_rdata := ofLE 32 ((List.range (nbytes r.size)).map fun k =>
      ofMsb (fun j => f (32 + 8 * k + j)) 8) }

/-- Back in `ST_IDLE`. -/
def restState : Qspi :=
  { postState e0 r f with
    state := .idle
    req_ready := false }

variable {e0 r f}

theorem step_accept (hs : e0.state = .idle) (hv : r.valid = true) (m : Bool) :
    e0.step r m = loState e0 r f 0 := by
  have hd : (if r.size = 0 then (8 : BitVec 6) else if r.size = 1 then 16 else 32) =
      BitVec.ofNat 6 (8 * nbytes r.size) := by
    unfold nbytes; split_ifs <;> rfl
  have hn : (32 : BitVec 7) + (if r.size = 0 then 8 else if r.size = 1 then 16 else 32) =
      BitVec.ofNat 7 r.nbits := by
    unfold Req.nbits nbytes; split_ifs <;> rfl
  simp only [step, hs, hv, loState, hd, hn]
  rfl

theorem step_loState {i : Nat} (hi : i < r.nbits) (q : Req) (m : Bool) :
    (loState e0 r f i).step q m = hiState e0 r f i := by
  have h64 := r.nbits_le
  have hb : (shiftMany r.preload f i).getLsbD 63 = r.preload.getLsbD (63 - i) := by
    rw [getLsbD_shiftMany _ _ _ _ (by omega), if_neg (by omega)]
  simp only [step, loState, hiState, hb]

theorem step_hiState {i : Nat} (hi : i < r.nbits) (q : Req) :
    (hiState e0 r f i).step q (f i) =
      if i + 1 = r.nbits then doneState e0 r f else loState e0 r f (i + 1) := by
  have h64 := r.nbits_le
  have hsum : BitVec.ofNat 7 i + 1 = BitVec.ofNat 7 (i + 1) := by
    rw [BitVec.ofNat_add]; rfl
  have hlast : BitVec.ofNat 7 (i + 1) = BitVec.ofNat 7 r.nbits ↔ i + 1 = r.nbits := by
    rw [← BitVec.toNat_inj, BitVec.toNat_ofNat, BitVec.toNat_ofNat]; omega
  have hmosi : 64 - (i + 1) = 63 - i := by omega
  by_cases h : i + 1 = r.nbits
  · rw [if_pos h]
    simp only [step, hiState, loState, doneState, hsum, hlast.mpr h, ↓reduceIte]
    simp [← h, shiftMany, shiftIn, hmosi]
  · rw [if_neg h]
    simp only [step, hiState, loState, hsum, if_neg (mt hlast.mp h)]
    simp [shiftMany, shiftIn, hmosi]

/-- The bytes at the low end of the shift register after all bits, in transmission order. -/
theorem sreg_byte (k : Nat) (hk : k < nbytes r.size) :
    (shiftMany r.preload f r.nbits).extractLsb' (8 * (nbytes r.size - 1 - k)) 8 =
      ofMsb (fun j => f (32 + 8 * k + j)) 8 := by
  have h4 := nbytes_le r.size
  rw [extract_shiftMany _ _ _ _ _ (by simp only [Req.nbits]; omega) (by omega)]
  have : r.nbits - (8 * (nbytes r.size - 1 - k) + 8) = 32 + 8 * k := by
    simp only [Req.nbits]; omega
  rw [this]

/-- `ST_DONE` puts the sampled bytes back into address order. -/
theorem rdata_field_eq :
    rdata_field (BitVec.ofNat 6 (8 * nbytes r.size)) (shiftMany r.preload f r.nbits) =
      ofLE 32 ((List.range (nbytes r.size)).map fun k => ofMsb (fun j => f (32 + 8 * k + j)) 8) := by
  have hx := sreg_byte (r := r) (f := f)
  generalize shiftMany r.preload f r.nbits = v at hx ⊢
  rcases nbytes_cases r.size with ⟨-, h⟩ | ⟨-, h⟩ | ⟨-, -, h⟩ <;> rw [h] at hx ⊢
  · have h0 : v.extractLsb' 0 8 = _ := hx 0 (by omega)
    refine Eq.trans ?_ (ofLE_one _).symm
    show 0#24 ++ v.extractLsb' 0 8 = _
    rw [h0]
  · have h0 : v.extractLsb' 8 8 = _ := hx 0 (by omega)
    have h1 : v.extractLsb' 0 8 = _ := hx 1 (by omega)
    refine Eq.trans ?_ (ofLE_two _ _).symm
    show 0#16 ++ v.extractLsb' 0 8 ++ v.extractLsb' 8 8 = _
    rw [h0, h1]
  · have h0 : v.extractLsb' 24 8 = _ := hx 0 (by omega)
    have h1 : v.extractLsb' 16 8 = _ := hx 1 (by omega)
    have h2 : v.extractLsb' 8 8 = _ := hx 2 (by omega)
    have h3 : v.extractLsb' 0 8 = _ := hx 3 (by omega)
    refine Eq.trans ?_ (ofLE_four _ _ _ _).symm
    show (v.extractLsb' 0 8 ++ v.extractLsb' 8 8 ++ v.extractLsb' 16 8 ++ v.extractLsb' 24 8 :
      BitVec 32) = _
    rw [h0, h1, h2, h3]

/-- MOSI holds through the high half of the bit period. -/
theorem step_hiState_mosi {i : Nat} (q : Req) (m : Bool) :
    ((hiState e0 r f i).step q m).pin_mosi = r.preload.getLsbD (63 - i) := by
  rfl

theorem step_doneState (q : Req) (m : Bool) : (doneState e0 r f).step q m = postState e0 r f := by
  simp only [step, doneState, loState, postState, rdata_field_eq]

theorem step_postState (q : Req) (m : Bool) : (postState e0 r f).step q m = restState e0 r f := rfl

end ClosedForm

/-! ## The run of a transaction -/

section Run

variable {e : Nat → Qspi} {req : Nat → Req} {miso : Nat → Bool} {t : Nat}

/-- The bits the engine samples in a transaction accepted in cycle `t`. -/
def samples (miso : Nat → Bool) (t : Nat) : Nat → Bool := fun i => miso (t + 2 + 2 * i)

theorem run_loState (he : Run e req miso) (ha : Accepts (e t) (req t)) (i : Nat)
    (hi : i < (req t).nbits) :
    e (t + 1 + 2 * i) = loState (e t) (req t) (samples miso t) i := by
  induction i with
  | zero => exact (he t).trans (step_accept ha.1 ha.2 _)
  | succ i ih =>
    have hlo := ih (by omega)
    have hhi : e (t + 1 + 2 * i + 1) = hiState (e t) (req t) (samples miso t) i := by
      rw [he, hlo, step_loState (by omega)]
    have hm : miso (t + 1 + 2 * i + 1) = samples miso t i := by
      simp only [samples]; congr 1; omega
    rw [show t + 1 + 2 * (i + 1) = t + 1 + 2 * i + 1 + 1 by omega, he, hhi, hm,
      step_hiState (by omega), if_neg (by omega)]

theorem run_hiState (he : Run e req miso) (ha : Accepts (e t) (req t)) (i : Nat)
    (hi : i < (req t).nbits) :
    e (t + 2 + 2 * i) = hiState (e t) (req t) (samples miso t) i := by
  rw [show t + 2 + 2 * i = t + 1 + 2 * i + 1 by omega, he, run_loState he ha i hi,
    step_loState hi]

theorem run_doneState (he : Run e req miso) (ha : Accepts (e t) (req t)) :
    e (t + 1 + 2 * (req t).nbits) = doneState (e t) (req t) (samples miso t) := by
  have hgt := (req t).nbits_gt
  have hm : miso (t + 2 + 2 * ((req t).nbits - 1)) = samples miso t ((req t).nbits - 1) := rfl
  rw [show t + 1 + 2 * (req t).nbits = t + 2 + 2 * ((req t).nbits - 1) + 1 by omega, he,
    run_hiState he ha _ (by omega), hm, step_hiState (by omega), if_pos (by omega)]

theorem run_postState (he : Run e req miso) (ha : Accepts (e t) (req t)) :
    e (t + (req t).latency) = postState (e t) (req t) (samples miso t) := by
  rw [show t + (req t).latency = t + 1 + 2 * (req t).nbits + 1 by simp only [Req.latency]; omega,
    he, run_doneState he ha, step_doneState]

theorem run_restState (he : Run e req miso) (ha : Accepts (e t) (req t)) :
    e (t + (req t).latency + 1) = restState (e t) (req t) (samples miso t) := by
  rw [he, run_postState he ha, step_postState]

/-- The cycles after the acceptance, by the closed form that describes them. -/
theorem run_cases (he : Run e req miso) (ha : Accepts (e t) (req t)) (j : Nat) (h1 : t < j)
    (h2 : j ≤ t + (req t).latency + 1) :
    (∃ i < (req t).nbits, j = t + 1 + 2 * i ∧ e j = loState (e t) (req t) (samples miso t) i) ∨
    (∃ i < (req t).nbits, j = t + 2 + 2 * i ∧ e j = hiState (e t) (req t) (samples miso t) i) ∨
    (j = t + 1 + 2 * (req t).nbits ∧ e j = doneState (e t) (req t) (samples miso t)) ∨
    (j = t + (req t).latency ∧ e j = postState (e t) (req t) (samples miso t)) ∨
    (j = t + (req t).latency + 1 ∧ e j = restState (e t) (req t) (samples miso t)) := by
  have hlat : (req t).latency = 2 * (req t).nbits + 2 := rfl
  by_cases hlast : j = t + (req t).latency + 1
  · exact Or.inr (Or.inr (Or.inr (Or.inr ⟨hlast, hlast ▸ run_restState he ha⟩)))
  by_cases hpost : j = t + (req t).latency
  · exact Or.inr (Or.inr (Or.inr (Or.inl ⟨hpost, hpost ▸ run_postState he ha⟩)))
  by_cases hdone : j = t + 1 + 2 * (req t).nbits
  · exact Or.inr (Or.inr (Or.inl ⟨hdone, hdone ▸ run_doneState he ha⟩))
  rcases Nat.even_or_odd' (j - (t + 1)) with ⟨i, hi | hi⟩
  · have hj : j = t + 1 + 2 * i := by omega
    exact Or.inl ⟨i, by omega, hj, hj ▸ run_loState he ha i (by omega)⟩
  · have hj : j = t + 2 + 2 * i := by omega
    exact Or.inr (Or.inl ⟨i, by omega, hj, hj ▸ run_hiState he ha i (by omega)⟩)

/-- SCK is high in exactly the cycles that follow a sampling edge. -/
theorem run_sck (he : Run e req miso) (ha : Accepts (e t) (req t)) (j : Nat) (h1 : t < j)
    (h2 : j ≤ t + (req t).latency + 1) :
    (e j).pin_sck = true ↔ ∃ i < (req t).nbits, j = t + 3 + 2 * i := by
  have hlat : (req t).latency = 2 * (req t).nbits + 2 := rfl
  have hgt := (req t).nbits_gt
  rcases run_cases he ha j h1 h2 with
    ⟨i, hi, hj, h⟩ | ⟨i, hi, hj, h⟩ | ⟨hj, h⟩ | ⟨hj, h⟩ | ⟨hj, h⟩
  · have hsck : (e j).pin_sck = decide (0 < i) := by rw [h]; rfl
    rw [hsck, decide_eq_true_iff]
    exact ⟨fun h0 => ⟨i - 1, by omega, by omega⟩, fun ⟨k, hk, hjk⟩ => by omega⟩
  · have hsck : (e j).pin_sck = false := by rw [h]; rfl
    exact ⟨fun h0 => by simp [hsck] at h0, fun ⟨k, hk, hjk⟩ => by omega⟩
  · have hsck : (e j).pin_sck = decide (0 < (req t).nbits) := by rw [h]; rfl
    rw [hsck, decide_eq_true_iff]
    exact ⟨fun h0 => ⟨(req t).nbits - 1, by omega, by omega⟩, fun _ => by omega⟩
  · have hsck : (e j).pin_sck = false := by rw [h]; rfl
    exact ⟨fun h0 => by simp [hsck] at h0, fun ⟨k, hk, hjk⟩ => by omega⟩
  · have hsck : (e j).pin_sck = false := by rw [h]; rfl
    exact ⟨fun h0 => by simp [hsck] at h0, fun ⟨k, hk, hjk⟩ => by omega⟩

/-- Every accepted request runs a well-formed transaction, whatever the request inputs do later. -/
theorem transaction_of_accepts (he : Run e req miso) (ha : Accepts (e t) (req t)) :
    Transaction e miso (req t) t where
  busy j h1 h2 := by
    rcases run_cases he ha j h1 (by omega) with
      ⟨i, -, -, h⟩ | ⟨i, -, -, h⟩ | ⟨-, h⟩ | ⟨-, h⟩ | ⟨h, -⟩
    · simp [h, loState]
    · simp [h, hiState]
    · simp [h, doneState]
    · simp [h, postState]
    · omega
  idle := by simp [run_restState he ha, restState]
  cs0 j h1 h2 := by
    have hlat : (req t).latency = 2 * (req t).nbits + 2 := rfl
    rcases run_cases he ha j h1 h2 with
      ⟨i, hi, hj, h⟩ | ⟨i, hi, hj, h⟩ | ⟨hj, h⟩ | ⟨hj, h⟩ | ⟨hj, h⟩
    · simp [h, loState]; omega
    · simp [h, hiState, loState]; omega
    · simp [h, doneState, loState]; omega
    · simp [h, postState]; omega
    · simp [h, restState, postState]; omega
  cs1 j h1 h2 := by
    have hlat : (req t).latency = 2 * (req t).nbits + 2 := rfl
    rcases run_cases he ha j h1 h2 with
      ⟨i, hi, hj, h⟩ | ⟨i, hi, hj, h⟩ | ⟨hj, h⟩ | ⟨hj, h⟩ | ⟨hj, h⟩
    · simp [h, loState]; omega
    · simp [h, hiState, loState]; omega
    · simp [h, doneState, loState]; omega
    · simp [h, postState]; omega
    · simp [h, restState, postState]; omega
  rises j h1 h2 := by
    have hnext := run_sck he ha (j + 1) (by omega) (by omega)
    constructor
    · rintro ⟨-, hup⟩
      obtain ⟨i, hi, hj⟩ := hnext.mp hup
      exact ⟨i, hi, by omega⟩
    · rintro ⟨i, hi, hj⟩
      refine ⟨?_, hnext.mpr ⟨i, hi, by omega⟩⟩
      rw [hj, run_hiState he ha i hi]
      rfl
  mosi i h := by
    have hi : i < (req t).nbits := lt_of_lt_of_le h (req t).length_wireBits_le
    rw [Req.getElem_wireBits]
    constructor
    · rw [run_hiState he ha i hi]; rfl
    · rw [he, run_hiState he ha i hi]
      exact step_hiState_mosi _ _
  ready j h1 h2 := by
    have hlat : (req t).latency = 2 * (req t).nbits + 2 := rfl
    rcases run_cases he ha j h1 h2 with
      ⟨i, hi, hj, h⟩ | ⟨i, hi, hj, h⟩ | ⟨hj, h⟩ | ⟨hj, h⟩ | ⟨hj, h⟩
    · simp [h, loState]; omega
    · simp [h, hiState, loState]; omega
    · simp [h, doneState, loState]; omega
    · simp [h, postState]; omega
    · simp [h, restState]; omega
  rdata := by
    rw [run_postState he ha]
    rfl

end Run

end Qspi

end Pineapple
