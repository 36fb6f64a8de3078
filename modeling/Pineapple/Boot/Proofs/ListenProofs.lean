import Pineapple.Boot.Listener

/-!
# Proofs: what is heard of a host

Every phase of CLOCK lasts at least 128 cycles. It is seen within 21 cycles of its start, or by the first poll if that
comes late, so `hears_bit` finds every bit and takes the listener back to a poll that is not too late for the next one.
A byte is eight bits, and a message one byte after the other.
-/

namespace Pineapple

namespace Boot

variable {ui_in : Nat → BitVec 8} {t p r f k S : Nat} {e : Edge} {b : Bool} {bits : List Bool} {v : BitVec 8}
  {rise fall : Nat → Nat} {msg heard : List (BitVec 8)}

/-! ## One bit -/

namespace Receiver

/-- A poll that does not see the edge. -/
theorem step_stay (h : clock (ui_in (t + 6)) = !e.level) :
    step ui_in ⟨t, e, bits⟩ = ⟨t + 21, e, bits⟩ := by
  cases e with
  | rise => exact if_neg (by rw [h]; decide)
  | fall b => exact if_pos h

theorem step_rise (bits : List Bool) (h : clock (ui_in (t + 6)) = true) (hb : data (ui_in (t + 27)) = b) :
    step ui_in ⟨t, .rise, bits⟩ = ⟨t + (if b then 56 else 49), .fall b, bits⟩ := by
  subst hb
  exact if_pos h

theorem step_fall (b : Bool) (bits : List Bool) (h : clock (ui_in (t + 6)) = false) :
    step ui_in ⟨t, .fall b, bits⟩ = ⟨t + 42, .rise, bits ++ [b]⟩ := if_neg (by rw [h]; decide)

theorem time_step (ui_in : Nat → BitVec 8) (x : Receiver) : x.time + 21 ≤ (x.step ui_in).time := by
  obtain ⟨t, e, bits⟩ := x
  by_cases hclock : clock (ui_in (t + 6)) = e.level
  · cases e with
    | rise =>
      rw [step_rise bits hclock rfl]
      show t + 21 ≤ t + _
      split <;> omega
    | fall b =>
      rw [step_fall b bits hclock]
      exact Nat.add_le_add_left (by decide) t
  · exact Nat.le_of_eq (congrArg time (step_stay (Bool.eq_not.mpr hclock))).symm

/-- It is a falling edge that completes a byte. -/
theorem step_full (ui_in : Nat → BitVec 8) {x : Receiver} (hlen : x.bits.length < 8)
    (h : ¬ (x.step ui_in).bits.length < 8) : (x.step ui_in).edge = .rise ∧ (x.step ui_in).bits.length = 8 := by
  obtain ⟨t, e, bits⟩ := x
  by_cases hclock : clock (ui_in (t + 6)) = e.level
  · cases e with
    | rise =>
      rw [step_rise bits hclock rfl] at h
      exact absurd hlen h
    | fall b =>
      rw [step_fall b bits hclock] at h ⊢
      refine ⟨rfl, ?_⟩
      rw [List.length_append, List.length_singleton] at h ⊢
      have : bits.length < 8 := hlen
      omega
  · rw [step_stay (Bool.eq_not.mpr hclock)] at h
    exact absurd hlen h

theorem hears_stays (hlen : bits.length < 8) (n : Nat) (h : ∀ i < n, clock (ui_in (t + 21 * i + 6)) = !e.level) :
    Hears ui_in ⟨t, e, bits⟩ ⟨t + 21 * n, e, bits⟩ := by
  induction n with
  | zero => exact .refl
  | succ n ih => exact (ih fun i hi => h i (by omega)).tail ⟨hlen, step_stay (h n (by omega))⟩

/-- Up to the first poll that is not before cycle `r`. -/
theorem hears_until (hlen : bits.length < 8) (hno : ∀ τ, p ≤ τ → τ < r → clock (ui_in τ) = !e.level)
    (hlo : p ≤ t + 6) :
    ∃ u, r ≤ u + 6 ∧ (u = t ∨ u + 6 < r + 21) ∧ t ≤ u ∧ Hears ui_in ⟨t, e, bits⟩ ⟨u, e, bits⟩ := by
  obtain ⟨n, h1, h2, h3⟩ : ∃ n, r ≤ t + 21 * n + 6 ∧ (n = 0 ∨ t + 21 * n + 6 < r + 21) ∧
      ∀ i < n, t + 21 * i + 6 < r :=
    ⟨(r - (t + 6) + 20) / 21, by omega, by omega, fun i hi => by omega⟩
  exact ⟨t + 21 * n, h1, by omega, by omega, hears_stays hlen n fun i hi => hno _ (by omega) (h3 i hi)⟩

/-- A bit is heard, even if the first poll comes up to 92 cycles after the rising edge. -/
theorem hears_bit (bits : List Bool) (hpulse : Pulse ui_in p r f b) (hlo : p ≤ t + 6) (hhi : t + 6 < r + 93)
    (hlen : bits.length < 8) :
    ∃ u, f + 36 ≤ u ∧ u < f + 57 ∧ Hears ui_in ⟨t, .rise, bits⟩ ⟨u, .rise, bits ++ [b]⟩ := by
  obtain ⟨hlow, hhigh, hdata, hlong, hafter⟩ := hpulse
  obtain ⟨u1, h1, h2, h3, hwait1⟩ := hears_until (e := .rise) hlen hlow hlo
  have hrise := step_rise bits (hhigh (u1 + 6) (by omega) (by omega))
    (hdata (u1 + 27) (by omega) (by omega))
  have hlate : u1 + (if b then 56 else 49) ≤ u1 + 56 := by split <;> omega
  have hearly : u1 ≤ u1 + (if b then 56 else 49) := by omega
  obtain ⟨u2, h4, h5, h6, hwait2⟩ := hears_until (t := u1 + if b then 56 else 49) (e := .fall b) hlen hhigh
    (by omega)
  have hfall := step_fall b bits (hafter (u2 + 6) (by omega) (by omega))
  exact ⟨u2 + 42, by omega, by omega, ((hwait1.tail ⟨hlen, hrise⟩).trans hwait2).tail ⟨hlen, hfall⟩⟩

end Receiver

/-! ## One byte -/

/-- The pulses of the bits `q, q + 1, …` of a message follow each other. -/
structure Pulses (ui_in : Nat → BitVec 8) (p : Nat) (rise fall : Nat → Nat) (b : Nat → Bool) (n : Nat) :
    Prop where
  first : Pulse ui_in p (rise 0) (fall 0) (b 0)
  next : ∀ k, k + 1 < n → fall k + 128 ≤ rise (k + 1) ∧
    Pulse ui_in (fall k) (rise (k + 1)) (fall (k + 1)) (b (k + 1))

namespace Receiver

theorem hears_bits {b : Nat → Bool} (hp : Pulses ui_in p rise fall b 8) (hlo : p ≤ t + 6)
    (hhi : t + 6 < rise 0 + 93) (k : Nat) (hk : k < 8) :
    ∃ u, fall k + 36 ≤ u ∧ u < fall k + 57 ∧
      Hears ui_in ⟨t, .rise, []⟩ ⟨u, .rise, (List.range (k + 1)).map b⟩ := by
  induction k with
  | zero => exact hears_bit [] hp.first hlo hhi (by decide)
  | succ k ih =>
    obtain ⟨u, h1, h2, hfirst⟩ := ih (by omega)
    obtain ⟨hgap, hpulse⟩ := hp.next k hk
    obtain ⟨u', h3, h4, hlast⟩ := hears_bit (t := u) ((List.range (k + 1)).map b) hpulse (by omega)
      (by omega) (by simpa using hk)
    refine ⟨u', h3, h4, ?_⟩
    rw [List.range_succ (n := k + 1), List.map_append]
    exact hfirst.trans hlast

/-- A byte is heard. -/
theorem hears_byte (hp : Pulses ui_in p rise fall v.getMsbD 8) (hlo : p ≤ t + 6) (hhi : t + 6 < rise 0 + 93) :
    ∃ u, fall 7 + 36 ≤ u ∧ u < fall 7 + 57 ∧ Hears ui_in ⟨t, .rise, []⟩ ⟨u, .rise, Bits.msbBits v⟩ := by
  rw [Bits.msbBits_eq_map]
  exact hears_bits hp hlo hhi 7 (by decide)

end Receiver

theorem toByte_msbBits (v : BitVec 8) : toByte (Bits.msbBits v) = v := Bits.foldl_shiftIn_msbBits v

/-! ## The message -/

/-- The pulses of byte `k` of a message. -/
theorem Sends.byte (h : Sends ui_in msg S rise fall) (hk : k < msg.length) :
    Pulses ui_in (if k = 0 then 0 else fall (8 * k - 1)) (fun i => rise (8 * k + i)) (fun i => fall (8 * k + i))
      (msg.getD k 0).getMsbD 8 := by
  have hbit : ∀ i < 8, messageBit msg (8 * k + i) = (msg.getD k 0).getMsbD i := by
    intro i hi
    rw [messageBit, show (8 * k + i) / 8 = k by omega, show (8 * k + i) % 8 = i by omega]
  refine ⟨?_, fun i hi => ?_⟩
  · rw [← hbit 0 (by decide), Nat.add_zero]
    by_cases h0 : k = 0
    · subst h0
      exact h.first
    · have := (h.next (8 * k - 1) (by omega)).2
      rwa [if_neg h0, show 8 * k - 1 + 1 = 8 * k by omega] at *
  · rw [← hbit (i + 1) hi]
    exact h.next (8 * k + i) (by omega)

/-! ## The listener -/

theorem pause_bounds (k : Nat) : 49 ≤ pause k ∧ pause k ≤ 145 := by
  unfold pause
  split
  · decide
  · split <;> decide

theorem listens_succ (ui_in : Nat → BitVec 8) (t n : Nat) :
    listens ui_in t (n + 1) = (listens ui_in t n).step ui_in := Function.iterate_succ_apply' _ _ _

theorem listens_add {m n : Nat} {l l' : Listener} (h : listens ui_in t m = l)
    (h' : (Listener.step ui_in)^[n] l = l') : listens ui_in t (n + m) = l' := by
  rw [listens, Function.iterate_add_apply]
  exact (congrArg _ h).trans h'

namespace Listener

/-- The polls are at least 21 cycles apart. -/
theorem time_step (ui_in : Nat → BitVec 8) (l : Listener) : l.time + 21 ≤ (l.step ui_in).time := by
  cases l with
  | demo t =>
    rw [step]
    split
    · exact Nat.add_le_add_left (by decide) t
    · exact Nat.add_le_add_left (by decide) t
  | receiving heard x =>
    have hpoll := Receiver.time_step ui_in x
    rw [step]
    split
    · exact hpoll
    · exact Nat.le_add_right_of_le hpoll

/-- What was heard stays. -/
theorem heard_step (ui_in : Nat → BitVec 8) (l : Listener) : l.heard <+: (l.step ui_in).heard := by
  cases l with
  | demo t => exact List.nil_prefix
  | receiving heard x =>
    rw [step]
    split
    · exact List.prefix_rfl
    · exact List.prefix_append _ _

/-- START is seen at the latest in the poll in which it is known to be high. -/
theorem demo_hears (n : Nat) (h : start (ui_in (t + 56 * n + 6)) = true) :
    ∃ m u, u ≤ t + 56 * n + 42 ∧ (step ui_in)^[m] (.demo t) = .receiving [] ⟨u, .rise, []⟩ := by
  induction n generalizing t with
  | zero => exact ⟨1, t + 42, Nat.le_refl _, if_pos h⟩
  | succ n ih =>
    by_cases hstart : start (ui_in (t + 6)) = true
    · exact ⟨1, t + 42, by omega, if_pos hstart⟩
    · rw [show t + 56 * (n + 1) + 6 = t + 56 + 56 * n + 6 by omega] at h
      obtain ⟨m, u, hu, hm⟩ := ih h
      refine ⟨m + 1, u, by omega, ?_⟩
      rw [Function.iterate_succ_apply, step, if_neg hstart, hm]

/-- Within a byte the listener is its receiver. -/
theorem hears (heard : List (BitVec 8)) {x x' : Receiver} (h : Receiver.Hears ui_in x x') (h8 : x'.bits.length < 8) :
    ∃ n, (step ui_in)^[n] (.receiving heard x) = .receiving heard x' := by
  induction h with
  | refl => exact ⟨0, rfl⟩
  | tail _ hstep ih =>
    obtain ⟨hlen, rfl⟩ := hstep
    obtain ⟨n, hn⟩ := ih hlen
    refine ⟨n + 1, ?_⟩
    rw [Function.iterate_succ_apply', hn]
    exact if_pos h8

/-- The bits of a byte become the byte. -/
theorem hears_byte (heard : List (BitVec 8)) {u : Nat}
    (h : Receiver.Hears ui_in ⟨t, .rise, []⟩ ⟨u, .rise, Bits.msbBits v⟩) :
    ∃ n, (step ui_in)^[n] (.receiving heard ⟨t, .rise, []⟩) =
      .receiving (heard ++ [v]) ⟨u + pause heard.length, .rise, []⟩ := by
  obtain hrefl | ⟨x, hx, hlen, hstep⟩ := h.cases_tail
  · have := congrArg (fun x => x.bits.length) hrefl
    rw [Bits.length_msbBits] at this
    cases this
  · obtain ⟨n, hn⟩ := hears heard hx hlen
    refine ⟨n + 1, ?_⟩
    rw [Function.iterate_succ_apply', hn, step, hstep, if_neg (by simp), toByte_msbBits]

end Listener

theorem le_time (ui_in : Nat → BitVec 8) (t n : Nat) : n ≤ (listens ui_in t n).time := by
  induction n with
  | zero => exact Nat.zero_le _
  | succ n ih =>
    have := Listener.time_step ui_in (listens ui_in t n)
    rw [listens_succ]
    omega

theorem heard_mono (ui_in : Nat → BitVec 8) (t : Nat) {m n : Nat} (h : m ≤ n) :
    (listens ui_in t m).heard <+: (listens ui_in t n).heard := by
  induction h with
  | refl => exact List.prefix_rfl
  | step _ ih =>
    rw [listens_succ]
    exact ih.trans (Listener.heard_step ui_in _)

/-- A listener that is in the demo loop soon after reset hears every byte of the message. -/
theorem hears_message (h : Sends ui_in msg S rise fall) (ht : t ≤ 220) (k : Nat) (hk : k < msg.length) :
    ∃ n u, fall (8 * k + 7) + 36 ≤ u ∧ u < fall (8 * k + 7) + 202 ∧
      listens ui_in t n = .receiving (msg.take (k + 1)) ⟨u, .rise, []⟩ := by
  induction k with
  | zero =>
    have hreset := h.after_reset
    have hstart := h.after_start
    -- the first poll that is not before START
    obtain ⟨n, hn1, hn2⟩ : ∃ n, S ≤ t + 56 * n + 6 ∧ t + 56 * n + 206 ≤ rise 0 :=
      ⟨(S - (t + 6) + 55) / 56, by omega, by omega⟩
    obtain ⟨m, u, hu, hm⟩ := Listener.demo_hears n (h.started _ hn1 (by omega))
    obtain ⟨u', h1, h2, hears⟩ := Receiver.hears_byte (t := u) (h.byte hk) (by simp) (by simp; omega)
    obtain ⟨m', hm'⟩ := Listener.hears_byte [] hears
    refine ⟨m' + m, u' + 49, by omega, by omega, listens_add hm ?_⟩
    rw [hm', List.take_add_one, List.getElem?_eq_getElem hk, List.getD_eq_getElem _ _ hk]
    rfl
  | succ k ih =>
    obtain ⟨m, u, h1, h2, hm⟩ := ih (by omega)
    have hgap := (h.next (8 * k + 7) (by omega)).1
    have hp := h.byte hk
    rw [if_neg (Nat.succ_ne_zero k), show 8 * (k + 1) - 1 = 8 * k + 7 by omega] at hp
    obtain ⟨u', h3, h4, hears⟩ := Receiver.hears_byte (t := u) hp (by omega) (by
      rw [show 8 * (k + 1) + 0 = 8 * k + 7 + 1 by omega]
      omega)
    obtain ⟨m', hm'⟩ := Listener.hears_byte (msg.take (k + 1)) hears
    have hpause := pause_bounds (msg.take (k + 1)).length
    refine ⟨m' + m, u' + pause (msg.take (k + 1)).length, by omega, by omega, listens_add hm ?_⟩
    rw [hm', List.take_add_one (i := k + 1), List.getElem?_eq_getElem hk, List.getD_eq_getElem _ _ hk]
    rfl

/-- With phases of 20 cycles a length byte of 45 is heard as 127. -/
example : (listens (fun τ => if τ < 400 then 4 else BitVec.ofNat 8 (4 + (if (τ - 400) / 20 % 2 = 1 then 2 else 0) +
    (if messageBit [45, 0xFF, 0xFF] ((τ - 400) / 40) then 1 else 0))) 220 40).heard = [127] := by
  decide +kernel

/-- A host that announces at most 45 bytes is never heard to send more, whatever it does after the length byte. -/
theorem not_overrun {L : BitVec 8} {bytes : List (BitVec 8)} (h : Sends ui_in (L :: bytes) S rise fall)
    (ht : t ≤ 220) (hL : L.toNat ≤ 45) (n : Nat) : ¬ Overrun (listens ui_in t n).heard := by
  rintro ⟨hlen, hfirst⟩
  obtain ⟨m, u, -, -, hm⟩ := hears_message h ht 0 (Nat.succ_pos _)
  have hone : (listens ui_in t m).heard = [L] := by rw [hm]; rfl
  rcases Nat.le_total n m with hle | hle
  · have := (heard_mono ui_in t hle).length_le
    rw [hone, List.length_singleton] at this
    omega
  · obtain ⟨rest, hrest⟩ := heard_mono ui_in t hle
    rw [← hrest, hone, List.singleton_append, List.headD_cons] at hfirst
    omega

/-- A host that announces more and sends 46 bytes is heard to do so. -/
theorem exists_overrun {L : BitVec 8} {bytes : List (BitVec 8)} (h : Sends ui_in (L :: bytes) S rise fall)
    (ht : t ≤ 220) (hL : 46 ≤ L.toNat) (hlen : 46 ≤ bytes.length) : ∃ n, Overrun (listens ui_in t n).heard := by
  obtain ⟨n, u, -, -, hn⟩ := hears_message h ht 46 (by rw [List.length_cons]; omega)
  refine ⟨n, ?_⟩
  rw [hn]
  refine ⟨?_, hL⟩
  show 47 ≤ (List.take 47 (L :: bytes)).length
  rw [List.length_take, List.length_cons]
  omega

end Boot

end Pineapple
