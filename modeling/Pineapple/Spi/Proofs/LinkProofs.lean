import Pineapple.Rtl.Top
import Pineapple.Spi.Proofs.SlaveProofs
import Pineapple.Spi.Proofs.WaveformProofs

/-!
# Proofs: the engine and a memory on its pins

The slave follows the pins of the engine. In a transaction of the engine the selected slave gets one
rising edge for each bit period and drives MISO half a period before the engine samples it, so a read
returns the bytes of the memory and a write stores the bytes sent; the other slave is not touched.
-/

namespace Pineapple

open Bits

namespace SpiRam

/-- The slave sees the pins `p`. -/
def Follows (x : Nat → SpiRam) (p : Nat → SpiPins) : Prop :=
  ∀ t, x (t + 1) = (x t).step (p t) (p (t + 1))

/-! ## Single steps -/

section Steps

variable {s : SpiRam} {old new : SpiPins}

/-- The slave with `b` on its output. -/
def withMiso (s : SpiRam) (b : Bool) : SpiRam := { s with miso := b }

theorem onSckRise_withMiso (b m : Bool) : (s.withMiso b).onSckRise m = (s.onSckRise m).withMiso b := by
  by_cases h7 : s.bitcnt = 7
  · rw [onSckRise_last h7, onSckRise_last (show (s.withMiso b).bitcnt = 7 from h7)]
    cases hp : s.phase <;> simp only [byteDone, withMiso, hp] <;> rfl
  · rw [onSckRise_bit h7, onSckRise_bit (show (s.withMiso b).bitcnt ≠ 7 from h7)]
    rfl

theorem onSckRise_miso (m : Bool) : (s.onSckRise m).miso = s.miso := by
  by_cases h7 : s.bitcnt = 7
  · rw [onSckRise_last h7]
    cases hp : s.phase <;> simp only [byteDone, hp]
  · rw [onSckRise_bit h7]

/-- Without an edge of SCK the selected slave does nothing. -/
theorem step_hold (h1 : new.cs_n = false) (h2 : old.sck = new.sck) : s.step old new = s := by
  simp [step, h1, h2]

theorem step_rise (h0 : old.cs_n = false) (h1 : new.cs_n = false) (h2 : old.sck = false)
    (h3 : new.sck = true) : s.step old new = s.onSckRise new.mosi := by
  have hm : ∀ x : SpiRam, x.miso = s.miso → { x with miso := s.miso } = x := by
    rintro x h
    rw [← h]
  simp [step, h0, h1, h2, h3, hm _ (onSckRise_miso _)]

theorem step_fall (h1 : new.cs_n = false) (h2 : old.sck = true) (h3 : new.sck = false) :
    s.step old new = s.withMiso (s.misoOut false) := by
  simp [step, h1, h2, h3, withMiso]

theorem step_deselect (h0 : old.cs_n = false) (h1 : new.cs_n = true) :
    s.step old new = s.deselect.withMiso false := by
  simp [step, h0, h1, withMiso, misoOut]

/-- Edges of SCK do not touch the memory or the framing of a slave that is not selected. -/
theorem step_unselected (hs : s.Framed) (h0 : old.cs_n = true) (h1 : new.cs_n = true) :
    (s.step old new).Framed ∧ (s.step old new).mem = s.mem := by
  have hd := hs.deselect_eq
  have hmiso : ∀ b, (s.withMiso b).Framed := fun _ => hs
  simp only [step, h0, h1, hd]
  split <;> exact ⟨hmiso _, rfl⟩

end Steps

theorem Follows.unselected {x : Nat → SpiRam} {p : Nat → SpiPins} (hx : Follows x p) {t n : Nat}
    (hs : (x t).Framed) (hp : ∀ j ≤ n, (p (t + j)).cs_n = true) :
    (x (t + n)).Framed ∧ (x (t + n)).mem = (x t).mem := by
  induction n with
  | zero => exact ⟨hs, rfl⟩
  | succ n ih =>
    obtain ⟨h1, h2⟩ := ih fun j hj => hp j (by omega)
    have h := step_unselected h1 (hp n (by omega)) (hp (n + 1) le_rfl)
    rw [← Nat.add_assoc] at *
    rw [hx (t + n)]
    exact ⟨h.1, h.2.trans h2⟩

/-! ## A transaction on the pins -/

/-- The pins of a transaction of `n` bit periods: `f i` is on MOSI at the rising edge number `i`. -/
structure Selects (p : Nat → SpiPins) (f : Nat → Bool) (t n : Nat) : Prop where
  start : (p t).cs_n = true ∧ (p t).sck = false
  low : ∀ i ≤ n, (p (t + 1 + 2 * i)).cs_n = false ∧ (p (t + 1 + 2 * i)).sck = decide (0 < i)
  high : ∀ i < n, (p (t + 2 + 2 * i)).cs_n = false ∧ (p (t + 2 + 2 * i)).sck = false
  sent : ∀ i < n, (p (t + 3 + 2 * i)).mosi = f i
  stop : (p (t + 2 + 2 * n)).cs_n = true

section Transaction

variable {x : Nat → SpiRam} {p : Nat → SpiPins} {f : Nat → Bool} {t n : Nat}

theorem follow_high (hx : Follows x p) (hp : Selects p f t n) {i : Nat} (hi : i < n)
    (hlow : ∃ b, x (t + 1 + 2 * i) = ((x t).rises f i).withMiso b) :
    (∃ b, x (t + 2 + 2 * i) = ((x t).rises f i).withMiso b) ∧
      (0 < i → x (t + 2 + 2 * i) = ((x t).rises f i).withMiso (((x t).rises f i).misoOut false)) := by
  obtain ⟨b, hb⟩ := hlow
  obtain ⟨hl1, hl2⟩ := hp.low i (Nat.le_of_lt hi)
  obtain ⟨hh1, hh2⟩ := hp.high i hi
  have hstep := hx (t + 1 + 2 * i)
  rw [show t + 1 + 2 * i + 1 = t + 2 + 2 * i by omega] at hstep
  by_cases h0 : i = 0
  · rw [step_hold hh1 (by rw [hl2, hh2]; simp [h0]), hb] at hstep
    exact ⟨⟨b, hstep⟩, fun h => by omega⟩
  · rw [step_fall hh1 (by rw [hl2]; simp; omega) hh2, hb] at hstep
    exact ⟨⟨_, hstep⟩, fun _ => hstep⟩

theorem follow_low (hx : Follows x p) (hp : Selects p f t n) (i : Nat) (hi : i ≤ n) :
    ∃ b, x (t + 1 + 2 * i) = ((x t).rises f i).withMiso b := by
  induction i with
  | zero =>
    obtain ⟨hl1, hl2⟩ := hp.low 0 hi
    refine ⟨(x t).miso, ?_⟩
    rw [Nat.mul_zero, Nat.add_zero] at hl1 hl2 ⊢
    rw [hx t, step_hold hl1 (by rw [hp.start.2, hl2]; rfl)]
    rfl
  | succ i ih =>
    obtain ⟨⟨b, hb⟩, -⟩ := follow_high hx hp (by omega) (ih (by omega))
    obtain ⟨hh1, hh2⟩ := hp.high i (by omega)
    obtain ⟨hl1, hl2⟩ := hp.low (i + 1) hi
    have hnext : t + 1 + 2 * (i + 1) = t + 2 + 2 * i + 1 := by omega
    have hsent := hp.sent i (by omega)
    rw [show t + 3 + 2 * i = t + 2 + 2 * i + 1 by omega] at hsent
    rw [hnext] at hl1 hl2
    refine ⟨b, ?_⟩
    rw [hnext, hx (t + 2 + 2 * i), step_rise hh1 hl1 hh2 (by rw [hl2]; simp), hsent, hb,
      onSckRise_withMiso, rises]

/-- What the slave drives when the master samples bit `i`. -/
theorem follow_miso (hx : Follows x p) (hp : Selects p f t n) {i : Nat} (h0 : 0 < i) (hi : i < n) :
    (x (t + 2 + 2 * i)).miso = ((x t).rises f i).misoOut false := by
  rw [(follow_high hx hp hi (follow_low hx hp i (Nat.le_of_lt hi))).2 h0]
  rfl

theorem follow_stop (hx : Follows x p) (hp : Selects p f t n) :
    x (t + 2 + 2 * n) = ((x t).rises f n).deselect.withMiso false := by
  obtain ⟨b, hb⟩ := follow_low hx hp n le_rfl
  have hstop := hp.stop
  have hnext : t + 2 + 2 * n = t + 1 + 2 * n + 1 := by omega
  rw [hnext] at hstop ⊢
  rw [hx (t + 1 + 2 * n), step_deselect (hp.low n le_rfl).1 hstop, hb]
  rfl

end Transaction

end SpiRam

/-! ## The engine's pins -/

namespace Req

/-- The memory address of the slave that a request names. -/
def slaveAddr (r : Req) : BitVec 14 := r.addr.extractLsb' 0 14

/-- Byte `k` of the data of a write. -/
def byte (r : Req) (k : Nat) : BitVec 8 := r.wdata.extractLsb' (8 * k) 8

variable (r : Req)

/-- The bit on MOSI in bit period `i`. -/
def bit (i : Nat) : Bool := r.preload.getLsbD (63 - i)

theorem bits_field (i lo : Nat) (h : i + lo = 56) :
    ofMsb (fun j => r.bit (i + j)) 8 = r.preload.extractLsb' lo 8 := by
  have hidx : ∀ j, 63 - (i + j) = lo + 8 - 1 - j := by omega
  simp only [bit, hidx]
  exact ofMsb_field _ _ _

theorem bits_cmd : ofMsb r.bit 8 = if r.we then 0x02 else 0x03 := by
  have h := r.bits_field 0 56 rfl
  simp only [Nat.zero_add] at h
  refine h.trans ?_
  show ((if r.we then CMD_WRITE else CMD_READ) ++ r.addr ++
    data_field r.we r.size r.wdata).extractLsb' 56 8 = _
  rw [BitVec.extractLsb'_append_eq_of_le (by omega), BitVec.extractLsb'_append_eq_of_le (by omega)]
  cases r.we <;> rfl

theorem bits_addr (i lo : Nat) (h : i + lo = 24) (hi : 8 ≤ i) :
    ofMsb (fun j => r.bit (i + j)) 8 = r.addr.extractLsb' lo 8 := by
  refine (r.bits_field i (32 + lo) (by omega)).trans ?_
  show ((if r.we then CMD_WRITE else CMD_READ) ++ r.addr ++
    data_field r.we r.size r.wdata).extractLsb' (32 + lo) 8 = _
  rw [BitVec.extractLsb'_append_eq_of_le (by omega), BitVec.extractLsb'_append_eq_of_add_le (by omega)]
  simp

/-- Byte `k` of a write in the data field of the preload. -/
theorem data_field_byte (wd : BitVec 32) (size : BitVec 2) (k : Nat) (hk : k < nbytes size) :
    (data_field true size wd).extractLsb' (24 - 8 * k) 8 = wd.extractLsb' (8 * k) 8 := by
  rcases nbytes_cases size with ⟨rfl, h⟩ | ⟨rfl, h⟩ | ⟨h0, h1, h⟩ <;> rw [h] at hk
  · obtain rfl : k = 0 := by omega
    exact BitVec.extractLsb'_append_eq_left
  · show (wd.extractLsb' 0 8 ++ wd.extractLsb' 8 8 ++ 0#16).extractLsb' (24 - 8 * k) 8 = _
    obtain rfl | rfl : k = 0 ∨ k = 1 := by omega
    · rw [BitVec.extractLsb'_append_eq_of_le (by omega)]
      exact BitVec.extractLsb'_append_eq_left
    · rw [BitVec.extractLsb'_append_eq_of_le (by omega)]
      exact BitVec.extractLsb'_append_eq_right
  · rw [data_field_word wd h0 h1]
    obtain rfl | rfl | rfl | rfl : k = 0 ∨ k = 1 ∨ k = 2 ∨ k = 3 := by omega
    · rw [BitVec.extractLsb'_append_eq_of_le (by omega), BitVec.extractLsb'_append_eq_of_le (by omega)]
      exact BitVec.extractLsb'_append_eq_left
    · rw [BitVec.extractLsb'_append_eq_of_le (by omega), BitVec.extractLsb'_append_eq_of_le (by omega)]
      exact BitVec.extractLsb'_append_eq_right
    · rw [BitVec.extractLsb'_append_eq_of_le (by omega)]
      exact BitVec.extractLsb'_append_eq_right
    · exact BitVec.extractLsb'_append_eq_right

theorem bits_data (hw : r.we = true) (k : Nat) (hk : k < nbytes r.size) :
    ofMsb (fun j => r.bit (32 + (8 * k + j))) 8 = r.byte k := by
  have h4 := nbytes_le r.size
  have hidx : ∀ j, 32 + (8 * k + j) = 32 + 8 * k + j := by omega
  simp only [hidx]
  refine (r.bits_field (32 + 8 * k) (24 - 8 * k) (by omega)).trans ?_
  show ((if r.we then CMD_WRITE else CMD_READ) ++ r.addr ++
    data_field r.we r.size r.wdata).extractLsb' (24 - 8 * k) 8 = _
  rw [BitVec.extractLsb'_append_eq_of_add_le (by omega), hw]
  exact data_field_byte _ _ _ hk

end Req

namespace Qspi

/-- The pins of the slave of device `dev`: the flash on CS0, the PSRAM on CS1. -/
def pins (e : Qspi) (dev : BitVec 2) : SpiPins := if dev = 1 then e.pins0 else e.pins1

@[simp] theorem pins_sck (e : Qspi) (dev : BitVec 2) : (e.pins dev).sck = e.pin_sck := by
  unfold pins
  split <;> rfl

@[simp] theorem pins_mosi (e : Qspi) (dev : BitVec 2) : (e.pins dev).mosi = e.pin_mosi := by
  unfold pins
  split <;> rfl

section Link

variable {e : Nat → Qspi} {req : Nat → Req} {miso : Nat → Bool} {t : Nat} {d : BitVec 2}

/-- The slave a request is not for keeps its chip select high. -/
theorem pins_unselected (he : Run e req miso) (ha : Accepts (e t) (req t)) (hpin : PinInv (e t))
    (hd : d = 1 ∨ d = 2) (hne : (req t).dev ≠ d) (j : Nat) (hj : j ≤ (req t).latency + 1) :
    ((e (t + j)).pins d).cs_n = true := by
  have htr := transaction_of_accepts he ha
  have h0 : (e t).pin_cs0 = true ∧ (e t).pin_cs1 = true := by
    unfold PinInv at hpin
    rw [ha.1] at hpin
    exact ⟨hpin.1, hpin.2.1⟩
  by_cases hj0 : j = 0
  · rw [hj0]
    rcases hd with rfl | rfl
    · exact h0.1
    · exact h0.2
  · rcases hd with rfl | rfl
    · have := htr.cs0 (t + j) (by omega) (by omega)
      show (e (t + j)).pin_cs0 = true
      rw [← Bool.not_eq_false, this]
      exact fun h => hne h.1
    · have := htr.cs1 (t + j) (by omega) (by omega)
      show (e (t + j)).pin_cs1 = true
      rw [← Bool.not_eq_false, this]
      exact fun h => hne h.1

/-- The slave a request is for sees the transaction on its pins. -/
theorem pins_selected (he : Run e req miso) (ha : Accepts (e t) (req t)) (hpin : PinInv (e t))
    (hd : d = 1 ∨ d = 2) (heq : (req t).dev = d) :
    SpiRam.Selects (fun j => (e j).pins d) (req t).bit t (req t).nbits := by
  have htr := transaction_of_accepts he ha
  have hlat : (req t).latency = 2 * (req t).nbits + 2 := rfl
  have h0 : (e t).pin_cs0 = true ∧ (e t).pin_cs1 = true ∧ (e t).pin_sck = false := by
    unfold PinInv at hpin
    rwa [ha.1] at hpin
  have hcs : ∀ j, t < j → j ≤ t + (req t).latency + 1 →
      (((e j).pins d).cs_n = false ↔ j < t + (req t).latency) := by
    intro j h1 h2
    rcases hd with rfl | rfl
    · exact (htr.cs0 j h1 h2).trans ⟨fun h => h.2, fun h => ⟨heq, h⟩⟩
    · exact (htr.cs1 j h1 h2).trans ⟨fun h => h.2, fun h => ⟨heq, h⟩⟩
  refine
    { start := ⟨?_, (pins_sck _ _).trans h0.2.2⟩
      low := fun i hi => ⟨(hcs _ (by omega) (by omega)).mpr (by omega), ?_⟩
      high := fun i hi => ⟨(hcs _ (by omega) (by omega)).mpr (by omega), ?_⟩
      sent := fun i hi => ?_
      stop := ?_ }
  · rcases hd with rfl | rfl
    · exact h0.1
    · exact h0.2.1
  · have hsck := run_sck he ha (t + 1 + 2 * i) (by omega) (by omega)
    rw [Bool.eq_iff_iff, pins_sck, hsck, decide_eq_true_iff]
    exact ⟨fun ⟨k, hk, hj⟩ => by omega, fun h => ⟨i - 1, by omega, by omega⟩⟩
  · rw [pins_sck, run_hiState he ha i hi]
    rfl
  · rw [pins_mosi, show t + 3 + 2 * i = t + 2 + 2 * i + 1 by omega, he, run_hiState he ha i hi]
    exact step_hiState_mosi _ _
  · have := hcs (t + 2 + 2 * (req t).nbits) (by omega) (by omega)
    rw [← Bool.not_eq_false, this]
    omega

/-! ## The whole transaction -/

variable {x : Nat → SpiRam}

/-- The slave when the command and the address of `r` have been received. -/
theorem rises_request {s : SpiRam} (hs : s.Framed) (r : Req) (n : Nat) :
    s.rises r.bit (32 + n) =
      (s.header (if r.we then 0x02 else 0x03) r.addr).rises (fun j => r.bit (32 + j)) n :=
  SpiRam.rises_header hs r.bits_cmd (r.bits_addr 8 16 rfl (by omega)) (r.bits_addr 16 8 rfl (by omega))
    (r.bits_addr 24 0 rfl (by omega)) n

theorem header_we (s : SpiRam) (r : Req) :
    (s.header (if r.we then 0x02 else 0x03) r.addr).we = r.we := by
  cases h : r.we <;> simp [SpiRam.header]

/-- The slave after `k` data bytes of a transaction for `r`. -/
theorem rises_request_data {s : SpiRam} (hs : s.Framed) (r : Req) (k : Nat) (hk : k < 2 ^ 14) :
    SpiRam.AfterBytes (s.header (if r.we then 0x02 else 0x03) r.addr)
      (fun i => ofMsb (fun j => r.bit (32 + (8 * i + j))) 8) k (s.rises r.bit (32 + 8 * k)) := by
  rw [rises_request hs]
  exact @SpiRam.rises_data (s.header _ r.addr) (fun j => r.bit (32 + j)) rfl rfl (fun _ => rfl) k hk

/-- A write stores its bytes at the address of the request and a read stores nothing. -/
theorem link_mem (he : Run e req miso) (ha : Accepts (e t) (req t)) (hpin : PinInv (e t))
    (hd : d = 1 ∨ d = 2) (heq : (req t).dev = d) (hx : SpiRam.Follows x fun j => (e j).pins d)
    (hs : (x t).Framed) :
    (x (t + (req t).latency)).Framed ∧ (x (t + (req t).latency)).mem =
      if (req t).we then
        ByteMemory.store (x t).mem (req t).slaveAddr (req t).byte (nbytes (req t).size)
      else (x t).mem := by
  have h4 := nbytes_le (req t).size
  have hstop := SpiRam.follow_stop hx (pins_selected he ha hpin hd heq)
  rw [show t + 2 + 2 * (req t).nbits = t + (req t).latency by simp only [Req.latency]; omega] at hstop
  have hdata := rises_request_data hs (req t) (nbytes (req t).size) (by omega)
  rw [hstop]
  refine ⟨⟨rfl, rfl, rfl⟩, ?_⟩
  show ((x t).rises (req t).bit (req t).nbits).mem = _
  rw [Req.nbits, hdata.mem, header_we]
  cases hw : (req t).we with
  | false => rfl
  | true =>
    exact ByteMemory.store_congr _ _ fun k hk => (req t).bits_data hw k hk

/-- One cycle after the transaction, for the slave of either device. -/
theorem link_after {r : Req} (he : Run e req miso) (hr : req t = r) (ha : Accepts (e t) r)
    (hpin : PinInv (e t)) (hd : d = 1 ∨ d = 2) (hx : SpiRam.Follows x fun j => (e j).pins d)
    (hs : (x t).Framed) :
    (x (t + r.latency + 1)).Framed ∧ (x (t + r.latency + 1)).mem =
      if r.dev = d ∧ r.we = true then
        ByteMemory.store (x t).mem r.slaveAddr r.byte (nbytes r.size)
      else (x t).mem := by
  subst hr
  by_cases heq : (req t).dev = d
  · have htr := transaction_of_accepts he ha
    obtain ⟨h1, h2⟩ := link_mem he ha hpin hd heq hx hs
    have hcs : ∀ j, t + (req t).latency ≤ j → j ≤ t + (req t).latency + 1 →
        ((e j).pins d).cs_n = true := by
      intro j hlo hhi
      have hpos : 0 < (req t).latency := by simp only [Req.latency]; omega
      rcases hd with rfl | rfl
      · show (e j).pin_cs0 = true
        rw [← Bool.not_eq_false, htr.cs0 j (by omega) hhi]
        omega
      · show (e j).pin_cs1 = true
        rw [← Bool.not_eq_false, htr.cs1 j (by omega) hhi]
        omega
    obtain ⟨h3, h4⟩ := hx.unselected (n := 1) h1 fun j hj => hcs _ (by omega) (by omega)
    refine ⟨h3, h4.trans ?_⟩
    rw [h2]
    simp only [heq, true_and]
  · rw [if_neg fun h => heq h.1]
    exact hx.unselected hs fun j hj => pins_unselected he ha hpin hd heq j hj

/-- A read returns the bytes at the address of the request. -/
theorem link_read {r : Req} (he : Run e req miso) (hr : req t = r) (ha : Accepts (e t) r)
    (hpin : PinInv (e t)) (hd : d = 1 ∨ d = 2) (heq : r.dev = d)
    (hx : SpiRam.Follows x fun j => (e j).pins d) (hs : (x t).Framed)
    (hmiso : ∀ j, t < j → j < t + r.latency → miso j = (x j).miso) (hw : r.we = false) :
    sampledWord miso t (nbytes r.size) =
      ofLE 32 (ByteMemory.load (x t).mem r.slaveAddr (nbytes r.size)) := by
  subst hr
  have h4 := nbytes_le (req t).size
  have hsel := pins_selected he ha hpin hd heq
  have hbyte : ∀ k < nbytes (req t).size,
      ofMsb (fun j => miso (t + 2 + 2 * (32 + 8 * k + j))) 8 =
        (x t).mem ((req t).slaveAddr + BitVec.ofNat 14 k) := by
    intro k hk
    have hdata := rises_request_data hs (req t) k (by omega)
    have hwe : ((x t).header (if (req t).we then 0x02 else 0x03) (req t).addr).we = false := by
      rw [header_we, hw]
    have hbit : ∀ j < 8, miso (t + 2 + 2 * (32 + 8 * k + j)) =
        ((x t).mem ((req t).slaveAddr + BitVec.ofNat 14 k)).getLsbD (0 + 8 - 1 - j) := by
      intro j hj
      have hi : 32 + 8 * k + j < (req t).nbits := by simp only [Req.nbits]; omega
      rw [hmiso _ (by omega) (by simp only [Req.latency]; omega),
        SpiRam.follow_miso hx hsel (by omega) hi, SpiRam.rises_add,
        SpiRam.misoOut_rises hdata.phase hdata.bitcnt (hdata.we.trans hwe) hj, hdata.cur_out hwe]
      rfl
    refine Eq.trans ?_ ((ofMsb_field _ 0 8).trans BitVec.extractLsb'_eq_self)
    apply BitVec.eq_of_getLsbD_eq
    intro i hi
    rw [getLsbD_ofMsb, getLsbD_ofMsb, hbit _ (by omega)]
  unfold sampledWord ByteMemory.load
  congr 1
  apply List.map_congr_left
  intro k hk
  exact hbyte k (List.mem_range.mp hk)

end Link

end Qspi

end Pineapple
