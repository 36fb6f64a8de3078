import Pineapple.Boot.Proofs.DemoProofs
import Pineapple.Rtl.Proofs.BenchProofs

/-!
# Proofs: the self-test passes with a PSRAM

The verdict of the self-test is about the waveform of MISO. With a PSRAM on CS1 the byte that the second transaction
reads is the one that the first has written, and between and after the two the PSRAM is not selected.
-/

namespace Pineapple

namespace Boot

open Bits

variable {inp : Nat → Inputs} {s : Nat → Top} {x : Nat → SpiRam} {t n : Nat}

/-- `x` is a PSRAM on CS1. It drives MISO while it is selected. -/
structure HasPsram (inp : Nat → Inputs) (s : Nat → Top) (x : Nat → SpiRam) : Prop where
  follows : SpiRam.Follows x fun t => (s t).eng.pins 2
  framed : (x 0).Framed
  miso : ∀ t, (s t).eng.pin_cs1 = false → (inp t).miso = (x t).miso

/-- Nothing is going on between the chip and the PSRAM, which holds `mem`. -/
structure Rests (s : Nat → Top) (x : Nat → SpiRam) (mem : ByteMemory 14) (t : Nat) : Prop where
  idle : (s t).eng.state = .idle
  framed : (x t).Framed
  mem : (x t).mem = mem

section Run

variable (hs : Top.Run bootRom inp s) (hpin : (s 0).eng.PinInv) (hx : HasPsram inp s x)

include hs hpin

theorem run_pinInv (t : Nat) : (s t).eng.PinInv :=
  Qspi.run_pinInv hs.mem.engine hpin (fun _ _ => Mem.dev_req _ _) t

theorem cs1_idle (h : (s t).eng.state = .idle) : ((s t).eng.pins 2).cs_n = true := by
  have hp := run_pinInv hs hpin t
  unfold Qspi.PinInv at hp
  rw [h] at hp
  exact hp.2.1

include hx

/-- Cycles without a transaction. -/
theorem rests_until {mem : ByteMemory 14} (h : Rests s x mem t)
    (hno : ∀ τ, t ≤ τ → τ < t + n → ¬ Qspi.Accepts (s τ).eng (s τ).req) : Rests s x mem (t + n) := by
  induction n with
  | zero => exact h
  | succ n ih =>
    obtain ⟨hidle, hframed, hmem⟩ := ih fun τ h1 h2 => hno τ h1 (by omega)
    have hv : (s (t + n)).req.valid = false := by
      rw [← Bool.not_eq_true]
      exact fun hv => hno (t + n) (by omega) (by omega) ⟨hidle, hv⟩
    have hnext : (s (t + n + 1)).eng.state = .idle := by
      rw [show (s (t + n + 1)).eng = (s (t + n)).eng.step (s (t + n)).req _ from hs.mem.engine (t + n)]
      simp [Qspi.step, hidle, hv]
    have hslave := hx.follows.unselected (t := t + n) (n := 1) hframed fun j hj => by
      obtain rfl | rfl : j = 0 ∨ j = 1 := by omega
      · exact cs1_idle hs hpin hidle
      · exact cs1_idle hs hpin hnext
    exact ⟨hnext, hslave.1, hslave.2.trans hmem⟩

/-- A transaction with the first byte of the PSRAM. -/
theorem rests_after {mem : ByteMemory 14} (h : Rests s x mem t) (hone : OneByte inp s t)
    (ha : Qspi.Accepts (s t).eng (s t).req) :
    Rests s x (if (s t).req.we then Function.update mem 0 ((s t).req.wdata.extractLsb' 0 8) else mem) (t + 83) ∧
      ((s t).req.we = false → (sampledWord (fun τ => (inp τ).miso) t 1).extractLsb' 0 8 = mem 0) := by
  have hlat : (s t).req.latency = 82 := by
    unfold Req.latency Req.nbits
    rw [hone.size]
    rfl
  have hbytes : nbytes (s t).req.size = 1 := by
    rw [hone.size]
    rfl
  have haddr : (s t).req.slaveAddr = 0 := by
    unfold Req.slaveAddr
    rw [hone.addr]
    rfl
  obtain ⟨hframed, hmem⟩ := Qspi.link_after (r := (s t).req) hs.mem.engine rfl ha (run_pinInv hs hpin t)
    (.inr rfl) hx.follows h.framed
  have hidle := hone.transaction.idle
  rw [hlat] at hframed hmem hidle
  refine ⟨⟨hidle, hframed, ?_⟩, fun hw => ?_⟩
  · rw [hmem, haddr, hbytes, h.mem]
    by_cases hw : (s t).req.we = true
    · rw [if_pos ⟨hone.dev, hw⟩, if_pos hw, ← ByteMemory.update_store _ _ _ 0 (by decide)]
      simp [Req.byte]
    · rw [if_neg (fun h => hw h.2), if_neg hw]
  · have hread := Qspi.link_read (r := (s t).req) hs.mem.engine rfl ha (run_pinInv hs hpin t) (.inr rfl) hone.dev
      hx.follows h.framed
      (fun j h1 h2 => hx.miso j ((hone.transaction.cs1 j h1 (by omega)).mpr ⟨hone.dev, h2⟩)) hw
    rw [hbytes, haddr, h.mem] at hread
    rw [hread]
    exact (extract_ofLE 32 _ 0 (by decide)).trans (by simp [ByteMemory.load])

end Run

/-- The self-test of a chip with a PSRAM, after any reset. It passes, so the LEDs show the bare counter in every cycle
before START is sampled; and all that it leaves in the PSRAM is its own byte. -/
theorem selftest_passes {s0 : Top} {L : Nat} (hs : Top.Run bootRom inp s) (h0 : s 0 = s0.reset)
    (hx : HasPsram inp s x) (hL : NotStarted inp s L) :
    Passes inp ∧ (∀ τ ≤ L, (s τ).uo_out = BitVec.ofNat 8 ((τ + 8 - 206) / 56 % 16)) ∧
      ∀ τ ≤ L, 184 ≤ τ → (x τ).mem = Function.update (x 0).mem 0 0xA5 := by
  have hf0 : Top.AtFetch (s 0) := h0 ▸ Top.reset_atFetch s0
  have hpin : (s 0).eng.PinInv := h0 ▸ Qspi.reset_pinInv _
  obtain ⟨a, hat, hpc, hmem, h2, h6, hw1, hw2, hw3, hr1, hr2, hfirst⟩ := selftest_accesses hs hf0
    (by rw [h0]; rfl) (by rw [h0]; rfl)
  -- up to the read
  have hstart : Rests s x (x 0).mem 0 := ⟨by rw [h0]; rfl, hx.framed, rfl⟩
  have h12 := rests_until hs hpin hx (n := 12) hstart fun τ _ hτ hacc => by
    have := (hfirst τ (by omega)).1.mp hacc
    omega
  have h95 := (rests_after hs hpin hx h12 hw1 ((hfirst _ (by decide)).1.mpr (.inl rfl))).1
  rw [show 0 + 12 = 12 from rfl, if_pos hw2, hw3] at h95
  have h101 := rests_until hs hpin hx (n := 6) h95 fun τ _ hτ hacc => by
    have := (hfirst τ (by omega)).1.mp hacc
    omega
  obtain ⟨h184, hread⟩ := rests_after hs hpin hx h101 hr1 ((hfirst _ (by decide)).1.mpr (.inr rfl))
  rw [show 12 + 83 + 6 = 101 from rfl, hr2] at h184
  have hpasses : Passes inp := (hread hr2).trans (Function.update_self _ _ _)
  -- and from there on
  obtain ⟨a', hdemo, hsecond⟩ := selftest_verdict hs hf0 hat hpc (by rw [hmem, h0]; rfl) (by rw [hmem, h0]; rfl)
    (by rw [hmem, h0]; rfl) h2 h6
  have hdemoStart : demoStart inp = 206 := if_pos hpasses
  rw [hdemoStart] at hdemo hsecond
  have hself : ∀ τ < 206, SelfTestCycle s τ := by
    intro τ hτ
    by_cases h185 : τ < 185
    · exact hfirst τ h185
    · exact hsecond τ (by omega) hτ
  refine ⟨hpasses, fun τ hτ => ?_, fun τ hτ h1 => ?_⟩
  · by_cases h206 : τ < 206
    · rw [(hself τ h206).2.2, show (τ + 8 - 206) / 56 = 0 by omega]
      rfl
    · rw [(demo_cycle hs hf0 hL hdemo (by omega) hτ).2.2]
      unfold leds verdict
      rw [if_pos hpasses]
      split
      · rename_i hk
        rw [hk]
        rfl
      · exact BitVec.zero_add _
  · have hrest := rests_until hs hpin hx (n := τ - 184) h184 fun v hv1 hv2 hacc => by
      by_cases h206 : v < 206
      · have := (hself v h206).1.mp hacc
        omega
      · exact (demo_cycle hs hf0 hL hdemo (by omega) (by omega)).1 hacc
    rw [show 101 + 83 + (τ - 184) = τ by omega] at hrest
    exact hrest.mem

/-- A chip with all other input pins low, and a PSRAM that is full of `0x5A`. -/
theorem selftest_passes_idle :
    let step := fun (b : Top × SpiRam) (_ : Unit) =>
      let top := b.1.step bootRom ⟨0, !b.1.mem.u_qspi.pin_cs1 && b.2.miso⟩
      (top, b.2.step b.1.mem.u_qspi.pins1 top.mem.u_qspi.pins1)
    let b := Clocked.run step (fun _ => ()) (powerUp.reset, ⟨fun _ => 0x5A, 0, .cmd, 0, 0, false, 0, 0, false⟩)
    (b 268).1.uo_out = 1 ∧ (b 268).2.mem 0 = 0xA5 ∧ (b 268).2.mem 1 = 0x5A := by
  intro step b
  let inp : Nat → Inputs := fun t => ⟨0, !(b t).1.mem.u_qspi.pin_cs1 && (b t).2.miso⟩
  have hx : HasPsram inp (fun t => (b t).1) (fun t => (b t).2) :=
    { follows := fun _ => rfl
      framed := ⟨rfl, rfl, rfl⟩
      miso := fun t h => by
        have hcs : (b t).1.mem.u_qspi.pin_cs1 = false := h
        simp [inp, hcs] }
  have hL : NotStarted inp (fun t => (b t).1) 268 := fun τ _ _ _ => show start 0 = false by decide
  obtain ⟨-, hleds, hmem⟩ := @selftest_passes _ _ _ powerUp 268 (fun _ => rfl) rfl hx hL
  have h268 : (b 268).2.mem = _ := hmem 268 le_rfl (by decide)
  refine ⟨(hleds 268 le_rfl).trans (by decide), ?_, ?_⟩
  · rw [h268, Function.update_self]
  · rw [h268, Function.update_of_ne (by decide)]
    rfl

end Boot

end Pineapple
