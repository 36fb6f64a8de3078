import Pineapple.Spi.Proofs.EngineProofs

/-!
# Proofs: the engine speaks single-line mode-0 SPI

`PinInv` ties the pins to the engine's state. It holds after a reset and every clock edge keeps it,
and it implies what two consecutive cycles of the pins must obey.
-/

namespace Pineapple

namespace Qspi

/-- The pins in each state of the engine: both chip selects high and SCK low between transactions,
exactly one chip select low within one. -/
def PinInv (e : Qspi) : Prop :=
  match e.state with
  | .idle | .post => e.pin_cs0 = true ∧ e.pin_cs1 = true ∧ e.pin_sck = false
  | .shiftHi => (e.pin_cs0 ≠ e.pin_cs1) ∧ e.pin_sck = false
  | .shiftLo | .done => e.pin_cs0 ≠ e.pin_cs1

theorem reset_pinInv (e : Qspi) : PinInv e.reset := ⟨rfl, rfl, rfl⟩

/-- A request is for the flash or for the PSRAM when it is accepted. -/
def DevOk (e : Qspi) (r : Req) : Prop := Accepts e r → r.dev = 1 ∨ r.dev = 2

theorem step_pinInv {e : Qspi} {r : Req} (h : PinInv e) (hdev : DevOk e r) (m : Bool) :
    PinInv (e.step r m) := by
  unfold PinInv at h
  cases hs : e.state with
  | idle =>
    rw [hs] at h
    obtain ⟨h0, h1, h2⟩ := h
    cases hv : r.valid with
    | false => simp [PinInv, step, hs, hv, h0, h1]
    | true => rcases hdev ⟨hs, hv⟩ with hd | hd <;> simp [PinInv, step, hs, hv, hd]
  | shiftLo => rw [hs] at h; simpa [PinInv, step, hs] using h
  | shiftHi =>
    rw [hs] at h
    by_cases hl : e.bits_done + 1 = e.nbits_total <;>
      simp only [PinInv, step, hs, hl, ↓reduceIte] <;> exact h.1
  | done => simp [PinInv, step, hs]
  | post => rw [hs] at h; simpa [PinInv, step, hs] using h

theorem waveform_of_pinInv {e : Qspi} {r : Req} (h : PinInv e) (m : Bool) :
    Waveform e (e.step r m) := by
  unfold PinInv at h
  cases hs : e.state with
  | idle =>
    rw [hs] at h
    obtain ⟨h0, h1, h2⟩ := h
    cases hv : r.valid <;> constructor <;> simp [step, hs, hv, h0, h1, h2]
  | shiftLo =>
    rw [hs] at h
    constructor <;> cases h0 : e.pin_cs0 <;> cases h1 : e.pin_cs1 <;> simp_all [step]
  | shiftHi =>
    rw [hs] at h
    by_cases hl : e.bits_done + 1 = e.nbits_total <;> constructor <;>
      cases h0 : e.pin_cs0 <;> cases h1 : e.pin_cs1 <;> simp_all [step]
  | done =>
    rw [hs] at h
    constructor <;> cases h0 : e.pin_cs0 <;> cases h1 : e.pin_cs1 <;> simp_all [step]
  | post =>
    rw [hs] at h
    obtain ⟨h0, h1, h2⟩ := h
    constructor <;> simp [step, hs, h0, h1, h2]

variable {e : Nat → Qspi} {req : Nat → Req} {miso : Nat → Bool}

theorem run_pinInv (he : Run e req miso) (h0 : PinInv (e 0)) (hdev : ∀ t, DevOk (e t) (req t))
    (t : Nat) : PinInv (e t) :=
  he.trace.invariant h0 (fun t h => step_pinInv h (hdev t) _) t

/-- From every reset, for every behaviour of the request inputs that names one of the two devices
when a request is accepted, and for every MISO waveform: each accepted request runs the transaction
it asks for, and every two consecutive cycles of the pins are well-formed mode-0 SPI. -/
theorem engine_speaks_spi {e0 : Qspi} (he : Run e req miso) (h0 : e 0 = e0.reset)
    (hdev : ∀ t, Accepts (e t) (req t) → (req t).dev = 1 ∨ (req t).dev = 2) :
    (∀ t, Accepts (e t) (req t) → Transaction e miso (req t) t) ∧
      ∀ t, Waveform (e t) (e (t + 1)) := by
  refine ⟨fun t ha => transaction_of_accepts he ha, fun t => ?_⟩
  have hinv : PinInv (e t) := run_pinInv he (h0 ▸ reset_pinInv e0) hdev t
  rw [he t]
  exact waveform_of_pinInv hinv _

/-- A word read of flash address 4 that is requested in every cycle. -/
theorem engine_speaks_spi_read :
    let r : Req := ⟨true, false, 1, 4, 0, 2⟩
    let e := Clocked.run (fun e (i : Req × Bool) => step e i.1 i.2) (fun _ => (r, true))
      (reset ⟨.done, 0, 0, 0, 0, 0, true, false, false, true, false⟩)
    Transaction e (fun _ => true) r 0 := by
  intro r e
  have he : Run e (fun _ => r) (fun _ => true) := fun _ => rfl
  exact (engine_speaks_spi he rfl fun _ _ => Or.inl rfl).1 0 ⟨rfl, rfl⟩

end Qspi

end Pineapple
