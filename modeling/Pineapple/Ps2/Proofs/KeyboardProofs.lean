import Pineapple.Ps2.Proofs.ReaderProofs

/-!
# Proofs: keyboards

What the two images do on the chip, for a keyboard that gives them time, for one that does not, and for any waveform.
-/

namespace Pineapple

open Clocked
open Rv32i (Word)

namespace Ps2

/-! ## Waveforms -/

/-- The lines of `keys`. -/
theorem clock_keys (unit c : Nat) (bytes : List (BitVec 8)) (τ : Nat) : clock (keys unit c bytes τ) =
    decide (τ / unit < c ∨ (τ / unit - c) % 2 = 1 ∨ 22 * bytes.length ≤ τ / unit - c) := by
  unfold keys clock
  by_cases hc : τ / unit < c ∨ (τ / unit - c) % 2 = 1 ∨ 22 * bytes.length ≤ τ / unit - c
  · rw [if_pos hc, decide_eq_true hc]
    split <;> rfl
  · rw [if_neg hc, decide_eq_false hc]
    split <;> rfl

theorem data_keys (unit c : Nat) (bytes : List (BitVec 8)) (τ : Nat) : data (keys unit c bytes τ) =
    (bytes.getD ((τ / unit - c) / 22) 0).getLsbD ((τ / unit - c) % 22 / 2 - 1) := by
  unfold keys data
  by_cases hd : (bytes.getD ((τ / unit - c) / 22) 0).getLsbD ((τ / unit - c) % 22 / 2 - 1) = true
  · rw [if_pos hd, hd]
    split <;> rfl
  · rw [if_neg hd, (Bool.not_eq_true _).mp hd]
    split <;> rfl

theorem sends_keys {unit : Nat} (hunit : pageClocks ≤ unit) (c : Nat) (bytes : List (BitVec 8)) {idle : Nat}
    (hidle : idle ≤ unit) (t : Nat) : Sends (keys unit c bytes) idle t bytes fun p => unit * (p + c) := by
  have hpos : 0 < unit := Nat.lt_of_lt_of_le (by decide) hunit
  -- the phase in a cycle
  have hphase : ∀ p τ, unit * (p + c) ≤ τ → τ < unit * (p + 1 + c) → τ / unit = p + c := by
    intro p τ h1 h2
    refine Nat.div_eq_of_lt_le ?_ ?_
    · rwa [Nat.mul_comm]
    · rw [Nat.mul_comm]
      exact lt_of_lt_of_le h2 (Nat.mul_le_mul_left _ (by omega))
  have hstep : ∀ p, unit * (p + c) + unit = unit * (p + 1 + c) := by
    intro p
    rw [show p + 1 + c = p + c + 1 by omega, Nat.mul_succ]
  refine ⟨fun τ _ h2 => ?_, fun p hp τ h1 h2 => ?_, fun p _ => ?_, fun k _ => ?_, fun k hk i hi τ h1 h2 => ?_⟩
  · rw [clock_keys]
    refine decide_eq_true (.inl ((Nat.div_lt_iff_lt_mul hpos).mpr ?_))
    rwa [Nat.mul_comm, ← Nat.zero_add c]
  · show clock (keys unit c bytes τ) = phaseLevel p
    rw [clock_keys, hphase p τ h1 h2, phaseLevel]
    exact decide_eq_decide.mpr (by omega)
  · have := hstep p
    omega
  · have := hstep (22 * k + 21)
    rw [show 22 * (k + 1) = 22 * k + 21 + 1 by omega]
    omega
  · rw [data_keys, hphase _ τ h1 h2]
    simp only [Nat.add_sub_cancel]
    rw [show (22 * k + 2 * (i + 1)) / 22 = k by omega, show (22 * k + 2 * (i + 1)) % 22 / 2 - 1 = i by omega]

theorem edge_le {ui_in : Nat → BitVec 8} {idle t : Nat} {bytes : List (BitVec 8)} {edge : Nat → Nat}
    (h : Sends ui_in idle t bytes edge) {p q : Nat} (hpq : p ≤ q) (hq : q ≤ 22 * bytes.length) : edge p ≤ edge q := by
  induction hpq with
  | refl => exact le_rfl
  | step hpq ih => exact (ih (by omega)).trans ((Nat.le_add_right _ _).trans (h.long _ (Nat.lt_of_succ_le hq)))

/-- What is on the pins after the last frame does not matter. -/
theorem Sends.of_eq_before {ui_in ui_in' : Nat → BitVec 8} {idle t : Nat} {bytes : List (BitVec 8)} {edge : Nat → Nat}
    (h : Sends ui_in idle t bytes edge) (heq : ∀ τ, τ < edge (22 * bytes.length) → ui_in' τ = ui_in τ) :
    Sends ui_in' idle t bytes edge := by
  have hlast : ∀ {p τ}, τ < edge p → p ≤ 22 * bytes.length → ui_in' τ = ui_in τ := fun hτ hp =>
    heq _ (lt_of_lt_of_le hτ (edge_le h hp le_rfl))
  refine ⟨fun τ h1 h2 => ?_, fun p hp τ h1 h2 => ?_, h.long, h.idle, fun k hk i hi τ h1 h2 => ?_⟩
  · rw [hlast h2 (Nat.zero_le _)]
    exact h.before τ h1 h2
  · show clock (ui_in' τ) = phaseLevel p
    rw [hlast h2 (by omega)]
    exact h.phase p hp τ h1 h2
  · rw [hlast h2 (by omega)]
    exact h.data k hk i hi τ h1 h2

/-! ## Frames -/

section Board

variable {img : List (BitVec 8)} {rom : Rom} {ui_in : Nat → BitVec 8} {other : Nat → Bool} {b : Nat → Board}
  {t : Nat} {a : Arch}

theorem echo_outputs (bytes : List (BitVec 8)) : echo.outputs () bytes = bytes := by
  induction bytes with
  | nil => rfl
  | cons byte bytes ih =>
    show byte :: echo.outputs () bytes = _
    rw [ih]

/-- The flash of the board holds the image of the raw reader. -/
theorem Reader.image_receiver (himg : Reader.image = .ok img) {flash : Bits.ByteMemory 14}
    (hflash : Paged.InFlash flash img) (load : Nat → Arch → Rv32i.Instr → Word) :
    Receiver Reader.pages flash load echo () (fun _ _ => True) pageClocks := by
  obtain ⟨img', himg', -, hwf, hold⟩ := Reader.image_holds
  cases himg.symm.trans himg'
  exact Reader.receiver load hwf (hold _ hflash)

/-- The flash of the board holds the image of the other reader. -/
theorem Ascii.image_receiver (himg : Ascii.image = .ok img) {flash : Bits.ByteMemory 14}
    (hflash : Paged.InFlash flash img) (load : Nat → Arch → Rv32i.Instr → Word) :
    Receiver Ascii.pages flash load translation Framing.start Flags (7 * pageClocks) := by
  obtain ⟨img', himg', -, hwf, hold⟩ := Ascii.image_holds
  cases himg.symm.trans himg'
  exact Ascii.receiver load hwf (hold _ hflash)

/-- The raw reader receives every frame of a keyboard that gives it time: when a frame begins, each byte before it has
been complete once, and it has been stored once. -/
theorem reader_receives (himg : Reader.image = .ok img) (hb : Board.Run rom ui_in other b) (h0 : (b 0).Ready)
    (hflash : Paged.InFlash (b 0).flash.mem img) (hat : Top.At (Board.tops b) t a) (hstart : Paged.HandedOff a)
    {bytes : List (BitVec 8)} {edge : Nat → Nat} (hs : Sends ui_in (3 * pageClocks) t bytes edge)
    (hfirst : t + pageClocks ≤ edge 0) (k : Nat) (hk : k ≤ bytes.length) :
    Top.emitted (Board.tops b) (events (b 0).flash.mem) t (edge (22 * k)) =
        (echo.traced word).outputs () (bytes.take k) ∧
      Top.gpioWrites (Board.tops b) t (edge (22 * k)) = bytes.take k := by
  have h := Reader.image_receiver himg hflash (Env.chip rom (Board.inputs ui_in other b)).load
  obtain ⟨hem, hws⟩ := h.follows hb h0 hat hstart hs (by unfold pageClocks; omega) hfirst k hk
  exact ⟨hem, hws.trans (echo_outputs _)⟩

/-- A board that begins at the handoff to an image, with `ui_in` on the pins. -/
def boardFrom (img : List (BitVec 8)) (ui_in : Nat → BitVec 8) : Nat → Board :=
  Clocked.run (fun (b : Board) (v : BitVec 8) => b.step bootRom v false) ui_in (Paged.handedOver img)

theorem Reader.handedOver_image :
    ∃ img, Reader.image = .ok img ∧ Paged.InFlash (Paged.handedOver img).flash.mem img := by
  obtain ⟨img, himg, hlen, -⟩ := Reader.image_holds
  exact ⟨img, himg, Paged.handedOver_inFlash (by rw [hlen]; decide)⟩

theorem Ascii.handedOver_image :
    ∃ img, Ascii.image = .ok img ∧ Paged.InFlash (Paged.handedOver img).flash.mem img := by
  obtain ⟨img, himg, hlen, -⟩ := Ascii.image_holds
  exact ⟨img, himg, Paged.handedOver_inFlash (by rw [hlen]; decide)⟩

/-- The key A is pressed and released. -/
theorem reader_receives_key : ∃ img, Reader.image = .ok img ∧
    Top.gpioWrites (Board.tops (boardFrom img (keys 16384 1 [0x1C, 0xF0, 0x1C]))) 0 (16384 * 67) =
      [0x1C, 0xF0, 0x1C] := by
  obtain ⟨img, himg, hflash⟩ := Reader.handedOver_image
  have hs : Sends (keys 16384 1 [0x1C, 0xF0, 0x1C]) (3 * pageClocks) 0 [0x1C, 0xF0, 0x1C] fun p => 16384 * (p + 1) :=
    sends_keys (by decide) 1 _ (by decide) 0
  have hall := @reader_receives img bootRom _ (fun _ => false) (boardFrom img (keys 16384 1 [0x1C, 0xF0, 0x1C])) 0 _
    himg (fun _ => rfl) (Paged.handedOver_ready img) hflash ⟨rfl, rfl⟩ ⟨rfl, rfl, rfl⟩ _ _ hs (by decide) 3 le_rfl
  exact ⟨img, himg, hall.2⟩

/-- The other reader stores the translation. -/
theorem ascii_translates (himg : Ascii.image = .ok img) (hb : Board.Run rom ui_in other b) (h0 : (b 0).Ready)
    (hflash : Paged.InFlash (b 0).flash.mem img) (hat : Top.At (Board.tops b) t a) (hstart : Paged.HandedOff a)
    {bytes : List (BitVec 8)} {edge : Nat → Nat} (hs : Sends ui_in (9 * pageClocks) t bytes edge)
    (hfirst : t + pageClocks ≤ edge 0) (k : Nat) (hk : k ≤ bytes.length) :
    Top.emitted (Board.tops b) (events (b 0).flash.mem) t (edge (22 * k)) =
        (translation.traced word).outputs Framing.start (bytes.take k) ∧
      Top.gpioWrites (Board.tops b) t (edge (22 * k)) = translation.outputs Framing.start (bytes.take k) := by
  have h := Ascii.image_receiver himg hflash (Env.chip rom (Board.inputs ui_in other b)).load
  exact h.follows hb h0 hat hstart hs (by unfold pageClocks; omega) hfirst k hk

/-- The key A is pressed and released, and then the key Up is pressed. -/
theorem ascii_translates_key : ∃ img, Ascii.image = .ok img ∧
    Top.gpioWrites (Board.tops (boardFrom img (keys 16384 1 [0x1C, 0xF0, 0x1C, 0xE0, 0x75]))) 0 (16384 * 111) =
      [0x61] := by
  obtain ⟨img, himg, hflash⟩ := Ascii.handedOver_image
  have hs : Sends (keys 16384 1 [0x1C, 0xF0, 0x1C, 0xE0, 0x75]) (9 * pageClocks) 0 [0x1C, 0xF0, 0x1C, 0xE0, 0x75]
      fun p => 16384 * (p + 1) := sends_keys (by decide) 1 _ (by decide) 0
  have hall := @ascii_translates img bootRom _ (fun _ => false)
    (boardFrom img (keys 16384 1 [0x1C, 0xF0, 0x1C, 0xE0, 0x75])) 0 _ himg (fun _ => rfl) (Paged.handedOver_ready img)
    hflash ⟨rfl, rfl⟩ ⟨rfl, rfl, rfl⟩ _ _ hs (by decide) 5 le_rfl
  exact ⟨img, himg, hall.2.trans (by decide)⟩

/-! ## Any waveform -/

/-- Whatever is on the pins: the bytes that have been complete so far and the stores so far, in the order in which they
were made, are those of a run of the translation, but for the store of the last byte. -/
theorem ascii_translates_any (himg : Ascii.image = .ok img) (hb : Board.Run rom ui_in other b) (h0 : (b 0).Ready)
    (hflash : Paged.InFlash (b 0).flash.mem img) (hat : Top.At (Board.tops b) t a) (hstart : Paged.HandedOff a)
    (T : Nat) : ∃ bytes,
    Top.emitted (Board.tops b) (events (b 0).flash.mem) t T <+: (translation.traced word).outputs Framing.start bytes ∧
      (Top.emitted (Board.tops b) (events (b 0).flash.mem) t T).filterMap Sum.getLeft? = bytes.map word := by
  have h := Ascii.image_receiver himg hflash (Env.chip rom (Board.inputs ui_in other b)).load
  obtain ⟨bytes, -, hem, -⟩ := h.follows_some hb h0 hat hstart T
  obtain ⟨n, hpre, hleft⟩ := Transducer.prefix_traced hem
  exact ⟨_, hpre, hleft⟩

/-- The key A is pressed, and after its frame every pin toggles, CLOCK much faster than the reader can follow. -/
def keyThenNoise (τ : Nat) : BitVec 8 :=
  if τ < 16384 * 23 then keys 16384 1 [0x1C] τ else BitVec.ofNat 8 (τ / 50)

theorem sends_keyThenNoise :
    Sends keyThenNoise (9 * pageClocks) 0 [0x1C] fun p => 16384 * (p + 1) :=
  Sends.of_eq_before (sends_keys (by decide) 1 _ (by decide) 0) fun _ hτ => if_pos hτ

/-- The byte of the key is complete, and whatever the noise gives is translated in the state that it leaves. -/
theorem ascii_translates_any_noise : ∃ img, Ascii.image = .ok img ∧ ∃ bytes, bytes.head? = some 0x1C ∧
    Top.emitted (Board.tops (boardFrom img keyThenNoise)) (events (Paged.handedOver img).flash.mem) 0
        1000000 <+: (translation.traced word).outputs Framing.start bytes ∧
      (Top.emitted (Board.tops (boardFrom img keyThenNoise)) (events (Paged.handedOver img).flash.mem) 0
        1000000).filterMap Sum.getLeft? = bytes.map word := by
  obtain ⟨img, himg, hflash⟩ := Ascii.handedOver_image
  obtain ⟨bytes, hpre, hleft⟩ := @ascii_translates_any img bootRom keyThenNoise (fun _ => false)
    (boardFrom img keyThenNoise) 0 _ himg (fun _ => rfl) (Paged.handedOver_ready img) hflash ⟨rfl, rfl⟩
    ⟨rfl, rfl, rfl⟩ 1000000
  refine ⟨img, himg, bytes, ?_, hpre, hleft⟩
  -- the frame of the key is complete before the noise begins
  have h := Ascii.image_receiver himg hflash
    (Env.chip bootRom (Board.inputs keyThenNoise (fun _ => false) (boardFrom img keyThenNoise))).load
  have hkey := (@Receiver.follows _ _ _ _ _ _ bootRom keyThenNoise (fun _ => false) (boardFrom img keyThenNoise) h
    (fun _ => rfl) (Paged.handedOver_ready img) 0 _ ⟨rfl, rfl⟩ ⟨rfl, rfl, rfl⟩ _ _ _ sends_keyThenNoise (by decide)
    (by decide) 1 le_rfl).1
  obtain ⟨rest, hrest⟩ := @Top.emitted_prefix (Board.tops (boardFrom img keyThenNoise)) _
    (events (boardFrom img keyThenNoise 0).flash.mem) 0 _ _ (show 16384 * (22 * 1 + 1) ≤ 1000000 by decide)
  have hwords : bytes.map word = word 0x1C :: rest.filterMap Sum.getLeft? := by
    rw [← hleft, ← hrest, hkey, List.filterMap_append]
    rfl
  cases bytes with
  | nil => cases hwords
  | cons byte bytes => exact congrArg some (Ascii.word_inj.mp (List.cons.inj hwords).1)

theorem outputs_length_le {γ : Type} {M : Transducer γ (BitVec 8) (BitVec 8)}
    (hM : ∀ g byte, (M.emits g byte).length ≤ 1) (g : γ) (bytes : List (BitVec 8)) :
    (M.outputs g bytes).length ≤ bytes.length := by
  induction bytes generalizing g with
  | nil => exact le_rfl
  | cons byte bytes ih =>
    have hone := hM g byte
    have hrest := ih (M.next g byte)
    rw [Transducer.outputs, List.length_append, List.length_cons]
    omega

/-- A keyboard is heard at most at a certain rate: eleven bursts, in which CLOCK may do what it likes for the time of
two pages, give at most one store. -/
theorem stores_le_bursts (himg : Reader.image = .ok img ∨ Ascii.image = .ok img) (hb : Board.Run rom ui_in other b)
    (h0 : (b 0).Ready) (hflash : Paged.InFlash (b 0).flash.mem img) (hat : Top.At (Board.tops b) t a)
    (hstart : Paged.HandedOff a) {T : Nat} {starts : List Nat}
    (hbursts : ∀ τ, t ≤ τ → τ < T → clock (ui_in τ) = false → ∃ u ∈ starts, u ≤ τ ∧ τ < u + 2 * leastPageClocks) :
    11 * (Top.gpioWrites (Board.tops b) t T).length ≤ starts.length := by
  -- both readers store one byte at most for each one that they receive
  have count : ∀ {γ : Type} {P : List Page} {M : Transducer γ (BitVec 8) (BitVec 8)} {g : γ} {good : γ → Regs → Prop}
      {time : Nat}, (∀ g byte, (M.emits g byte).length ≤ 1) →
      Receiver P (b 0).flash.mem (Env.chip rom (Board.inputs ui_in other b)).load M g good time →
      11 * (Top.gpioWrites (Board.tops b) t T).length ≤ starts.length := by
    intro γ P M g good time hM h
    obtain ⟨bytes, lows, -, hws, hcount, hapart, hlows⟩ := h.follows_some hb h0 hat hstart T
    have hlen := hws.length_le
    have hout := outputs_length_le hM g bytes
    have hstarts : lows.length ≤ starts.length := length_le_windows hapart fun s hs => by
      obtain ⟨h1, h2, h3⟩ := hlows s hs
      exact hbursts s h1 h2 h3
    omega
  rcases himg with himg | himg
  · exact count (fun _ _ => le_rfl) (Reader.image_receiver himg hflash _)
  · refine count (fun g byte => ?_) (Ascii.image_receiver himg hflash _)
    show (g.emits byte).length ≤ 1
    unfold Framing.emits
    split
    · exact Nat.zero_le 1
    · exact le_rfl

/-- A frame with 50 clocks for each phase: nothing is ever stored. -/
theorem stores_le_bursts_frame : ∃ img, Reader.image = .ok img ∧
    ∀ T, Top.gpioWrites (Board.tops (boardFrom img (keys 50 100 [0x1C]))) 0 T = [] := by
  obtain ⟨img, himg, hflash⟩ := Reader.handedOver_image
  refine ⟨img, himg, fun T => ?_⟩
  have hone := @stores_le_bursts img bootRom (keys 50 100 [0x1C]) (fun _ => false)
    (boardFrom img (keys 50 100 [0x1C])) 0 _ (.inl himg) (fun _ => rfl) (Paged.handedOver_ready img) hflash ⟨rfl, rfl⟩
    ⟨rfl, rfl, rfl⟩ T [5000] fun τ _ _ hlow => by
      refine ⟨5000, List.mem_singleton.mpr rfl, ?_⟩
      rw [clock_keys, decide_eq_false_iff_not] at hlow
      have hlen : ([0x1C] : List (BitVec 8)).length = 1 := rfl
      rw [hlen] at hlow
      unfold leastPageClocks
      omega
  rw [List.length_singleton] at hone
  exact List.length_eq_zero_iff.mp (by omega)

/-! ## From reset -/

theorem Sends.later {idle t' : Nat} {bytes : List (BitVec 8)} {edge : Nat → Nat} (h : Sends ui_in idle t bytes edge)
    (ht : t ≤ t') : Sends ui_in idle t' bytes edge :=
  { h with before := fun τ h1 h2 => h.before τ (ht.trans h1) h2 }

/-- The whole system: the self-test, the demo loop until START, the stub, the handoff, and the reader with a keyboard
that begins after the last bit of the stub. All that is stored in GPIO_OUT from reset on is the counter of the demo loop
and then the translation. -/
theorem ascii_from_reset (himg : Ascii.image = .ok img) (hb : Board.Run bootRom ui_in other b) {b0 : Board}
    (hreset : b 0 = b0.reset) (hflash : Paged.InFlash b0.flash.mem img) {S : Nat} {rise fall : Nat → Nat}
    (hstub : Paged.SendsStub ui_in S rise fall) {bytes : List (BitVec 8)} {edge : Nat → Nat}
    (hs : Sends ui_in (9 * pageClocks) (fall 39) bytes edge) (hfirst : fall 39 + 2 * pageClocks ≤ edge 0) :
    ∃ j, Boot.Turns (Board.inputs ui_in other b) j ∧ ∀ k ≤ bytes.length,
      Top.gpioWrites (Board.tops b) 0 (edge (22 * k)) =
        Boot.demoStores (Board.inputs ui_in other b) j ++ translation.outputs Framing.start (bytes.take k) := by
  obtain ⟨hready, hflash', j, T, hturns, hover, hlo, hhi, hdemo⟩ := Paged.board_hands_over hb hreset hflash hstub
  have h := Ascii.image_receiver himg hflash' (Env.chip bootRom (Board.inputs ui_in other b)).load
  refine ⟨j, hturns, fun k hk => ?_⟩
  unfold pageClocks at hfirst
  have hedge : edge 0 ≤ edge (22 * k) := edge_le hs (Nat.zero_le _) (by omega)
  obtain ⟨-, hws⟩ := h.follows hb hready ⟨hover.fetch, rfl⟩ hover.handed (hs.later hlo) (by unfold pageClocks; omega)
    (by unfold pageClocks; omega) k hk
  rw [Top.gpioWrites_append (Nat.zero_le T) (show T ≤ edge (22 * k) by omega), hdemo, hws]

end Board

/-- The pins of a host that sends the stub and of a keyboard that sends the byte of the key A after it. -/
def stubAndKey (τ : Nat) : BitVec 8 :=
  (Boot.wave (BitVec.ofNat 8 Paged.stub.length :: Paged.stub) τ).ui_in ||| keys 16384 7 [0x1C] τ

theorem getLsbD_keys (unit c : Nat) (bytes : List (BitVec 8)) (τ : Nat) {i : Nat} (hi : i < 3) :
    (keys unit c bytes τ).getLsbD i = false := by
  have hcase : i = 0 ∨ i = 1 ∨ i = 2 := by omega
  unfold keys
  rcases hcase with rfl | rfl | rfl
  all_goals split <;> split <;> rfl

theorem getLsbD_wave (msg : List (BitVec 8)) (τ : Nat) {i : Nat} (hi : i = 3 ∨ i = 4) :
    (Boot.wave msg τ).ui_in.getLsbD i = false := by
  unfold Boot.wave
  rcases hi with rfl | rfl
  all_goals split <;> split <;> rfl

theorem sendsStub_stubAndKey :
    Paged.SendsStub stubAndKey 0 (fun j => 2048 * j + 1024) (fun j => 2048 * (j + 1)) := by
  have hwave := Boot.sends_wave (BitVec.ofNat 8 Paged.stub.length :: Paged.stub)
  have hbit : ∀ τ {i : Nat}, i < 3 → (stubAndKey τ).getLsbD i =
      (Boot.wave (BitVec.ofNat 8 Paged.stub.length :: Paged.stub) τ).ui_in.getLsbD i := by
    intro τ i hi
    rw [stubAndKey, BitVec.getLsbD_or, getLsbD_keys _ _ _ _ hi, Bool.or_false]
  have hpulse : ∀ {p r f : Nat} {bit : Bool}, Boot.Pulse
      (fun τ => (Boot.wave (BitVec.ofNat 8 Paged.stub.length :: Paged.stub) τ).ui_in) p r f bit →
      Boot.Pulse stubAndKey p r f bit := fun h =>
    { low := fun τ h1 h2 => (hbit τ (by decide)).trans (h.low τ h1 h2)
      high := fun τ h1 h2 => (hbit τ (by decide)).trans (h.high τ h1 h2)
      data := fun τ h1 h2 => (hbit τ (by decide)).trans (h.data τ h1 h2)
      long := h.long
      after := fun τ h1 h2 => (hbit τ (by decide)).trans (h.after τ h1 h2) }
  exact
    { started := fun τ h1 h2 => (hbit τ (by decide)).trans (hwave.started τ h1 h2)
      after_reset := hwave.after_reset
      after_start := hwave.after_start
      first := hpulse hwave.first
      next := fun j hj => ⟨(hwave.next j hj).1, hpulse (hwave.next j hj).2⟩ }

theorem sends_stubAndKey : Sends stubAndKey (9 * pageClocks) (2048 * 40) [0x1C] fun p => 16384 * (p + 7) := by
  have hkeys : Sends (keys 16384 7 [0x1C]) (9 * pageClocks) (2048 * 40) [0x1C] fun p => 16384 * (p + 7) :=
    sends_keys (by decide) 7 _ (by decide) _
  have hbit : ∀ τ {i : Nat}, i = 3 ∨ i = 4 → (stubAndKey τ).getLsbD i = (keys 16384 7 [0x1C] τ).getLsbD i := by
    intro τ i hi
    rw [stubAndKey, BitVec.getLsbD_or, getLsbD_wave _ _ hi, Bool.false_or]
  exact
    { before := fun τ h1 h2 => (hbit τ (.inl rfl)).trans (hkeys.before τ h1 h2)
      phase := fun p hp τ h1 h2 => (hbit τ (.inl rfl)).trans (hkeys.phase p hp τ h1 h2)
      long := hkeys.long
      idle := hkeys.idle
      data := fun k hk i hi τ h1 h2 => (hbit τ (.inr rfl)).trans (hkeys.data k hk i hi τ h1 h2) }

theorem ascii_from_reset_key : ∃ img, Ascii.image = .ok img ∧
    let b := Clocked.run (fun (b : Board) (v : BitVec 8) => b.step bootRom v false) stubAndKey
      (Paged.handedOver img).reset
    ∃ j, Top.gpioWrites (Board.tops b) 0 (16384 * 29) =
      Boot.demoStores (Board.inputs stubAndKey (fun _ => false) b) j ++ [0x61] := by
  obtain ⟨img, himg, hflash⟩ := Ascii.handedOver_image
  refine ⟨img, himg, ?_⟩
  intro b
  obtain ⟨j, -, hall⟩ := @ascii_from_reset img stubAndKey (fun _ => false) b himg (fun _ => rfl)
    (Paged.handedOver img) rfl hflash 0 _ _ sendsStub_stubAndKey _ _ sends_stubAndKey (by decide)
  exact ⟨j, hall 1 le_rfl⟩

end Ps2

end Pineapple
