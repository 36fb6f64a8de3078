import Pineapple.Paged.Proofs.HandoffProofs
import Pineapple.St7789.Proofs.StreamProofs

/-!
# Proofs: the panel when the driver starts

The demo loop counts on the pins of the panel, so it shifts bits into the panel before the driver runs. CS is bit 3 of
the counter and SCK bit 0: the bits of the first eight values stay in the panel, and the next eight values clear them.
-/

namespace Pineapple

open Rv32i (readReg)
open Spi (Mode0)

namespace St7789

variable {inp : Nat → Inputs} {k : Nat}

/-! ## The demo loop -/

/-- The number of bits that the panel has taken after `k` stores of the demo loop. -/
def pending (k : Nat) : Nat := if k % 16 < 8 then (k % 16 + 1) / 2 else 0

theorem led_pins : ∀ m < 16, ∀ v ∈ [(0 : BitVec 8), 0x80], Mode0.csOf (v + BitVec.ofNat 8 m) = decide (8 ≤ m) ∧
    Mode0.sckOf (v + BitVec.ofNat 8 m) = decide (m % 2 = 1) := by
  decide

theorem demo_pending (inp : Nat → Inputs) (k : Nat) : (Mode0.reset.after (Boot.demoStores inp k)).bits = pending k ∧
    (Mode0.reset.after (Boot.demoStores inp k)).sck = decide (k % 2 = 1) := by
  induction k with
  | zero => exact ⟨rfl, rfl⟩
  | succ k ih =>
    obtain ⟨hbits, hsck⟩ := ih
    have hv : Boot.verdict inp ∈ [(0 : BitVec 8), 0x80] := by
      unfold Boot.verdict
      split
      · simp
      · simp
    obtain ⟨hcs', hsck'⟩ := led_pins ((k + 1) % 16) (Nat.mod_lt _ (by omega)) _ hv
    have hstep : Mode0.reset.after (Boot.demoStores inp (k + 1)) =
        (Mode0.reset.after (Boot.demoStores inp k)).next (Boot.verdict inp + BitVec.ofNat 8 ((k + 1) % 16)) := by
      unfold Boot.demoStores
      rw [List.range_succ, List.map_append, Mode0.after_append]
      rfl
    rw [hstep]
    generalize Mode0.reset.after (Boot.demoStores inp k) = s at hbits hsck
    unfold Mode0.next Mode0.takes
    rw [hcs', hsck', hsck, hbits]
    unfold pending
    by_cases h8 : 8 ≤ (k + 1) % 16
    · -- CS is high
      rw [if_pos (decide_eq_true h8), if_neg (show ¬ (k + 1) % 16 < 8 by omega)]
      exact ⟨rfl, decide_eq_decide.mpr (by omega)⟩
    · rw [if_neg (by simpa using h8), if_pos (show (k + 1) % 16 < 8 by omega)]
      by_cases hodd : (k + 1) % 2 = 1
      · -- SCK rises
        rw [if_pos (by simp; omega)]
        refine ⟨?_, (decide_eq_true hodd).symm⟩
        show (_ + 1) % 8 = _
        split <;> omega
      · rw [if_neg (by simp; omega)]
        refine ⟨?_, decide_eq_decide.mpr (by omega)⟩
        show (if k % 16 < 8 then (k % 16 + 1) / 2 else 0) = _
        split <;> omega

/-! ## What the panel sees -/

section Panel

variable {rom : Rom} {ui_in : Nat → BitVec 8} {other : Nat → Bool} {b : Nat → Board} {b0 : Board}
  (hb : Board.Run rom ui_in other b) (h0 : b 0 = b0.reset)

include hb h0

/-- The panel sees the stores. -/
theorem decode_levels (t t' : Nat) : (panel b t).decode (levels b t t') =
    (Mode0.reset.after (Top.gpioWrites (Board.tops b) 0 t)).decode (Top.gpioWrites (Board.tops b) t t') := by
  have hpins : ∀ τ, (Board.tops b (τ + 1)).uo_out = (if (Board.tops b τ).core.mem_we = true ∧
      (Board.tops b τ).core.mem_addr = 0xF0 then some ((Board.tops b τ).core.mem_wdata.extractLsb' 0 8)
      else none).getD (Board.tops b τ).uo_out := by
    intro τ
    rw [Boot.uo_out_succ hb.top τ]
    split
    · rfl
    · rfl
  have hreset : Mode0.reset.Settled (Board.tops b 0).uo_out := by
    have hpin : (Board.tops b 0).uo_out = 0 := by
      rw [Board.tops, h0]
      rfl
    rw [hpin]
    exact ⟨rfl, fun _ => rfl⟩
  have hnow : (panel b t).Settled (Board.tops b t).uo_out := by
    have hsettled := @Mode0.Settled.after (fun τ => (Board.tops b τ).uo_out) _ 0 hreset t
    rw [Nat.zero_add t] at hsettled
    exact hsettled
  have hpanel : panel b t = Mode0.reset.after (Top.gpioWrites (Board.tops b) 0 t) :=
    (Mode0.decode_sampled hpins hreset t).2
  rw [← hpanel]
  exact (Mode0.decode_sampled hpins hnow (t' - t)).1

end Panel

variable {s : Mode0}

/-- A panel that has bits left completes its first byte inside the byte that is sent. -/
theorem decode_byteStores_pending {b : Int × Nat} (hdc : DcOk b) (h0 : 1 ≤ s.bits) (h7 : s.bits ≤ 7)
    (rest : List (BitVec 8)) : ∃ d w bytes, s.decode (byteStores b ++ rest) = (d, w) :: bytes ∧
      w.getLsbD 0 = (BitVec.ofInt 8 b.1).getMsbD (7 - s.bits) :=
  @Mode0.decode_pending s _ _ (fun i => (BitVec.ofInt 8 b.1).getMsbD i) (fun _ hi => (bit_levels hdc hi).1)
    (fun _ hi => (bit_levels hdc hi).2.2.1) h0 h7 rest

theorem storesFrom_zero (c : Config) (n : Nat) :
    ∃ rest, storesFrom c 0 n = byteStores (1, DC_CMD) ++ rest := by
  unfold storesFrom headBytes
  rw [List.drop_zero, List.flatMap_cons, List.append_assoc]
  exact ⟨_, rfl⟩

theorem decode_zero (s : Mode0) (vs : List (BitVec 8)) :
    s.decode (0 :: vs) = ({ s with sck := false } : Mode0).decode vs := by
  rw [Mode0.decode, (s.next_low rfl rfl).2, (s.next_low rfl rfl).1]
  rfl

theorem stream_head (c : Config) (n : Nat) : ∃ rest, stream c n = (false, 1) :: rest := ⟨_, rfl⟩

/-- The driver sends its bytes to an aligned panel; a panel that has bits left completes another first byte. -/
theorem decode_driver (c : Config) (h7 : s.bits ≤ 7) (n : Nat) :
    s.decode (0 :: storesFrom c 0 n) = stream c n ↔ s.bits = 0 := by
  rw [decode_zero]
  constructor
  · intro h
    by_contra hpos
    -- all bits of the command 0x01 but the last are zero
    obtain ⟨rest, hrest⟩ := storesFrom_zero c n
    obtain ⟨bytes, hbytes⟩ := stream_head c n
    obtain ⟨d, w, bytes', hdec, hlast⟩ := @decode_byteStores_pending { s with sck := false } (1, DC_CMD) (.inl rfl)
      (Nat.pos_of_ne_zero hpos) h7 rest
    rw [hrest, hdec, hbytes] at h
    obtain ⟨hfirst, -⟩ := List.cons.inj h
    obtain ⟨-, hw⟩ := Prod.mk.inj hfirst
    have hmsb : ∀ i < 7, (BitVec.ofInt 8 1).getMsbD i = false := by decide
    have hlow : 7 - s.bits < 7 := by omega
    rw [hw, hmsb _ hlow] at hlast
    exact absurd hlast (by decide)
  · intro h
    exact decode_storesFrom (s := { s with sck := false }) h (Nat.zero_le 2) n

/-- The value of `x5` that page 0 leaves is not zero. -/
theorem fill_pos {n : Int} (h : 0 < n) (h24 : n < 2 ^ 24) : 1 ≤ (loaded n).toNat := by
  have hlo : -2048 ≤ (n % 4096).bmod 4096 ∧ (n % 4096).bmod 4096 < 2048 ∧
      ((n % 4096).bmod 4096 = n % 4096 ∨ (n % 4096).bmod 4096 = n % 4096 - 4096) := by
    simp only [Int.bmod]
    omega
  have hhi : (n / 4096).bmod 4096 = n / 4096 ∨ (n / 4096).bmod 4096 = n / 4096 - 4096 := by
    simp only [Int.bmod]
    omega
  have hsize : (2 : Int) ^ 24 = 16777216 := rfl
  rw [hsize] at h24
  rw [loaded]
  generalize (n % 4096).bmod 4096 = lo at hlo
  generalize (n / 4096).bmod 4096 = hi at hhi
  rw [BitVec.toNat_ofInt, show ((2 ^ 32 : Nat) : Int) = 4294967296 from rfl]
  omega

/-! ## The driver -/

variable {c : Config} {img : List (BitVec 8)} {ui_in : Nat → BitVec 8} {other : Nat → Bool} {b : Nat → Board}
  {b0 : Board} {S : Nat} {rise fall : Nat → Nat}

/-- From reset the demo loop makes some number `k` of turns before it sees START, the stub hands over to the driver,
and the driver sends its bytes. The panel completes exactly these bytes, with no bit left over from the demo loop, if
and only if `k` modulo 16 is 0 or at least 8. The number of pixels is what `load_const32` loads, and that is the
number of the configuration if and only if its bits 11 and 23 are clear. -/
theorem panel_aligned_iff (himg : image c = .ok img) (hpix : 0 < pixel_count c)
    (hb : Board.Run bootRom ui_in other b) (h0 : b 0 = b0.reset) (hflash : Paged.InFlash b0.flash.mem img)
    (hsends : Paged.SendsStub ui_in S rise fall) :
    ∃ k T₀ T₁ a, Boot.Turns (Board.inputs ui_in other b) k ∧ Paged.HandsOver (Board.tops b) T₀ ∧ T₀ ≤ T₁ ∧
      Top.At (Board.tops b) T₁ a ∧ AtPage 1 a ∧ a.reg 5 = loaded (pixel_count c) ∧
      ((a.reg 5).toNat = pixel_count c ↔ pixel_count c % 4096 < 2048 ∧ pixel_count c < 2 ^ 23) ∧
      (Receives b T₀ (stream c (a.reg 5).toNat) ↔ k % 16 = 0 ∨ 8 ≤ k % 16) := by
  obtain ⟨hready, hflash', k, T₀, hturns, hover, -, -, hbefore⟩ := Paged.board_hands_over hb h0 hflash hsends
  obtain ⟨T₁, a, hat, hle, hpage, hzero, h5⟩ := stores_init himg hb hready hflash' ⟨hover.fetch, rfl⟩ hover.handed
  obtain ⟨p, hp, -⟩ := bind_ok.mp himg
  have hcount := pixel_count_of_script c hp
  refine ⟨k, T₀, T₁, a, hturns, hover, hle, hat, hpage, h5, ?_, ?_⟩
  · rw [h5]
    exact loaded_eq_iff hcount.1 hcount.2
  have h1 : 1 ≤ (a.reg 5).toNat := by
    rw [h5]
    exact fill_pos hpix hcount.2
  obtain ⟨T, hws, hend⟩ := stores_from himg hb hready hflash' hat (k := 0) hpage h1
  obtain ⟨hbits, -⟩ := demo_pending (Board.inputs ui_in other b) k
  -- what the panel completes by the end
  have hdec : ∀ T', max T₁ T ≤ T' → (panel b T₀).decode (levels b T₀ T') =
      (Mode0.reset.after (Boot.demoStores (Board.inputs ui_in other b) k)).decode
        (0 :: storesFrom c 0 (a.reg 5).toNat) := by
    intro T' hT'
    have hall : Top.gpioWrites (Board.tops b) T₁ T' = storesFrom c 0 (a.reg 5).toNat := by
      by_cases hT : T₁ ≤ T
      · rw [Top.gpioWrites_append hT (show T ≤ T' by omega), hws, hend T' (by omega), List.append_nil]
      · have hnil : storesFrom c 0 (a.reg 5).toNat = [] := by
          rw [← hws]
          unfold Top.gpioWrites
          rw [show T - T₁ = 0 by omega]
          rfl
        have hsplit := hend T' (by omega)
        rw [Top.gpioWrites_append (show T ≤ T₁ by omega) (show T₁ ≤ T' by omega)] at hsplit
        rw [hnil]
        exact (List.append_eq_nil_iff.mp hsplit).2
    rw [decode_levels hb h0 T₀ T', hbefore,
      Top.gpioWrites_append hle (show T₁ ≤ T' by omega), hzero, hall]
    rfl
  have hpend : pending k ≤ 7 ∧ (pending k = 0 ↔ k % 16 = 0 ∨ 8 ≤ k % 16) := by
    unfold pending
    split <;> omega
  have hiff := decode_driver c (s := Mode0.reset.after (Boot.demoStores (Board.inputs ui_in other b) k))
    (by omega) (a.reg 5).toNat
  rw [← hpend.2, ← hbits, ← hiff]
  constructor
  · rintro ⟨T', hrec⟩
    rw [← hdec _ (le_max_left _ T')]
    exact hrec _ (by omega)
  · intro h
    exact ⟨max T₁ T, fun T' hT' => (hdec T' hT').trans h⟩

/-- A host of the stub that raises START in cycle 240, when the demo loop has made one turn. -/
def lateWave (τ : Nat) : BitVec 8 :=
  if τ < 240 then 0 else (Boot.wave (BitVec.ofNat 8 Paged.stub.length :: Paged.stub) τ).ui_in

theorem sends_lateWave :
    Paged.SendsStub lateWave 240 (fun j => 2048 * j + 1024) (fun j => 2048 * (j + 1)) := by
  have hwave := Boot.sends_wave (BitVec.ofNat 8 Paged.stub.length :: Paged.stub)
  have hlate : ∀ τ, 240 ≤ τ →
      lateWave τ = (Boot.wave (BitVec.ofNat 8 Paged.stub.length :: Paged.stub) τ).ui_in :=
    fun τ h => if_neg (by omega)
  have hpulse : ∀ {p r f : Nat} {bit : Bool}, 240 ≤ r → Boot.Pulse
      (fun τ => (Boot.wave (BitVec.ofNat 8 Paged.stub.length :: Paged.stub) τ).ui_in) p r f bit →
      Boot.Pulse lateWave p r f bit := by
    intro p r f bit hr h
    have hlong := h.long
    refine ⟨fun τ h1 h2 => ?_, fun τ h1 h2 => ?_, fun τ h1 h2 => ?_, hlong, fun τ h1 h2 => ?_⟩
    · by_cases hτ : τ < 240
      · rw [lateWave, if_pos hτ]
        rfl
      · rw [hlate τ (by omega)]
        exact h.low τ h1 h2
    · rw [hlate τ (by omega)]
      exact h.high τ h1 h2
    · rw [hlate τ (by omega)]
      exact h.data τ h1 h2
    · rw [hlate τ (by omega)]
      exact h.after τ h1 h2
  refine ⟨fun τ h1 h2 => ?_, hwave.after_reset, by omega, hpulse (by omega) hwave.first, fun j hj => ?_⟩
  · rw [hlate τ h1]
    exact hwave.started τ (Nat.zero_le τ) h2
  · obtain ⟨hgap, hnext⟩ := hwave.next j hj
    exact ⟨hgap, hpulse (by omega) hnext⟩

/-- With that host the panel does not get what the driver sends, all pixels of the shipped configuration. -/
theorem panel_aligned_iff_late :
    ∃ img b0, image shipped = .ok img ∧
      let b := Clocked.run (fun (b : Board) (ui_in : BitVec 8) => b.step bootRom ui_in false) lateWave b0
      ∃ T₀ T₁ a, Paged.HandsOver (Board.tops b) T₀ ∧ Top.At (Board.tops b) T₁ a ∧ AtPage 1 a ∧
        (a.reg 5).toNat = pixel_count shipped ∧ ¬ Receives b T₀ (stream shipped (a.reg 5).toNat) := by
  obtain ⟨img, himg, hflash⟩ := image_ok (c := shipped) (by decide)
  refine ⟨img, (Paged.handedOver img).reset, himg, ?_⟩
  intro b
  obtain ⟨k, T₀, T₁, a, hturns, hover, -, hat, hpage, -, hcount, hiff⟩ := @panel_aligned_iff shipped img lateWave
    (fun _ => false) b (Paged.handedOver img) _ _ _ himg (by decide) (fun _ => rfl) rfl hflash sends_lateWave
  refine ⟨T₀, T₁, a, hover, hat, hpage, hcount.mpr (by decide), fun hrec => ?_⟩
  obtain ⟨inp, hinp⟩ : ∃ inp, inp = Board.inputs lateWave (fun _ => false) b := ⟨_, rfl⟩
  rw [← hinp] at hturns
  have hpin : ∀ τ, Boot.start (inp τ).ui_in = decide (240 ≤ τ) := by
    intro τ
    rw [hinp]
    show Boot.start (lateWave τ) = _
    unfold lateWave
    split
    · exact (decide_eq_false (by omega)).symm
    · rw [decide_eq_true (by omega)]
      unfold Boot.wave Boot.start
      split <;> split <;> rfl
  have hstart : Boot.demoStart inp = 206 ∨ Boot.demoStart inp = 220 := by
    unfold Boot.demoStart
    split
    · exact .inl rfl
    · exact .inr rfl
  -- the first sample is too early, and the second one sees START
  have hhigh := hturns.high
  rw [hpin, decide_eq_true_eq] at hhigh
  have hone : k < 2 := by
    by_contra hlt
    have hlow := hturns.low 1 (by omega)
    rw [hpin, decide_eq_false_iff_not] at hlow
    omega
  have := hiff.mp hrec
  omega

end St7789

end Pineapple
