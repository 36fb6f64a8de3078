import Pineapple.Boot.Proofs.ConfineProofs
import Pineapple.Boot.Proofs.LoadProofs

/-!
# Proofs: the boot ROM hands over to the program

The path of the ROM is taken by the chip, so at its end the program is in the RAM and the program counter is
at its first byte.
-/

namespace Pineapple

open Rv32i (Instr Word Reg)

namespace Boot

variable {inp : Nat → Inputs} {s : Nat → Top} {T : Nat} {a : Arch}

/-- What a path that does not stray says about the fetches of the chip. -/
theorem Boots.fetches {t : Nat} {a' : Arch} (hs : Top.Run bootRom inp s) (h0 : Top.AtFetch (s 0)) (hat : Top.At s t a)
    (hb : Boots inp (t, a) (T, a')) :
    Top.At s T a' ∧ ∀ τ, t ≤ τ → τ < T → (s τ).core.state = .fetch → (∃ k < 44, (s τ).core.pc = addr k) ∧
      ((s τ).core.pc = addr 22 →
        0xB4 ≤ ((s τ).arch.reg 5).toNat ∧ ((s τ).arch.reg 5).toNat ≤ 0xE0) := by
  obtain ⟨hat', -, hem⟩ := Top.run_path hs h0 Top.agrees_chip hb hat
  refine ⟨hat', fun τ h1 h2 hf => ?_⟩
  have hseen : strays (τ, (s τ).arch) = [] := Top.emitted_eq_nil.mp hem τ h1 h2 hf
  rw [strays] at hseen
  split at hseen
  · rename_i h
    exact ⟨exists_addr h.1.1 h.1.2, h.2⟩
  · cases hseen

/-- A store during such a path goes to the LEDs exactly if it is one of the demo loop. -/
theorem led_iff {τ t k : Nat} {i : Instr} (hw : InWord inp s τ t k i) (hwe : (s τ).core.mem_we = true)
    (h22 : (s t).core.pc = addr 22 →
      0xB4 ≤ ((s t).arch.reg 5).toNat ∧ ((s t).arch.reg 5).toNat ≤ 0xE0) :
    (s τ).core.mem_addr = 0xF0 ↔
      4 * MAIN_LOOP ≤ (s τ).core.pc.toNat ∧ (s τ).core.pc.toNat < 4 * START_SEEN := by
  obtain ⟨hpc, ⟨rfl, h⟩ | ⟨rfl, h⟩ | ⟨rfl, h⟩⟩ := hw.store hwe
  · rw [hpc, h]
    decide
  · rw [hpc, h]
    decide
  · obtain ⟨h1, h2⟩ := h22 hw.pc
    rw [hpc, h]
    refine iff_of_false (fun h' => ?_) (by decide)
    have := congrArg BitVec.toNat h'
    rw [BitVec.toNat_setWidth] at this
    change _ = 240 at this
    omega

variable {S : Nat} {rise fall : Nat → Nat} {prog : List (BitVec 8)} {s0 : Top}

/-- The boot ROM loads every program that fits: for every host waveform that follows the protocol, the
first fetch outside the ROM is at the start of the load window, after the last bit, with the program there
and everything else as it was. -/
theorem boot_rom_loads (hs : Top.Run bootRom inp s) (h0 : s 0 = s0.reset) (hlen : prog.length ≤ 44)
    (hsends : Sends (fun τ => (inp τ).ui_in) (BitVec.ofNat 8 prog.length :: prog) S rise fall) :
    ∃ T, Loads s prog (fall (8 * prog.length + 7)) T := by
  have hf0 : Top.AtFetch (s 0) := h0 ▸ Top.reset_atFetch s0
  have hmode0 : (s 0).mem.flash_mode = false := by rw [h0]; rfl
  have hpage0 : (s 0).mem.flash_page = 0 := by rw [h0]; rfl
  obtain ⟨u, a, hu, -, hb, ha⟩ := reset_to_byte (a := (s 0).arch) (by rw [h0]; rfl) hmode0 hsends (by omega)
    prog.length le_rfl hlen
  obtain ⟨hat, hfetch⟩ := Boots.fetches hs hf0 ⟨hf0.state, rfl⟩ (hb.trans (run_program ha))
  have hfetch := fun τ => hfetch τ (Nat.zero_le τ)
  have hmem : (s (u + 14)).mem.toMemRegs = a.mem := congrArg Arch.mem hat.arch
  refine ⟨u + 14, ?_⟩
  exact
    { fetch := hat.state
      pc := congrArg (fun a : Arch => a.pc) hat.arch
      first := fun τ hτ hf => by
        obtain ⟨⟨k, hk, hpc⟩, -⟩ := hfetch τ hτ hf
        rw [hpc, addr_toNat hk]
        omega
      received := by omega
      loaded := fun i hi => by
        rw [hmem, ha.ram _ (by omega) (by omega), if_pos (by omega), Nat.add_sub_cancel_left]
      rest := fun b h1 h2 hb => by
        rw [hmem, ha.ram b h1 h2, if_neg hb]
        rfl
      flash_mode := by rw [hmem, ha.flash_mode]; exact hmode0
      flash_page := by rw [hmem, ha.flash_page]; exact hpage0
      uo_out := by
        refine uo_out_eq hs (by rw [h0]; rfl) fun τ hτ hwe => ?_
        obtain ⟨t, k, i, hw⟩ := exists_inWord (j := τ) hs hf0 fun v hv hf => (hfetch v (by omega) hf).1
        exact led_iff hw hwe (hfetch t (by have := hw.le; omega) hw.fetch).2 }

/-- The waveform of `wave` follows the protocol. -/
theorem sends_wave (msg : List (BitVec 8)) : Sends (fun τ => (wave msg τ).ui_in) msg 0
    (fun j => 2048 * j + 1024) (fun j => 2048 * (j + 1)) := by
  have hclock : ∀ τ, clock (wave msg τ).ui_in = decide (τ / 1024 % 2 = 1) := by
    intro τ
    unfold wave clock
    split <;> split <;> simp_all
  have hdata : ∀ τ, data (wave msg τ).ui_in = messageBit msg (τ / 2048) := by
    intro τ
    unfold wave data
    split <;> split <;> simp_all
  have hpulse : ∀ j p, 2048 * j ≤ p → Pulse (fun τ => (wave msg τ).ui_in) p (2048 * j + 1024)
      (2048 * (j + 1)) (messageBit msg j) := by
    intro j p hp
    refine ⟨fun τ h1 h2 => ?_, fun τ h1 h2 => ?_, fun τ h1 h2 => ?_, by omega, fun τ h1 h2 => ?_⟩
    · rw [hclock]
      exact decide_eq_false (by omega)
    · rw [hclock]
      exact decide_eq_true (by omega)
    · rw [hdata, show τ / 2048 = j by omega]
    · rw [hclock]
      exact decide_eq_false (by omega)
  refine
    { started := fun τ _ _ => ?_
      after_reset := by omega
      after_start := by omega
      first := hpulse 0 0 (by omega)
      next := fun j _ => ⟨by omega, hpulse (j + 1) _ (by omega)⟩ }
  unfold wave start
  split <;> split <;> rfl

/-- A chip that is given the four bytes of a NOP. -/
theorem boot_rom_loads_nop :
    let prog : List (BitVec 8) := [0x13, 0, 0, 0]
    let inp := wave (4 :: prog)
    ∃ T, Loads (Clocked.run (fun s (i : Inputs) => Top.step s bootRom i) inp powerUp.reset) prog 81920 T :=
  @boot_rom_loads _ _ _ _ _ [0x13, 0, 0, 0] powerUp (fun _ => rfl) rfl (by decide) (sends_wave _)

end Boot

end Pineapple
