import Pineapple.Boot.Proofs.FollowProofs
import Pineapple.Boot.Proofs.HandoverProofs

/-!
# Proofs: when the boot ROM stays within its targets

BYTE_LOOP has no bound on the write pointer. The ROM is confined exactly if no 46 data bytes are heard after a length
byte of at least 46; the 46th goes to the PSRAM behind the load window.
-/

namespace Pineapple

open Rv32i (Instr Word Reg)

namespace Boot

variable {inp : Nat → Inputs} {s : Nat → Top} {τ t k n T : Nat} {a : Arch} {i : Instr} {heard : List (BitVec 8)}

/-! ## The targets of the ROM -/

/-- A store of the ROM goes to the self-test, the LEDs or the load window, unless the write pointer is behind it. -/
theorem store_target (hw : InWord inp s τ t k i) (hwe : (s τ).core.mem_we = true)
    (h22 : (s t).core.pc = addr 22 → 0xB4 ≤ ((s t).arch.reg 5).toNat ∧ ((s t).arch.reg 5).toNat ≤ 0xE0) :
    (s τ).core.mem_addr = 0xE0 ∨ (s τ).core.mem_addr = 0xF0 ∨
      (0xB4 ≤ (s τ).core.mem_addr.toNat ∧ (s τ).core.mem_addr.toNat ≤ 0xDF) := by
  rcases (hw.store hwe).2 with ⟨-, h⟩ | ⟨-, h⟩ | ⟨rfl, h⟩
  · exact .inl h
  · exact .inr (.inl h)
  · obtain ⟨hlo, hhi⟩ := h22 hw.pc
    have haddr : (s τ).core.mem_addr.toNat = ((s t).arch.reg 5).toNat := by
      rw [h, BitVec.toNat_setWidth]
      omega
    by_cases hE0 : ((s t).arch.reg 5).toNat = 0xE0
    · left
      apply BitVec.eq_of_toNat_eq
      rw [haddr, hE0]
      rfl
    · right
      right
      omega

/-- Stores to other addresses leave the flash registers clear. -/
theorem run_flash (hs : Top.Run bootRom inp s) (h0 : (s 0).mem.flash_mode = false ∧ (s 0).mem.flash_page = 0)
    (hstore : ∀ v < τ, (s v).core.mem_we = true → (s v).core.mem_addr ≠ 0xF8 ∧ (s v).core.mem_addr ≠ 0xFC) :
    (s τ).mem.flash_mode = false ∧ (s τ).mem.flash_page = 0 := by
  induction τ with
  | zero => exact h0
  | succ τ ih =>
    have hprev := ih fun v hv => hstore v (by omega)
    show (s (τ + 1)).mem.toMemRegs.flash_mode = false ∧ (s (τ + 1)).mem.toMemRegs.flash_page = 0
    rw [show (s (τ + 1)).mem.toMemRegs = _ from hs.mem.regs τ, MemRegs.afterBus]
    split
    · rename_i hwe
      obtain ⟨h8, hC⟩ := hstore τ (by omega) hwe
      obtain ⟨h1, h2⟩ := (s τ).mem.write_flash (s τ).bus.wdata (s τ).bus.size h8 hC
      exact ⟨h1.trans hprev.1, h2.trans hprev.2⟩
    · exact hprev

/-- CS0 stays high over a request for another device. -/
theorem step_cs0 {e : Qspi} (h : e.pin_cs0 = true) {r : Req} (hr : r.dev ≠ 1) (miso : Bool) :
    (e.step r miso).pin_cs0 = true := by
  unfold Qspi.step
  split
  · split
    · rfl
    · exact h
  · exact h
  · exact h
  · rfl
  · exact h

/-- Without `FLASH_MODE` the flash is never selected. -/
theorem run_cs0 (hs : Top.Run bootRom inp s) (h0 : (s 0).eng.pin_cs0 = true)
    (hmode : ∀ v < τ, (s v).mem.flash_mode = false) : (s τ).eng.pin_cs0 = true := by
  induction τ with
  | zero => exact h0
  | succ τ ih =>
    have hdev : (s τ).req.dev = 2 := by
      show (s τ).mem.req_dev (s τ).bus.addr = 2
      rw [MemRegs.req_dev, MemRegs.in_ext_flash, hmode τ (by omega), Bool.false_and]
      rfl
    rw [show (s (τ + 1)).eng = _ from hs.mem.engine τ]
    refine step_cs0 (ih fun v hv => hmode v (by omega)) ?_ _
    show (s τ).req.dev ≠ 1
    rw [hdev]
    decide

/-- As long as the fetches do not stray, the chip is confined. -/
theorem confined_of_fetches (hs : Top.Run bootRom inp s) {s0 : Top} (h0 : s 0 = s0.reset)
    (hfetch : ∀ τ < T, (s τ).core.state = .fetch → (∃ k < 44, (s τ).core.pc = addr k) ∧
      ((s τ).core.pc = addr 22 → 0xB4 ≤ ((s τ).arch.reg 5).toNat ∧ ((s τ).arch.reg 5).toNat ≤ 0xE0)) :
    ∀ τ < T, Confined (s τ) := by
  have hf0 : Top.AtFetch (s 0) := h0 ▸ Top.reset_atFetch s0
  have hstore : ∀ τ < T, (s τ).core.mem_we = true → (s τ).core.mem_addr = 0xE0 ∨ (s τ).core.mem_addr = 0xF0 ∨
      (0xB4 ≤ (s τ).core.mem_addr.toNat ∧ (s τ).core.mem_addr.toNat ≤ 0xDF) := by
    intro τ hτ hwe
    obtain ⟨t, k, i, hw⟩ := exists_inWord (j := τ) hs hf0 fun v hv hf => (hfetch v (by omega) hf).1
    exact store_target hw hwe (hfetch t (by have := hw.le; omega) hw.fetch).2
  have hother : ∀ τ < T, (s τ).core.mem_we = true → (s τ).core.mem_addr ≠ 0xF8 ∧ (s τ).core.mem_addr ≠ 0xFC := by
    intro τ hτ hwe
    rcases hstore τ hτ hwe with h | h | h
    · rw [h]
      decide
    · rw [h]
      decide
    · constructor
      all_goals
        intro hbad
        rw [hbad] at h
        exact absurd h (by decide)
  have hregs : ∀ τ < T, (s τ).mem.flash_mode = false ∧ (s τ).mem.flash_page = 0 := fun τ hτ =>
    run_flash hs (by rw [h0]; exact ⟨rfl, rfl⟩) fun v hv => hother v (by omega)
  exact fun τ hτ =>
    { flash_mode := (hregs τ hτ).1
      flash_page := (hregs τ hτ).2
      cs0 := run_cs0 hs (by rw [h0]; rfl) fun v hv => (hregs v (by omega)).1
      store := hstore τ hτ }

/-- With the write pointer behind the address of the self-test, BYTE_LOOP stores outside its targets. -/
theorem store_outside (hs : Top.Run bootRom inp s) (hf : Top.AtFetch (s t))
    (hpc : (s t).core.pc = 0x58) (h5 : (s t).arch.reg 5 = 0xE1) :
    ∃ n, Top.NextFetch s t n ∧ ∃ j, t ≤ j ∧ j < t + n ∧ ¬ Confined (s j) := by
  have hi := instr_boot inp (t := t) (a := (s t).arch) (j := 22) hpc rfl
  obtain ⟨j, h1, h2, hwe, haddr⟩ := Top.run_store hs hf hi rfl rfl
  obtain ⟨-, hst⟩ := Top.run_step hs hf hi
  refine ⟨_, hst.next, j, h1, h2, fun hconf => ?_⟩
  have hE1 : (s j).core.mem_addr = 0xE1 := haddr.trans (ptr_addr (n := 0xE1) _ h5)
  rcases hconf.store hwe with h | h | h
  all_goals
    rw [hE1] at h
    exact absurd h (by decide)

/-! ## Every run -/

variable (inp) in
/-- The ROM follows the listener from reset on. -/
theorem follows_reset (hpc : a.pc = addr 0) (hmode : a.mem.flash_mode = false) (n : Nat) :
    (∃ u a', n ≤ u ∧ Boots inp (0, a) (u, a') ∧
        Follows a' (listens (fun τ => (inp τ).ui_in) (demoStart inp) n)) ∨
      ∃ m ≤ n, Ends inp (0, a) (listens (fun τ => (inp τ).ui_in) (demoStart inp) m).heard := by
  obtain ⟨a1, hb1, hpc1, hmem⟩ := selftest inp hpc
  rcases follows_run inp (t := demoStart inp) hpc1 (by rw [hmem, hmode]) n with
    ⟨a2, hb2, h2⟩ | ⟨m, hm, hends⟩
  · exact .inl ⟨_, a2, le_time _ _ n, hb1.trans hb2, h2⟩
  · exact .inr ⟨m, hm, hends.after hb1⟩

/-- If no more bytes are heard than have a place, the chip is confined up to the hand-over. -/
theorem confined_of_not_overruns (hs : Top.Run bootRom inp s) {s0 : Top} (h0 : s 0 = s0.reset)
    (hno : ¬ Overruns inp) (hrom : RomUntil s T) : ∀ τ < T, Confined (s τ) := by
  have hf0 : Top.AtFetch (s 0) := h0 ▸ Top.reset_atFetch s0
  refine confined_of_fetches hs h0 fun τ hτ hf => ?_
  rcases follows_reset inp (a := (s 0).arch) (by rw [h0]; rfl) (by rw [h0]; rfl) T with
    ⟨u, a', hu, hb, -⟩ | ⟨m, -, hends⟩
  · exact (Boots.fetches hs hf0 ⟨hf0.state, rfl⟩ hb).2 τ (Nat.zero_le τ) (by omega) hf
  · cases hends with
    | @run u a' _ _ hb hpc _ _ _ =>
      obtain ⟨hat, hfetch⟩ := Boots.fetches hs hf0 ⟨hf0.state, rfl⟩ hb
      -- the hand-over is not before cycle `T`
      have hTu : T ≤ u := by
        by_contra hlt
        have := hrom u (by omega) hat.state
        rw [show (s u).core.pc = 0xB4 from (congrArg (fun a : Arch => a.pc) hat.arch).trans hpc] at this
        exact absurd this (by decide)
      exact hfetch τ (Nat.zero_le τ) (by omega) hf
    | overrun _ _ _ hover => exact absurd ⟨m, hover⟩ hno

/-- The ROM overruns the load window if 46 data bytes are heard after a length byte of at least 46. -/
theorem overruns_strays (hs : Top.Run bootRom inp s) {s0 : Top} (h0 : s 0 = s0.reset) (hover : Overruns inp) :
    ∃ T, RomUntil s T ∧ ∃ τ < T, ¬ Confined (s τ) := by
  have hf0 : Top.AtFetch (s 0) := h0 ▸ Top.reset_atFetch s0
  obtain ⟨n, hlen, hfirst⟩ := hover
  rcases follows_reset inp (a := (s 0).arch) (by rw [h0]; rfl) (by rw [h0]; rfl) n with
    ⟨u, a', -, -, hfollows⟩ | ⟨m, hm, hends⟩
  · -- while the ROM follows, at most 45 data bytes were heard
    cases hl : listens (fun τ => (inp τ).ui_in) (demoStart inp) n with
    | demo t =>
      rw [hl] at hlen
      cases hlen
    | receiving heard x =>
      rw [hl] at hlen hfollows
      cases hfollows with
      | receiving _ _ hcalls _ =>
        cases heard with
        | nil => cases hlen
        | cons L bytes =>
          have hfew := hcalls.2.2.1
          simp only [Listener.heard, List.length_cons] at hlen
          omega
  · cases hends with
    | @run u a' L bytes _ _ hheard hall hfew =>
      -- the length byte is the one that is heard in the end
      obtain ⟨rest, hrest⟩ := heard_mono (fun τ => (inp τ).ui_in) (demoStart inp) hm
      rw [← hrest, hheard, List.cons_append, List.headD_cons] at hfirst
      omega
    | @overrun u a' hb hpc' h5' _ =>
      obtain ⟨hat, hfetch⟩ := Boots.fetches hs hf0 ⟨hf0.state, rfl⟩ hb
      have hpc : (s u).core.pc = 0x58 := (congrArg (fun a : Arch => a.pc) hat.arch).trans hpc'
      have h5 : (s u).arch.reg 5 = 0xE1 := by rw [hat.arch, h5']
      obtain ⟨n, hn, j, -, hj, hout⟩ := store_outside hs (Top.atFetch_of_state hs hf0 hat.state) hpc h5
      refine ⟨u + n, fun τ hτ hf => ?_, j, hj, hout⟩
      by_cases hlt : τ < u
      · obtain ⟨⟨k, hk, hpck⟩, -⟩ := hfetch τ (Nat.zero_le τ) hlt hf
        rw [hpck]
        exact (addr_inRom hk).1
      · by_cases heq : τ = u
        · rw [heq, hpc]
          decide
        · exact absurd hf (hn.not_fetch τ (by omega) hτ)

/-- From reset up to the hand-over the chip stays within the documented targets, for every waveform of the input pins
and of MISO in which no 46 data bytes are heard after a length byte of at least 46, and for no other. A host that
follows the protocol is heard as it sends: it overruns the load window if it announces more than 45 bytes and sends
46, and never if it announces at most 45. -/
theorem boot_rom_confined_iff (hs : Top.Run bootRom inp s) {s0 : Top} (h0 : s 0 = s0.reset) :
    ((∀ T, RomUntil s T → ∀ τ < T, Confined (s τ)) ↔ ¬ Overruns inp) ∧
      ∀ L bytes S rise fall, Sends (fun τ => (inp τ).ui_in) (L :: bytes) S rise fall →
        (L.toNat ≤ 45 → ¬ Overruns inp) ∧ (46 ≤ L.toNat → 46 ≤ bytes.length → Overruns inp) := by
  have hdemo : demoStart inp ≤ 220 := by
    have := demoStart_cases inp
    omega
  refine ⟨⟨fun hconf hover => ?_, fun hno T hrom => confined_of_not_overruns hs h0 hno hrom⟩,
    fun L bytes S rise fall hsends => ⟨fun hL ⟨n, hn⟩ => not_overrun hsends hdemo hL n hn,
      fun hL hlen => exists_overrun hsends hdemo hL hlen⟩⟩
  obtain ⟨T, hrom, τ, hτ, hout⟩ := overruns_strays hs h0 hover
  exact hout (hconf T hrom τ hτ)

/-- A host that sends as many data bytes as the ROM has targets for: the last one goes to the address of the
self-test. -/
theorem boot_rom_confined_iff_full :
    let msg : List (BitVec 8) := 45 :: List.replicate 45 0x13
    let s := Clocked.run (fun s (i : Inputs) => Top.step s bootRom i) (wave msg) powerUp.reset
    (∃ T, RomUntil s T ∧ (s T).core.state = .fetch ∧ (s T).core.pc = 0x58 ∧ (s T).arch.reg 5 = 0xE0) ∧
      ∀ T, RomUntil s T → ∀ τ < T, Confined (s τ) := by
  intro msg s
  let bytes : List (BitVec 8) := List.replicate 45 0x13
  have hs : Top.Run bootRom (wave msg) s := fun _ => rfl
  have hf0 : Top.AtFetch (s 0) := Top.reset_atFetch powerUp
  have hsends : Sends (fun τ => (wave msg τ).ui_in) (BitVec.ofNat 8 bytes.length :: bytes) 0 _ _ :=
    sends_wave msg
  obtain ⟨hiff, hhost⟩ := @boot_rom_confined_iff (wave msg) s hs powerUp rfl
  refine ⟨?_, hiff.mpr ((hhost _ _ _ _ _ hsends).1 (by decide))⟩
  obtain ⟨u1, a1, h1, h1', hb1, ha1⟩ := reset_to_byte (a := (s 0).arch) rfl rfl hsends (by decide) 44
    (by decide) (by decide)
  have hp := hsends.byte (k := 45) (by decide)
  obtain ⟨u2, a2, h2, h2', hb2, hpc2, -, ha2⟩ := receive_byte (t := u1) ha1 (by decide) (by decide) hp
    (by simp; omega) (by simp; omega)
  obtain ⟨hat, hfetch⟩ := Boots.fetches hs hf0 ⟨hf0.state, rfl⟩ (hb1.trans hb2)
  refine ⟨u2, fun τ hτ hf => ?_, hat.state, (congrArg (fun a : Arch => a.pc) hat.arch).trans hpc2, ?_⟩
  · obtain ⟨⟨k, hk, hpck⟩, -⟩ := hfetch τ (Nat.zero_le τ) hτ hf
    rw [hpck]
    exact (addr_inRom hk).1
  · rw [hat.arch]
    exact ha2.ptr

/-- A host that announces and sends 46 bytes makes the ROM store outside its targets. -/
theorem boot_rom_overflow :
    let msg : List (BitVec 8) := 46 :: List.replicate 46 0
    let s := Clocked.run (fun s (i : Inputs) => Top.step s bootRom i) (wave msg) powerUp.reset
    ∃ T, RomUntil s T ∧ ∃ τ < T, ¬ Confined (s τ) := by
  intro msg s
  have hdemo := demoStart_cases (wave msg)
  exact @overruns_strays (wave msg) s (fun _ => rfl) powerUp rfl
    (exists_overrun (sends_wave msg) (by omega) (by decide) (by decide))

end Boot

end Pineapple
