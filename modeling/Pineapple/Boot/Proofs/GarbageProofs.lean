import Pineapple.Boot.Contract
import Pineapple.Boot.Proofs.HandoverProofs
import Pineapple.Rtl.Proofs.AgreementProofs

/-!
# Proofs: what the boot phase depends on

Nothing that reset does not initialise reaches a pin, the bus or a branch while the ROM runs, and neither do the input
pins above START. `points` says which registers the ROM has written at each of its words; RECV_BYTE has its words
twice, once for each of its callers.
-/

namespace Pineapple

namespace Boot

/-- Registers that agree in all their bits. -/
def full (rs : List (BitVec 5)) : List (BitVec 5 × Nat) := rs.map fun r => (r, 32)

/-- RECV_BYTE, called from the word before `ret` by a caller that has written `outer`. A word of the input port is
masked with CLOCK or DATA before anything else is done with it. -/
def recvPoints (ret : BitVec 8) (outer : List (BitVec 5)) : List Point :=
  [⟨108, some ret, full ([1] ++ outer)⟩, ⟨112, some ret, full ([1, 6] ++ outer)⟩,
   ⟨116, some ret, full ([1, 6, 7] ++ outer)⟩, ⟨120, some ret, (2, 3) :: full ([1, 6, 7] ++ outer)⟩,
   ⟨124, some ret, full ([1, 2, 6, 7] ++ outer)⟩, ⟨128, some ret, full ([1, 6, 7] ++ outer)⟩,
   ⟨132, some ret, (2, 3) :: full ([1, 6, 7] ++ outer)⟩, ⟨136, some ret, full ([1, 2, 6, 7] ++ outer)⟩,
   ⟨140, some ret, full ([1, 2, 6, 7] ++ outer)⟩, ⟨144, some ret, full ([1, 6, 7] ++ outer)⟩,
   ⟨148, some ret, full ([1, 6, 7] ++ outer)⟩, ⟨152, some ret, (2, 3) :: full ([1, 6, 7] ++ outer)⟩,
   ⟨156, some ret, full ([1, 2, 6, 7] ++ outer)⟩, ⟨160, some ret, full ([1, 6, 7] ++ outer)⟩,
   ⟨164, some ret, full ([1, 6, 7] ++ outer)⟩, ⟨168, some ret, full ([1, 3, 6, 7] ++ outer)⟩,
   ⟨172, some ret, full ([6] ++ outer)⟩]

def points : List Point :=
  [⟨0, none, []⟩, ⟨4, none, full [2]⟩, ⟨8, none, full [2]⟩, ⟨12, none, full [2, 6]⟩, ⟨16, none, []⟩,
   ⟨20, none, full [8]⟩, ⟨24, none, full [8]⟩, ⟨28, none, []⟩, ⟨32, none, full [8]⟩, ⟨36, none, full [8, 9]⟩,
   ⟨40, none, (2, 3) :: full [8, 9]⟩, ⟨44, none, full [2, 8, 9]⟩, ⟨48, none, full [8, 9]⟩, ⟨52, none, full [8, 9]⟩,
   ⟨56, none, full [8, 9]⟩, ⟨60, none, full [2, 8, 9]⟩, ⟨64, none, full [8, 9]⟩, ⟨68, none, []⟩, ⟨72, none, full [6]⟩,
   ⟨76, none, full [4]⟩, ⟨80, none, full [4, 5]⟩, ⟨84, none, full [4, 5]⟩, ⟨88, none, full [4, 5, 6]⟩,
   ⟨92, none, full [4, 5]⟩, ⟨96, none, full [4, 5]⟩, ⟨100, none, full [4, 5]⟩, ⟨104, none, []⟩] ++
  recvPoints 72 [] ++ recvPoints 88 [4, 5]

theorem points_check : ∀ p ∈ points, p.Checks 3 bootRom points := by decide +kernel

/-- Two boots that get the same MISO and the same DATA, CLOCK and START do the same in every cycle up to the first
fetch from outside the ROM, whatever was in the two chips before their resets, and whatever the other input pins do. -/
theorem boot_ignores_garbage {s s' : Nat → Top} {inp inp' : Nat → Inputs} {s0 s0' : Top}
    (hs : Top.Run bootRom inp s) (hs' : Top.Run bootRom inp' s') (h0 : s 0 = s0.reset) (h0' : s' 0 = s0'.reset)
    (hin : ∀ t, (inp t).Agrees 3 (inp' t)) {T : Nat} (hrom : RomUntil s T) :
    RomUntil s' T ∧ ∀ t ≤ T, Top.SameView (s t) (s' t) := by
  have hlow : Top.Low bootRom points (s 0) (s' 0) := by
    rw [h0, h0']
    exact Top.low_reset s0 s0' (p := ⟨0, none, []⟩) (by simp [points]) rfl rfl rfl
  have hview : ∀ t ≤ T, Top.SameView (s t) (s' t) := by
    intro t ht
    refine (Top.Run.low hs hs' points_check hin hlow fun τ hτ hf => ?_).view
    exact (in_rom_iff _).mpr (hrom τ (by omega) hf)
  refine ⟨fun τ hτ hf => ?_, hview⟩
  have hv := hview τ hτ.le
  rw [← hv.pc]
  exact hrom τ hτ (hv.core_state.trans hf)

/-- A chip whose pins are all low, and one with other registers, another RAM and all other input pins high. -/
theorem boot_ignores_garbage_demo :
    let old : Top := { powerUp with
      core := { powerUp.core with regs := fun r => r.setWidth 32, alu_result := 7, next_pc := 9 }
      mem := { powerUp.mem with
        ram_words := fun i => i.setWidth 32
        u_qspi := { powerUp.mem.u_qspi with bits_done := 3 } } }
    let s := Clocked.run (fun s (i : Inputs) => Top.step s bootRom i) (fun _ => ⟨0, false⟩) powerUp.reset
    let s' := Clocked.run (fun s (i : Inputs) => Top.step s bootRom i) (fun _ => ⟨0xF8, false⟩) old.reset
    ∃ T, 0 < T ∧ RomUntil s' T ∧ ∀ t ≤ T, Top.SameView (s t) (s' t) := by
  intro old s s'
  have hs : Top.Run bootRom (fun _ => ⟨0, false⟩) s := fun _ => rfl
  have hs' : Top.Run bootRom (fun _ => ⟨0xF8, false⟩) s' := fun _ => rfl
  have hin : ∀ t : Nat, (⟨0, false⟩ : Inputs).Agrees 3 ⟨0xF8, false⟩ := fun _ => ⟨rfl, by decide⟩
  obtain ⟨a, hb, -, -⟩ := selftest (fun _ => ⟨0, false⟩) (a := (s 0).arch) rfl
  obtain ⟨-, hfetch⟩ := Boots.fetches hs (Top.reset_atFetch powerUp) ⟨rfl, rfl⟩ hb
  have hpos := demoStart_cases fun _ => ⟨0, false⟩
  refine ⟨demoStart fun _ => ⟨0, false⟩, by omega,
    @boot_ignores_garbage s s' _ _ powerUp old hs hs' rfl rfl hin _ fun τ hτ hf => ?_⟩
  obtain ⟨⟨k, hk, hpck⟩, -⟩ := hfetch τ (Nat.zero_le τ) hτ hf
  rw [hpck]
  exact (addr_inRom hk).1

end Boot

end Pineapple
