import Pineapple.Clocked.Trace
import Pineapple.Rtl.Bench
import Pineapple.Rtl.BootRom
import Pineapple.Rtl.Proofs.StallProofs
import Pineapple.Spi.Proofs.LinkProofs

/-!
# Proofs: the external windows are memories

One access of the bench's master is one stall of `mem.v` and, for an external address, one transaction
that both slaves see; `Quiet` holds between accesses, so a sequence of accesses follows by induction.
-/

namespace Pineapple

open Bits

/-- The request of `mem.v` always names one of the two devices. -/
theorem Mem.dev_req (m : Mem) (b : Bus) : (m.req b).dev = 1 ∨ (m.req b).dev = 2 := by
  show m.req_dev b.addr = 1 ∨ m.req_dev b.addr = 2
  unfold MemRegs.req_dev
  split
  · exact .inl rfl
  · exact .inr rfl

/-- The slave address of a request, from its address as a number. -/
theorem Req.slaveAddr_eq {r : Req} {n : Nat} (h : r.addr.toNat = n) :
    r.slaveAddr = BitVec.ofNat 14 n := by
  apply BitVec.eq_of_toNat_eq
  rw [slaveAddr, BitVec.extractLsb'_toNat, BitVec.toNat_ofNat, h, Nat.shiftRight_zero]

namespace MemBoard

/-- Between two accesses. -/
structure Quiet (x : MemBoard) : Prop where
  resting : x.mem.u_qspi.Resting
  pins : x.mem.u_qspi.PinInv
  flash : x.flash.Framed
  psram : x.psram.Framed

theorem reset_quiet (x : MemBoard) : x.reset.Quiet :=
  ⟨⟨rfl, rfl⟩, Qspi.reset_pinInv _, ⟨rfl, rfl, rfl⟩, ⟨rfl, rfl, rfl⟩⟩

/-- `x` runs on the given bus. -/
def Run (x : Nat → MemBoard) (bus : Nat → Bus) : Prop := ∀ t, x (t + 1) = (x t).step (bus t)

section Run

variable {x : Nat → MemBoard} {bus : Nat → Bus} {u k : Nat} {b : Bus}

theorem Run.mem (hx : Run x bus) :
    Mem.Run (fun t => (x t).mem) bus (fun t => (x t).miso_bus) :=
  fun t => congrArg MemBoard.mem (hx t)

theorem Run.flash (hx : Run x bus) :
    SpiRam.Follows (fun t => (x t).flash) (fun t => (x t).mem.u_qspi.pins 1) := by
  intro t
  show (x (t + 1)).flash = (x t).flash.step (x t).mem.u_qspi.pins0 (x (t + 1)).mem.u_qspi.pins0
  rw [hx t]
  rfl

theorem Run.psram (hx : Run x bus) :
    SpiRam.Follows (fun t => (x t).psram) (fun t => (x t).mem.u_qspi.pins 2) := by
  intro t
  show (x (t + 1)).psram = (x t).psram.step (x t).mem.u_qspi.pins1 (x (t + 1)).mem.u_qspi.pins1
  rw [hx t]
  rfl

theorem Run.pinInv (hx : Run x bus) (h : (x u).mem.u_qspi.PinInv) (n : Nat) :
    (x (u + n)).mem.u_qspi.PinInv := by
  induction n with
  | zero => exact h
  | succ n ih =>
    rw [← Nat.add_assoc, show (x (u + n + 1)).mem.u_qspi = _ from hx.mem.engine (u + n)]
    exact Qspi.step_pinInv ih (fun _ => Mem.dev_req _ _) _

/-- The engine's chip selects are high while it rests. -/
theorem Quiet.cs_n {y : MemBoard} (hrest : y.mem.u_qspi.Resting) (hpin : y.mem.u_qspi.PinInv) :
    (y.mem.u_qspi.pins 1).cs_n = true ∧ (y.mem.u_qspi.pins 2).cs_n = true := by
  unfold Qspi.PinInv at hpin
  rw [hrest.1] at hpin
  exact ⟨hpin.1, hpin.2.1⟩

/-- A clock edge without an accepted request leaves a quiet board quiet. -/
theorem step_unaccepted (hx : Run x bus) (hq : (x u).Quiet)
    (hrest : (x (u + 1)).mem.u_qspi.Resting) :
    (x (u + 1)).Quiet ∧ (x (u + 1)).flash.mem = (x u).flash.mem ∧
      (x (u + 1)).psram.mem = (x u).psram.mem := by
  have hpin := hx.pinInv hq.pins 1
  obtain ⟨h10, h20⟩ := Quiet.cs_n hq.resting hq.pins
  obtain ⟨h11, h21⟩ := Quiet.cs_n hrest hpin
  have hf := hx.flash.unselected (t := u) (n := 1) hq.flash fun j hj => by
    obtain rfl | rfl : j = 0 ∨ j = 1 := by omega
    · exact h10
    · exact h11
  have hp := hx.psram.unselected (t := u) (n := 1) hq.psram fun j hj => by
    obtain rfl | rfl : j = 0 ∨ j = 1 := by omega
    · exact h20
    · exact h21
  exact ⟨⟨hrest, hpin, hf.1, hp.1⟩, hf.2, hp.2⟩

/-- What a held access does, at the end of its stall. -/
structure Done (x : Nat → MemBoard) (b : Bus) (u k : Nat) : Prop where
  quiet : (x (u + k + 1)).Quiet
  windows : (x (u + k + 1)).windows = (x u).windows.after b
  rdata : b.we = false → ∀ bs, (x u).windows.read b = some bs →
    (x (u + k + 1)).mem.u_qspi.req_rdata = ofLE 32 bs

/-- An access that starts no transaction. -/
theorem done_internal (hx : Run x bus) (hq : (x u).Quiet)
    (hst : Mem.Stall (fun t => (x t).mem) bus (fun t => (x t).miso_bus) b (x u).mem.toMemRegs u 0)
    (hext : ¬ (x u).mem.External b.addr) : Done x b u 0 := by
  obtain ⟨h1, h2, h3⟩ := step_unaccepted hx hq hst.resting
  refine ⟨h1, ?_, fun _ bs hbs => ?_⟩
  · have hps : ¬ (b.we = true ∧ MemRegs.InPsram b.addr) := fun h => hext (.inl h.2)
    show Windows.mk _ _ _ = Windows.mk _ _ _
    rw [if_neg hps, h2, h3, show (x (u + 1)).mem.toMemRegs = _ from hst.after]
    rfl
  · have hp : ¬ MemRegs.InPsram b.addr := fun h => hext (.inl h)
    have hf : ¬ (x u).windows.regs.InFlash b.addr := fun h => hext (.inr h)
    rw [Windows.read, if_neg hp, if_neg hf] at hbs
    cases hbs

/-- The slave that MISO comes from in a transaction accepted in cycle `u`. -/
theorem miso_of_accepts (hx : Run x bus) {r : Req} (hr : (x u).mem.req (bus u) = r)
    (hacc : Qspi.Accepts (x u).mem.u_qspi r) (j : Nat) (h1 : u < j) (h2 : j < u + r.latency) :
    (r.dev = 1 → (x j).miso_bus = (x j).flash.miso) ∧
      (r.dev = 2 → (x j).miso_bus = (x j).psram.miso) := by
  have htr := Qspi.transaction_of_accepts (t := u) hx.mem.engine (hr.symm ▸ hacc)
  simp only [hr] at htr
  have h0 : (x j).mem.u_qspi.pin_cs0 = false ↔ _ := htr.cs0 j h1 (by omega)
  have h1 : (x j).mem.u_qspi.pin_cs1 = false ↔ _ := htr.cs1 j h1 (by omega)
  constructor
  · intro hd
    rw [miso_bus, h0.mpr ⟨hd, h2⟩]
    rfl
  · intro hd
    have hcs0 : (x j).mem.u_qspi.pin_cs0 = true := by
      rw [← Bool.not_eq_false, h0, hd]
      exact fun h => absurd h.1 (by decide)
    rw [miso_bus, hcs0, h1.mpr ⟨hd, h2⟩]
    rfl

/-- What a read samples. -/
theorem read_of_accepts (hx : Run x bus) (hq : (x u).Quiet) {r : Req}
    (hr : (x u).mem.req (bus u) = r) (hacc : Qspi.Accepts (x u).mem.u_qspi r) (hw : r.we = false) :
    (r.dev = 1 → sampledWord (fun t => (x t).miso_bus) u (nbytes r.size) =
      ofLE 32 (ByteMemory.load (x u).flash.mem r.slaveAddr (nbytes r.size))) ∧
    (r.dev = 2 → sampledWord (fun t => (x t).miso_bus) u (nbytes r.size) =
      ofLE 32 (ByteMemory.load (x u).psram.mem r.slaveAddr (nbytes r.size))) := by
  have hmiso := miso_of_accepts hx hr hacc
  constructor
  · intro hd
    exact Qspi.link_read (t := u) (d := 1) hx.mem.engine hr hacc hq.pins (.inl rfl) hd hx.flash hq.flash
      (fun j h1 h2 => (hmiso j h1 h2).1 hd) hw
  · intro hd
    exact Qspi.link_read (t := u) (d := 2) hx.mem.engine hr hacc hq.pins (.inr rfl) hd hx.psram hq.psram
      (fun j h1 h2 => (hmiso j h1 h2).2 hd) hw

/-- An access that starts a transaction. -/
theorem done_external (hx : Run x bus) (hq : (x u).Quiet) (hv : b.valid = true)
    (hst : Mem.Stall (fun t => (x t).mem) bus (fun t => (x t).miso_bus) b (x u).mem.toMemRegs u
      (2 * (32 + 8 * nbytes b.size) + 2))
    (hext : (x u).mem.External b.addr) : Done x b u (2 * (32 + 8 * nbytes b.size) + 2) := by
  have hb : bus u = b := hst.held 0 (Nat.zero_le _)
  have hacc : Qspi.Accepts (x u).mem.u_qspi ((x u).mem.req (bus u)) :=
    (hst.accepts 0 (Nat.zero_le _)).mpr ⟨rfl, hv, hext⟩
  have hasks := Mem.asks_req hv (((x u).mem.in_ext_iff _).mpr hext)
  rw [← hb] at hasks
  generalize hr : (x u).mem.req (bus u) = r at hacc hasks
  have hlat : r.latency = 2 * (32 + 8 * nbytes b.size) + 2 := by
    simp only [Req.latency, Req.nbits, hasks.size, hb]
  have hflash := Qspi.link_after (t := u) (d := 1) hx.mem.engine hr hacc hq.pins (.inl rfl)
    hx.flash hq.flash
  have hpsram := Qspi.link_after (t := u) (d := 2) hx.mem.engine hr hacc hq.pins (.inr rfl)
    hx.psram hq.psram
  have hread := read_of_accepts hx hq hr hacc
  rw [hlat] at hflash hpsram
  rw [hb] at hasks
  -- the device of the request is the window of the address
  have hdev : (MemRegs.InPsram b.addr ∧ r.dev = 2 ∧ r.addr.toNat = b.addr.toNat - 0xE0 ∧ r.we = b.we) ∨
      (¬ MemRegs.InPsram b.addr ∧ (x u).mem.InFlash b.addr ∧ r.dev = 1 ∧
        r.addr.toNat = (x u).mem.flash_page.toNat * 44 + (b.addr.toNat - 0xB4) ∧ r.we = false) := by
    rcases hext with h | h
    · exact .inl ⟨h, hasks.psram h.1⟩
    · have hlt : b.addr.toNat < 0xE0 := Nat.lt_succ_of_le h.2.2
      exact .inr ⟨fun hp => by unfold MemRegs.InPsram at hp; omega, h, hasks.flash hlt⟩
  refine ⟨⟨hst.resting, hx.pinInv hq.pins (_ + 1), hflash.1, hpsram.1⟩, ?_, fun hwe bs hbs => ?_⟩
  · have hbyte : r.byte = fun k => b.wdata.extractLsb' (8 * k) 8 := by
      funext k
      rw [Req.byte, hasks.wdata]
    have hregs : (x (u + (2 * (32 + 8 * nbytes b.size) + 2) + 1)).mem.toMemRegs =
        (x u).mem.afterBus b := hst.after
    have hne1 : ¬ (2 : BitVec 2) = 1 := by decide
    have hne2 : ¬ (1 : BitVec 2) = 2 := by decide
    have hfl : (x (u + (2 * (32 + 8 * nbytes b.size) + 2) + 1)).flash.mem = (x u).flash.mem := by
      rw [hflash.2]
      rcases hdev with ⟨-, hd, -, -⟩ | ⟨-, -, -, -, hw⟩
      · rw [hd, if_neg fun h => hne1 h.1]
      · rw [hw, if_neg fun h => Bool.false_ne_true h.2]
    have hps : (x (u + (2 * (32 + 8 * nbytes b.size) + 2) + 1)).psram.mem =
        ((x u).windows.after b).psram := by
      rw [hpsram.2]
      rcases hdev with ⟨hp, hd, ha, hw⟩ | ⟨hp, -, hd, -, -⟩
      · rw [hw, hbyte, hasks.size, Req.slaveAddr_eq ha]
        simp only [Windows.after, hd, hp, and_true, true_and]
        rfl
      · rw [hd, if_neg fun h => hne2 h.1]
        simp only [Windows.after, hp, and_false, ↓reduceIte]
        rfl
    show Windows.mk _ _ _ = Windows.mk _ _ _
    rw [hregs, hfl, hps]
    rfl
  · rw [hst.rdata hv hext]
    rcases hdev with ⟨hp, hd, ha, hw⟩ | ⟨hp, hf, hd, ha, hw⟩
    · rw [Windows.read, if_pos hp] at hbs
      rw [← Option.some.inj hbs, ← hasks.size, (hread (hw.trans hwe)).2 hd, Req.slaveAddr_eq ha]
      rfl
    · rw [Windows.read, if_neg hp, if_pos (show (x u).windows.regs.InFlash b.addr from hf)] at hbs
      rw [← Option.some.inj hbs, ← hasks.size, (hread hw).1 hd, Req.slaveAddr_eq ha]
      rfl

/-- A held access, whatever its address. -/
theorem done_of_holds (hx : Run x bus) (hq : (x u).Quiet) (hv : b.valid = true)
    (hb : Mem.Holds (fun t => (x t).mem) bus b u) :
    ∃ k ≤ 130, Mem.Stall (fun t => (x t).mem) bus (fun t => (x t).miso_bus) b (x u).mem.toMemRegs u k ∧
      Done x b u k := by
  have h4 := nbytes_le b.size
  have hst := Mem.run_stall hx.mem hb rfl hq.resting
  rw [hv, if_pos rfl, MemRegs.stall] at hst
  by_cases hext : (x u).mem.External b.addr
  · rw [if_pos hext] at hst
    exact ⟨_, by omega, hst, done_external hx hq hv hst hext⟩
  · rw [if_neg hext] at hst
    exact ⟨0, by omega, hst, done_internal hx hq hst hext⟩

/-- Cycles without an access change nothing. -/
theorem idle_quiet {y : MemBoard} (hq : y.Quiet) (n : Nat) :
    (y.idle n b.drop).Quiet ∧ (y.idle n b.drop).windows = y.windows := by
  induction n generalizing y with
  | zero => exact ⟨hq, rfl⟩
  | succ n ih =>
    have hx : Run (Clocked.run step (fun _ => b.drop) y) fun _ => b.drop := fun _ => rfl
    obtain ⟨h1, h2, -⟩ := Mem.run_quiet (u := 0) hx.mem rfl rfl hq.resting
    obtain ⟨h3, h4, h5⟩ := step_unaccepted (u := 0) hx hq h2
    obtain ⟨h6, h7⟩ := ih h3
    refine ⟨h6, h7.trans ?_⟩
    show Windows.mk _ _ _ = Windows.mk _ _ _
    rw [show _ = (Clocked.run step (fun _ => b.drop) y 0).mem.toMemRegs from h1, h4, h5]
    rfl

end Run

/-! ## Sequences of accesses -/

section Accesses

variable (fuel : Nat) (rom : Rom) (gpio_in : BitVec 8)

theorem waitReady_eq (x : MemBoard) (b : Bus) (k : Nat) (hk : k < fuel)
    (hlow : ∀ j < k, (Clocked.run step (fun _ => b) x j).mem.ready b = false)
    (hready : (Clocked.run step (fun _ => b) x k).mem.ready b = true) :
    waitReady fuel x b = some (Clocked.run step (fun _ => b) x (k + 1)) := by
  induction k generalizing fuel x with
  | zero =>
    obtain ⟨fuel, rfl⟩ := Nat.exists_eq_succ_of_ne_zero (Nat.ne_of_gt hk)
    exact if_pos hready
  | succ k ih =>
    obtain ⟨fuel, rfl⟩ := Nat.exists_eq_succ_of_ne_zero (Nat.ne_of_gt (Nat.zero_lt_of_lt hk))
    rw [Clocked.run_succ] at hready ⊢
    have hrest := ih fuel (x.step b) (by omega) (fun j hj => by
      have := hlow (j + 1) (by omega)
      rwa [Clocked.run_succ] at this) hready
    rw [← hrest, waitReady, if_neg]
    rw [show x.mem.ready b = false from hlow 0 (by omega)]
    exact Bool.false_ne_true

/-- An external address is in one of the two windows. -/
theorem external_of_read {σ : Windows} {b : Bus} {bs : List (BitVec 8)} (h : σ.read b = some bs) :
    σ.regs.External b.addr := by
  unfold Windows.read at h
  split at h
  · exact .inl ‹_›
  · split at h
    · exact .inr ‹_›
    · cases h

/-- A PSRAM read of the bytes stored last. -/
theorem read_after_store (σ : Windows) {b b' : Bus} (hwe : b.we = true) (hp : MemRegs.InPsram b.addr)
    (ha : b'.addr = b.addr) (hs : b'.size = b.size) :
    (σ.after b).read b' = some (toLE b.wdata (nbytes b.size)) := by
  have h4 := nbytes_le b.size
  rw [Windows.read, ha, hs, if_pos hp, Windows.after, if_pos ⟨hwe, hp⟩]
  rw [ByteMemory.load_store _ _ _ _ (by omega), toLE]

/-- One access. -/
theorem access_spec {x : MemBoard} (hq : x.Quiet) (hfuel : 130 < fuel) (b : Bus) (gap : Nat) :
    ∃ v y, access fuel rom gpio_in x b gap = some (v, y) ∧ y.Quiet ∧ y.windows = x.windows.after b ∧
      (b.we = false → ∀ bs, x.windows.read b = some bs → v = ofLE 32 bs) := by
  have hx : Run (Clocked.run step (fun _ => b.hold) x) fun _ => b.hold := fun _ => rfl
  obtain ⟨k, hk, hst, hdone⟩ := done_of_holds (u := 0) hx hq (b := b.hold) rfl fun _ _ => rfl
  have hwait := waitReady_eq fuel x b.hold k (by omega)
    (fun j hj => by simpa using hst.low j hj) (by simpa using hst.ready)
  have hquiet := hdone.quiet
  have hwin := hdone.windows
  have hrd := hdone.rdata
  rw [Nat.zero_add] at hquiet hwin hrd
  obtain ⟨hq', hw'⟩ := idle_quiet (b := b) hquiet (gap + 1)
  rw [access, hwait]
  refine ⟨_, _, rfl, hq', hw'.trans hwin, fun hwe bs hbs => ?_⟩
  have hregs : (Clocked.run step (fun _ => b.hold) x (k + 1)).mem.toMemRegs = x.mem.toMemRegs := by
    have : _ = x.windows.regs.afterBus b.hold := congrArg Windows.regs hwin
    rw [MemRegs.afterBus, show b.hold.we = false from hwe] at this
    exact this
  have hext : x.mem.External b.addr := external_of_read hbs
  rw [Mem.rdata, hregs, show b.drop.addr = b.addr from rfl,
    MemRegs.rdata_of_external _ _ _ _ _ hext]
  exact hrd hwe bs hbs

/-- The windows behave as memories for every sequence of accesses, with any gaps, from every state between
two accesses: the sequence completes, the flash keeps its contents, the PSRAM holds the bytes most recently
stored, and every read of an external address returns the bytes its window holds at that moment. -/
theorem external_windows_are_memories {x : MemBoard} (hq : x.Quiet) (hfuel : 130 < fuel)
    (bs : List (Bus × Nat)) :
    ∃ vs y, accesses fuel rom gpio_in x bs = some (vs, y) ∧ y.Quiet ∧
      y.windows = x.windows.afterAll (bs.map Prod.fst) ∧ y.flash.mem = x.flash.mem ∧
      vs.length = bs.length ∧
      ∀ i (h : i < bs.length) (h' : i < vs.length), bs[i].1.we = false →
        ∀ bytes, (x.windows.afterAll ((bs.take i).map Prod.fst)).read bs[i].1 = some bytes →
          vs[i] = ofLE 32 bytes := by
  induction bs generalizing x with
  | nil => exact ⟨[], x, rfl, hq, rfl, rfl, rfl, fun i h => absurd h (Nat.not_lt_zero i)⟩
  | cons a bs ih =>
    obtain ⟨b, gap⟩ := a
    obtain ⟨v, y, hacc, hqy, hwin, hrd⟩ := access_spec fuel rom gpio_in hq hfuel b gap
    obtain ⟨vs, z, haccs, hqz, hwinz, hflash, hlen, hrds⟩ := ih hqy
    have hall : ∀ l, y.windows.afterAll l = x.windows.afterAll (b :: l) := by
      intro l
      rw [hwin]
      rfl
    refine ⟨v :: vs, z, by simp only [accesses, hacc, haccs], hqz, hwinz.trans (hall _),
      hflash.trans (congrArg Windows.flash hwin), by simp only [List.length_cons, hlen], ?_⟩
    intro i h h' hwe bytes hbytes
    cases i with
    | zero => exact hrd hwe bytes hbytes
    | succ i => exact hrds i (by simpa using h) (by simpa using h') hwe bytes (by rw [hall]; exact hbytes)

/-- A word stored at 0xE0 after a reset and read back. -/
theorem external_windows_are_memories_word :
    let q : Qspi := ⟨.idle, 0, 0, 0, 0, 0, false, true, true, false, true⟩
    let ram : SpiRam := ⟨fun _ => 0, 0, .cmd, 0, 0, false, 0, 0, false⟩
    let x : MemBoard := reset ⟨⟨⟨fun _ => 0, false, 0, 0⟩, q⟩, ram, ram⟩
    ∃ vs y, accesses 131 bootRom 0 x
      [(⟨0xE0, 0xCAFEBABE, 2, true, true⟩, 0), (⟨0xE0, 0, 2, false, true⟩, 3)] = some (vs, y) ∧
      vs[1]? = some 0xCAFEBABE := by
  intro q ram x
  obtain ⟨vs, y, h, -, -, -, hlen, hv⟩ := external_windows_are_memories 131 bootRom 0
    (reset_quiet ⟨⟨⟨fun _ => 0, false, 0, 0⟩, q⟩, ram, ram⟩) (by decide)
    [(⟨0xE0, 0xCAFEBABE, 2, true, true⟩, 0), (⟨0xE0, 0, 2, false, true⟩, 3)]
  have hlt : 1 < vs.length := by rw [hlen]; decide
  refine ⟨vs, y, h, ?_⟩
  rw [List.getElem?_eq_getElem hlt, hv 1 (by decide) hlt rfl _
    (read_after_store _ rfl (by decide) rfl rfl)]
  rfl

end Accesses

end MemBoard

end Pineapple
