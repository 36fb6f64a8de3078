import Pineapple.Machine.Flash
import Pineapple.Machine.Proofs.EnvProofs
import Pineapple.Rtl.Proofs.BenchProofs

/-!
# Proofs: the chip executes what the flash holds

The flash is idle between two transactions, and a transaction leaves it idle again with the same contents. So
the words of an instruction fetched from the load window are those of the flash.
-/

namespace Pineapple

open Bits
open Rv32i (Instr Word)

/-- The flash environment has an instruction only behind the load window. -/
theorem Env.flash_instr {flash : ByteMemory 14} {rom : Rom} {inp : Nat → Inputs} {t : Nat} {a : Arch}
    {i : Instr} (h : (Env.flash flash rom inp).instr t a = some i) :
    a.mem.InFlash a.pc ∧ Rv32i.decode (flashWord flash a.mem a.pc) = some i := by
  by_cases hf : a.mem.InFlash a.pc
  · exact ⟨hf, (if_pos hf).symm.trans h⟩
  · exact absurd ((if_neg hf).symm.trans h) (by simp)

namespace Board

/-- Between two transactions. -/
structure Quiet (b : Board) : Prop where
  resting : b.top.eng.Resting
  pins : b.top.eng.PinInv
  flash : b.flash.Framed

theorem Ready.atFetch {b : Board} (h : b.Ready) : b.top.AtFetch := ⟨h.state, h.bus, h.engine⟩

theorem Ready.quiet {b : Board} (h : b.Ready) : b.Quiet := by
  refine ⟨h.engine, ?_, h.flash⟩
  unfold Qspi.PinInv
  rw [h.engine.1]
  exact h.pins

theorem ready_of_quiet {b : Board} (hf : b.top.AtFetch) (hq : b.Quiet) : b.Ready := by
  refine ⟨hf.state, hf.quiet, hf.resting, ?_, hq.flash⟩
  have h := hq.pins
  unfold Qspi.PinInv at h
  rw [hq.resting.1] at h
  exact h

theorem reset_ready (b : Board) : b.reset.Ready :=
  ⟨rfl, ⟨rfl, rfl⟩, ⟨rfl, rfl⟩, ⟨rfl, rfl, rfl⟩, ⟨rfl, rfl, rfl⟩⟩

section Run

variable {rom : Rom} {ui_in : Nat → BitVec 8} {other : Nat → Bool} {b : Nat → Board} {u : Nat}

theorem Run.top (hb : Run rom ui_in other b) : Top.Run rom (inputs ui_in other b) (tops b) :=
  fun t => congrArg Board.top (hb t)

theorem Run.flash (hb : Run rom ui_in other b) :
    SpiRam.Follows (fun t => (b t).flash) (fun t => (b t).top.eng.pins 1) := by
  intro t
  show (b (t + 1)).flash = (b t).flash.step (b t).top.mem.u_qspi.pins0 (b (t + 1)).top.mem.u_qspi.pins0
  rw [hb t]
  rfl

theorem Run.pinInv (hb : Run rom ui_in other b) (h : (b u).top.eng.PinInv) (n : Nat) :
    (b (u + n)).top.eng.PinInv := by
  induction n with
  | zero => exact h
  | succ n ih =>
    rw [← Nat.add_assoc, show (b (u + n + 1)).top.eng = _ from hb.top.mem.engine (u + n)]
    exact Qspi.step_pinInv ih (fun _ => Mem.dev_req _ _) _

theorem Quiet.cs_n {b : Board} (h : b.Quiet) : (b.top.eng.pins 1).cs_n = true := by
  have hp := h.pins
  unfold Qspi.PinInv at hp
  rw [h.resting.1] at hp
  exact hp.1

/-- A clock edge without an accepted request. -/
theorem step_unaccepted (hb : Run rom ui_in other b) (hq : (b u).Quiet)
    (hno : ¬ Qspi.Accepts (b u).top.eng (b u).top.req) :
    (b (u + 1)).Quiet ∧ (b (u + 1)).flash.mem = (b u).flash.mem := by
  have hv : (b u).top.req.valid = false := by
    rw [← Bool.not_eq_true]
    exact fun h => hno ⟨hq.resting.1, h⟩
  have hrest : (b (u + 1)).top.eng.Resting := by
    rw [show (b (u + 1)).top.eng = _ from hb.top.mem.engine u]
    exact hq.resting.step hv _
  have hpin := hb.pinInv hq.pins 1
  have hcs : ((b (u + 1)).top.eng.pins 1).cs_n = true := by
    unfold Qspi.PinInv at hpin
    rw [hrest.1] at hpin
    exact hpin.1
  have hf := hb.flash.unselected (t := u) (n := 1) hq.flash fun j hj => by
    obtain rfl | rfl : j = 0 ∨ j = 1 := by omega
    · exact hq.cs_n
    · exact hcs
  exact ⟨⟨hrest, hpin, hf.1⟩, hf.2⟩

/-- Clock edges without an accepted request. -/
theorem steps_unaccepted (hb : Run rom ui_in other b) (hq : (b u).Quiet) (n : Nat)
    (hno : ∀ j < n, ¬ Qspi.Accepts (b (u + j)).top.eng (b (u + j)).top.req) :
    (b (u + n)).Quiet ∧ (b (u + n)).flash.mem = (b u).flash.mem := by
  induction n with
  | zero => exact ⟨hq, rfl⟩
  | succ n ih =>
    obtain ⟨h1, h2⟩ := ih fun j hj => hno j (by omega)
    obtain ⟨h3, h4⟩ := step_unaccepted hb h1 (hno n (by omega))
    exact ⟨h3, h4.trans h2⟩

/-- A request for the flash is a read. -/
theorem we_of_flash {s : Top} (h : s.req.dev = 1) : s.req.we = false := by
  have hdev : s.mem.req_dev s.bus.addr = 1 := h
  unfold MemRegs.req_dev at hdev
  show (s.bus.we && !s.mem.in_ext_flash s.bus.addr) = false
  split at hdev
  · rename_i hf
    rw [hf, Bool.not_true, Bool.and_false]
  · exact absurd hdev (by decide)

/-- A whole transaction: the flash is left as it was, and a read of it samples its bytes. -/
theorem transaction (hb : Run rom ui_in other b) (hq : (b u).Quiet) {r : Req}
    (hr : (b u).top.req = r) (ha : Qspi.Accepts (b u).top.eng r)
    (hrest : (b (u + r.latency + 1)).top.eng.Resting) :
    (b (u + r.latency + 1)).Quiet ∧ (b (u + r.latency + 1)).flash.mem = (b u).flash.mem ∧
      (r.dev = 1 → sampledWord (fun t => (b t).miso_bus (other t)) u (nbytes r.size) =
        ofLE 32 (ByteMemory.load (b u).flash.mem r.slaveAddr (nbytes r.size))) := by
  have hwe : r.dev = 1 → r.we = false := fun h => hr ▸ we_of_flash (hr.symm ▸ h)
  have hafter := Qspi.link_after (t := u) (d := 1) hb.top.mem.engine hr ha hq.pins (.inl rfl) hb.flash hq.flash
  refine ⟨⟨hrest, hb.pinInv hq.pins (r.latency + 1), hafter.1⟩, ?_, fun hd => ?_⟩
  · rw [hafter.2, if_neg]
    rintro ⟨h1, h2⟩
    rw [hwe h1] at h2
    cases h2
  · have hr' : (tops b u).mem.req (tops b u).bus = r := hr
    have htr := Qspi.transaction_of_accepts (t := u) hb.top.mem.engine (hr'.symm ▸ ha)
    rw [hr'] at htr
    refine Qspi.link_read (t := u) (d := 1) hb.top.mem.engine hr ha hq.pins (.inl rfl) hd hb.flash hq.flash
      (fun j h1 h2 => ?_) (hwe hd)
    have hlow : (b j).top.mem.u_qspi.pin_cs0 = false := (htr.cs0 j h1 (by omega)).mpr ⟨hd, h2⟩
    show (b j).miso_bus (other j) = (b j).flash.miso
    rw [miso_bus, hlow]
    rfl

/-- A held access, with the bus of the core state `c`. -/
theorem stall_quiet (hb : Run rom ui_in other b) (hq : (b u).Quiet) {c : Core} {r : MemRegs} {k : Nat}
    (hst : Top.Stall (inputs ui_in other b) (tops b) c r u k) :
    (b (u + k + 1)).Quiet ∧ (b (u + k + 1)).flash.mem = (b u).flash.mem ∧
      (c.mem_valid = true → r.InFlash c.mem_addr →
        sampledWord (fun t => (b t).miso_bus (other t)) u (nbytes c.mem_size) =
          ofLE 32 (ByteMemory.load (b u).flash.mem
            (BitVec.ofNat 14 (r.flash_page.toNat * 44 + (c.mem_addr.toNat - 0xB4))) (nbytes c.mem_size))) := by
  by_cases hext : c.mem_valid = true ∧ r.External c.mem_addr
  · have hbus : (b u).top.bus = c.bus := hst.held 0 (Nat.zero_le _)
    have hregs : (b u).top.mem.toMemRegs = r := hst.regs 0 (Nat.zero_le _)
    have hacc : Qspi.Accepts (b u).top.eng (b u).top.req := (hst.accepts 0 (Nat.zero_le _)).mpr ⟨rfl, hext⟩
    have hk : k = (b u).top.req.latency := by
      rw [hst.length hext.1 hext.2, Req.latency, Req.nbits, show (b u).top.req.size = c.bus.size by
        rw [← hbus]; rfl]
    have hrest := hst.resting
    rw [hk] at hrest ⊢
    obtain ⟨h1, h2, h3⟩ := transaction hb hq rfl hacc hrest
    refine ⟨h1, h2, fun hv hf => ?_⟩
    have hasks : (b u).top.mem.Asks c.bus (b u).top.req := by
      have := Mem.asks_req (m := (b u).top.mem) (b := c.bus) hext.1
        (by rw [hregs, MemRegs.in_ext_iff]; exact hext.2)
      rwa [show (b u).top.req = (b u).top.mem.req c.bus by rw [← hbus]; rfl]
    obtain ⟨hd, ha, -⟩ := hasks.flash (show c.mem_addr.toNat < 0xE0 from Nat.lt_succ_of_le hf.2.2)
    have hs : (b u).top.req.size = c.mem_size := hasks.size
    rw [hregs] at ha
    rw [← hs, h3 hd, Req.slaveAddr_eq ha]
    rfl
  · have hno : ∀ j < k + 1, ¬ Qspi.Accepts (b (u + j)).top.eng (b (u + j)).top.req := fun j hj ha =>
      hext ((hst.accepts j (by omega)).mp ha).2
    obtain ⟨h1, h2⟩ := steps_unaccepted hb hq (k + 1) hno
    exact ⟨h1, h2, fun hv hf => absurd ⟨hv, .inr hf⟩ hext⟩

/-- An instruction leaves the flash as it was, and its word is that of the flash. -/
theorem instruction_quiet (hb : Run rom ui_in other b) {t m k : Nat} {w : Word} (hr : (b t).Ready)
    (hi : Top.Instruction rom (inputs ui_in other b) (tops b) t w m k) :
    (b (t + m + k + 7)).Ready ∧ (b (t + m + k + 7)).flash.mem = (b t).flash.mem ∧
      ((b t).top.mem.InFlash (b t).top.core.pc →
        sampledWord (fun t => (b t).miso_bus (other t)) (t + 1) 4 =
          flashWord (b t).flash.mem (b t).top.mem.toMemRegs (b t).top.core.pc) := by
  have hno : ∀ j, t ≤ j → j < t + m + k + 7 → j ≠ t + 1 → j ≠ t + m + 5 →
      ¬ Qspi.Accepts (b j).top.eng (b j).top.req := by
    intro j h1 h2 h3 h4 ha
    rcases (hi.accepts j h1 h2).mp ha with ⟨h, -⟩ | ⟨h, -⟩
    · exact h3 h
    · exact h4 h
  obtain ⟨hq1, hm1⟩ := step_unaccepted hb hr.quiet (hno t le_rfl (by omega) (by omega) (by omega))
  obtain ⟨hq2, hm2, hfetch⟩ := stall_quiet hb hq1 hi.fetch
  obtain ⟨hq3, hm3⟩ := steps_unaccepted hb hq2 3 fun j hj => hno _ (by omega) (by omega) (by omega) (by omega)
  rw [show t + 1 + m + 1 + 3 = t + m + 5 by omega] at hq3 hm3
  obtain ⟨hq4, hm4, -⟩ := stall_quiet hb hq3 hi.access
  rw [show t + m + 5 + k + 1 = t + m + k + 6 by omega] at hq4 hm4
  obtain ⟨hq5, hm5⟩ := step_unaccepted hb hq4 (hno _ (by omega) (by omega) (by omega) (by omega))
  refine ⟨ready_of_quiet hi.atFetch hq5, ?_, fun hf => ?_⟩
  · rw [show t + m + k + 7 = t + m + k + 6 + 1 by omega, hm5, hm4, hm3, hm2, hm1]
  · rw [← hm1]
    exact hfetch rfl hf

/-- Every cycle of a run belongs to an instruction that starts with the flash as it was at first. -/
theorem exists_ready (hb : Run rom ui_in other b) (h0 : (b 0).Ready) (τ : Nat) :
    ∃ t w m k, t ≤ τ ∧ τ < t + m + k + 7 ∧ (b t).Ready ∧ (b t).flash.mem = (b 0).flash.mem ∧
      Top.Instruction rom (inputs ui_in other b) (tops b) t w m k := by
  induction τ with
  | zero => exact ⟨0, _, _, _, le_rfl, by omega, h0, rfl, Top.run_instruction hb.top h0.atFetch⟩
  | succ τ ih =>
    obtain ⟨t, w, m, k, h1, h2, hr, hm, hi⟩ := ih
    by_cases hτ : τ + 1 < t + m + k + 7
    · exact ⟨t, w, m, k, by omega, hτ, hr, hm, hi⟩
    · obtain ⟨hr', hm', -⟩ := instruction_quiet hb hr hi
      rw [show t + m + k + 7 = τ + 1 by omega] at hr' hm'
      exact ⟨τ + 1, _, _, _, le_rfl, by omega, hr', hm'.trans hm, Top.run_instruction hb.top hr'.atFetch⟩

/-- In `ST_FETCH` the board is between two instructions. -/
theorem ready_of_state (hb : Run rom ui_in other b) (h0 : (b 0).Ready) {τ : Nat}
    (hτ : (b τ).top.core.state = .fetch) : (b τ).Ready ∧ (b τ).flash.mem = (b 0).flash.mem := by
  obtain ⟨t, w, m, k, h1, h2, hr, hm, hi⟩ := exists_ready hb h0 τ
  by_cases ht : t = τ
  · exact ht ▸ ⟨hr, hm⟩
  · exact absurd hτ ((hi.nextFetch hb.top hr.atFetch).not_fetch τ (by omega) (by omega))

/-- The chip executes what the flash holds. -/
theorem agrees_flash (hb : Run rom ui_in other b) (h0 : (b 0).Ready) :
    Top.Agrees rom (inputs ui_in other b) (tops b)
      (Env.flash (b 0).flash.mem rom (inputs ui_in other b)) := by
  rintro t a i ⟨hstate, rfl⟩ hi
  obtain ⟨hr, hm⟩ := ready_of_state hb h0 hstate
  refine ⟨?_, rfl⟩
  obtain ⟨hf, hi⟩ := Env.flash_instr hi
  have hins := Top.run_instruction hb.top hr.atFetch
  obtain ⟨-, -, hword⟩ := instruction_quiet hb hr hins
  show Rv32i.decode (Top.fetched rom (inputs ui_in other b) t (tops b t).arch) = some i
  rw [Top.fetched, Arch.word, MemRegs.rdata_of_external _ _ _ _ _ (.inr hf), ← hi, ← hm]
  exact congrArg Rv32i.decode (hword hf)

end Run

end Board

end Pineapple
