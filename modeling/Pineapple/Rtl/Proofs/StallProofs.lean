import Pineapple.Rtl.Proofs.CoreProofs
import Pineapple.Rtl.Proofs.MemProofs
import Pineapple.Spi.Proofs.EngineProofs

/-!
# Proofs: stalls

The one argument about `mem_ready`: a master that holds its bus until `mem_ready` is released after
exactly the stall of its address, with one SPI transaction if the address is external and none
otherwise. The core is such a master in both of its wait states.
-/

namespace Pineapple

namespace Qspi

/-- Between transactions, with `req_ready` low. -/
def Resting (e : Qspi) : Prop := e.state = .idle ∧ e.req_ready = false

theorem Resting.step {e : Qspi} (h : Resting e) {r : Req} (hv : r.valid = false) (m : Bool) :
    Resting (e.step r m) := by
  obtain ⟨hs, hr⟩ := h
  simp [Resting, Qspi.step, hs, hv]

end Qspi

namespace Mem

/-- `m` runs on the given bus and MISO waveform. -/
def Run (m : Nat → Mem) (bus : Nat → Bus) (miso : Nat → Bool) : Prop :=
  ∀ t, m (t + 1) = (m t).step (bus t) (miso t)

theorem valid_req (m : Mem) (b : Bus) : (m.req b).valid = (b.valid && m.in_ext b.addr) := rfl

section Run

variable {m : Nat → Mem} {bus : Nat → Bus} {miso : Nat → Bool}

theorem Run.engine (hm : Run m bus miso) :
    Qspi.Run (fun t => (m t).u_qspi) (fun t => (m t).req (bus t)) miso :=
  fun t => congrArg Mem.u_qspi (hm t)

theorem Run.regs (hm : Run m bus miso) (t : Nat) :
    (m (t + 1)).toMemRegs = (m t).afterBus (bus t) := congrArg Mem.toMemRegs (hm t)

/-- The access `b` is on the bus in the cycles `u, …, u + k`, and `mem_ready` rises in the last of them. -/
structure Stall (m : Nat → Mem) (bus : Nat → Bus) (miso : Nat → Bool) (b : Bus) (r : MemRegs)
    (u k : Nat) : Prop where
  held : ∀ j ≤ k, bus (u + j) = b
  regs : ∀ j ≤ k, (m (u + j)).toMemRegs = r
  low : ∀ j < k, (m (u + j)).ready (bus (u + j)) = false
  ready : (m (u + k)).ready (bus (u + k)) = true
  /-- The engine takes a request only for an external access, and then in its first cycle. -/
  accepts : ∀ j ≤ k, Qspi.Accepts (m (u + j)).u_qspi ((m (u + j)).req (bus (u + j))) ↔
    j = 0 ∧ b.valid = true ∧ r.External b.addr
  length : b.valid = true → r.External b.addr → k = 2 * (32 + 8 * nbytes b.size) + 2
  after : (m (u + k + 1)).toMemRegs = r.afterBus b
  resting : (m (u + k + 1)).u_qspi.Resting
  rdata : b.valid = true → r.External b.addr →
    (m (u + k + 1)).u_qspi.req_rdata = sampledWord miso u (nbytes b.size)

/-- The master keeps `b` on the bus from cycle `u` on as long as `mem_ready` has not been high. -/
def Holds (m : Nat → Mem) (bus : Nat → Bus) (b : Bus) (u : Nat) : Prop :=
  ∀ j, (∀ i < j, (m (u + i)).ready (bus (u + i)) = false) → bus (u + j) = b

variable {b : Bus} {r : MemRegs} {u : Nat}

/-- An access that is not external is ready at once. -/
theorem stall_internal (hm : Run m bus miso) (hb : bus u = b) (hregs : (m u).toMemRegs = r)
    (hrest : (m u).u_qspi.Resting) (hext : (b.valid && r.in_ext b.addr) = false) :
    Stall m bus miso b r u 0 := by
  have hv : ((m u).req (bus u)).valid = false := by rw [valid_req, hb, hregs, hext]
  have hno : ¬ (b.valid = true ∧ r.External b.addr) := by
    rintro ⟨hc, he⟩
    rw [hc, (r.in_ext_iff _).mpr he] at hext
    exact absurd hext (by decide)
  refine
    { held := fun j hj => ?_
      regs := fun j hj => ?_
      low := fun j hj => absurd hj (Nat.not_lt_zero j)
      ready := by rw [Nat.add_zero, ready, hv]; rfl
      accepts := fun j hj => ?_
      length := fun h1 h2 => absurd ⟨h1, h2⟩ hno
      after := by rw [Nat.add_zero, hm.regs, hb, hregs]
      resting := by
        rw [Nat.add_zero, show (m (u + 1)).u_qspi = _ from hm.engine u]
        exact hrest.step hv _
      rdata := fun h1 h2 => absurd ⟨h1, h2⟩ hno }
  all_goals obtain rfl : j = 0 := Nat.le_zero.mp hj
  · exact hb
  · exact hregs
  · refine iff_of_false (fun ⟨_, ha⟩ => ?_) (fun ⟨_, h⟩ => hno h)
    rw [Nat.add_zero, hv] at ha
    cases ha

/-- An external access is ready when its transaction is over. -/
theorem stall_external (hm : Run m bus miso) (hb : Holds m bus b u) (hregs : (m u).toMemRegs = r)
    (hrest : (m u).u_qspi.Resting) (hv : b.valid = true) (hext : r.in_ext b.addr = true) :
    Stall m bus miso b r u (2 * (32 + 8 * nbytes b.size) + 2) := by
  have hb0 : bus u = b := hb 0 fun i hi => absurd hi (Nat.not_lt_zero i)
  have hreq : ((m u).req (bus u)).valid = true := by rw [valid_req, hb0, hregs, hv, hext]; rfl
  have hacc : Qspi.Accepts (m u).u_qspi ((m u).req (bus u)) := ⟨hrest.1, hreq⟩
  have hsize : ((m u).req (bus u)).size = b.size := congrArg Bus.size hb0
  have htr := Qspi.transaction_of_accepts (t := u) hm.engine hacc
  have hlat : ((m u).req (bus u)).latency = 2 * (32 + 8 * nbytes b.size) + 2 := by
    simp only [Req.latency, Req.nbits, hsize]
  rw [← hlat]
  have hwrite : r.afterBus b = r := by
    unfold MemRegs.afterBus
    split
    · exact r.write_of_in_ext _ _ _ hext
    · rfl
  -- as long as the bus and the registers are fixed, `mem_ready` is the engine's `req_ready`
  have hready : ∀ j, bus (u + j) = b → (m (u + j)).toMemRegs = r →
      (m (u + j)).ready (bus (u + j)) = (m (u + j)).u_qspi.req_ready := by
    intro j h1 h2
    rw [ready, valid_req, h1, h2, hv, hext]
    rfl
  have hlow : ∀ j < ((m u).req (bus u)).latency, (m (u + j)).u_qspi.req_ready = false := by
    intro j hj
    by_cases h0 : j = 0
    · rw [h0]; exact hrest.2
    · have := htr.ready (u + j) (by omega) (by omega)
      rw [Bool.eq_false_iff, ne_eq, this]
      omega
  have hwait : ∀ j ≤ ((m u).req (bus u)).latency, bus (u + j) = b ∧ (m (u + j)).toMemRegs = r ∧
      ∀ i < j, (m (u + i)).ready (bus (u + i)) = false := by
    intro j
    induction j with
    | zero => exact fun _ => ⟨hb0, hregs, fun i hi => absurd hi (Nat.not_lt_zero i)⟩
    | succ j ih =>
      intro hj
      obtain ⟨h1, h2, h3⟩ := ih (by omega)
      have hlow' : ∀ i < j + 1, (m (u + i)).ready (bus (u + i)) = false := by
        intro i hi
        by_cases hij : i = j
        · rw [hij, hready j h1 h2, hlow j (by omega)]
        · exact h3 i (by omega)
      refine ⟨hb (j + 1) hlow', ?_, hlow'⟩
      rw [← Nat.add_assoc, hm.regs, h1, h2, hwrite]
  obtain ⟨hlast1, hlast2, hlast3⟩ := hwait _ le_rfl
  refine
    { held := fun j hj => (hwait j hj).1
      regs := fun j hj => (hwait j hj).2.1
      low := hlast3
      ready := ?_
      accepts := fun j hj => ?_
      length := fun _ _ => hlat
      after := by rw [hm.regs, hlast1, hlast2]
      resting := ⟨htr.idle, ?_⟩
      rdata := fun _ _ => ?_ }
  · rw [hready _ hlast1 hlast2]
    exact (htr.ready _ (by simp only [Req.latency]; omega) (by omega)).mpr rfl
  · by_cases h0 : j = 0
    · subst h0
      exact iff_of_true hacc ⟨rfl, hv, (r.in_ext_iff _).mp hext⟩
    · exact iff_of_false (fun ha => htr.busy (u + j) (by omega) (by omega) ha.1) (fun h => h0 h.1)
  · have := htr.ready (u + ((m u).req (bus u)).latency + 1) (by omega) (by omega)
    rw [Bool.eq_false_iff, ne_eq, this]
    omega
  · have hpost := Qspi.run_restState (t := u) hm.engine hacc
    have hrd := htr.rdata
    rw [Qspi.run_postState (t := u) hm.engine hacc] at hrd
    rw [hpost, ← hsize]
    exact hrd

/-- A master that holds its bus until `mem_ready` waits for exactly the stall of its address. -/
theorem run_stall (hm : Run m bus miso) (hb : Holds m bus b u) (hregs : (m u).toMemRegs = r)
    (hrest : (m u).u_qspi.Resting) :
    Stall m bus miso b r u (if b.valid then r.stall b.addr b.size else 0) := by
  have hb0 : bus u = b := hb 0 fun i hi => absurd hi (Nat.not_lt_zero i)
  cases hv : b.valid with
  | false => exact stall_internal hm hb0 hregs hrest (by rw [hv]; rfl)
  | true =>
    cases hext : r.in_ext b.addr with
    | false =>
      rw [if_pos rfl, r.stall_of_not_in_ext _ hext]
      exact stall_internal hm hb0 hregs hrest (by rw [hv, hext]; rfl)
    | true =>
      rw [if_pos rfl, r.stall_of_in_ext _ hext]
      exact stall_external hm hb hregs hrest hv hext

/-- An idle bus leaves the registers and the engine alone. -/
theorem run_quiet (hm : Run m bus miso) (hv : (bus u).valid = false) (hw : (bus u).we = false)
    (hrest : (m u).u_qspi.Resting) :
    (m (u + 1)).toMemRegs = (m u).toMemRegs ∧ (m (u + 1)).u_qspi.Resting ∧
      ¬ Qspi.Accepts (m u).u_qspi ((m u).req (bus u)) := by
  have hreq : ((m u).req (bus u)).valid = false := by rw [valid_req, hv]; rfl
  refine ⟨?_, ?_, fun ha => ?_⟩
  · rw [hm.regs, MemRegs.afterBus, hw]; rfl
  · rw [show (m (u + 1)).u_qspi = _ from hm.engine u]
    exact hrest.step hreq _
  · rw [ha.2] at hreq
    cases hreq

end Run

end Mem

/-! ## The core as the master -/

namespace Top

section Run

variable {rom : Rom} {inp : Nat → Inputs} {s : Nat → Top}

theorem Run.core (hs : Run rom inp s) : Core.Run (fun t => (s t).core)
    (fun t => (s t).mem_ready) (fun t => (s t).mem_rdata rom (inp t).ui_in) :=
  fun t => congrArg Top.core (hs t)

theorem Run.mem (hs : Run rom inp s) :
    Mem.Run (fun t => (s t).mem) (fun t => (s t).bus) (fun t => (inp t).miso) :=
  fun t => congrArg Top.mem (hs t)

/-- `Mem.Stall` of the chip with the bus of the core state `c`. -/
def Stall (inp : Nat → Inputs) (s : Nat → Top) (c : Core) (r : MemRegs) (u k : Nat) : Prop :=
  Mem.Stall (fun t => (s t).mem) (fun t => (s t).bus) (fun t => (inp t).miso) c.bus r u k

variable {c c' : Core} {r : MemRegs} {u : Nat}

/-- The core holds its bus in a wait state. -/
theorem holds_of_wait (hs : Run rom inp s) (hcore : (s u).core = c)
    (hstep : ∀ r v, c.step r v = if r then c' else c) :
    Mem.Holds (fun t => (s t).mem) (fun t => (s t).bus) c.bus u := by
  have hwait : ∀ j, (∀ i < j, (s (u + i)).mem_ready = false) → (s (u + j)).core = c := by
    intro j
    induction j with
    | zero => exact fun _ => hcore
    | succ j ih =>
      intro hlow
      have := hs.core (u + j)
      simp only [ih fun i hi => hlow i (by omega), hlow j (by omega), hstep] at this
      exact this
  exact fun j hlow => congrArg Core.bus (hwait j hlow)

/-- In a wait state the core waits for exactly the stall of its address. -/
theorem run_stall (hs : Run rom inp s) (hcore : (s u).core = c)
    (hregs : (s u).mem.toMemRegs = r) (hrest : (s u).eng.Resting)
    (hstep : ∀ r v, c.step r v = if r then c' else c) :
    Stall inp s c r u (if c.mem_valid then r.stall c.mem_addr c.mem_size else 0) :=
  Mem.run_stall hs.mem (holds_of_wait hs hcore hstep) hregs hrest

/-- An idle bus leaves the registers and the engine alone. -/
theorem run_quiet (hs : Run rom inp s) {u : Nat} (hq : (s u).core.Quiet) (hr : (s u).eng.Resting) :
    (s (u + 1)).mem.toMemRegs = (s u).mem.toMemRegs ∧ (s (u + 1)).eng.Resting ∧
      ¬ Qspi.Accepts (s u).eng (s u).req :=
  Mem.run_quiet hs.mem hq.1 hq.2 hr

end Run

end Top

end Pineapple
