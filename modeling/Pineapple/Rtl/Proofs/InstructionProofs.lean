import Pineapple.Rtl.BootRom
import Pineapple.Rtl.Proofs.StallProofs

/-!
# Proofs: external accesses and the time of an instruction

Between two instructions the chip is `AtFetch`. `run_instruction` takes it from one such cycle to the
next and says what happens in between; by induction every cycle of a run belongs to an instruction.
-/

namespace Pineapple

namespace Top

/-- Between two instructions: `ST_FETCH`, an idle bus and an idle engine. -/
structure AtFetch (s : Top) : Prop where
  state : s.core.state = .fetch
  quiet : s.core.Quiet
  resting : s.eng.Resting

theorem reset_atFetch (s : Top) : AtFetch s.reset := ⟨rfl, ⟨rfl, rfl⟩, ⟨rfl, rfl⟩⟩

/-- The registers of `mem.v` after the instruction `w` of `s`. -/
def storeRegs (s : Top) (w : BitVec 32) : MemRegs := s.mem.afterBus (s.core.memWaitState w).bus

section Run

variable {rom : Rom} {inp : Nat → Inputs} {s : Nat → Top}

/-- The word on `mem_rdata` in cycle `t`. -/
def rdataAt (rom : Rom) (inp : Nat → Inputs) (s : Nat → Top) (t : Nat) : BitVec 32 :=
  (s t).mem_rdata rom (inp t).ui_in

/-- The chip executes `w` from cycle `t` to cycle `t + m + k + 7`, with `m` and `k` wait states. -/
structure Instruction (rom : Rom) (inp : Nat → Inputs) (s : Nat → Top) (t : Nat) (w : BitVec 32)
    (m k : Nat) : Prop where
  word : rdataAt rom inp s (t + m + 2) = w
  waits : Waits (fun τ => (s τ).mem_ready) t m k
  fetch : Stall inp s (s t).core.fetchWaitState (s t).mem.toMemRegs (t + 1) m
  access : Stall inp s ((s t).core.memWaitState w) (s t).mem.toMemRegs (t + m + 5) k
  regs : ∀ j, t ≤ j → j ≤ t + m + k + 5 → (s j).mem.toMemRegs = (s t).mem.toMemRegs
  regs_after : ∀ j, t + m + k + 6 ≤ j → j ≤ t + m + k + 7 →
    (s j).mem.toMemRegs = (s t).storeRegs w
  /-- The engine takes a request only in the first cycle of an external access. -/
  accepts : ∀ j, t ≤ j → j < t + m + k + 7 →
    (Qspi.Accepts (s j).eng (s j).req ↔
      (j = t + 1 ∧ (s t).mem.External (s t).core.pc) ∨
      (j = t + m + 5 ∧ Core.accesses w = true ∧
        (s t).mem.External ((s t).core.memWaitState w).mem_addr))
  atFetch : AtFetch (s (t + m + k + 7))

/-! ## The phases of an instruction -/

/-- The bus carries no access in the `n` cycles from cycle `u` on. -/
structure Idle (s : Nat → Top) (u n : Nat) : Prop where
  regs : ∀ j ≤ n, (s (u + j)).mem.toMemRegs = (s u).mem.toMemRegs
  resting : ∀ j ≤ n, (s (u + j)).eng.Resting
  accepts : ∀ j < n, ¬ Qspi.Accepts (s (u + j)).eng (s (u + j)).req

theorem run_idle (hs : Run rom inp s) {u n : Nat} (hquiet : ∀ j < n, (s (u + j)).core.Quiet)
    (hrest : (s u).eng.Resting) : Idle s u n := by
  induction n with
  | zero =>
    refine ⟨fun j hj => ?_, fun j hj => ?_, fun j hj => absurd hj (Nat.not_lt_zero j)⟩
    all_goals obtain rfl := Nat.le_zero.mp hj
    · rfl
    · exact hrest
  | succ n ih =>
    obtain ⟨hregs, hresting, haccepts⟩ := ih fun j hj => hquiet j (by omega)
    obtain ⟨hregs', hrest', hno⟩ := run_quiet hs (hquiet n (by omega)) (hresting n le_rfl)
    refine ⟨fun j hj => ?_, fun j hj => ?_, fun j hj => ?_⟩
    · rcases Nat.le_succ_iff.mp hj with h | rfl
      · exact hregs j h
      · exact hregs'.trans (hregs n le_rfl)
    · rcases Nat.le_succ_iff.mp hj with h | rfl
      · exact hresting j h
      · exact hrest'
    · rcases Nat.lt_succ_iff_lt_or_eq.mp hj with h | rfl
      · exact haccepts j h
      · exact hno

variable {t m k : Nat} {w : BitVec 32} {r : MemRegs} {f a : Core}

/-- `ST_FETCH` and `ST_FETCH_WAIT`. -/
theorem run_fetch (hs : Run rom inp s) (h : AtFetch (s t)) :
    Idle s t 1 ∧ Stall inp s (s t).core.fetchWaitState (s t).mem.toMemRegs (t + 1) (s t).fetchStall := by
  have hidle : Idle s t 1 := run_idle hs (fun j hj => by
    obtain rfl : j = 0 := by omega
    exact h.quiet) h.resting
  have hfw : (s (t + 1)).core = (s t).core.fetchWaitState :=
    (hs.core t).trans (Core.step_fetch h.state _ _)
  exact ⟨hidle, run_stall hs hfw (hidle.regs 1 le_rfl) (hidle.resting 1 le_rfl) Core.step_fetchWaitState⟩

/-- `ST_DECODE`, `ST_EXEC` and `ST_MEM`. -/
theorem run_decode_mem (hs : Run rom inp s) (hdec : (s (t + m + 2)).core = (s t).core.decodeState)
    (hrest : (s (t + m + 2)).eng.Resting) : Idle s (t + m + 2) 3 := by
  have hexec : (s (t + m + 3)).core = (s t).core.execState _ := Core.run_exec hs.core hdec
  have hmem : (s (t + m + 4)).core = (s t).core.memState _ := Core.run_mem hs.core hdec
  refine run_idle hs (fun j hj => ?_) hrest
  obtain rfl | rfl | rfl : j = 0 ∨ j = 1 ∨ j = 2 := by omega
  · rw [Nat.add_zero, hdec]
    exact ⟨rfl, rfl⟩
  · rw [show t + m + 2 + 1 = t + m + 3 from rfl, hexec]
    exact ⟨rfl, rfl⟩
  · rw [show t + m + 2 + 2 = t + m + 4 from rfl, hmem]
    exact ⟨rfl, rfl⟩

theorem dataStall_eq_stall (c : Top) (w : BitVec 32) : c.dataStall w = if (c.core.memWaitState w).mem_valid then
    c.mem.stall (c.core.memWaitState w).mem_addr (c.core.memWaitState w).mem_size else 0 := by
  by_cases ha : Core.accesses w = true
  · have ha' := ha
    simp only [Core.accesses, decide_eq_true_eq] at ha'
    simp only [dataStall, Core.memWaitState, ha, ha', ↓reduceIte]
  · have ha' := ha
    simp only [Core.accesses, decide_eq_true_eq] at ha'
    simp only [dataStall, Core.memWaitState, ha, ha', ↓reduceIte]
    rfl

/-- `ST_MEM_WAIT`. -/
theorem run_access (hs : Run rom inp s) (hdec : (s (t + m + 2)).core = (s t).core.decodeState)
    (hidle : Idle s (t + m + 2) 3) (hregs : (s (t + m + 2)).mem.toMemRegs = (s t).mem.toMemRegs) :
    Stall inp s ((s t).core.memWaitState (rdataAt rom inp s (t + m + 2))) (s t).mem.toMemRegs (t + m + 5)
      ((s t).dataStall (rdataAt rom inp s (t + m + 2))) := by
  have hmw : (s (t + m + 5)).core = (s t).core.memWaitState (rdataAt rom inp s (t + m + 2)) :=
    Core.run_memWait (k := 0) hs.core hdec (fun j hj => absurd hj (Nat.not_lt_zero j)) 0 le_rfl
  rw [dataStall_eq_stall]
  exact run_stall hs hmw ((hidle.regs 3 le_rfl).trans hregs) (hidle.resting 3 le_rfl) Core.step_memWaitState

/-- The registers do not change before the data access ends. -/
theorem regs_before (hfetch : Stall inp s f (s t).mem.toMemRegs (t + 1) m) (hidle : Idle s (t + m + 2) 3)
    (hregs : (s (t + m + 2)).mem.toMemRegs = (s t).mem.toMemRegs)
    (haccess : Stall inp s a (s t).mem.toMemRegs (t + m + 5) k) (j : Nat) (h1 : t ≤ j) (h2 : j ≤ t + m + k + 5) :
    (s j).mem.toMemRegs = (s t).mem.toMemRegs := by
  by_cases hj : j = t
  · rw [hj]
  by_cases hj : j ≤ t + m + 1
  · have := hfetch.regs (j - (t + 1)) (by omega)
    rwa [show t + 1 + (j - (t + 1)) = j by omega] at this
  by_cases hj : j ≤ t + m + 4
  · have := hidle.regs (j - (t + m + 2)) (by omega)
    rw [show t + m + 2 + (j - (t + m + 2)) = j by omega] at this
    exact this.trans hregs
  have := haccess.regs (j - (t + m + 5)) (by omega)
  rwa [show t + m + 5 + (j - (t + m + 5)) = j by omega] at this

/-- In the two wait states the engine takes the request of an external access in the first cycle, and in all other
states it takes none. -/
theorem accepts_iff (hfirst : Idle s t 1) (hfetch : Stall inp s f r (t + 1) m) (hidle : Idle s (t + m + 2) 3)
    (haccess : Stall inp s a r (t + m + 5) k) (hlast : Idle s (t + m + k + 6) 1) (j : Nat) (h1 : t ≤ j)
    (h2 : j < t + m + k + 7) :
    Qspi.Accepts (s j).eng (s j).req ↔ (j = t + 1 ∧ f.mem_valid = true ∧ r.External f.mem_addr) ∨
      (j = t + m + 5 ∧ a.mem_valid = true ∧ r.External a.mem_addr) := by
  have hno : j ≠ t + 1 → j ≠ t + m + 5 → ¬ Qspi.Accepts (s j).eng (s j).req →
      (Qspi.Accepts (s j).eng (s j).req ↔ (j = t + 1 ∧ f.mem_valid = true ∧ r.External f.mem_addr) ∨
        (j = t + m + 5 ∧ a.mem_valid = true ∧ r.External a.mem_addr)) := by
    intro h1 h5 hnone
    refine iff_of_false hnone ?_
    rintro (⟨h, -⟩ | ⟨h, -⟩)
    · exact h1 h
    · exact h5 h
  by_cases hj : j = t
  · refine hno (by omega) (by omega) ?_
    rw [hj]
    exact hfirst.accepts 0 (by decide)
  by_cases hj : j ≤ t + m + 1
  · have := hfetch.accepts (j - (t + 1)) (by omega)
    rw [show t + 1 + (j - (t + 1)) = j by omega] at this
    refine Iff.trans this ?_
    constructor
    · rintro ⟨h0, hv, he⟩
      exact .inl ⟨by omega, hv, he⟩
    · rintro (⟨h0, hv, he⟩ | ⟨h0, -⟩)
      · exact ⟨by omega, hv, he⟩
      · omega
  by_cases hj : j ≤ t + m + 4
  · refine hno (by omega) (by omega) ?_
    have := hidle.accepts (j - (t + m + 2)) (by omega)
    rwa [show t + m + 2 + (j - (t + m + 2)) = j by omega] at this
  by_cases hj : j = t + m + k + 6
  · refine hno (by omega) (by omega) ?_
    rw [hj]
    exact hlast.accepts 0 (by decide)
  have := haccess.accepts (j - (t + m + 5)) (by omega)
  rw [show t + m + 5 + (j - (t + m + 5)) = j by omega] at this
  refine Iff.trans this ?_
  constructor
  · rintro ⟨h0, hv, he⟩
    exact .inr ⟨by omega, hv, he⟩
  · rintro (⟨h0, -⟩ | ⟨h0, hv, he⟩)
    · omega
    · exact ⟨by omega, hv, he⟩

/-- One instruction of the chip. -/
theorem run_instruction (hs : Run rom inp s) {t : Nat} (h : AtFetch (s t)) :
    let m := (s t).fetchStall
    let w := rdataAt rom inp s (t + m + 2)
    Instruction rom inp s t w m ((s t).dataStall w) := by
  intro m w
  obtain ⟨hfirst, hfetch⟩ : Idle s t 1 ∧ Stall inp s _ _ (t + 1) m := run_fetch hs h
  have hdec : (s (t + m + 2)).core = (s t).core.decodeState :=
    Core.run_decode hs.core h.state hfetch.low hfetch.ready
  have hregs : (s (t + m + 2)).mem.toMemRegs = (s t).mem.toMemRegs := by
    have := hfetch.after
    rw [show t + 1 + m + 1 = t + m + 2 by omega] at this
    exact this
  have hrest : (s (t + m + 2)).eng.Resting := by
    have := hfetch.resting
    rwa [show t + 1 + m + 1 = t + m + 2 by omega] at this
  have hidle := run_decode_mem hs hdec hrest
  have haccess : Stall inp s ((s t).core.memWaitState w) (s t).mem.toMemRegs (t + m + 5) ((s t).dataStall w) :=
    run_access hs hdec hidle hregs
  generalize (s t).dataStall w = k at haccess
  have hwb : (s (t + m + k + 6)).core = (s t).core.wbState w := Core.run_wb hs.core hdec haccess.low haccess.ready
  have hnext : (s (t + m + k + 7)).core = _ := Core.run_next hs.core hwb
  have hregs6 : (s (t + m + k + 6)).mem.toMemRegs = (s t).storeRegs w := by
    have := haccess.after
    rwa [show t + m + 5 + k + 1 = t + m + k + 6 by omega] at this
  have hrest6 : (s (t + m + k + 6)).eng.Resting := by
    have := haccess.resting
    rwa [show t + m + 5 + k + 1 = t + m + k + 6 by omega] at this
  have hlast : Idle s (t + m + k + 6) 1 := run_idle hs (fun j hj => by
    obtain rfl : j = 0 := by omega
    rw [Nat.add_zero, hwb]
    exact ⟨rfl, rfl⟩) hrest6
  exact
    { word := rfl
      waits := ⟨hfetch.low, hfetch.ready, haccess.low, haccess.ready⟩
      fetch := hfetch
      access := haccess
      regs := regs_before hfetch hidle hregs haccess
      regs_after := fun j h1 h2 => by
        have := hlast.regs (j - (t + m + k + 6)) (by omega)
        rw [show t + m + k + 6 + (j - (t + m + k + 6)) = j by omega] at this
        exact this.trans hregs6
      accepts := fun j h1 h2 => by
        refine (accepts_iff hfirst hfetch hidle haccess hlast j h1 h2).trans (or_congr ?_ Iff.rfl)
        exact and_congr_right fun _ => and_iff_right rfl
      atFetch :=
        { state := by rw [hnext]; rfl
          quiet := by rw [hnext]; exact ⟨rfl, rfl⟩
          resting := hlast.resting 1 le_rfl } }

/-! ## Which instruction a cycle belongs to -/

/-- Every cycle of a run that starts between two instructions belongs to one instruction. -/
theorem exists_instruction (hs : Run rom inp s) (h0 : AtFetch (s 0)) (τ : Nat) :
    ∃ t w m k, t ≤ τ ∧ τ < t + m + k + 7 ∧ AtFetch (s t) ∧ m = (s t).fetchStall ∧
      k = (s t).dataStall w ∧ Instruction rom inp s t w m k := by
  induction τ with
  | zero => exact ⟨0, _, _, _, le_rfl, by omega, h0, rfl, rfl, run_instruction hs h0⟩
  | succ τ ih =>
    obtain ⟨t, w, m, k, h1, h2, hf, hm, hk, hi⟩ := ih
    by_cases hτ : τ + 1 < t + m + k + 7
    · exact ⟨t, w, m, k, by omega, hτ, hf, hm, hk, hi⟩
    · have hnext : AtFetch (s (τ + 1)) := by
        rw [show τ + 1 = t + m + k + 7 by omega]
        exact hi.atFetch
      exact ⟨τ + 1, _, _, _, le_rfl, by omega, hnext, rfl, rfl, run_instruction hs hnext⟩

/-- `mem_valid` during an instruction. -/
theorem Instruction.valid_iff (hi : Instruction rom inp s t w m k) (hs : Run rom inp s)
    (hf : AtFetch (s t)) (j : Nat) (h1 : t ≤ j) (h2 : j ≤ t + m + k + 7) :
    (s j).core.mem_valid = true ↔ (t < j ∧ j ≤ t + m + 1) ∨
      (Core.accesses w = true ∧ t + m + 5 ≤ j ∧ j ≤ t + m + k + 5) := by
  by_cases hj : j = t
  · rw [hj, hf.quiet.1]
    simp only [Bool.false_eq_true, false_iff]
    omega
  have hw : (s (t + m + 2)).mem_rdata rom (inp (t + m + 2)).ui_in = w := hi.word
  have hcases := Core.run_cases hs.core hf.state hi.waits j (by omega) h2
  simp only [hw] at hcases
  rcases hcases with
    ⟨h, e⟩ | ⟨h, e⟩ | ⟨h, e⟩ | ⟨h, e⟩ | ⟨h, h', e⟩ | ⟨h, e⟩ | ⟨h, e⟩
  case inl => rw [e]; exact iff_of_true rfl (.inl ⟨by omega, h⟩)
  case inr.inr.inr.inr.inl =>
    rw [e]
    exact ⟨fun ha => .inr ⟨ha, h, h'⟩, fun hr => hr.elim (fun hr => by omega) (fun hr => hr.1)⟩
  all_goals rw [e]; exact iff_of_false Bool.false_ne_true (by omega)

/-- The registers that decide which addresses are external do not change before the data access ends. -/
theorem Instruction.raises_iff (hi : Instruction rom inp s t w m k) (hs : Run rom inp s)
    (hf : AtFetch (s t)) (j : Nat) (h1 : t ≤ j) (h2 : j < t + m + k + 7) :
    RaisesExternal s j ↔ Qspi.Accepts (s j).eng (s j).req := by
  rw [hi.accepts j h1 h2]
  have hv := fun i h1 h2 => hi.valid_iff hs hf i h1 h2
  have hfw : (s (t + 1)).core.mem_addr = (s t).core.pc :=
    congrArg Bus.addr (hi.fetch.held 0 (Nat.zero_le _))
  have hmw : (s (t + m + 5)).core.mem_addr = ((s t).core.memWaitState w).mem_addr :=
    congrArg Bus.addr (hi.access.held 0 (Nat.zero_le _))
  constructor
  · rintro ⟨hval, hprev, hext⟩
    rcases (hv j h1 h2.le).mp hval with ⟨h3, h4⟩ | ⟨ha, h3, h4⟩
    · have hj : j = t + 1 := by
        by_contra hne
        have hlow := hprev (j - 1) (by omega)
        rw [Bool.eq_false_iff, ne_eq, hv (j - 1) (by omega) (by omega)] at hlow
        omega
      subst hj
      rw [hfw, hi.regs _ (by omega) (by omega)] at hext
      exact .inl ⟨rfl, hext⟩
    · have hj : j = t + m + 5 := by
        by_contra hne
        have hlow := hprev (j - 1) (by omega)
        rw [Bool.eq_false_iff, ne_eq, hv (j - 1) (by omega) (by omega)] at hlow
        exact hlow (.inr ⟨ha, by omega, by omega⟩)
      subst hj
      rw [hmw, hi.regs _ (by omega) (by omega)] at hext
      exact .inr ⟨rfl, ha, hext⟩
  · rintro (⟨rfl, hext⟩ | ⟨rfl, ha, hext⟩)
    · refine ⟨(hv _ (by omega) (by omega)).mpr (.inl ⟨by omega, by omega⟩), fun u hu => ?_, ?_⟩
      · obtain rfl : u = t := by omega
        exact hf.quiet.1
      · rw [hfw, hi.regs _ (by omega) (by omega)]
        exact hext
    · refine ⟨(hv _ (by omega) (by omega)).mpr (.inr ⟨ha, by omega, by omega⟩), fun u hu => ?_, ?_⟩
      · rw [Bool.eq_false_iff, ne_eq, hv u (by omega) (by omega)]
        omega
      · rw [hmw, hi.regs _ (by omega) (by omega)]
        exact hext

theorem Instruction.nextFetch (hi : Instruction rom inp s t w m k) (hs : Run rom inp s)
    (hf : AtFetch (s t)) : NextFetch s t (m + k + 7) where
  fetch := by
    rw [show t + (m + k + 7) = t + m + k + 7 by omega]
    exact hi.atFetch.state
  not_fetch := by
    intro j h1 h2
    have hcases := Core.run_cases hs.core hf.state hi.waits j h1 (by omega)
    rcases hcases with ⟨-, e⟩ | ⟨-, e⟩ | ⟨-, e⟩ | ⟨-, e⟩ | ⟨-, -, e⟩ | ⟨-, e⟩ | ⟨h, -⟩
    case inr.inr.inr.inr.inr.inr => omega
    all_goals rw [e]; exact CoreState.noConfusion

/-- The word an instruction executes is in `ir` from `ST_EXEC` on. -/
theorem Instruction.ir_eq (hi : Instruction rom inp s t w m k) (hs : Run rom inp s)
    (hf : AtFetch (s t)) : (s (t + m + 3)).core.ir = w := by
  have hdec := Core.run_decode hs.core hf.state hi.waits.fetch_low hi.waits.fetch_ready
  have hexec := Core.run_exec hs.core hdec
  rw [show (s (t + m + 3)).core = _ from hexec]
  exact hi.word

/-- In `ST_FETCH` the chip is between two instructions. -/
theorem atFetch_of_state (hs : Run rom inp s) (h0 : AtFetch (s 0)) {τ : Nat}
    (hτ : (s τ).core.state = .fetch) : AtFetch (s τ) := by
  obtain ⟨t, w, m, k, h1, h2, hf, -, -, hi⟩ := exists_instruction hs h0 τ
  by_cases ht : t = τ
  · exact ht ▸ hf
  · exact absurd hτ ((hi.nextFetch hs hf).not_fetch τ (by omega) (by omega))

/-- External accesses and SPI transactions correspond one to one in every run from a reset, for every ROM,
input waveform and MISO waveform, and the clocks from one fetch to the next are exact. -/
theorem external_accesses_exact {s0 : Top} (hs : Run rom inp s) (h0 : s 0 = s0.reset) :
    (∀ t, RaisesExternal s t →
      Qspi.Accepts (s t).eng (s t).req ∧ (s t).mem.Asks (s t).bus (s t).req ∧
        Qspi.Transaction (fun τ => (s τ).eng) (fun τ => (inp τ).miso) (s t).req t) ∧
    (∀ t, Qspi.Accepts (s t).eng (s t).req → RaisesExternal s t) ∧
    (∀ t, (s t).core.state = .fetch →
      let m := (s t).fetchStall
      let w := (s (t + m + 3)).core.ir
      NextFetch s t (m + (s t).dataStall w + 7)) ∧
    ∀ t, ∃ t', t ≤ t' ∧ (s t').core.state = .fetch := by
  have hf0 : AtFetch (s 0) := h0 ▸ reset_atFetch s0
  have hiff : ∀ t, RaisesExternal s t ↔ Qspi.Accepts (s t).eng (s t).req := by
    intro τ
    obtain ⟨t, w, m, k, h1, h2, hf, -, -, hi⟩ := exists_instruction hs hf0 τ
    exact hi.raises_iff hs hf τ h1 h2
  refine ⟨fun t hr => ?_, fun t ha => (hiff t).mpr ha, fun t ht => ?_, fun τ => ?_⟩
  · have ha := (hiff t).mp hr
    exact ⟨ha, Mem.asks_req hr.1 (((s t).mem.in_ext_iff _).mpr hr.2.2),
      Qspi.transaction_of_accepts (t := t) hs.mem.engine ha⟩
  · have hf := atFetch_of_state hs hf0 ht
    have hi := run_instruction hs hf
    intro m w
    have hw : w = _ := hi.ir_eq hs hf
    rw [hw]
    exact hi.nextFetch hs hf
  · obtain ⟨t, w, m, k, h1, h2, hf, -, -, hi⟩ := exists_instruction hs hf0 τ
    exact ⟨_, by omega, hi.atFetch.state⟩

/-- The boot ROM with all input pins low: its first external access is the store of the self-test, fetched in cycle 7. -/
theorem external_accesses_exact_boot :
    let s := Clocked.run (fun s (i : Inputs) => step s bootRom i) (fun _ => ⟨0, false⟩)
      (reset ⟨⟨.fetch, 0, 0, 0, 0, fun _ => 0, 0, 0, 0, false, false⟩,
        ⟨⟨fun _ => 0, false, 0, 0⟩, ⟨.idle, 0, 0, 0, 0, 0, false, true, true, false, true⟩⟩⟩)
    (RaisesExternal s 12 ∧ Qspi.Accepts (s 12).eng (s 12).req) ∧
      ((s 12).req.dev = 2 ∧ (s 12).req.addr.toNat = 0 ∧ (s 12).req.we = true ∧ (s 12).req.wdata = 0xA5) ∧
      Qspi.Transaction (fun τ => (s τ).eng) (fun _ => false) (s 12).req 12 ∧
      (∀ t, Qspi.Accepts (s t).eng (s t).req → RaisesExternal s t) ∧ NextFetch s 7 89 ∧
      ∀ t, ∃ t', t ≤ t' ∧ (s t').core.state = .fetch := by
  intro s
  have hs : Run bootRom (fun _ => ⟨0, false⟩) s := fun _ => rfl
  obtain ⟨hraises, haccepts, hnext, hlive⟩ := external_accesses_exact hs rfl
  have hr : RaisesExternal s 12 := by
    refine ⟨by decide, fun u hu => ?_, by decide⟩
    obtain rfl : u = 11 := by omega
    decide
  obtain ⟨ha, hasks, htransaction⟩ := hraises 12 hr
  have haddr : (s 12).bus.addr = 0xE0 := by decide
  obtain ⟨hdev, hreq, hwe⟩ := hasks.psram (by rw [haddr]; decide)
  rw [haddr] at hreq
  have hcycles : (s 7).fetchStall + (s 7).dataStall (s (7 + (s 7).fetchStall + 3)).core.ir + 7 = 89 := by decide
  have hseven := hnext 7 (by decide)
  refine ⟨⟨hr, ha⟩, ⟨hdev, hreq, hwe.trans (by decide), hasks.wdata.trans (by decide)⟩, htransaction, haccepts, ?_,
    hlive⟩
  rw [← hcycles]
  exact hseven

end Run

end Top

end Pineapple
