import Pineapple.Paged.Proofs.HandoffProofs
import Pineapple.Ps2.Proofs.RunProofs

/-!
# Proofs: the readers on the chip

From the handoff on a reader stores what its transducer emits for the bytes that it has received, on every waveform.
If the keyboard gives it time these are the bytes of the frames; a keyboard that does not is not heard.
-/

namespace Pineapple

open Clocked
open Rv32i (Instr Word Reg readReg writeReg)

namespace Ps2

/-! ## The two readers -/

/-- A program in the flash that receives frames and does with the bytes what `M` does. -/
structure Receiver {γ : Type} (P : List Page) (flash : Bits.ByteMemory 14) (load : Nat → Arch → Instr → Word)
    (M : Transducer γ (BitVec 8) (BitVec 8)) (g : γ) (good : γ → Regs → Prop) (time : Nat) : Prop where
  receive : HasReceive P
  hold : Paged.Holds flash P
  process : Processes P load (seen flash) (M.traced word) good time
  first : ∀ pg, P[0]? = some pg → 1 ≤ pg.instrs.length
  behind : ∀ pg, P[23]? = some pg → 0 < pg.instrs.length
  begin : ∀ t regs mem, ∃ regs', Silent (Paged.step P load) (seen flash) (t, ⟨0, 1, regs, mem⟩)
    (t + 1370, ⟨1, 0, regs', mem⟩) ∧ good g regs' ∧ readReg regs' 4 = 0

section Instances

variable {flash : Bits.ByteMemory 14} (load : Nat → Arch → Instr → Word)

theorem Reader.receiver (h : Paged.WellFormed Reader.pages) (hold : Paged.Holds flash Reader.pages) :
    Receiver Reader.pages flash load echo () (fun _ _ => True) pageClocks := by
  have hn : Reader.pages[0]? = some initPage := rfl
  have hi : initPage.instrs[1]? = some (.opImm .addi 4 0 0) := rfl
  have hq : Paged.Quiet (seen flash) 0 0 := seen_quiet h hold hn (.inl (by decide)) rfl
  refine ⟨Reader.hasReceive h, hold, reader_processes h hold, fun pg hpg => ?_, fun pg hpg => ?_, fun t regs mem => ?_⟩
  · cases hpg
    decide
  · cases hpg
    decide
  · obtain ⟨x₁, hx₁⟩ : ∃ x, x = writeReg regs 4 0 := ⟨_, rfl⟩
    refine ⟨writeReg x₁ 30 1, ?_, trivial, ?_⟩
    · refine Paged.chain_imm h hn hq hi (Nat.zero_le _) (v := 0) (BitVec.zero_add _) ?_
      rw [← hx₁]
      exact Paged.chain_leave h hn hq (m := 1) rfl (Nat.zero_le _) (by decide) rfl (.refl _)
    · rw [readReg_writeReg_ne (by decide), hx₁, readReg_writeReg (by decide)]

theorem Ascii.receiver (h : Paged.WellFormed Ascii.pages) (hold : Paged.Holds flash Ascii.pages) :
    Receiver Ascii.pages flash load translation Framing.start Flags (7 * pageClocks) := by
  have hn : Ascii.pages[0]? = some initPage := rfl
  have hlen : 1 < Ascii.pages.length := by
    rw [Ascii.pages_length]
    decide
  have hi1 : initPage.instrs[1]? = some (.opImm .addi 4 0 0) := rfl
  have hi2 : initPage.instrs[2]? = some (.opImm .addi 5 0 0) := rfl
  have hi3 : initPage.instrs[3]? = some (.opImm .addi 6 0 0) := rfl
  have hq : Paged.Quiet (seen flash) 0 0 := seen_quiet h hold hn (.inl (by decide)) rfl
  refine ⟨Ascii.hasReceive h, hold, processes h hold, fun pg hpg => ?_, fun pg hpg => ?_, fun t regs mem => ?_⟩
  · cases hpg
    decide
  · have hbp : Ascii.pages[23]? = some bpPage := page_process (n := 0) (by decide)
    cases hbp.symm.trans hpg
    decide
  · obtain ⟨x₁, hx₁⟩ : ∃ x, x = writeReg regs 4 0 := ⟨_, rfl⟩
    obtain ⟨x₂, hx₂⟩ : ∃ x, x = writeReg x₁ 5 0 := ⟨_, rfl⟩
    obtain ⟨x₃, hx₃⟩ : ∃ x, x = writeReg x₂ 6 0 := ⟨_, rfl⟩
    refine ⟨writeReg x₃ 30 1, ?_, ⟨?_, ?_⟩, ?_⟩
    · refine Paged.chain_imm h hn hq hi1 (Nat.zero_le _) (v := 0) (BitVec.zero_add _) ?_
      rw [← hx₁]
      refine Paged.chain_imm h hn hq hi2 (Nat.zero_le _) (v := 0) (BitVec.zero_add _) ?_
      rw [← hx₂]
      refine Paged.chain_imm h hn hq hi3 (Nat.zero_le _) (v := 0) (BitVec.zero_add _) ?_
      rw [← hx₃]
      exact Paged.chain_leave h hn hq (m := 1) rfl (Nat.zero_le _) hlen rfl (.refl _)
    · rw [readReg_writeReg_ne (by decide), hx₃, readReg_writeReg_ne (by decide), hx₂, readReg_writeReg (by decide)]
      rfl
    · rw [readReg_writeReg_ne (by decide), hx₃, readReg_writeReg (by decide)]
      rfl
    · rw [readReg_writeReg_ne (by decide), hx₃, readReg_writeReg_ne (by decide), hx₂, readReg_writeReg_ne (by decide),
        hx₁, readReg_writeReg (by decide)]

end Instances

/-! ## Their runs -/

theorem filterMap_seen {flash : Bits.ByteMemory 14} (c : Nat × PState) :
    (seen flash c).filterMap Sum.getRight? = gpioStores flash (c.1, c.2.arch) := by
  have hright :
      ((gpioStores flash (c.1, c.2.arch)).map (Sum.inr : BitVec 8 → Word ⊕ BitVec 8)).filterMap Sum.getRight? =
      gpioStores flash (c.1, c.2.arch) := by
    rw [List.filterMap_map]
    exact List.filterMap_some
  rw [seen, events, List.filterMap_append, hright]
  split
  · rfl
  · rfl

section Chip

variable {γ : Type} {P : List Page} {M : Transducer γ (BitVec 8) (BitVec 8)} {g : γ} {good : γ → Regs → Prop}
  {time : Nat} {rom : Rom} {ui_in : Nat → BitVec 8} {other : Nat → Bool} {b : Nat → Board}
  (h : Receiver P (b 0).flash.mem (Env.chip rom (Board.inputs ui_in other b)).load M g good time)

include h

theorem Receiver.blind : Paged.Blind P (events (b 0).flash.mem) := by
  intro t σ pg hn hlen hj
  have hstore : gpioStores (b 0).flash.mem (t, σ.arch) = [] := blind_gpioStores h.receive.wf h.hold t σ pg hn hlen hj
  have hlt : σ.page < 256 := Nat.lt_of_lt_of_le (List.getElem?_eq_some_iff.mp hn).1 h.receive.wf.count
  have hat := @atPage_arch σ.page σ.index σ.regs σ.mem hlt hj (STOP_HIGH + 1) (by decide)
  have hne : ¬ St7789.AtPage (STOP_HIGH + 1) σ.arch := by
    intro hpage
    obtain ⟨hp, hi⟩ := hat.mp hpage
    rw [show σ.page = 23 from hp] at hn
    have := h.behind pg hn
    omega
  rw [events, hstore, if_neg hne]
  rfl

variable (hb : Board.Run rom ui_in other b) (h0 : (b 0).Ready)

include hb h0

/-- A path of the paged machine, with what the observers of the chip see of it. -/
theorem Receiver.run_path {c c' : Nat × PState} {os : List (Word ⊕ BitVec 8)}
    (hidx : ∀ pg, P[c.2.page]? = some pg → c.2.index ≤ pg.instrs.length)
    (hp : Path (Paged.step P (Env.chip rom (Board.inputs ui_in other b)).load) (seen (b 0).flash.mem) c os c')
    (hat : Top.At (Board.tops b) c.1 c.2.arch) :
    Top.At (Board.tops b) c'.1 c'.2.arch ∧ c.1 ≤ c'.1 ∧
      Top.emitted (Board.tops b) (events (b 0).flash.mem) c.1 c'.1 = os ∧
      Top.gpioWrites (Board.tops b) c.1 c'.1 = os.filterMap Sum.getRight? := by
  obtain ⟨hat', hle, hem⟩ := Top.run_path hb.top h0.atFetch (Board.agrees_flash hb h0)
    (Paged.simulate h.receive.wf h.hold h.blind hidx hp) hat
  refine ⟨hat', hle, hem, ?_⟩
  have hstores := hp.filterMap Sum.getRight?
  simp only [filterMap_seen] at hstores
  exact (Paged.run_stores h.receive.wf h.hold hb h0 hidx hstores hat).2.2

variable {t : Nat} {a : Arch} (hat : Top.At (Board.tops b) t a) (hstart : Paged.HandedOff a)

include hat hstart

/-- The keyboard gives the reader time: when a frame begins, the bytes of those before have been received and what they
give has been stored, and nothing else. -/
theorem Receiver.follows {idle : Nat} {bytes : List (BitVec 8)} {edge : Nat → Nat} (hs : Sends ui_in idle t bytes edge)
    (hidle : time + 1781 ≤ idle) (hfirst : t + pageClocks ≤ edge 0) (k : Nat) (hk : k ≤ bytes.length) :
    Top.emitted (Board.tops b) (events (b 0).flash.mem) t (edge (22 * k)) = (M.traced word).outputs g (bytes.take k) ∧
      Top.gpioWrites (Board.tops b) t (edge (22 * k)) = M.outputs g (bytes.take k) := by
  obtain ⟨regs₁, hp₁, hg₁, h4₁⟩ := h.begin t a.regs a.mem
  unfold pageClocks at hfirst
  obtain ⟨t₂, regs₂, mem₂, hp₂, hle₂, hedge, -, -, -, hhigh⟩ :=
    @frames_path γ P (b 0).flash.mem rom (Board.inputs ui_in other b) M good time h.receive h.hold h.process (t + 1370)
      regs₁ a.mem g t idle bytes edge hs hidle (by omega) (by omega) hg₁ h4₁ k hk
  obtain ⟨T, σ, hT, hp₃⟩ :=
    @poll_until P (b 0).flash.mem rom (Board.inputs ui_in other b) h.receive h.hold t₂ regs₂ mem₂ 1 le_rfl (by decide)
      (edge (22 * k)) hhigh
  have harch : Top.At (Board.tops b) t (PState.mk 0 1 a.regs a.mem).arch := (Paged.start_arch hstart).symm ▸ hat
  have hp : Path (Paged.step P (Env.chip rom (Board.inputs ui_in other b)).load) (seen (b 0).flash.mem)
      (t, ⟨0, 1, a.regs, a.mem⟩) ((M.traced word).outputs g (bytes.take k)) (t₂, ⟨1, 0, regs₂, mem₂⟩) :=
    hp₁.path hp₂
  obtain ⟨hat₂, hle, hem, hws⟩ := h.run_path hb h0 h.first hp harch
  obtain ⟨-, hle₃, hem₃, hws₃⟩ := h.run_path hb h0 (fun _ _ => Nat.zero_le _) hp₃ hat₂
  -- nothing happens until the next frame
  have hquiet : Top.emitted (Board.tops b) (events (b 0).flash.mem) t₂ (edge (22 * k)) = [] :=
    List.prefix_nil.mp (hem₃ ▸ Top.emitted_prefix hT)
  constructor
  · rw [Top.emitted_append hle hedge, hem, hquiet, List.append_nil]
  · rw [Top.gpioWrites_append hle hedge, hws, Top.gpioWrites_eq_nil_mono hws₃ hT, List.append_nil,
      Transducer.filterMap_traced]

/-- On every waveform: what is received and stored before cycle `T` is a part of what some bytes give, and eleven low
samples of CLOCK that are apart have been taken for each of these bytes. -/
theorem Receiver.follows_some (T : Nat) : ∃ bytes, ∃ lows : List Nat,
    Top.emitted (Board.tops b) (events (b 0).flash.mem) t T <+: (M.traced word).outputs g bytes ∧
      Top.gpioWrites (Board.tops b) t T <+: M.outputs g bytes ∧ 11 * bytes.length ≤ lows.length ∧
      (lows.Pairwise fun s s' => s' + 2 * leastPageClocks ≤ s) ∧
      ∀ s ∈ lows, t ≤ s ∧ s < T ∧ clock (ui_in s) = false := by
  obtain ⟨regs₁, hp₁, hg₁, h4₁⟩ := h.begin t a.regs a.mem
  have harch : Top.At (Board.tops b) t (PState.mk 0 1 a.regs a.mem).arch := (Paged.start_arch hstart).symm ▸ hat
  have part : ∀ (c' : Nat × PState) (bytes : List (BitVec 8)), T ≤ c'.1 →
      Path (Paged.step P (Env.chip rom (Board.inputs ui_in other b)).load) (seen (b 0).flash.mem)
        (t, ⟨0, 1, a.regs, a.mem⟩) ((M.traced word).outputs g bytes) c' →
      Top.emitted (Board.tops b) (events (b 0).flash.mem) t T <+: (M.traced word).outputs g bytes ∧
        Top.gpioWrites (Board.tops b) t T <+: M.outputs g bytes := by
    intro c' bytes hT hp
    obtain ⟨-, -, hem, hws⟩ := h.run_path hb h0 h.first hp harch
    rw [Transducer.filterMap_traced] at hws
    rw [← hem, ← hws]
    exact ⟨Top.emitted_prefix hT, Top.gpioWrites_prefix hT⟩
  by_cases hT : t + 1370 ≤ T
  · have hprogress : Progress P (b 0).flash.mem rom (Board.inputs ui_in other b) M good g (t, ⟨0, 1, a.regs, a.mem⟩)
        (t + 1370, ⟨1, 0, regs₁, a.mem⟩) [] [] :=
      ⟨hp₁, ⟨le_rfl, Nat.le_of_ble_eq_true rfl⟩, rfl, hg₁, ⟨0, h4₁⟩, by simp, by simp, .nil, by simp⟩
    obtain ⟨c', bytes, lows, hp, hlt, hcount, hapart, hlows⟩ :=
      hprogress.run h.receive h.hold h.process (Nat.le_add_right _ _) hT
    obtain ⟨hem, hws⟩ := part _ _ hlt.le hp
    exact ⟨bytes, lows, hem, hws, hcount, hapart, hlows⟩
  · obtain ⟨hem, hws⟩ := part (t + 1370, ⟨1, 0, regs₁, a.mem⟩) [] (by simp only; omega) hp₁
    exact ⟨[], [], hem, hws, le_rfl, .nil, by simp⟩

end Chip

end Ps2

end Pineapple
