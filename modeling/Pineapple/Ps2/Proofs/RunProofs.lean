import Pineapple.Ps2.Proofs.AsciiProofs

/-!
# Proofs: runs of the readers

A reader that is in step with the frames receives each of them once and stores what its transducer emits. On any
waveform at all it stores what the transducer emits for the bytes that it has received.
-/

namespace Pineapple

open Clocked
open Rv32i (Instr Word Reg readReg writeReg)

namespace Ps2

/-- How far a run from `c₀` is: at the beginning of a page, with `bytes` received and CLOCK seen low in the cycles
`lows`, the last one first. A frame needs eleven of them, and between two of them the reader goes through a page that
waits for CLOCK high. -/
structure Progress {γ : Type} (P : List Page) (flash : Bits.ByteMemory 14) (rom : Rom) (inp : Nat → Inputs)
    (M : Transducer γ (BitVec 8) (BitVec 8)) (good : γ → Regs → Prop) (g : γ) (c₀ c : Nat × PState)
    (bytes : List (BitVec 8)) (lows : List Nat) : Prop where
  path : Path (Paged.step P (Env.chip rom inp).load) (seen flash) c₀ ((M.traced word).outputs g bytes) c
  page : 1 ≤ c.2.page ∧ c.2.page ≤ 23
  index : c.2.index = 0
  good : good (M.after g bytes) c.2.regs
  accum : ∃ byte, readReg c.2.regs 4 = word byte
  count : lows.length = 11 * bytes.length + c.2.page / 2
  low : ∀ s ∈ lows, c₀.1 ≤ s ∧ clockLine inp s = false
  apart : lows.Pairwise fun s s' => s' + 2 * leastPageClocks ≤ s
  last : ∀ s ∈ lows, s + 1234 + 1370 * (c.2.page % 2) ≤ c.1

section Runs

variable {γ : Type} {P : List Page} {flash : Bits.ByteMemory 14} {rom : Rom} {inp : Nat → Inputs}
  {M : Transducer γ (BitVec 8) (BitVec 8)} {good : γ → Regs → Prop} {time : Nat} (hP : HasReceive P)
  (hold : Paged.Holds flash P)
  (hproc : Processes P (Env.chip rom inp).load (seen flash) (M.traced word) good time)
  {t : Nat} {regs : Regs} {mem : MemRegs} {g : γ}

include hP hold

/-- The poll loop while CLOCK has the other level. -/
theorem poll_until {n : Nat} (h1 : 1 ≤ n) (h22 : n ≤ 22) (T : Nat)
    (hwait : ∀ τ, t ≤ τ → τ < T → clock (inp τ).ui_in = !phaseLevel (n - 1)) :
    ∃ T' σ, T ≤ T' ∧ Silent (Paged.step P (Env.chip rom inp).load) (seen flash) (t, ⟨n, 0, regs, mem⟩) (T', σ) := by
  have hq := receive_quiet hP hold
  have hn := hP.page n h1 h22
  -- the first turn whose sample is behind
  have hsome : ∃ m, T ≤ t + 411 * m + 137 := ⟨T, by omega⟩
  obtain ⟨m, hm, hmin⟩ : ∃ m, T ≤ t + 411 * m + 137 ∧ ∀ j < m, ¬ T ≤ t + 411 * j + 137 :=
    ⟨Nat.find hsome, Nat.find_spec hsome, fun j hj => Nat.find_min hsome hj⟩
  obtain ⟨regs', -, -, hp⟩ := @poll_turns _ P (seen flash) rom inp hP hq n h1 h22 t regs mem m fun j hj =>
    hwait _ (by omega) (by have := hmin j hj; omega)
  refine ⟨t + 411 * m + 137, ⟨n, 0 + 1, writeReg regs' 1 ((inp (t + 411 * m + 136)).ui_in.setWidth 32), mem⟩, hm,
    hp.trans ?_⟩
  exact Paged.chain_gpio_in hP.wf hn (hq n h1 h22) (poll_instrs n).1 (Nat.zero_le _) (.refl _)

/-! ## Frames -/

include hproc

/-- From START_LOW, the frames one after the other. -/
theorem frames_path {t₀ idle : Nat} {bytes : List (BitVec 8)} {edge : Nat → Nat}
    (hs : Sends (fun τ => (inp τ).ui_in) idle t₀ bytes edge) (hidle : time + 1781 ≤ idle) (h0 : t₀ ≤ t)
    (hfirst : t ≤ edge 0) (hg : good g regs) (h4 : readReg regs 4 = 0) (k : Nat) (hk : k ≤ bytes.length) :
    ∃ t' regs' mem', Path (Paged.step P (Env.chip rom inp).load) (seen flash) (t, ⟨1, 0, regs, mem⟩)
        ((M.traced word).outputs g (bytes.take k)) (t', ⟨1, 0, regs', mem'⟩) ∧
      t ≤ t' ∧ t' ≤ edge (22 * k) ∧ InStep (clockLine inp) edge 410 (22 * k) (t' + 136) ∧
      good (M.after g (bytes.take k)) regs' ∧ readReg regs' 4 = 0 ∧
      ∀ τ, t' ≤ τ → τ < edge (22 * k) → clockLine inp τ = true := by
  induction k with
  | zero =>
    have hhigh : ∀ τ, t ≤ τ → τ < edge 0 → clockLine inp τ = true := fun τ h1 h2 => hs.before τ (h0.trans h1) h2
    have hlag : t + 136 ≤ edge 0 + 410 := by omega
    exact ⟨t, regs, mem, .nil _, le_rfl, hfirst, ⟨fun τ h1 h2 => hhigh τ (by omega) h2, hlag⟩, hg, h4, hhigh⟩
  | succ k ih =>
    obtain ⟨t₁, regs₁, mem₁, hp₁, hle₁, hedge, hstep, hg₁, h4₁, -⟩ := ih (by omega)
    obtain ⟨t₂, regs₂, hle₂, hkept, h4₂, -, hbound, hp₂⟩ :=
      @frame_path _ P (seen flash) rom inp hP (receive_quiet hP hold) idle t₀ bytes edge hs k t₁ regs₁ mem₁ hk hstep h4₁
        22 le_rfl
    obtain ⟨hlo₂, hhi₂⟩ := hbound 21 rfl
    have hbyte : bytes.getD k 0 = bytes[k] := by
      rw [List.getD_eq_getElem?_getD, List.getElem?_eq_getElem hk, Option.getD_some]
    rw [show bitsBefore (22 + 1) = 8 from rfl, firstBits_eight, hbyte] at h4₂
    obtain ⟨t₃, regs₃, mem₃, hp₃, hlt₃, hle₃, hg₃, h4₃⟩ :=
      hproc.process _ _ t₂ regs₂ mem₁ (hproc.kept _ _ _ hkept hg₁) h4₂
    have hphase := hs.phase (22 * k + 21) (by omega)
    have hnext : 22 * k + 21 + 1 = 22 * (k + 1) := by omega
    have hquiet := hs.idle k hk
    have hin : InStep (clockLine inp) edge 410 (22 * k + 21 + 1) (t₃ + 136) :=
      hphase.next (by omega) (by rw [hnext]; omega)
    have htake : bytes.take (k + 1) = bytes.take k ++ [bytes[k]] := (List.take_append_getElem hk).symm
    refine ⟨t₃, regs₃, mem₃, ?_, by omega, by omega, hnext ▸ hin, ?_, h4₃, fun τ h1 h2 => ?_⟩
    · rw [htake, Transducer.outputs_append]
      have hlast : (M.traced word).outputs ((M.traced word).after g (bytes.take k)) [bytes[k]] =
          (M.traced word).emits (M.after g (bytes.take k)) bytes[k] := List.append_nil _
      rw [hlast]
      exact hp₁.trans (hp₂.path hp₃)
    · rw [htake, Transducer.after_append]
      exact hg₃
    · rw [← hnext] at h2
      refine (hphase τ (by omega) h2).trans ?_
      unfold phaseLevel
      exact decide_eq_true (by omega)

/-! ## Any waveform -/

/-- One page more, or one turn of its loop. -/
theorem Progress.next {c₀ c : Nat × PState} {bytes : List (BitVec 8)} {lows : List Nat}
    (h : Progress P flash rom inp M good g c₀ c bytes lows) (hle : c₀.1 ≤ c.1) :
    ∃ c' bytes' lows', Progress P flash rom inp M good g c₀ c' bytes' lows' ∧ c.1 < c'.1 ∧
      11 * bytes'.length ≤ lows.length := by
  obtain ⟨t, ⟨n, j, regs, mem⟩⟩ := c
  obtain ⟨hp, ⟨h1, h23⟩, rfl, hg, ⟨byte, h4⟩, hcount, hlow, hapart, hlast⟩ := h
  simp only at h1 h23 hg h4 hcount hlast hle
  have hq := receive_quiet hP hold
  by_cases hlastPage : n = 23
  · -- the frame is complete
    obtain rfl := hlastPage
    obtain ⟨t', regs', mem', hp', hlt, -, hg', h4'⟩ := hproc.process _ byte t regs mem hg h4
    have hone : (M.traced word).outputs g (bytes ++ [byte]) =
        (M.traced word).outputs g bytes ++ (M.traced word).emits (M.after g bytes) byte := by
      rw [Transducer.outputs_append]
      exact congrArg _ (List.append_nil _)
    refine ⟨(t', ⟨1, 0, regs', mem'⟩), bytes ++ [byte], lows, ⟨?_, ⟨le_rfl, Nat.le_of_ble_eq_true rfl⟩, rfl, ?_,
      ⟨0, h4'⟩, ?_, hlow, hapart, ?_⟩, hlt, ?_⟩
    · rw [hone]
      exact hp.trans hp'
    · rw [Transducer.after_append]
      exact hg'
    · rw [List.length_append, hcount, List.length_singleton]
      show 11 * bytes.length + 23 / 2 = 11 * (bytes.length + 1) + 1 / 2
      omega
    · intro s hs
      have := hlast s hs
      simp only
      omega
    · rw [List.length_append, hcount, List.length_singleton]
      omega
  have hbytes : 11 * bytes.length ≤ lows.length := by omega
  by_cases hsee : clockLine inp (t + 136) = phaseLevel (n - 1)
  · -- the sample sees the level
    have hdet : Detects (clockLine inp) 411 (n - 1) (t + 136) 0 := ⟨hsee, fun j hj => absurd hj (Nat.not_lt_zero j)⟩
    obtain ⟨t', regs', hlo, -, -, hkept, h4', hp'⟩ :=
      @receive_page _ P (seen flash) rom inp hP hq n h1 (by omega) t regs mem 0 hdet
    rw [h4, word_or] at h4'
    have hg' := hproc.kept _ _ _ hkept hg
    have hpath := hp.trans hp'
    rw [List.append_nil] at hpath
    by_cases hodd : n % 2 = 1
    · refine ⟨(t', ⟨n + 1, 0, regs', mem⟩), bytes, (t + 136) :: lows, ⟨hpath,
        ⟨Nat.le_add_left 1 n, show n + 1 ≤ 23 by omega⟩, rfl,
        hg', ⟨_, h4'⟩, ?_, ?_, ?_, ?_⟩, by simp only; omega, hbytes⟩
      · rw [List.length_cons, hcount]
        simp only
        omega
      · intro s hs
        rcases List.mem_cons.mp hs with rfl | hs
        · refine ⟨by omega, hsee.trans ?_⟩
          unfold phaseLevel
          exact decide_eq_false (by omega)
        · exact hlow s hs
      · refine List.pairwise_cons.mpr ⟨fun s hs => ?_, hapart⟩
        have := hlast s hs
        unfold leastPageClocks
        omega
      · intro s hs
        simp only
        rcases List.mem_cons.mp hs with rfl | hs
        · omega
        · have := hlast s hs
          omega
    · refine ⟨(t', ⟨n + 1, 0, regs', mem⟩), bytes, lows, ⟨hpath,
        ⟨Nat.le_add_left 1 n, show n + 1 ≤ 23 by omega⟩, rfl, hg',
        ⟨_, h4'⟩, ?_, hlow, hapart, ?_⟩, by simp only; omega, hbytes⟩
      · rw [hcount]
        simp only
        omega
      · intro s hs
        have := hlast s hs
        simp only
        omega
  · -- another turn
    obtain ⟨hkept, hx4, -⟩ := kept_polled regs (inp (t + 136)).ui_in
    have hturn : Silent (Paged.step P (Env.chip rom inp).load) (seen flash) (t, ⟨n, 0, regs, mem⟩)
        (t + 411, ⟨n, 0, polled regs (inp (t + 136)).ui_in, mem⟩) := by
      refine poll_turn hP hq h1 (by omega) ?_
      rw [if_neg hsee]
      exact .refl _
    have hpath := hp.trans hturn
    rw [List.append_nil] at hpath
    refine ⟨_, bytes, lows, ⟨hpath, ⟨h1, h23⟩, rfl, hproc.kept _ _ _ hkept hg, ⟨byte, hx4.trans h4⟩, hcount, hlow,
      hapart,
      ?_⟩, by simp only; omega, hbytes⟩
    intro s hs
    have := hlast s hs
    simp only
    omega

/-- A run past cycle `T`. The pages that have seen CLOCK low have done so before, and there are eleven of them for each
byte. -/
theorem Progress.run {c₀ c : Nat × PState} {bytes : List (BitVec 8)} {lows : List Nat}
    (h : Progress P flash rom inp M good g c₀ c bytes lows) (hle : c₀.1 ≤ c.1) {T : Nat} (hT : c.1 ≤ T) :
    ∃ c' bytes', ∃ lows' : List Nat,
      Path (Paged.step P (Env.chip rom inp).load) (seen flash) c₀ ((M.traced word).outputs g bytes') c' ∧
      T < c'.1 ∧ 11 * bytes'.length ≤ lows'.length ∧ (lows'.Pairwise fun s s' => s' + 2 * leastPageClocks ≤ s) ∧
      ∀ s ∈ lows', c₀.1 ≤ s ∧ s < T ∧ clockLine inp s = false := by
  obtain ⟨d, hd⟩ : ∃ d, d = T - c.1 := ⟨_, rfl⟩
  induction d using Nat.strong_induction_on generalizing c bytes lows with
  | _ d ih =>
    obtain ⟨c', bytes', lows', h', hlt, hcount⟩ := h.next hP hold hproc hle
    by_cases hT' : c'.1 ≤ T
    · exact ih (T - c'.1) (by omega) h' (by omega) hT' rfl
    · refine ⟨c', bytes', lows, h'.path, by omega, hcount, h.apart, fun s hs => ?_⟩
      obtain ⟨h1, h2⟩ := h.low s hs
      have := h.last s hs
      exact ⟨h1, by omega, h2⟩

end Runs

end Ps2

end Pineapple
