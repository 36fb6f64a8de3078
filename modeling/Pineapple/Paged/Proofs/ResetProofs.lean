import Pineapple.Paged.Proofs.HandoffProofs
import Pineapple.Paged.Proofs.StoreProofs

/-!
# Proofs: an image in the flash, from reset

The stub hands over to page 0, behind the dead NOP, and from there on every run of the paged machine is the run of the
chip, in the instructions that are fetched and in the bytes that are stored in GPIO_OUT.
-/

namespace Pineapple

open Clocked
open Rv32i (Instr Word readReg)

/-! ## The output pins -/

/-- The pins show the last byte that was stored. -/
theorem Top.uo_out_last {rom : Rom} {inp : Nat → Inputs} {s : Nat → Top} (hs : Top.Run rom inp s) (t : Nat) :
    (s t).uo_out = (Top.gpioWrites s 0 t).getLastD (s 0).uo_out := by
  induction t with
  | zero => rfl
  | succ t ih =>
    have hone : Top.gpioWrites s t (t + 1) =
        if (s t).core.mem_we = true ∧ (s t).core.mem_addr = 0xF0 then [(s t).core.mem_wdata.extractLsb' 0 8]
        else [] := by
      rw [Top.gpioWrites, Nat.add_sub_cancel_left]
      show [t].filterMap _ = _
      rw [List.filterMap_cons, List.filterMap_nil]
      split
      · rename_i hnone
        rw [if_neg fun h => absurd ((if_pos h).symm.trans hnone) (by simp)]
      · rename_i hsome
        split at hsome
        · rename_i h
          rw [if_pos h, Option.some.inj hsome]
        · cases hsome
    rw [Boot.uo_out_succ hs, ih, Top.gpioWrites_append (Nat.zero_le t) (Nat.le_succ t), hone]
    split
    · rw [List.getLastD_concat]
    · rw [List.append_nil]

namespace Paged

/-! ## What is seen of a program in pages -/

variable {P : List Page} {flash : Bits.ByteMemory 14} {c c' : Nat × PState}

/-- The state is on a page of the program. -/
def OnPage (P : List Page) (σ : PState) : Prop := ∃ pg, P[σ.page]? = some pg ∧ σ.index ≤ pg.instrs.length

/-- The places are those of the caller. -/
theorem seen_place (h : WellFormed P) {t : Nat} {σ : PState} (hσ : OnPage P σ) :
    (seen P (t, σ)).filterMap Sum.getLeft? = callers P (t, σ.arch) := by
  obtain ⟨pg, hn, hle⟩ := hσ
  have hroom := h.room hn
  have hcaller : caller P σ = if (instrAt P σ).isSome then [(σ.page, σ.index)] else [] := rfl
  rw [callers_arch h hn (by omega), hcaller]
  unfold seen
  dsimp only
  cases instrAt P σ with
  | none => rfl
  | some i => simp [List.filterMap_map, Function.comp_def]

/-- The bytes are those that are stored. -/
theorem seen_byte (h : WellFormed P) (hold : Holds flash P) {t : Nat} {σ : PState} (hσ : OnPage P σ) :
    (seen P (t, σ)).filterMap Sum.getRight? = gpioStores flash (t, σ.arch) := by
  obtain ⟨pg, hn, hle⟩ := hσ
  have hroom := h.room hn
  have hat : instrAt P σ = pg.instrs[σ.index]? := by rw [instrAt, hn, Option.bind_some]
  unfold seen
  dsimp only
  rw [hat]
  cases hi : pg.instrs[σ.index]? with
  | none =>
    rw [blind_gpioStores h hold t σ pg hn (List.getElem?_eq_none_iff.mp hi) (by omega)]
    rfl
  | some i =>
    rw [gpioStores_arch hold hn (full_of_instrs hi), List.filterMap_cons_none rfl, List.filterMap_map]
    exact List.filterMap_some

/-! ## The run -/

section Run

variable {rom : Rom} {ui_in : Nat → BitVec 8} {other : Nat → Bool} {b : Nat → Board}

/-- Observers of the chip that see what `f` keeps of a program in pages. -/
theorem simulate_seen {O : Type} {f : (Nat × Nat) ⊕ BitVec 8 → Option O} {out : Nat × Arch → List O}
    {inp : Nat → Inputs} (h : WellFormed P) (hold : Holds flash P) (hblind : Blind P out)
    (hout : ∀ t σ, OnPage P σ → (seen P (t, σ)).filterMap f = out (t, σ.arch)) {os : List ((Nat × Nat) ⊕ BitVec 8)}
    (hon : OnPage P c.2) (hp : Path (step P (Env.chip rom inp).load) (seen P) c os c') :
    Path (Env.flash flash rom inp).step out (c.1, c.2.arch) (os.filterMap f) (c'.1, c'.2.arch) := by
  refine (@Path.simulate _ _ _ _ _ _ _ (fun c : Nat × PState => (c.1, c.2.arch)) (fun c => OnPage P c.2)
    (fun c c' hon hs => ?_) _ _ _ (hp.filterMap f) hon).2
  have hidx : ∀ pg, P[c.2.page]? = some pg → c.2.index ≤ pg.instrs.length := by
    obtain ⟨pg, hn, hle⟩ := hon
    intro pg' hn'
    cases hn.symm.trans hn'
    exact hle
  obtain ⟨hidx', hpath⟩ := @simulate_step _ flash rom inp _ out h hold hblind _ _ hidx hs
  obtain ⟨pg, hn⟩ : ∃ pg, P[c'.2.page]? = some pg := ⟨_, List.getElem?_eq_getElem (page_of_step h hs).2⟩
  rw [← hout c.1 c.2 hon] at hpath
  exact ⟨⟨pg, hn, hidx' pg hn⟩, hpath⟩

/-- The run of the chip. -/
theorem run_seen (h : WellFormed P) (hb : Board.Run rom ui_in other b) (h0 : (b 0).Ready)
    (hold : Holds (b 0).flash.mem P) (hon : OnPage P c.2) (hat : Top.At (Board.tops b) c.1 c.2.arch)
    {os : List ((Nat × Nat) ⊕ BitVec 8)}
    (hp : Path (step P (Env.chip rom (Board.inputs ui_in other b)).load) (seen P) c os c') :
    Top.At (Board.tops b) c'.1 c'.2.arch ∧ c.1 ≤ c'.1 ∧
      Top.emitted (Board.tops b) (callers P) c.1 c'.1 = os.filterMap Sum.getLeft? ∧
      Top.gpioWrites (Board.tops b) c.1 c'.1 = os.filterMap Sum.getRight? := by
  have hfetch := simulate_seen h hold (blind_callers h) (fun _ _ hσ => seen_place h hσ) hon hp
  have hstore := simulate_seen h hold (blind_gpioStores h hold) (fun _ _ hσ => seen_byte h hold hσ) hon hp
  obtain ⟨hat', hle, hem⟩ := Top.run_path hb.top h0.atFetch (Board.agrees_flash hb h0) hfetch hat
  obtain ⟨-, -, hgpio⟩ := Top.run_gpioWrites hb.top h0.atFetch (Board.agrees_flash hb h0)
    (fun t a i => gpioStores_eq t a i) hstore hat
  exact ⟨hat', hle, hem, hgpio⟩

/-- An image in the flash is executed. From reset the demo loop makes some turns until it sees START; shortly after the
last bit of the stub the chip is at the instruction behind the dead NOP of page 0. From there on every run of the paged
machine is the run of the chip: the caller's instructions that are fetched are those of the run, and all that is stored
in GPIO_OUT from reset on is the counter of the demo loop and then what the program stores. -/
theorem image_runs {cs : List PagedCall} {p : PagedAsm} (hr : ∀ c ∈ cs, c.RegsOk)
    (hs : ∀ e r, PagedCall.ending e ∈ cs → e.scratch_reg = some r → r ≠ 0)
    (hp : PagedAsm.default.calls cs = .ok p) (hpages : 0 < p.pages.length) (hcount : p.pages.length ≤ 256)
    (hb : Board.Run bootRom ui_in other b) {b0 : Board} (hreset : b 0 = b0.reset)
    (hflash : InFlash b0.flash.mem p.finalize) {S : Nat} {rise fall : Nat → Nat} (hstub : SendsStub ui_in S rise fall) :
    ∃ k T, Boot.Turns (Board.inputs ui_in other b) k ∧ HandsOver (Board.tops b) T ∧ fall 39 ≤ T ∧ T ≤ fall 39 + 112 ∧
      Top.gpioWrites (Board.tops b) 0 T = Boot.demoStores (Board.inputs ui_in other b) k ∧
      ∀ t σ os, Path (step (pagesOf cs) (Env.chip bootRom (Board.inputs ui_in other b)).load) (seen (pagesOf cs))
          (T, start (Board.tops b T).arch) os (t, σ) →
        Top.At (Board.tops b) t σ.arch ∧ T ≤ t ∧
          Top.emitted (Board.tops b) (callers (pagesOf cs)) T t = os.filterMap Sum.getLeft? ∧
          Top.gpioWrites (Board.tops b) 0 t =
            Boot.demoStores (Board.inputs ui_in other b) k ++ os.filterMap Sum.getRight? := by
  obtain ⟨hready, hflash', k, T, hturns, hover, hlo, hhi, hdemo⟩ := board_hands_over hb hreset hflash hstub
  have hfin := finished_of_calls hr hp
  have hwf := wellFormed_of_finished hfin hcount (scratch_of_calls hr hs)
  have hold := holds_of_finished hfin hcount hflash'
  have hon : OnPage (pagesOf cs) (start (Board.tops b T).arch) := by
    obtain ⟨pg, hn⟩ : ∃ pg, (pagesOf cs)[0]? = some pg := ⟨_, List.getElem?_eq_getElem (hfin.length ▸ hpages)⟩
    obtain ⟨rest, hrest⟩ := (first_page cs).2 pg hn
    refine ⟨pg, hn, ?_⟩
    show 1 ≤ pg.instrs.length
    rw [Page.instrs, instrsOf_length, hrest]
    exact Nat.le_add_left 1 (rest.filterMap Call.form).length
  have hat : Top.At (Board.tops b) T (start (Board.tops b T).arch).arch := ⟨hover.fetch, (start_arch hover.handed).symm⟩
  refine ⟨k, T, hturns, hover, hlo, hhi, hdemo, fun t σ os hpath => ?_⟩
  obtain ⟨hat', hle, hem, hgpio⟩ := run_seen hwf hb hready hold hon hat hpath
  refine ⟨hat', hle, hem, ?_⟩
  rw [Top.gpioWrites_append (Nat.zero_le T) hle, hdemo, hgpio]

end Run

theorem image_runs_pingPong : ∃ p, PagedAsm.default.calls pingPong = .ok p ∧
    let ui_in := fun τ => (Boot.wave (BitVec.ofNat 8 stub.length :: stub) τ).ui_in
    let b := Clocked.run (fun (b : Board) (v : BitVec 8) => b.step bootRom v false) ui_in (handedOver p.finalize).reset
    ∃ k T, HandsOver (Board.tops b) T ∧
      ∀ t σ os, Path (step (pagesOf pingPong) (Env.chip bootRom (Board.inputs ui_in (fun _ => false) b)).load)
          (seen (pagesOf pingPong)) (T, start (Board.tops b T).arch) os (t, σ) →
        Top.gpioWrites (Board.tops b) 0 t =
          Boot.demoStores (Board.inputs ui_in (fun _ => false) b) k ++ os.filterMap Sum.getRight? := by
  obtain ⟨p, hp, hlen⟩ : ∃ p, PagedAsm.default.calls pingPong = .ok p ∧ p.pages.length = 2 := ⟨_, rfl, rfl⟩
  have hr : ∀ c ∈ pingPong, c.RegsOk := by decide
  have hs : ∀ e r, PagedCall.ending e ∈ pingPong → e.scratch_reg = some r → r ≠ 0 := by
    intro e r he hr
    simp only [pingPong, List.mem_cons, List.not_mem_nil, reduceCtorEq, false_or, or_false,
      PagedCall.ending.injEq] at he
    rcases he with rfl | rfl
    · cases hr
    · cases hr
      decide
  refine ⟨p, hp, ?_⟩
  intro ui_in b
  have hflash : InFlash (handedOver p.finalize).flash.mem p.finalize := by
    refine handedOver_inFlash ?_
    rw [finalize_length (finished_of_calls hr hp)]
    omega
  obtain ⟨k, T, -, hover, -, -, -, hrun⟩ := @image_runs ui_in (fun _ => false) b pingPong p hr hs hp
    (by omega) (by omega) (fun _ => rfl) (handedOver p.finalize) rfl hflash 0 _ _ (Boot.sends_wave _)
  exact ⟨k, T, hover, fun t σ os hpath => (hrun t σ os hpath).2.2.2⟩

end Paged

end Pineapple
