import Pineapple.Ps2.Proofs.FrameProofs

/-!
# Proofs: what the readers do with a byte

When a frame is complete the raw reader stores ACCUM, and the other reader goes through the pages that handle the
prefixes to the page of the scancode. Then they are back at START_LOW with ACCUM zero.
-/

namespace Pineapple

open Clocked
open Rv32i (Instr Word Reg readReg writeReg)

namespace Ps2

/-! ## The observer -/

/-- The observer of the paged machine. -/
def seen (flash : Bits.ByteMemory 14) (c : Nat × PState) : List (Word ⊕ BitVec 8) := events flash (c.1, c.2.arch)

section Observer

variable {P : List Page} {flash : Bits.ByteMemory 14} {n j : Nat} {pg : Page} {regs : Regs} {mem : MemRegs} {t : Nat}

theorem atPage_arch (hn : n < 256) (hj : j < 11) (m : Nat) (hm : m < 256) :
    St7789.AtPage m (PState.mk n j regs mem).arch ↔ n = m ∧ j = 0 := by
  have hpc : windowAddr j = 0xB4 ↔ j = 0 := by
    have := windowAddr_toNat hj
    constructor
    · intro h
      rw [h] at this
      change 0xB4 = 0xB4 + 4 * j at this
      omega
    · rintro rfl
      rfl
  have hpage : BitVec.ofNat 8 n = BitVec.ofNat 8 m ↔ n = m := by
    constructor
    · intro h
      have := congrArg BitVec.toNat h
      rw [BitVec.toNat_ofNat, BitVec.toNat_ofNat] at this
      omega
    · rintro rfl
      rfl
  constructor
  · intro h
    exact ⟨hpage.mp h.flash_page, hpc.mp h.pc⟩
  · rintro ⟨rfl, rfl⟩
    exact ⟨rfl, rfl, rfl⟩

/-- An instruction of a page. -/
theorem seen_instr (h : Paged.WellFormed P) (hold : Paged.Holds flash P) (hn : P[n]? = some pg) {i : Instr}
    (hi : pg.instrs[j]? = some i) : seen flash (t, ⟨n, j, regs, mem⟩) =
      (if n = 23 ∧ j = 0 then [.inl (readReg regs 4)] else []) ++
        ((PState.mk n j regs mem).arch.gpioStore i).map .inr := by
  have hlt : n < 256 := Nat.lt_of_lt_of_le (List.getElem?_eq_some_iff.mp hn).1 h.count
  have hj : j < 9 := Paged.index_lt (σ := ⟨n, j, regs, mem⟩) h hn hi
  have hat := @atPage_arch n j regs mem hlt (by omega) (STOP_HIGH + 1) (by decide)
  rw [seen, events, gpioStores_arch (σ := ⟨n, j, regs, mem⟩) hold hn (Paged.full_of_instrs hi)]
  exact congrArg (· ++ _) (if_congr hat rfl rfl)

/-- A page without stores, but for its first instruction if the page is entered when a frame is complete. -/
theorem seen_quiet (h : Paged.WellFormed P) (hold : Paged.Holds flash P) (hn : P[n]? = some pg) {k : Nat}
    (hk : n ≠ 23 ∨ 0 < k) (hstore : (pg.instrs.drop k).all fun i => !i.isStore) : Paged.Quiet (seen flash) n k := by
  intro t j regs mem hkj hj9
  have hnone : gpioStores flash (t, (PState.mk n j regs mem).arch) = [] :=
    Paged.quiet_stores h hold hn hstore t j regs mem hkj hj9
  have hlt : n < 256 := Nat.lt_of_lt_of_le (List.getElem?_eq_some_iff.mp hn).1 h.count
  have hat := @atPage_arch n j regs mem hlt (by omega) (STOP_HIGH + 1) (by decide)
  have hne : ¬ (n = STOP_HIGH + 1 ∧ j = 0) := by
    rintro ⟨rfl, rfl⟩
    rcases hk with hk | hk
    · exact hk rfl
    · omega
  rw [seen, events, hnone, if_neg (fun h => hne (hat.mp h))]
  rfl

theorem receive_quiet (hP : HasReceive P) (hold : Paged.Holds flash P) :
    ∀ n, 1 ≤ n → n ≤ 22 → Paged.Quiet (seen flash) n 0 := by
  intro n h1 h22
  refine seen_quiet hP.wf hold (hP.page n h1 h22) (.inl (by omega)) ?_
  unfold receivePage
  split
  · rfl
  · unfold waitPage
    split
    · rfl
    · rfl

end Observer

/-! ## Processing a byte -/

/-- From the page behind the receive pages the program emits what `M` emits for the byte in ACCUM, and is back at
START_LOW within `time` clocks. `good` says what the registers hold of the state of `M`. -/
structure Processes {γ O : Type} (P : List Page) (load : Nat → Arch → Instr → Word) (out : Nat × PState → List O)
    (M : Transducer γ (BitVec 8) O) (good : γ → Regs → Prop) (time : Nat) : Prop where
  kept : ∀ g regs regs', Kept regs regs' → good g regs → good g regs'
  process : ∀ g byte t regs mem, good g regs → readReg regs 4 = word byte → ∃ t' regs' mem',
    Path (Paged.step P load) out (t, ⟨23, 0, regs, mem⟩) (M.emits g byte) (t', ⟨1, 0, regs', mem'⟩) ∧
      t < t' ∧ t' ≤ t + time ∧ good (M.next g byte) regs' ∧ readReg regs' 4 = 0

theorem low_word (byte : BitVec 8) : (word byte).extractLsb' 0 8 = byte := by
  unfold word
  rw [← BitVec.setWidth_eq_extractLsb' (by decide), BitVec.setWidth_setWidth_of_le _ (by decide), BitVec.setWidth_eq]

theorem reader_processes {flash : Bits.ByteMemory 14} {load : Nat → Arch → Instr → Word}
    (h : Paged.WellFormed Reader.pages) (hold : Paged.Holds flash Reader.pages) :
    Processes Reader.pages load (seen flash) (echo.traced word) (fun _ _ => True) pageClocks := by
  refine ⟨fun _ _ _ _ _ => trivial, fun _ byte t regs mem _ h4 => ?_⟩
  have hn : Reader.pages[23]? = some Reader.resultPage := rfl
  have hi0 : Reader.resultPage.instrs[0]? = some (.store .sw 4 0 0xF0) := rfl
  have hi1 : Reader.resultPage.instrs[1]? = some (.opImm .addi 4 0 0) := rfl
  have hq : Paged.Quiet (seen flash) 23 1 := seen_quiet h hold hn (.inr (by decide)) rfl
  obtain ⟨x₁, hx₁⟩ : ∃ x, x = writeReg regs 4 0 := ⟨_, rfl⟩
  refine ⟨t + 137 + 137 + 137 * 9, writeReg x₁ 30 1, { mem with gpio_out := byte }, ?_, by omega, ?_, trivial, ?_⟩
  · have hstore : Paged.step Reader.pages load (t, ⟨23, 0, regs, mem⟩) =
        some (t + 137, ⟨23, 1, regs, { mem with gpio_out := byte }⟩) := by
      have hs : Paged.step Reader.pages load (t, ⟨23, 0, regs, mem⟩) = _ :=
        Paged.step_gpio (σ := ⟨23, 0, regs, mem⟩) h hn hi0
      rw [hs, show readReg (PState.mk 23 0 regs mem).regs 4 = word byte from h4, low_word]
      rfl
    have hseen : seen flash (t, ⟨23, 0, regs, mem⟩) = (echo.traced word).emits () byte := by
      have hlow : (readReg (PState.mk 23 0 regs mem).arch.regs 4).extractLsb' 0 8 = byte := by
        rw [show readReg (PState.mk 23 0 regs mem).arch.regs 4 = word byte from h4, low_word]
      rw [seen_instr h hold hn hi0, if_pos ⟨rfl, rfl⟩, gpioStore_out, hlow, h4]
      rfl
    have hrest : Silent (Paged.step Reader.pages load) (seen flash)
        (t + 137, ⟨23, 1, regs, { mem with gpio_out := byte }⟩)
        (t + 137 + 137 + 137 * 9, ⟨1, 0, writeReg x₁ 30 1, { mem with gpio_out := byte }⟩) := by
      refine Paged.chain_imm h hn hq hi1 le_rfl (v := 0) (BitVec.zero_add _) ?_
      rw [← hx₁]
      exact Paged.chain_leave h hn hq (m := 1) rfl (by decide) (by decide) rfl (.refl _)
    have hp := (Path.one hstore hseen).trans hrest
    rwa [List.append_nil] at hp
  · unfold pageClocks
    omega
  · rw [readReg_writeReg_ne (by decide), hx₁, readReg_writeReg (by decide)]

end Ps2

end Pineapple
