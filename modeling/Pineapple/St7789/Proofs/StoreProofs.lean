import Pineapple.Paged.Proofs.StoreProofs
import Pineapple.Spi.Proofs.Mode0Proofs
import Pineapple.St7789.Proofs.DelayProofs

/-!
# Proofs: the stores of the driver

The page of a bit makes two stores and goes to the next page, so the pages of bytes make the stores of the bytes; the
ring is run through once for each unit of `x5`.
-/

namespace Pineapple

open Clocked
open Rv32i (Instr Word Reg readReg writeReg)

namespace St7789

/-! ## Pages of bits and bytes -/

/-- What is stored of a register that an ADDI has loaded. -/
theorem low_immediate (regs : Regs) (v : Nat) :
    (readReg (writeReg regs 2 (Rv32i.ImmOp.eval .addi (readReg regs 0) ((BitVec.ofInt 12 v).signExtend 32)))
      2).extractLsb' 0 8 = BitVec.ofNat 8 v := by
  have hzero : Rv32i.ImmOp.eval .addi (readReg regs 0) ((BitVec.ofInt 12 v).signExtend 32) =
      (BitVec.ofInt 12 v).signExtend 32 := BitVec.zero_add _
  rw [readReg_writeReg (by decide), hzero, ← BitVec.setWidth_eq_extractLsb' (by decide),
    setWidth_signExtend_low _ (by decide), BitVec.ofInt_natCast]
  apply BitVec.eq_of_toNat_eq
  rw [BitVec.toNat_setWidth, BitVec.toNat_ofNat, BitVec.toNat_ofNat]
  omega

/-- The stores of a byte. -/
def byteStores (b : Int × Nat) : List (BitVec 8) :=
  Spi.Mode0.bitLevels (fun i => BitVec.ofNat 8 (setupVal b.1 b.2 i))
    (fun i => BitVec.ofNat 8 (setupVal b.1 b.2 i ||| 1)) 8

section Paths

variable (c : Config) (flash : Bits.ByteMemory 14) (load : Nat → Arch → Instr → Word)

/-- From the instruction `j` of page `m` the driver makes the stores `os` and gets to the beginning of page `m'`, with
`x5` unchanged. -/
def Goes (m j m' : Nat) (os : List (BitVec 8)) : Prop :=
  ∀ t regs mem, ∃ t' regs' mem', Path (Paged.step (pages c) load) (fun x => gpioStores flash (x.1, x.2.arch))
    (t, ⟨m, j, regs, mem⟩) os (t', ⟨m', 0, regs', mem'⟩) ∧ readReg regs' 5 = readReg regs 5

variable {c flash load}

theorem Goes.trans {m j m' m'' : Nat} {os os' : List (BitVec 8)} (h : Goes c flash load m j m' os)
    (h' : Goes c flash load m' 0 m'' os') : Goes c flash load m j m'' (os ++ os') := by
  intro t regs mem
  obtain ⟨t₁, regs₁, mem₁, h1, h5⟩ := h t regs mem
  obtain ⟨t₂, regs₂, mem₂, h2, h5'⟩ := h' t₁ regs₁ mem₁
  exact ⟨t₂, regs₂, mem₂, h1.trans h2, h5'.trans h5⟩

/-- One step, with its stores. -/
theorem store_step {x y : Nat × PState} {os : List (BitVec 8)} (h : Paged.step (pages c) load x = some y)
    (ho : gpioStores flash (x.1, x.2.arch) = os) :
    Path (Paged.step (pages c) load) (fun x => gpioStores flash (x.1, x.2.arch)) x os y := .one h ho

variable (hwf : Paged.WellFormed (pages c)) (hold : Paged.Holds flash (pages c))

include hwf hold

theorem bit_goes {v : Int} {dc n i : Nat} (hn : (pages c)[n + i]? = some (bitPage v dc n i)) (hlt : n + i + 1 < 165) :
    Goes c flash load (n + i) 0 (n + i + 1)
      [BitVec.ofNat 8 (setupVal v dc i), BitVec.ofNat 8 (setupVal v dc i ||| 1)] := by
  intro t regs mem
  have hinstr : ∀ {j : Nat} {x : Instr}, [Instr.opImm .addi 2 0 (BitVec.ofInt 12 (setupVal v dc i : Nat)),
      .store .sw 2 0 0xF0, .opImm .addi 2 0 (BitVec.ofInt 12 (setupVal v dc i ||| 1 : Nat)), .store .sw 2 0 0xF0][j]? =
        some x → (bitPage v dc n i).instrs[j]? = some x := fun h => h
  obtain ⟨regs₁, hregs₁⟩ : ∃ r, r = writeReg regs 2 (Rv32i.ImmOp.eval .addi (readReg regs 0)
    ((BitVec.ofInt 12 (setupVal v dc i : Nat)).signExtend 32)) := ⟨_, rfl⟩
  obtain ⟨regs₂, hregs₂⟩ : ∃ r, r = writeReg regs₁ 2 (Rv32i.ImmOp.eval .addi (readReg regs₁ 0)
    ((BitVec.ofInt 12 (setupVal v dc i ||| 1 : Nat)).signExtend 32)) := ⟨_, rfl⟩
  obtain ⟨regs₃, hregs₃⟩ : ∃ r, r = writeReg regs₂ 30 (BitVec.ofNat 32 (n + i + 1)) := ⟨_, rfl⟩
  -- the four instructions
  obtain ⟨mem₂, h0, h1⟩ : ∃ mem₂, Paged.step (pages c) load (t, ⟨n + i, 0, regs, mem⟩) =
      some (t + 137, ⟨n + i, 1, regs₁, mem⟩) ∧ Paged.step (pages c) load (t + 137, ⟨n + i, 1, regs₁, mem⟩) =
        some (t + 137 + 137, ⟨n + i, 2, regs₁, mem₂⟩) := by
    refine ⟨_, ?_, Paged.step_gpio hwf hn (hinstr rfl)⟩
    rw [hregs₁]
    exact Paged.step_opImm hwf hn (hinstr rfl)
  obtain ⟨mem₄, h2, h3⟩ : ∃ mem₄, Paged.step (pages c) load (t + 137 + 137, ⟨n + i, 2, regs₁, mem₂⟩) =
      some (t + 137 + 137 + 137, ⟨n + i, 3, regs₂, mem₂⟩) ∧
        Paged.step (pages c) load (t + 137 + 137 + 137, ⟨n + i, 3, regs₂, mem₂⟩) =
          some (t + 137 + 137 + 137 + 137, ⟨n + i, 4, regs₂, mem₄⟩) := by
    refine ⟨_, ?_, Paged.step_gpio hwf hn (hinstr rfl)⟩
    rw [hregs₂]
    exact Paged.step_opImm hwf hn (hinstr rfl)
  have hnext : (bitPage v dc n i).next ⟨n + i, 4, regs₂, mem₄⟩ = BitVec.ofNat 32 (n + i + 1) :=
    Paged.next_const rfl (by omega)
  have hnextn : ((bitPage v dc n i).next ⟨n + i, 4, regs₂, mem₄⟩).toNat = n + i + 1 := by
    rw [hnext, BitVec.toNat_ofNat]
    omega
  have h4 : Paged.step (pages c) load (t + 137 + 137 + 137 + 137, ⟨n + i, 4, regs₂, mem₄⟩) =
      some (t + 137 + 137 + 137 + 137 + 137 * 7, ⟨n + i + 1, 0, regs₃, mem₄⟩) := by
    have hs : Paged.step (pages c) load (t + 137 + 137 + 137 + 137, ⟨n + i, 4, regs₂, mem₄⟩) = _ :=
      Paged.step_leave hn rfl (by rw [hnextn, pages_length]; exact hlt)
    rw [hs, Page.leave, hnextn, hnext, hregs₃]
    rfl
  -- and what they store
  have hstore : ∀ (t j : Nat) (regs mem x), (bitPage v dc n i).instrs[j]? = some x →
      gpioStores flash (t, (PState.mk (n + i) j regs mem).arch) = (PState.mk (n + i) j regs mem).arch.gpioStore x :=
    fun t j regs mem x hx => gpioStores_arch (σ := ⟨n + i, j, regs, mem⟩) hold hn (Paged.full_of_instrs hx) t
  have hfirst : ∀ t mem, gpioStores flash (t, (PState.mk (n + i) 1 regs₁ mem).arch) =
      [BitVec.ofNat 8 (setupVal v dc i)] := by
    intro t mem
    rw [hstore t 1 regs₁ mem _ (hinstr rfl), gpioStore_out, hregs₁]
    exact congrArg (fun x => [x]) (low_immediate regs _)
  have hsecond : ∀ t mem, gpioStores flash (t, (PState.mk (n + i) 3 regs₂ mem).arch) =
      [BitVec.ofNat 8 (setupVal v dc i ||| 1)] := by
    intro t mem
    rw [hstore t 3 regs₂ mem _ (hinstr rfl), gpioStore_out, hregs₂]
    exact congrArg (fun x => [x]) (low_immediate regs₁ _)
  refine ⟨t + 137 + 137 + 137 + 137 + 137 * 7, regs₃, mem₄, ?_, ?_⟩
  · have p0 := store_step h0 ((hstore t 0 regs mem _ (hinstr rfl)).trans (gpioStore_of_isStore rfl))
    have p1 := store_step h1 (hfirst _ mem)
    have p2 := store_step h2 ((hstore _ 2 regs₁ mem₂ _ (hinstr rfl)).trans (gpioStore_of_isStore rfl))
    have p3 := store_step h3 (hsecond _ mem₂)
    have p4 := store_step h4 (blind_gpioStores hwf hold _ ⟨n + i, 4, regs₂, mem₄⟩ _ hn le_rfl
      (Nat.le_of_ble_eq_true rfl))
    exact (((p0.trans p1).trans p2).trans p3).trans p4
  · rw [hregs₃, readReg_writeReg_ne (by decide), hregs₂, readReg_writeReg_ne (by decide), hregs₁,
      readReg_writeReg_ne (by decide)]

/-- The pages of a byte. -/
theorem byte_goes {v : Int} {dc n : Nat} (hn : ∀ i < 8, (pages c)[n + i]? = some (bitPage v dc n i))
    (hlt : n + 8 < 165) : Goes c flash load n 0 (n + 8) (byteStores (v, dc)) := by
  have h : ∀ k ≤ 8, Goes c flash load n 0 (n + k) (Spi.Mode0.bitLevels (fun i => BitVec.ofNat 8 (setupVal v dc i))
      (fun i => BitVec.ofNat 8 (setupVal v dc i ||| 1)) k) := by
    intro k hk
    induction k with
    | zero => exact fun t regs mem => ⟨t, regs, mem, .nil _, rfl⟩
    | succ k ih =>
      rw [Spi.Mode0.bitLevels_succ]
      exact (ih (by omega)).trans (bit_goes hwf hold (hn k (by omega)) (by omega))
  exact h 8 le_rfl

/-- The pages of bytes one after the other. -/
theorem bytes_goes {bytes : List (Int × Nat)} {n : Nat}
    (hn : ∀ (k : Nat) (pg : Page), (bytesPages n bytes)[k]? = some pg → (pages c)[n + k]? = some pg)
    (hlt : n + 8 * bytes.length < 165) :
    Goes c flash load n 0 (n + 8 * bytes.length) (bytes.flatMap byteStores) := by
  induction bytes generalizing n with
  | nil => exact fun t regs mem => ⟨t, regs, mem, .nil _, rfl⟩
  | cons b bytes ih =>
    rw [List.length_cons] at hlt
    have hlen : (bytePages b.1 b.2 n).length = 8 := by rw [bytePages, List.length_map, List.length_range]
    have hbyte : Goes c flash load n 0 (n + 8) (byteStores b) := by
      refine byte_goes hwf hold (fun i hi => hn i _ ?_) (by omega)
      rw [bytesPages_cons, List.getElem?_append_left (by omega), bytePages, List.getElem?_map, List.getElem?_range hi]
      rfl
    have hrest := ih (n := n + 8) (fun k pg hk => ?_) (by omega)
    · rw [List.flatMap_cons, List.length_cons, show n + 8 * (bytes.length + 1) = n + 8 + 8 * bytes.length by omega]
      exact hbyte.trans hrest
    · rw [Nat.add_assoc]
      refine hn (8 + k) pg ?_
      rw [bytesPages_cons, List.getElem?_append_right (by omega), hlen, Nat.add_sub_cancel_left]
      exact hk

/-- A DELAY page stores nothing, from its beginning and from its loop with any value of the counter. -/
theorem delay_goes {n j : Nat} (hn : n = 9 ∨ n = 18) (hj : j = 0 ∨ j = 1) : Goes c flash load n j (n + 1) [] := by
  intro t regs mem
  have hpage : (pages c)[n]? = some (delayPage c ((n + 1 : Nat) : Int)) := delay_page_of hn
  have hnone : ∀ t j regs mem, j ≤ 4 → gpioStores flash (t, (PState.mk n j regs mem).arch) = [] := by
    intro t j regs mem hj
    have hstore : ∀ {x : Instr}, (delayPage c ((n + 1 : Nat) : Int)).instrs[j]? = some x → x.isStore = false →
        gpioStores flash (t, (PState.mk n j regs mem).arch) = [] := fun hx hs =>
      (gpioStores_arch (σ := ⟨n, j, regs, mem⟩) hold hpage (Paged.full_of_instrs hx) t).trans (gpioStore_of_isStore hs)
    have hcase : j = 0 ∨ j = 1 ∨ j = 2 ∨ j = 3 ∨ j = 4 := by omega
    rcases hcase with rfl | rfl | rfl | rfl | rfl
    · exact hstore (delay_instr rfl) rfl
    · exact hstore (delay_instr rfl) rfl
    · exact hstore (delay_instr rfl) rfl
    · exact hstore (delay_instr rfl) rfl
    · exact blind_gpioStores hwf hold t ⟨n, 4, regs, mem⟩ _ hpage le_rfl (Nat.le_of_ble_eq_true rfl)
  have hsees : Sees n (fun x : Nat × PState => gpioStores flash (x.1, x.2.arch)) [] :=
    ⟨fun t regs mem => hnone t 2 regs mem (by decide), fun t j regs mem _ hj => hnone t j regs mem hj⟩
  rcases hj with rfl | rfl
  · obtain ⟨t', regs', -, h5, hpath⟩ := @delay_path c load n mem hwf hpage (by omega) t regs
    have hp := hpath _ _ hsees
    rw [List.flatten_replicate_nil] at hp
    exact ⟨t', regs', mem, hp, h5⟩
  · obtain ⟨t', regs', -, h5, hpath⟩ := @delay_rest c load n mem hwf hpage (by omega) t regs
    have hp := hpath _ _ hsees
    rw [List.flatten_replicate_nil] at hp
    exact ⟨t', regs', mem, hp, h5⟩

end Paths

/-! ## The pages by number -/

section Tail

variable {P L R : List Page} {n : Nat}

theorem tail_add (h : P.drop n = L ++ R) : P.drop (n + L.length) = R := by
  rw [← List.drop_drop, h, List.drop_left]

theorem lookup_tail (h : P.drop n = L ++ R) {k : Nat} {pg : Page} (hk : L[k]? = some pg) : P[n + k]? = some pg := by
  rw [← List.getElem?_drop, h, List.getElem?_append_left (List.getElem?_eq_some_iff.mp hk).1, hk]

end Tail

/-- The parts of the driver, each at its page number. -/
structure Parts (c : Config) : Prop where
  swreset : ∀ (k : Nat) (pg : Page), (bytesPages 1 [(0x01, DC_CMD)])[k]? = some pg → (pages c)[1 + k]? = some pg
  slpout : ∀ (k : Nat) (pg : Page), (bytesPages 10 [(0x11, DC_CMD)])[k]? = some pg → (pages c)[10 + k]? = some pg
  init : ∀ (k : Nat) (pg : Page), (bytesPages 19 (initBytes c))[k]? = some pg → (pages c)[19 + k]? = some pg
  ring : ∀ (k : Nat) (pg : Page), (bytesPages 147 (colorBytes c))[k]? = some pg → (pages c)[147 + k]? = some pg
  control : (pages c)[163]? = some controlPage
  done : (pages c)[164]? = some donePage

theorem parts (c : Config) : Parts c := by
  have h0 : (pages c).drop 0 = [initPage c] ++ (bytesPages 1 [(0x01, DC_CMD)] ++ ([delayPage c 10] ++
      (bytesPages 10 [(0x11, DC_CMD)] ++ ([delayPage c 19] ++ (bytesPages 19 (initBytes c) ++
        (bytesPages 147 (colorBytes c) ++ ([controlPage] ++ ([donePage] ++ [])))))))) := by
    rw [List.drop_zero, pages, pagesFrom1]
    simp only [List.append_assoc, List.cons_append, List.nil_append, List.append_nil]
  have h1 := tail_add h0
  have h9 := tail_add h1
  have h10 := tail_add h9
  have h18 := tail_add h10
  have h19 := tail_add h18
  have h147 := tail_add h19
  have h163 := tail_add h147
  have h164 := tail_add h163
  simp only [bytesPages_length, List.length_cons, List.length_nil, initBytes, colorBytes]
    at h1 h9 h10 h18 h19 h147 h163 h164
  exact ⟨fun k pg hk => lookup_tail h1 hk, fun k pg hk => lookup_tail h10 hk, fun k pg hk => lookup_tail h19 hk,
    fun k pg hk => lookup_tail h147 hk, @lookup_tail _ _ _ _ h163 0 _ rfl, @lookup_tail _ _ _ _ h164 0 _ rfl⟩

/-! ## The ring -/

/-- The instructions of the control page. -/
theorem control_instr {j : Nat} {i : Instr} (h : [.opImm .addi 5 5 (BitVec.ofInt 12 (-1)),
    .branch .bne 5 0 (BitVec.ofInt 13 (4 * (4 : Nat) - 4 * (1 : Nat))), .opImm .addi 30 0 (BitVec.ofInt 12 164),
      .jal 0 (BitVec.ofInt 21 (4 * (5 : Nat) - 4 * (3 : Nat))), .opImm .addi 30 0 (BitVec.ofInt 12 147)][j]? = some i) :
    controlPage.instrs[j]? = some i := h

section Ring

variable {c : Config} {flash : Bits.ByteMemory 14} {load : Nat → Arch → Instr → Word}
  (hwf : Paged.WellFormed (pages c)) (hold : Paged.Holds flash (pages c))

include hwf hold

/-- The control page counts `x5` down, and goes on with the ring unless it is zero. -/
theorem control_path {k : Nat} (hk : k + 1 < 2 ^ 32) (t : Nat) {regs : Regs} (mem : MemRegs)
    (h5 : readReg regs 5 = BitVec.ofNat 32 (k + 1)) :
    ∃ t' regs', Path (Paged.step (pages c) load) (fun x => gpioStores flash (x.1, x.2.arch)) (t, ⟨163, 0, regs, mem⟩)
      [] (t', ⟨if k = 0 then 164 else 147, 0, regs', mem⟩) ∧ readReg regs' 5 = BitVec.ofNat 32 k := by
  have hn := (parts c).control
  have hnone : ∀ t j regs, j ≤ 5 → gpioStores flash (t, (PState.mk 163 j regs mem).arch) = [] := by
    intro t j regs hj
    have hstore : ∀ {x : Instr}, controlPage.instrs[j]? = some x → x.isStore = false →
        gpioStores flash (t, (PState.mk 163 j regs mem).arch) = [] := fun hx hs =>
      (gpioStores_arch (σ := ⟨163, j, regs, mem⟩) hold hn (Paged.full_of_instrs hx) t).trans (gpioStore_of_isStore hs)
    have hcase : j = 0 ∨ j = 1 ∨ j = 2 ∨ j = 3 ∨ j = 4 ∨ j = 5 := by omega
    rcases hcase with rfl | rfl | rfl | rfl | rfl | rfl
    · exact hstore (control_instr rfl) rfl
    · exact hstore (control_instr rfl) rfl
    · exact hstore (control_instr rfl) rfl
    · exact hstore (control_instr rfl) rfl
    · exact hstore (control_instr rfl) rfl
    · exact blind_gpioStores hwf hold t ⟨163, 5, regs, mem⟩ _ hn le_rfl (Nat.le_of_ble_eq_true rfl)
  obtain ⟨regs₁, hregs₁⟩ : ∃ r, r = writeReg regs 5 (readReg regs 5 + (-1 : BitVec 12).signExtend 32) := ⟨_, rfl⟩
  have h5₁ : readReg regs₁ 5 = BitVec.ofNat 32 k := by
    rw [hregs₁, readReg_writeReg (by decide)]
    exact decrement h5 rfl
  have hdec : Paged.step (pages c) load (t, ⟨163, 0, regs, mem⟩) = some (t + 137, ⟨163, 1, regs₁, mem⟩) := by
    have hs : Paged.step (pages c) load (t, ⟨163, 0, regs, mem⟩) = _ :=
      Paged.step_opImm hwf hn (control_instr rfl)
    rw [hs, hregs₁]
    rfl
  have hbranch : Paged.step (pages c) load (t + 137, ⟨163, 1, regs₁, mem⟩) = some (t + 137 + 137,
      ⟨163, if Rv32i.BranchOp.holds .bne (readReg regs₁ 5) (readReg regs₁ 0) then 4 else 2, regs₁, mem⟩) :=
    Paged.step_branch hwf hn rfl (by decide) (control_instr rfl)
  have hstart := (store_step hdec (hnone t 0 regs (by decide))).trans (store_step hbranch (hnone _ 1 regs₁ (by decide)))
  -- the register that names the next page
  have hload : ∀ {j : Nat} (v u : Nat), v < 165 →
      controlPage.instrs[j]? = some (.opImm .addi 30 0 (BitVec.ofInt 12 v)) →
      ∃ regs₂, Paged.step (pages c) load (u, ⟨163, j, regs₁, mem⟩) = some (u + 137, ⟨163, j + 1, regs₂, mem⟩) ∧
        readReg regs₂ 30 = BitVec.ofNat 32 v ∧ readReg regs₂ 5 = BitVec.ofNat 32 k := by
    intro j v u hv hj
    have hs : Paged.step (pages c) load (u, ⟨163, j, regs₁, mem⟩) = _ := Paged.step_opImm hwf hn hj
    have hval : Rv32i.ImmOp.eval .addi (readReg regs₁ 0) ((BitVec.ofInt 12 v).signExtend 32) = BitVec.ofNat 32 v := by
      rw [signExtend_ofInt, Int.bmod_eq_of_le (by omega) (by omega), BitVec.ofInt_natCast]
      exact BitVec.zero_add _
    refine ⟨writeReg regs₁ 30 (BitVec.ofNat 32 v), ?_, readReg_writeReg (by decide) _, ?_⟩
    · rw [hs]
      show some (u + 137, PState.mk 163 (j + 1) (writeReg regs₁ 30
        (Rv32i.ImmOp.eval .addi (readReg regs₁ 0) ((BitVec.ofInt 12 v).signExtend 32))) mem) = _
      rw [hval]
    · rw [readReg_writeReg_ne (by decide), h5₁]
  have hleave : ∀ {v : Nat} (u : Nat) {regs₂ : Regs}, v < 165 → readReg regs₂ 30 = BitVec.ofNat 32 v →
      Path (Paged.step (pages c) load) (fun x => gpioStores flash (x.1, x.2.arch)) (u, ⟨163, 5, regs₂, mem⟩) []
        (u + 137 * 6, ⟨v, 0, regs₂, mem⟩) := by
    intro v u regs₂ hv h30
    have hnextn : (controlPage.next ⟨163, 5, regs₂, mem⟩).toNat = v := by
      have hnext : controlPage.next ⟨163, 5, regs₂, mem⟩ = BitVec.ofNat 32 v := h30
      rw [hnext, BitVec.toNat_ofNat]
      omega
    have hs : Paged.step (pages c) load (u, ⟨163, 5, regs₂, mem⟩) = _ :=
      Paged.step_leave hn rfl (by rw [hnextn, pages_length]; exact hv)
    refine store_step ?_ (hnone u 5 regs₂ le_rfl)
    rw [hs, Page.leave, hnextn]
    rfl
  by_cases hzero : k = 0
  · -- the branch falls through
    subst hzero
    have hfall : Rv32i.BranchOp.holds .bne (readReg regs₁ 5) (readReg regs₁ 0) = false := by
      rw [h5₁]
      rfl
    rw [if_neg (by rw [hfall]; decide)] at hstart
    obtain ⟨regs₂, h2, h30, h5₂⟩ := @hload 2 164 (t + 137 + 137) (by decide) (control_instr rfl)
    have h3 : Paged.step (pages c) load (t + 137 + 137 + 137, ⟨163, 3, regs₂, mem⟩) =
        some (t + 137 + 137 + 137 + 137, ⟨163, 5, regs₂, mem⟩) :=
      Paged.step_jal hwf hn rfl (by decide) (control_instr rfl)
    have hrest := (store_step h2 (hnone _ 2 regs₁ (by decide))).trans (store_step h3 (hnone _ 3 regs₂ (by decide)))
    exact ⟨_, regs₂, (hstart.trans hrest).trans (hleave _ (by decide) h30), h5₂⟩
  · have htaken : Rv32i.BranchOp.holds .bne (readReg regs₁ 5) (readReg regs₁ 0) = true := by
      rw [h5₁]
      refine bne_iff_ne.mpr fun he => hzero ?_
      have := congrArg BitVec.toNat he
      rw [BitVec.toNat_ofNat, Nat.mod_eq_of_lt (by omega)] at this
      exact this
    rw [if_pos htaken] at hstart
    obtain ⟨regs₂, h4, h30, h5₂⟩ := @hload 4 147 (t + 137 + 137) (by decide) (control_instr rfl)
    rw [if_neg hzero]
    exact ⟨_, regs₂, (hstart.trans (store_step h4 (hnone _ 4 regs₁ (by decide)))).trans (hleave _ (by decide) h30), h5₂⟩

/-- The ring, `k + 1` times. -/
theorem ring_path {k : Nat} (hk : k + 1 < 2 ^ 32) (t : Nat) {regs : Regs} (mem : MemRegs)
    (h5 : readReg regs 5 = BitVec.ofNat 32 (k + 1)) :
    ∃ t' regs' mem', Path (Paged.step (pages c) load) (fun x => gpioStores flash (x.1, x.2.arch))
      (t, ⟨147, 0, regs, mem⟩) (List.replicate (k + 1) ((colorBytes c).flatMap byteStores)).flatten
        (t', ⟨164, 0, regs', mem'⟩) := by
  induction k generalizing t regs mem with
  | zero =>
    obtain ⟨t₁, regs₁, mem₁, h1, h5₁⟩ := @bytes_goes c flash load hwf hold _ 147 (parts c).ring
      (Nat.le_of_ble_eq_true rfl) t regs mem
    obtain ⟨t₂, regs₂, h2, -⟩ := @control_path c flash load hwf hold 0 hk t₁ regs₁ mem₁ (h5₁.trans h5)
    exact ⟨t₂, regs₂, mem₁, by simpa using h1.trans h2⟩
  | succ k ih =>
    obtain ⟨t₁, regs₁, mem₁, h1, h5₁⟩ := @bytes_goes c flash load hwf hold _ 147 (parts c).ring
      (Nat.le_of_ble_eq_true rfl) t regs mem
    obtain ⟨t₂, regs₂, h2, h5₂⟩ := @control_path c flash load hwf hold (k + 1) hk t₁ regs₁ mem₁ (h5₁.trans h5)
    rw [if_neg (Nat.succ_ne_zero k)] at h2
    obtain ⟨t₃, regs₃, mem₃, h3⟩ := ih (by omega) t₂ mem₁ h5₂
    rw [List.replicate_succ, List.flatten_cons]
    refine ⟨t₃, regs₃, mem₃, ?_⟩
    have h := (h1.trans h2).trans h3
    rwa [List.append_nil] at h

end Ring

end St7789

end Pineapple
