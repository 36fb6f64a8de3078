import Pineapple.St7789.Proofs.ConstProofs
import Pineapple.St7789.Proofs.StoreProofs

/-!
# Proofs: the byte stream of the driver

The stores of a byte send it to an aligned slave, so the stores of a run send the bytes of its pages, one after the
other.
-/

namespace Pineapple

open Clocked
open Rv32i (Instr Word Reg readReg writeReg)
open Spi (Mode0)

namespace St7789

/-! ## What a byte sends -/

/-- The byte that is sent, with the level of DC. -/
def byteOf (b : Int × Nat) : Bool × BitVec 8 := (b.2 == DC_DATA, BitVec.ofInt 8 b.1)

/-- The DC bit of a command or of data. -/
def DcOk (b : Int × Nat) : Prop := b.2 = DC_CMD ∨ b.2 = DC_DATA

instance (b : Int × Nat) : Decidable (DcOk b) := inferInstanceAs (Decidable (_ ∨ _))

theorem lowBits_one (v : Int) {k : Nat} (hk : k < 8) :
    lowBits (v >>> k) 1 = if (BitVec.ofInt 8 v).getLsbD k then 1 else 0 := by
  have hbit : (BitVec.ofInt 8 v).getLsbD k = decide ((v % 256).toNat / 2 ^ k % 2 = 1) :=
    Nat.testBit_eq_decide_div_mod_eq
  have hshift : lowBits (v >>> k) 1 = (v / 2 ^ k % 2).toNat := by
    rw [lowBits, Int.shiftRight_eq_div_pow]
    norm_cast
  rw [hbit, hshift]
  have hcase : k = 0 ∨ k = 1 ∨ k = 2 ∨ k = 3 ∨ k = 4 ∨ k = 5 ∨ k = 6 ∨ k = 7 := by omega
  rcases hcase with rfl | rfl | rfl | rfl | rfl | rfl | rfl | rfl <;> simp only [decide_eq_true_eq] <;> split <;> omega

/-- The levels of a bit. -/
theorem bit_levels {b : Int × Nat} (hdc : DcOk b) {i : Nat} (hi : i < 8) :
    let u := BitVec.ofNat 8 (setupVal b.1 b.2 i)
    let v := BitVec.ofNat 8 (setupVal b.1 b.2 i ||| 1)
    Mode0.Sends u v ∧ Mode0.Stable u v ∧ Mode0.mosiOf v = (BitVec.ofInt 8 b.1).getMsbD i ∧
      Mode0.dcOf v = (b.2 == DC_DATA) := by
  have hmsb : (BitVec.ofInt 8 b.1).getMsbD i = (BitVec.ofInt 8 b.1).getLsbD (7 - i) := by
    rw [BitVec.getMsbD, decide_eq_true hi, Bool.true_and]
  rw [setupVal, lowBits_one b.1 (show 7 - i < 8 by omega), hmsb]
  generalize (BitVec.ofInt 8 b.1).getLsbD (7 - i) = x
  rcases hdc with h | h
  · rw [h]
    cases x
    · exact ⟨⟨by decide, by decide⟩, by decide, by decide, by decide⟩
    · exact ⟨⟨by decide, by decide⟩, by decide, by decide, by decide⟩
  · rw [h]
    cases x
    · exact ⟨⟨by decide, by decide⟩, by decide, by decide, by decide⟩
    · exact ⟨⟨by decide, by decide⟩, by decide, by decide, by decide⟩

variable {s : Mode0}

/-- The stores of a byte complete it in an aligned slave. -/
theorem decode_byteStores {b : Int × Nat} (hdc : DcOk b) (h0 : s.bits = 0) :
    s.decode (byteStores b) = [byteOf b] ∧ (s.after (byteStores b)).bits = 0 := by
  obtain ⟨hdec, haft⟩ := @Mode0.decode_byte s _ _ (fun i => (BitVec.ofInt 8 b.1).getMsbD i)
    (fun i hi => (bit_levels hdc hi).1) (fun i hi => (bit_levels hdc hi).2.2.1) h0
  refine ⟨hdec.trans ?_, haft⟩
  rw [(bit_levels hdc (show 7 < 8 by decide)).2.2.2, byteOf]
  refine congrArg (fun w => [(b.2 == DC_DATA, w)]) (BitVec.eq_of_getLsbD_eq fun i hi => ?_)
  rw [Bits.getLsbD_ofMsb, decide_eq_true hi, Bool.true_and, BitVec.getMsbD,
    decide_eq_true (show 8 - 1 - i < 8 by omega), Bool.true_and, show 8 - 1 - (8 - 1 - i) = i by omega]

theorem decode_bytes {bytes : List (Int × Nat)} (hdc : ∀ b ∈ bytes, DcOk b) (h0 : s.bits = 0) :
    s.decode (bytes.flatMap byteStores) = bytes.map byteOf ∧ (s.after (bytes.flatMap byteStores)).bits = 0 := by
  induction bytes generalizing s with
  | nil => exact ⟨rfl, h0⟩
  | cons b bytes ih =>
    obtain ⟨hdec, haft⟩ := decode_byteStores (hdc b List.mem_cons_self) h0
    obtain ⟨hdec', haft'⟩ := ih (fun x hx => hdc x (List.mem_cons_of_mem _ hx)) haft
    rw [List.flatMap_cons, Mode0.decode_append, Mode0.after_append, hdec, hdec', List.map_cons]
    exact ⟨rfl, haft'⟩

theorem steady_byteStores {b : Int × Nat} (hdc : DcOk b) : Mode0.Steady (byteStores b) :=
  Mode0.steady_bitLevels fun _ hi => ⟨(bit_levels hdc hi).1, (bit_levels hdc hi).2.1⟩

/-! ## The stores of the driver -/

/-- All bytes before the pixels. -/
def headBytes (c : Config) : List (Int × Nat) := (0x01, DC_CMD) :: (0x11, DC_CMD) :: initBytes c

/-- What is stored after `k` bytes. -/
def storesFrom (c : Config) (k n : Nat) : List (BitVec 8) :=
  ((headBytes c).drop k).flatMap byteStores ++ (List.replicate n ((colorBytes c).flatMap byteStores)).flatten

/-- The page and the instruction after `k` bytes. -/
def point : Nat → Option (Nat × Nat)
  | 0 => some (1, 0)
  | 1 => some (9, 1)
  | 2 => some (18, 1)
  | _ => none

/-- The instructions of page 0. -/
theorem init_instrs (c : Config) : (initPage c).instrs = .opImm .addi 0 0 (BitVec.ofInt 12 0) ::
    .opImm .addi 2 0 (BitVec.ofInt 12 (0 : Nat)) :: .store .sw 2 0 0xF0 :: constInstrs 5 8 (pixel_count c) := by
  rw [Page.instrs, initPage, constCalls, constInstrs]
  split
  · rfl
  · rfl

section Paths

variable {c : Config} {flash : Bits.ByteMemory 14} {load : Nat → Arch → Instr → Word}
  (hwf : Paged.WellFormed (pages c)) (hold : Paged.Holds flash (pages c))

include hwf hold

/-- From each point of the initialisation the driver gets to the ring. -/
theorem point_goes {k m j : Nat} (hk : point k = some (m, j)) :
    Goes c flash load m j 147 (((headBytes c).drop k).flatMap byteStores) := by
  have hinit : Goes c flash load 19 0 147 ((initBytes c).flatMap byteStores) :=
    bytes_goes hwf hold (parts c).init (Nat.le_of_ble_eq_true rfl)
  have hslpout : Goes c flash load 10 0 18 ([(0x11, DC_CMD)].flatMap byteStores) :=
    bytes_goes hwf hold (parts c).slpout (by decide)
  have hswreset : Goes c flash load 1 0 9 ([(0x01, DC_CMD)].flatMap byteStores) :=
    bytes_goes hwf hold (parts c).swreset (by decide)
  have hdelay : ∀ {n j}, n = 9 ∨ n = 18 → j = 0 ∨ j = 1 → Goes c flash load n j (n + 1) [] :=
    fun hn hj => delay_goes hwf hold hn hj
  match k, hk with
  | 0, hk =>
    cases hk
    exact hswreset.trans ((hdelay (.inl rfl) (.inl rfl)).trans
      (hslpout.trans ((hdelay (.inr rfl) (.inl rfl)).trans hinit)))
  | 1, hk =>
    cases hk
    exact (hdelay (.inl rfl) (.inr rfl)).trans (hslpout.trans ((hdelay (.inr rfl) (.inl rfl)).trans hinit))
  | 2, hk =>
    cases hk
    exact (hdelay (.inr rfl) (.inr rfl)).trans hinit

/-- The whole program from there on. -/
theorem point_path {k m j : Nat} (hk : point k = some (m, j)) (t : Nat) {regs : Regs} (mem : MemRegs)
    (h5 : 1 ≤ (readReg regs 5).toNat) :
    ∃ t' regs' mem', Path (Paged.step (pages c) load) (fun x => gpioStores flash (x.1, x.2.arch)) (t, ⟨m, j, regs, mem⟩)
      (storesFrom c k (readReg regs 5).toNat) (t', ⟨164, 0, regs', mem'⟩) := by
  obtain ⟨t₁, regs₁, mem₁, h1, h5₁⟩ := @point_goes c flash load hwf hold _ _ _ hk t regs mem
  obtain ⟨n, hn⟩ : ∃ n, (readReg regs 5).toNat = n + 1 := ⟨_, (Nat.sub_add_cancel h5).symm⟩
  have hlt : n + 1 < 2 ^ 32 := hn ▸ (readReg regs 5).isLt
  have h5₂ : readReg regs₁ 5 = BitVec.ofNat 32 (n + 1) := by
    rw [h5₁, ← hn, BitVec.ofNat_toNat, BitVec.setWidth_eq]
  obtain ⟨t₂, regs₂, mem₂, h2⟩ := @ring_path c flash load hwf hold n hlt t₁ _ mem₁ h5₂
  rw [hn]
  exact ⟨t₂, regs₂, mem₂, h1.trans h2⟩

/-- Arithmetic instructions store nothing. -/
theorem arithmetic_path {n : Nat} {pg : Page} (hn : (pages c)[n]? = some pg) {is : List Instr} {j : Nat}
    (hi : ∀ (k : Nat) (i : Instr), is[k]? = some i → pg.instrs[j + k]? = some i) (har : is.all arithmetic = true)
    (t : Nat) (regs : Regs) (mem : MemRegs) :
    Path (Paged.step (pages c) load) (fun x => gpioStores flash (x.1, x.2.arch)) (t, ⟨n, j, regs, mem⟩) []
      (t + 137 * is.length, ⟨n, j + is.length, is.foldl effect regs, mem⟩) := by
  induction is generalizing j t regs with
  | nil => exact .nil _
  | cons i is ih =>
    have hfst : pg.instrs[j]? = some i := hi 0 i rfl
    have hnone : gpioStores flash (t, (PState.mk n j regs mem).arch) = (PState.mk n j regs mem).arch.gpioStore i :=
      gpioStores_arch (σ := ⟨n, j, regs, mem⟩) hold hn (Paged.full_of_instrs hfst) t
    obtain ⟨hal, har⟩ := Bool.and_eq_true_iff.mp har
    obtain ⟨hstep, hsil⟩ : Paged.step (pages c) load (t, ⟨n, j, regs, mem⟩) =
        some (t + 137, ⟨n, j + 1, effect regs i, mem⟩) ∧ i.isStore = false := by
      cases i with
      | opImm op rd rs1 imm => exact ⟨Paged.step_opImm hwf hn hfst, rfl⟩
      | shift op rd rs1 sh => exact ⟨Paged.step_shift hwf hn hfst, rfl⟩
      | opReg op rd rs1 rs2 => exact ⟨Paged.step_opReg hwf hn hfst, rfl⟩
      | _ => cases hal
    have hrest := @ih (j + 1) (fun k x hx => by
      rw [Nat.add_assoc, Nat.add_comm 1 k]
      exact hi (k + 1) x hx) har (t + 137) (effect regs i)
    rw [List.length_cons, show t + 137 * (is.length + 1) = t + 137 + 137 * is.length by omega,
      show j + (is.length + 1) = j + 1 + is.length by omega]
    exact (store_step hstep (hnone.trans (gpioStore_of_isStore hsil))).trans hrest

/-- Page 0, from the instruction after the dead NOP on. -/
theorem init_path (t : Nat) (regs : Regs) (mem : MemRegs) :
    ∃ t' regs' mem', Path (Paged.step (pages c) load) (fun x => gpioStores flash (x.1, x.2.arch)) (t, ⟨0, 1, regs, mem⟩)
      [0] (t', ⟨1, 0, regs', mem'⟩) ∧ readReg regs' 5 = loaded (pixel_count c) := by
  have hn : (pages c)[0]? = some (initPage c) := rfl
  have hinstrs := init_instrs c
  obtain ⟨is, his⟩ : ∃ is, is = constInstrs 5 8 (pixel_count c) := ⟨_, rfl⟩
  rw [← his] at hinstrs
  obtain ⟨regs₁, hregs₁⟩ : ∃ r, r = writeReg regs 2 (Rv32i.ImmOp.eval .addi (readReg regs 0)
    ((BitVec.ofInt 12 (0 : Nat)).signExtend 32)) := ⟨_, rfl⟩
  obtain ⟨mem₂, h1, h2⟩ : ∃ mem₂, Paged.step (pages c) load (t, ⟨0, 1, regs, mem⟩) =
      some (t + 137, ⟨0, 2, regs₁, mem⟩) ∧ Paged.step (pages c) load (t + 137, ⟨0, 2, regs₁, mem⟩) =
        some (t + 137 + 137, ⟨0, 3, regs₁, mem₂⟩) := by
    refine ⟨_, ?_, Paged.step_gpio hwf hn (by rw [hinstrs]; rfl)⟩
    rw [hregs₁]
    exact Paged.step_opImm hwf hn (by rw [hinstrs]; rfl)
  have hstore : ∀ (t j : Nat) (regs mem x), (initPage c).instrs[j]? = some x →
      gpioStores flash (t, (PState.mk 0 j regs mem).arch) = (PState.mk 0 j regs mem).arch.gpioStore x :=
    fun t j regs mem x hx => gpioStores_arch (σ := ⟨0, j, regs, mem⟩) hold hn (Paged.full_of_instrs hx) t
  have hzero : gpioStores flash (t + 137, (PState.mk 0 2 regs₁ mem).arch) = [0] := by
    rw [hstore _ 2 regs₁ mem _ (by rw [hinstrs]; rfl), gpioStore_out, hregs₁]
    exact congrArg (fun x => [x]) (low_immediate regs 0)
  have p1 := store_step h1 ((hstore t 1 regs mem _ (by rw [hinstrs]; rfl)).trans (gpioStore_of_isStore rfl))
  have p2 := store_step h2 hzero
  have p3 := @arithmetic_path c flash load hwf hold _ _ hn is 3
    (fun k i hk => by rw [hinstrs, Nat.add_comm]; exact hk) (his ▸ constInstrs_arithmetic 5 8 _)
    (t + 137 + 137) regs₁ mem₂
  obtain ⟨regs₃, hregs₃⟩ : ∃ r, r = is.foldl effect regs₁ := ⟨_, rfl⟩
  rw [← hregs₃] at p3
  -- the end of the page
  have hlen : (PState.mk 0 (3 + is.length) regs₃ mem₂).index = (initPage c).instrs.length := by
    rw [hinstrs]
    show 3 + is.length = is.length + 1 + 1 + 1
    omega
  have hroom := hwf.room hn
  have hnext : (initPage c).next ⟨0, 3 + is.length, regs₃, mem₂⟩ = BitVec.ofNat 32 1 := Paged.next_const rfl (by decide)
  have hleave : Paged.step (pages c) load (t + 137 + 137 + 137 * is.length, ⟨0, 3 + is.length, regs₃, mem₂⟩) = _ :=
    Paged.step_leave hn hlen (by rw [hnext, pages_length]; decide)
  rw [Page.leave, hnext] at hleave
  have p4 := store_step hleave (blind_gpioStores hwf hold _ ⟨0, 3 + is.length, regs₃, mem₂⟩ _ hn hlen.ge
    (by rw [hlen]; omega))
  refine ⟨_, _, _, ((p1.trans p2).trans p3).trans p4, ?_⟩
  show readReg (writeReg regs₃ 30 (BitVec.ofNat 32 1)) 5 = _
  rw [readReg_writeReg_ne (by decide), hregs₃, his]
  exact (const_effect (by decide) (by decide) (by decide) _ _).1

/-- The last page spins. -/
theorem spin_path (m t : Nat) (regs : Regs) (mem : MemRegs) :
    Path (Paged.step (pages c) load) (fun x => gpioStores flash (x.1, x.2.arch)) (t, ⟨164, 0, regs, mem⟩) []
      (t + 137 * m, ⟨164, 0, regs, mem⟩) := by
  have hi : donePage.instrs[0]? = some (.jal 0 (BitVec.ofInt 21 (4 * (0 : Nat) - 4 * (0 : Nat)))) := rfl
  induction m with
  | zero => exact .nil _
  | succ m ih =>
    have hstep : Paged.step (pages c) load (t + 137 * m, ⟨164, 0, regs, mem⟩) =
        some (t + 137 * m + 137, ⟨164, 0, regs, mem⟩) := Paged.step_jal hwf (parts c).done rfl (by decide) hi
    have hnone : gpioStores flash (t + 137 * m, (PState.mk 164 0 regs mem).arch) = [] :=
      (gpioStores_arch (σ := ⟨164, 0, regs, mem⟩) hold (parts c).done (Paged.full_of_instrs hi) _).trans
        (gpioStore_of_isStore rfl)
    exact ih.trans (store_step hstep hnone)

end Paths

/-! ## What they send -/

theorem ofInt_lowBits (v : Int) : BitVec.ofInt 8 (lowBits v 8 : Nat) = BitVec.ofInt 8 v := by
  apply BitVec.eq_of_toNat_eq
  rw [BitVec.toNat_ofInt, BitVec.toNat_ofInt, lowBits]
  omega

theorem ofInt_emod (v : Int) : BitVec.ofInt 8 (v % 256) = BitVec.ofInt 8 v := by
  apply BitVec.eq_of_toNat_eq
  rw [BitVec.toNat_ofInt, BitVec.toNat_ofInt]
  omega

theorem shiftRight_eight (v : Int) : v >>> (8 : Nat) = v / 256 := Int.shiftRight_eq_div_pow v 8

theorem stream_eq (c : Config) (n : Nat) :
    stream c n = (headBytes c).map byteOf ++ (List.replicate n ((colorBytes c).map byteOf)).flatten := by
  have hhead : (headBytes c).map byteOf = (stream c 0).take 18 := by
    simp only [headBytes, initBytes, stream, List.map_cons, List.map_nil, byteOf, ofInt_lowBits, ofInt_emod,
      shiftRight_eight]
    rfl
  have hcolor : (colorBytes c).map byteOf =
      [(true, BitVec.ofInt 8 (c.FILL_COLOR / 256)), (true, BitVec.ofInt 8 (c.FILL_COLOR % 256))] := by
    simp only [colorBytes, List.map_cons, List.map_nil, byteOf, ofInt_lowBits, ofInt_emod, shiftRight_eight]
    rfl
  rw [hhead, hcolor]
  rfl

theorem dcOk_head (c : Config) : ∀ b ∈ headBytes c, DcOk b := by
  intro b hb
  simp only [headBytes, initBytes, List.mem_cons, List.not_mem_nil, or_false] at hb
  rcases hb with rfl | rfl | rfl | rfl | rfl | rfl | rfl | rfl | rfl | rfl | rfl | rfl | rfl | rfl | rfl | rfl |
    rfl | rfl
  all_goals first
    | exact .inl rfl
    | exact .inr rfl

theorem dcOk_color (c : Config) : ∀ b ∈ colorBytes c, DcOk b := by
  intro b hb
  simp only [colorBytes, List.mem_cons, List.not_mem_nil, or_false] at hb
  rcases hb with rfl | rfl
  · exact .inr rfl
  · exact .inr rfl

variable {c : Config}

/-- The pixels. -/
theorem decode_pixels (h0 : s.bits = 0) (n : Nat) :
    s.decode (List.replicate n ((colorBytes c).flatMap byteStores)).flatten =
      (List.replicate n ((colorBytes c).map byteOf)).flatten := by
  induction n generalizing s with
  | zero => rfl
  | succ n ih =>
    obtain ⟨hdec, haft⟩ := decode_bytes (dcOk_color c) h0
    rw [List.replicate_succ, List.flatten_cons, Mode0.decode_append, hdec, ih haft, List.replicate_succ,
      List.flatten_cons]

theorem decode_storesFrom (h0 : s.bits = 0) {k : Nat} (hk : k ≤ 2) (n : Nat) :
    s.decode (storesFrom c k n) = (stream c n).drop k := by
  obtain ⟨hdec, haft⟩ := decode_bytes (fun b hb => dcOk_head c b (List.mem_of_mem_drop hb)) h0
  have hlen : k ≤ ((headBytes c).map byteOf).length := by
    rw [List.length_map]
    exact hk.trans (Nat.le_of_ble_eq_true rfl)
  rw [storesFrom, Mode0.decode_append, hdec, decode_pixels haft, stream_eq, List.drop_append_of_le_length hlen,
    List.map_drop]

theorem steady_storesFrom (k n : Nat) : Mode0.Steady (storesFrom c k n) := by
  have hbytes : ∀ {bytes : List (Int × Nat)}, (∀ b ∈ bytes, DcOk b) → Mode0.Steady (bytes.flatMap byteStores) := by
    intro bytes h
    refine Mode0.Steady.flatten fun vs hvs => ?_
    obtain ⟨b, hb, rfl⟩ := List.mem_map.mp hvs
    exact steady_byteStores (h b hb)
  refine (hbytes fun b hb => dcOk_head c b (List.mem_of_mem_drop hb)).append (Mode0.Steady.flatten fun vs hvs => ?_)
  rw [List.eq_of_mem_replicate hvs]
  exact hbytes (dcOk_color c)

/-! ## The chip -/

section Chip

variable {img : List (BitVec 8)} {rom : Rom} {ui_in : Nat → BitVec 8} {other : Nat → Bool} {b : Nat → Board}
  (himg : image c = .ok img) (hb : Board.Run rom ui_in other b) (h0 : (b 0).Ready)
  (hflash : Paged.InFlash (b 0).flash.mem img)

/-- The state of the paged machine after `k` bytes. -/
theorem exists_point {a : Arch} {k : Nat} (h : HasSent a k) :
    ∃ m j, point k = some (m, j) ∧ (PState.mk m j a.regs a.mem).arch = a := by
  have hloop : ∀ {n : Nat}, AtLoop n a → (PState.mk n 1 a.regs a.mem).arch = a := by
    intro n h
    obtain ⟨hmode, hpage, hpc⟩ := h
    obtain ⟨⟨pc, regs⟩, ⟨ws, mode, page, gpio⟩⟩ := a
    cases hmode
    cases hpage
    cases hpc
    rfl
  match k, h with
  | 0, h => exact ⟨1, 0, rfl, arch_of_atPage h⟩
  | 1, h => exact ⟨9, 1, rfl, hloop h⟩
  | 2, h => exact ⟨18, 1, rfl, hloop h⟩

include himg hb h0 hflash

/-- The stores of a path of the paged machine are on the bus of the chip. -/
theorem stores_of_path {t t' : Nat} {σ σ' : PState} {os : List (BitVec 8)}
    (hidx : ∀ pg, (pages c)[σ.page]? = some pg → σ.index ≤ pg.instrs.length)
    (hp : Path (Paged.step (pages c) (Env.chip rom (Board.inputs ui_in other b)).load)
      (fun x => gpioStores (b 0).flash.mem (x.1, x.2.arch)) (t, σ) os (t', σ'))
    (hat : Top.At (Board.tops b) t σ.arch) :
    Top.At (Board.tops b) t' σ'.arch ∧ t ≤ t' ∧ Top.gpioWrites (Board.tops b) t t' = os := by
  obtain ⟨hwf, hold, -⟩ := image_holds himg
  exact Top.run_gpioWrites hb.top h0.atFetch (Board.agrees_flash hb h0) (fun t a i => gpioStores_eq t a i)
    (Paged.simulate hwf (hold _ hflash) (blind_gpioStores hwf (hold _ hflash)) hidx hp) hat

/-- The stores of the driver after `k` bytes. -/
theorem stores_from {k t : Nat} {a : Arch} (hat : Top.At (Board.tops b) t a) (hk : HasSent a k)
    (h5 : 1 ≤ (a.reg 5).toNat) :
    ∃ T, Top.gpioWrites (Board.tops b) t T = storesFrom c k (a.reg 5).toNat ∧
      ∀ T', T ≤ T' → Top.gpioWrites (Board.tops b) T T' = [] := by
  obtain ⟨hwf, hold, -⟩ := image_holds himg
  obtain ⟨m, j, hpoint, harch⟩ := exists_point hk
  obtain ⟨T, regs, mem, hp⟩ := @point_path c _ (Env.chip rom (Board.inputs ui_in other b)).load hwf
    (hold _ hflash) _ _ _ hpoint t _ a.mem h5
  have hidx : ∀ pg, (pages c)[m]? = some pg → j ≤ pg.instrs.length := by
    intro pg hpg
    match k, hpoint with
    | 0, hpoint =>
      cases hpoint
      exact Nat.zero_le _
    | 1, hpoint =>
      cases hpoint
      cases hpg
      exact Nat.le_of_ble_eq_true rfl
    | 2, hpoint =>
      cases hpoint
      cases hpg
      exact Nat.le_of_ble_eq_true rfl
  obtain ⟨hend, -, hws⟩ := stores_of_path himg hb h0 hflash (σ := ⟨m, j, a.regs, a.mem⟩) hidx hp (harch.symm ▸ hat)
  refine ⟨T, hws, fun T' hT' => ?_⟩
  have hspin := @spin_path c _ (Env.chip rom (Board.inputs ui_in other b)).load hwf (hold _ hflash) (T' - T) T regs mem
  obtain ⟨-, -, hnone⟩ := stores_of_path himg hb h0 hflash (σ := ⟨164, 0, regs, mem⟩)
    (fun _ _ => Nat.zero_le _) hspin hend
  exact Top.gpioWrites_eq_nil_mono hnone (by omega)

/-- From the handoff the first store of the driver is 0, and then it is at the beginning of page 1. -/
theorem stores_init {t : Nat} {a : Arch} (hat : Top.At (Board.tops b) t a) (hstart : Paged.HandedOff a) :
    ∃ T a', Top.At (Board.tops b) T a' ∧ t ≤ T ∧ AtPage 1 a' ∧ Top.gpioWrites (Board.tops b) t T = [0] ∧
      a'.reg 5 = loaded (pixel_count c) := by
  obtain ⟨hwf, hold, -⟩ := image_holds himg
  obtain ⟨T, regs, mem, hp, h5⟩ := @init_path c _ (Env.chip rom (Board.inputs ui_in other b)).load hwf
    (hold _ hflash) t a.regs a.mem
  have hidx : ∀ pg, (pages c)[0]? = some pg → 1 ≤ pg.instrs.length := by
    intro pg hpg
    cases hpg
    rw [init_instrs]
    exact Nat.le_add_left 1 _
  have harch : (PState.mk 0 1 a.regs a.mem).arch = a := Paged.start_arch hstart
  obtain ⟨hend, hle, hws⟩ := stores_of_path himg hb h0 hflash (σ := ⟨0, 1, _, _⟩) hidx hp (harch.symm ▸ hat)
  exact ⟨T, _, hend, hle, ⟨rfl, rfl, rfl⟩, hws, h5⟩

/-- The driver sends exactly the intended bytes. From the handoff it stores 0 and comes to page 1; from there, and from
the loops of the DELAY pages with any value of the counter, the stores send the rest of the stream, and then they end.
The number of pixels is what `x5` holds. -/
theorem stream_exact :
    (Paged.HandedOff (b 0).top.arch →
      ∃ T a, Top.At (Board.tops b) T a ∧ AtPage 1 a ∧ Top.gpioWrites (Board.tops b) 0 T = [0]) ∧
    ∀ k t a, Top.At (Board.tops b) t a → HasSent a k → 1 ≤ (a.reg 5).toNat →
      ∃ T, Transmits b t T ((stream c (a.reg 5).toNat).drop k) := by
  refine ⟨fun hstart => ?_, fun k t a hat hk h5 => ?_⟩
  · obtain ⟨T, a, hat, -, hpage, hws, -⟩ := stores_init himg hb h0 hflash ⟨h0.state, rfl⟩ hstart
    exact ⟨T, a, hat, hpage, hws⟩
  obtain ⟨T, hws, hend⟩ := stores_from himg hb h0 hflash hat hk h5
  have hk2 : k ≤ 2 := by
    match k, hk with
    | 0, _ => decide
    | 1, _ => decide
    | 2, _ => decide
  have hsteady : Mode0.Steady (storesFrom c k (a.reg 5).toNat) := steady_storesFrom k _
  refine ⟨T, fun s hs => ?_, hend, ?_, ?_⟩
  · -- the store of 0 completes nothing
    have hzero : s.decode [0] = [] ∧ (s.after [0]).bits = 0 := by
      show (s.completes 0).toList ++ [] = [] ∧ (s.next 0).bits = 0
      rw [(s.next_low rfl rfl).2, (s.next_low rfl rfl).1]
      exact ⟨rfl, hs⟩
    rw [hws, ← List.singleton_append, Mode0.decode_append, hzero.1, decode_storesFrom hzero.2 hk2]
    rfl
  · rw [hws]
    exact List.forall_mem_cons.mpr ⟨rfl, hsteady.cs⟩
  · rw [hws]
    exact hsteady.stable 0

end Chip

/-- A board at the beginning of page 1 of an image, with three pixels to go. -/
def boardAt1 (img : List (BitVec 8)) : Board :=
  { Paged.handedOver img with
    top :=
      { core := { (Paged.handedOver img).top.core with pc := 0xB4, regs := fun i => if i = 5 then 3 else 0 }
        mem := { (Paged.handedOver img).top.mem with flash_page := 1 } } }

theorem stream_exact_shipped :
    ∃ img, image shipped = .ok img ∧
      let b := Clocked.run (fun (b : Board) (_ : Unit) => b.step bootRom 0 false) (fun _ => ()) (boardAt1 img)
      ∃ T, Transmits b 0 T (stream shipped 3) := by
  obtain ⟨img, himg, hflash⟩ := image_ok (c := shipped) (by decide)
  refine ⟨img, himg, ?_⟩
  intro b
  have hflash' : Paged.InFlash (b 0).flash.mem img := hflash
  have h0 : (b 0).Ready := ⟨rfl, ⟨rfl, rfl⟩, ⟨rfl, rfl⟩, ⟨rfl, rfl, rfl⟩, ⟨rfl, rfl, rfl⟩⟩
  exact (@stream_exact shipped img bootRom (fun _ => 0) (fun _ => false) b himg (fun _ => rfl) h0 hflash').2
    0 0 _ ⟨rfl, rfl⟩ ⟨rfl, rfl, rfl⟩ (Nat.le_of_ble_eq_true rfl)

end St7789

end Pineapple
