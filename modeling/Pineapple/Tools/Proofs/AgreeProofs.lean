import Pineapple.Rtl.Proofs.MemProofs
import Pineapple.Tools.Proofs.FinalizeProofs

/-!
# Proofs: every program of the assembler

A word that an RV32I decoder reads as an instruction is read the same by the core, so what is left is the
offset of a branch or jump and the order of the bytes.
-/

namespace Pineapple

open Rv32i (Instr Word Reg readReg)

namespace Asm

/-! ## The wires of the core -/

section Wires

variable {f : Form} {off : Int} {w : Word} {x : Instr}

theorem toNat_imm_u (w : Word) : (Ir.imm_u w).toNat = (Rv32i.immU w).toNat * 2 ^ 12 := by
  rw [imm_u_eq, BitVec.toNat_append, BitVec.toNat_ofNat, Nat.zero_mod, Nat.or_zero, Nat.shiftLeft_eq]

theorem toInt_imm_i (w : Word) : (Ir.imm_i w).toInt = (Rv32i.immI w).toInt := by
  rw [imm_i_eq, BitVec.toInt_signExtend_of_le (by omega)]

theorem toInt_imm_s (w : Word) : (Ir.imm_s w).toInt = (Rv32i.immS w).toInt := by
  rw [imm_s_eq, BitVec.toInt_signExtend_of_le (by omega)]

/-- What an instruction means is what the wires say. -/
theorem decodesIn_of_means (hx : Rv32i.decode w = some x) (hf : f.Means off x) : f.DecodesIn w := by
  cases encodes_of_decode w hx with
  | opReg ho hop =>
    cases f with
    | reg op rd rs1 rs2 =>
      obtain ⟨rfl, hd, h1, h2⟩ := hf
      exact ⟨ho, hd, h1, h2, fun regs => alu_reg_eq regs w ho hop⟩
    | _ => cases hf
  | opImm ho hop =>
    cases f with
    | imm op rd rs1 v =>
      obtain ⟨rfl, hd, h1, hv⟩ := hf
      exact ⟨ho, hd, h1, (toInt_imm_i w).trans hv, fun regs => alu_imm_eq regs w ho hop⟩
    | _ => cases hf
  | shift ho hop =>
    cases f with
    | shift op rd rs1 sh =>
      obtain ⟨rfl, hd, h1, rfl⟩ := hf
      refine ⟨ho, hd, h1, fun regs => ?_⟩
      rw [BitVec.ofInt_natCast, BitVec.ofNat_toNat, BitVec.setWidth_eq]
      exact alu_shift_eq regs w ho hop
    | _ => cases hf
  | load ho hop =>
    cases f with
    | load op rd rs1 v =>
      obtain ⟨rfl, hd, h1, hv⟩ := hf
      exact ⟨ho, hd, h1, (toInt_imm_i w).trans hv, fun regs => alu_load_eq regs w ho,
        access_size_load w hop, fun d => load_value_eq w hop d⟩
    | _ => cases hf
  | jalr ho =>
    cases f with
    | jalr rd rs1 v => exact ⟨ho, hf.1, hf.2.1, (toInt_imm_i w).trans hf.2.2⟩
    | _ => cases hf
  | lui ho =>
    cases f with
    | lui rd imm20 =>
      refine ⟨ho, hf.1, ?_⟩
      rw [toNat_imm_u, Nat.cast_mul, hf.2]
      rfl
    | _ => cases hf
  | auipc ho =>
    cases f with
    | auipc rd imm20 =>
      refine ⟨ho, hf.1, ?_⟩
      rw [toNat_imm_u, Nat.cast_mul, hf.2]
      rfl
    | _ => cases hf
  | store ho hop =>
    cases f with
    | store op rs2 rs1 v =>
      obtain ⟨rfl, h2, h1, hv⟩ := hf
      exact ⟨ho, h2, h1, (toInt_imm_s w).trans hv, fun regs => alu_store_eq regs w ho,
        access_size_store w hop⟩
    | _ => cases hf
  | branch ho hop =>
    cases f with
    | branch op rs1 rs2 name =>
      obtain ⟨rfl, h1, h2, -⟩ := hf
      exact ⟨ho, h1, h2, fun regs => branch_cond_eq regs w hop⟩
    | _ => cases hf
  | jal ho =>
    cases f with
    | jal rd name => exact ⟨ho, hf.1⟩
    | _ => cases hf
  | fence ho | ecall ho | ebreak ho => cases f <;> cases hf

/-- The low byte of an offset, from its value. -/
theorem setWidth_of_toInt {n : Nat} {v : BitVec n} (h : 8 ≤ n) (hv : v.toInt = off) :
    v.setWidth 8 = BitVec.ofInt 8 off := by
  rw [← hv]
  apply BitVec.eq_of_toInt_eq
  rw [BitVec.toInt_ofInt, BitVec.toInt_setWidth, BitVec.toInt_eq_toNat_bmod]
  exact (Int.bmod_bmod_of_dvd (by exact_mod_cast Nat.pow_dvd_pow 2 h)).symm

/-- A taken branch or a jump goes to its target. -/
theorem next_pc_of_means (hx : Rv32i.decode w = some x) (hf : f.Means off x) {regs : Regs}
    (ht : f.Taken w regs) (pc : BitVec 8) : Ir.next_pc w regs pc = pc + BitVec.ofInt 8 off := by
  have hne : ¬ OP_BRANCH = OP_JAL := by decide
  have hne' : ¬ OP_BRANCH = OP_JALR := by decide
  cases encodes_of_decode w hx with
  | branch ho hop =>
    cases f with
    | branch op rs1 rs2 name =>
      have hc : Ir.branch_cond w regs = true := ht
      obtain ⟨-, -, -, hv⟩ := hf
      rw [Ir.next_pc, ho, if_neg hne, if_neg hne', if_pos rfl, hc, if_pos rfl, imm_b_eq,
        setWidth_signExtend_low _ (by omega), setWidth_of_toInt (by omega) hv]
    | _ => cases hf
  | jal ho =>
    cases f with
    | jal rd name =>
      rw [Ir.next_pc, ho, if_pos rfl, imm_j_eq, setWidth_signExtend_low _ (by omega),
        setWidth_of_toInt (by omega) hf.2]
    | _ => cases hf
  | _ => cases f <;> first | exact False.elim ht | exact False.elim hf

/-- A word that encodes `f` with the offset from index `i` to `l`. -/
theorem agrees_of_encoded {base : Int} {labels : List (String × Int)} {i w : Nat} {l : Int}
    (hl : ∀ name, f.target = some name → labels.lookup name = some l)
    (h : Encoded f (l - (base + 4 * i)) w) : ∃ x, Agrees base labels i f w l x := by
  obtain ⟨hlt, x, hx, hf⟩ := h
  refine ⟨x, hlt, hl, hx, hf, decodesIn_of_means hx hf, fun regs ht => ?_, fun pc regs d => ?_⟩
  · rw [next_pc_of_means hx hf ht, ← BitVec.ofInt_add]
    congr 1
    omega
  · exact ⟨writeback_eq regs _ hx pc d, next_pc_eq regs _ hx pc⟩

end Wires

/-! ## The second pass -/

section Finalize

variable {a b : Asm} {base : Int} {es : List Entry} {fs : List Form} {words : List Nat}

theorem target_ok {name : String} {l : Int} (h : a.target name = .ok l) : a.labels.lookup name = some l := by
  unfold target at h
  split at h
  · rw [← Except.ok.inj h]
    assumption
  · cases h

/-- An entry of an instruction, filled in. -/
theorem encoded_of_filled {f : Form} {e : Entry} {i w : Nat} (hr : f.InRange) (he : Emits f e.1 e.2)
    (hw : a.Filled i e (some w)) :
    ∃ l, (∀ name, f.target = some name → a.labels.lookup name = some l) ∧
      Encoded f (l - (a.base + 4 * i)) w := by
  obtain ⟨e1, e2⟩ := e
  cases he with
  | word ht henc =>
    cases Option.some.inj hw
    refine ⟨0, ⟨fun name hn => ?_, henc _⟩⟩
    rw [ht] at hn
    cases hn
  | branch h3 hop =>
    obtain ⟨v, hv, hvw⟩ := hw
    cases Option.some.inj hvw
    rename_i name
    rw [fixupWord] at hv
    cases hl : a.target name with
    | error e =>
      rw [hl] at hv
      cases hv
    | ok l =>
      rw [hl] at hv
      simp only [Bind.bind, Except.bind] at hv
      split at hv
      · rename_i hin
        rw [← Except.ok.inj hv, Int.mul_comm 4]
        refine ⟨l, fun n hn => ?_, encoded_branch h3 hop hr hin.1 hin.2.1 hin.2.2⟩
        rw [← Option.some.inj hn, target_ok hl]
      · cases hv
  | jal =>
    obtain ⟨v, hv, hvw⟩ := hw
    cases Option.some.inj hvw
    rename_i name
    rw [fixupWord] at hv
    cases hl : a.target name with
    | error e =>
      rw [hl] at hv
      cases hv
    | ok l =>
      rw [hl] at hv
      simp only [Bind.bind, Except.bind] at hv
      split at hv
      · rename_i hin
        rw [← Except.ok.inj hv, Int.mul_comm 4]
        refine ⟨l, fun n hn => ?_, encoded_jal hr hin.1 hin.2.1 hin.2.2⟩
        rw [← Option.some.inj hn, target_ok hl]
      · cases hv

/-- Every word of a finalized program is the instruction of its entry. -/
theorem agrees_of_finalize (h : Holds base es a) (hes : Entries fs es) (hr : ∀ f ∈ fs, f.InRange)
    (hok : a.finalize = .ok words) :
    words.length = fs.length ∧ ∀ i (hf : i < fs.length) (hw : i < words.length),
      ∃ l x, Agrees base a.labels i fs[i] words[i] l x := by
  obtain ⟨hlen, hfill⟩ := finalize_filled h hok
  refine ⟨hlen.trans hes.length_eq.symm, fun i hf hw => ?_⟩
  have he : Emits fs[i] es[i].1 es[i].2 := hes.get hf (by omega)
  obtain ⟨l, hl, henc⟩ := encoded_of_filled (hr _ (List.getElem_mem hf)) he (hfill i (by omega) hw)
  rw [h.base_eq] at henc
  exact ⟨l, agrees_of_encoded hl henc⟩

/-- A label stands before the instruction whose address it gets. -/
theorem calls_labels {cs : List Call} (hr : ∀ c ∈ cs, ∀ f, c.form = some f → f.RegsOk)
    (hok : a.calls cs = .ok b) {name : String} {l : Int} (hl : b.labels.lookup name = some l) :
    a.labels.lookup name = some l ∨ ∃ before after, cs = before ++ .label name :: after ∧
      l = a.addr + 4 * (before.filterMap Call.form).length := by
  induction cs generalizing a with
  | nil =>
    cases hok
    exact .inl hl
  | cons c cs ih =>
    rw [calls] at hok
    have hr' := fun c' hc' => hr c' (List.mem_cons_of_mem _ hc')
    cases hf : c.form with
    | none =>
      cases c with
      | label n =>
        rw [call, Asm.label] at hok
        split at hok
        · cases hok
        rcases ih hr' hok with h | ⟨before, after, rfl, h⟩
        · rw [List.lookup_cons] at h
          split at h
          · rename_i hn
            cases Option.some.inj h
            exact .inr ⟨[], cs, by rw [eq_of_beq hn]; rfl, by simp⟩
          · exact .inl h
        · exact .inr ⟨.label n :: before, after, rfl, h⟩
      | _ => cases hf
    | some f =>
      obtain ⟨w, fx, hc, -⟩ := call_emits hf (hr c List.mem_cons_self f hf) a
      rw [hc] at hok
      rcases ih hr' hok with h | ⟨before, after, rfl, h⟩
      · exact .inl h
      · refine .inr ⟨c :: before, after, rfl, ?_⟩
        rw [List.filterMap_cons, hf, h, addr, addr, emit]
        simp only [List.length_append, List.length_cons, List.length_nil]
        push_cast
        omega

end Finalize

/-! ## The bytes -/

section Bytes

theorem to_bytes_ok {w : Nat} (h : w < 2 ^ 32) : to_bytes w = .ok (Bits.toLE (BitVec.ofNat 32 w) 4) := by
  rw [to_bytes, if_pos h]
  congr 1
  apply List.map_congr_left
  intro k hk
  have hk4 : k < 4 := List.mem_range.mp hk
  apply BitVec.eq_of_toNat_eq
  rw [BitVec.toNat_ofNat, BitVec.extractLsb'_toNat, BitVec.toNat_ofNat, Nat.mod_eq_of_lt h]

/-- The bytes of the words in order, four to a word. -/
theorem words_to_bytes_ok {words : List Nat} (h : ∀ w ∈ words, w < 2 ^ 32) :
    ∃ bytes, words_to_bytes words = .ok bytes ∧ bytes.length = 4 * words.length ∧
      ∀ i (hi : i < words.length), (bytes.drop (4 * i)).take 4 = Bits.toLE (BitVec.ofNat 32 words[i]) 4 := by
  induction words with
  | nil => exact ⟨[], rfl, rfl, by simp⟩
  | cons w words ih =>
    obtain ⟨bytes, hb, hlen, hget⟩ := ih fun v hv => h v (List.mem_cons_of_mem _ hv)
    have h4 : (Bits.toLE (BitVec.ofNat 32 w) 4).length = 4 := Bits.length_toLE _ _
    refine ⟨Bits.toLE (BitVec.ofNat 32 w) 4 ++ bytes, ?_, ?_, fun i hi => ?_⟩
    · rw [words_to_bytes, to_bytes_ok (h w List.mem_cons_self), hb]
      rfl
    · rw [List.length_append, h4, hlen, List.length_cons]
      omega
    · cases i with
      | zero => rw [Nat.mul_zero, List.drop_zero, List.take_left' h4, List.getElem_cons_zero]
      | succ i =>
        rw [show 4 * (i + 1) = (Bits.toLE (BitVec.ofNat 32 w) 4).length + 4 * i by omega,
          List.drop_length_add_append]
        exact hget i (Nat.lt_of_succ_lt_succ hi)

/-- The word that starts at a byte of the RAM is the four bytes from there on. -/
theorem ram_word_eq (m : MemRegs) {addr : BitVec 8} (h1 : 0xB0 ≤ addr.toNat) (h2 : addr.toNat + 3 ≤ 0xDF) :
    m.ram_word addr = Bits.ofLE 32 ((List.range 4).map fun j => m.ramByte (addr.toNat + j)) := by
  have hra : (ram_addr addr).toNat = addr.toNat - 0xB0 := by
    have hoff : (addr - RAM_BASE).toNat = addr.toNat - 0xB0 := by
      rw [BitVec.toNat_sub]
      show (2 ^ 8 - 176 + addr.toNat) % 2 ^ 8 = _
      omega
    rw [ram_addr, BitVec.extractLsb'_toNat, hoff]
    omega
  have hoff : (ram_byte_off addr).toNat = (addr.toNat - 0xB0) % 4 := by
    rw [ram_byte_off, BitVec.extractLsb'_toNat, hra, Nat.shiftRight_zero]
  have hw0 : ram_widx0 addr = BitVec.ofNat 4 ((addr.toNat - 0xB0) / 4) := by
    apply BitVec.eq_of_toNat_eq
    rw [ram_widx0, BitVec.extractLsb'_toNat, hra, BitVec.toNat_ofNat, Nat.shiftRight_eq_div_pow]
  have hw1 : ram_widx1 addr = BitVec.ofNat 4 ((addr.toNat - 0xB0) / 4 + 1) := by
    rw [ram_widx1, show (ram_addr addr).extractLsb' 2 4 = _ from hw0, BitVec.ofNat_add]
    rfl
  rw [MemRegs.ram_word, pair_word, hoff, hw0, hw1]
  apply BitVec.eq_of_getLsbD_eq
  intro i hi
  have hlt : i / 8 < ((List.range 4).map fun j => m.ramByte (addr.toNat + j)).length := by
    rw [List.length_map, List.length_range]
    omega
  have hbit : i % 8 < 8 := Nat.mod_lt _ (by omega)
  rw [Bits.getLsbD_ofLE, decide_eq_true hi, Bool.true_and, List.getD_eq_getElem _ _ hlt, List.getElem_map,
    List.getElem_range, MemRegs.ramByte, BitVec.getLsbD_extractLsb', decide_eq_true hi, Bool.true_and,
    BitVec.getLsbD_extractLsb', decide_eq_true hbit, Bool.true_and, BitVec.getLsbD_append]
  -- the byte is in the first word, or in the one after it
  split
  · rw [show (addr.toNat + i / 8 - 0xB0) / 4 = (addr.toNat - 0xB0) / 4 by omega,
      show 8 * ((addr.toNat + i / 8 - 0xB0) % 4) + i % 8 = (addr.toNat - 0xB0) % 4 * 8 + i by omega]
  · rw [show (addr.toNat + i / 8 - 0xB0) / 4 = (addr.toNat - 0xB0) / 4 + 1 by omega,
      show 8 * ((addr.toNat + i / 8 - 0xB0) % 4) + i % 8 = (addr.toNat - 0xB0) % 4 * 8 + i - 32 by omega]

/-- The bytes of a word are fetched as the word. -/
theorem fetchedAs_toLE (v : Word) : FetchedAs (fun j => (Bits.toLE v 4).getD j 0) v := by
  have hrange : (List.range 4).map (fun j => (Bits.toLE v 4).getD j 0) = Bits.toLE v 4 := rfl
  refine ⟨fun m rom gpio_in ext addr hmode h1 h2 hb => ?_, fun σ b hs hf hb => ?_⟩
  · have hrom : in_rom addr = false := by
      rw [← Bool.not_eq_true, in_rom_iff]
      omega
    have hram : m.in_ram addr = true := by
      rw [MemRegs.in_ram, MemRegs.in_ext_flash, hmode, (in_ram_range_iff addr).mpr ⟨h1, by omega⟩]
      rfl
    rw [MemRegs.rdata, hrom, if_neg Bool.false_ne_true, hram, if_pos rfl, ram_word_eq m h1 h2,
      List.map_congr_left fun j hj => hb j (List.mem_range.mp hj), hrange, Bits.ofLE_toLE _ _ (by omega)]
  · have hp : ¬ MemRegs.InPsram b.addr := by
      have := hf.2.2
      unfold MemRegs.InPsram
      omega
    refine ⟨_, by rw [Windows.read, if_neg hp, if_pos hf], ?_⟩
    have hload : Bits.ByteMemory.load σ.flash
        (BitVec.ofNat 14 (σ.regs.flash_page.toNat * 44 + (b.addr.toNat - 0xB4))) (nbytes b.size) =
        Bits.toLE v 4 := by
      rw [← hrange, hs]
      apply List.map_congr_left
      intro j hj
      rw [← hb j (List.mem_range.mp hj), BitVec.ofNat_add (_ + _) j]
    rw [hload, Bits.ofLE_toLE _ _ (by omega)]

end Bytes

/-! ## The whole program -/

/-- For every program and every base the words that `finalize` returns are the instructions the calls name, for
the core and for an RV32I decoder, and their bytes are fetched as these words. -/
theorem assembler_agrees {base : Int} {cs : List Call} {a : Asm} {words : List Nat}
    (hr : ∀ c ∈ cs, ∀ f, c.form = some f → f.InRange) (hcs : (new base).calls cs = .ok a)
    (hok : a.finalize = .ok words) :
    words.length = (cs.filterMap Call.form).length ∧
    (∀ i (hf : i < (cs.filterMap Call.form).length) (hw : i < words.length),
      ∃ l x, Agrees base a.labels i (cs.filterMap Call.form)[i] words[i] l x) ∧
    (∀ name l, a.labels.lookup name = some l → ∃ before after, cs = before ++ .label name :: after ∧
      l = base + 4 * (before.filterMap Call.form).length) ∧
    ∃ bytes, words_to_bytes words = .ok bytes ∧ bytes.length = 4 * words.length ∧
      ∀ i (hw : i < words.length),
        FetchedAs (fun j => bytes.getD (4 * i + j) 0) (BitVec.ofNat 32 words[i]) := by
  have hregs : ∀ c ∈ cs, ∀ f, c.form = some f → f.RegsOk := fun c hc f hf =>
    Form.regsOk_of_inRange (hr c hc f hf)
  obtain ⟨es, hes, hent⟩ := calls_entries hregs (holds_new base) hcs
  have hrange : ∀ f ∈ cs.filterMap Call.form, f.InRange := by
    intro f hf
    obtain ⟨c, hc, hcf⟩ := List.mem_filterMap.mp hf
    exact hr c hc f hcf
  have hwrap : (cs.filterMap Call.form).map Form.wrap = cs.filterMap Call.form := by
    have h := List.map_congr_left (f := Form.wrap) (g := id) fun f hf => Form.wrap_of_inRange (hrange f hf)
    rw [h, List.map_id]
  rw [List.nil_append] at hes
  rw [hwrap] at hent
  obtain ⟨hlen, hag⟩ := agrees_of_finalize hes hent hrange hok
  refine ⟨hlen, hag, fun name l hl => ?_, ?_⟩
  · rcases calls_labels hregs hcs hl with h | ⟨before, after, h, hl'⟩
    · cases h
    · refine ⟨before, after, h, hl'.trans ?_⟩
      rw [addr, new]
      simp
  · have hlt : ∀ w ∈ words, w < 2 ^ 32 := by
      intro w hw
      obtain ⟨i, hi, rfl⟩ := List.getElem_of_mem hw
      obtain ⟨l, x, h⟩ := hag i (by omega) hi
      exact h.lt
    obtain ⟨bytes, hb, hblen, hget⟩ := words_to_bytes_ok hlt
    refine ⟨bytes, hb, hblen, fun i hw => ?_⟩
    have hfun : ∀ j < 4, (Bits.toLE (BitVec.ofNat 32 words[i]) 4).getD j 0 = bytes.getD (4 * i + j) 0 := by
      intro j hj
      rw [← hget i hw, List.getD_eq_getElem?_getD, List.getElem?_take_of_lt hj, List.getElem?_drop,
        List.getD_eq_getElem?_getD]
    have hfe := fetchedAs_toLE (BitVec.ofNat 32 words[i])
    refine ⟨fun m rom gpio_in ext addr h1 h2 h3 h4 => ?_, fun σ b h1 h2 h3 => ?_⟩
    · exact hfe.ram m rom gpio_in ext addr h1 h2 h3 fun j hj => (h4 j hj).trans (hfun j hj).symm
    · exact hfe.flash σ b h1 h2 fun j hj => (h3 j hj).trans (hfun j hj).symm

/-- A loop with a forward and a backward branch. -/
theorem assembler_agrees_loop :
    let cs : List Call := [.ADDI 5 0 (-3), .label "LOOP", .BEQ 5 0 "DONE", .ADDI 5 5 1, .JAL 0 "LOOP",
      .label "DONE", .SB 5 6 (-1)]
    let words : List Nat := [0xffd00293, 0x00028663, 0x00128293, 0xff9ff06f, 0xfe530fa3]
    ∃ a, (new 0xB4).calls cs = .ok a ∧ a.finalize = .ok words ∧
      ∃ l x, Agrees 0xB4 a.labels 3 (.jal 0 "LOOP") 0xff9ff06f l x := by
  intro cs words
  have hr : ∀ c ∈ cs, ∀ f, c.form = some f → f.InRange := by
    have h : ∀ c ∈ cs, c.form.all (fun f => decide f.InRange) = true := by decide
    intro c hc f hf
    have := h c hc
    rw [hf] at this
    exact of_decide_eq_true this
  refine ⟨_, rfl, rfl, ?_⟩
  exact (@assembler_agrees 0xB4 cs _ words hr rfl rfl).2.1 3 (by decide) (by decide)

end Asm

end Pineapple
