import Mathlib.Data.List.Forall2
import Pineapple.Tools.Proofs.AsmProofs

/-!
# Proofs: the second pass

The entries an assembler has taken are its words and fixups in order. `finalize` leaves a finished word
where it is and fills the place of a branch or jump with the word for its own index.
-/

namespace Pineapple

namespace Asm

/-- What one `emit` appends. -/
abbrev Entry := Option Nat × Option Fixup

/-- The fixups of the entries from index `n` on. -/
def fixupsFrom : Nat → List Entry → List (Nat × Fixup)
  | _, [] => []
  | n, e :: es => (e.2.map fun f => (n, f)).toList ++ fixupsFrom (n + 1) es

theorem fixupsFrom_append (n : Nat) (es : List Entry) (e : Entry) :
    fixupsFrom n (es ++ [e]) = fixupsFrom n es ++ (e.2.map fun f => (n + es.length, f)).toList := by
  induction es generalizing n with
  | nil => simp [fixupsFrom]
  | cons e' es ih =>
    rw [List.cons_append, fixupsFrom, ih, fixupsFrom, List.append_assoc, List.length_cons,
      show n + 1 + es.length = n + (es.length + 1) by omega]

/-- The assembler `a` with the base `base` has taken the entries `es`. -/
structure Holds (base : Int) (es : List Entry) (a : Asm) : Prop where
  base_eq : a.base = base
  instrs_eq : a.instrs = es.map Prod.fst
  fixups_eq : a.fixups = fixupsFrom 0 es

variable {a b : Asm} {base : Int} {es : List Entry}

theorem holds_new (base : Int) : Holds base [] (new base) := ⟨rfl, rfl, rfl⟩

theorem Holds.emit (h : Holds base es a) (w : Option Nat) (fx : Option Fixup) :
    Holds base (es ++ [(w, fx)]) (a.emit w fx) where
  base_eq := h.base_eq
  instrs_eq := by
    rw [Asm.emit, h.instrs_eq]
    simp
  fixups_eq := by
    rw [Asm.emit, h.fixups_eq, h.instrs_eq, fixupsFrom_append]
    simp

theorem Holds.label (h : Holds base es a) {name : String} (hl : a.label name = .ok b) :
    Holds base es b := by
  unfold Asm.label at hl
  split at hl
  · cases hl
  · cases hl
    exact ⟨h.base_eq, h.instrs_eq, h.fixups_eq⟩

/-! ## The operands that a word keeps -/

section Wrap

variable {f : Form}

theorem Form.wrap_inRange (h : f.RegsOk) : f.wrap.InRange := by
  have h12 : ∀ v : Int, Form.Imm12 (v.bmod (2 ^ 12)) := fun v => by
    have := @Int.le_bmod v (2 ^ 12) (by decide)
    have := @Int.bmod_lt v (2 ^ 12) (by decide)
    constructor <;> omega
  cases f <;> simp only [Form.RegsOk, Form.regs, List.forall_mem_cons, List.not_mem_nil] at h
  case shift => exact ⟨h.1, h.2.1, Int.emod_nonneg _ (by decide), Int.emod_lt_of_pos _ (by decide)⟩
  case lui | auipc => exact ⟨h.1, Int.emod_nonneg _ (by decide), Int.emod_lt_of_pos _ (by decide)⟩
  case imm | load | jalr => exact ⟨h.1, h.2.1, h12 _⟩
  case store => exact ⟨h.2.1, h.1, h12 _⟩
  case reg => exact ⟨h.1, h.2.1, h.2.2.1⟩
  case branch => exact ⟨h.1, h.2.1⟩
  case jal => exact h.1

theorem Form.regsOk_of_inRange (h : f.InRange) : f.RegsOk := by
  cases f <;> simp only [Form.InRange] at h <;> simp [Form.RegsOk, Form.regs] <;> omega

theorem Form.wrap_of_inRange (h : f.InRange) : f.wrap = f := by
  have h12 : ∀ v : Int, Form.Imm12 v → v.bmod (2 ^ 12) = v := fun v hv =>
    Int.bmod_eq_of_le (by have := hv.1; omega) (by have := hv.2; omega)
  cases f
  case imm | load | jalr => rw [Form.wrap, h12 _ h.2.2]
  case store => rw [Form.wrap, h12 _ h.2.2]
  case shift => rw [Form.wrap, Int.emod_eq_of_lt h.2.2.1 h.2.2.2]
  case lui | auipc => rw [Form.wrap, Int.emod_eq_of_lt h.2.1 h.2.2]
  case reg | branch | jal => rfl

theorem s12_bmod (v : Int) : _s12 (v.bmod (2 ^ 12)) = _s12 v := by
  rw [_s12, _s12, lowBits, lowBits]
  congr 1
  exact Int.bmod_emod

theorem i_bmod (v : Int) (rs1 f3 rd op : Nat) : _i (v.bmod (2 ^ 12)) rs1 f3 rd op = _i v rs1 f3 rd op := by
  rw [_i, s12_bmod, _i]

theorem s_bmod (f3 rs2 rs1 : Nat) (v : Int) : _s f3 rs2 rs1 (v.bmod (2 ^ 12)) = _s f3 rs2 rs1 v := by
  rw [_s, s12_bmod, _s]

theorem lowBits_emod (v : Int) (k : Nat) : lowBits (v % 2 ^ k) k = lowBits v k := by
  rw [lowBits, Int.emod_emod_of_dvd v (dvd_refl _), lowBits]

theorem u_emod (imm20 : Int) (rd op : Nat) : _u (imm20 % 2 ^ 20) rd op = _u imm20 rd op := by
  rw [_u, lowBits_emod, _u]

theorem ofInt_bmod (n : Nat) (v : Int) : BitVec.ofInt n (v.bmod (2 ^ n)) = BitVec.ofInt n v := by
  apply BitVec.eq_of_toInt_eq
  rw [BitVec.toInt_ofInt, BitVec.toInt_ofInt, Int.bmod_bmod]

theorem ofInt_emod (n : Nat) (v : Int) : BitVec.ofInt n (v % 2 ^ n) = BitVec.ofInt n v := by
  apply BitVec.eq_of_toInt_eq
  rw [BitVec.toInt_ofInt, BitVec.toInt_ofInt]
  exact_mod_cast Int.emod_bmod v (2 ^ n)

/-- The fields of an instruction do not see more of an operand than the word keeps. -/
theorem Form.instr_wrap (off : Int) : f.wrap.instr off = f.instr off := by
  cases f <;> simp only [Form.wrap, Form.instr, ofInt_bmod]
  case shift =>
    congr 1
    exact ofInt_emod _ _
  case lui | auipc =>
    congr 1
    exact ofInt_emod _ _

theorem ofInt_of_toInt {n : Nat} {w : BitVec n} {v : Int} (h : w.toInt = v) : w = BitVec.ofInt n v := by
  rw [← h, BitVec.ofInt_toInt]

theorem ofInt_of_toNat {n : Nat} {w : BitVec n} {v : Int} (h : (w.toNat : Int) = v) : w = BitVec.ofInt n v := by
  rw [← h, BitVec.ofInt_natCast, BitVec.ofNat_toNat, BitVec.setWidth_eq]

theorem ofNat_of_toNat {n : Nat} {w : BitVec n} {v : Nat} (h : w.toNat = v) : w = BitVec.ofNat n v := by
  rw [← h, BitVec.ofNat_toNat, BitVec.setWidth_eq]

/-- The operands determine the instruction. -/
theorem Form.eq_instr {off : Int} {i : Rv32i.Instr} (h : f.Means off i) : i = f.instr off := by
  cases f <;> cases i <;> simp only [Form.Means] at h
  case reg.opReg =>
    obtain ⟨rfl, h1, h2, h3⟩ := h
    rw [ofNat_of_toNat h1, ofNat_of_toNat h2, ofNat_of_toNat h3, Form.instr]
  case imm.opImm =>
    obtain ⟨rfl, h1, h2, h3⟩ := h
    rw [ofNat_of_toNat h1, ofNat_of_toNat h2, ofInt_of_toInt h3, Form.instr]
  case shift.shift =>
    obtain ⟨rfl, h1, h2, h3⟩ := h
    rw [ofNat_of_toNat h1, ofNat_of_toNat h2, ofInt_of_toNat h3, Form.instr]
  case load.load =>
    obtain ⟨rfl, h1, h2, h3⟩ := h
    rw [ofNat_of_toNat h1, ofNat_of_toNat h2, ofInt_of_toInt h3, Form.instr]
  case store.store =>
    obtain ⟨rfl, h1, h2, h3⟩ := h
    rw [ofNat_of_toNat h1, ofNat_of_toNat h2, ofInt_of_toInt h3, Form.instr]
  case branch.branch =>
    obtain ⟨rfl, h1, h2, h3⟩ := h
    rw [ofNat_of_toNat h1, ofNat_of_toNat h2, ofInt_of_toInt h3, Form.instr]
  case jalr.jalr =>
    obtain ⟨h1, h2, h3⟩ := h
    rw [ofNat_of_toNat h1, ofNat_of_toNat h2, ofInt_of_toInt h3, Form.instr]
  case lui.lui | auipc.auipc => rw [ofNat_of_toNat h.1, ofInt_of_toNat h.2, Form.instr]
  case jal.jal => rw [ofNat_of_toNat h.1, ofInt_of_toInt h.2, Form.instr]

end Wrap

/-! ## One call -/

/-- A call that names an instruction does not raise and appends one entry. -/
theorem call_emits {c : Call} {f : Form} (hf : c.form = some f) (hregs : f.RegsOk) (a : Asm) :
    ∃ w fx, a.call c = .ok (a.emit w fx) ∧ Emits f.wrap w fx := by
  have hr := Form.wrap_inRange hregs
  cases c
  case label => cases hf
  all_goals cases hf
  case ADD | SUB | SLL | SLT | SLTU | XOR | SRL | SRA | OR | AND =>
    exact ⟨_, _, rfl, emits_r (by decide) (by decide) rfl hr⟩
  case ADDI | SLTI | SLTIU | XORI | ANDI | ORI =>
    refine ⟨_, _, rfl, ?_⟩
    rw [← i_bmod]
    exact emits_imm (by decide) rfl hr
  case SLLI rd rs1 sh | SRLI rd rs1 sh =>
    refine ⟨_, _, rfl, emits_shift (show 0 < 128 by decide) (by decide) rfl ?_ hr⟩
    rw [← lowBits_emod sh 5, Nat.zero_mul, Nat.zero_add]
    rfl
  case SRAI rd rs1 sh =>
    refine ⟨_, _, rfl, emits_shift (show 0x20 < 128 by decide) (by decide) rfl ?_ hr⟩
    rw [← lowBits_emod sh 5]
    exact or_eq_add 5 (by decide) (lowBits_lt _ 5)
  case LB | LH | LW | LBU | LHU =>
    refine ⟨_, _, rfl, ?_⟩
    rw [← i_bmod]
    exact emits_load (by decide) rfl hr
  case JALR =>
    refine ⟨_, _, rfl, ?_⟩
    rw [← i_bmod]
    exact emits_jalr hr
  case LUI =>
    refine ⟨_, _, rfl, ?_⟩
    rw [← u_emod]
    exact emits_lui hr
  case AUIPC =>
    refine ⟨_, _, rfl, ?_⟩
    rw [← u_emod]
    exact emits_auipc hr
  case SB | SW | SH =>
    refine ⟨_, _, rfl, ?_⟩
    rw [← s_bmod]
    exact emits_s (by decide) rfl hr
  case BEQ | BNE | BLT | BGE | BLTU | BGEU => exact ⟨_, _, rfl, .branch (by decide) rfl⟩
  case JAL => exact ⟨_, _, rfl, .jal⟩

/-- The entries of calls are those of the instructions they name. -/
def Entries (fs : List Form) (es : List Entry) : Prop := List.Forall₂ (fun f e => Emits f e.1 e.2) fs es

/-- The calls one after the other. -/
theorem calls_entries {cs : List Call} (hr : ∀ c ∈ cs, ∀ f, c.form = some f → f.RegsOk)
    (h : Holds base es a) (hok : a.calls cs = .ok b) :
    ∃ new, Holds base (es ++ new) b ∧ Entries ((cs.filterMap Call.form).map Form.wrap) new := by
  induction cs generalizing a es with
  | nil =>
    cases hok
    exact ⟨[], by simpa using h, .nil⟩
  | cons c cs ih =>
    rw [calls] at hok
    have hr' := fun c' hc' => hr c' (List.mem_cons_of_mem _ hc')
    cases hf : c.form with
    | none =>
      -- only a label names no instruction
      cases c with
      | label name =>
        rw [call] at hok
        cases hl : a.label name with
        | error e =>
          rw [hl] at hok
          cases hok
        | ok a' =>
          rw [hl] at hok
          obtain ⟨new, hb, hnew⟩ := ih hr' (h.label hl) hok
          exact ⟨new, hb, hnew⟩
      | _ => cases hf
    | some f =>
      obtain ⟨w, fx, hc, hem⟩ := call_emits hf (hr c List.mem_cons_self f hf) a
      rw [hc] at hok
      obtain ⟨new, hb, hnew⟩ := ih hr' (h.emit w fx) hok
      refine ⟨(w, fx) :: new, by simpa using hb, ?_⟩
      rw [List.filterMap_cons, hf]
      exact .cons hem hnew

/-! ## `finalize` -/

/-- What the second pass makes of the entry at index `i`. -/
def Filled (a : Asm) (i : Nat) (e : Entry) (w : Option Nat) : Prop :=
  match e.2 with
  | none => w = e.1
  | some f => ∃ v, a.fixupWord i f = .ok v ∧ w = some v

/-- The induction is on the entries that are left; `pre` are the words before them. -/
theorem resolve_filled {pre out : List (Option Nat)} (es : List Entry)
    (h : a.resolve (pre ++ es.map Prod.fst) (fixupsFrom pre.length es) = .ok out) :
    ∃ ws, out = pre ++ ws ∧ ws.length = es.length ∧
      ∀ i (h1 : i < es.length) (h2 : i < ws.length), a.Filled (pre.length + i) es[i] ws[i] := by
  induction es generalizing pre with
  | nil =>
    cases h
    exact ⟨[], by simp, rfl, by simp⟩
  | cons e es ih =>
    obtain ⟨w, fx⟩ := e
    -- the rest is resolved with the word `v` of this entry added to the prefix
    have hrest : ∀ v, a.resolve (pre ++ v :: es.map Prod.fst) (fixupsFrom (pre.length + 1) es) = .ok out →
        a.Filled pre.length (w, fx) v →
        ∃ ws, out = pre ++ ws ∧ ws.length = (((w, fx) : Entry) :: es).length ∧
          ∀ i (h1 : i < (((w, fx) : Entry) :: es).length) (h2 : i < ws.length),
            a.Filled (pre.length + i) (((w, fx) : Entry) :: es)[i] ws[i] := by
      intro v hv hw
      obtain ⟨ws, hout, hlen, hfill⟩ := @ih (pre ++ [v]) (by simpa using hv)
      refine ⟨v :: ws, by simp [hout], by simp [hlen], fun i h1 h2 => ?_⟩
      cases i with
      | zero => exact hw
      | succ i =>
        have := hfill i (Nat.lt_of_succ_lt_succ h1) (Nat.lt_of_succ_lt_succ h2)
        rw [List.length_append, List.length_singleton, Nat.add_assoc, Nat.add_comm 1] at this
        exact this
    cases fx with
    | none => exact hrest w h rfl
    | some f =>
      rw [show fixupsFrom pre.length ((w, some f) :: es) =
        (pre.length, f) :: fixupsFrom (pre.length + 1) es from rfl, resolve] at h
      cases hv : a.fixupWord pre.length f with
      | error err =>
        rw [hv] at h
        cases h
      | ok v =>
        rw [hv] at h
        refine hrest (some v) ?_ ⟨v, hv, rfl⟩
        simpa [Bind.bind, Except.bind] using h

theorem map_some_filterMap : ∀ {ws : List (Option Nat)}, ws.all Option.isSome = true →
    (ws.filterMap id).map some = ws
  | [], _ => rfl
  | none :: _, h => by simp at h
  | some w :: ws, h => by
    have ih := @map_some_filterMap ws (by simpa using h)
    rw [List.filterMap_cons_some (show id (some w) = some w from rfl), List.map_cons, ih]

/-- What `finalize` returns for the entries `es`. -/
theorem finalize_filled (h : Holds base es a) {words : List Nat} (hok : a.finalize = .ok words) :
    words.length = es.length ∧
      ∀ i (h1 : i < es.length) (h2 : i < words.length), a.Filled i es[i] (some words[i]) := by
  rw [finalize, h.instrs_eq, h.fixups_eq] at hok
  cases hres : a.resolve (es.map Prod.fst) (fixupsFrom 0 es) with
  | error e =>
    rw [hres] at hok
    cases hok
  | ok out =>
    obtain ⟨ws, hout, hlen, hfill⟩ := @resolve_filled a [] out es hres
    rw [List.nil_append] at hout
    rw [hres, hout] at hok
    simp only [Bind.bind, Except.bind] at hok
    split at hok
    · rename_i hall
      have hws : ws = words.map some := by
        rw [← Except.ok.inj hok]
        exact (map_some_filterMap hall).symm
      subst hws
      rw [List.length_map] at hlen
      refine ⟨hlen, fun i h1 h2 => ?_⟩
      have := hfill i h1 (by simpa using h2)
      simpa using this
    · cases hok

end Asm

end Pineapple
