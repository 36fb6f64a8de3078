import Mathlib.Data.List.Induction
import Pineapple.Tools.Paged
import Pineapple.Tools.Proofs.AgreeProofs

/-!
# Proofs: the end of a page

The assembler of the open page is the one that takes the calls of the page, so a page of at most nine instructions
with its targets defined is finalized, and the words that end the page are finished ones after it.
-/

namespace Pineapple

/-- An `Except` chain that succeeds. -/
theorem bind_ok {ε α β : Type} {x : Except ε α} {f : α → Except ε β} {b : β} :
    (x >>= f) = .ok b ↔ ∃ a, x = .ok a ∧ f a = .ok b := by
  cases x with
  | error e =>
    constructor
    · intro h
      cases h
    · rintro ⟨a, h, -⟩
      cases h
  | ok a =>
    constructor
    · exact fun h => ⟨a, rfl, h⟩
    · rintro ⟨a', h, hb⟩
      cases h
      exact hb

namespace Asm

variable {a b : Asm} {base : Int} {es : List Entry} {fs : List Form}

/-! ## Finished words at the end -/

/-- The assembler with the finished words `ws` appended. -/
def append (a : Asm) (ws : List Nat) : Asm := { a with instrs := a.instrs ++ ws.map some }

theorem append_nil (a : Asm) : a.append [] = a := by
  rw [append, List.map_nil, List.append_nil]

theorem append_append (a : Asm) (ws ws' : List Nat) : (a.append ws).append ws' = a.append (ws ++ ws') := by
  rw [append, append, append, List.map_append, ← List.append_assoc]

theorem word_eq_append (a : Asm) (w : Nat) : a.word w = a.append [w] := by
  rw [word, emit, append]
  simp

theorem fixupWord_append (a : Asm) (ws : List Nat) (i : Nat) (f : Fixup) :
    (a.append ws).fixupWord i f = a.fixupWord i f := by
  cases f <;> rfl

/-- The places that are filled in lie before the words `post`. -/
theorem resolve_append {ws : List Nat} {post : List (Option Nat)} {fxs : List (Nat × Fixup)} :
    ∀ {pre : List (Option Nat)}, (∀ x ∈ fxs, x.1 < pre.length) →
      (a.append ws).resolve (pre ++ post) fxs = (· ++ post) <$> a.resolve pre fxs := by
  induction fxs with
  | nil => intro pre _; rfl
  | cons x fxs ih =>
    obtain ⟨i, f⟩ := x
    intro pre hlt
    rw [resolve, resolve, fixupWord_append]
    cases a.fixupWord i f with
    | error e => rfl
    | ok v =>
      have hi : i < pre.length := hlt (i, f) List.mem_cons_self
      show (a.append ws).resolve ((pre ++ post).set i (some v)) fxs = _ <$> a.resolve (pre.set i (some v)) fxs
      rw [List.set_append_left _ _ hi]
      refine ih fun x hx => ?_
      rw [List.length_set]
      exact hlt x (List.mem_cons_of_mem _ hx)

theorem fixupsFrom_lt {n : Nat} {x : Nat × Fixup} (hx : x ∈ fixupsFrom n es) :
    n ≤ x.1 ∧ x.1 < n + es.length := by
  induction es generalizing n with
  | nil => cases hx
  | cons e es ih =>
    rw [List.length_cons]
    rcases List.mem_append.mp hx with h | h
    · have : x.1 = n := by
        obtain ⟨f, -, rfl⟩ := Option.map_eq_some_iff.mp (Option.mem_toList.mp h)
        rfl
      omega
    · have := ih h
      omega

/-- Finished words are returned as they are. -/
theorem finalize_append (h : Holds base es a) {words ws : List Nat} (hok : a.finalize = .ok words) :
    (a.append ws).finalize = .ok (words ++ ws) := by
  obtain ⟨out, hres, hall⟩ := bind_ok.mp hok
  have hlt : ∀ x ∈ a.fixups, x.1 < a.instrs.length := by
    intro x hx
    rw [h.fixups_eq] at hx
    rw [h.instrs_eq, List.length_map]
    have := fixupsFrom_lt hx
    omega
  split at hall
  · rename_i hsome
    have hout : (a.append ws).resolve (a.append ws).instrs (a.append ws).fixups = .ok (out ++ ws.map some) := by
      show (a.append ws).resolve (a.instrs ++ ws.map some) a.fixups = _
      rw [resolve_append hlt, hres]
      rfl
    refine bind_ok.mpr ⟨_, hout, ?_⟩
    rw [if_pos (by rw [List.all_append, hsome]; simp), List.filterMap_append, Except.ok.inj hall]
    simp
  · cases hall

/-! ## A page that is finalized -/

/-- The second pass succeeds where every word can be made. -/
theorem resolve_ok {fxs : List (Nat × Fixup)} : ∀ {pre : List (Option Nat)},
    (∀ x ∈ fxs, ∃ v, a.fixupWord x.1 x.2 = .ok v) → ∃ out, a.resolve pre fxs = .ok out := by
  induction fxs with
  | nil => exact fun _ => ⟨_, rfl⟩
  | cons x fxs ih =>
    intro pre h
    obtain ⟨v, hv⟩ := h x List.mem_cons_self
    obtain ⟨out, hout⟩ := @ih (pre.set x.1 (some v)) fun y hy => h y (List.mem_cons_of_mem _ hy)
    exact ⟨out, bind_ok.mpr ⟨v, hv, hout⟩⟩

/-- An entry of an instruction does not stay empty. -/
theorem isSome_of_filled {f : Form} {e : Entry} {i : Nat} {w : Option Nat} (he : Emits f e.1 e.2)
    (hw : a.Filled i e w) : w.isSome := by
  obtain ⟨e1, e2⟩ := e
  cases he with
  | word =>
    rw [show w = _ from hw]
    rfl
  | branch | jal =>
    obtain ⟨v, -, hv⟩ := hw
    rw [hv]
    rfl

/-- Every word can be made, so the program is finalized. -/
theorem finalize_ok (h : Holds base es a) (hes : Entries fs es)
    (hfix : ∀ x ∈ a.fixups, ∃ v, a.fixupWord x.1 x.2 = .ok v) : ∃ words, a.finalize = .ok words := by
  obtain ⟨out, hout⟩ := @resolve_ok a a.fixups a.instrs hfix
  have hres := hout
  rw [h.instrs_eq, h.fixups_eq] at hres
  obtain ⟨ws, hws, hlen, hfill⟩ := @resolve_filled a [] out es hres
  rw [List.nil_append] at hws
  subst hws
  have hall : out.all Option.isSome = true := by
    rw [List.all_eq_true]
    intro w hw
    obtain ⟨i, hi, rfl⟩ := List.getElem_of_mem hw
    have he : i < es.length := by omega
    exact isSome_of_filled (hes.get (by rw [hes.length_eq]; exact he) he) (hfill i he hi)
  refine ⟨out.filterMap id, bind_ok.mpr ⟨out, hout, ?_⟩⟩
  rw [if_pos hall]

/-- A branch or jump to a label of a page of at most nine instructions is in range. -/
theorem fixupWord_ok (hbase : a.base = 0xB4) {i j : Nat} (hi : i ≤ 9) (hj : j ≤ 9) {f : Fixup}
    (hl : a.labels.lookup f.label = some (0xB4 + 4 * (j : Int))) : ∃ v, a.fixupWord i f = .ok v := by
  have ht : a.target f.label = .ok (0xB4 + 4 * j) := by rw [target, hl]
  cases f with
  | branch f3 rs1 rs2 name =>
    exact ⟨branchWord _ f3 rs1 rs2, bind_ok.mpr ⟨_, ht, if_pos (by omega)⟩⟩
  | jal rd name =>
    exact ⟨jalWord _ rd, bind_ok.mpr ⟨_, ht, if_pos (by omega)⟩⟩

/-- A word that was made is one for a target that is defined. -/
theorem isSome_of_fixupWord {i v : Nat} {f : Fixup} (h : a.fixupWord i f = .ok v) :
    (a.labels.lookup f.label).isSome := by
  cases f with
  | branch f3 rs1 rs2 name | jal rd name =>
    obtain ⟨l, hl, -⟩ := bind_ok.mp h
    show (a.labels.lookup name).isSome
    rw [target_ok hl]
    rfl

theorem fixups_of_finalize {words : List Nat} (h : a.finalize = .ok words) :
    ∀ x ∈ a.fixups, (a.labels.lookup x.2.label).isSome := by
  obtain ⟨out, hres, -⟩ := bind_ok.mp h
  have key : ∀ (fxs : List (Nat × Fixup)) (pre : List (Option Nat)), a.resolve pre fxs = .ok out →
      ∀ x ∈ fxs, (a.labels.lookup x.2.label).isSome := by
    intro fxs
    induction fxs with
    | nil => exact fun _ _ x hx => nomatch hx
    | cons y fxs ih =>
      intro pre hpre x hx
      obtain ⟨v, hv, hrest⟩ := bind_ok.mp hpre
      rcases List.mem_cons.mp hx with rfl | hx
      · exact isSome_of_fixupWord hv
      · exact ih _ hrest x hx
  exact key _ _ hres

theorem calls_append (cs cs' : List Call) : a.calls (cs ++ cs') = a.calls cs >>= fun b => b.calls cs' := by
  induction cs generalizing a with
  | nil => rfl
  | cons c cs ih =>
    rw [List.cons_append, calls, calls]
    cases a.call c with
    | error e => rfl
    | ok b => exact ih

end Asm

namespace PagedAsm

variable {p q : PagedAsm} {cs : List PagedCall}

/-! ## The open page -/

theorem foldl_onPage (on_page cs : List Call) : (cs.map .page).foldl onPage on_page = on_page ++ cs := by
  induction cs generalizing on_page with
  | nil => rw [List.append_nil]; rfl
  | cons c cs ih =>
    rw [List.map_cons, List.foldl_cons, ih, onPage, List.append_assoc]
    rfl

theorem openCalls_page (cs : List PagedCall) (cs' : List Call) :
    openCalls (cs ++ cs'.map .page) = openCalls cs ++ cs' := by
  rw [openCalls, List.foldl_append, foldl_onPage, openCalls]

theorem openCalls_ending (cs : List PagedCall) (e : Ending) : openCalls (cs ++ [.ending e]) = [] := by
  rw [openCalls, List.foldl_append]
  rfl

theorem mem_openCalls {c : Call} (h : c ∈ openCalls cs) : c = .ADDI 0 0 0 ∨ .page c ∈ cs := by
  induction cs using List.reverseRecOn with
  | nil => exact .inl (List.mem_singleton.mp h)
  | append_singleton cs x ih =>
    cases x with
    | page c' =>
      rw [show [PagedCall.page c'] = [c'].map .page from rfl, openCalls_page] at h
      rcases List.mem_append.mp h with h | h
      · rcases ih h with h | h
        · exact .inl h
        · exact .inr (List.mem_append_left _ h)
      · rw [List.mem_singleton.mp h]
        exact .inr (List.mem_append_right _ List.mem_cons_self)
    | ending e =>
      rw [openCalls_ending] at h
      cases h

/-- The registers of the instructions on the open page exist. -/
theorem regsOk_openCalls (h : ∀ c ∈ cs, c.RegsOk) : ∀ c ∈ openCalls cs, ∀ f, c.form = some f → f.RegsOk := by
  intro c hc f hf
  rcases mem_openCalls hc with rfl | hc
  · cases hf
    decide
  · exact h _ hc f hf

/-- The builder of the default layout after the calls `cs`. -/
structure Builds (cs : List PagedCall) (p : PagedAsm) : Prop where
  load_base : p.load_base = 0xB4
  window_bytes : p.window_bytes = 44
  flash_page_addr : p.flash_page_addr = 0xFC
  switch_scratch_reg : p.switch_scratch_reg = 30
  /-- The open page has taken its calls. -/
  cur : (Asm.new 0xB4).calls (openCalls cs) = .ok p._cur

theorem builds_default : Builds [] default := ⟨rfl, rfl, rfl, rfl, rfl⟩

/-! ## Calls one after the other -/

theorem calls_append (p : PagedAsm) (cs cs' : List PagedCall) :
    p.calls (cs ++ cs') = p.calls cs >>= fun q => q.calls cs' := by
  induction cs generalizing p with
  | nil => rfl
  | cons c cs ih =>
    rw [List.cons_append, calls, calls]
    cases p.call c with
    | error e => rfl
    | ok q => exact ih q

/-- Calls on the page. -/
theorem calls_page {p : PagedAsm} {cs : List Call} {a : Asm} (h : p._cur.calls cs = .ok a) :
    p.calls (cs.map .page) = .ok { p with _cur := a } := by
  induction cs generalizing p with
  | nil =>
    cases h
    rfl
  | cons c cs ih =>
    obtain ⟨b, hb, h⟩ := bind_ok.mp h
    exact bind_ok.mpr ⟨_, bind_ok.mpr ⟨b, hb, rfl⟩, ih h⟩

/-! ## What a call leaves -/

/-- The values that only the end of a page changes. -/
def layout (p : PagedAsm) : Int × Int × Int × Nat × Nat :=
  (p.load_base, p.window_bytes, p.flash_page_addr, p.switch_scratch_reg, p._cur_page_num)

/-- The builder `q` begins the page after the one of `p`. -/
def NextPage (p q : PagedAsm) : Prop :=
  q.layout = (p.load_base, p.window_bytes, p.flash_page_addr, p.switch_scratch_reg, p._cur_page_num + 1) ∧
    q._cur = Asm.new p.load_base

theorem NextPage.of_layout {p p' q : PagedAsm} (hl : p'.layout = p.layout) (h : NextPage p' q) : NextPage p q := by
  simp only [layout, Prod.mk.injEq] at hl
  unfold NextPage at h ⊢
  rwa [hl.1, hl.2.1, hl.2.2.1, hl.2.2.2.1, hl.2.2.2.2] at h

theorem padLoop_layout (t : Int) (n : Nat) (p : PagedAsm) : (padLoop t n p).layout = p.layout := by
  induction n generalizing p with
  | zero => rfl
  | succ n ih =>
    rw [padLoop]
    split
    · exact ih _
    · rfl

theorem pad_to_layout {t : Int} (h : p._pad_to t = .ok q) : q.layout = p.layout := by
  dsimp only [_pad_to] at h
  split at h
  · cases h
    exact padLoop_layout _ _ _
  · cases h

theorem emit_trampoline_layout (h : p._emit_trampoline = .ok q) : q.layout = p.layout := by
  dsimp only [_emit_trampoline] at h
  split at h
  · split at h
    · cases h
      rfl
    · cases h
  · cases h

/-- A page that is finished leaves an empty one. -/
theorem finish_current_page_cur (h : p._finish_current_page = .ok q) : NextPage p q := by
  obtain ⟨words, -, h⟩ := bind_ok.mp h
  obtain ⟨bytes, -, h⟩ := bind_ok.mp h
  split at h
  · cases h
    exact ⟨rfl, rfl⟩
  · cases h

theorem storePage_cur {reg : Nat} (h : p.storePage reg = .ok q) : NextPage p q := by
  unfold storePage at h
  split at h
  · obtain ⟨p', hp', h⟩ := bind_ok.mp h
    have hl : p'.layout = p.layout := (emit_trampoline_layout hp').trans rfl
    exact (finish_current_page_cur h).of_layout hl
  · cases h

theorem switch_to_cur {next : Int} {r : Option Nat} (h : p.switch_to next r = .ok q) : NextPage p q := by
  obtain ⟨p', hp', h⟩ := bind_ok.mp h
  exact (storePage_cur h).of_layout (pad_to_layout hp')

theorem finish_cur {e : Ending} (h : p.finish e = .ok q) : NextPage p q := by
  cases e with
  | switch_to next r => exact switch_to_cur h
  | finalize_last_page r => exact switch_to_cur h
  | switch_to_computed r =>
    obtain ⟨p', hp', h⟩ := bind_ok.mp h
    exact (storePage_cur h).of_layout (pad_to_layout hp')

/-- One call. -/
theorem Builds.call {c : PagedCall} (h : Builds cs p) (hc : p.call c = .ok q) : Builds (cs ++ [c]) q := by
  cases c with
  | page c =>
    obtain ⟨a, ha, hq⟩ := bind_ok.mp hc
    cases hq
    refine ⟨h.load_base, h.window_bytes, h.flash_page_addr, h.switch_scratch_reg, ?_⟩
    rw [show [PagedCall.page c] = [c].map .page from rfl, openCalls_page, Asm.calls_append]
    exact bind_ok.mpr ⟨_, h.cur, bind_ok.mpr ⟨_, ha, rfl⟩⟩
  | ending e =>
    obtain ⟨hl, hcur⟩ := finish_cur hc
    rw [h.load_base, h.window_bytes, h.flash_page_addr, h.switch_scratch_reg] at hl
    simp only [layout, Prod.mk.injEq] at hl
    refine ⟨hl.1, hl.2.1, hl.2.2.1, hl.2.2.2.1, ?_⟩
    rw [openCalls_ending, hcur, h.load_base]
    rfl

/-- The calls of a script one after the other. -/
theorem Builds.calls {cs' : List PagedCall} (h : Builds cs p) (hq : p.calls cs' = .ok q) :
    Builds (cs ++ cs') q := by
  induction cs' generalizing cs p with
  | nil =>
    cases hq
    rw [List.append_nil]
    exact h
  | cons c cs' ih =>
    obtain ⟨p', hp', hq⟩ := bind_ok.mp hq
    have := ih (h.call hp') hq
    rwa [List.append_assoc] at this

/-! ## Ending a page -/

/-- The word of the NOP. -/
abbrev nop : Nat := Asm._i 0 0 0b000 0 OPC.OP_IMM

theorem bytes_used_append (p : PagedAsm) (ws : List Nat) :
    bytes_used { p with _cur := p._cur.append ws } = p.bytes_used + 4 * ws.length := by
  simp only [bytes_used, Asm.addr, Asm.append, List.length_append, List.length_map]
  push_cast
  omega

/-- The loop appends the NOPs that are missing. -/
theorem padLoop_eq {t : Int} {m n : Nat} (hn : m ≤ n) (ht : p.bytes_used + 4 * m = t) :
    padLoop t n p = { p with _cur := p._cur.append (List.replicate m nop) } := by
  induction m generalizing p n with
  | zero =>
    rw [List.replicate_zero, Asm.append_nil]
    cases n with
    | zero => rfl
    | succ n => rw [padLoop, if_neg (by omega)]
  | succ m ih =>
    obtain ⟨n, rfl⟩ : ∃ k, n = k + 1 := ⟨n - 1, by omega⟩
    have hone : p._cur.ADDI 0 0 0 = p._cur.append [nop] := Asm.word_eq_append _ _
    have hused := bytes_used_append p [nop]
    rw [List.length_singleton] at hused
    rw [padLoop, if_pos (by omega), hone, ih (by omega) (by rw [hused]; omega)]
    rw [Asm.append_append, List.singleton_append, List.replicate_succ]

theorem pad_to_ok {t : Int} {m : Nat} (ht : p.bytes_used + 4 * m = t) :
    p._pad_to t = .ok { p with _cur := p._cur.append (List.replicate m nop) } := by
  rw [_pad_to, if_pos (by omega), padLoop_eq (by omega) ht]

theorem emit_trampoline_ok (hl : p.load_base = 0xB4) (hw : p.window_bytes = 44)
    (ha : p._cur.addr = 0xB4 + 40) :
    p._emit_trampoline = .ok { p with _cur := p._cur.append [Asm.jalWord (-40) 0] } := by
  have hoff : p.load_base - p._cur.addr = -40 := by omega
  have ht : p.trampoline_offset = 40 := by
    rw [trampoline_offset, hw]
    rfl
  rw [_emit_trampoline, hoff, ht, if_pos rfl, if_pos (by decide), Asm.word_eq_append]

section Ending

variable {es : List Asm.Entry} {words ws : List Nat} {bytes : List (BitVec 8)} {reg : Nat} {e : Ending}

theorem bytes_used_eq (h : Asm.Holds 0xB4 es p._cur) (hfin : p._cur.finalize = .ok words) :
    p.bytes_used = 4 * words.length := by
  rw [bytes_used, Asm.addr, h.instrs_eq, List.length_map, (Asm.finalize_filled h hfin).1]
  omega

/-- The common end, after words that fill the page up to its place. -/
theorem storePage_ok (hl : p.load_base = 0xB4) (hw : p.window_bytes = 44) (h : Asm.Holds 0xB4 es p._cur)
    (hfin : p._cur.finalize = .ok words) (h9 : words.length + ws.length = 9)
    (hb : words_to_bytes (words ++ (ws ++ [Asm._s 0b010 reg 0 p.flash_page_addr, Asm.jalWord (-40) 0])) = .ok bytes)
    (h44 : bytes.length = 44) :
    ∃ q, storePage { p with _cur := p._cur.append ws } reg = .ok q ∧ q.pages = p.pages ++ [bytes] := by
  have hlen : p._cur.instrs.length = words.length := by
    rw [h.instrs_eq, List.length_map, (Asm.finalize_filled h hfin).1]
  have hsw : (p._cur.append ws).SW reg 0 p.flash_page_addr =
      p._cur.append (ws ++ [Asm._s 0b010 reg 0 p.flash_page_addr]) := by
    rw [Asm.SW, Asm.word_eq_append, Asm.append_append]
  have haddr : ∀ vs, (p._cur.append vs).addr = 0xB4 + 4 * (words.length + vs.length : Nat) := by
    intro vs
    rw [Asm.addr, Asm.append, List.length_append, List.length_map, hlen, h.base_eq]
    omega
  have hused : bytes_used { p with _cur := p._cur.append ws } = switch_offset { p with _cur := p._cur.append ws } := by
    rw [bytes_used, haddr ws, h9, switch_offset, hw]
    show (0xB4 + 4 * (9 : Nat) : Int) - p._cur.base = 44 - 8
    rw [h.base_eq]
    decide
  rw [storePage, if_pos hused]
  refine ⟨{ p with
      pages := p.pages ++ [bytes], _cur_page_num := p._cur_page_num + 1, _cur := Asm.new p.load_base },
    bind_ok.mpr ⟨_, emit_trampoline_ok hl hw ?_, bind_ok.mpr ⟨_, ?_, bind_ok.mpr ⟨bytes, hb, ?_⟩⟩⟩, rfl⟩
  · show ((p._cur.append ws).SW reg 0 p.flash_page_addr).addr = _
    rw [hsw, haddr, List.length_append, ← Nat.add_assoc, h9]
    rfl
  · show (((p._cur.append ws).SW reg 0 p.flash_page_addr).append _).finalize = _
    rw [hsw, Asm.append_append, List.append_assoc, List.singleton_append]
    exact Asm.finalize_append h hfin
  · rw [if_pos (by rw [h44]; exact hw.symm)]

/-- A constant page number takes one instruction of the page. -/
theorem switch_to_ok {next : Int} {r : Option Nat} (hl : p.load_base = 0xB4) (hw : p.window_bytes = 44)
    (h : Asm.Holds 0xB4 es p._cur) (hfin : p._cur.finalize = .ok words) (h8 : words.length ≤ 8)
    (hb : words_to_bytes (words ++ (List.replicate (8 - words.length) nop ++
      [Asm._i next 0 0b000 (r.getD p.switch_scratch_reg) OPC.OP_IMM] ++
      [Asm._s 0b010 (r.getD p.switch_scratch_reg) 0 p.flash_page_addr, Asm.jalWord (-40) 0])) = .ok bytes)
    (h44 : bytes.length = 44) : ∃ q, p.switch_to next r = .ok q ∧ q.pages = p.pages ++ [bytes] := by
  have hused := bytes_used_eq h hfin
  obtain ⟨q, hq, hpages⟩ := storePage_ok hl hw h hfin (by simp; omega) hb h44
  refine ⟨q, bind_ok.mpr ⟨_, pad_to_ok (m := 8 - words.length) ?_, ?_⟩, hpages⟩
  · rw [hused, switch_offset, hw]
    omega
  · dsimp only
    rw [Asm.ADDI, Asm.word_eq_append, Asm.append_append]
    exact hq

/-- A computed page number takes none. -/
theorem switch_to_computed_ok {r : Option Nat} (hl : p.load_base = 0xB4) (hw : p.window_bytes = 44)
    (h : Asm.Holds 0xB4 es p._cur) (hfin : p._cur.finalize = .ok words) (h9 : words.length ≤ 9)
    (hb : words_to_bytes (words ++ (List.replicate (9 - words.length) nop ++
      [Asm._s 0b010 (r.getD p.switch_scratch_reg) 0 p.flash_page_addr, Asm.jalWord (-40) 0])) = .ok bytes)
    (h44 : bytes.length = 44) : ∃ q, p.switch_to_computed r = .ok q ∧ q.pages = p.pages ++ [bytes] := by
  have hused := bytes_used_eq h hfin
  obtain ⟨q, hq, hpages⟩ := storePage_ok hl hw h hfin (by simp; omega) hb h44
  refine ⟨q, bind_ok.mpr ⟨_, pad_to_ok (m := 9 - words.length) ?_, hq⟩, hpages⟩
  rw [hused, switch_offset, hw]
  omega

end Ending

/-! ## The room check -/

/-- The words and fixups of the open page. -/
theorem Builds.holds (h : Builds cs p) (hr : ∀ c ∈ cs, c.RegsOk) :
    ∃ es, Asm.Holds 0xB4 es p._cur ∧ Asm.Entries (((openCalls cs).filterMap Call.form).map Form.wrap) es := by
  obtain ⟨es, hes, hent⟩ := Asm.calls_entries (regsOk_openCalls hr) (Asm.holds_new 0xB4) h.cur
  exact ⟨es, by simpa using hes, hent⟩

/-- A page with room and its targets defined is finalized. -/
theorem Builds.finalize_ok (h : Builds cs p) (hr : ∀ c ∈ cs, c.RegsOk)
    (hlen : ((openCalls cs).filterMap Call.form).length ≤ 9) (ht : p.TargetsDefined) :
    ∃ words, p._cur.finalize = .ok words := by
  obtain ⟨es, hes, hent⟩ := h.holds hr
  refine Asm.finalize_ok hes hent fun x hx => ?_
  have hlt : x.1 < es.length := by
    have := Asm.fixupsFrom_lt (hes.fixups_eq ▸ hx)
    omega
  obtain ⟨l, hl⟩ := Option.isSome_iff_exists.mp (ht x hx)
  rcases Asm.calls_labels (regsOk_openCalls hr) h.cur hl with h0 | ⟨before, after, hcs, hl'⟩
  · cases h0
  · rw [hcs, List.filterMap_append, List.length_append] at hlen
    have hel : es.length ≤ 9 := by
      rw [← hent.length_eq, List.length_map, hcs, List.filterMap_append, List.length_append]
      exact hlen
    exact Asm.fixupWord_ok hes.base_eq (by omega) (show (before.filterMap Call.form).length ≤ 9 by omega)
      (by rw [hl, hl']; rfl)

/-- The ADDI of a constant page number takes the place of a NOP. -/
theorem tail_of_target {e : Ending} {next : Int} (h : e.target p._cur_page_num = some next) (n : Nat) :
    p.tail n e = List.replicate (8 - n) nop ++ [Asm._i next 0 0b000 (p.scratch e) OPC.OP_IMM] ++
      [Asm._s 0b010 (p.scratch e) 0 p.flash_page_addr, Asm.jalWord (-40) 0] := by
  rw [tail, h, show 8 - n = 9 - n - 1 by omega]
  rfl

theorem tail_of_computed {e : Ending} (h : e.target p._cur_page_num = none) (n : Nat) :
    p.tail n e = List.replicate (9 - n) nop ++
      [Asm._s 0b010 (p.scratch e) 0 p.flash_page_addr, Asm.jalWord (-40) 0] := by
  rw [tail, h]
  exact congrArg (· ++ _) (List.append_nil _)

theorem tail_lt {e : Ending} (hs : p.scratch e < 32) (n : Nat) : ∀ w ∈ p.tail n e, w < 2 ^ 32 := by
  intro w hw
  rcases List.mem_append.mp hw with hw | hw
  · rcases List.mem_append.mp hw with hw | hw
    · rw [(List.mem_replicate.mp hw).2]
      decide
    · obtain ⟨next, -, rfl⟩ := List.mem_map.mp hw
      exact (Asm.packs_i _ next (by decide) (by decide) hs (by decide)).lt
  · rcases List.mem_cons.mp hw with rfl | hw
    · exact (Asm.packs_s _ hs (by decide) (by decide)).lt
    · rw [List.mem_singleton.mp hw]
      decide

theorem Builds.bytes_free (h : Builds cs p) (hr : ∀ c ∈ cs, c.RegsOk) :
    p.bytes_free = 36 - 4 * ((openCalls cs).filterMap Call.form).length := by
  obtain ⟨es, hes, hent⟩ := h.holds hr
  have hlen := hent.length_eq
  rw [List.length_map] at hlen
  rw [PagedAsm.bytes_free, bytes_used, switch_offset, Asm.addr, h.window_bytes, hes.instrs_eq, List.length_map, hlen]
  omega

/-- A fixup is one of an instruction with its target. -/
theorem target_of_fixup {fs : List Form} {es : List Asm.Entry} (hent : Asm.Entries fs es) {n : Nat}
    {x : Nat × Fixup} (hx : x ∈ Asm.fixupsFrom n es) : ∃ f ∈ fs, f.target = some x.2.label := by
  induction hent generalizing n with
  | nil => cases hx
  | @cons f e fs es hem _ ih =>
    rcases List.mem_append.mp hx with hx | hx
    · obtain ⟨w, fx⟩ := e
      cases hem with
      | word => cases hx
      | branch | jal =>
        obtain rfl := List.mem_singleton.mp hx
        exact ⟨_, List.mem_cons_self, rfl⟩
    · obtain ⟨f, hf, ht⟩ := ih hx
      exact ⟨f, List.mem_cons_of_mem _ hf, ht⟩

/-- A page that is appended has its targets defined. -/
theorem AppendsPage.targetsDefined {e : Ending} (h : Builds cs p) (hr : ∀ c ∈ cs, c.RegsOk)
    (ha : p.AppendsPage ((openCalls cs).filterMap Call.form) e) : p.TargetsDefined := by
  obtain ⟨p', words, bytes, -, hlen, hag, -⟩ := ha
  obtain ⟨es, hes, hent⟩ := h.holds hr
  intro x hx
  obtain ⟨f, hf, ht⟩ := target_of_fixup hent (hes.fixups_eq ▸ hx)
  obtain ⟨i, hi, rfl⟩ := List.getElem_of_mem hf
  rw [List.length_map] at hi
  obtain ⟨l, y, hy⟩ := hag i hi (by omega)
  rw [List.getElem_map] at ht
  rw [hy.label _ ht]
  rfl

/-- A page with room for its ending is appended. -/
theorem Builds.appendsPage {e : Ending} (h : Builds cs p) (hr : ∀ c ∈ cs, c.RegsOk)
    (he : ∀ r, e.scratch_reg = some r → r < 32) (ht : p.TargetsDefined)
    (hlen : ((openCalls cs).filterMap Call.form).length + (e.target p._cur_page_num).toList.length ≤ 9) :
    p.AppendsPage ((openCalls cs).filterMap Call.form) e := by
  obtain ⟨es, hes, hent⟩ := h.holds hr
  obtain ⟨words, hfin⟩ := h.finalize_ok hr (by omega) ht
  have hrange : ∀ f ∈ ((openCalls cs).filterMap Call.form).map Form.wrap, f.InRange := by
    intro f hf
    obtain ⟨g, hg, rfl⟩ := List.mem_map.mp hf
    obtain ⟨c, hc, hcg⟩ := List.mem_filterMap.mp hg
    exact Asm.Form.wrap_inRange (regsOk_openCalls hr c hc g hcg)
  obtain ⟨hwlen, hag⟩ := Asm.agrees_of_finalize hes hent hrange hfin
  rw [List.length_map] at hwlen
  have hs : p.scratch e < 32 := by
    rw [scratch, h.switch_scratch_reg]
    cases hreg : e.scratch_reg with
    | none => decide
    | some r => exact he r hreg
  have hlt : ∀ w ∈ words ++ p.tail words.length e, w < 2 ^ 32 := by
    intro w hw
    rcases List.mem_append.mp hw with hw | hw
    · obtain ⟨i, hi, rfl⟩ := List.getElem_of_mem hw
      obtain ⟨l, x, hx⟩ := hag i (by rw [List.length_map]; omega) hi
      exact hx.lt
    · exact tail_lt hs _ w hw
  obtain ⟨bytes, hb, hblen, -⟩ := Asm.words_to_bytes_ok hlt
  have h44 : bytes.length = 44 := by
    rw [hblen, tail]
    simp only [List.length_append, List.length_replicate, List.length_map, List.length_cons, List.length_nil]
    omega
  have hfinish : ∃ q, p.finish e = .ok q ∧ q.pages = p.pages ++ [bytes] := by
    cases e with
    | switch_to_computed r =>
      rw [tail_of_computed rfl] at hb
      exact switch_to_computed_ok h.load_base h.window_bytes hes hfin (by omega) hb h44
    | switch_to next r =>
      rw [tail_of_target rfl] at hb
      have h8 : words.length + 1 ≤ 9 := hwlen ▸ hlen
      exact switch_to_ok h.load_base h.window_bytes hes hfin (by omega) hb h44
    | finalize_last_page r =>
      rw [tail_of_target rfl] at hb
      have h8 : words.length + 1 ≤ 9 := hwlen ▸ hlen
      exact switch_to_ok h.load_base h.window_bytes hes hfin (by omega) hb h44
  obtain ⟨q, hq, hpages⟩ := hfinish
  refine ⟨q, words, bytes, hq, hwlen, fun i hf hw => ?_, hb, h44, hpages⟩
  obtain ⟨l, x, hx⟩ := hag i (by rw [List.length_map]; exact hf) hw
  rw [List.getElem_map] at hx
  exact ⟨l, x, hx⟩

/-- A full page has no room for the ADDI of a page number. -/
theorem switch_to_full {next : Int} {r : Option Nat} (hfree : p.bytes_free = 0) :
    ∃ msg, p.switch_to next r = .error (.assertion msg) := by
  have hpad : ¬ p.bytes_used ≤ p.switch_offset - 4 := by
    rw [PagedAsm.bytes_free] at hfree
    omega
  have herr : ∃ msg, p._pad_to (p.switch_offset - 4) = .error (.assertion msg) := by
    rw [_pad_to, if_neg hpad]
    exact ⟨_, rfl⟩
  obtain ⟨msg, hmsg⟩ := herr
  exact ⟨msg, by rw [switch_to, hmsg]; rfl⟩

/-- The room check is right for `switch_to_computed`, and for the other endings unless it says that the page is
exactly full: their ADDI of the page number takes one more instruction than the check counts. -/
theorem room_check_iff {cs : List Call} {cmds : List PagedCall} {e : Ending} (hcmds : ∀ c ∈ cmds, c.RegsOk)
    (hcs : ∀ c ∈ cs, ∀ f, c.form = some f → f.RegsOk) (he : ∀ r, e.scratch_reg = some r → r < 32)
    (hp : default.calls cmds = .ok p) (hq : p.calls (cs.map .page) = .ok q)
    (hfree : p.bytes_free ≥ 4 * (cs.filterMap Call.form).length) :
    q.AppendsPage ((openCalls (cmds ++ cs.map .page)).filterMap Call.form) e ↔ q.TargetsDefined ∧
      ((∃ r, e = .switch_to_computed r) ∨ p.bytes_free ≠ 4 * (cs.filterMap Call.form).length) := by
  have hbp : Builds cmds p := builds_default.calls hp
  have hbq : Builds (cmds ++ cs.map .page) q := hbp.calls hq
  have hr : ∀ c ∈ cmds ++ cs.map .page, c.RegsOk := by
    intro c hc
    rcases List.mem_append.mp hc with hc | hc
    · exact hcmds c hc
    · obtain ⟨c', hc', rfl⟩ := List.mem_map.mp hc
      exact hcs c' hc'
  have hpfree := hbp.bytes_free hcmds
  have hqfree := hbq.bytes_free hr
  have hlen : ((openCalls (cmds ++ cs.map .page)).filterMap Call.form).length =
      ((openCalls cmds).filterMap Call.form).length + (cs.filterMap Call.form).length := by
    rw [openCalls_page, List.filterMap_append, List.length_append]
  constructor
  · intro ha
    refine ⟨ha.targetsDefined hbq hr, ?_⟩
    by_contra hno
    obtain ⟨hnc, hfull⟩ := not_or.mp hno
    have hq0 : q.bytes_free = 0 := by omega
    obtain ⟨p', -, -, hfin, -⟩ := ha
    cases e with
    | switch_to_computed r => exact hnc ⟨r, rfl⟩
    | switch_to next r =>
      obtain ⟨msg, hmsg⟩ := @switch_to_full q next r hq0
      cases hmsg.symm.trans hfin
    | finalize_last_page r =>
      obtain ⟨msg, hmsg⟩ := @switch_to_full q q._cur_page_num r hq0
      cases hmsg.symm.trans hfin
  · rintro ⟨ht, hcond⟩
    refine hbq.appendsPage hr he ht ?_
    have hone : (e.target q._cur_page_num).toList.length ≤ 1 := by
      cases e.target q._cur_page_num <;> simp
    rcases hcond with ⟨r, rfl⟩ | hne
    · rw [show (Ending.switch_to_computed r).target q._cur_page_num = none from rfl, Option.toList_none]
      simp only [List.length_nil]
      omega
    · omega

/-- Three more instructions on a page of two, and a computed page number. -/
theorem room_check_iff_ring :
    let cmds : List PagedCall := [.page (.SB 5 0 0xF9), .ending (.switch_to 7 none), .page (.label "LOOP"),
      .page (.ADDI 2 2 (-1)), .page (.BNE 2 0 "LOOP")]
    let cs : List Call := [.ADDI 30 0 3, .ADD 30 30 5, .ADDI 6 0 0]
    ∃ p q, default.calls cmds = .ok p ∧ p.calls (cs.map .page) = .ok q ∧
      q.AppendsPage ((openCalls (cmds ++ cs.map .page)).filterMap Call.form) (.switch_to_computed none) := by
  intro cmds cs
  have hcmds : ∀ c ∈ cmds, c.RegsOk := by
    simp [cmds, PagedCall.RegsOk, Call.form, Form.RegsOk, Form.regs, Ending.scratch_reg]
  have hcs : ∀ c ∈ cs, ∀ f, c.form = some f → f.RegsOk := by
    simp [cs, Call.form, Form.RegsOk, Form.regs]
  have he : ∀ r, (Ending.switch_to_computed none).scratch_reg = some r → r < 32 := by
    intro r hr
    cases hr
  refine ⟨_, _, rfl, rfl, ?_⟩
  exact (@room_check_iff _ _ cs cmds (.switch_to_computed none) hcmds hcs he rfl rfl (by decide)).mpr
    ⟨by decide, .inl ⟨none, rfl⟩⟩

/-- Nine instructions on a fresh page, for which the check says that there is room, leave none for the ADDI. -/
theorem room_check_fails :
    let cmds : List PagedCall := [.ending (.switch_to 1 none)]
    let cs : List Call := List.replicate 9 (.ADDI 5 5 1)
    ∃ p q, default.calls cmds = .ok p ∧ p.bytes_free = 4 * 9 ∧ p.calls (cs.map .page) = .ok q ∧ q.TargetsDefined ∧
      (∃ msg, q.finish (.finalize_last_page none) = .error (.assertion msg)) ∧
      ¬ q.AppendsPage ((openCalls (cmds ++ cs.map .page)).filterMap Call.form) (.finalize_last_page none) := by
  intro cmds cs
  refine ⟨_, _, rfl, rfl, rfl, by decide, ⟨_, rfl⟩, ?_⟩
  rintro ⟨p', -, -, h, -⟩
  cases h

end PagedAsm

end Pineapple
