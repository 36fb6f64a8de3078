import Pineapple.Paged.Machine
import Pineapple.Tools.Proofs.PagedProofs

/-!
# Proofs: the image of a script

A page that a script finishes has its targets defined and room for its ending, so its bytes are the words of its
instructions. By induction over the calls, page `n` of the image is the page that the script calls say.
-/

namespace Pineapple

open Rv32i (Instr Reg)

namespace Asm

/-! ## Labels -/

variable {a b : Asm}

theorem labelIndex_of_form {c : Call} {f : Form} (hf : c.form = some f) (name : String) (cs : List Call) :
    labelIndex name (c :: cs) = (labelIndex name cs).map (· + 1) := by
  cases c
  case label => cases hf
  all_goals rfl

/-- The labels of an assembler after calls: those it had, and those of the calls. -/
theorem lookup_labels {cs : List Call} (hr : ∀ c ∈ cs, ∀ f, c.form = some f → f.RegsOk)
    (hok : a.calls cs = .ok b) (name : String) :
    b.labels.lookup name =
      (a.labels.lookup name).or ((labelIndex name cs).map fun j : Nat => a.addr + 4 * (j : Int)) := by
  induction cs generalizing a with
  | nil =>
    cases hok
    rw [labelIndex, Option.map_none, Option.or_none]
  | cons c cs ih =>
    obtain ⟨a', hc, hcs⟩ := bind_ok.mp hok
    rw [ih (fun c' h => hr c' (List.mem_cons_of_mem _ h)) hcs]
    cases hf : c.form with
    | none =>
      cases c with
      | label n =>
        rw [call, Asm.label] at hc
        split at hc
        · cases hc
        · rename_i hnew
          cases hc
          rw [List.lookup_cons, labelIndex]
          cases hn : name == n with
          | true =>
            have hnone : a.labels.lookup name = none := by
              rw [eq_of_beq hn]
              exact Option.not_isSome_iff_eq_none.mp hnew
            rw [hnone]
            simp
          | false => rfl
      | _ => cases hf
    | some f =>
      obtain ⟨w, fx, hcall, -⟩ := call_emits hf (hr c List.mem_cons_self f hf) a
      cases hcall.symm.trans hc
      have haddr : ∀ j : Nat, (a.emit w fx).addr + 4 * (j : Int) = a.addr + 4 * ((j + 1 : Nat) : Int) := by
        intro j
        rw [addr, addr, emit]
        simp only [List.length_append, List.length_cons, List.length_nil]
        push_cast
        omega
      rw [labelIndex_of_form hf, Option.map_map]
      congr 1
      cases labelIndex name cs with
      | none => rfl
      | some j => exact congrArg some (haddr j)

/-! ## The words of a page -/

variable {f : Form} {w : Nat}

/-- Only the instruction with a target depends on the offset. -/
theorem instr_of_no_target (h : f.target = none) (off off' : Int) : f.instr off = f.instr off' := by
  cases f <;> first | rfl | cases h

/-- A word at index `i` of a program is the instruction of the page. -/
theorem decode_of_agrees {base : Int} {cs : List Call} {i : Nat} {fs : List Form}
    (hr : ∀ c ∈ cs, ∀ f, c.form = some f → f.RegsOk) (hcs : (new base).calls cs = .ok b)
    (hfs : cs.filterMap Call.form = fs) (hi : i < fs.length) {l : Int} {x : Instr}
    (h : Agrees base b.labels i fs[i].wrap w l x) :
    (instrsOf cs)[i]? = some x := by
  have hx : x = fs[i].instr (l - (base + 4 * i)) := by
    rw [Form.eq_instr h.means, Form.instr_wrap]
  have htarget : fs[i].wrap.target = fs[i].target := by
    cases fs[i] <;> rfl
  rw [instrsOf, hfs, List.getElem?_mapIdx, List.getElem?_eq_getElem hi, hx]
  refine congrArg some ?_
  cases ht : fs[i].target with
  | none => exact instr_of_no_target ht _ _
  | some name =>
    have hl := h.label name (htarget.trans ht)
    rw [lookup_labels hr hcs] at hl
    cases hj : labelIndex name cs with
    | none =>
      rw [hj] at hl
      cases hl
    | some j =>
      rw [hj] at hl
      have hl' : (base + ((0 : Nat) : Int) * 4) + 4 * (j : Int) = l := Option.some.inj hl
      show fs[i].instr (4 * (((fs[i].target.bind fun name => labelIndex name cs).getD 0 : Nat) : Int) - 4 * i) = _
      rw [ht, Option.bind_some, hj, Option.getD_some, ← hl']
      congr 1
      omega

/-- The word of an instruction without a target. -/
theorem decode_of_emits (h : Emits f.wrap (some w) none) : Rv32i.decode (BitVec.ofNat 32 w) = some (f.instr 0) := by
  generalize hg : f.wrap = g at h
  cases h with
  | word _ henc =>
    obtain ⟨i, hi, hm⟩ := (henc 0).decodes
    rw [hi, Form.eq_instr hm, ← hg, Form.instr_wrap]

theorem decode_addi {rd : Nat} (hrd : rd < 32) (v : Int) :
    Rv32i.decode (BitVec.ofNat 32 (_i v 0 0b000 rd OPC.OP_IMM)) =
      some (.opImm .addi (BitVec.ofNat 5 rd) 0 (BitVec.ofInt 12 v)) := by
  refine decode_of_emits (f := .imm .addi rd 0 v) ?_
  rw [← i_bmod]
  refine emits_imm (by decide) rfl (Form.wrap_inRange (f := .imm .addi rd 0 v) ?_)
  simp [Form.RegsOk, Form.regs, hrd]

theorem decode_sw {rs2 : Nat} (h2 : rs2 < 32) (v : Int) :
    Rv32i.decode (BitVec.ofNat 32 (_s 0b010 rs2 0 v)) =
      some (.store .sw (BitVec.ofNat 5 rs2) 0 (BitVec.ofInt 12 v)) := by
  refine decode_of_emits (f := .store .sw rs2 0 v) ?_
  rw [← s_bmod]
  refine emits_s (by decide) rfl (Form.wrap_inRange (f := .store .sw rs2 0 v) ?_)
  simp [Form.RegsOk, Form.regs, h2]

theorem decode_trampoline :
    Rv32i.decode (BitVec.ofNat 32 (jalWord (-40) 0)) = some (.jal 0 (BitVec.ofInt 21 (-40))) := by decide

end Asm

/-! ## A page that is finished -/

namespace PagedAsm

variable {p q : PagedAsm} {cs : List PagedCall} {e : Ending}

/-- What finishing a page says about it. -/
structure Fits (p : PagedAsm) (e : Ending) : Prop where
  room : p.bytes_used + 4 * (e.target p._cur_page_num).toList.length ≤ p.switch_offset
  targets : p.TargetsDefined

/-- The page `p` is left with the same labels and fixups. -/
def SameTargets (p q : PagedAsm) : Prop := q._cur.labels = p._cur.labels ∧ q._cur.fixups = p._cur.fixups

theorem SameTargets.trans {r : PagedAsm} (h : SameTargets p q) (h' : SameTargets q r) : SameTargets p r :=
  ⟨h'.1.trans h.1, h'.2.trans h.2⟩

theorem word_sameTargets (a : Asm) (w : Nat) : (a.word w).labels = a.labels ∧ (a.word w).fixups = a.fixups :=
  ⟨rfl, List.append_nil _⟩

theorem padLoop_sameTargets (t : Int) (n : Nat) (p : PagedAsm) : SameTargets p (padLoop t n p) := by
  induction n generalizing p with
  | zero => exact ⟨rfl, rfl⟩
  | succ n ih =>
    rw [padLoop]
    split
    · exact SameTargets.trans (q := { p with _cur := p._cur.ADDI 0 0 0 }) (word_sameTargets _ _) (ih _)
    · exact ⟨rfl, rfl⟩

theorem pad_to_inv {t : Int} (h : p._pad_to t = .ok q) : p.bytes_used ≤ t ∧ SameTargets p q := by
  dsimp only [_pad_to] at h
  split at h
  · rename_i hle
    cases h
    exact ⟨hle, padLoop_sameTargets _ _ _⟩
  · cases h

theorem storePage_targets {reg : Nat} (h : p.storePage reg = .ok q) : p.TargetsDefined := by
  unfold storePage at h
  split at h
  · obtain ⟨p', hp', h⟩ := bind_ok.mp h
    obtain ⟨words, hwords, -⟩ := bind_ok.mp h
    have hsame : SameTargets p p' := by
      dsimp only [_emit_trampoline] at hp'
      split at hp'
      · split at hp'
        · cases hp'
          exact SameTargets.trans (q := { p with _cur := p._cur.SW reg 0 p.flash_page_addr })
            (word_sameTargets _ _) (word_sameTargets _ _)
        · cases hp'
      · cases hp'
    have hfix := Asm.fixups_of_finalize hwords
    rw [hsame.1, hsame.2] at hfix
    exact hfix
  · cases h

/-- A page that is finished fits. -/
theorem fits_of_finish (h : p.finish e = .ok q) : Fits p e := by
  have hconst : ∀ {next : Int} {r : Option Nat}, p.switch_to next r = .ok q →
      p.bytes_used ≤ p.switch_offset - 4 ∧ p.TargetsDefined := by
    intro next r h
    obtain ⟨p', hp', h⟩ := bind_ok.mp h
    obtain ⟨hle, hsame⟩ := pad_to_inv hp'
    have ht := storePage_targets h
    have hall : SameTargets p { p' with _cur := p'._cur.ADDI (r.getD p.switch_scratch_reg) 0 next } :=
      hsame.trans (word_sameTargets _ _)
    unfold TargetsDefined at ht
    rw [hall.1, hall.2] at ht
    exact ⟨hle, ht⟩
  cases e with
  | switch_to next r =>
    obtain ⟨hle, ht⟩ := hconst h
    exact ⟨by simp [Ending.target]; omega, ht⟩
  | finalize_last_page r =>
    obtain ⟨hle, ht⟩ := hconst h
    exact ⟨by simp [Ending.target]; omega, ht⟩
  | switch_to_computed r =>
    obtain ⟨p', hp', h⟩ := bind_ok.mp h
    obtain ⟨hle, hsame⟩ := pad_to_inv hp'
    have ht := storePage_targets h
    unfold TargetsDefined at ht
    rw [hsame.1, hsame.2] at ht
    exact ⟨by simp [Ending.target]; omega, ht⟩

end PagedAsm

/-! ## The pages of the image -/

open PagedAsm

/-- The bytes are the words of the instructions of page `n`. -/
structure Assembled (n : Nat) (pg : Page) (bytes : List (BitVec 8)) : Prop where
  bytes_length : bytes.length = 44
  full_length : (pg.full n).length = 11
  decode : ∀ j i, (pg.full n)[j]? = some i →
    Rv32i.decode (Bits.ofLE 32 ((bytes.drop (4 * j)).take 4)) = some i

/-- The words that end a page are the instructions that end it. -/
theorem decode_tail {p : PagedAsm} {cs : List PagedCall} (h : Builds cs p) {pg : Page} {n : Nat}
    (hn : n = pg.instrs.length) (hs : pg.scratch < 32) :
    (p.tail n pg.ending).map (fun w => Rv32i.decode (BitVec.ofNat 32 w)) =
      (pg.glue p._cur_page_num).map some := by
  have hscratch : p.scratch pg.ending = pg.scratch := by
    rw [PagedAsm.scratch, h.switch_scratch_reg, Page.scratch]
  rw [tail, hscratch, h.flash_page_addr, Page.glue, hn]
  simp only [List.map_append, List.map_replicate, List.map_map, List.map_cons, List.map_nil, List.length_map]
  rw [Asm.decode_addi (by decide), Asm.decode_sw hs, Asm.decode_trampoline]
  congr 3
  funext next
  exact Asm.decode_addi hs next

/-- The words of a program are its instructions. -/
theorem decode_words {base : Int} {fs : List Form} {cs : List Call} {a : Asm} {words : List Nat}
    (hr : ∀ c ∈ cs, ∀ f, c.form = some f → f.RegsOk) (hcs : (Asm.new base).calls cs = .ok a)
    (hfs : cs.filterMap Call.form = fs) (hlen : words.length = fs.length)
    (hag : ∀ i (hf : i < fs.length) (hw : i < words.length),
      ∃ l x, Asm.Agrees base a.labels i fs[i].wrap words[i] l x) :
    words.map (fun w => Rv32i.decode (BitVec.ofNat 32 w)) = (instrsOf cs).map some := by
  have hlen' : (instrsOf cs).length = words.length := by
    rw [instrsOf, List.length_mapIdx, hfs, hlen]
  apply List.ext_getElem
  · rw [List.length_map, List.length_map, hlen']
  · intro i h1 h2
    rw [List.length_map] at h1 h2
    obtain ⟨l, x, hx⟩ := hag i (by omega) h1
    have hi := Asm.decode_of_agrees hr hcs hfs (by omega) hx
    rw [List.getElem_map, List.getElem_map, hx.decode]
    rw [List.getElem?_eq_getElem h2] at hi
    exact hi.symm

/-- The page that a script finishes. -/
theorem finish_assembled {p q : PagedAsm} {cs : List PagedCall} {e : Ending} (h : Builds cs p)
    (hr : ∀ c ∈ cs, c.RegsOk) (he : ∀ r, e.scratch_reg = some r → r < 32) (hq : p.finish e = .ok q) :
    ∃ bytes, q.pages = p.pages ++ [bytes] ∧ Assembled p._cur_page_num ⟨openCalls cs, e⟩ bytes := by
  obtain ⟨hroom, ht⟩ := fits_of_finish hq
  have hfree := h.bytes_free hr
  have hlen : ((openCalls cs).filterMap Call.form).length + (e.target p._cur_page_num).toList.length ≤ 9 := by
    rw [PagedAsm.bytes_free] at hfree
    rw [switch_offset, h.window_bytes] at hroom hfree
    omega
  obtain ⟨q', words, bytes, hq', hwlen, hag, hb, h44, hpages⟩ := h.appendsPage hr he ht hlen
  cases hq.symm.trans hq'
  have hregs := regsOk_openCalls hr
  have hwords := decode_words hregs h.cur rfl hwlen hag
  have hilen : (instrsOf (openCalls cs)).length = words.length := by
    have := congrArg List.length hwords
    rw [List.length_map, List.length_map] at this
    exact this.symm
  have hs : (Page.mk (openCalls cs) e).scratch < 32 := by
    rw [Page.scratch]
    cases hreg : e.scratch_reg with
    | none => decide
    | some r => exact he r hreg
  have htail := @decode_tail p cs h ⟨openCalls cs, e⟩ _ hilen.symm hs
  have hall : (words ++ p.tail words.length e).map (fun w => Rv32i.decode (BitVec.ofNat 32 w)) =
      ((Page.mk (openCalls cs) e).full p._cur_page_num).map some := by
    rw [List.map_append, hwords, htail, Page.full, List.map_append]
    rfl
  have hlt : ∀ w ∈ words ++ p.tail words.length e, w < 2 ^ 32 := by
    intro w hw
    rcases List.mem_append.mp hw with hw | hw
    · obtain ⟨i, hi, rfl⟩ := List.getElem_of_mem hw
      obtain ⟨l, x, hx⟩ := hag i (by omega) hi
      exact hx.lt
    · refine tail_lt ?_ _ w hw
      rw [PagedAsm.scratch, h.switch_scratch_reg]
      exact hs
  obtain ⟨bytes', hb', hblen, hget⟩ := Asm.words_to_bytes_ok hlt
  cases hb.symm.trans hb'
  have hflen : (words ++ p.tail words.length e).length = ((Page.mk (openCalls cs) e).full p._cur_page_num).length := by
    have := congrArg List.length hall
    rwa [List.length_map, List.length_map] at this
  refine ⟨bytes, hpages, h44, by omega, fun j i hj => ?_⟩
  obtain ⟨hjlt, rfl⟩ := List.getElem?_eq_some_iff.mp hj
  have hjw : j < (words ++ p.tail words.length e).length := by omega
  rw [hget j hjw, Bits.ofLE_toLE _ _ (by omega)]
  have := congrArg (fun l => l[j]?) hall
  rw [List.getElem?_map, List.getElem?_map, List.getElem?_eq_getElem hjw, hj] at this
  exact Option.some.inj this

/-! ## The whole script -/

theorem foldl_split (cs : List PagedCall) (pages : List Page) (on_page : List Call) :
    (cs.foldl splitStep (pages, on_page)).2 = cs.foldl onPage on_page := by
  induction cs generalizing pages on_page with
  | nil => rfl
  | cons c cs ih =>
    cases c with
    | page c => exact ih _ _
    | ending e => exact ih _ _

theorem pagesOf_page (cs : List PagedCall) (c : Call) : pagesOf (cs ++ [.page c]) = pagesOf cs := by
  rw [pagesOf, List.foldl_append]
  rfl

theorem pagesOf_ending (cs : List PagedCall) (e : Ending) :
    pagesOf (cs ++ [.ending e]) = pagesOf cs ++ [⟨openCalls cs, e⟩] := by
  rw [pagesOf, List.foldl_append, openCalls, ← foldl_split cs [], pagesOf]
  rfl

/-- The builder `p` has finished the pages of the calls `cs`. -/
structure Finished (cs : List PagedCall) (p : PagedAsm) : Prop where
  builds : Builds cs p
  length : p.pages.length = (pagesOf cs).length
  num : p._cur_page_num = p.pages.length
  assembled : ∀ n pg bytes, (pagesOf cs)[n]? = some pg → p.pages[n]? = some bytes → Assembled n pg bytes

/-- One call. -/
theorem Finished.call {cs : List PagedCall} {p q : PagedAsm} {c : PagedCall} (h : Finished cs p)
    (hr : ∀ c ∈ cs, c.RegsOk) (hc : c.RegsOk) (hq : p.call c = .ok q) : Finished (cs ++ [c]) q := by
  have hb := h.builds.call hq
  cases c with
  | page c =>
    obtain ⟨a, ha, hq⟩ := bind_ok.mp hq
    cases hq
    refine ⟨hb, ?_, h.num, ?_⟩
    · rw [pagesOf_page]
      exact h.length
    · rw [pagesOf_page]
      exact h.assembled
  | ending e =>
    obtain ⟨bytes, hpages, hasm⟩ := finish_assembled h.builds hr hc hq
    have hnum : q._cur_page_num = p._cur_page_num + 1 := congrArg (fun l => l.2.2.2.2) (finish_cur hq).1
    refine ⟨hb, ?_, ?_, fun n pg bs hpg hbs => ?_⟩
    · rw [hpages, pagesOf_ending, List.length_append, List.length_append, h.length]
      rfl
    · rw [hnum, hpages, List.length_append, h.num]
      rfl
    · rw [pagesOf_ending] at hpg
      rw [hpages] at hbs
      by_cases hn : n < p.pages.length
      · rw [List.getElem?_append_left (h.length ▸ hn)] at hpg
        rw [List.getElem?_append_left hn] at hbs
        exact h.assembled n pg bs hpg hbs
      · obtain rfl : n = p.pages.length := by
          have := (List.getElem?_eq_some_iff.mp hbs).1
          rw [List.length_append, List.length_singleton] at this
          omega
        rw [List.getElem?_concat_length] at hbs
        rw [h.length, List.getElem?_concat_length] at hpg
        cases hbs
        cases hpg
        rw [← h.num]
        exact hasm

/-- The calls one after the other. -/
theorem finished_of_calls {cs : List PagedCall} {p : PagedAsm} (hr : ∀ c ∈ cs, c.RegsOk)
    (hp : default.calls cs = .ok p) : Finished cs p := by
  have key : ∀ (cs' : List PagedCall) {pre : List PagedCall} {q : PagedAsm}, Finished pre q →
      (∀ c ∈ pre ++ cs', c.RegsOk) → q.calls cs' = .ok p → Finished (pre ++ cs') p := by
    intro cs'
    induction cs' with
    | nil =>
      intro pre q h _ hq
      cases hq
      rw [List.append_nil]
      exact h
    | cons c cs' ih =>
      intro pre q h hr hq
      obtain ⟨q', hq', hq⟩ := bind_ok.mp hq
      have h' := h.call (fun c' hc' => hr c' (List.mem_append_left _ hc'))
        (hr c (List.mem_append_right _ List.mem_cons_self)) hq'
      have := ih h' (by rwa [List.append_assoc]) hq
      rwa [List.append_assoc] at this
  refine @key cs [] default ⟨builds_default, rfl, rfl, ?_⟩ hr hp
  intro n pg bytes hpg
  cases hpg

/-! ## The flash -/

/-- Page `n` of pages of 44 bytes each. -/
theorem flatten_page {pages : List (List (BitVec 8))} (h44 : ∀ b ∈ pages, b.length = 44) {n : Nat}
    {bytes : List (BitVec 8)} (hn : pages[n]? = some bytes) : (pages.flatten.drop (44 * n)).take 44 = bytes := by
  induction pages generalizing n with
  | nil => cases hn
  | cons b pages ih =>
    have hb := h44 b List.mem_cons_self
    cases n with
    | zero =>
      cases hn
      rw [Nat.mul_zero, List.drop_zero, List.flatten_cons, List.take_left' hb]
    | succ n =>
      have hcut : 44 * (n + 1) = b.length + 44 * n := by omega
      rw [List.flatten_cons, hcut, List.drop_length_add_append]
      exact ih (fun b' hb' => h44 b' (List.mem_cons_of_mem _ hb')) hn

/-- Four bytes of an image that is in the flash. -/
theorem Paged.InFlash.load {flash : Bits.ByteMemory 14} {image : List (BitVec 8)} (h : Paged.InFlash flash image)
    {n : Nat} (hn : n + 4 ≤ image.length) : flash.load (BitVec.ofNat 14 n) 4 = (image.drop n).take 4 := by
  apply List.ext_getElem?
  intro k
  by_cases hk : k < 4
  · have hidx : n + k < image.length := by omega
    rw [Bits.ByteMemory.load, List.getElem?_map, List.getElem?_range hk, Option.map_some, ← BitVec.ofNat_add,
      h _ hidx, List.getElem?_take_of_lt hk, List.getElem?_drop]
    exact (List.getElem?_eq_getElem hidx).symm
  · rw [List.getElem?_eq_none, List.getElem?_eq_none]
    · rw [List.length_take]
      omega
    · rw [Bits.ByteMemory.load, List.length_map, List.length_range]
      omega

/-- A word of the image in the flash is the instruction of its page. -/
theorem flash_decode {cs : List PagedCall} {p : PagedAsm} (h : Finished cs p) (hcount : p.pages.length ≤ 256)
    {flash : Bits.ByteMemory 14} (hflash : Paged.InFlash flash p.finalize) {n j : Nat} {pg : Page}
    (hpg : (pagesOf cs)[n]? = some pg) {i : Instr} (hi : (pg.full n)[j]? = some i) {m : MemRegs}
    (hm : m.flash_page = BitVec.ofNat 8 n) {pc : BitVec 8} (hpc : pc = windowAddr j) :
    Rv32i.decode (flashWord flash m pc) = some i := by
  have hn : n < p.pages.length := h.length ▸ (List.getElem?_eq_some_iff.mp hpg).1
  have hbytes : p.pages[n]? = some p.pages[n] := List.getElem?_eq_getElem hn
  have hasm := h.assembled n pg _ hpg hbytes
  have hj : j < 11 := hasm.full_length ▸ (List.getElem?_eq_some_iff.mp hi).1
  have h44 : ∀ b ∈ p.pages, b.length = 44 := by
    intro b hb
    obtain ⟨k, hk, rfl⟩ := List.getElem_of_mem hb
    obtain ⟨pg', hpg'⟩ : ∃ pg', (pagesOf cs)[k]? = some pg' :=
      ⟨_, List.getElem?_eq_getElem (h.length ▸ hk)⟩
    exact (h.assembled k pg' _ hpg' (List.getElem?_eq_getElem hk)).bytes_length
  have hpage := flatten_page h44 hbytes
  have hlen : 44 * n + 44 ≤ p.pages.flatten.length := by
    have := congrArg List.length hpage
    rw [List.length_take, List.length_drop, h44 _ (List.getElem_mem hn)] at this
    omega
  have hword : flash.load (BitVec.ofNat 14 (44 * n + 4 * j)) 4 = (p.pages[n].drop (4 * j)).take 4 := by
    have hroom : 44 * n + 4 * j + 4 ≤ p.finalize.length := by
      show _ ≤ p.pages.flatten.length
      omega
    rw [hflash.load hroom, ← hpage, List.drop_take, List.take_take, Nat.min_eq_left (by omega), List.drop_drop]
    rfl
  have hpcn : pc.toNat - 0xB4 = 4 * j := by
    rw [hpc, windowAddr, BitVec.toNat_ofNat]
    omega
  have hmn : m.flash_page.toNat = n := by
    rw [hm, BitVec.toNat_ofNat]
    omega
  rw [flashWord, hpcn, hmn, Nat.mul_comm n 44, hword]
  exact hasm.decode j i hi

end Pineapple
