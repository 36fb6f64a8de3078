import Pineapple.Paged.Proofs.ImageProofs

/-!
# Proofs: scripts as lists of pages

A script is a chain of parts, each of which makes the pages from its own page number on, so the chain makes the
pages of the parts one after the other. A script whose pages fit raises nothing.
-/

namespace Pineapple

open PagedAsm

/-! ## Parts of a script -/

theorem cur_of_page {cs : List Call} {p q : PagedAsm} (h : p.calls (cs.map .page) = .ok q) :
    q._cur_page_num = p._cur_page_num := by
  induction cs generalizing p with
  | nil =>
    cases h
    rfl
  | cons c cs ih =>
    obtain ⟨p', hp', h⟩ := bind_ok.mp h
    obtain ⟨a, -, hp'⟩ := bind_ok.mp hp'
    cases hp'
    exact (ih h).trans rfl

/-- The page numbers count the pages. -/
theorem cur_of_calls {P : List Page} : ∀ {p q : PagedAsm}, p.calls (P.flatMap Page.calls) = .ok q →
    q._cur_page_num = p._cur_page_num + P.length := by
  induction P with
  | nil =>
    intro p q h
    cases h
    rfl
  | cons pg P ih =>
    intro p q h
    rw [List.flatMap_cons, Page.calls, List.append_assoc, calls_append] at h
    obtain ⟨p', hp', h⟩ := bind_ok.mp h
    obtain ⟨p'', hp'', h⟩ := bind_ok.mp h
    have hnum : p''._cur_page_num = p'._cur_page_num + 1 := congrArg (fun l => l.2.2.2.2) (finish_cur hp'').1
    rw [ih h, hnum, cur_of_page hp', List.length_cons]
    omega

section Writes

variable {n : Nat} {P Q : List Page} {f g : PagedAsm → Except PyError PagedAsm}

/-- Two parts one after the other. -/
theorem Writes.append (hf : Writes n P f) (hg : Writes (n + P.length) Q g) :
    Writes n (P ++ Q) fun p => f p >>= g := by
  intro p hp
  show f p >>= g = _
  rw [List.flatMap_append, calls_append, hf p hp]
  cases hq : p.calls (P.flatMap Page.calls) with
  | error e => rfl
  | ok q => exact hg q (by rw [cur_of_calls hq, hp])

/-- A check of the page number that succeeds. -/
theorem Writes.reserve {r : PagedAsm → Except PyError PagedAsm} (hr : ∀ p, p._cur_page_num = n → r p = .ok p)
    (hf : Writes n P f) : Writes n P fun p => r p >>= f := by
  intro p hp
  show r p >>= f = _
  rw [hr p hp]
  exact hf p hp

/-- A part after such a check. -/
theorem Writes.stage {r : PagedAsm → Except PyError PagedAsm} (hr : ∀ p, p._cur_page_num = n → r p = .ok p)
    (hf : Writes n P f) (hg : Writes (n + P.length) Q g) :
    Writes n (P ++ Q) fun p => r p >>= fun p => f p >>= g := .reserve hr (.append hf hg)

/-- A part is the calls of one page. -/
theorem Writes.page {pg : Page} (hf : ∀ p, p._cur_page_num = n → f p = p.calls pg.calls) : Writes n [pg] f := by
  intro p hp
  rw [hf p hp, List.flatMap_singleton]

/-- A loop that makes one page in each turn. -/
theorem Writes.loop {f : PagedAsm → Nat → Except PyError PagedAsm} {pg : Nat → Page} {k : Nat}
    (hf : ∀ i < k, Writes (n + i) [pg i] fun p => f p i) :
    Writes n ((List.range k).map pg) fun p => (List.range k).foldlM f p := by
  induction k with
  | zero => exact fun p _ => rfl
  | succ k ih =>
    have hlast := Writes.append (ih fun i hi => hf i (by omega)) (Q := [pg k]) (g := fun p => f p k) (by
      rw [List.length_map, List.length_range]
      exact hf k (Nat.lt_succ_self k))
    intro p hp
    show (List.range (k + 1)).foldlM f p = _
    rw [List.range_succ, List.foldlM_append, List.map_append, List.map_singleton, ← hlast p hp]
    refine bind_congr fun q => ?_
    show f q k >>= pure = f q k
    exact bind_pure _

end Writes

/-! ## The pages of the calls -/

theorem foldl_split_calls (pages : List Page) (on_page cs : List Call) (e : Ending) :
    (cs.map PagedCall.page ++ [PagedCall.ending e]).foldl splitStep (pages, on_page) =
      (pages ++ [⟨on_page ++ cs, e⟩], []) := by
  induction cs generalizing on_page with
  | nil => rw [List.append_nil]; rfl
  | cons c cs ih =>
    show (cs.map PagedCall.page ++ [PagedCall.ending e]).foldl splitStep (pages, on_page ++ [c]) = _
    rw [ih, List.append_assoc]
    rfl

/-- A script has the pages that it was made from. -/
theorem pagesOf_scriptCalls {body : List Call} {e : Ending} (P : List Page) :
    pagesOf (scriptCalls (⟨.ADDI 0 0 0 :: body, e⟩ :: P)) = ⟨.ADDI 0 0 0 :: body, e⟩ :: P := by
  have hrest : ∀ (P pages : List Page), (P.flatMap Page.calls).foldl splitStep (pages, []) = (pages ++ P, []) := by
    intro P
    induction P with
    | nil => exact fun pages => by rw [List.append_nil]; rfl
    | cons pg P ih =>
      intro pages
      rw [List.flatMap_cons, List.foldl_append, Page.calls, foldl_split_calls, List.nil_append, ih,
        List.append_assoc]
      rfl
  show (((body.map PagedCall.page ++ [PagedCall.ending e]) ++ P.flatMap Page.calls).foldl splitStep
    ([], [.ADDI 0 0 0])).1 = _
  rw [List.foldl_append, foldl_split_calls, hrest]
  rfl

/-! ## A script raises nothing -/

/-- A page that fits. -/
theorem page_ok {cs : List PagedCall} {p : PagedAsm} {n : Nat} {pg : Page} {rest : List Call} (h : Builds cs p)
    (hr : ∀ c ∈ cs, c.RegsOk) (hn : p._cur_page_num = n) (hfit : pg.Fits n)
    (hbody : openCalls cs ++ rest = pg.body) :
    ∃ q, p.calls (rest.map .page ++ [.ending pg.ending]) = .ok q := by
  obtain ⟨a, ha, ht⟩ := hfit.labels
  rw [← hbody, Asm.calls_append] at ha
  obtain ⟨a', ha', ha⟩ := bind_ok.mp ha
  cases h.cur.symm.trans ha'
  have hpage := calls_page ha
  have hb := h.calls hpage
  have hregs : ∀ c ∈ cs ++ rest.map .page, c.RegsOk := by
    intro c hc
    rcases List.mem_append.mp hc with hc | hc
    · exact hr c hc
    · refine hfit.regs c (List.mem_append_left _ ?_)
      obtain ⟨c', hc', rfl⟩ := List.mem_map.mp hc
      exact List.mem_map_of_mem (hbody ▸ List.mem_append_right _ hc')
  have hroom := hfit.room
  have hopen : openCalls (cs ++ rest.map .page) = pg.body := by rw [openCalls_page, hbody]
  rw [← hopen, ← hn] at hroom
  obtain ⟨q, -, -, hq, -⟩ := hb.appendsPage (e := pg.ending) hregs
    (hfit.regs _ (List.mem_append_right _ List.mem_cons_self)) (List.all_eq_true.mp ht) hroom
  refine ⟨q, ?_⟩
  rw [calls_append]
  exact bind_ok.mpr ⟨_, hpage, bind_ok.mpr ⟨q, hq, rfl⟩⟩

/-- A script whose pages fit. -/
theorem script_ok {body : List Call} {e : Ending} {P : List Page} (h0 : (Page.mk (.ADDI 0 0 0 :: body) e).Fits 0)
    (hP : ∀ (n : Nat) (pg : Page), P[n]? = some pg → pg.Fits (n + 1)) :
    ∃ p, default.calls (scriptCalls (⟨.ADDI 0 0 0 :: body, e⟩ :: P)) = .ok p := by
  have hrest : ∀ (P : List Page) {cs : List PagedCall} {p : PagedAsm} {n : Nat}, Builds cs p →
      (∀ c ∈ cs, c.RegsOk) → openCalls cs = [] → p._cur_page_num = n →
      (∀ (k : Nat) (pg : Page), P[k]? = some pg → pg.Fits (n + k)) → ∃ q, p.calls (P.flatMap Page.calls) = .ok q := by
    intro P
    induction P with
    | nil => exact fun _ _ _ _ _ => ⟨_, rfl⟩
    | cons pg P ih =>
      intro cs p n h hr hopen hn hP
      have hfit : pg.Fits n := hP 0 pg rfl
      obtain ⟨q, hq⟩ := page_ok h hr hn hfit (show openCalls cs ++ pg.body = pg.body by rw [hopen, List.nil_append])
      have hcur := cur_of_calls (P := [pg]) (p := p) (q := q) (by rw [List.flatMap_singleton]; exact hq)
      obtain ⟨q', hq'⟩ := ih (n := n + 1) (h.calls hq) (fun c hc => (List.mem_append.mp hc).elim (hr c) (hfit.regs c))
        (by rw [← List.append_assoc, openCalls_ending]) (by rw [hcur, hn]; rfl)
        fun k pg' hk => by rw [Nat.add_assoc, Nat.add_comm 1]; exact hP (k + 1) pg' hk
      refine ⟨q', ?_⟩
      rw [List.flatMap_cons, calls_append]
      exact bind_ok.mpr ⟨q, hq, hq'⟩
  obtain ⟨q, hq⟩ := @page_ok [] default 0 _ body builds_default (fun c hc => absurd hc List.not_mem_nil) rfl h0 rfl
  have hmem : ∀ c ∈ [] ++ (body.map PagedCall.page ++ [PagedCall.ending e]), c.RegsOk :=
    fun c hc => h0.regs c (List.mem_cons_of_mem _ hc)
  have hone : q._cur_page_num = 1 := @cur_of_calls [⟨body, e⟩] default q (by rw [List.flatMap_singleton]; exact hq)
  obtain ⟨q', hq'⟩ := hrest P (n := 1) (builds_default.calls hq) hmem (by rw [← List.append_assoc, openCalls_ending])
    hone fun k pg hk => by rw [Nat.add_comm]; exact hP k pg hk
  refine ⟨q', ?_⟩
  show PagedAsm.default.calls ((body.map PagedCall.page ++ [PagedCall.ending e]) ++ P.flatMap Page.calls) = _
  rw [calls_append]
  exact bind_ok.mpr ⟨q, hq, hq'⟩

end Pineapple
