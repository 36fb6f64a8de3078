import Pineapple.Paged.Proofs.StoreProofs
import Pineapple.Ps2.Pages

/-!
# Proofs: the pages of the PS/2 readers

Both scripts raise nothing, and their images hold the pages.
-/

namespace Pineapple

/-! ## Scripts with a table of pages -/

/-- A loop that makes `m` pages in each turn. -/
theorem Writes.turns {f : PagedAsm → Nat → Except PyError PagedAsm} {P : Nat → List Page} {n m k : Nat}
    (hlen : ∀ i < k, (P i).length = m) (hf : ∀ i < k, Writes (n + m * i) (P i) fun p => f p i) :
    Writes n ((List.range k).flatMap P) fun p => (List.range k).foldlM f p := by
  induction k with
  | zero => exact fun p _ => rfl
  | succ k ih =>
    have hall : ((List.range k).flatMap P).length = m * k := by
      rw [List.length_flatMap, List.map_congr_left fun i hi => hlen i (by have := List.mem_range.mp hi; omega)]
      simp [Nat.mul_comm]
    have hlast := Writes.append (ih (fun i hi => hlen i (by omega)) fun i hi => hf i (by omega)) (Q := P k)
      (g := fun p => f p k) (by
        rw [hall]
        exact hf k (Nat.lt_succ_self k))
    intro p hp
    show (List.range (k + 1)).foldlM f p = _
    rw [List.range_succ, List.foldlM_append, List.flatMap_append, List.flatMap_singleton, ← hlast p hp]
    refine bind_congr fun q => ?_
    show f q k >>= pure = f q k
    exact bind_pure _

namespace Ps2

theorem reserve_ok {n : Nat} (p : PagedAsm) (h : p._cur_page_num = n) : reserve_page n p = .ok p := if_pos h

/-- The check of a page number in front of a part. -/
theorem stage {n : Nat} {P Q : List Page} {f g : PagedAsm → Except PyError PagedAsm} (hf : Writes n P f)
    (hg : Writes (n + P.length) Q g) :
    Writes n (P ++ Q) fun p => reserve_page n p >>= fun p => f p >>= g := .stage reserve_ok hf hg

theorem calls_ending (p : PagedAsm) (e : Ending) : p.calls [.ending e] = p.finish e := bind_pure (p.finish e)

theorem writes_wait (n level : Nat) (next : Int) : Writes n [waitPage level next] (wait_clock level next) := by
  refine Writes.page fun p _ => ?_
  rw [waitPage, Page.calls, PagedAsm.calls_append]
  show wait_clock level next p = (p.calls ([_, _, _] ++ [_])) >>= _
  rw [PagedAsm.calls_append, bind_assoc]
  refine bind_congr fun q => bind_congr fun q => ?_
  exact (calls_ending q (.switch_to next none)).symm

theorem writes_sample (n : Nat) (bit_value next : Int) :
    Writes n [samplePage bit_value next] (wait_clock_low_and_sample bit_value next) := Writes.page fun _ _ => rfl

/-- The two pages of a data bit. -/
def bitPages (bit_i : Nat) : List Page :=
  [samplePage (1 <<< bit_i) ((BIT_PAGES_START + 2 * bit_i + 1 : Nat) : Int),
    waitPage 1 ((BIT_PAGES_START + 2 * bit_i + 2 : Nat) : Int)]

theorem writes_bits : Writes BIT_PAGES_START ((List.range 8).flatMap bitPages) bit_pages := by
  refine Writes.turns (P := bitPages) (m := 2) (fun _ _ => rfl) fun i _ => ?_
  exact stage (writes_sample _ _ _) (.reserve reserve_ok (writes_wait _ _ _))

theorem writes_receive : Writes 1 receivePages receive_pages := by
  have h := stage (writes_wait 1 0 2) (stage (writes_wait 2 1 3) (Writes.append writes_bits
    (stage (writes_wait PARITY_LOW 0 PARITY_HIGH) (stage (writes_wait PARITY_HIGH 1 ((PARITY_HIGH + 1 : Nat) : Int))
      (stage (writes_wait STOP_LOW 0 STOP_HIGH)
        (.reserve reserve_ok (writes_wait STOP_HIGH 1 ((STOP_HIGH + 1 : Nat) : Int))))))))
  exact h

/-! ## The pages fit -/

theorem fits_wait (level : Nat) (next : Int) (k : Nat) : (waitPage level next).Fits k := by
  unfold waitPage
  split
  · refine ⟨?_, (by decide : 3 + 1 ≤ 9), _, rfl, rfl⟩
    simp [Page.calls, PagedCall.RegsOk, Call.form, Form.RegsOk, Form.regs, Ending.scratch_reg]
  · refine ⟨?_, (by decide : 3 + 1 ≤ 9), _, rfl, rfl⟩
    simp [Page.calls, PagedCall.RegsOk, Call.form, Form.RegsOk, Form.regs, Ending.scratch_reg]

theorem fits_sample (bit_value next : Int) (k : Nat) : (samplePage bit_value next).Fits k := by
  refine ⟨?_, (by decide : 6 + 1 ≤ 9), _, rfl, rfl⟩
  simp [samplePage, Page.calls, PagedCall.RegsOk, Call.form, Form.RegsOk, Form.regs, Ending.scratch_reg, ACCUM]

theorem fits_receive {pg : Page} (h : pg ∈ receivePages) (k : Nat) : pg.Fits k ∧ pg.scratch = 30 := by
  obtain ⟨n, -, rfl⟩ := List.mem_map.mp h
  unfold receivePage
  split
  · exact ⟨fits_sample _ _ k, rfl⟩
  · exact ⟨fits_wait _ _ k, rfl⟩

/-! ## The raw reader -/

namespace Reader

theorem script_eq : script = PagedAsm.default.calls (scriptCalls pages) := by
  have hinit : Writes 0 [⟨[.ADDI ACCUM 0 0], .switch_to 1 none⟩] fun p =>
      p.calls [.page (.ADDI ACCUM 0 0)] >>= fun p => p.switch_to 1 none := by
    refine Writes.page fun p _ => ?_
    rw [Page.calls, PagedAsm.calls_append]
    exact bind_congr fun q => (calls_ending q (.switch_to 1 none)).symm
  have hresult : Writes RESULT_PAGE [resultPage] fun p =>
      p.calls [.page (.SW ACCUM 0 GPIO_OUT), .page (.ADDI ACCUM 0 0)] >>= fun p => p.switch_to 1 none := by
    refine Writes.page fun p _ => ?_
    rw [Page.calls, PagedAsm.calls_append]
    exact bind_congr fun q => (calls_ending q (.switch_to 1 none)).symm
  have hall := stage hinit (Writes.append writes_receive (.reserve reserve_ok hresult))
  refine Eq.trans ?_ (hall PagedAsm.default rfl)
  simp only [bind_assoc]
  rfl

theorem fits_pages {pg : Page} (h : pg ∈ receivePages ++ [resultPage]) (k : Nat) : pg.Fits k ∧ pg.scratch = 30 := by
  rcases List.mem_append.mp h with h | h
  · exact fits_receive h k
  · rw [List.mem_singleton.mp h]
    exact ⟨⟨by decide, (by decide : 2 + 1 ≤ 9), _, rfl, rfl⟩, rfl⟩

theorem fits_init (k : Nat) : initPage.Fits k := ⟨by decide, (by decide : 2 + 1 ≤ 9), _, rfl, rfl⟩

/-- The script builds an image, and it holds the pages. -/
theorem image_holds : ∃ img, image = .ok img ∧ img.length = 44 * 24 ∧ Paged.WellFormed pages ∧
    ∀ flash, Paged.InFlash flash img → Paged.Holds flash pages := by
  have hfit : ∀ (n : Nat) (pg : Page), (receivePages ++ [resultPage])[n]? = some pg → pg.Fits (n + 1) :=
    fun n pg hn => (fits_pages (List.mem_of_getElem? hn) _).1
  obtain ⟨p, hp⟩ := script_ok (fits_init 0) hfit
  obtain ⟨hwf, hold, hlen⟩ := Paged.script_holds (fits_init 0) hfit (fun pg hpg => by
    rcases List.mem_cons.mp hpg with rfl | hpg
    · rfl
    · exact (fits_pages hpg 0).2) (by decide) hp
  have hlen : p.finalize.length = 44 * 24 := hlen
  refine ⟨p.finalize, ?_, hlen, hwf, hold⟩
  rw [image, script_eq]
  refine bind_ok.mpr ⟨p, hp, if_pos ?_⟩
  rw [hlen]
  rfl

end Reader

/-! ## The reader with a translation -/

namespace Ascii

theorem writes_table : Writes TABLE_START tablePages table_pages :=
  Writes.loop fun _ _ => .reserve reserve_ok (.page fun _ _ => rfl)

theorem script_eq : script = PagedAsm.default.calls (scriptCalls pages) := by
  have hinit : Writes 0 [⟨[.ADDI ACCUM 0 0, .ADDI BREAK_PENDING 0 0, .ADDI EXT_PENDING 0 0], .switch_to 1 none⟩]
      fun p => p.calls [.page (.ADDI ACCUM 0 0), .page (.ADDI BREAK_PENDING 0 0), .page (.ADDI EXT_PENDING 0 0)] >>=
        fun p => p.switch_to 1 none := by
    refine Writes.page fun p _ => ?_
    rw [Page.calls, PagedAsm.calls_append]
    exact bind_congr fun q => (calls_ending q (.switch_to 1 none)).symm
  have htable : Writes TABLE_START tablePages fun p =>
      if p._cur_page_num = TABLE_START then table_pages p else .error (.assertion "") := by
    intro p hp
    exact (if_pos hp).trans (writes_table p hp)
  have hprocess : Writes PROCESS_BP (processPages ++ tablePages) fun p =>
      reserve_page PROCESS_BP p >>= fun p => process_bp p >>= fun p =>
      reserve_page PROCESS_F0 p >>= fun p => process_f0 p >>= fun p =>
      reserve_page PROCESS_E0 p >>= fun p => process_e0 p >>= fun p =>
      reserve_page PROCESS_EXTCHECK p >>= fun p => process_extcheck p >>= fun p =>
      reserve_page PROCESS_DISPATCH p >>= fun p => process_dispatch p >>= fun p =>
      reserve_page EMIT_PAGE p >>= fun p => emit_page p >>= fun p =>
        if p._cur_page_num = TABLE_START then table_pages p else .error (.assertion "") :=
    stage (P := [bpPage]) (.page fun _ _ => rfl) (stage (P := [f0Page]) (.page fun _ _ => rfl)
      (stage (P := [e0Page]) (.page fun _ _ => rfl) (stage (P := [extcheckPage]) (.page fun _ _ => rfl)
        (stage (P := [dispatchPage]) (.page fun _ _ => rfl) (stage (P := [emitPage]) (.page fun _ _ => rfl) htable)))))
  have hall := stage hinit (Writes.append writes_receive hprocess)
  refine Eq.trans ?_ (hall PagedAsm.default rfl)
  simp only [bind_assoc]
  rfl

theorem fits_pages {pg : Page} (h : pg ∈ receivePages ++ (processPages ++ tablePages)) (k : Nat) :
    pg.Fits k ∧ pg.scratch = 30 := by
  rcases List.mem_append.mp h with h | h
  · exact fits_receive h k
  · rcases List.mem_append.mp h with h | h
    · simp only [processPages, List.mem_cons, List.not_mem_nil, or_false] at h
      rcases h with rfl | rfl | rfl | rfl | rfl | rfl
      · exact ⟨⟨by decide, (by decide : 7 + 0 ≤ 9), _, rfl, rfl⟩, rfl⟩
      · exact ⟨⟨by decide, (by decide : 7 + 0 ≤ 9), _, rfl, rfl⟩, rfl⟩
      · exact ⟨⟨by decide, (by decide : 7 + 0 ≤ 9), _, rfl, rfl⟩, rfl⟩
      · exact ⟨⟨by decide, (by decide : 6 + 0 ≤ 9), _, rfl, rfl⟩, rfl⟩
      · exact ⟨⟨by decide, (by decide : 6 + 0 ≤ 9), _, rfl, rfl⟩, rfl⟩
      · exact ⟨⟨by decide, (by decide : 2 + 1 ≤ 9), _, rfl, rfl⟩, rfl⟩
    · obtain ⟨scancode, -, rfl⟩ := List.mem_map.mp h
      refine ⟨⟨?_, (by decide : 1 + 1 ≤ 9), _, rfl, rfl⟩, rfl⟩
      simp [tablePage, Page.calls, PagedCall.RegsOk, Call.form, Form.RegsOk, Form.regs, Ending.scratch_reg]

theorem fits_init (k : Nat) : initPage.Fits k := ⟨by decide, (by decide : 4 + 1 ≤ 9), _, rfl, rfl⟩

/-- The script builds an image, and it holds the pages: all 256 of them. -/
theorem image_holds : ∃ img, image = .ok img ∧ img.length = 44 * 256 ∧ Paged.WellFormed pages ∧
    ∀ flash, Paged.InFlash flash img → Paged.Holds flash pages := by
  have hfit : ∀ (n : Nat) (pg : Page), (receivePages ++ (processPages ++ tablePages))[n]? = some pg →
      pg.Fits (n + 1) := fun n pg hn => (fits_pages (List.mem_of_getElem? hn) _).1
  have hcount : (receivePages ++ (processPages ++ tablePages)).length = 255 := by
    simp [receivePages, processPages, tablePages, MAX_SAFE_SCANCODE, TABLE_START, EMIT_PAGE, PROCESS_DISPATCH,
      PROCESS_EXTCHECK, PROCESS_E0, PROCESS_F0, PROCESS_BP, STOP_HIGH, PARITY_HIGH, PARITY_LOW, BIT_PAGES_START]
  obtain ⟨p, hp⟩ := script_ok (fits_init 0) hfit
  obtain ⟨hwf, hold, hlen⟩ := Paged.script_holds (fits_init 0) hfit (fun pg hpg => by
    rcases List.mem_cons.mp hpg with rfl | hpg
    · rfl
    · exact (fits_pages hpg 0).2) (by omega) hp
  refine ⟨p.finalize, ?_, by rw [hlen, hcount], hwf, hold⟩
  rw [image, script_eq]
  exact bind_ok.mpr ⟨p, hp, rfl⟩

end Ascii

end Ps2

end Pineapple
