import Pineapple.Paged.Proofs.ScriptProofs
import Pineapple.St7789.Proofs.ConstProofs

/-!
# Proofs: the pages of the driver

The script makes the pages of `pages`, for every configuration whose pixel count `load_const32` accepts.
-/

namespace Pineapple

namespace St7789

variable (c : Config)

/-! ## The parts of the script -/

theorem reserve_ok {n : Nat} (p : PagedAsm) (h : p._cur_page_num = n) : reserve_page n p = .ok p := if_pos h

/-- A method call that is the last of its page. -/
theorem calls_ending (p : PagedAsm) (e : Ending) : p.calls [.ending e] = p.finish e := bind_pure (p.finish e)

/-- The page of a bit, with the number of the next page. -/
theorem writes_bit (byte_val : Int) (dc_bit n i : Nat) {f : PagedAsm → Except PyError PagedAsm}
    (hf : ∀ q, q._cur_page_num = n + i → f q = q.switch_to ((n + i + 1 : Nat) : Int) none) :
    Writes (n + i) [bitPage byte_val dc_bit n i] fun p => p.calls (bitCalls byte_val dc_bit i) >>= f := by
  refine Writes.page fun p hp => ?_
  rw [Page.calls, PagedAsm.calls_append]
  show p.calls ((bitPage byte_val dc_bit n i).body.map .page) >>= f = _
  cases hq : p.calls ((bitPage byte_val dc_bit n i).body.map .page) with
  | error e => rfl
  | ok q =>
    show f q = q.calls [.ending _]
    rw [hf q (by rw [cur_of_page hq, hp]), calls_ending]
    rfl

/-- One byte. -/
theorem writes_byte (byte_val : Int) (dc_bit n : Nat) {next : Int} (hnext : next = ((n + 8 : Nat) : Int)) :
    Writes n (bytePages byte_val dc_bit n) (emit_byte_pages byte_val dc_bit next) := by
  refine Writes.loop fun i hi => writes_bit byte_val dc_bit n i fun q hq => ?_
  split
  · rename_i h7
    rw [hnext, h7]
  · rw [hq]
    rfl

theorem writes_delay (n : Nat) (next : Int) : Writes n [delayPage c next] (delay_page c next) :=
  Writes.page fun _ _ => rfl

theorem writes_control (n : Nat) : Writes n [controlPage] control_page := Writes.page fun _ _ => rfl

theorem writes_done (n : Nat) : Writes n [donePage] done_page := Writes.page fun _ _ => rfl

theorem bytesPages_nil (n : Nat) : bytesPages n [] = [] := rfl

theorem bytesPages_cons (n : Nat) (byte_val : Int) (dc_bit : Nat) (bytes : List (Int × Nat)) :
    bytesPages n ((byte_val, dc_bit) :: bytes) = bytePages byte_val dc_bit n ++ bytesPages (n + 8) bytes := rfl

/-- The ring is the two bytes of the colour. -/
theorem writes_ring : Writes 147 (bytesPages 147 (colorBytes c)) (fill_ring c) := by
  have hbyte : ∀ (b v : Nat), b < 2 → Writes (147 + 8 * b) (bytePages v DC_DATA (147 + 8 * b)) fun p =>
      (List.range 8).foldlM (fun p i => p.calls (bitCalls v DC_DATA i) >>= fun p =>
        if 8 * b + i + 1 = RING_LEN then p.switch_to CTRL_PAGE none
        else p.switch_to (p._cur_page_num + 1) none) p := by
    intro b v hb
    refine Writes.loop fun i hi => writes_bit v DC_DATA _ i fun q hq => ?_
    split
    · rename_i hlast
      have h16 : 8 * b + i + 1 = 16 := hlast
      rw [show ((147 + 8 * b + i + 1 : Nat) : Int) = CTRL_PAGE by show _ = (163 : Int); omega]
    · rw [hq]
      rfl
  have h := Writes.append (hbyte 0 (lowBits (c.FILL_COLOR >>> (8 : Nat)) 8) (by decide))
    (hbyte 1 (lowBits c.FILL_COLOR 8) (by decide))
  intro p hp
  rw [colorBytes, bytesPages_cons, bytesPages_cons, bytesPages_nil, List.append_nil]
  refine Eq.trans ?_ (h p hp)
  rw [fill_ring, List.foldlM_cons]
  exact bind_congr fun q => bind_pure _

/-! ## The whole script -/

/-- The check of a page number in front of a part. -/
theorem stage {n : Nat} {P Q : List Page} {f g : PagedAsm → Except PyError PagedAsm} (hf : Writes n P f)
    (hg : Writes (n + P.length) Q g) :
    Writes n (P ++ Q) fun p => reserve_page n p >>= fun p => f p >>= g := .stage reserve_ok hf hg

theorem stage_byte {n : Nat} {byte_val next : Int} {dc_bit : Nat} {Q : List Page}
    {g : PagedAsm → Except PyError PagedAsm} (hnext : next = ((n + 8 : Nat) : Int)) (hg : Writes (n + 8) Q g) :
    Writes n (bytePages byte_val dc_bit n ++ Q) fun p =>
      reserve_page n p >>= fun p => emit_byte_pages byte_val dc_bit next p >>= g := by
  refine stage (writes_byte byte_val dc_bit n hnext) ?_
  rwa [show n + (bytePages byte_val dc_bit n).length = n + 8 from rfl]

/-- The script after page 0. -/
def scriptFrom1 (p : PagedAsm) : Except PyError PagedAsm := do
  let p ← emit_cmd 0x01 9 (← reserve_page 1 p)
  let p ← delay_page c 10 (← reserve_page 9 p)
  let p ← emit_cmd 0x11 18 (← reserve_page 10 p)
  let p ← delay_page c 19 (← reserve_page 18 p)
  let p ← emit_cmd 0x3A 27 (← reserve_page 19 p)
  let p ← emit_data 0x05 35 (← reserve_page 27 p)
  let p ← emit_cmd 0x36 43 (← reserve_page 35 p)
  let p ← emit_data c.MADCTL_VALUE 51 (← reserve_page 43 p)
  let p ← emit_cmd 0x2A 59 (← reserve_page 51 p)
  let p ← emit_data 0 67 (← reserve_page 59 p)
  let p ← emit_data 0 75 (← reserve_page 67 p)
  let p ← emit_data ((c.PANEL_WIDTH - 1) >>> (8 : Nat)) 83 (← reserve_page 75 p)
  let p ← emit_data (lowBits (c.PANEL_WIDTH - 1) 8) 91 (← reserve_page 83 p)
  let p ← emit_cmd 0x2B 99 (← reserve_page 91 p)
  let p ← emit_data 0 107 (← reserve_page 99 p)
  let p ← emit_data 0 115 (← reserve_page 107 p)
  let p ← emit_data ((c.PANEL_HEIGHT - 1) >>> (8 : Nat)) 123 (← reserve_page 115 p)
  let p ← emit_data (lowBits (c.PANEL_HEIGHT - 1) 8) 131 (← reserve_page 123 p)
  let p ← emit_cmd 0x29 139 (← reserve_page 131 p)
  let p ← emit_cmd 0x2C 147 (← reserve_page 139 p)
  let p ← fill_ring c (← reserve_page 147 p)
  let p ← control_page (← reserve_page 163 p)
  done_page (← reserve_page 164 p)

theorem writes_from1 : Writes 1 (pagesFrom1 c) (scriptFrom1 c) := by
  have hend : Writes 147 (bytesPages 147 (colorBytes c) ++ ([controlPage] ++ [donePage])) fun p =>
      reserve_page 147 p >>= fun p => fill_ring c p >>= fun p => reserve_page 163 p >>= fun p =>
        control_page p >>= fun p => reserve_page 164 p >>= done_page :=
    stage (writes_ring c) (stage (writes_control 163) (.reserve reserve_ok (writes_done 164)))
  simp only [pagesFrom1, initBytes, bytesPages_cons, bytesPages_nil, List.append_nil, List.append_assoc,
    List.cons_append]
  exact stage_byte rfl (stage (writes_delay c 9 10) (stage_byte rfl (stage (writes_delay c 18 19)
    (stage_byte rfl (stage_byte rfl (stage_byte rfl (stage_byte rfl (stage_byte rfl (stage_byte rfl (stage_byte rfl
      (stage_byte rfl (stage_byte rfl (stage_byte rfl (stage_byte rfl (stage_byte rfl (stage_byte rfl (stage_byte rfl
        (stage_byte rfl (stage_byte rfl hend)))))))))))))))))))

/-- What the script adds to page 0 and how it ends it. -/
def startPage : Page where
  body := [.ADDI 2 0 0, .SW 2 0 GPIO_OUT] ++ constCalls 5 8 (pixel_count c)
  ending := .switch_to 1 none

theorem writes_start (h : 0 ≤ pixel_count c ∧ pixel_count c < 2 ^ 24) : Writes 0 [startPage c] fun p =>
    p.calls [.page (.ADDI 2 0 0), .page (.SW 2 0 GPIO_OUT)] >>= fun p =>
      load_const32 5 (pixel_count c) 8 p >>= fun p => p.switch_to 1 none := by
  refine Writes.page fun p _ => ?_
  rw [startPage, Page.calls, List.map_append, PagedAsm.calls_append, PagedAsm.calls_append, bind_assoc]
  refine bind_congr fun p => ?_
  rw [load_const32_eq p 5 8 h.1 h.2]
  exact bind_congr fun q => (calls_ending q (.switch_to 1 none)).symm

/-- The script, for a pixel count that `load_const32` accepts. -/
theorem script_eq (h : 0 ≤ pixel_count c ∧ pixel_count c < 2 ^ 24) :
    script c = PagedAsm.default.calls (scriptCalls (pages c)) := by
  have hall := Writes.append (.reserve reserve_ok (writes_start c h)) (writes_from1 c)
  refine Eq.trans ?_ (hall PagedAsm.default rfl)
  simp only [bind_assoc]
  rfl

theorem pixel_count_of_script {p : PagedAsm} (h : script c = .ok p) : 0 ≤ pixel_count c ∧ pixel_count c < 2 ^ 24 := by
  obtain ⟨p₀, -, h⟩ := bind_ok.mp h
  obtain ⟨p₁, -, h⟩ := bind_ok.mp h
  obtain ⟨p₂, hp₂, -⟩ := bind_ok.mp h
  unfold load_const32 at hp₂
  split at hp₂
  · assumption
  · cases hp₂

/-! ## The pages fit -/

theorem fits_bit (byte_val : Int) (dc_bit n i k : Nat) : (bitPage byte_val dc_bit n i).Fits k := by
  refine ⟨?_, (by decide : 4 + 1 ≤ 9), _, rfl, rfl⟩
  simp [bitPage, Page.calls, PagedCall.RegsOk, Call.form, Form.RegsOk, Form.regs, Ending.scratch_reg]

theorem fits_delay (next : Int) (k : Nat) : (delayPage c next).Fits k := by
  refine ⟨?_, (by decide : 4 + 1 ≤ 9), _, rfl, rfl⟩
  simp [delayPage, Page.calls, PagedCall.RegsOk, Call.form, Form.RegsOk, Form.regs, Ending.scratch_reg]

theorem fits_init (k : Nat) : (initPage c).Fits k := by
  rw [initPage, constCalls]
  split
  · refine ⟨?_, (by decide : 7 + 1 ≤ 9), _, rfl, rfl⟩
    simp [Page.calls, PagedCall.RegsOk, Call.form, Form.RegsOk, Form.regs, Ending.scratch_reg]
  · refine ⟨?_, (by decide : 4 + 1 ≤ 9), _, rfl, rfl⟩
    simp [Page.calls, PagedCall.RegsOk, Call.form, Form.RegsOk, Form.regs, Ending.scratch_reg]

theorem fits_control (k : Nat) : controlPage.Fits k :=
  ⟨by decide, (by decide : 5 + 0 ≤ 9), _, rfl, rfl⟩

theorem fits_done (k : Nat) : donePage.Fits k :=
  ⟨by decide, (by decide : 1 + 1 ≤ 9), _, rfl, rfl⟩

theorem fits_bytes {n : Nat} {bytes : List (Int × Nat)} {pg : Page} (h : pg ∈ bytesPages n bytes) (k : Nat) :
    pg.Fits k := by
  induction bytes generalizing n with
  | nil => cases h
  | cons b bytes ih =>
    rcases List.mem_append.mp h with h | h
    · obtain ⟨i, -, rfl⟩ := List.mem_map.mp h
      exact fits_bit _ _ _ _ k
    · exact ih h

theorem fits_from1 {pg : Page} (h : pg ∈ pagesFrom1 c) (k : Nat) : pg.Fits k := by
  simp only [pagesFrom1, List.mem_append, List.mem_cons, List.not_mem_nil, or_false] at h
  rcases h with (((h | rfl | h) | rfl | h) | h) | rfl | rfl
  · exact fits_bytes h k
  · exact fits_delay c _ k
  · exact fits_bytes h k
  · exact fits_delay c _ k
  · exact fits_bytes h k
  · exact fits_bytes h k
  · exact fits_control k
  · exact fits_done k

/-- Every page of the driver ends with the default scratch register. -/
theorem scratch_from1 {pg : Page} (h : pg ∈ pagesFrom1 c) : pg.scratch = 30 := by
  have hbytes : ∀ {bytes : List (Int × Nat)} {n : Nat}, pg ∈ bytesPages n bytes → pg.scratch = 30 := by
    intro bytes
    induction bytes with
    | nil =>
      intro n h
      cases h
    | cons b bytes ih =>
      intro n h
      rcases List.mem_append.mp h with h | h
      · obtain ⟨i, -, rfl⟩ := List.mem_map.mp h
        rfl
      · exact ih h
  simp only [pagesFrom1, List.mem_append, List.mem_cons, List.not_mem_nil, or_false] at h
  rcases h with (((h | rfl | h) | rfl | h) | h) | rfl | rfl
  all_goals first | exact hbytes h | rfl

theorem bytesPages_length (n : Nat) (bytes : List (Int × Nat)) : (bytesPages n bytes).length = 8 * bytes.length := by
  induction bytes generalizing n with
  | nil => rfl
  | cons b bytes ih =>
    rw [bytesPages_cons, List.length_append, ih, bytePages, List.length_map, List.length_range, List.length_cons]
    omega

theorem pages_length : (pages c).length = 165 := by
  simp only [pages, pagesFrom1, List.length_cons, List.length_append, List.length_nil, bytesPages_length, initBytes,
    colorBytes]

/-! ## The image -/

/-- The script builds an image if and only if `load_const32` accepts the pixel count, and then makes the pages. -/
theorem script_ok_iff : (∃ p, script c = .ok p) ↔ 0 ≤ pixel_count c ∧ pixel_count c < 2 ^ 24 := by
  constructor
  · rintro ⟨p, hp⟩
    exact pixel_count_of_script c hp
  · intro h
    rw [script_eq c h]
    exact script_ok (fits_init c 0) fun n pg hn => fits_from1 c (List.mem_of_getElem? hn) _

theorem pagesOf_pages : pagesOf (scriptCalls (pages c)) = pages c := pagesOf_scriptCalls (pagesFrom1 c)

end St7789

end Pineapple
