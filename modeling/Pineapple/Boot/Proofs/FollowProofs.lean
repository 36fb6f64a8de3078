import Pineapple.Boot.Proofs.LoadProofs

/-!
# Proofs: the ROM follows the listener

From one poll to the next the ROM does what the listener does, whatever is on the pins. `Ends` are the two ways in
which this comes to an end: all the bytes that the length byte has announced were heard, or the 46th data byte was, and
the write pointer is behind its last target.
-/

namespace Pineapple

open Rv32i (Instr Word Reg)

namespace Boot

/-- RECV_BYTE was called for the byte after those that were heard. -/
def Calls (a : Arch) : List (BitVec 8) → Prop
  | [] => a.reg 1 = (addr 18).setWidth 32
  | L :: bytes => a.reg 1 = (addr 22).setWidth 32 ∧ bytes.length < L.toNat ∧ bytes.length ≤ 45 ∧
      a.reg 4 = BitVec.ofNat 32 (L.toNat - bytes.length) ∧ a.reg 5 = BitVec.ofNat 32 (0xB4 + bytes.length)

/-- The ROM at a poll of the listener. -/
inductive Follows (a : Arch) : Listener → Prop where
  | demo {t : Nat} (hpc : a.pc = addr MAIN_LOOP) (hmode : a.mem.flash_mode = false) : Follows a (.demo t)
  | receiving {heard : List (BitVec 8)} {x : Receiver} (hrecv : Receives a x) (hlen : x.bits.length < 8)
      (hcalls : Calls a heard) (hmode : a.mem.flash_mode = false) : Follows a (.receiving heard x)

/-- The ROM gets from `c` to the end of what is followed. -/
inductive Ends (inp : Nat → Inputs) (c : Nat × Arch) (heard : List (BitVec 8)) : Prop where
  | run {u : Nat} {a : Arch} {L : BitVec 8} {bytes : List (BitVec 8)} (hb : Boots inp c (u, a)) (hpc : a.pc = 0xB4)
      (hheard : heard = L :: bytes) (hall : bytes.length = L.toNat) (hfew : bytes.length ≤ 45)
  | overrun {u : Nat} {a : Arch} (hb : Boots inp c (u, a)) (hpc : a.pc = addr 22) (h5 : a.reg 5 = 0xE1)
      (hover : Overrun heard)

variable {inp : Nat → Inputs} {t : Nat} {a : Arch} {c c' : Nat × Arch} {L v : BitVec 8} {bytes heard : List (BitVec 8)}
  {l : Listener}

theorem Calls.frame {a' : Arch} (h : Calls a heard) (hf : Arch.Frame a a' [2, 3, 6, 7]) : Calls a' heard := by
  cases heard with
  | nil => exact (hf.reg 1 (by decide)).trans h
  | cons L bytes =>
    obtain ⟨h1, h2, h3, h4, h5⟩ := h
    exact ⟨(hf.reg 1 (by decide)).trans h1, h2, h3, (hf.reg 4 (by decide)).trans h4, (hf.reg 5 (by decide)).trans h5⟩

theorem Ends.after (hb : Boots inp c c') (h : Ends inp c' heard) : Ends inp c heard := by
  cases h with
  | run hb' hpc hheard hall hfew => exact .run (hb.trans hb') hpc hheard hall hfew
  | overrun hb' hpc h5 hover => exact .overrun (hb.trans hb') hpc h5 hover

/-! ## Between two bytes -/

/-- The head of BYTE_LOOP after the bytes that were heard. -/
structure AtHead (a : Arch) (L : BitVec 8) (bytes : List (BitVec 8)) : Prop where
  pc : a.pc = addr BYTE_LOOP
  left : a.reg 4 = BitVec.ofNat 32 (L.toNat - bytes.length)
  ptr : a.reg 5 = BitVec.ofNat 32 (0xB4 + bytes.length)
  flash_mode : a.mem.flash_mode = false
  announced : bytes.length ≤ L.toNat
  few : bytes.length ≤ 45

variable (inp) in
/-- BYTE_LOOP goes on to the next byte, or to the program. -/
theorem follows_head (h : AtHead a L bytes) :
    (∃ a', Boots inp (t, a) (t + 28, a') ∧ Follows a' (.receiving (L :: bytes) ⟨t + 28, .rise, []⟩)) ∨
      Ends inp (t, a) (L :: bytes) := by
  by_cases hall : bytes.length = L.toNat
  · right
    have hzero : a.reg 4 = 0#32 := by rw [h.left, hall, Nat.sub_self]
    exact .run (byte_loop_run h.pc hzero) rfl rfl hall h.few
  · left
    have hlt : bytes.length < L.toNat := by
      have := h.announced
      omega
    have hleft : a.reg 4 ≠ 0#32 := by
      rw [h.left]
      exact ofNat_ne_zero (by omega) (by have := L.isLt; omega)
    have hcall := byte_loop_call inp (t := t) h.pc hleft
    obtain ⟨a', hclear, hrecv, hf⟩ := recv_call inp (t := t + 14)
      (a := (a.setReg 1 ((addr 22).setWidth 32)).goto (addr RECV_BYTE)) rfl
    refine ⟨a', hcall.trans hclear, .receiving hrecv (Nat.succ_pos 7) ⟨?_, hlt, h.few, ?_, ?_⟩ ?_⟩
    · exact (hf.reg 1 (by decide)).trans (Arch.reg_setReg_self _ _ (by decide))
    · exact (hf.reg 4 (by decide)).trans h.left
    · exact (hf.reg 5 (by decide)).trans h.ptr
    · exact (congrArg MemRegs.flash_mode hf.mem).trans h.flash_mode

variable (inp) in
/-- After the length byte. -/
theorem head_of_length (hpc : a.pc = addr 18) (h6 : a.reg 6 = v.setWidth 32) (hmode : a.mem.flash_mode = false) :
    ∃ a', Boots inp (t, a) (t + 14, a') ∧ AtHead a' v [] := by
  obtain ⟨a', hseen, hpc', hmem, h4, h5⟩ := length_seen inp (t := t) hpc
  have hlength : v.setWidth 32 = BitVec.ofNat 32 v.toNat := by
    apply BitVec.eq_of_toNat_eq
    rw [BitVec.toNat_setWidth, BitVec.toNat_ofNat]
  exact ⟨a', hseen,
    { pc := hpc'
      left := h4.trans (h6.trans hlength)
      ptr := h5
      flash_mode := (congrArg MemRegs.flash_mode hmem).trans hmode
      announced := Nat.zero_le _
      few := Nat.zero_le _ }⟩

variable (inp) in
/-- After a data byte other than the 46th: it is stored. -/
theorem head_of_data (hpc : a.pc = addr 22) (hcalls : Calls a (L :: bytes)) (hfew : bytes.length ≤ 44)
    (hmode : a.mem.flash_mode = false) :
    ∃ a', Boots inp (t, a) (t + (if bytes.length = 44 then 110 else 28), a') ∧ AtHead a' L (bytes ++ [v]) := by
  obtain ⟨-, hlt, -, h4, h5⟩ := hcalls
  obtain ⟨a', hstore, hpc', hmem, h4', h5'⟩ := store_turn inp (t := t) hpc h5 hmode hfew
  have haddr : BitVec.ofNat 8 (0xB4 + bytes.length) ≠ 0xF8 ∧ BitVec.ofNat 8 (0xB4 + bytes.length) ≠ 0xFC := by
    constructor
    all_goals
      intro h
      have := congrArg BitVec.toNat h
      rw [BitVec.toNat_ofNat] at this
      simp at this
      omega
  refine ⟨a', hstore, ?_⟩
  exact
    { pc := hpc'
      left := by
        rw [List.length_append]
        exact h4'.trans (decrement h4 (by simp; omega))
      ptr := by
        rw [List.length_append]
        exact h5'.trans (increment h5)
      flash_mode := by
        rw [hmem, (a.mem.write_flash (a.reg 6) 0 haddr.1 haddr.2).1]
        exact hmode
      announced := by
        rw [List.length_append]
        exact hlt
      few := by
        rw [List.length_append]
        exact Nat.succ_le_succ hfew }

/-! ## From poll to poll -/

variable (inp) in
/-- The eighth bit completes a byte. -/
theorem follows_byte {bits : List Bool} (hrecv : Receives a ⟨t, .rise, bits⟩) (h8 : bits.length = 8)
    (hcalls : Calls a heard) (hmode : a.mem.flash_mode = false) :
    (∃ a', Boots inp (t, a) (t + pause heard.length, a') ∧
        Follows a' (.receiving (heard ++ [toByte bits]) ⟨t + pause heard.length, .rise, []⟩)) ∨
      Ends inp (t, a) (heard ++ [toByte bits]) := by
  cases heard with
  | nil =>
    obtain ⟨hret, h6⟩ := recv_return inp (k := 18) (by decide) hrecv h8 hcalls
    obtain ⟨a1, hseen, hhead⟩ := head_of_length inp (t := t + 7) (a := a.goto (addr 18)) rfl h6 hmode
    have hbyte := hret.trans hseen
    rcases follows_head inp hhead with ⟨a2, hb, h⟩ | hends
    · exact .inl ⟨a2, hbyte.trans hb, h⟩
    · exact .inr (hends.after hbyte)
  | cons L bytes =>
    obtain ⟨h1, hlt, hfew, h4, h5⟩ := hcalls
    obtain ⟨hret, h6⟩ := recv_return inp (k := 22) (by decide) hrecv h8 h1
    by_cases h45 : bytes.length = 45
    · -- the 46th data byte has no place
      right
      refine .overrun hret rfl ?_ ⟨?_, ?_⟩
      · rw [Arch.reg_goto, h5, h45]
        rfl
      · simp [h45]
      · show 46 ≤ L.toNat
        omega
    · obtain ⟨a1, hstore, hhead⟩ := head_of_data inp (t := t + 7) (v := toByte bits)
        (a := a.goto (addr 22)) (L := L) rfl ⟨h1, hlt, hfew, h4, h5⟩ (by omega) hmode
      have htime : t + 7 + (if bytes.length = 44 then 110 else 28) + 28 = t + pause (L :: bytes).length := by
        rw [pause, List.length_cons, if_neg (Nat.succ_ne_zero _)]
        split <;> split <;> omega
      have hbyte := hret.trans hstore
      have hnext := follows_head inp (t := t + 7 + if bytes.length = 44 then 110 else 28) hhead
      rw [htime] at hnext
      rcases hnext with ⟨a2, hb, h⟩ | hends
      · exact .inl ⟨a2, hbyte.trans hb, h⟩
      · exact .inr (hends.after hbyte)

/-- A poll of START. -/
theorem follows_demo (hpc : a.pc = addr MAIN_LOOP) (hmode : a.mem.flash_mode = false) :
    ∃ a', Boots inp (t, a) (((Listener.demo t).step fun τ => (inp τ).ui_in).time, a') ∧
      Follows a' ((Listener.demo t).step fun τ => (inp τ).ui_in) := by
  by_cases hstart : start (inp (t + 6)).ui_in = true
  · have hpoll := poll_start hpc hstart
    have hcall : Boots inp (t, a) (t + 28, (((a.setReg 2 4#32).goto (addr START_SEEN)).setReg 1
        ((addr 18).setWidth 32)).goto (addr RECV_BYTE)) :=
      hpoll.trans (Boots.step rfl (by decide) (by decide) (boot_jal 27 rfl rfl rfl) (.refl _))
    obtain ⟨a', hclear, hrecv, hf⟩ := recv_call inp (t := t + 28) (a := (((a.setReg 2 4#32).goto
      (addr START_SEEN)).setReg 1 ((addr 18).setWidth 32)).goto (addr RECV_BYTE)) rfl
    rw [Listener.step, if_pos hstart]
    refine ⟨a', hcall.trans hclear, .receiving hrecv (Nat.succ_pos 7) ?_ ?_⟩
    · exact (hf.reg 1 (by decide)).trans (Arch.reg_setReg_self _ _ (by decide))
    · exact (congrArg MemRegs.flash_mode hf.mem).trans hmode
  · have hpoll := poll_start hpc (Bool.not_eq_true _ ▸ hstart)
    obtain ⟨a', hcount, hpc', hkept⟩ := demo_count inp (t := t + 21) (a := (a.setReg 2 0#32).goto (addr 12)) rfl
    rw [Listener.step, if_neg hstart]
    exact ⟨a', hpoll.trans hcount, .demo hpc' (hkept.flash_mode.trans hmode)⟩

variable (inp) in
/-- One step of the listener. -/
theorem follows_step (h : Follows a l) :
    (∃ a', Boots inp (l.time, a) ((l.step fun τ => (inp τ).ui_in).time, a') ∧
        Follows a' (l.step fun τ => (inp τ).ui_in)) ∨
      Ends inp (l.time, a) (l.step fun τ => (inp τ).ui_in).heard := by
  cases h with
  | demo hpc hmode => exact .inl (follows_demo hpc hmode)
  | @receiving heard x hrecv hlen hcalls hmode =>
    obtain ⟨a1, hb1, hrecv1, hf1⟩ := receives_step inp hrecv hlen
    have hcalls1 := hcalls.frame hf1
    have hmode1 : a1.mem.flash_mode = false := (congrArg MemRegs.flash_mode hf1.mem).trans hmode
    rw [Listener.step]
    by_cases h8 : (x.step fun τ => (inp τ).ui_in).bits.length < 8
    · rw [if_pos h8]
      exact .inl ⟨a1, hb1, .receiving hrecv1 h8 hcalls1 hmode1⟩
    · rw [if_neg h8]
      -- a byte is completed by a falling edge
      obtain ⟨hedge, hlen8⟩ := Receiver.step_full (fun τ => (inp τ).ui_in) hlen h8
      generalize hx : (x.step fun τ => (inp τ).ui_in) = x1 at *
      obtain ⟨t1, e1, bits1⟩ := x1
      cases hedge
      rcases follows_byte inp hrecv1 hlen8 hcalls1 hmode1 with ⟨a2, hb2, h2⟩ | hends
      · exact .inl ⟨a2, hb1.trans hb2, h2⟩
      · exact .inr (hends.after hb1)

variable (inp) in
/-- The listener from the demo loop on: the ROM is at its poll `n`, or came to the end at an earlier one. -/
theorem follows_run (hpc : a.pc = addr MAIN_LOOP) (hmode : a.mem.flash_mode = false) (n : Nat) :
    (∃ a', Boots inp (t, a) ((listens (fun τ => (inp τ).ui_in) t n).time, a') ∧
        Follows a' (listens (fun τ => (inp τ).ui_in) t n)) ∨
      ∃ m ≤ n, Ends inp (t, a) (listens (fun τ => (inp τ).ui_in) t m).heard := by
  induction n with
  | zero => exact .inl ⟨a, .refl _, .demo hpc hmode⟩
  | succ n ih =>
    rcases ih with ⟨a1, hb1, h1⟩ | ⟨m, hm, hends⟩
    · rw [listens_succ]
      rcases follows_step inp h1 with ⟨a2, hb2, h2⟩ | hends
      · exact .inl ⟨a2, hb1.trans hb2, h2⟩
      · refine .inr ⟨n + 1, le_rfl, ?_⟩
        rw [listens_succ]
        exact hends.after hb1
    · exact .inr ⟨m, by omega, hends⟩

end Boot

end Pineapple
