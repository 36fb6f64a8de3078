import Pineapple.Boot.Proofs.ListenProofs
import Pineapple.Boot.Proofs.RomProofs

/-!
# Proofs: RECV_BYTE

RECV_BYTE is a receiver: each turn of its two polling loops takes the samples of `Receiver.step` in the same cycles.
What it receives from a host is then what is heard of that host.
-/

namespace Pineapple

open Rv32i (Instr Word Reg)

namespace Boot

/-- What an observer must not see while the ROM loads a program: a fetch outside the ROM, or a store of
BYTE_LOOP that is neither in the load window nor at the address of the self-test behind it. -/
def strays (c : Nat × Arch) : List (Nat × Arch) :=
  if (c.2.pc.toNat < 0xB0 ∧ c.2.pc.toNat % 4 = 0) ∧
    (c.2.pc = addr 22 → 0xB4 ≤ (c.2.reg 5).toNat ∧ (c.2.reg 5).toNat ≤ 0xE0) then [] else [c]

/-- A run of the ROM that does not stray. -/
abbrev Boots (inp : Nat → Inputs) : Nat × Arch → Nat × Arch → Prop :=
  Clocked.Silent (env inp).step strays

variable {inp : Nat → Inputs} {t j k : Nat} {a : Arch} {c c' : Nat × Arch}

theorem Boots.step (hpc : a.pc = addr j) (hj : j < 44) (h22 : j ≠ 22)
    (hstep : (env inp).step (t, a) = some c) (rest : Boots inp c c') : Boots inp (t, a) c' := by
  refine .cons hstep (if_pos ⟨hpc ▸ addr_inRom hj, fun h => ?_⟩) rest
  have := congrArg BitVec.toNat (hpc.symm.trans h)
  rw [addr_toNat hj, addr_toNat (by omega)] at this
  omega

/-- The store of BYTE_LOOP. -/
theorem Boots.store_step (hpc : a.pc = addr 22) (h1 : 0xB4 ≤ (a.reg 5).toNat)
    (h2 : (a.reg 5).toNat ≤ 0xE0) (hstep : (env inp).step (t, a) = some c) (rest : Boots inp c c') :
    Boots inp (t, a) c' :=
  .cons hstep (if_pos ⟨hpc ▸ addr_inRom (by decide), fun _ => ⟨h1, h2⟩⟩) rest

theorem Boots.of_eq {t' : Nat} {a' : Arch} (ht : t = t') (ha : a = a') :
    Boots inp (t, a) (t', a') := by
  subst ht ha
  exact .refl _

/-! ## Polling -/

theorem mask_clock : ∀ v : BitVec 8,
    v.setWidth 32 &&& 2#32 = if clock v then 2#32 else 0#32 := by decide

theorem mask_data : ∀ v : BitVec 8,
    v.setWidth 32 &&& 1#32 = if data v then 1#32 else 0#32 := by decide

theorem mask_start : ∀ v : BitVec 8,
    v.setWidth 32 &&& 4#32 = if start v then 4#32 else 0#32 := by decide

/-- One turn of BIT_WAIT_HIGH. -/
theorem poll_high (hpc : a.pc = addr 29) {b : Bool} (h : clock (inp (t + 6)).ui_in = b) :
    Boots inp (t, a) (t + 21, (a.setReg 2 (if b then 2#32 else 0#32)).goto
      (addr (if b = true then 32 else 29))) := by
  refine .step hpc (by decide) (by decide) (boot_gpio hpc rfl) ?_
  refine .step rfl (by decide) (by decide) (boot_opImm rfl rfl) ?_
  refine .step rfl (by decide) (by decide) (boot_branch _ 29 rfl rfl rfl) ?_
  refine .of_eq rfl ?_
  simp [Rv32i.ImmOp.eval, Rv32i.BranchOp.holds, mask_clock, h]
  cases b <;> rfl

/-- One turn of BIT_WAIT_LOW. -/
theorem poll_low (hpc : a.pc = addr 37) {b : Bool} (h : clock (inp (t + 6)).ui_in = b) :
    Boots inp (t, a) (t + 21, (a.setReg 2 (if b then 2#32 else 0#32)).goto
      (addr (if b = false then 40 else 37))) := by
  refine .step hpc (by decide) (by decide) (boot_gpio hpc rfl) ?_
  refine .step rfl (by decide) (by decide) (boot_opImm rfl rfl) ?_
  refine .step rfl (by decide) (by decide) (boot_branch _ 37 rfl rfl rfl) ?_
  refine .of_eq rfl ?_
  simp [Rv32i.ImmOp.eval, Rv32i.BranchOp.holds, mask_clock, h]
  cases b <;> rfl

/-! ## One bit -/

/-- The accumulator of RECV_BYTE takes a bit at its low end. -/
theorem accumulate (v : Word) (b : Bool) :
    Bits.shiftIn v b = (v <<< 1) ||| (if b then 1#32 else 0#32) := by
  apply BitVec.eq_of_getLsbD_eq
  intro i hi
  rw [Bits.getLsbD_shiftIn, BitVec.getLsbD_or, BitVec.getLsbD_shiftLeft]
  by_cases h0 : i = 0
  · subst h0
    cases b <;> simp
  · have h1 : (if b then 1#32 else 0#32).getLsbD i = false := by
      cases b
      · simp
      · simp [h0]
    rw [if_neg h0, h1]
    simp [hi, show ¬ i < 1 by omega]

/-- DATA is sampled into the accumulator. -/
theorem sample_bit (hpc : a.pc = addr 32) {b : Bool} (h : data (inp (t + 6)).ui_in = b) :
    ∃ a', Boots inp (t, a) (t + (if b then 35 else 28), a') ∧ a'.pc = addr 37 ∧
      a'.reg 6 = Bits.shiftIn (a.reg 6) b ∧ Arch.Frame a a' [2, 6] := by
  have hpath : ∀ c, Boots inp (t + 28, (((a.setReg 2 (if b then 1#32 else 0#32)).setReg 6
      (a.reg 6 <<< 1)).goto (addr (if b then 36 else 37)))) c → Boots inp (t, a) c := by
    intro c hc
    refine .step hpc (by decide) (by decide) (boot_gpio hpc rfl) ?_
    refine .step rfl (by decide) (by decide) (boot_opImm rfl rfl) ?_
    refine .step rfl (by decide) (by decide) (boot_shift rfl rfl) ?_
    refine .step rfl (by decide) (by decide) (boot_branch _ 37 rfl rfl rfl) ?_
    refine (Boots.of_eq rfl ?_).trans hc
    cases b <;>
      simp [Rv32i.ImmOp.eval, Rv32i.ShiftOp.eval, Rv32i.BranchOp.holds, mask_data, h]
  cases b with
  | false =>
    refine ⟨_, hpath _ (.refl _), rfl, ?_, rfl, fun r hr => by simp_all⟩
    simp [accumulate]
  | true =>
    refine ⟨_, hpath _ (.step (j := 36) rfl (by decide) (by decide) (boot_opImm rfl rfl) (.refl _)), rfl, ?_, rfl,
      fun r hr => ?_⟩
    · simp [accumulate, Rv32i.ImmOp.eval]
    · simp_all

variable (inp) in
/-- The loop counter decides whether the byte goes on. -/
theorem count_bit (hpc : a.pc = addr 40) (hk : k < 8) (h7 : a.reg 7 = BitVec.ofNat 32 k) :
    ∃ a', Boots inp (t, a) (t + 21, a') ∧ a'.pc = addr (if k + 1 < 8 then 29 else 43) ∧
      a'.reg 7 = BitVec.ofNat 32 (k + 1) ∧ Arch.Frame a a' [3, 7] := by
  have hslt : ∀ k < 8, (BitVec.ofNat 32 (k + 1)).slt 8#32 = decide (k + 1 < 8) := by decide
  have hadd : a.reg 7#5 + 1#32 = BitVec.ofNat 32 (k + 1) := by
    rw [show a.reg 7#5 = _ from h7, BitVec.ofNat_add]
  have hpath : Boots inp (t, a) (t + 21, ((a.setReg 7 (BitVec.ofNat 32 (k + 1))).setReg 3 8).goto
      (addr (if k + 1 < 8 then 29 else 43))) := by
    refine .step hpc (by decide) (by decide) (boot_opImm hpc rfl) ?_
    refine .step rfl (by decide) (by decide) (boot_opImm rfl rfl) ?_
    refine .step rfl (by decide) (by decide) (boot_branch _ 29 rfl rfl rfl) ?_
    refine .of_eq rfl ?_
    simp [Rv32i.ImmOp.eval, Rv32i.BranchOp.holds, hadd, hslt k hk]
  exact ⟨_, hpath, rfl, by simp, rfl, fun r hr => by simp_all⟩

/-! ## The receiver -/

/-- The polling loop for an edge. -/
def Edge.loop : Edge → Nat
  | .rise => BIT_WAIT_HIGH
  | .fall _ => BIT_WAIT_LOW

/-- The word behind that loop. -/
def Edge.next : Edge → Nat
  | .rise => 32
  | .fall _ => 40

/-- The ROM at the head of the polling loop of a receiver, or behind the loops after the eighth bit. -/
structure Receives (a : Arch) (x : Receiver) : Prop where
  pc : a.pc = addr (if x.bits.length < 8 then x.edge.loop else 43)
  acc : a.reg 6 = (x.bits ++ x.edge.bit).foldl Bits.shiftIn 0
  count : a.reg 7 = BitVec.ofNat 32 x.bits.length

variable {e : Edge} {b : Bool} {bits : List Bool}

variable (inp) in
/-- One turn of a polling loop. -/
theorem poll_edge (hpc : a.pc = addr e.loop) :
    ∃ a', Boots inp (t, a) (t + 21, a') ∧
      a'.pc = addr (if clock (inp (t + 6)).ui_in = e.level then e.next else e.loop) ∧ Arch.Frame a a' [2] := by
  cases e with
  | rise => exact ⟨_, poll_high hpc rfl, rfl, rfl, fun r hr => by simp_all⟩
  | fall b => exact ⟨_, poll_low hpc rfl, rfl, rfl, fun r hr => by simp_all⟩

theorem receives_stay (h : Receives a ⟨t, e, bits⟩) (hlen : bits.length < 8)
    (hclock : clock (inp (t + 6)).ui_in = !e.level) :
    ∃ a', Boots inp (t, a) (t + 21, a') ∧ Receives a' ⟨t + 21, e, bits⟩ ∧ Arch.Frame a a' [2, 3, 6, 7] := by
  obtain ⟨hpc, hacc, hcount⟩ := h
  rw [if_pos hlen] at hpc
  obtain ⟨a', hpoll, hpc', hf⟩ := poll_edge inp (t := t) hpc
  rw [hclock, if_neg (by cases e.level <;> decide)] at hpc'
  refine ⟨a', hpoll, ⟨?_, ?_, ?_⟩, hf.mono (by decide)⟩
  · rw [hpc', if_pos hlen]
  · rw [hf.reg 6 (by decide), hacc]
  · rw [hf.reg 7 (by decide), hcount]

theorem receives_rise (h : Receives a ⟨t, .rise, bits⟩) (hlen : bits.length < 8)
    (hclock : clock (inp (t + 6)).ui_in = true) (hdata : data (inp (t + 27)).ui_in = b) :
    ∃ a', Boots inp (t, a) (t + (if b then 56 else 49), a') ∧
      Receives a' ⟨t + (if b then 56 else 49), .fall b, bits⟩ ∧ Arch.Frame a a' [2, 3, 6, 7] := by
  obtain ⟨hpc, hacc, hcount⟩ := h
  rw [if_pos hlen] at hpc
  obtain ⟨a1, hpoll, hpc1, hf1⟩ := poll_edge inp (t := t) hpc
  rw [hclock] at hpc1
  obtain ⟨a2, hsample, hpc2, hacc2, hf2⟩ := sample_bit (t := t + 21) hpc1 hdata
  have htime : t + 21 + (if b then 35 else 28) = t + if b then 56 else 49 := by
    cases b <;> rfl
  rw [htime] at hsample
  refine ⟨a2, hpoll.trans hsample, ⟨?_, ?_, ?_⟩, (hf1.mono (by decide)).trans (hf2.mono (by decide))⟩
  · rw [hpc2, if_pos hlen]
    rfl
  · rw [hacc2, hf1.reg 6 (by decide), hacc, List.foldl_append]
    simp [Edge.bit]
  · rw [hf2.reg 7 (by decide), hf1.reg 7 (by decide), hcount]

theorem receives_fall (h : Receives a ⟨t, .fall b, bits⟩) (hlen : bits.length < 8)
    (hclock : clock (inp (t + 6)).ui_in = false) :
    ∃ a', Boots inp (t, a) (t + 42, a') ∧ Receives a' ⟨t + 42, .rise, bits ++ [b]⟩ ∧
      Arch.Frame a a' [2, 3, 6, 7] := by
  obtain ⟨hpc, hacc, hcount⟩ := h
  rw [if_pos hlen] at hpc
  obtain ⟨a1, hpoll, hpc1, hf1⟩ := poll_edge inp (t := t) hpc
  rw [hclock] at hpc1
  obtain ⟨a2, hbit, hpc2, hcount2, hf2⟩ := count_bit inp (t := t + 21) hpc1 hlen
    ((hf1.reg 7 (by decide)).trans hcount)
  refine ⟨a2, hpoll.trans hbit, ⟨?_, ?_, ?_⟩, (hf1.mono (by decide)).trans (hf2.mono (by decide))⟩
  · rw [hpc2, List.length_append]
    rfl
  · rw [hf2.reg 6 (by decide), hf1.reg 6 (by decide), hacc, Edge.bit, Edge.bit, List.append_nil]
  · rw [hcount2, List.length_append]
    rfl

variable (inp) in
/-- One turn of a polling loop is one step of the receiver. -/
theorem receives_step {x : Receiver} (h : Receives a x) (hlen : x.bits.length < 8) :
    ∃ a', Boots inp (x.time, a) ((x.step fun τ => (inp τ).ui_in).time, a') ∧
      Receives a' (x.step fun τ => (inp τ).ui_in) ∧ Arch.Frame a a' [2, 3, 6, 7] := by
  obtain ⟨t, e, bits⟩ := x
  by_cases hclock : clock (inp (t + 6)).ui_in = e.level
  · cases e with
    | rise =>
      rw [Receiver.step_rise bits hclock rfl]
      exact receives_rise h hlen hclock rfl
    | fall b =>
      rw [Receiver.step_fall b bits hclock]
      exact receives_fall h hlen hclock
  · have hstay : clock (inp (t + 6)).ui_in = !e.level := Bool.eq_not.mpr hclock
    rw [Receiver.step_stay hstay]
    exact receives_stay h hlen hstay

/-- RECV_BYTE follows the receiver within a byte. -/
theorem receives_hears {x x' : Receiver} (hears : Receiver.Hears (fun τ => (inp τ).ui_in) x x') (h : Receives a x) :
    ∃ a', Boots inp (x.time, a) (x'.time, a') ∧ Receives a' x' ∧ Arch.Frame a a' [2, 3, 6, 7] := by
  induction hears with
  | refl => exact ⟨a, .refl _, h, rfl, fun _ _ => rfl⟩
  | tail _ hstep ih =>
    obtain ⟨hlen, rfl⟩ := hstep
    obtain ⟨a1, hb1, h1, hf1⟩ := ih
    obtain ⟨a2, hb2, h2, hf2⟩ := receives_step inp h1 hlen
    exact ⟨a2, hb1.trans hb2, h2, hf1.trans hf2⟩

/-! ## The subroutine -/

variable (inp) in
/-- A call of RECV_BYTE. -/
theorem recv_call (hpc : a.pc = addr RECV_BYTE) :
    ∃ a', Boots inp (t, a) (t + 14, a') ∧ Receives a' ⟨t + 14, .rise, []⟩ ∧ Arch.Frame a a' [6, 7] := by
  refine ⟨((a.setReg 6 0).setReg 7 0).goto (addr 29), ?_, ⟨rfl, ?_, ?_⟩, rfl, fun r hr => by simp_all⟩
  · refine .step hpc (by decide) (by decide) (boot_opImm hpc rfl) ?_
    refine .step rfl (by decide) (by decide) (boot_opImm rfl rfl) ?_
    refine .of_eq rfl ?_
    simp [Rv32i.ImmOp.eval, RECV_BYTE]
  · simp [Edge.bit]
  · simp

/-- The return address of a call is a word of the ROM. -/
theorem addr_ret (hk : k < 44) :
    (((addr k).setWidth 32 + (0 : BitVec 12).signExtend 32) &&& ~~~1 : Word).setWidth 8 = addr k := by
  revert hk
  revert k
  decide

variable (inp) in
/-- The return of RECV_BYTE to the word `k`. -/
theorem recv_return {bits : List Bool} (hk : k < 44) (h : Receives a ⟨t, .rise, bits⟩) (hlen : bits.length = 8)
    (h1 : a.reg 1 = (addr k).setWidth 32) :
    Boots inp (t, a) (t + 7, a.goto (addr k)) ∧ a.reg 6 = (toByte bits).setWidth 32 := by
  obtain ⟨hpc, hacc, -⟩ := h
  rw [if_neg (by simp [hlen])] at hpc
  have hret : ((a.reg 1 + (0 : BitVec 12).signExtend 32) &&& ~~~1).setWidth 8 = addr k := by
    rw [h1, addr_ret hk]
  refine ⟨Boots.step hpc (by decide) (by decide) (boot_jalr hpc rfl hret) (.refl _), ?_⟩
  rw [hacc, Edge.bit, List.append_nil, toByte, Bits.setWidth_foldl_shiftIn _ (by omega)]

/-- RECV_BYTE: called in time for the first rising edge, it returns with the byte soon after the last
falling edge. -/
theorem recv_byte {p : Nat} {rise fall : Nat → Nat} {v : BitVec 8} (hk : k < 44)
    (hpc : a.pc = addr RECV_BYTE) (hp : Pulses (fun τ => (inp τ).ui_in) p rise fall v.getMsbD 8)
    (hlo : p ≤ t + 20) (hhi : t < rise 0 + 73) (h1 : a.reg 1 = (addr k).setWidth 32) :
    ∃ u a', fall 7 + 43 ≤ u ∧ u < fall 7 + 64 ∧ Boots inp (t, a) (u, a') ∧ a'.pc = addr k ∧
      a'.reg 6 = v.setWidth 32 ∧ Arch.Frame a a' [2, 3, 6, 7] := by
  obtain ⟨a1, hcall, hrecv, hf1⟩ := recv_call inp (t := t) hpc
  obtain ⟨u, h2, h3, hears⟩ := Receiver.hears_byte (t := t + 14) hp (by omega) (by omega)
  obtain ⟨a2, hbyte, hdone, hf2⟩ := receives_hears hears hrecv
  have hframe := (hf1.mono (by decide)).trans hf2
  obtain ⟨hret, h6⟩ := recv_return inp hk hdone (by simp) ((hframe.reg 1 (by decide)).trans h1)
  rw [toByte_msbBits] at h6
  exact ⟨u + 7, _, by omega, by omega, (hcall.trans hbyte).trans hret, rfl, h6, hframe.trans ⟨rfl, fun r hr => rfl⟩⟩

end Boot

end Pineapple
