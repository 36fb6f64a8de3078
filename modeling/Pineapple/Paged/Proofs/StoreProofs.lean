import Pineapple.Machine.Proofs.GpioProofs
import Pineapple.Paged.Proofs.CallerProofs
import Pineapple.Paged.Proofs.ScriptProofs

/-!
# Proofs: programs in pages on the chip

The stores that a program in pages makes to GPIO_OUT are on the bus of the chip, and its loads from GPIO_IN read the
pins in the last cycle of the instruction.
-/

namespace Pineapple

open Clocked
open Rv32i (Instr Word Reg readReg writeReg)

/-! ## The observer of the stores -/

section Observer

variable {P : List Page} {flash : Bits.ByteMemory 14} {σ : PState} {pg : Page}

/-- The observer sees the instruction of the page. -/
theorem gpioStores_arch (hold : Paged.Holds flash P) (hn : P[σ.page]? = some pg) {i : Instr}
    (hi : (pg.full σ.page)[σ.index]? = some i) (t : Nat) : gpioStores flash (t, σ.arch) = σ.arch.gpioStore i := by
  have hd : Rv32i.decode (flashWord flash σ.arch.mem σ.arch.pc) = some i := hold σ.page σ.index pg i hn hi _ rfl
  rw [gpioStores, hd]

/-- An instruction that is no store. -/
theorem gpioStore_of_isStore {a : Arch} {i : Instr} (h : i.isStore = false) : a.gpioStore i = [] := by
  cases i with
  | store op rs2 rs1 imm => cases h
  | _ => rfl

theorem gpioStore_out (a : Arch) (rs2 : Reg) :
    a.gpioStore (.store .sw rs2 0 0xF0) = [(readReg a.regs rs2).extractLsb' 0 8] := by
  rw [Arch.gpioStore_const, if_pos (by decide)]

theorem blind_gpioStores (h : Paged.WellFormed P) (hold : Paged.Holds flash P) : Paged.Blind P (gpioStores flash) := by
  intro t σ pg hn hlen hj
  obtain ⟨i, hi⟩ : ∃ i, (pg.full σ.page)[σ.index]? = some i :=
    ⟨_, List.getElem?_eq_getElem (by rw [h.full_length _ _ hn]; exact hj)⟩
  rw [gpioStores_arch hold hn hi]
  have hmem : i ∈ pg.glue σ.page := by
    rw [Page.full, List.getElem?_append_right hlen] at hi
    exact List.mem_of_getElem? hi
  have hstore : σ.arch.gpioStore (.store .sw pg.scratchReg 0 0xFC) = [] := by
    rw [Arch.gpioStore_const, if_neg (by decide)]
  simp only [Page.glue, List.mem_append, List.mem_replicate, List.mem_map, List.mem_cons, List.not_mem_nil,
    or_false] at hmem
  rcases hmem with (⟨-, rfl⟩ | ⟨next, -, rfl⟩) | rfl | rfl
  · rfl
  · rfl
  · exact hstore
  · rfl

end Observer

namespace Paged

variable {P : List Page} {pg : Page} {σ : PState} {t : Nat}

/-! ## Loads from GPIO_IN -/

theorem rdata_gpio_in (m : MemRegs) (rom : Rom) (gpio_in : BitVec 8) (ext : Word) :
    m.rdata 0xF4 rom gpio_in ext = gpio_in.setWidth 32 := by
  have hflash : m.in_ext_flash 0xF4 = false := by
    rw [MemRegs.in_ext_flash, show in_load_range 0xF4 = false by decide, Bool.and_false]
  rw [MemRegs.rdata, show in_rom 0xF4 = false by decide, MemRegs.in_ram, MemRegs.in_ext, hflash]
  rfl

/-- The byte on the pins goes to the register, zero-extended. -/
theorem step_gpio_in {rom : Rom} {inp : Nat → Inputs} (h : WellFormed P) (hn : P[σ.page]? = some pg) {rd : Reg}
    (hi : pg.instrs[σ.index]? = some (.load .lbu rd 0 0xF4)) :
    step P (Env.chip rom inp).load (t, σ) =
      some (t + 137, σ.seq rd ((inp (t + 136)).ui_in.setWidth 32)) := by
  have hlt := index_lt h hn hi
  have haddr : (σ.arch.reg 0 + (0xF4 : BitVec 12).signExtend 32).setWidth 8 = (0xF4 : BitVec 8) := by
    rw [Arch.reg_x0]
    rfl
  have hstall : σ.arch.dataStall (.load .lbu rd 0 0xF4) = 0 := by
    show σ.arch.mem.stall ((σ.arch.reg 0 + (0xF4 : BitVec 12).signExtend 32).setWidth 8) _ = 0
    rw [haddr]
    apply Arch.stall_eq_zero
    rintro (⟨h1, h2⟩ | ⟨h1, h2, h3⟩)
    · exact absurd h2 (by decide)
    · exact absurd h3 (by decide)
  have hfetch : σ.arch.fetchStall + 7 = 137 := fetchStall_arch (by omega)
  have hcyc : σ.arch.cycles (.load .lbu rd 0 0xF4) = 137 := by
    rw [Arch.cycles, hstall]
    exact hfetch
  have hload : (Env.chip rom inp).load t σ.arch (.load .lbu rd 0 0xF4) = (inp (t + 136)).ui_in.setWidth 32 := by
    have hrdata : (Env.chip rom inp).load t σ.arch (.load .lbu rd 0 0xF4) =
        σ.arch.mem.rdata ((σ.arch.reg 0 + (0xF4 : BitVec 12).signExtend 32).setWidth 8) rom
          (inp (t + σ.arch.fetchStall + σ.arch.dataStall (.load .lbu rd 0 0xF4) + 6)).ui_in
          (sampledWord (fun τ => (inp τ).miso) (t + σ.arch.fetchStall + 5)
            (σ.arch.accessBytes (.load .lbu rd 0 0xF4))) := rfl
    rw [hrdata, haddr, rdata_gpio_in, hstall, show t + σ.arch.fetchStall + 0 + 6 = t + 136 by omega]
  have hext : Rv32i.LoadOp.extend .lbu ((inp (t + 136)).ui_in.setWidth 32) = (inp (t + 136)).ui_in.setWidth 32 := by
    unfold Rv32i.LoadOp.extend
    bv_omega
  rw [step_caller hn hi rfl, hcyc, hload, PState.exec, Arch.exec_load, hext]
  show some (t + 137, PState.mk σ.page (windowIndex (windowAddr σ.index + 4)) _ _) = _
  rw [windowAddr_succ, windowIndex_windowAddr (by omega)]
  rfl

/-! ## Scripts -/

/-- A script whose pages fit builds an image that holds its pages. -/
theorem script_holds {body : List Call} {e : Ending} {P : List Page}
    (h0 : (Page.mk (.ADDI 0 0 0 :: body) e).Fits 0) (hP : ∀ (n : Nat) (pg : Page), P[n]? = some pg → pg.Fits (n + 1))
    (hs : ∀ pg ∈ ⟨.ADDI 0 0 0 :: body, e⟩ :: P, pg.scratch = 30) (hcount : P.length < 256) {p : PagedAsm}
    (hp : PagedAsm.default.calls (scriptCalls (⟨.ADDI 0 0 0 :: body, e⟩ :: P)) = .ok p) :
    WellFormed (⟨.ADDI 0 0 0 :: body, e⟩ :: P) ∧
      (∀ flash, InFlash flash p.finalize → Holds flash (⟨.ADDI 0 0 0 :: body, e⟩ :: P)) ∧
      p.finalize.length = 44 * (P.length + 1) := by
  have hregs : ∀ cl ∈ scriptCalls (⟨.ADDI 0 0 0 :: body, e⟩ :: P), cl.RegsOk := by
    intro cl hcl
    obtain ⟨pg, hpg, hcl⟩ := List.mem_flatMap.mp (List.mem_of_mem_tail hcl)
    rcases List.mem_cons.mp hpg with rfl | hpg
    · exact h0.regs cl hcl
    · obtain ⟨n, hn⟩ := List.mem_iff_getElem?.mp hpg
      exact (hP n pg hn).regs cl hcl
  have hscratch : ∀ (n : Nat) (pg : Page), (pagesOf (scriptCalls (⟨.ADDI 0 0 0 :: body, e⟩ :: P)))[n]? = some pg →
      0 < pg.scratch ∧ pg.scratch < 32 := by
    intro n pg hn
    rw [pagesOf_scriptCalls] at hn
    have h30 := hs pg (List.mem_of_getElem? hn)
    omega
  have hfin := finished_of_calls hregs hp
  have hlen : p.pages.length = P.length + 1 := by
    rw [hfin.length, pagesOf_scriptCalls, List.length_cons]
  have hwf := wellFormed_of_finished hfin (by omega) hscratch
  rw [pagesOf_scriptCalls] at hwf
  refine ⟨hwf, fun flash hflash => ?_, (finalize_length hfin).trans (congrArg _ hlen)⟩
  have hold := holds_of_finished hfin (by omega) hflash
  rwa [pagesOf_scriptCalls] at hold

/-! ## The chip -/

variable {flash : Bits.ByteMemory 14} {rom : Rom} {ui_in : Nat → BitVec 8} {other : Nat → Bool} {b : Nat → Board}

/-- The stores of a path of the paged machine are on the bus of the chip. -/
theorem run_stores (h : WellFormed P) (hold : Holds (b 0).flash.mem P) (hb : Board.Run rom ui_in other b)
    (h0 : (b 0).Ready) {c c' : Nat × PState} {os : List (BitVec 8)}
    (hidx : ∀ pg, P[c.2.page]? = some pg → c.2.index ≤ pg.instrs.length)
    (hp : Path (step P (Env.chip rom (Board.inputs ui_in other b)).load)
      (fun x => gpioStores (b 0).flash.mem (x.1, x.2.arch)) c os c')
    (hat : Top.At (Board.tops b) c.1 c.2.arch) :
    Top.At (Board.tops b) c'.1 c'.2.arch ∧ c.1 ≤ c'.1 ∧ Top.gpioWrites (Board.tops b) c.1 c'.1 = os :=
  Top.run_gpioWrites hb.top h0.atFetch (Board.agrees_flash hb h0) (fun t a i => gpioStores_eq t a i)
    (simulate h hold (blind_gpioStores h hold) hidx hp) hat

end Paged

end Pineapple
