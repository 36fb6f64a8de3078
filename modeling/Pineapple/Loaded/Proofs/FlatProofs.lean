import Pineapple.Loaded.Proofs.RunProofs
import Pineapple.Paged.Proofs.RunProofs

/-!
# Proofs: a program in the flash that is not cut into pages

The bytes of a program are in the flash from address 0 on, and the handoff stub is sent. As long as FLASH_MODE is set
and FLASH_PAGE is zero the load window shows these bytes, so the chip takes the run of the program; its first
instruction is the one that the hand-over skips.
-/

namespace Pineapple

open Clocked
open Rv32i (Instr Word readReg)

namespace Loaded

variable {cs : List Call} {bytes : List (BitVec 8)} {flash : Bits.ByteMemory 14} {σ : LState} {rom : Rom}
  {inp : Nat → Inputs}

/-- The load window shows the flash from address 0 on. -/
structure FromFlash (m : MemRegs) : Prop where
  flash_mode : m.flash_mode = true
  flash_page : m.flash_page = 0

/-- A fetch reads the word of the instruction. -/
theorem FromFlash.fetch (hm : FromFlash σ.mem) (ha : Assembled cs bytes) (hlen : bytes.length ≤ 44)
    (hflash : Paged.InFlash flash bytes) {i : Instr} (hi : (instrsOf cs)[σ.index]? = some i) (t : Nat) :
    (Env.flash flash rom inp).instr t σ.arch = some i := by
  have hj : σ.index < (instrsOf cs).length := (List.getElem?_eq_some_iff.mp hi).1
  have hlen' := ha.length
  have haddr := @windowAddr_toNat σ.index (by omega)
  have hin : σ.mem.InFlash (windowAddr σ.index) := ⟨hm.flash_mode, by omega, by omega⟩
  have hoff : (windowAddr σ.index).toNat - 0xB4 = 4 * σ.index := by omega
  have hword : flashWord flash σ.mem (windowAddr σ.index) = Bits.ofLE 32 ((bytes.drop (4 * σ.index)).take 4) := by
    have hpage : (0 : BitVec 8).toNat * 44 + 4 * σ.index = 4 * σ.index := Nat.zero_add _
    rw [flashWord, hm.flash_page, hoff, hpage, hflash.load (by omega)]
  refine (if_pos hin).trans ?_
  show Rv32i.decode (flashWord flash σ.mem (windowAddr σ.index)) = some i
  rw [hword]
  exact ha.decode _ i hi

/-- Only a store to FLASH_PAGE changes what the window shows. -/
theorem FromFlash.store (hm : FromFlash σ.mem) {i : Instr} (hi : σ.staysOnPage i = true) :
    FromFlash (σ.arch.store i) := by
  cases i with
  | store op rs2 rs1 imm =>
    generalize hv : readReg σ.regs rs2 = v
    generalize haddr : ((readReg σ.regs rs1 + imm.signExtend 32).setWidth 8 : BitVec 8) = addr
    have hpage : addr ≠ 0xFC := by
      rw [← haddr]
      exact bne_iff_ne.mp hi
    have hstore : σ.arch.store (.store op rs2 rs1 imm) = σ.mem.write addr v (sizeCode op.width) := by
      rw [← haddr, ← hv]
      rfl
    rw [hstore, MemRegs.write]
    split
    · obtain ⟨ws, hws⟩ := σ.mem.writeRam_eq addr v (sizeCode op.width)
      rw [hws]
      exact ⟨hm.flash_mode, hm.flash_page⟩
    · split
      · exact ⟨hm.flash_mode, hm.flash_page⟩
      · split
        · exact ⟨rfl, hm.flash_page⟩
        · exact hm
  | _ => exact hm

theorem flashStep_eq {load : Nat → Arch → Instr → Word} {t : Nat} {f : Form} (hf : instrAt cs σ.index = some f)
    (hstay : σ.staysOnPage (f.instr 0) = true) : flashStep cs load (t, σ) = step cs load (t, σ) := by
  show (instrAt cs σ.index).bind _ = _
  rw [hf, Option.bind_some, if_pos hstay]

/-- A step of the program is an instruction of the chip. -/
theorem follows_flash (ha : Assembled cs bytes) (hlen : bytes.length ≤ 44) (hflash : Paged.InFlash flash bytes)
    (c c' : Nat × LState) (hm : FromFlash c.2.mem)
    (hs : flashStep cs (Env.flash flash rom inp).load c = some c') :
    FromFlash c'.2.mem ∧ Follows cs (Env.flash flash rom inp) c c' := by
  obtain ⟨f, hf, hs⟩ := Option.bind_eq_some_iff.mp hs
  rw [Option.ite_none_right_eq_some] at hs
  obtain ⟨hstay, hs⟩ := hs
  obtain ⟨hfol, f', hf', -, hmem⟩ := step_cases (e := Env.flash flash rom inp) rfl hs fun i hi =>
    hm.fetch ha hlen hflash hi _
  cases hf.symm.trans hf'
  exact ⟨hmem ▸ hm.store hstay, hfol⟩

/-! ## From reset -/

section Board

variable {ui_in : Nat → BitVec 8} {other : Nat → Bool} {b : Nat → Board}

/-- A program of the assembler that is in the flash is executed. From reset the demo loop makes some turns until it sees
START; shortly after the last bit of the stub the chip is at the second instruction of the program. From there on every
run of the program is the run of the chip: the fetches are those of its instructions, and the bytes that are stored in
GPIO_OUT are the ones it stores. -/
theorem flat_program_runs {base : Int} {a : Asm} {words : List Nat} (hr : ∀ c ∈ cs, ∀ f, c.form = some f → f.RegsOk)
    (hcs : (Asm.new base).calls cs = .ok a) (hwords : a.finalize = .ok words)
    (hbytes : words_to_bytes words = .ok bytes) (hlen : bytes.length ≤ 44) (hb : Board.Run bootRom ui_in other b)
    {b0 : Board} (hreset : b 0 = b0.reset) (hflash : Paged.InFlash b0.flash.mem bytes) {S : Nat}
    {rise fall : Nat → Nat} (hstub : Paged.SendsStub ui_in S rise fall) :
    ∃ k T σ, Boot.Turns (Board.inputs ui_in other b) k ∧ Paged.HandsOver (Board.tops b) T ∧
      fall 39 ≤ T ∧ T ≤ fall 39 + 112 ∧
      Top.gpioWrites (Board.tops b) 0 T = Boot.demoStores (Board.inputs ui_in other b) k ∧
      σ.index = 1 ∧ Top.At (Board.tops b) T σ.arch ∧
      ∀ t' σ' os, Path (flashStep cs (Env.chip bootRom (Board.inputs ui_in other b)).load) (seen cs)
          (T, σ) os (t', σ') →
        Top.At (Board.tops b) t' σ'.arch ∧ T ≤ t' ∧
          Top.emitted (Board.tops b) (fun a => [a.2.pc]) T t' = (os.filterMap Sum.getLeft?).map windowAddr ∧
          Top.gpioWrites (Board.tops b) 0 t' =
            Boot.demoStores (Board.inputs ui_in other b) k ++ os.filterMap Sum.getRight? := by
  obtain ⟨hready, hflash', k, T, hturns, hover, hlo, hhi, hdemo⟩ := Paged.board_hands_over hb hreset hflash hstub
  obtain ⟨hmode, hpage, hpc⟩ := hover.handed
  have hat : Top.At (Board.tops b) T
      (LState.mk 1 (Board.tops b T).arch.regs (Board.tops b T).arch.mem).arch := ⟨hover.fetch, by
    show _ = Arch.mk ⟨0xB8, _⟩ _
    rw [← hpc]⟩
  refine ⟨k, T, _, hturns, hover, hlo, hhi, hdemo, rfl, hat, fun t' σ' os hp => ?_⟩
  obtain ⟨hat', hle, hfetch, hgpio⟩ := simulate hb.top hready.atFetch (Board.agrees_flash hb hready)
    (follows_flash (assembled_of_finalize hr hcs hwords hbytes) hlen hflash') ⟨hmode, hpage⟩ hat hp
  refine ⟨hat', hle, hfetch, ?_⟩
  rw [Top.gpioWrites_append (Nat.zero_le T) hle, hdemo, hgpio]

end Board

def CANARY_VALUE : Int := 0x2A

/-- The program of the flash canary. -/
def canary : List Call := [.ADDI 0 0 0, .ADDI 5 0 CANARY_VALUE, .SW 5 0 0xF0, .label "SPIN", .JAL 0 "SPIN"]

def canaryBytes : List (BitVec 8) :=
  [0x13, 0x00, 0x00, 0x00, 0x93, 0x02, 0xA0, 0x02, 0x23, 0x28, 0x50, 0x0E, 0x6F, 0x00, 0x00, 0x00]

theorem flat_program_runs_canary :
    let ui_in := fun τ => (Boot.wave (BitVec.ofNat 8 Paged.stub.length :: Paged.stub) τ).ui_in
    let b := Clocked.run (fun (b : Board) (v : BitVec 8) => b.step bootRom v false) ui_in
      (Paged.handedOver canaryBytes).reset
    ∃ k t, Top.gpioWrites (Board.tops b) 0 t =
      Boot.demoStores (Board.inputs ui_in (fun _ => false) b) k ++ [0x2A] := by
  intro ui_in b
  have hr : ∀ c ∈ canary, ∀ f, c.form = some f → f.RegsOk := by
    simp [canary, Call.form, Form.RegsOk, Form.regs]
  obtain ⟨a, words, hcs, hwords, hbytes⟩ : ∃ a words, (Asm.new 0).calls canary = .ok a ∧ a.finalize = .ok words ∧
      words_to_bytes words = .ok canaryBytes := ⟨_, _, rfl, rfl, rfl⟩
  obtain ⟨k, T, ⟨index, regs, mem⟩, -, -, -, -, -, hindex, -, hrun⟩ := @flat_program_runs canary canaryBytes ui_in
    (fun _ => false) b 0 a words hr hcs hwords hbytes (by decide) (fun _ => rfl) (Paged.handedOver canaryBytes) rfl
    (Paged.handedOver_inFlash (by decide)) 0 _ _ (Boot.sends_wave _)
  obtain rfl : index = 1 := hindex
  obtain ⟨load, hload⟩ : ∃ load, load = (Env.chip bootRom (Board.inputs ui_in (fun _ => false) b)).load := ⟨_, rfl⟩
  rw [← hload] at hrun
  -- the instruction behind the dead slot
  obtain ⟨t, σ, hstep, h2, h5⟩ : ∃ t σ, flashStep canary load (T, ⟨1, regs, mem⟩) = some (t, σ) ∧ σ.index = 2 ∧
      readReg σ.regs 5 = 0x2A := ⟨_, _, (flashStep_eq rfl rfl).trans (step_eq rfl rfl rfl), rfl, rfl⟩
  -- the store
  have hf : instrAt canary σ.index = some (.store .sw 5 0 0xF0) := by
    rw [h2]
    rfl
  obtain ⟨⟨c, hc⟩, hseen⟩ := @step_gpio canary σ load t 5 hf (by decide)
  have hbyte : seen canary (t, σ) = [.inl 2, .inr 0x2A] := by
    rw [hseen, h2, show readReg σ.regs (BitVec.ofNat 5 5) = 0x2A from h5]
    rfl
  have hc' : flashStep canary load (t, σ) = some c := (flashStep_eq hf rfl).trans hc
  exact ⟨k, c.1, (hrun c.1 c.2 _ (.cons hstep (.one hc' hbyte))).2.2.2⟩

end Loaded

end Pineapple
