import Pineapple.Machine.Gpio
import Pineapple.Paged.Program

/-!
# The paged machine

The machine that a program in pages is written for. Its state is a page, the caller's next instruction on it, the
registers and the memory; there is no page register, no window and no trampoline. At the end of a page it goes on
with the first instruction of the target page.
-/

namespace Pineapple

open Rv32i (Instr Word readReg writeReg)

/-- The state of the paged machine; it neither uses nor changes `flash_mode` and `flash_page` of `mem`. -/
structure PState where
  page : Nat
  index : Nat
  regs : Regs
  mem : MemRegs

/-- The address of word `j` of the load window. -/
def windowAddr (j : Nat) : BitVec 8 := BitVec.ofNat 8 (0xB4 + 4 * j)

/-- The index of the word of the load window at an address. -/
def windowIndex (pc : BitVec 8) : Nat := (pc.toNat - 0xB4) / 4

namespace PState

variable (σ : PState)

/-- The chip in that state. -/
def arch : Arch where
  pc := windowAddr σ.index
  regs := σ.regs
  mem := { σ.mem with flash_mode := true, flash_page := BitVec.ofNat 8 σ.page }

/-- The caller may execute the instruction: it is no JALR, and no store to FLASH_MODE or FLASH_PAGE. -/
def allowed : Instr → Bool
  | .jalr _ _ _ => false
  | .store _ _ rs1 imm =>
    let addr : BitVec 8 := (readReg σ.regs rs1 + imm.signExtend 32).setWidth 8
    addr != 0xF8 && addr != 0xFC
  | _ => true

/-- One instruction of the caller; `d` is the word a load reads. -/
def exec (i : Instr) (d : Word) : PState where
  page := σ.page
  index := windowIndex (σ.arch.exec i d).pc
  regs := (σ.arch.exec i d).regs
  mem := { (σ.arch.exec i d).mem with flash_mode := σ.mem.flash_mode, flash_page := σ.mem.flash_page }

end PState

namespace Page

variable (pg : Page) (σ : PState)

/-- The number of the page that follows: the constant, or what is in the scratch register. -/
def next : Word :=
  match pg.ending.target σ.page with
  | some next => (BitVec.ofInt 12 next).signExtend 32
  | none => readReg σ.regs pg.scratchReg

/-- The state at the beginning of the next page; the scratch register holds its number. -/
def leave : PState where
  page := (pg.next σ).toNat
  index := 0
  regs := if (pg.ending.target σ.page).isSome then writeReg σ.regs pg.scratchReg (pg.next σ) else σ.regs
  mem := σ.mem

end Page

namespace Paged

/-- One step of the program `P`: an instruction of the caller, or the end of a page. An instruction that is not
allowed, and a target that is no page, have no meaning. -/
def step (P : List Page) (load : Nat → Arch → Instr → Word) (c : Nat × PState) : Option (Nat × PState) :=
  P[c.2.page]?.bind fun pg =>
    match pg.instrs[c.2.index]? with
    | some i =>
      if c.2.allowed i then some (c.1 + c.2.arch.cycles i, c.2.exec i (load c.1 c.2.arch i)) else none
    | none =>
      if (pg.next c.2).toNat < P.length then some (c.1 + 137 * (11 - pg.instrs.length), pg.leave c.2) else none

/-- The caller's instruction in a state of the chip. -/
def callerInstr (P : List Page) (a : Arch) : Option Instr :=
  P[a.mem.flash_page.toNat]?.bind fun pg => pg.instrs[windowIndex a.pc]?

/-- An observer of the caller's instructions: the page and the index of the one that is fetched. -/
def callers (P : List Page) (c : Nat × Arch) : List (Nat × Nat) :=
  if (callerInstr P c.2).isSome then [(c.2.mem.flash_page.toNat, windowIndex c.2.pc)] else []

/-- The same for a state of the paged machine. -/
def caller (P : List Page) (σ : PState) : List (Nat × Nat) :=
  if (P[σ.page]?.bind fun pg => pg.instrs[σ.index]?).isSome then [(σ.page, σ.index)] else []

/-- The caller's instruction in a state. -/
def instrAt (P : List Page) (σ : PState) : Option Instr := P[σ.page]?.bind fun pg => pg.instrs[σ.index]?

/-- What is seen of an instruction of the caller: its place, and the byte it stores in GPIO_OUT. The end of a page is
not seen. -/
def seen (P : List Page) (c : Nat × PState) : List ((Nat × Nat) ⊕ BitVec 8) :=
  match instrAt P c.2 with
  | some i => .inl (c.2.page, c.2.index) :: (c.2.arch.gpioStore i).map .inr
  | none => []

/-- What the program promises in a state: the caller's instruction is allowed, and at the end of a page the target
is a page. -/
structure Keeps (P : List Page) (σ : PState) : Prop where
  allowed : ∀ pg i, P[σ.page]? = some pg → pg.instrs[σ.index]? = some i → σ.allowed i
  target : ∀ pg, P[σ.page]? = some pg → pg.instrs[σ.index]? = none → (pg.next σ).toNat < P.length

/-- An instruction that is allowed in every state: no JALR, and a store only to a constant address. -/
def plain : Instr → Bool
  | .jalr _ _ _ => false
  | .store _ _ rs1 imm => rs1 == 0 && imm.setWidth 8 != (0xF8 : BitVec 8) && imm.setWidth 8 != (0xFC : BitVec 8)
  | _ => true

/-- The state that the handoff stub leaves. -/
def HandedOff (a : Arch) : Prop := a.mem.flash_mode = true ∧ a.mem.flash_page = 0 ∧ a.pc = 0xB8

/-- The paged machine after the handoff, at the instruction behind the dead NOP. -/
def start (a : Arch) : PState := ⟨0, 1, a.regs, a.mem⟩

/-- The image is in the flash from address 0 on. -/
def InFlash (flash : Bits.ByteMemory 14) (image : List (BitVec 8)) : Prop :=
  ∀ i (h : i < image.length), flash (BitVec.ofNat 14 i) = image[i]

/-- A board on which the stub has handed over to an image, with everything else zero. -/
def handedOver (image : List (BitVec 8)) : Board where
  top :=
    { core := ⟨.fetch, 0xB8, 0, 0, 0, fun _ => 0, 0, 0, 0, false, false⟩
      mem := ⟨⟨fun _ => 0, true, 0, 0⟩, ⟨.idle, 0, 0, 0, 0, 0, false, true, true, false, true⟩⟩ }
  flash := ⟨fun i => image.getD i.toNat 0, 0, .cmd, 0, 0, false, 0, 0, false⟩

end Paged

end Pineapple
