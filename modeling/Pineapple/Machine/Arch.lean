import Pineapple.Rtl.External
import Pineapple.Rtl.Instruction
import Pineapple.Spi.Transaction

/-!
# The machine a program sees

The architectural state of the chip: the hart and the registers of `mem.v`. One instruction is one step,
with the word a load reads and the clocks it waits given by the memory map.
-/

namespace Pineapple

open Rv32i (Instr Hart Word readReg)

structure Arch extends Hart where
  mem : MemRegs

def Top.arch (s : Top) : Arch := ⟨s.core.hart, s.mem.toMemRegs⟩

namespace Arch

variable (a : Arch)

/-- A register read. -/
def reg (r : Rv32i.Reg) : Word := readReg a.regs r

/-- A register write. -/
def setReg (r : Rv32i.Reg) (v : Word) : Arch := { a with regs := Rv32i.writeReg a.regs r v }

def goto (pc : BitVec 8) : Arch := { a with pc := pc }

def setMem (m : MemRegs) : Arch := { a with mem := m }

/-- The data access of an instruction. -/
def access (i : Instr) : Option Rv32i.Access := i.access (readReg a.regs)

/-- The memory registers after an instruction. -/
def store (i : Instr) : MemRegs :=
  match a.access i with
  | some ⟨addr, width, some v⟩ => a.mem.write (addr.setWidth 8) v (sizeCode width)
  | _ => a.mem

/-- One instruction; `d` is the word a load reads. -/
def exec (i : Instr) (d : Word) : Arch where
  toHart := i.exec a.toHart d
  mem := a.store i

/-- The word a load reads, from the ROM, the input pins and the data of an external read. -/
def load (i : Instr) (rom : Rom) (gpio_in : BitVec 8) (ext : Word) : Word :=
  match a.access i with
  | some acc => a.mem.rdata (acc.addr.setWidth 8) rom gpio_in ext
  | none => 0

/-- Wait states of the fetch. -/
def fetchStall : Nat := a.mem.stall a.pc 2

/-- Wait states of the data access. -/
def dataStall (i : Instr) : Nat :=
  match a.access i with
  | some acc => a.mem.stall (acc.addr.setWidth 8) (sizeCode acc.width)
  | none => 0

/-- Clock cycles from the fetch of `i` to the next fetch. -/
def cycles (i : Instr) : Nat := a.fetchStall + a.dataStall i + 7

/-- The word a fetch reads. -/
def word (rom : Rom) (gpio_in : BitVec 8) (ext : Word) : Word := a.mem.rdata a.pc rom gpio_in ext

/-- The number of bytes of the data access. -/
def accessBytes (i : Instr) : Nat :=
  match a.access i with
  | some acc => acc.width.bytes
  | none => 0

end Arch

namespace Top

/-- The word the chip reads when it fetches in cycle `t`, between two instructions in state `a`. -/
def fetched (rom : Rom) (inp : Nat → Inputs) (t : Nat) (a : Arch) : Word :=
  a.word rom (inp (t + a.fetchStall + 2)).ui_in (sampledWord (fun τ => (inp τ).miso) (t + 1) 4)

/-- The word the chip reads when it loads in the instruction `i`. -/
def loaded (rom : Rom) (inp : Nat → Inputs) (t : Nat) (a : Arch) (i : Instr) : Word :=
  a.load i rom (inp (t + a.fetchStall + a.dataStall i + 6)).ui_in
    (sampledWord (fun τ => (inp τ).miso) (t + a.fetchStall + 5) (a.accessBytes i))

/-- From cycle `t` on, where the chip is between two instructions in state `a`, it executes `i`. -/
structure Steps (s : Nat → Top) (t : Nat) (a : Arch) (i : Instr) (d : Word) : Prop where
  next : NextFetch s t (a.cycles i)
  arch : (s (t + a.cycles i)).arch = a.exec i d
  /-- The registers of `mem.v` change at most once. -/
  regs : ∀ j, t ≤ j → j ≤ t + a.cycles i →
    (s j).mem.toMemRegs = a.mem ∨ (s j).mem.toMemRegs = a.store i
  /-- A store is on the bus only if the instruction is one. -/
  store : ∀ j, t ≤ j → j < t + a.cycles i → (s j).core.mem_we = true →
    (s j).core.pc = a.pc ∧ ∃ acc v, a.access i = some acc ∧ acc.data = some v ∧
      (s j).core.mem_addr = acc.addr.setWidth 8 ∧ (s j).core.mem_wdata = v

end Top

end Pineapple
