import Pineapple.Isa.Rv32i
import Pineapple.Rtl.Core

/-!
# One instruction on the core's bus

What the core does from one `ST_FETCH` to the next, said in terms of the architectural state and of
the bus, for any number of wait states.
-/

namespace Pineapple

open Rv32i (Instr Hart readReg)

/-- The `mem_size` code of an access width. -/
def sizeCode : Rv32i.Width → BitVec 2
  | .byte => 0
  | .half => 1
  | .word => 2

/-- `mem_ready` while an instruction that is in `ST_FETCH` in cycle `t` waits: it stays low for `m` cycles
of `ST_FETCH_WAIT` and for `k` cycles of `ST_MEM_WAIT`. -/
structure Waits (ready : Nat → Bool) (t m k : Nat) : Prop where
  fetch_low : ∀ j < m, ready (t + 1 + j) = false
  fetch_ready : ready (t + 1 + m) = true
  mem_low : ∀ j < k, ready (t + m + 5 + j) = false
  mem_ready : ready (t + m + 5 + k) = true

namespace Core

/-- `c` runs on the given memory outputs. -/
def Run (c : Nat → Core) (ready : Nat → Bool) (rdata : Nat → BitVec 32) : Prop :=
  ∀ t, c (t + 1) = (c t).step (ready t) (rdata t)

/-- The architectural state. -/
def hart (c : Core) : Hart := ⟨c.pc, c.regs⟩

/-- The bus carries no access. -/
def Quiet (c : Core) : Prop := c.mem_valid = false ∧ c.mem_we = false

/-- The bus carries the word read of a fetch at `pc`. -/
structure Fetches (c : Core) (pc : BitVec 8) : Prop where
  valid : c.mem_valid = true
  we : c.mem_we = false
  addr : c.mem_addr = pc
  size : c.mem_size = 2

/-- The bus carries the data access `a`. -/
structure Performs (c : Core) (a : Rv32i.Access) : Prop where
  valid : c.mem_valid = true
  we : c.mem_we = a.data.isSome
  addr : c.mem_addr = a.addr.setWidth 8
  size : c.mem_size = sizeCode a.width
  wdata : ∀ v, a.data = some v → c.mem_wdata = v

theorem Performs.bus_addr {c : Core} {a : Rv32i.Access} (h : c.Performs a) :
    c.bus.addr = a.addr.setWidth 8 := h.addr

theorem Performs.bus_size {c : Core} {a : Rv32i.Access} (h : c.Performs a) :
    c.bus.size = sizeCode a.width := h.size

/-- From cycle `t` to cycle `t + m + k + 7` the core executes `i` with `m` wait states in the fetch and
`k` in the data access; `d` is the word on `mem_rdata` in `ST_WB`. -/
structure Executes (c : Nat → Core) (i : Instr) (d : BitVec 32) (t m k : Nat) : Prop where
  /-- The state change is that of the instruction. -/
  hart : (c (t + m + k + 7)).hart = i.exec (c t).hart d
  fetch : (c (t + m + k + 7)).state = .fetch
  not_fetch : ∀ j, t < j → j < t + m + k + 7 → (c j).state ≠ .fetch
  /-- The waits of `Waits` are the waits of these two states. -/
  fetchWait : ∀ j, t < j → j < t + m + k + 7 → ((c j).state = .fetchWait ↔ j ≤ t + m + 1)
  memWait : ∀ j, t < j → j < t + m + k + 7 →
    ((c j).state = .memWait ↔ t + m + 5 ≤ j ∧ j ≤ t + m + k + 5)
  /-- The fetch: one access, whose address stays up to the cycle that latches the word. -/
  fetch_bus : ∀ j, t < j → j ≤ t + m + 1 → (c j).Fetches (c t).pc
  fetch_addr : (c (t + m + 2)).mem_addr = (c t).pc
  no_access : ∀ j, t + m + 2 ≤ j → j ≤ t + m + 4 → (c j).Quiet
  /-- The data access, if the instruction has one, and its address up to `ST_WB`. -/
  access_bus : ∀ a, i.access (readReg (c t).regs) = some a →
    ∀ j, t + m + 5 ≤ j → j ≤ t + m + k + 5 → (c j).Performs a
  access_addr : ∀ a, i.access (readReg (c t).regs) = some a →
    (c (t + m + k + 6)).mem_addr = a.addr.setWidth 8
  no_access_bus : i.access (readReg (c t).regs) = none →
    ∀ j, t + m + 5 ≤ j → j ≤ t + m + k + 5 → (c j).Quiet
  after : ∀ j, t + m + k + 6 ≤ j → j ≤ t + m + k + 7 → (c j).Quiet

/-- From the `ST_FETCH` of cycle `t` to the one of cycle `t'` the words `ws` are fetched one after the other. -/
inductive Fetched (ready : Nat → Bool) (rdata : Nat → BitVec 32) : Nat → List (BitVec 32) → Nat → Prop
  | nil (t : Nat) : Fetched ready rdata t [] t
  | cons {t m k t' : Nat} {w : BitVec 32} {ws : List (BitVec 32)} (waits : Waits ready t m k)
      (word : rdata (t + m + 2) = w) (rest : Fetched ready rdata (t + m + k + 7) ws t') :
      Fetched ready rdata t (w :: ws) t'

end Core

end Pineapple
