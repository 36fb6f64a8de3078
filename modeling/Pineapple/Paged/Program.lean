import Pineapple.Tools.Paged

/-!
# Programs in pages

What a script of `PagedAsm` calls says, without words and bytes: a list of pages, each of them the calls on it and
the call that ends it. `instrs` are the instructions of a page, with the offsets of its branches and jumps, and
`full` adds the ones that end the page.
-/

namespace Pineapple

open Rv32i (Instr Reg)

structure Page where
  body : List Call
  ending : Ending
  deriving DecidableEq, Repr

/-- The index of the instruction behind the label `name`. -/
def labelIndex (name : String) : List Call → Option Nat
  | [] => none
  | .label n :: cs => if name == n then some 0 else labelIndex name cs
  | _ :: cs => (labelIndex name cs).map (· + 1)

/-- The instructions that the calls name. -/
def instrsOf (cs : List Call) : List Instr :=
  (cs.filterMap Call.form).mapIdx fun i f =>
    f.instr (4 * (((f.target.bind fun name => labelIndex name cs).getD 0 : Nat) : Int) - 4 * i)

namespace Page

variable (pg : Page)

/-- The calls of the page. -/
def calls : List PagedCall := pg.body.map .page ++ [.ending pg.ending]

/-- The instructions of the caller. -/
def instrs : List Instr := instrsOf pg.body

/-- The number of the scratch register. -/
def scratch : Nat := pg.ending.scratch_reg.getD 30

def scratchReg : Reg := BitVec.ofNat 5 pg.scratch

/-- What `PagedAsm` adds to the instructions of page `n`, with the ADDI only for a constant page number. -/
def glue (n : Nat) : List Instr :=
  let load := (pg.ending.target n).toList.map fun next => Instr.opImm .addi pg.scratchReg 0 (BitVec.ofInt 12 next)
  List.replicate (9 - pg.instrs.length - load.length) (.opImm .addi 0 0 0) ++ load ++
    [.store .sw pg.scratchReg 0 0xFC, .jal 0 (BitVec.ofInt 21 (-40))]

/-- All instructions of page `n`. -/
def full (n : Nat) : List Instr := pg.instrs ++ pg.glue n

end Page

/-- The finished pages and the calls on the open page, after one more call. -/
def splitStep (st : List Page × List Call) : PagedCall → List Page × List Call
  | .page c => (st.1, st.2 ++ [c])
  | .ending e => (st.1 ++ [⟨st.2, e⟩], [])

/-- The pages of a script; page 0 begins with the dead NOP. -/
def pagesOf (cs : List PagedCall) : List Page := (cs.foldl splitStep ([], [.ADDI 0 0 0])).1

/-- The calls of a script with the pages `P`; the NOP at the beginning of page 0 is the constructor's. -/
def scriptCalls (P : List Page) : List PagedCall := (P.flatMap Page.calls).tail

/-- On page `n` a part of a script makes the pages `P`. -/
def Writes (n : Nat) (P : List Page) (f : PagedAsm → Except PyError PagedAsm) : Prop :=
  ∀ p, p._cur_page_num = n → f p = p.calls (P.flatMap Page.calls)

/-- The assembler takes the page as number `n`: its registers exist, its labels are different, its targets are
labels, and there is room for its ending. -/
structure Page.Fits (n : Nat) (pg : Page) : Prop where
  regs : ∀ c ∈ pg.calls, c.RegsOk
  room : (pg.body.filterMap Call.form).length + (pg.ending.target n).toList.length ≤ 9
  labels : ∃ a, (Asm.new 0xB4).calls pg.body = .ok a ∧ (a.fixups.all fun x => (a.labels.lookup x.2.label).isSome) = true

end Pineapple
