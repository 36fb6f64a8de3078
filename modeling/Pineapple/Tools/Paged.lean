import Pineapple.Tools.Calls

/-!
# `asm_pineapple.py`: `PagedAsm`

The builder of bank-switched flash images, with one definition for each of its methods. A page is ended by one of
three methods, which `Ending` lists; everything else a script does goes to the `Asm` of the current page.
-/

namespace Pineapple

structure PagedAsm where
  load_base : Int
  window_bytes : Int
  flash_page_addr : Int
  switch_scratch_reg : Nat
  pages : List (List (BitVec 8))
  _cur_page_num : Nat
  _cur : Asm

namespace PagedAsm

/-- The constructor `PagedAsm(load_base, window_bytes, flash_page_addr, switch_scratch_reg)`. Byte 0 of page 0 is
dead, so page 0 begins with a NOP. -/
def new (load_base window_bytes flash_page_addr : Int) (switch_scratch_reg : Nat) : PagedAsm where
  load_base := load_base
  window_bytes := window_bytes
  flash_page_addr := flash_page_addr
  switch_scratch_reg := switch_scratch_reg
  pages := []
  _cur_page_num := 0
  _cur := if load_base ≠ 0 then (Asm.new load_base).ADDI 0 0 0 else Asm.new load_base

/-- The default arguments. -/
def default : PagedAsm := new 0xB4 44 0xFC 30

variable (p : PagedAsm)

def switch_offset : Int := p.window_bytes - 8
def trampoline_offset : Int := p.window_bytes - 4

def bytes_used : Int := p._cur.addr - p._cur.base
def bytes_free : Int := p.switch_offset - p.bytes_used

/-- The loop of `_pad_to`; a turn appends four bytes, so `n` turns are enough if `n` bytes are missing. -/
def padLoop (target_offset : Int) : Nat → PagedAsm → PagedAsm
  | 0, p => p
  | n + 1, p =>
    if p.bytes_used < target_offset then padLoop target_offset n { p with _cur := p._cur.ADDI 0 0 0 } else p

def _pad_to (target_offset : Int) : Except PyError PagedAsm :=
  let used := p.bytes_used
  if used ≤ target_offset then .ok (padLoop target_offset (target_offset - used).toNat p)
  else .error (.assertion <|
    s!"page {p._cur_page_num}'s code doesn't fit: already at offset {used} bytes, but the page-switch " ++
    s!"reservation starts at offset {target_offset} -- this page has only {p.switch_offset} bytes " ++
    s!"({p.switch_offset / 4} instructions) of usable code, {used} of which are used")

def _emit_trampoline : Except PyError PagedAsm :=
  let off := p.load_base - p._cur.addr
  if off = -p.trampoline_offset then
    if -1048576 ≤ off ∧ off < 1048576 ∧ off % 2 = 0 then
      .ok { p with _cur := p._cur.word (Asm.jalWord off 0) }
    else .error (.assertion "")
  else .error (.assertion <|
    s!"internal error: trampoline offset should be exactly -{p.trampoline_offset}, computed {off} -- " ++
    "page-switch reservation math is inconsistent with actual page position")

def _finish_current_page : Except PyError PagedAsm := do
  let words ← p._cur.finalize
  let page_bytes ← words_to_bytes words
  if (page_bytes.length : Int) = p.window_bytes then
    .ok { p with
      pages := p.pages ++ [page_bytes]
      _cur_page_num := p._cur_page_num + 1
      _cur := Asm.new p.load_base }
  else .error (.assertion <|
    s!"internal error: page {p._cur_page_num} assembled to {page_bytes.length} bytes, " ++
    s!"expected exactly {p.window_bytes}")

/-- The common end of `switch_to` and `switch_to_computed`: the store to FLASH_PAGE and the trampoline. -/
def storePage (reg : Nat) : Except PyError PagedAsm :=
  if p.bytes_used = p.switch_offset then do
    let p ← _emit_trampoline { p with _cur := p._cur.SW reg 0 p.flash_page_addr }
    p._finish_current_page
  else .error (.assertion
    s!"internal error: SW should land at offset {p.switch_offset}, about to emit it at {p.bytes_used}")

def switch_to (next_page_num : Int) (scratch_reg : Option Nat) : Except PyError PagedAsm := do
  let reg := scratch_reg.getD p.switch_scratch_reg
  let p ← p._pad_to (p.switch_offset - 4)
  storePage { p with _cur := p._cur.ADDI reg 0 next_page_num } reg

def switch_to_computed (scratch_reg : Option Nat) : Except PyError PagedAsm := do
  let reg := scratch_reg.getD p.switch_scratch_reg
  let p ← p._pad_to p.switch_offset
  p.storePage reg

def finalize_last_page (scratch_reg : Option Nat) : Except PyError PagedAsm :=
  p.switch_to p._cur_page_num scratch_reg

def finalize : List (BitVec 8) := p.pages.flatten

end PagedAsm

/-! ## Scripts -/

/-- A method call that ends a page. -/
inductive Ending where
  | switch_to (next_page_num : Int) (scratch_reg : Option Nat)
  | switch_to_computed (scratch_reg : Option Nat)
  | finalize_last_page (scratch_reg : Option Nat)
  deriving DecidableEq, Repr

/-- A call of a script: one on `.page`, or one that ends the page. -/
inductive PagedCall where
  | page (c : Call)
  | ending (e : Ending)
  deriving DecidableEq, Repr

namespace Ending

def scratch_reg : Ending → Option Nat
  | switch_to _ r | switch_to_computed r | finalize_last_page r => r

/-- The page number that the method itself loads, on page `cur`. -/
def target (cur : Nat) : Ending → Option Int
  | switch_to next _ => some next
  | switch_to_computed _ => none
  | finalize_last_page _ => some cur

end Ending

namespace PagedAsm

def finish (p : PagedAsm) : Ending → Except PyError PagedAsm
  | .switch_to next_page_num scratch_reg => p.switch_to next_page_num scratch_reg
  | .switch_to_computed scratch_reg => p.switch_to_computed scratch_reg
  | .finalize_last_page scratch_reg => p.finalize_last_page scratch_reg

def call (p : PagedAsm) : PagedCall → Except PyError PagedAsm
  | .page c => do return { p with _cur := ← p._cur.call c }
  | .ending e => p.finish e

/-- The calls one after the other. -/
def calls (p : PagedAsm) : List PagedCall → Except PyError PagedAsm
  | [] => .ok p
  | c :: cs => do (← p.call c).calls cs

/-- The register that holds the page number at the end of a page. -/
def scratch (p : PagedAsm) (e : Ending) : Nat := e.scratch_reg.getD p.switch_scratch_reg

/-- The words that `e` appends to a page of `n` words: NOPs, the ADDI of the page number if it is a constant, the
store to FLASH_PAGE and the trampoline. -/
def tail (p : PagedAsm) (n : Nat) (e : Ending) : List Nat :=
  let load := (e.target p._cur_page_num).toList.map fun next => Asm._i next 0 0b000 (p.scratch e) OPC.OP_IMM
  List.replicate (9 - n - load.length) (Asm._i 0 0 0b000 0 OPC.OP_IMM) ++ load ++
    [Asm._s 0b010 (p.scratch e) 0 p.flash_page_addr, Asm.jalWord (-40) 0]

/-- The calls on the open page, after one more call. -/
def onPage (on_page : List Call) : PagedCall → List Call
  | .page c => on_page ++ [c]
  | .ending _ => []

/-- The calls on the page that is open after `cs`; page 0 begins with the dead NOP. -/
def openCalls (cs : List PagedCall) : List Call := cs.foldl onPage [.ADDI 0 0 0]

/-- Ending the page, whose instructions are `fs`, with `e` completes and appends one page of 44 bytes: the words of
the instructions in order and the ones of `tail`. -/
def AppendsPage (p : PagedAsm) (fs : List Form) (e : Ending) : Prop :=
  ∃ p' words bytes, p.finish e = .ok p' ∧ words.length = fs.length ∧
    (∀ i (hf : i < fs.length) (hw : i < words.length),
      ∃ l x, Asm.Agrees 0xB4 p._cur.labels i fs[i].wrap words[i] l x) ∧
    words_to_bytes (words ++ p.tail words.length e) = .ok bytes ∧ bytes.length = 44 ∧
    p'.pages = p.pages ++ [bytes]

/-- Every target of a branch or jump on the current page is a label of it. -/
def TargetsDefined (p : PagedAsm) : Prop :=
  ∀ x ∈ p._cur.fixups, (p._cur.labels.lookup x.2.label).isSome

instance (p : PagedAsm) : Decidable p.TargetsDefined :=
  inferInstanceAs (Decidable (∀ x ∈ p._cur.fixups, (p._cur.labels.lookup x.2.label).isSome))

end PagedAsm

/-- The registers of the call exist. -/
def PagedCall.RegsOk : PagedCall → Prop
  | .page c => ∀ f, c.form = some f → f.RegsOk
  | .ending e => ∀ r, e.scratch_reg = some r → r < 32

instance : (c : PagedCall) → Decidable c.RegsOk
  | .page c => inferInstanceAs (Decidable (∀ f ∈ c.form, f.RegsOk))
  | .ending e => inferInstanceAs (Decidable (∀ r ∈ e.scratch_reg, r < 32))

end Pineapple
