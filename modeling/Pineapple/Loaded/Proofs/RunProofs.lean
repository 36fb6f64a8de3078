import Pineapple.Loaded.Machine
import Pineapple.Paged.Proofs.HandoffProofs
import Pineapple.Paged.Proofs.SwitchProofs
import Pineapple.Rtl.Proofs.ByteMapProofs

/-!
# Proofs: the chip runs the program that was loaded

The bytes of a program that the assembler has accepted are the words of its instructions. As long as they are in the
load window and FLASH_MODE is clear, one instruction of the chip is one step of the program, and an instruction that is
allowed keeps them there. So from the hand-over of the boot ROM on the chip takes the run of the program.
-/

namespace Pineapple

open Clocked
open Rv32i (Instr Word Width readReg)

namespace Loaded

/-! ## The bytes of a program -/

/-- The bytes are the words of the instructions. -/
structure Assembled (cs : List Call) (bytes : List (BitVec 8)) : Prop where
  length : bytes.length = 4 * (instrsOf cs).length
  decode : ∀ j i, (instrsOf cs)[j]? = some i →
    Rv32i.decode (Bits.ofLE 32 ((bytes.drop (4 * j)).take 4)) = some i

/-- What the assembler makes of a program. -/
theorem assembled_of_finalize {base : Int} {cs : List Call} {a : Asm} {words : List Nat} {bytes : List (BitVec 8)}
    (hr : ∀ c ∈ cs, ∀ f, c.form = some f → f.RegsOk) (hcs : (Asm.new base).calls cs = .ok a)
    (hwords : a.finalize = .ok words) (hbytes : words_to_bytes words = .ok bytes) : Assembled cs bytes := by
  obtain ⟨es, hes, hent⟩ := Asm.calls_entries hr (Asm.holds_new base) hcs
  rw [List.nil_append] at hes
  have hrange : ∀ f ∈ (cs.filterMap Call.form).map Form.wrap, f.InRange := by
    intro f hf
    obtain ⟨g, hg, rfl⟩ := List.mem_map.mp hf
    obtain ⟨c, hc, hcg⟩ := List.mem_filterMap.mp hg
    exact Asm.Form.wrap_inRange (hr c hc g hcg)
  obtain ⟨hlen, hag⟩ := Asm.agrees_of_finalize hes hent hrange hwords
  rw [List.length_map] at hlen
  have hag' : ∀ i (hf : i < (cs.filterMap Call.form).length) (hw : i < words.length),
      ∃ l x, Asm.Agrees base a.labels i (cs.filterMap Call.form)[i].wrap words[i] l x := by
    intro i hf hw
    obtain ⟨l, x, hx⟩ := hag i (by rw [List.length_map]; exact hf) hw
    rw [List.getElem_map] at hx
    exact ⟨l, x, hx⟩
  have hdec := decode_words hr hcs rfl hlen hag'
  have hlt : ∀ w ∈ words, w < 2 ^ 32 := by
    intro w hw
    obtain ⟨i, hi, rfl⟩ := List.getElem_of_mem hw
    obtain ⟨l, x, hx⟩ := hag' i (by omega) hi
    exact hx.lt
  obtain ⟨bytes', hb', hblen, hget⟩ := Asm.words_to_bytes_ok hlt
  cases hbytes.symm.trans hb'
  have hilen : (instrsOf cs).length = words.length := (instrsOf_length cs).trans hlen.symm
  refine ⟨hilen ▸ hblen, fun j i hj => ?_⟩
  have hjlt : j < words.length := hilen ▸ (List.getElem?_eq_some_iff.mp hj).1
  rw [hget j hjlt, Bits.ofLE_toLE _ _ (by omega)]
  have hword := congrArg (fun l => l[j]?) hdec
  rw [List.getElem?_map, List.getElem?_map, List.getElem?_eq_getElem hjlt, hj] at hword
  exact Option.some.inj hword

/-! ## The program in the load window -/

/-- The program is in the load window, and fetched from there. -/
structure InWindow (bytes : List (BitVec 8)) (m : MemRegs) : Prop where
  flash_mode : m.flash_mode = false
  ram : ∀ i < bytes.length, m.ramByte (0xB4 + i) = bytes.getD i 0

variable {cs : List Call} {bytes : List (BitVec 8)} {m : MemRegs} {σ : LState}

/-- A fetch from the window reads the word of the instruction. -/
theorem InWindow.fetch (hw : InWindow bytes m) (ha : Assembled cs bytes) (hlen : bytes.length ≤ 44)
    {j : Nat} {i : Instr} (hi : (instrsOf cs)[j]? = some i) (rom : Rom) (gpio_in : BitVec 8) (ext : Word) :
    Rv32i.decode (m.rdata (windowAddr j) rom gpio_in ext) = some i := by
  have hj : j < (instrsOf cs).length := (List.getElem?_eq_some_iff.mp hi).1
  have hlen' := ha.length
  have haddr := @windowAddr_toNat j (by omega)
  have hbytes : (List.range 4).map (fun k => m.ramByte ((windowAddr j).toNat + k)) = (bytes.drop (4 * j)).take 4 := by
    apply List.ext_getElem?
    intro k
    by_cases hk : k < 4
    · have hidx : 4 * j + k < bytes.length := by omega
      rw [List.getElem?_map, List.getElem?_range hk, Option.map_some, List.getElem?_take_of_lt hk, List.getElem?_drop,
        haddr, Nat.add_assoc, hw.ram _ hidx, List.getD_eq_getElem?_getD, List.getElem?_eq_getElem hidx]
      rfl
    · rw [List.getElem?_eq_none, List.getElem?_eq_none]
      · rw [List.length_take]
        omega
      · rw [List.length_map, List.length_range]
        omega
  have hrom : in_rom (windowAddr j) = false := by
    rw [← Bool.not_eq_true, in_rom_iff]
    omega
  have hram : m.in_ram (windowAddr j) = true := by
    rw [MemRegs.in_ram, MemRegs.in_ext_flash, hw.flash_mode, (in_ram_range_iff _).mpr ⟨by omega, by omega⟩]
    rfl
  rw [MemRegs.rdata, hrom, if_neg Bool.false_ne_true, hram, if_pos rfl, Asm.ram_word_eq m (by omega) (by omega), hbytes]
  exact ha.decode j i hi

/-- A store to the RAM changes only the bytes from its first one on. -/
theorem ramByte_of_outside {addr : BitVec 8} (h1 : 0xB0 ≤ addr.toNat) (h2 : addr.toNat ≤ 0xDF) (v : Word) (w : Width)
    {b : Nat} (hb1 : 0xB0 ≤ b) (hb2 : b ≤ 0xDF) (hout : b < storeStart addr w ∨ storeStart addr w + w.bytes ≤ b) :
    (m.writeRam addr v (sizeCode w)).ramByte b = m.ramByte b := by
  cases w with
  | byte | half =>
    have hout' : b < addr.toNat ∨ addr.toNat + _ ≤ b := hout
    rw [MemRegs.ramByte_writeRam h1 h2 v _ (fun h => absurd h (by decide)) hb1 hb2, nbytes_sizeCode, if_neg]
    omega
  | word =>
    obtain ⟨hw0, -, -⟩ := MemRegs.ram_index h1 h2
    have hout' : b < addr.toNat / 4 * 4 ∨ addr.toNat / 4 * 4 + 4 ≤ b := hout
    rw [MemRegs.writeRam_word v (by decide) (by decide), hw0, MemRegs.ramByte_setWord _ (by omega) _ hb1 hb2, if_neg]
    omega

/-- An instruction that is allowed leaves the program where it is. -/
theorem InWindow.store (hw : InWindow bytes σ.mem) (hlen : bytes.length ≤ 44) {i : Instr}
    (hi : σ.allowed bytes.length i) : InWindow bytes (σ.arch.store i) := by
  cases i with
  | store op rs2 rs1 imm =>
    obtain ⟨h8, hout⟩ := Bool.and_eq_true_iff.mp hi
    generalize hv : readReg σ.regs rs2 = v at *
    generalize haddr : ((readReg σ.regs rs1 + imm.signExtend 32).setWidth 8 : BitVec 8) = addr at h8 hout
    have h8 : addr ≠ 0xF8 := bne_iff_ne.mp h8
    have hout : storeStart addr op.width + op.width.bytes ≤ 0xB4 ∨ 0xB4 + bytes.length ≤ storeStart addr op.width := by
      simpa using hout
    have hstore : σ.arch.store (.store op rs2 rs1 imm) = σ.mem.write addr v (sizeCode op.width) := by
      rw [← haddr, ← hv]
      rfl
    rw [hstore, MemRegs.write, if_neg h8]
    split
    · rename_i hin
      obtain ⟨h1, h2⟩ := (in_ram_range_iff addr).mp (Bool.and_eq_true_iff.mp hin).1
      obtain ⟨ws, hws⟩ := σ.mem.writeRam_eq addr v (sizeCode op.width)
      refine ⟨by rw [hws]; exact hw.flash_mode, fun i hi => ?_⟩
      rw [ramByte_of_outside h1 (by omega) v op.width (by omega) (by omega) (by omega)]
      exact hw.ram i hi
    · split
      · exact ⟨hw.flash_mode, hw.ram⟩
      · split
        · exact ⟨hw.flash_mode, hw.ram⟩
        · exact hw
  | _ => exact hw

/-! ## One instruction -/

/-- A jump to an instruction of the window. -/
theorem windowAddr_of_entry {pc : BitVec 8} {j : Nat} (h : entry pc = some j) : windowAddr j = pc := by
  unfold entry at h
  split at h
  · cases h
    apply BitVec.eq_of_toNat_eq
    rw [windowAddr, windowIndex, BitVec.toNat_ofNat]
    omega
  · cases h

/-- The offset of the instruction `f` at index `j`. -/
def offset (cs : List Call) (f : Form) (j : Nat) : Int :=
  4 * (((f.target.bind fun name => labelIndex name cs).getD 0 : Nat) : Int) - 4 * j

theorem instr_of_instrAt {j : Nat} {f : Form} (hf : instrAt cs j = some f) :
    (instrsOf cs)[j]? = some (f.instr (offset cs f j)) := by
  rw [instrsOf, List.getElem?_mapIdx, show (cs.filterMap Call.form)[j]? = some f from hf]
  rfl

/-- The chip goes on where the program does. -/
theorem pc_of_next {f : Form} {j : Nat} (hnext : σ.next cs f = some j) (d : Word) :
    (σ.arch.exec (f.instr (offset cs f σ.index)) d).pc = windowAddr j := by
  cases f with
  | branch op rs1 rs2 name =>
    have hnext : (if op.holds (σ.arch.reg (BitVec.ofNat 5 rs1)) (σ.arch.reg (BitVec.ofNat 5 rs2)) then
      labelIndex name cs else some (σ.index + 1)) = some j := hnext
    rw [Form.instr, Arch.exec_branch, Arch.pc_goto]
    split at hnext
    · rename_i hholds
      rw [if_pos hholds, offset, Form.target, Option.bind_some, hnext, Option.getD_some]
      exact windowAddr_offset (by decide) _ _
    · rename_i hholds
      cases hnext
      rw [if_neg hholds]
      exact windowAddr_succ _
  | jal rd name =>
    have hlabel : labelIndex name cs = some j := hnext
    rw [Form.instr, Arch.exec_jal, Arch.pc_goto, offset, Form.target, Option.bind_some, hlabel, Option.getD_some]
    exact windowAddr_offset (by decide) _ _
  | jalr rd rs1 v => exact (windowAddr_of_entry hnext).symm
  | _ =>
    cases hnext
    exact (Arch.next_pc _).trans (windowAddr_succ _)

/-- Only the program counter depends on the offset. -/
theorem access_offset (a : Arch) (f : Form) (off off' : Int) :
    a.access (f.instr off) = a.access (f.instr off') := by
  cases f with
  | branch op rs1 rs2 name =>
    have hnone : ∀ off, a.access ((Form.branch op rs1 rs2 name).instr off) = none := fun _ => rfl
    rw [hnone, hnone]
  | jal rd name =>
    have hnone : ∀ off, a.access ((Form.jal rd name).instr off) = none := fun _ => rfl
    rw [hnone, hnone]
  | _ => rfl

theorem regs_offset (a : Arch) (f : Form) (off off' : Int) (d : Word) :
    (a.exec (f.instr off) d).regs = (a.exec (f.instr off') d).regs := by
  cases f with
  | branch op rs1 rs2 name =>
    have hregs : ∀ off, (a.exec ((Form.branch op rs1 rs2 name).instr off) d).regs = a.regs := fun _ => rfl
    rw [hregs, hregs]
  | jal rd name =>
    have hregs : ∀ off, (a.exec ((Form.jal rd name).instr off) d).regs =
        Rv32i.writeReg a.regs (BitVec.ofNat 5 rd) (a.pc.setWidth 32 + 4) := fun _ => rfl
    rw [hregs, hregs]
  | _ => rfl

theorem store_offset (a : Arch) (f : Form) (off off' : Int) : a.store (f.instr off) = a.store (f.instr off') := by
  rw [Arch.store, Arch.store, access_offset a f off off']

/-- The chip after an instruction of the program. -/
theorem exec_arch {f : Form} {j : Nat} (hnext : σ.next cs f = some j) (d : Word) :
    σ.arch.exec (f.instr (offset cs f σ.index)) d = (σ.exec (f.instr 0) j d).arch := by
  have hparts : ∀ {pc pc' : BitVec 8} {regs regs' : Regs} {mem mem' : MemRegs}, pc = pc' → regs = regs' → mem = mem' →
      Arch.mk ⟨pc, regs⟩ mem = Arch.mk ⟨pc', regs'⟩ mem' := by
    rintro pc _ regs _ mem _ rfl rfl rfl
    rfl
  exact hparts (pc_of_next hnext d) (regs_offset _ _ _ _ _) (store_offset _ _ _ _)

/-! ## What a step is -/

/-- A store to a constant address. -/
theorem allowed_const (n : Nat) (op : Rv32i.StoreOp) (rs2 : Rv32i.Reg) (imm : BitVec 12) :
    σ.allowed n (.store op rs2 0 imm) = (imm.setWidth 8 != (0xF8 : BitVec 8) &&
      (storeStart (imm.setWidth 8) op.width + op.width.bytes ≤ 0xB4 ||
        0xB4 + n ≤ storeStart (imm.setWidth 8) op.width : Bool)) := by
  have haddr : (readReg σ.regs 0 + imm.signExtend 32).setWidth 8 = imm.setWidth 8 := by
    rw [show readReg σ.regs 0 = 0#32 from rfl, BitVec.zero_add, setWidth_signExtend_low imm (by decide)]
  rw [← haddr]
  rfl

theorem step_eq {load : Nat → Arch → Instr → Word} {t j : Nat} {f : Form} (hf : instrAt cs σ.index = some f)
    (hallow : σ.allowed (4 * (cs.filterMap Call.form).length) (f.instr 0) = true) (hnext : σ.next cs f = some j) :
    step cs load (t, σ) =
      some (t + σ.arch.cycles (f.instr 0), σ.exec (f.instr 0) j (load t σ.arch (f.instr 0))) := by
  show (instrAt cs σ.index).bind _ = _
  rw [hf, Option.bind_some, if_pos hallow]
  show (σ.next cs f).map _ = _
  rw [hnext]
  rfl

theorem seen_index (c : Nat × LState) :
    (seen cs c).filterMap (fun o => (Sum.getLeft? o).map windowAddr) = [windowAddr c.2.index] := by
  simp [seen, List.filterMap_map, Function.comp_def]

theorem seen_eq {t : Nat} {f : Form} (hf : instrAt cs σ.index = some f) :
    seen cs (t, σ) = .inl σ.index :: (σ.arch.gpioStore (f.instr 0)).map .inr := by
  unfold seen
  dsimp only
  rw [hf]
  rfl

theorem seen_store {t : Nat} {f : Form} (hf : instrAt cs σ.index = some f) :
    (seen cs (t, σ)).filterMap Sum.getRight? = σ.arch.gpioStore (f.instr 0) := by
  rw [seen_eq hf, List.filterMap_cons_none rfl, List.filterMap_map]
  exact List.filterMap_some

/-- A store to GPIO_OUT is allowed, and its byte is seen. -/
theorem step_gpio {load : Nat → Arch → Instr → Word} {t rs2 : Nat}
    (hf : instrAt cs σ.index = some (.store .sw rs2 0 0xF0)) (hlen : (cs.filterMap Call.form).length ≤ 11) :
    (∃ c, step cs load (t, σ) = some c) ∧
      seen cs (t, σ) = [.inl σ.index, .inr ((readReg σ.regs (BitVec.ofNat 5 rs2)).extractLsb' 0 8)] := by
  have hallow : σ.allowed (4 * (cs.filterMap Call.form).length) (.store .sw (BitVec.ofNat 5 rs2) 0 0xF0) = true := by
    have hstart : 0xB4 + 4 * (cs.filterMap Call.form).length ≤
        storeStart ((0xF0 : BitVec 12).setWidth 8) Rv32i.StoreOp.sw.width := by
      show _ ≤ 240
      omega
    rw [allowed_const, decide_eq_true hstart, Bool.or_true]
    rfl
  refine ⟨⟨_, step_eq hf hallow rfl⟩, ?_⟩
  rw [seen_eq hf]
  show Sum.inl σ.index :: (σ.arch.gpioStore (.store .sw (BitVec.ofNat 5 rs2) 0 0xF0)).map Sum.inr = _
  rw [Arch.gpioStore_const, if_pos (by decide)]
  rfl

/-! ## The run -/

section Run

variable {rom : Rom} {inp : Nat → Inputs}

/-- The time of an instruction, the word it loads and the byte it stores. -/
theorem env_offset (t : Nat) (a : Arch) (f : Form) (off off' : Int) :
    a.cycles (f.instr off) = a.cycles (f.instr off') ∧ a.gpioStore (f.instr off) = a.gpioStore (f.instr off') ∧
      (Env.chip rom inp).load t a (f.instr off) = (Env.chip rom inp).load t a (f.instr off') := by
  have haccess := access_offset a f off off'
  have hstall : a.dataStall (f.instr off) = a.dataStall (f.instr off') := by
    rw [Arch.dataStall, Arch.dataStall, haccess]
  refine ⟨by rw [Arch.cycles, Arch.cycles, hstall], by rw [Arch.gpioStore, Arch.gpioStore, haccess], ?_⟩
  show Top.loaded rom inp t a (f.instr off) = Top.loaded rom inp t a (f.instr off')
  rw [Top.loaded, Top.loaded, Arch.load, Arch.load, Arch.accessBytes, Arch.accessBytes, hstall, haccess]

/-- The step from `c` to `c'` of the program is one of `e`, with the same store. -/
structure Follows (cs : List Call) (e : Env) (c c' : Nat × LState) : Prop where
  step : e.step (c.1, c.2.arch) = some (c'.1, c'.2.arch)
  stores : ∃ i, e.instr c.1 c.2.arch = some i ∧ (seen cs c).filterMap Sum.getRight? = c.2.arch.gpioStore i

/-- What a step of the program is; the chip follows it where it fetches that instruction. -/
theorem step_cases {e : Env} (he : e.load = (Env.chip rom inp).load) {c c' : Nat × LState}
    (hs : step cs e.load c = some c')
    (hfetch : ∀ i, (instrsOf cs)[c.2.index]? = some i → e.instr c.1 c.2.arch = some i) :
    Follows cs e c c' ∧ ∃ f, instrAt cs c.2.index = some f ∧
      c.2.allowed (4 * (cs.filterMap Call.form).length) (f.instr 0) = true ∧
      c'.2.mem = c.2.arch.store (f.instr 0) := by
  obtain ⟨t, σ⟩ := c
  obtain ⟨f, hf, hs⟩ := Option.bind_eq_some_iff.mp hs
  rw [Option.ite_none_right_eq_some] at hs
  obtain ⟨hallow, hs⟩ := hs
  obtain ⟨j, hnext, rfl⟩ := Option.map_eq_some_iff.mp hs
  have hi : e.instr t σ.arch = some (f.instr (offset cs f σ.index)) := hfetch _ (instr_of_instrAt hf)
  obtain ⟨hcyc, hgpio, hload⟩ := @env_offset rom inp t σ.arch f (offset cs f σ.index) 0
  refine ⟨⟨?_, _, hi, ?_⟩, f, hf, hallow, rfl⟩
  · rw [Env.step_eq hi, hcyc, exec_arch hnext, he, hload]
  · rw [hgpio]
    exact seen_store hf

/-- The run of the chip, for a way to fetch the program that every step keeps. -/
theorem simulate {s : Nat → Top} (hs : Top.Run rom inp s) (h0 : Top.AtFetch (s 0)) {e : Env}
    (he : Top.Agrees rom inp s e) {stp : Nat × LState → Option (Nat × LState)} {Inv : MemRegs → Prop}
    (hstep : ∀ c c', Inv c.2.mem → stp c = some c' → Inv c'.2.mem ∧ Follows cs e c c')
    {c c' : Nat × LState} {os : List (Nat ⊕ BitVec 8)} (hinv : Inv c.2.mem)
    (hat : Top.At s c.1 c.2.arch) (hp : Path stp (seen cs) c os c') :
    Top.At s c'.1 c'.2.arch ∧ c.1 ≤ c'.1 ∧
      Top.emitted s (fun a => [a.2.pc]) c.1 c'.1 = (os.filterMap Sum.getLeft?).map windowAddr ∧
      Top.gpioWrites s c.1 c'.1 = os.filterMap Sum.getRight? := by
  -- the fetches
  have hfetch := @Path.simulate _ _ stp (fun c => (seen cs c).filterMap fun o => (Sum.getLeft? o).map windowAddr) _
    e.step (fun a => [a.2.pc]) (fun c => (c.1, c.2.arch)) (fun c => Inv c.2.mem)
    (fun c c' hinv hc => by
      obtain ⟨hinv', hfol⟩ := hstep c c' hinv hc
      exact ⟨hinv', .one hfol.step (seen_index c).symm⟩) _ _ _ (hp.filterMap _) hinv
  obtain ⟨hat', hle, hem⟩ := Top.run_path hs h0 he hfetch.2 hat
  -- the stores
  have hstore := @Path.simulate _ _ stp (fun c => (seen cs c).filterMap Sum.getRight?) _
    e.step (fun a => ((e.instr a.1 a.2).map a.2.gpioStore).getD []) (fun c => (c.1, c.2.arch)) (fun c => Inv c.2.mem)
    (fun c c' hinv hc => by
      obtain ⟨hinv', hfol⟩ := hstep c c' hinv hc
      obtain ⟨i, hi, hseen⟩ := hfol.stores
      refine ⟨hinv', .one hfol.step ?_⟩
      rw [hi, hseen]
      rfl) _ _ _ (hp.filterMap _) hinv
  obtain ⟨-, -, hgpio⟩ := Top.run_gpioWrites hs h0 he (fun t a i hi => by rw [hi]; rfl) hstore.2 hat
  exact ⟨hat', hle, hem.trans List.map_filterMap.symm, hgpio⟩

/-- The chip fetches from the window, and an instruction that is allowed leaves the program there. -/
theorem follows_chip (ha : Assembled cs bytes) (hlen : bytes.length ≤ 44) (c c' : Nat × LState)
    (hw : InWindow bytes c.2.mem) (hs : step cs (Env.chip rom inp).load c = some c') :
    InWindow bytes c'.2.mem ∧ Follows cs (Env.chip rom inp) c c' := by
  obtain ⟨hfol, f, -, hallow, hmem⟩ := step_cases rfl hs fun i hi => hw.fetch ha hlen hi _ _ _
  rw [← instrsOf_length, ← ha.length] at hallow
  exact ⟨hmem ▸ hw.store hlen hallow, hfol⟩

/-- A program of the assembler that is sent to the boot ROM is executed. From reset the demo loop makes some turns until
it sees START; shortly after the last bit the chip is at the first instruction of the program. From there on every run
of the program is the run of the chip: the fetches are those of its instructions, and the bytes that are stored in
GPIO_OUT are the ones it stores. -/
theorem program_runs {base : Int} {a : Asm} {words : List Nat} (hr : ∀ c ∈ cs, ∀ f, c.form = some f → f.RegsOk)
    (hcs : (Asm.new base).calls cs = .ok a) (hwords : a.finalize = .ok words)
    (hbytes : words_to_bytes words = .ok bytes) (hlen : bytes.length ≤ 44) {s : Nat → Top}
    (hs : Top.Run bootRom inp s) {s0 : Top} (h0 : s 0 = s0.reset) {S : Nat} {rise fall : Nat → Nat}
    (hsends : Boot.Sends (fun τ => (inp τ).ui_in) (BitVec.ofNat 8 bytes.length :: bytes) S rise fall) :
    ∃ k T σ, Boot.Turns inp k ∧ Top.gpioWrites s 0 T = Boot.demoStores inp k ∧
      fall (8 * bytes.length + 7) ≤ T ∧ T ≤ fall (8 * bytes.length + 7) + 105 ∧
      σ.index = 0 ∧ Top.At s T σ.arch ∧
      ∀ t' σ' os, Path (step cs (Env.chip bootRom inp).load) (seen cs) (T, σ) os (t', σ') →
        Top.At s t' σ'.arch ∧ T ≤ t' ∧
          Top.emitted s (fun a => [a.2.pc]) T t' = (os.filterMap Sum.getLeft?).map windowAddr ∧
          Top.gpioWrites s 0 t' = Boot.demoStores inp k ++ os.filterMap Sum.getRight? := by
  obtain ⟨k, T, m, a', hturns, hat, hbyte, hmode, -, hdemo, hlo, hhi⟩ := Boot.program_loaded hs h0 hsends hlen
  have hw : InWindow bytes a'.mem := by
    refine ⟨hmode, fun i hi => ?_⟩
    rw [hbyte.ram _ (by omega) (by omega), if_pos (by omega), Nat.add_sub_cancel_left]
  have hat' : Top.At s T (LState.mk 0 a'.regs a'.mem).arch := hat
  refine ⟨k, T, ⟨0, a'.regs, a'.mem⟩, hturns, hdemo, hlo, hhi, rfl, hat', fun t' σ' os hp => ?_⟩
  obtain ⟨hat'', hle, hfetch, hgpio⟩ := simulate hs (h0 ▸ Top.reset_atFetch s0) Top.agrees_chip
    (follows_chip (assembled_of_finalize hr hcs hwords hbytes) hlen) hw hat' hp
  refine ⟨hat'', hle, hfetch, ?_⟩
  rw [Top.gpioWrites_append (Nat.zero_le T) hle, hdemo, hgpio]

end Run

/-- A sum that goes to the LEDs. -/
def sum : List Call := [.ADDI 1 0 5, .ADDI 2 0 7, .ADD 3 1 2, .SW 3 0 0xF0, .label "SPIN", .JAL 0 "SPIN"]

def sumBytes : List (BitVec 8) :=
  [0x93, 0x00, 0x50, 0x00, 0x13, 0x01, 0x70, 0x00, 0xB3, 0x81, 0x20, 0x00, 0x23, 0x28, 0x30, 0x0E,
    0x6F, 0x00, 0x00, 0x00]

theorem program_runs_sum :
    let inp := Boot.wave (20 :: sumBytes)
    let s := Clocked.run (fun s (i : Inputs) => Top.step s bootRom i) inp Boot.powerUp.reset
    ∃ k t, Top.gpioWrites s 0 t = Boot.demoStores inp k ++ [12] := by
  intro inp s
  have hr : ∀ c ∈ sum, ∀ f, c.form = some f → f.RegsOk := by
    simp [sum, Call.form, Form.RegsOk, Form.regs]
  obtain ⟨a, words, hcs, hwords, hbytes⟩ : ∃ a words, (Asm.new 0).calls sum = .ok a ∧ a.finalize = .ok words ∧
      words_to_bytes words = .ok sumBytes := ⟨_, _, rfl, rfl, rfl⟩
  obtain ⟨k, T, ⟨index, regs, mem⟩, -, -, -, -, hindex, -, hrun⟩ := @program_runs sum sumBytes inp 0 a words hr hcs
    hwords hbytes (by decide) s (Clocked.trace_run _) Boot.powerUp rfl 0 _ _ (Boot.sends_wave _)
  obtain rfl : index = 0 := hindex
  -- the three instructions before the store
  obtain ⟨t, σ, hpath, h3, hsum⟩ : ∃ t σ, Path (step sum (Env.chip bootRom inp).load) (seen sum) (T, ⟨0, regs, mem⟩)
      [.inl 0, .inl 1, .inl 2] (t, σ) ∧ σ.index = 3 ∧ readReg σ.regs 3 = 12 :=
    ⟨_, _, .cons (step_eq rfl rfl rfl) (.cons (step_eq rfl rfl rfl) (.one (step_eq rfl rfl rfl) rfl)), rfl, rfl⟩
  obtain ⟨⟨c, hc⟩, hseen⟩ := @step_gpio sum σ (Env.chip bootRom inp).load t 3 (by rw [h3]; rfl) (by decide)
  have hbyte : seen sum (t, σ) = [.inl 3, .inr 12] := by
    rw [hseen, h3, show readReg σ.regs (BitVec.ofNat 5 3) = 12 from hsum]
    rfl
  exact ⟨k, c.1, (hrun c.1 c.2 _ (hpath.trans (.one hc hbyte))).2.2.2⟩

end Loaded

end Pineapple
