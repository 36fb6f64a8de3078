import Pineapple.Machine.Gpio
import Pineapple.Spi.Mode0
import Pineapple.St7789.Program

/-!
# What the ST7789 driver is for
-/

namespace Pineapple

open Rv32i (readReg)

namespace St7789

/-- Between cycle `t` and cycle `t'` the register `rd` gets the constant `value`, and no register other than `rd`
and `scratch` changes. -/
def LoadsConst (c : Nat → Core) (t t' rd scratch : Nat) (value : Int) : Prop :=
  (readReg (c t').regs (BitVec.ofNat 5 rd)).toNat = value ∧
    ∀ r, r ≠ BitVec.ofNat 5 rd → r ≠ BitVec.ofNat 5 scratch → readReg (c t').regs r = readReg (c t).regs r

/-- What the instructions of `load_const32` leave in `rd`: the sum of the two halves, each of them sign-extended. -/
def loaded (value : Int) : Rv32i.Word :=
  BitVec.ofInt 32 ((value % 4096).bmod 4096 + (value / 4096).bmod 4096 * 4096)

/-- The chip is at the beginning of page `n` of the flash. -/
structure AtPage (n : Nat) (a : Arch) : Prop where
  flash_mode : a.mem.flash_mode = true
  flash_page : a.mem.flash_page = BitVec.ofNat 8 n
  pc : a.pc = 0xB4

instance (n : Nat) (a : Arch) : Decidable (AtPage n a) :=
  decidable_of_iff (a.mem.flash_mode = true ∧ a.mem.flash_page = BitVec.ofNat 8 n ∧ a.pc = 0xB4)
    ⟨fun h => ⟨h.1, h.2.1, h.2.2⟩, fun h => ⟨h.1, h.2, h.3⟩⟩

/-- An observer of the decrements of `x2`, the instruction ADDI x2, x2, −1 in the flash. -/
def decrements (flash : Bits.ByteMemory 14) (c : Nat × Arch) : List Unit :=
  if Rv32i.decode (flashWord flash c.2.mem c.2.pc) = some (.opImm .addi 2 2 (-1)) then [()] else []

/-- From cycle 0 on the chip executes page `n` with `count` decrements of `x2`, and then, for the first time, is at
the beginning of page `n + 1`, with `x2` zero and `x5` unchanged. -/
def Waits (b : Nat → Board) (n : Nat) (count : Int) : Prop :=
  ∃ T a, Top.At (Board.tops b) T a ∧ AtPage (n + 1) a ∧
    (∀ τ < T, ∀ a', Top.At (Board.tops b) τ a' → ¬ AtPage (n + 1) a') ∧
    (Top.emitted (Board.tops b) (decrements (b 0).flash.mem) 0 T).length = count ∧
    a.reg 2 = 0 ∧ a.reg 5 = (b 0).top.arch.reg 5

/-- What the driver sends, each byte with the level of DC: the initialisation, and then `n` pixels. -/
def stream (c : Config) (n : Nat) : List (Bool × BitVec 8) :=
  let cmd v := (false, v)
  let data (v : Int) := (true, BitVec.ofInt 8 v)
  [cmd 0x01, cmd 0x11, cmd 0x3A, data 0x05, cmd 0x36, data c.MADCTL_VALUE,
    cmd 0x2A, data 0, data 0, data ((c.PANEL_WIDTH - 1) / 256), data ((c.PANEL_WIDTH - 1) % 256),
    cmd 0x2B, data 0, data 0, data ((c.PANEL_HEIGHT - 1) / 256), data ((c.PANEL_HEIGHT - 1) % 256),
    cmd 0x29, cmd 0x2C] ++
  (List.replicate n [data (c.FILL_COLOR / 256), data (c.FILL_COLOR % 256)]).flatten

/-- The chip is at the loop of page `n`, behind the first instruction. -/
structure AtLoop (n : Nat) (a : Arch) : Prop where
  flash_mode : a.mem.flash_mode = true
  flash_page : a.mem.flash_page = BitVec.ofNat 8 n
  pc : a.pc = 0xB8

/-- Where the driver is after `k` bytes: at the beginning of page 1, or at the loop of a DELAY page. -/
def HasSent (a : Arch) : Nat → Prop
  | 0 => AtPage 1 a
  | 1 => AtLoop 9 a
  | 2 => AtLoop 18 a
  | _ => False

/-- After a store of 0 in GPIO_OUT the stores from cycle `t` on send `bytes` to an aligned slave, and they end in
cycle `T`. -/
structure Transmits (b : Nat → Board) (t T : Nat) (bytes : List (Bool × BitVec 8)) : Prop where
  decoded : ∀ s : Spi.Mode0, s.bits = 0 → s.decode (0 :: Top.gpioWrites (Board.tops b) t T) = bytes
  ends : ∀ T', T ≤ T' → Top.gpioWrites (Board.tops b) T T' = []
  cs : ∀ v ∈ 0 :: Top.gpioWrites (Board.tops b) t T, Spi.Mode0.csOf v = false
  stable : (0 :: Top.gpioWrites (Board.tops b) t T).IsChain Spi.Mode0.Stable

/-- The levels of the output pins after cycle `t` and up to cycle `t'`. -/
def levels (b : Nat → Board) (t t' : Nat) : List (BitVec 8) :=
  (List.range' (t + 1) (t' - t)).map fun τ => (b τ).top.uo_out

/-- The panel in cycle `t`. It is reset with the chip, and it sees the pins in each cycle. -/
def panel (b : Nat → Board) (t : Nat) : Spi.Mode0 := Spi.Mode0.reset.after (levels b 0 t)

/-- From cycle `t` on the panel completes `bytes`, and no other byte. -/
def Receives (b : Nat → Board) (t : Nat) (bytes : List (Bool × BitVec 8)) : Prop :=
  ∃ T, ∀ T', T ≤ T' → (panel b t).decode (levels b t T') = bytes

end St7789

end Pineapple
