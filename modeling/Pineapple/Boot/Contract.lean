import Pineapple.Boot.Listener
import Pineapple.Boot.Program
import Pineapple.Rtl.External

/-!
# What the boot ROM is for

`Loads` is the state at the hand-over to a loaded program, and `Confined` what the ROM promises for every
cycle before it; `Overruns` is the input for which it does not. `NotStarted` says that the demo loop still runs. `wave`
is a slow host.
-/

namespace Pineapple

namespace Boot

/-- The bytes that the demo loop has stored before cycle `T`. -/
def demoWrites (s : Nat → Top) (T : Nat) : List (BitVec 8) :=
  (List.range T).filterMap fun τ =>
    if (s τ).core.mem_we = true ∧ 4 * MAIN_LOOP ≤ (s τ).core.pc.toNat ∧
        (s τ).core.pc.toNat < 4 * START_SEEN then
      some ((s τ).core.mem_wdata.extractLsb' 0 8)
    else none

/-- All fetches before cycle `T` are from the ROM. -/
def RomUntil (s : Nat → Top) (T : Nat) : Prop :=
  ∀ τ < T, (s τ).core.state = .fetch → (s τ).core.pc.toNat < 0xB0

/-- In cycle `T` the ROM has handed over to the program it received, whose last bit ended in cycle `last`. -/
structure Loads (s : Nat → Top) (prog : List (BitVec 8)) (last T : Nat) : Prop where
  fetch : (s T).core.state = .fetch
  pc : (s T).core.pc = 0xB4
  first : RomUntil s T
  received : last ≤ T
  loaded : ∀ i < prog.length, (s T).mem.ramByte (0xB4 + i) = prog.getD i 0
  rest : ∀ b, 0xB0 ≤ b → b ≤ 0xDF → ¬ (0xB4 ≤ b ∧ b < 0xB4 + prog.length) →
    (s T).mem.ramByte b = (s 0).mem.ramByte b
  flash_mode : (s T).mem.flash_mode = false
  flash_page : (s T).mem.flash_page = 0
  uo_out : (s T).uo_out = (demoWrites s T).getLastD 0

/-- The flash is not selected or configured, and a store goes to the self-test, the LEDs or the load
window. -/
structure Confined (s : Top) : Prop where
  flash_mode : s.mem.flash_mode = false
  flash_page : s.mem.flash_page = 0
  cs0 : s.eng.pin_cs0 = true
  store : s.core.mem_we = true → s.core.mem_addr = 0xE0 ∨ s.core.mem_addr = 0xF0 ∨
    (0xB4 ≤ s.core.mem_addr.toNat ∧ s.core.mem_addr.toNat ≤ 0xDF)

/-- The demo loop has not sampled START before cycle `L`: START is low in every `ST_WB` of its load. -/
def NotStarted (inp : Nat → Inputs) (s : Nat → Top) (L : Nat) : Prop :=
  ∀ τ < L, (s τ).core.state = .wb → (s τ).core.pc.toNat = 4 * MAIN_LOOP → start (inp τ).ui_in = false

/-- A store to the LEDs is on the bus. -/
def LedStore (s : Top) : Prop := s.core.mem_we = true ∧ s.core.mem_addr = 0xF0

/-- The PSRAM gave the byte of the self-test back, in the transaction that starts in cycle 101. -/
def Passes (inp : Nat → Inputs) : Prop :=
  (sampledWord (fun τ => (inp τ).miso) 101 1).extractLsb' 0 8 = 0xA5

instance (inp : Nat → Inputs) : Decidable (Passes inp) := inferInstanceAs (Decidable (_ = _))

/-- In cycle `t` the transaction of a one-byte request to address 0 of CS1 starts. -/
structure OneByte (inp : Nat → Inputs) (s : Nat → Top) (t : Nat) : Prop where
  dev : (s t).req.dev = 2
  addr : (s t).req.addr = 0
  size : (s t).req.size = 0
  transaction : Qspi.Transaction (fun τ => (s τ).eng) (fun τ => (inp τ).miso) (s t).req t

/-- What the self-test leaves in the LEDs. -/
def verdict (inp : Nat → Inputs) : BitVec 8 := if Passes inp then 0 else 0x80

/-- The cycle of the first fetch of MAIN_LOOP. -/
def demoStart (inp : Nat → Inputs) : Nat := if Passes inp then 206 else 220

/-- A length byte of at least 46 and 46 data bytes are heard on the pins. -/
def Overruns (inp : Nat → Inputs) : Prop :=
  ∃ n, Overrun (listens (fun τ => (inp τ).ui_in) (demoStart inp) n).heard

/-- A host that sends the message with START high from the first cycle, 1024 cycles for each phase of
CLOCK. -/
def wave (msg : List (BitVec 8)) (τ : Nat) : Inputs where
  ui_in := BitVec.ofNat 8
    (4 + (if τ / 1024 % 2 = 1 then 2 else 0) + (if messageBit msg (τ / 2048) then 1 else 0))
  miso := false

/-- A chip that has not been reset. -/
def powerUp : Top where
  core := ⟨.fetch, 0, 0, 0, 0, fun _ => 0, 0, 0, 0, false, false⟩
  mem := ⟨⟨fun _ => 0, false, 0, 0⟩, ⟨.idle, 0, 0, 0, 0, 0, false, true, true, false, true⟩⟩

end Boot

end Pineapple
