import Pineapple.Isa.Rv32i
import Pineapple.Rtl.BootRom

/-!
# The boot program

The instructions of the boot ROM as `build_boot_rom.py` writes them, with its labels. `decode_boot` ties
them to the words of the ROM.
-/

namespace Pineapple

open Rv32i (Instr)

namespace Boot

/-- The addresses of the labels, as word indices. -/
def MAIN_INIT : Nat := 8
def MAIN_LOOP : Nat := 9
def START_SEEN : Nat := 17
def BYTE_LOOP : Nat := 20
def RUN : Nat := 26
def RECV_BYTE : Nat := 27
def BIT_WAIT_HIGH : Nat := 29
def BIT_WAIT_LOW : Nat := 37

def program : List Instr :=
  [ -- SELFTEST
   .opImm .addi 2 0 0xA5, .store .sb 2 0 0xE0, .load .lbu 6 0 0xE0, .branch .beq 6 2 0x10,
   .opImm .addi 8 0 1, .shift .slli 8 8 7, .jal 0 8,
   -- SELFTEST_PASS
   .opImm .addi 8 0 0,
   -- MAIN_INIT
   .opImm .addi 9 0 0,
   -- MAIN_LOOP
   .load .lw 2 0 0xF4, .opImm .andi 2 2 4, .branch .bne 2 0 0x18, .opImm .addi 9 9 1,
   .opImm .andi 9 9 0xF, .opReg .or 2 8 9, .store .sw 2 0 0xF0, .jal 0 0x1FFFE4,
   -- START_SEEN
   .jal 1 0x28, .opReg .add 4 6 0, .opImm .addi 5 0 0xB4,
   -- BYTE_LOOP
   .branch .beq 4 0 0x18, .jal 1 0x18, .store .sb 6 5 0, .opImm .addi 5 5 1,
   .opImm .addi 4 4 0xFFF, .jal 0 0x1FFFEC,
   -- RUN
   .jal 0 0x4C,
   -- RECV_BYTE
   .opImm .addi 6 0 0, .opImm .addi 7 0 0,
   -- BIT_WAIT_HIGH
   .load .lw 2 0 0xF4, .opImm .andi 2 2 2, .branch .beq 2 0 0x1FF8, .load .lw 2 0 0xF4,
   .opImm .andi 2 2 1, .shift .slli 6 6 1, .branch .beq 2 0 8, .opImm .ori 6 6 1,
   -- BIT_WAIT_LOW
   .load .lw 2 0 0xF4, .opImm .andi 2 2 2, .branch .bne 2 0 0x1FF8, .opImm .addi 7 7 1,
   .opImm .addi 3 0 8, .branch .blt 7 3 0x1FCC, .jalr 0 1 0]

theorem decode_boot : bootRomWords.map Rv32i.decode = program.map some := by decide

end Boot

end Pineapple
