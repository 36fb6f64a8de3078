import Mathlib.Algebra.Group.Nat.Defs
import Mathlib.Logic.Function.Basic
import Mathlib.Tactic.Common
import Pineapple.Bits.LittleEndian

/-!
# Byte memories

A memory with one byte at each `w`-bit address. Addresses wrap around.
-/

namespace Bits

abbrev ByteMemory (w : Nat) := BitVec w → BitVec 8

namespace ByteMemory

variable {w : Nat} (mem : ByteMemory w) (a : BitVec w)

/-- The `n` bytes from address `a` on. -/
def load (n : Nat) : List (BitVec 8) := (List.range n).map fun k => mem (a + BitVec.ofNat w k)

/-- The memory after the bytes `b 0, …, b (n - 1)` were stored from address `a` on. -/
def store (b : Nat → BitVec 8) (n : Nat) : ByteMemory w := fun i =>
  if (i - a).toNat < n then b (i - a).toNat else mem i

@[simp] theorem store_zero (b : Nat → BitVec 8) : mem.store a b 0 = mem := by
  funext i
  simp [store]

theorem store_congr {b b' : Nat → BitVec 8} {n : Nat} (h : ∀ k < n, b k = b' k) :
    mem.store a b n = mem.store a b' n := by
  funext i
  unfold store
  split
  · rename_i hi
    exact h _ hi
  · rfl

/-- What was stored is loaded. -/
theorem load_store (b : Nat → BitVec 8) (n : Nat) (hn : n ≤ 2 ^ w) :
    load (mem.store a b n) a n = (List.range n).map b := by
  apply List.map_congr_left
  intro k hk
  have hlt : k < n := List.mem_range.mp hk
  have hoff : (a + BitVec.ofNat w k - a).toNat = k := by
    rw [BitVec.add_comm, BitVec.add_sub_cancel, BitVec.toNat_ofNat, Nat.mod_eq_of_lt (by omega)]
  rw [store, hoff, if_pos hlt]

/-- Storing one more byte. -/
theorem update_store (b : Nat → BitVec 8) (n : Nat) (hn : n < 2 ^ w) :
    Function.update (mem.store a b n) (a + BitVec.ofNat w n) (b n) = mem.store a b (n + 1) := by
  funext i
  by_cases hi : i = a + BitVec.ofNat w n
  · have hoff : (i - a).toNat = n := by
      rw [hi, BitVec.add_comm, BitVec.add_sub_cancel, BitVec.toNat_ofNat, Nat.mod_eq_of_lt hn]
    rw [hi, Function.update_self, ← hi, store, hoff, if_pos (Nat.lt_succ_self n)]
  · have hoff : (i - a).toNat ≠ n := by
      intro h
      apply hi
      rw [← h, BitVec.ofNat_toNat, BitVec.setWidth_eq, BitVec.add_comm, BitVec.sub_add_cancel]
    have hlt : (i - a).toNat < n + 1 ↔ (i - a).toNat < n := by omega
    rw [Function.update_of_ne hi, store, store]
    simp only [hlt]

end ByteMemory

end Bits
