import Mathlib.Algebra.GroupWithZero.Nat
import Mathlib.Data.List.Basic

/-!
# Ring buffers with running counters

A buffer of fixed size with the number of elements taken out and the number put in, both of them
words of `w` bits that are never reset. The place of an element is its number modulo the size, so
when the size divides the range of the words, the counters may run over: what counts is their
difference. The elements inside are `contents`, oldest first.
-/

set_option autoImplicit false

namespace Irish.Library

structure RingBuffer (w : ℕ) (α : Type*) (size : ℕ) where
  data : Fin size → α
  nread : BitVec w
  nwrite : BitVec w

namespace RingBuffer

variable {w size k n m : ℕ} {α : Type*} [NeZero size] {b : RingBuffer w α size} {x : α}

/-- The place of an element by its number. -/
def place (size : ℕ) [NeZero size] (n : ℕ) : Fin size := Fin.ofNat size n

/-- The number of elements inside. -/
def count (b : RingBuffer w α size) : ℕ := (b.nwrite - b.nread).toNat

def contents (b : RingBuffer w α size) : List α :=
  (List.range b.count).map fun k ↦ b.data (place size (b.nread.toNat + k))

/-- Put an element in. -/
def push (x : α) (b : RingBuffer w α size) : RingBuffer w α size :=
  { b with data := Function.update b.data (place size b.nwrite.toNat) x,
           nwrite := b.nwrite + 1#w }

/-- The oldest element. -/
def front (b : RingBuffer w α size) : α := b.data (place size b.nread.toNat)

/-- Take the oldest element out. -/
def pop (b : RingBuffer w α size) : RingBuffer w α size := { b with nread := b.nread + 1#w }

theorem length_contents : b.contents.length = b.count := by simp [contents]

omit [NeZero size] in
theorem nwrite_eq : b.nwrite.toNat = (b.nread.toNat + b.count) % 2 ^ w := by
  have hsum : b.nread + (b.nwrite - b.nread) = b.nwrite := by
    rw [BitVec.add_comm, BitVec.sub_add_cancel]
  rw [count, ← BitVec.toNat_add, hsum]

omit [NeZero size] in
theorem count_eq_iff (hk : k < 2 ^ w) : b.nwrite = b.nread + BitVec.ofNat w k ↔ b.count = k := by
  have hcount : b.count = k ↔ b.nwrite - b.nread = BitVec.ofNat w k := by
    rw [count, BitVec.toNat_eq, BitVec.toNat_ofNat, Nat.mod_eq_of_lt hk]
  rw [hcount, BitVec.sub_eq_iff_eq_add, BitVec.add_comm]

omit [NeZero size] in
theorem count_eq_zero : b.nread = b.nwrite ↔ b.count = 0 := by
  rw [← count_eq_iff (Nat.two_pow_pos w), BitVec.add_zero, eq_comm]

omit [NeZero size] in
theorem nwrite_eq_add : b.nwrite = b.nread + BitVec.ofNat w b.count :=
  (count_eq_iff (BitVec.isLt _)).mpr rfl

theorem count_push (h : b.count + 1 < 2 ^ w) : (b.push x).count = b.count + 1 := by
  rw [← count_eq_iff h, BitVec.ofNat_add, ← BitVec.add_assoc]
  exact congrArg (· + 1#w) nwrite_eq_add

omit [NeZero size] in
theorem count_pop (h : 0 < b.count) : b.pop.count = b.count - 1 := by
  have hlt : b.count - 1 < 2 ^ w := Nat.lt_of_le_of_lt (Nat.sub_le _ _) (BitVec.isLt _)
  have hcount : b.count = 1 + (b.count - 1) := by omega
  rw [← count_eq_iff hlt]
  calc b.nwrite = b.nread + BitVec.ofNat w (1 + (b.count - 1)) := by rw [← hcount, ← nwrite_eq_add]
    _ = b.nread + 1#w + BitVec.ofNat w (b.count - 1) := by rw [BitVec.ofNat_add, BitVec.add_assoc]

/-- The counters may run over. -/
theorem place_mod (hdvd : size ∣ 2 ^ w) (n : ℕ) : place size (n % 2 ^ w) = place size n := by
  rw [place, place, Fin.ext_iff, Fin.val_ofNat, Fin.val_ofNat, Nat.mod_mod_of_dvd n hdvd]

theorem place_ne (hkm : k < m) (hm : m < size) : place size (n + k) ≠ place size (n + m) := by
  intro h
  have hmod : (n + k) % size = (n + m) % size := by
    rwa [place, place, Fin.ext_iff, Fin.val_ofNat, Fin.val_ofNat] at h
  have hdvd : size ∣ (n + m) - (n + k) :=
    Nat.dvd_of_mod_eq_zero (Nat.sub_mod_eq_zero_of_mod_eq hmod.symm)
  have hzero : (n + m) - (n + k) = 0 := Nat.eq_zero_of_dvd_of_lt hdvd (by omega)
  omega

theorem contents_push (hdvd : size ∣ 2 ^ w) (hsize : size < 2 ^ w) (h : b.count < size) :
    (b.push x).contents = b.contents ++ [x] := by
  have hlast : place size b.nwrite.toNat = place size (b.nread.toNat + b.count) := by
    rw [nwrite_eq, place_mod hdvd]
  rw [contents, count_push (by omega), List.range_succ, List.map_append, List.map_singleton]
  congr 1
  · refine List.map_congr_left fun k hk ↦ ?_
    have hne := place_ne (n := b.nread.toNat) (List.mem_range.mp hk) h
    simp only [push, hlast, Function.update_of_ne hne]
  · simp only [push, hlast, Function.update_self]

theorem contents_pop (hdvd : size ∣ 2 ^ w) (h : 0 < b.count) :
    b.contents = b.front :: b.pop.contents := by
  have hcount : b.count = b.pop.count + 1 := by
    rw [count_pop h]
    omega
  rw [contents, contents, hcount, List.range_succ_eq_map, List.map_cons, List.map_map]
  congr 1
  refine List.map_congr_left fun k _ ↦ ?_
  have hnext : (b.nread + 1#w).toNat = (b.nread.toNat + 1) % 2 ^ w := by
    rw [BitVec.toNat_add, BitVec.toNat_ofNat, Nat.add_mod_mod]
  have hplace : place size ((b.nread + 1#w).toNat + k) = place size (b.nread.toNat + (k + 1)) := by
    rw [hnext, ← place_mod hdvd, Nat.mod_add_mod, place_mod hdvd]
    congr 1
    omega
  simp only [Function.comp, pop, hplace]

end RingBuffer

end Irish.Library
