import Mathlib.Algebra.Group.Nat.Defs
import Mathlib.Tactic.Common

/-!
# Bytes, numbers and fixed arrays

* `leNat`, `leBytes`, `beNat`, `beBytes` — numbers as bytes in the two orders, with the round trips.
* `slice` — the bytes of a buffer from an offset on.
* `Bytes n` — an array of exactly `n` bytes; `Bytes.pad` is such an array cleared and then filled from
  its start, `Bytes.write` overwrites a part of it.  `Bytes.pad_write`: to write right behind what an
  array was filled with is to have filled it with more.
-/

namespace TorEbpf.Lib

/-! ### Numbers -/

/-- The number with the given bytes, least significant first. -/
def leNat : List UInt8 → ℕ
  | [] => 0
  | b :: bs => b.toNat + 256 * leNat bs

/-- The low `n` bytes of a number, least significant first. -/
def leBytes : ℕ → ℕ → List UInt8
  | 0, _ => []
  | n + 1, v => UInt8.ofNat (v % 256) :: leBytes n (v / 256)

/-- The number with the given bytes, most significant first. -/
def beNat (l : List UInt8) : ℕ := leNat l.reverse

/-- The low `n` bytes of a number, most significant first. -/
def beBytes (n v : ℕ) : List UInt8 := (leBytes n v).reverse

@[simp] theorem leBytes_length (n v : ℕ) : (leBytes n v).length = n := by
  induction n generalizing v with
  | zero => rfl
  | succ n ih => rw [leBytes, List.length_cons, ih]

@[simp] theorem beBytes_length (n v : ℕ) : (beBytes n v).length = n := by
  rw [beBytes, List.length_reverse, leBytes_length]

theorem leNat_lt (l : List UInt8) : leNat l < 256 ^ l.length := by
  induction l with
  | nil => decide
  | cons b bs ih =>
    have hb := b.toNat_lt
    rw [leNat, List.length_cons, Nat.pow_succ]
    omega

theorem leNat_append (l m : List UInt8) : leNat (l ++ m) = leNat l + 256 ^ l.length * leNat m := by
  induction l with
  | nil => rw [List.nil_append, leNat, List.length_nil, Nat.pow_zero, Nat.zero_add, Nat.one_mul]
  | cons b l ih =>
    rw [List.cons_append, leNat, leNat, ih, List.length_cons, Nat.pow_succ', Nat.mul_add, Nat.mul_assoc,
      Nat.add_assoc]

theorem beNat_append (l m : List UInt8) : beNat (l ++ m) = beNat l * 256 ^ m.length + beNat m := by
  rw [beNat, List.reverse_append, leNat_append, List.length_reverse, Nat.add_comm, Nat.mul_comm]
  rfl

theorem beNat_cons (b : UInt8) (l : List UInt8) : beNat (b :: l) = b.toNat * 256 ^ l.length + beNat l := by
  have happend := beNat_append [b] l
  rwa [List.singleton_append] at happend

theorem beNat_lt (l : List UInt8) : beNat l < 256 ^ l.length := by
  have hlt := leNat_lt l.reverse
  rwa [List.length_reverse] at hlt

theorem leNat_leBytes {n v : ℕ} (h : v < 256 ^ n) : leNat (leBytes n v) = v := by
  induction n generalizing v with
  | zero =>
    rw [Nat.pow_zero] at h
    rw [leBytes, leNat]
    omega
  | succ n ih =>
    rw [Nat.pow_succ] at h
    have hdiv : v / 256 < 256 ^ n := Nat.div_lt_of_lt_mul (by omega)
    have hb : (UInt8.ofNat (v % 256)).toNat = v % 256 :=
      UInt8.toNat_ofNat_of_lt' (Nat.mod_lt _ (by decide))
    rw [leBytes, leNat, ih hdiv, hb]
    omega

theorem beNat_beBytes {n v : ℕ} (h : v < 256 ^ n) : beNat (beBytes n v) = v := by
  rw [beNat, beBytes, List.reverse_reverse, leNat_leBytes h]

/-! ### Buffers -/

/-- `n` bytes of a buffer from `off` on. -/
def slice (l : List UInt8) (off n : ℕ) : List UInt8 := (l.drop off).take n

theorem slice_length {l : List UInt8} {off n : ℕ} (h : off + n ≤ l.length) :
    (slice l off n).length = n := by
  rw [slice, List.length_take, List.length_drop]
  omega

theorem slice_append_right {l m : List UInt8} {off k n : ℕ} (h : off = l.length + k) :
    slice (l ++ m) off n = slice m k n := by
  rw [slice, slice, h, List.drop_append, List.drop_eq_nil_of_le (by omega), List.nil_append,
    Nat.add_sub_cancel_left]

theorem slice_append_left {l m : List UInt8} {n : ℕ} (h : n = l.length) :
    slice (l ++ m) 0 n = l := by
  rw [slice, List.drop_zero, h, List.take_left]

theorem slice_append_of_le {l m : List UInt8} {off n : ℕ} (h : off + n ≤ l.length) :
    slice (l ++ m) off n = slice l off n := by
  rw [slice, slice, List.drop_append_of_le_length (by omega),
    List.take_append_of_le_length (by rw [List.length_drop]; omega)]

theorem slice_append_mid {l m r : List UInt8} {off n : ℕ} (hoff : off = l.length)
    (hn : n = m.length) : slice (l ++ m ++ r) off n = m := by
  rw [List.append_assoc, slice_append_right (k := 0) (by omega), slice_append_left hn]

theorem slice_append_end {l m : List UInt8} {off n : ℕ} (hoff : off = l.length)
    (hn : n = m.length) : slice (l ++ m) off n = m := by
  rw [slice_append_right (k := 0) (by omega), slice, List.drop_zero, hn, List.take_length]

/-! ### Arrays -/

/-- An array of `n` bytes. -/
structure Bytes (n : ℕ) where
  val : List UInt8
  length_eq : val.length = n
  deriving DecidableEq, Repr

/-- An array cleared and then filled from its start with `l`; what does not fit is cut off. -/
def Bytes.pad (n : ℕ) (l : List UInt8) : Bytes n where
  val := (l ++ List.replicate n 0).take n
  length_eq := by
    rw [List.length_take, List.length_append, List.length_replicate]
    omega

theorem Bytes.pad_val {n : ℕ} (b : Bytes n) : Bytes.pad n b.val = b := by
  have hval : (b.val ++ List.replicate n 0).take n = b.val := by
    rw [List.take_append_of_le_length (Nat.le_of_eq b.length_eq.symm),
      List.take_of_length_le (Nat.le_of_eq b.length_eq)]
  cases b
  unfold Bytes.pad
  congr 1

theorem Bytes.pad_take {n : ℕ} {l : List UInt8} (h : l.length ≤ n) :
    (Bytes.pad n l).val.take l.length = l := by
  show ((l ++ List.replicate n 0).take n).take l.length = l
  rw [List.take_take, Nat.min_eq_left h, List.take_left]

theorem slice_take {l : List UInt8} {off k n : ℕ} (h : off + k ≤ n) :
    slice (l.take n) off k = slice l off k := by
  rw [slice, slice, List.drop_take, List.take_take, Nat.min_eq_left (by omega)]

theorem Bytes.slice_pad {n : ℕ} {l : List UInt8} {off k : ℕ} (hk : off + k ≤ l.length)
    (hn : l.length ≤ n) : slice (Bytes.pad n l).val off k = slice l off k := by
  show slice ((l ++ List.replicate n 0).take n) off k = slice l off k
  rw [slice_take (by omega), slice_append_of_le hk]

/-- The array with the bytes from `off` on overwritten with `m`. -/
def Bytes.write {n : ℕ} (b : Bytes n) (off : ℕ) (m : List UInt8) (h : off + m.length ≤ n) :
    Bytes n where
  val := b.val.take off ++ m ++ b.val.drop (off + m.length)
  length_eq := by
    have hb := b.length_eq
    rw [List.length_append, List.length_append, List.length_take, List.length_drop, hb]
    omega

/-- **Writing right behind** what the array was filled with. -/
theorem Bytes.pad_write {n : ℕ} {l m : List UInt8} (h : l.length + m.length ≤ n) :
    (Bytes.pad n l).write l.length m h = Bytes.pad n (l ++ m) := by
  have hrest : ((l ++ List.replicate n 0).take n).drop (l.length + m.length)
      = List.replicate (n - (l.length + m.length)) (0 : UInt8) := by
    rw [List.drop_take, List.drop_append, List.drop_eq_nil_of_le (by omega), List.nil_append,
      Nat.add_sub_cancel_left, List.drop_replicate, List.take_replicate]
    congr 1
    omega
  have hval : ((l ++ List.replicate n 0).take n).take l.length ++ m
      ++ ((l ++ List.replicate n 0).take n).drop (l.length + m.length)
      = (l ++ m ++ List.replicate n 0).take n := by
    have hlm : (l ++ m).length ≤ n := by rwa [List.length_append]
    rw [hrest, List.take_take, Nat.min_eq_left (by omega), List.take_left, List.take_append,
      List.take_of_length_le hlm, List.take_replicate, List.length_append,
      Nat.min_eq_left (Nat.sub_le ..)]
  unfold Bytes.write Bytes.pad
  congr 1

theorem Bytes.zero_mem_pad {n : ℕ} {l : List UInt8} (h : l.length < n) :
    0 ∈ (Bytes.pad n l).val := by
  show 0 ∈ (l ++ List.replicate n 0).take n
  rw [List.take_append, List.take_of_length_le (by omega), List.take_replicate]
  refine List.mem_append_right _ (List.mem_replicate.mpr ⟨?_, rfl⟩)
  omega

end TorEbpf.Lib
