import Mathlib.Algebra.Group.Nat.Defs
import Mathlib.Tactic.Common

/-!
# Regions of a wrapping address space

A region of an `n`-bit address space is given by its base and its size; it may wrap around.  `Contains`
says that each of the `w` bytes from an address on lies in the region, with addresses modulo `2^n`.
`contains_iff` reduces it to one number, the distance from the address up to the end of the region:
the address is at most `size` below the end (`Near`), and at least `w` below it.
-/

namespace TorEbpf.Lib

/-- A region `[base, base + size)` of addresses modulo `2^n`. -/
structure Region (n : ℕ) where
  base : BitVec n
  size : ℕ
  size_lt : size < 2 ^ n

namespace Region

variable {n : ℕ}

def top (r : Region n) : BitVec n := r.base + BitVec.ofNat n r.size

/-- The `w` bytes from `a` on lie in the region. -/
def Contains (r : Region n) (a : BitVec n) (w : ℕ) : Prop :=
  ∀ k < w, (a + BitVec.ofNat n k - r.base).toNat < r.size

/-- The address is in the region or the first one after it. -/
def Near (r : Region n) (a : BitVec n) : Prop := (r.top - a).toNat ≤ r.size

theorem top_sub (r : Region n) (y : BitVec n) :
    r.top - (r.base + y) = BitVec.ofNat n r.size - y := by
  rw [top, ← BitVec.sub_sub, BitVec.add_comm r.base, BitVec.add_sub_cancel]

/-- **A region contains an access** iff the access starts in it, at least its width below the end. -/
theorem contains_iff (r : Region n) (a : BitVec n) {w : ℕ} (hw : 0 < w) :
    r.Contains a w ↔ r.Near a ∧ w ≤ (r.top - a).toNat := by
  have hsize := r.size_lt
  obtain ⟨y, rfl⟩ : ∃ y, a = r.base + y :=
    ⟨a - r.base, by rw [BitVec.add_comm, BitVec.sub_add_cancel]⟩
  have hoff : ∀ k < 2 ^ n, (r.base + y + BitVec.ofNat n k - r.base).toNat
      = (y.toNat + k) % 2 ^ n := by
    intro k hk
    rw [BitVec.add_assoc, BitVec.add_comm r.base, BitVec.add_sub_cancel, BitVec.toNat_add,
      BitVec.toNat_ofNat, Nat.mod_eq_of_lt hk]
  have hy := y.isLt
  have hdist : (r.top - (r.base + y)).toNat = (2 ^ n - y.toNat + r.size) % 2 ^ n := by
    rw [top_sub, BitVec.toNat_sub, BitVec.toNat_ofNat, Nat.mod_eq_of_lt hsize]
  unfold Contains Near
  rw [hdist]
  constructor
  · intro h
    have h₀ := h 0 hw
    rw [hoff 0 (by omega), Nat.add_zero, Nat.mod_eq_of_lt hy] at h₀
    have hd : (2 ^ n - y.toNat + r.size) % 2 ^ n = r.size - y.toNat := by
      rw [show 2 ^ n - y.toNat + r.size = r.size - y.toNat + 2 ^ n from by omega,
        Nat.add_mod_right, Nat.mod_eq_of_lt (by omega)]
    rw [hd]
    refine ⟨by omega, ?_⟩
    -- otherwise the byte at the end of the region would be one of the access
    by_contra hlt
    have hk := h (r.size - y.toNat) (by omega)
    rw [hoff _ (by omega), Nat.mod_eq_of_lt (by omega)] at hk
    omega
  · rintro ⟨hnear, hwd⟩ k hk
    rcases Nat.lt_or_ge r.size y.toNat with hlt | hge
    · rw [Nat.mod_eq_of_lt (by omega)] at hnear
      omega
    · rw [show 2 ^ n - y.toNat + r.size = r.size - y.toNat + 2 ^ n from by omega,
        Nat.add_mod_right, Nat.mod_eq_of_lt (by omega)] at hwd
      rw [hoff k (by omega), Nat.mod_eq_of_lt (by omega)]
      omega

/-- Two regions that have no address in common, the one after each included. -/
def Apart (r r' : Region n) : Prop := ∀ a, r.Near a → ¬r'.Near a

theorem Apart.symm {r r' : Region n} (h : r.Apart r') : r'.Apart r :=
  fun a h' hr => h a hr h'

theorem near_base (r : Region n) : r.Near r.base := by
  have h := r.top_sub 0#n
  rw [BitVec.add_zero, BitVec.sub_zero] at h
  unfold Near
  rw [h, BitVec.toNat_ofNat]
  exact Nat.mod_le _ _

/-- An access inside one of two regions apart is no closer to the end of the other than its width. -/
theorem Apart.le_distance {r r' : Region n} (h : r.Apart r') {a : BitVec n} {w : ℕ} (hw : 0 < w)
    (hc : r'.Contains a w) : w ≤ (r.top - a).toNat := by
  by_contra hlt
  rcases Nat.lt_or_ge r.size (r.top - a).toNat with hfar | hnear
  · -- the base of the one region is then a byte of the access
    have hbase : a + BitVec.ofNat n ((r.top - a).toNat - r.size) = r.base := by
      have hsub : BitVec.ofNat n ((r.top - a).toNat - r.size)
          = r.top - a - BitVec.ofNat n r.size := by
        apply BitVec.eq_of_toNat_eq
        have h₁ := (r.top - a).isLt
        have h₂ := r.size_lt
        generalize r.top - a = d at hfar h₁ ⊢
        rw [BitVec.toNat_ofNat, BitVec.toNat_sub, BitVec.toNat_ofNat, Nat.mod_eq_of_lt h₂,
          show 2 ^ n - r.size + d.toNat = d.toNat - r.size + 2 ^ n from by omega, Nat.add_mod_right]
      rw [hsub, BitVec.sub_sub, BitVec.add_comm a (BitVec.ofNat n r.size), ← BitVec.sub_sub,
        BitVec.add_comm, BitVec.sub_add_cancel, top, BitVec.add_sub_cancel]
    have hbyte : r'.Contains r.base 1 := by
      intro k hk
      obtain rfl : k = 0 := by omega
      have := hc ((r.top - a).toNat - r.size) (by omega)
      rw [hbase] at this
      simpa using this
    exact h r.base r.near_base ((r'.contains_iff r.base (by omega)).mp hbyte).1
  · exact h a hnear ((r'.contains_iff a hw).mp hc).1

end Region

end TorEbpf.Lib
