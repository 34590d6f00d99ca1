import Mathlib
import TorEbpf.Lib.Bytes
import TorEbpf.Lib.Checked
import TorEbpf.Or.Policies

/-!
# Data-independent operations

`tor_memcmp`, `tor_memeq` and the map of digests of `di_ops.c`.  None of them branches on the data: the result
is collected over all of it, under masks that are made by subtracting one and shifting.

* `toInt_torMemcmp` — the result is that of the comparison that overrides;
* `torMemeq_eq` — the mask at the end of `tor_memeq`;
* `dimapSearch_eq` — a search goes through the whole map, and keeps the last match;
* `diOps_agree` — the operations do what the plain ones do.
-/

namespace TorEbpf.Ctime

open TorEbpf.Lib

/-! ### The operations -/

/-- A byte as an `int`. -/
def widen (x : UInt8) : BitVec 32 := x.toBitVec.setWidth 32

/-- A round of the loop of `tor_memcmp`: `equal_p` is `-(v1 == v2)` after the arithmetic shift. -/
def memcmpStep (v : UInt8 × UInt8) (retval : BitVec 32) : BitVec 32 :=
  let v1 := widen v.1
  let v2 := widen v.2
  let equalP := ((v1 ^^^ v2) - 1).sshiftRight 8
  (retval &&& equalP) + (v1 - v2)

/-- `tor_memcmp`: the loop goes from the end of the arrays to the start. -/
def torMemcmp (a b : List UInt8) : BitVec 32 := (a.zip b).foldr memcmpStep 0#32

def torMemeq (a b : List UInt8) : BitVec 32 :=
  let anyDifference : BitVec 32 := (a.zip b).foldl (fun any v => any ||| widen (v.1 ^^^ v.2)) 0#32
  1 &&& ((anyDifference - 1) >>> 8)

section Dimap

variable {w : ℕ}

/-- `di_digest256_map_t`: the entries from the one that was added last, with their values as `uintptr_t`. -/
abbrev Dimap (w : ℕ) := List (Bytes 32 × BitVec w)

def dimapSearch (map : Dimap w) (key : Bytes 32) (dfltVal : BitVec w) : BitVec w :=
  map.foldl
    (fun result ent =>
      let r := (torMemeq ent.1.val key.val).setWidth w - 1
      (result &&& r) ||| (ent.2 &&& ~~~r))
    dfltVal

/-- `dimap_add_entry`, with its two assertions. -/
def dimapAddEntry (map : Dimap w) (ent : Bytes 32 × BitVec w) : Checked Unit Unit (Dimap w) :=
  if dimapSearch map ent.1 0 ≠ 0 then fault ()
  else if ent.2 = 0 then fault ()
  else .ok (ent :: map)

def dimapBuild (entries : List (Bytes 32 × BitVec w)) : Checked Unit Unit (Dimap w) :=
  entries.foldlM dimapAddEntry []

end Dimap

/-! ### Comparing -/

/-- The masks, for every difference of two bytes. -/
theorem mask_signed (e : BitVec 8) :
    (e.setWidth 32 - 1).sshiftRight 8 = if e = 0#8 then BitVec.allOnes 32 else 0#32 := by
  revert e
  decide

theorem mask_unsigned (e : BitVec 8) : 1 &&& ((e.setWidth 32 - 1) >>> 8) = if e = 0#8 then 1#32 else 0#32 := by
  revert e
  decide

theorem widen_xor (x y : UInt8) : widen x ^^^ widen y = (x.toBitVec ^^^ y.toBitVec).setWidth 32 := by
  rw [widen, widen, BitVec.setWidth_xor]

theorem xor_eq_zero_iff (x y : UInt8) : x.toBitVec ^^^ y.toBitVec = 0#8 ↔ x = y := by
  rw [BitVec.xor_eq_zero_iff, UInt8.toBitVec_inj]

/-- **A round** leaves the result, or overrides it. -/
theorem memcmpStep_eq (v : UInt8 × UInt8) (retval : BitVec 32) :
    memcmpStep v retval = if v.1 = v.2 then retval else widen v.1 - widen v.2 := by
  unfold memcmpStep
  dsimp only
  rw [widen_xor, mask_signed]
  simp only [xor_eq_zero_iff]
  split_ifs with heq
  · rw [heq, BitVec.and_allOnes, BitVec.sub_self, BitVec.add_zero]
  · simp

theorem toInt_widen_sub (x y : UInt8) : (widen x - widen y).toInt = (x.toNat : ℤ) - y.toNat := by
  have hx := x.toNat_lt
  have hy := y.toNat_lt
  have hwx : (widen x).toNat = x.toNat := by
    unfold widen
    rw [BitVec.toNat_setWidth, UInt8.toNat_toBitVec]
    omega
  have hwy : (widen y).toNat = y.toNat := by
    unfold widen
    rw [BitVec.toNat_setWidth, UInt8.toNat_toBitVec]
    omega
  rw [BitVec.toInt_sub, BitVec.toInt_eq_toNat_bmod, BitVec.toInt_eq_toNat_bmod, hwx, hwy]
  simp only [Int.bmod_def]
  omega

/-- The masks select the first difference, as the comparison of addresses models it. -/
theorem toInt_torMemcmp (a b : List UInt8) : (torMemcmp a b).toInt = Or.torMemcmp a b := by
  unfold torMemcmp Or.torMemcmp
  induction a.zip b with
  | nil => rfl
  | cons v l ih =>
    rw [List.foldr_cons, List.foldr_cons, memcmpStep_eq, ← ih]
    split_ifs
    · rfl
    · exact toInt_widen_sub v.1 v.2

/-- The sign of the result says how the strings compare. -/
structure MemcmpOk (a b : List UInt8) : Prop where
  neg_iff : (torMemcmp a b).toInt < 0 ↔ a < b
  zero_iff : (torMemcmp a b).toInt = 0 ↔ a = b
  pos_iff : 0 < (torMemcmp a b).toInt ↔ b < a

/-- **`tor_memcmp`** compares as `memcmp` does: the first difference counts. -/
theorem memcmpOk {a b : List UInt8} (hlen : a.length = b.length) : MemcmpOk a b := by
  induction a generalizing b with
  | nil =>
    obtain rfl := List.length_eq_zero_iff.mp hlen.symm
    exact ⟨by decide, by decide, by decide⟩
  | cons x a ih =>
    obtain ⟨y, b, rfl⟩ := List.exists_cons_of_length_eq_add_one hlen.symm
    have hrest := ih (Nat.succ_injective hlen)
    have hstep : (torMemcmp (x :: a) (y :: b)).toInt =
        if x = y then (torMemcmp a b).toInt else (x.toNat : ℤ) - y.toNat := by
      rw [toInt_torMemcmp, toInt_torMemcmp]
      rfl
    by_cases hxy : x = y
    · subst hxy
      rw [if_pos rfl] at hstep
      refine ⟨?_, ?_, ?_⟩
      · rw [hstep, hrest.neg_iff, List.cons_lt_cons_self]
      · rw [hstep, hrest.zero_iff, List.cons.injEq, and_iff_right rfl]
      · rw [hstep, hrest.pos_iff, List.cons_lt_cons_self]
    · rw [if_neg hxy] at hstep
      have hne : x.toNat ≠ y.toNat := fun h => hxy (UInt8.toNat_inj.mp h)
      refine ⟨?_, ?_, ?_⟩
      · rw [hstep, List.cons_lt_cons_iff, UInt8.lt_iff_toNat_lt]
        simp only [hxy, false_and, or_false]
        omega
      · rw [hstep, List.cons.injEq]
        simp only [hxy, false_and, iff_false]
        omega
      · rw [hstep, List.cons_lt_cons_iff, UInt8.lt_iff_toNat_lt]
        simp only [Ne.symm hxy, false_and, or_false]
        omega

/-! ### Equality -/

/-- All differences of two strings. -/
def differences (a b : List UInt8) : BitVec 8 :=
  (a.zip b).foldl (fun any v => any ||| (v.1.toBitVec ^^^ v.2.toBitVec)) 0#8

/-- The loop of `tor_memeq` stays in the lowest byte. -/
theorem foldl_widen (l : List (UInt8 × UInt8)) (any : BitVec 8) :
    l.foldl (fun any v => any ||| widen (v.1 ^^^ v.2)) (any.setWidth 32) =
      (l.foldl (fun any v => any ||| (v.1.toBitVec ^^^ v.2.toBitVec)) any).setWidth 32 := by
  induction l generalizing any with
  | nil => rfl
  | cons v l ih =>
    rw [List.foldl_cons, List.foldl_cons, ← ih, BitVec.setWidth_or]
    rfl

theorem foldl_or_eq_zero_iff (l : List (UInt8 × UInt8)) (any : BitVec 8) :
    l.foldl (fun any v => any ||| (v.1.toBitVec ^^^ v.2.toBitVec)) any = 0#8 ↔
      any = 0#8 ∧ ∀ v ∈ l, v.1 = v.2 := by
  induction l generalizing any with
  | nil => simp
  | cons v l ih =>
    rw [List.foldl_cons, ih, BitVec.or_eq_zero_iff, xor_eq_zero_iff, List.forall_mem_cons, and_assoc]

/-- **`tor_memeq`** is 1 for equal strings, and 0 for others. -/
theorem torMemeq_eq {a b : List UInt8} (hlen : a.length = b.length) :
    torMemeq a b = if a = b then 1#32 else 0#32 := by
  have hzero : differences a b = 0#8 ↔ a = b := by
    unfold differences
    rw [foldl_or_eq_zero_iff, and_iff_right rfl]
    constructor
    · intro h
      refine List.ext_getElem hlen fun i ha hb => ?_
      have hmem : (a[i], b[i]) ∈ a.zip b := by
        have hi : i < (a.zip b).length := by
          rw [List.length_zip]
          omega
        have hget : (a.zip b)[i] = (a[i], b[i]) := List.getElem_zip
        exact hget ▸ List.getElem_mem hi
      exact h _ hmem
    · rintro rfl v hv
      obtain ⟨i, hi, rfl⟩ := List.getElem_of_mem hv
      rw [List.getElem_zip]
  unfold torMemeq
  have hfold := foldl_widen (a.zip b) 0#8
  rw [BitVec.setWidth_zero] at hfold
  rw [hfold]
  dsimp only
  rw [mask_unsigned]
  simp only [← hzero]
  rfl

/-! ### Maps -/

section Maps

variable {w : ℕ}

theorem Bytes.val_inj_iff {n : ℕ} (a b : Bytes n) : a.val = b.val ↔ a = b := by
  obtain ⟨a, ha⟩ := a
  obtain ⟨b, hb⟩ := b
  simp

theorem masked_eq (c : Prop) [Decidable c] (result val : BitVec w) :
    (result &&& ((if c then 1#32 else 0#32).setWidth w - 1)) |||
      (val &&& ~~~((if c then 1#32 else 0#32).setWidth w - 1)) = if c then val else result := by
  split_ifs
  · have hone : (1#32).setWidth w - 1 = 0#w := by
      have hsame : (1#32).setWidth w = 1#w := by
        apply BitVec.eq_of_toNat_eq
        rw [BitVec.toNat_setWidth, BitVec.toNat_ofNat, BitVec.toNat_ofNat]
      rw [hsame]
      exact BitVec.sub_self 1#w
    rw [hone]
    simp
  · have hzero : (0#32).setWidth w - 1 = BitVec.allOnes w := by
      rw [BitVec.setWidth_zero, BitVec.zero_sub]
      exact BitVec.neg_one_eq_allOnes
    rw [hzero]
    simp

/-- **A search** goes through all entries; one that has the key overrides the result. -/
theorem dimapSearch_eq (map : Dimap w) (key : Bytes 32) (dfltVal : BitVec w) :
    dimapSearch map key dfltVal =
      map.foldl (fun result ent => if ent.1 = key then ent.2 else result) dfltVal := by
  unfold dimapSearch
  congr
  funext result ent
  dsimp only
  rw [torMemeq_eq (by rw [ent.1.length_eq, key.length_eq]), masked_eq]
  simp only [Bytes.val_inj_iff]

theorem dimapSearch_of_not_mem {map : Dimap w} {key : Bytes 32} (h : ∀ ent ∈ map, ent.1 ≠ key)
    (dfltVal : BitVec w) : dimapSearch map key dfltVal = dfltVal := by
  rw [dimapSearch_eq]
  induction map with
  | nil => rfl
  | cons ent map ih =>
    rw [List.foldl_cons, if_neg (h ent List.mem_cons_self)]
    exact ih fun e he => h e (List.mem_cons_of_mem ent he)

theorem dimapSearch_of_mem {map : Dimap w} (hnodup : (map.map Prod.fst).Nodup) {ent : Bytes 32 × BitVec w}
    (hent : ent ∈ map) (dfltVal : BitVec w) : dimapSearch map ent.1 dfltVal = ent.2 := by
  rw [dimapSearch_eq]
  induction map generalizing dfltVal with
  | nil => cases hent
  | cons e map ih =>
    obtain ⟨hout, hnodup⟩ := List.nodup_cons.mp hnodup
    rw [List.foldl_cons]
    rcases List.mem_cons.mp hent with rfl | hent
    · have hrest : ∀ e' ∈ map, e'.1 ≠ ent.1 := fun e' he' heq => hout (heq ▸ List.mem_map_of_mem he')
      rw [if_pos rfl, ← dimapSearch_eq]
      exact dimapSearch_of_not_mem hrest ent.2
    · exact ih hnodup hent _

theorem dimapBuild_eq {entries : List (Bytes 32 × BitVec w)} {map map' : Dimap w}
    (h : entries.foldlM dimapAddEntry map = .ok map') : map' = entries.reverse ++ map := by
  induction entries generalizing map with
  | nil =>
    cases h
    rfl
  | cons ent entries ih =>
    rw [List.foldlM_cons, bind_eq_ok] at h
    obtain ⟨map₁, hadd, hrest⟩ := h
    unfold dimapAddEntry at hadd
    split at hadd
    · cases hadd
    · split at hadd
      · cases hadd
      · cases hadd
        rw [ih hrest, List.reverse_cons, List.append_assoc]
        rfl

/-- **No assertion fails** if the keys are distinct and no value is null. -/
theorem dimapBuild_ok {entries : List (Bytes 32 × BitVec w)} {map : Dimap w}
    (hnodup : ((entries ++ map).map Prod.fst).Nodup) (hval : ∀ ent ∈ entries, ent.2 ≠ 0) :
    ∃ map', entries.foldlM dimapAddEntry map = .ok map' := by
  induction entries generalizing map with
  | nil => exact ⟨map, rfl⟩
  | cons ent entries ih =>
    obtain ⟨hout, hrest⟩ := List.nodup_cons.mp hnodup
    have hnew : dimapSearch map ent.1 0 = 0 := by
      refine dimapSearch_of_not_mem (fun e he heq => hout ?_) 0
      rw [← heq]
      exact List.mem_map_of_mem (List.mem_append_right entries he)
    have hadd : dimapAddEntry map ent = .ok (ent :: map) := by
      unfold dimapAddEntry
      rw [if_neg (not_not.mpr hnew), if_neg (hval ent List.mem_cons_self)]
    rw [List.foldlM_cons, hadd, ok_bind]
    refine ih ?_ fun e he => hval e (List.mem_cons_of_mem ent he)
    have hperm : (entries ++ ent :: map).Perm (ent :: (entries ++ map)) := List.perm_middle
    exact (hperm.map Prod.fst).nodup_iff.mpr hnodup

end Maps

/-! ### All operations -/

/-- A map that was built does what a map does. -/
structure DimapOk {w : ℕ} (entries : List (Bytes 32 × BitVec w)) : Prop where
  built : (∀ ent ∈ entries, ent.2 ≠ 0) → ∃ map, dimapBuild entries = .ok map
  found : ∀ map, dimapBuild entries = .ok map → ∀ ent ∈ entries, ∀ dfltVal,
    dimapSearch map ent.1 dfltVal = ent.2
  missing : ∀ map, dimapBuild entries = .ok map → ∀ key, (∀ ent ∈ entries, ent.1 ≠ key) → ∀ dfltVal,
    dimapSearch map key dfltVal = dfltVal

/-- **The data-independent operations** agree with the plain ones: on all strings of one length, and on all maps
whose keys are distinct. -/
theorem diOps_agree :
    (∀ a b : List UInt8, a.length = b.length → MemcmpOk a b ∧ torMemeq a b = if a = b then 1#32 else 0#32) ∧
      ∀ (w : ℕ) (entries : List (Bytes 32 × BitVec w)), (entries.map Prod.fst).Nodup → DimapOk entries := by
  refine ⟨fun a b hlen => ⟨memcmpOk hlen, torMemeq_eq hlen⟩, fun w entries hnodup => ?_⟩
  have hmap : ∀ map, dimapBuild entries = .ok map → map = entries.reverse := fun map h => by
    rw [dimapBuild_eq h, List.append_nil]
  refine ⟨fun hval => dimapBuild_ok (by rwa [List.append_nil]) hval, ?_, ?_⟩
  · intro map h ent hent dfltVal
    rw [hmap map h]
    refine dimapSearch_of_mem ?_ (List.mem_reverse.mpr hent) dfltVal
    rw [List.map_reverse]
    exact List.nodup_reverse.mpr hnodup
  · intro map h key hkey dfltVal
    rw [hmap map h]
    exact dimapSearch_of_not_mem (fun ent hent => hkey ent (List.mem_reverse.mp hent)) dfltVal

/-- Two strings of two bytes; a map with two keys, and a third one. -/
theorem diOps_agree_two :
    (MemcmpOk [1, 2] [1, 3] ∧ torMemeq [1, 2] [1, 3] = 0#32) ∧
      ∃ map, dimapBuild [(Bytes.pad 32 [7], 5#64), (Bytes.pad 32 [8], 6#64)] = .ok map ∧
        dimapSearch map (Bytes.pad 32 [7]) 1 = 5#64 ∧ dimapSearch map (Bytes.pad 32 [8]) 1 = 6#64 ∧
          dimapSearch map (Bytes.pad 32 [9]) 1 = 1#64 := by
  have h := diOps_agree.2 64 [(Bytes.pad 32 [7], 5#64), (Bytes.pad 32 [8], 6#64)] (by decide)
  obtain ⟨map, hmap⟩ := h.built (by decide)
  exact ⟨diOps_agree.1 [1, 2] [1, 3] rfl, map, hmap, h.found map hmap (_, _) (by decide) 1,
    h.found map hmap (_, _) (by decide) 1, h.missing map hmap _ (by decide) 1⟩

end TorEbpf.Ctime
