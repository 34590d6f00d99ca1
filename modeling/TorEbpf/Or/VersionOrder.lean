import TorEbpf.Container.Smartlist
import TorEbpf.Or.Versions

/-!
# The order of versions

Two versions are compared field by field, each by the sign of a wrapped difference.  All fields but one are
read with a bound, so that their differences do not wrap; an SVN revision is any `int`, and the comparison of
revisions that are 2^31 or more apart is none of an order.  The code keeps this on purpose.

* `torVersionParse_bounded` — the fields that are read with a bound;
* `compareTorVersionStrPtr_eq` — as long as revisions that decide are less than 2^31 apart, the comparison is
  an exact one, by key;
* `sortVersionList_correct` — then lists are sorted, and one string of each class is left.
-/

namespace TorEbpf.Or

open TorEbpf.Lib TorEbpf.Strings TorEbpf.Container TorEbpf.Dircommon

/-! ### The code -/

def sortVersionList (s : Sorter compareTorVersionStrPtr) (versions : List (List UInt8))
    (removeDuplicates : Bool) : List (List UInt8) :=
  let versions := s.sort versions
  if removeDuplicates then smartlistUniq compareTorVersionStrPtr versions else versions

/-! ### The exact comparison -/

/-- The fields that are compared before the revision. -/
def TorVersion.beforeRevision (v : TorVersion) : TorVersion := { v with svnRevision := 0, gitTag := [] }

/-- The comparison of versions without a wrapped difference. -/
def exactVersionCompare : TorVersion → TorVersion → Ordering :=
  compareLex (cmpOn TorVersion.major compare) <|
    compareLex (cmpOn TorVersion.minor compare) <|
      compareLex (cmpOn TorVersion.micro compare) <|
        compareLex (cmpOn (fun v => v.status.toInt) compare) <|
          compareLex (cmpOn TorVersion.patchlevel compare) <|
            compareLex (cmpOn TorVersion.statusTag bytesCmp) <|
              compareLex (cmpOn TorVersion.svnRevision compare) <|
                compareLex (cmpOn (fun v => (v.gitTag.length : ℤ)) compare) (cmpOn TorVersion.gitTag bytesCmp)

instance : Std.TransCmp exactVersionCompare := by
  unfold exactVersionCompare
  infer_instance

/-- The part of a string that is compared if it has no meaning. -/
def unparsedText (s : List UInt8) : List UInt8 := if (torVersionParse s).isSome then [] else s

/-- The comparison of strings without a wrapped difference: those that have a meaning come first. -/
def exactVersionStrCompare : List UInt8 → List UInt8 → Ordering :=
  compareLex (cmpOn (fun s => (torVersionParse s).isNone) compare) <|
    compareLex (cmpOn (fun s => (torVersionParse s).getD {}) exactVersionCompare) (cmpOn unparsedText bytesCmp)

instance : Std.TransCmp exactVersionStrCompare := by
  unfold exactVersionStrCompare
  infer_instance

/-! ### The fields that are read with a bound -/

/-- The fields that are compared by a difference, apart from the revision. -/
structure TorVersion.Bounded (v : TorVersion) : Prop where
  major : 0 ≤ v.major ∧ v.major < 2 ^ 31
  minor : 0 ≤ v.minor ∧ v.minor < 2 ^ 31
  micro : 0 ≤ v.micro ∧ v.micro < 2 ^ 31
  patchlevel : 0 ≤ v.patchlevel ∧ v.patchlevel < 2 ^ 31
  gitTag : v.gitTag.length ≤ 20

theorem torParseUlong_le {s rest : List UInt8} {min max v : ℕ} (h : torParseUlong s min max = some (v, rest)) :
    v ≤ max := by
  unfold torParseUlong at h
  cases hn : strtoNumber s with
  | none =>
    rw [hn] at h
    cases h
  | some n =>
    rw [hn] at h
    dsimp only at h
    split_ifs at h
    all_goals
      cases h
      omega

theorem versionNumber_bounded {s cp : List UInt8} {n : ℕ} (h : versionNumber s = some (n, cp)) :
    0 ≤ (n : ℤ) ∧ (n : ℤ) < 2 ^ 31 := by
  cases s with
  | nil => cases h
  | cons c s =>
    unfold versionNumber at h
    dsimp only at h
    split_ifs at h
    have hle := torParseUlong_le h
    omega

theorem two_mul_length_of_base16Decode {s out : List UInt8} (h : base16Decode s = some out) :
    2 * out.length = s.length := by
  induction s using base16Decode.induct generalizing out with
  | case1 =>
    cases h
    rfl
  | case2 c => cases h
  | case3 c1 c2 src v1 v2 h1 h2 ih =>
    rw [base16Decode, h1, h2] at h
    obtain ⟨rest, hrest, rfl⟩ := Option.map_eq_some_iff.mp h
    have hlen := ih hrest
    simp only [List.length_cons]
    omega
  | case4 c1 c2 src hnone =>
    rw [base16Decode] at h
    split at h
    · next v1 v2 h1 h2 => exact absurd h2 (hnone v1 v2 h1)
    · cases h

theorem versionGitTag_bounded {out v : TorVersion} {cp : List UInt8} (h : out.Bounded)
    (hv : versionGitTag out cp = some v) : v.Bounded := by
  unfold versionGitTag at hv
  dsimp only at hv
  split_ifs at hv with hparen hlong hodd
  obtain ⟨digest, hdigest, rfl⟩ := Option.map_eq_some_iff.mp hv
  have hlen := two_mul_length_of_base16Decode hdigest
  unfold hexDigestLen at hlong
  exact ⟨h.major, h.minor, h.micro, h.patchlevel, by dsimp only; omega⟩

theorem versionStatusTag_bounded {out v : TorVersion} {cp : List UInt8} (h : out.Bounded)
    (hv : versionStatusTag out cp = some v) : v.Bounded := by
  unfold versionStatusTag at hv
  dsimp only at hv
  split at hv
  · cases hv
    exact ⟨h.major, h.minor, h.micro, h.patchlevel, h.gitTag⟩
  · refine versionGitTag_bounded ?_ hv
    exact ⟨h.major, h.minor, h.micro, h.patchlevel, h.gitTag⟩
  · cases hv
    exact ⟨h.major, h.minor, h.micro, h.patchlevel, h.gitTag⟩

theorem versionPatchlevel_bounded {out v : TorVersion} {cp : List UInt8} (h : out.Bounded)
    (hv : versionPatchlevel out cp = some v) : v.Bounded := by
  obtain ⟨⟨n, cp'⟩, hn, hrest⟩ := Option.bind_eq_some_iff.mp hv
  have hout : TorVersion.Bounded { out with patchlevel := n } :=
    ⟨h.major, h.minor, h.micro, versionNumber_bounded hn, h.gitTag⟩
  exact versionStatusTag_bounded hout hrest

theorem versionMicro_bounded {out v : TorVersion} {cp : List UInt8} (h : out.Bounded)
    (hv : versionMicro out cp = some v) : v.Bounded := by
  obtain ⟨⟨n, cp'⟩, hn, hrest⟩ := Option.bind_eq_some_iff.mp hv
  have hout : TorVersion.Bounded { out with micro := n } :=
    ⟨h.major, h.minor, versionNumber_bounded hn, h.patchlevel, h.gitTag⟩
  dsimp only at hrest
  split at hrest
  · cases hrest
    exact hout
  · exact versionPatchlevel_bounded hout hrest
  · exact versionStatusTag_bounded hout hrest
  · refine versionPatchlevel_bounded ?_ hrest
    exact ⟨hout.major, hout.minor, hout.micro, hout.patchlevel, hout.gitTag⟩
  · refine versionPatchlevel_bounded ?_ hrest
    exact ⟨hout.major, hout.minor, hout.micro, hout.patchlevel, hout.gitTag⟩
  · cases hrest

/-- **All fields but the revision are read with a bound.** -/
theorem torVersionParse_bounded {s : List UInt8} {v : TorVersion} (h : torVersionParse s = some v) :
    v.Bounded := by
  obtain ⟨⟨major, cp⟩, hmajor, h⟩ := Option.bind_eq_some_iff.mp h
  obtain ⟨⟨minor, cp'⟩, hminor, h⟩ := Option.bind_eq_some_iff.mp h
  obtain ⟨cp'', -, hminor⟩ := Option.bind_eq_some_iff.mp hminor
  have hout : TorVersion.Bounded { major := major, minor := minor } :=
    ⟨versionNumber_bounded hmajor, versionNumber_bounded hminor, by norm_num, by norm_num, by simp⟩
  dsimp only at h
  split at h
  · cases h
    exact hout
  · exact versionStatusTag_bounded hout h
  · obtain ⟨rest, -, h⟩ := Option.bind_eq_some_iff.mp h
    exact versionMicro_bounded hout h

/-! ### The wrapped comparison -/

/-- A difference below 2^31 does not wrap. -/
theorem cmpField_eq_compare {a b : ℤ} (h : |a - b| < 2 ^ 31) : cmpField a b = compare a b := by
  apply compare_bmod_sub
  push_cast
  omega

theorem cmpField_eq_compare_of_bounded {a b : ℤ} (ha : 0 ≤ a ∧ a < 2 ^ 31) (hb : 0 ≤ b ∧ b < 2 ^ 31) :
    cmpField a b = compare a b :=
  cmpField_eq_compare (abs_lt.mpr (by omega))

theorem then_congr {o o₁ o₂ : Ordering} (h : o = .eq → o₁ = o₂) : o.then o₁ = o.then o₂ := by
  cases o with
  | eq => exact h rfl
  | lt => rfl
  | gt => rfl

/-- Two versions are compared exactly if the revisions that decide are less than 2^31 apart. -/
theorem torVersionCompare_eq {a b : TorVersion} (ha : a.Bounded) (hb : b.Bounded)
    (h : a.beforeRevision = b.beforeRevision → |a.svnRevision - b.svnRevision| < 2 ^ 31) :
    torVersionCompare a b = exactVersionCompare a b := by
  have hstatus : cmpField a.status.toInt b.status.toInt = compare a.status.toInt b.status.toInt := by
    apply cmpField_eq_compare_of_bounded
    · cases a.status <;> decide
    · cases b.status <;> decide
  have htag : cmpField a.gitTag.length b.gitTag.length = compare (a.gitTag.length : ℤ) b.gitTag.length := by
    have hlena := ha.gitTag
    have hlenb := hb.gitTag
    exact cmpField_eq_compare_of_bounded (by omega) (by omega)
  simp only [torVersionCompare, exactVersionCompare, compareLex, cmpOn, hstatus, htag,
    cmpField_eq_compare_of_bounded ha.major hb.major, cmpField_eq_compare_of_bounded ha.minor hb.minor,
    cmpField_eq_compare_of_bounded ha.micro hb.micro, cmpField_eq_compare_of_bounded ha.patchlevel
      hb.patchlevel]
  refine then_congr fun hmajor => then_congr fun hminor => then_congr fun hmicro => then_congr fun hst =>
    then_congr fun hpatch => then_congr fun htext => ?_
  have hfields : a.beforeRevision = b.beforeRevision := by
    have hst' : a.status = b.status := by
      have := compare_eq_iff_eq.mp hst
      revert this
      cases a.status <;> cases b.status <;> decide
    rw [TorVersion.beforeRevision, TorVersion.beforeRevision, compare_eq_iff_eq.mp hmajor,
      compare_eq_iff_eq.mp hminor, compare_eq_iff_eq.mp hmicro, hst', compare_eq_iff_eq.mp hpatch,
      Std.LawfulEqCmp.eq_of_compare htext]
  rw [cmpField_eq_compare (h hfields)]

/-- Two strings are compared exactly if the revisions that decide are less than 2^31 apart. -/
def RevisionsClose (s t : List UInt8) : Prop :=
  ∀ a b : TorVersion, torVersionParse s = some a → torVersionParse t = some b →
    a.beforeRevision = b.beforeRevision → |a.svnRevision - b.svnRevision| < 2 ^ 31

/-- **The comparison of strings is the exact one** if the revisions that decide are close. -/
theorem compareTorVersionStrPtr_eq {s t : List UInt8} (h : RevisionsClose s t) :
    compareTorVersionStrPtr s t = exactVersionStrCompare s t := by
  simp only [compareTorVersionStrPtr, exactVersionStrCompare, compareLex, cmpOn, unparsedText]
  cases ha : torVersionParse s with
  | none => cases hb : torVersionParse t <;> rfl
  | some a =>
    cases hb : torVersionParse t with
    | none => rfl
    | some b =>
      have hcmp := torVersionCompare_eq (torVersionParse_bounded ha) (torVersionParse_bounded hb) (h a b ha hb)
      dsimp only
      rw [hcmp]
      have hnone : bytesCmp [] [] = .eq := rfl
      simp [hnone]

/-! ### The order -/

/-- The revisions that decide between strings of a list are less than 2^31 apart. -/
def AllRevisionsClose (l : List (List UInt8)) : Prop := ∀ s ∈ l, ∀ t ∈ l, RevisionsClose s t

theorem consistentOn_versions {l : List (List UInt8)} (h : AllRevisionsClose l) :
    ConsistentOn compareTorVersionStrPtr l := by
  have hexact := consistentOn_of_transCmp exactVersionStrCompare l
  constructor
  · intro s hs t ht
    rw [compareTorVersionStrPtr_eq (h t ht s hs), compareTorVersionStrPtr_eq (h s hs t ht)]
    exact hexact.1 s hs t ht
  · intro s hs t ht u hu
    rw [compareTorVersionStrPtr_eq (h s hs t ht), compareTorVersionStrPtr_eq (h t ht u hu),
      compareTorVersionStrPtr_eq (h s hs u hu)]
    exact hexact.2 s hs t ht u hu

/-- What `sort_version_list` promises of a list. -/
structure VersionsSorted (sort : Sorter compareTorVersionStrPtr) (l : List (List UInt8)) : Prop where
  /-- The comparison is a total preorder on the list. -/
  order : ConsistentOn compareTorVersionStrPtr l
  perm : (sortVersionList sort l false).Perm l
  sorted : (sortVersionList sort l false).Pairwise fun s t => (compareTorVersionStrPtr s t).isLE = true
  /-- Without duplicates, the list is strictly sorted. -/
  distinct : (sortVersionList sort l true).Pairwise fun s t => compareTorVersionStrPtr s t = .lt
  subset : sortVersionList sort l true ⊆ l
  /-- One string of each class is left. -/
  unique : ∀ s ∈ l, ∃! t, t ∈ sortVersionList sort l true ∧ compareTorVersionStrPtr t s = .eq

/-- **Lists of versions are sorted** if the revisions that decide are less than 2^31 apart. -/
theorem sortVersionList_correct (sort : Sorter compareTorVersionStrPtr) (l : List (List UInt8))
    (hclose : AllRevisionsClose l) : VersionsSorted sort l := by
  have horder := consistentOn_versions hclose
  have hperm := sort.perm l
  have hsorted := sort.sorted l horder
  have horder' : ConsistentOn compareTorVersionStrPtr (sort.sort l) := horder.subset hperm.subset
  have hdistinct := smartlistUniq_pairwise horder' hsorted
  have hsub : smartlistUniq compareTorVersionStrPtr (sort.sort l) ⊆ l :=
    fun s hs => hperm.subset ((smartlistUniq_sublist (sort.sort l)).subset hs)
  refine ⟨horder, hperm, hsorted, hdistinct, hsub, ?_⟩
  intro s hs
  obtain ⟨t, ht, heq⟩ := exists_mem_smartlistUniq horder' (hperm.mem_iff.mpr hs)
  refine ⟨t, ⟨ht, heq⟩, ?_⟩
  rintro u ⟨hu, hueq⟩
  -- two strings of the class are equal to each other, and no two that are left are
  have hut : compareTorVersionStrPtr u t = .eq := by
    rw [horder.congr_right (hsub hu) (hsub ht) hs heq]
    exact hueq
  by_contra hne
  have hapart : (sortVersionList sort l true).Pairwise fun u t =>
      compareTorVersionStrPtr u t = .lt ∨ compareTorVersionStrPtr t u = .lt := hdistinct.imp Or.inl
  have : Std.Symm fun u t : List UInt8 =>
      compareTorVersionStrPtr u t = .lt ∨ compareTorVersionStrPtr t u = .lt := ⟨fun _ _ hor => Or.symm hor⟩
  rcases hapart.forall hu ht hne with hlt | hlt
  · rw [hut] at hlt
    cases hlt
  · rw [horder.eq_symm (hsub hu) (hsub ht) hut] at hlt
    cases hlt

/-- `0.0.2` and `0.0.1`, twice. -/
theorem sortVersionList_correct_two :
    AllRevisionsClose [[0x30, 0x2e, 0x30, 0x2e, 0x32], [0x30, 0x2e, 0x30, 0x2e, 0x31],
      [0x30, 0x2e, 0x30, 0x2e, 0x32]] ∧
      VersionsSorted (Sorter.merge _) [[0x30, 0x2e, 0x30, 0x2e, 0x32], [0x30, 0x2e, 0x30, 0x2e, 0x31],
        [0x30, 0x2e, 0x30, 0x2e, 0x32]] := by
  have hclose : AllRevisionsClose [[0x30, 0x2e, 0x30, 0x2e, 0x32], [0x30, 0x2e, 0x30, 0x2e, 0x31],
    [0x30, 0x2e, 0x30, 0x2e, 0x32]] := by
    intro s hs t ht a b ha hb _
    have hrev : ∀ s ∈ [[0x30, 0x2e, 0x30, 0x2e, 0x32], [0x30, 0x2e, 0x30, 0x2e, 0x31],
      [0x30, 0x2e, 0x30, 0x2e, 0x32]],
        (torVersionParse s).map TorVersion.svnRevision = some 0 := by
      decide +kernel
    have hreva := hrev s hs
    have hrevb := hrev t ht
    rw [ha, Option.map_some, Option.some.injEq] at hreva
    rw [hb, Option.map_some, Option.some.injEq] at hrevb
    rw [hreva, hrevb]
    norm_num
  exact ⟨hclose, sortVersionList_correct (Sorter.merge _) _ hclose⟩

/-- Each of `0.0.1.0 (r0` and `0.0.1.0 (r-2147483648` is before the other. -/
theorem not_compareTorVersionStrPtr_order :
    ¬∀ a b c : List UInt8, compareTorVersionStrPtr b a = (compareTorVersionStrPtr a b).swap ∧
      ((compareTorVersionStrPtr a b).isLE → (compareTorVersionStrPtr b c).isLE →
        (compareTorVersionStrPtr a c).isLE) := by
  intro h
  have hswap := (h [0x30, 0x2e, 0x30, 0x2e, 0x31, 0x2e, 0x30, 0x20, 0x28, 0x72, 0x30]
    [0x30, 0x2e, 0x30, 0x2e, 0x31, 0x2e, 0x30, 0x20, 0x28, 0x72, 0x2d, 0x32, 0x31, 0x34, 0x37, 0x34, 0x38,
      0x33, 0x36, 0x34, 0x38] []).1
  revert hswap
  decide +kernel

end TorEbpf.Or
