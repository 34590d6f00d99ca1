import Mathlib
import TorEbpf.Dirauth.FrequentMembers
import TorEbpf.Lib.Lines
import TorEbpf.Or.Versions

/-!
# Counting methods and versions

`compute_consensus_method` and `compute_consensus_versions_list` of `dirvote.c`, with the loop of
`networkstatus_compute_consensus_body` that collects the versions.

* `forall_isConsensusMethod_iff` — the method is the largest number that more than two thirds of the votes list, for
  every sort, exactly if that number is spelled in one way (or there is one vote), or it is 1 and no
  text without a number is listed so often;
* `versionsExact_of_tieFree`, `versionsTieFree_of_exact` — the versions are those listed by more
  than half of the votes, for every sort, exactly if no such version compares equal to another string.
-/

namespace TorEbpf.Dirauth

open TorEbpf.Lib TorEbpf.Container TorEbpf.Strings TorEbpf.Or

/-- The parts of a vote (`networkstatus_t`) that are counted here. -/
structure CountedVote where
  supportedMethods : List (List UInt8)
  clientVersions : Option (List UInt8)
  serverVersions : Option (List UInt8)
deriving DecidableEq

/-! ### Methods -/

/-- `(int)tor_parse_long(s, 10, 1, INT_MAX, NULL, NULL)`: 0 is no number. -/
def methodValue (s : List UInt8) : ℤ := wholeLong s 1 (2 ^ 31 - 1)

def cmpIntStrings (a b : List UInt8) : Ordering :=
  if methodValue a < methodValue b then .lt
  else if methodValue a = methodValue b then
    if methodValue a = 0 then bytesCmp a b else .eq
  else .gt

def methodLists (votes : List CountedVote) : List (List (List UInt8)) := votes.map (·.supportedMethods)

def computeConsensusMethod (sort : ℕ → Sorter cmpIntStrings) (votes : List CountedVote) : ℤ :=
  match (frequentMembers sort (votes.length * 2 / 3) (methodLists votes)).getLast? with
  | some best => methodValue best
  | none => 1

/-! ### Versions -/

/-- `smartlist_split_string(out, s, ",", SPLIT_SKIP_SPACE|SPLIT_IGNORE_BLANK, 0)`. -/
def splitVersions (s : List UInt8) : List (List UInt8) :=
  ((s.splitOnP (· == 0x2c)).map fun t => (t.dropWhile isSpace).rdropWhile isSpace).filter fun t => !t.isEmpty

/-- `smartlist_join_strings(sl, ",", 0, NULL)`. -/
def joinVersions (l : List (List UInt8)) : List UInt8 := List.intercalate [0x2c] l

def versionLists (field : CountedVote → Option (List UInt8)) (votes : List CountedVote) :
    List (List (List UInt8)) :=
  votes.filterMap fun v => (field v).map splitVersions

/-- `compute_consensus_versions_list` of the combined lists; `n_versioning` is how many they are. -/
def computeConsensusVersionsList (sort : ℕ → Sorter compareTorVersionStrPtr)
    (field : CountedVote → Option (List UInt8)) (votes : List CountedVote) : List UInt8 :=
  joinVersions (frequentMembers sort ((versionLists field votes).length / 2) (versionLists field votes))

/-! ### The comparison of methods -/

/-- The key by which methods are compared: the number, and the text if there is none. -/
def methodKey (s : List UInt8) : ℤ × List UInt8 :=
  (methodValue s, if methodValue s = 0 then s else [])

theorem cmpIntStrings_eq_cmpOn :
    cmpIntStrings = cmpOn methodKey (compareLex (cmpOn Prod.fst compare) (cmpOn Prod.snd bytesCmp)) := by
  funext a b
  unfold cmpIntStrings cmpOn methodKey
  rcases lt_trichotomy (methodValue a) (methodValue b) with h | h | h
  · rw [if_pos h]
    simp [compareLex, compare_lt_iff_lt.mpr h]
  · rw [if_neg (not_lt_of_ge h.ge), if_pos h]
    by_cases h0 : methodValue b = 0
    · simp [compareLex, h, h0]
    · simp [compareLex, h, h0]
      exact Std.ReflCmp.compare_self.symm
  · rw [if_neg (not_lt_of_gt h), if_neg h.ne']
    simp [compareLex, compare_gt_iff_gt.mpr h]

instance : Std.TransCmp cmpIntStrings := by
  rw [cmpIntStrings_eq_cmpOn]
  infer_instance

theorem methodValue_eq_of_cmp {a b : List UInt8} (h : cmpIntStrings a b = .eq) :
    methodValue a = methodValue b := by
  unfold cmpIntStrings at h
  split_ifs at h with _ heq
  · exact heq
  · exact heq

theorem eq_of_cmpIntStrings {a b : List UInt8} (h : cmpIntStrings a b = .eq) (hb : methodValue b = 0) :
    a = b := by
  unfold cmpIntStrings at h
  split_ifs at h with _ heq h0
  · exact Std.LawfulEqCmp.eq_of_compare h
  · exact absurd (heq.trans hb) h0

theorem cmpIntStrings_of_methodValue {a b : List UInt8} (h : methodValue a = methodValue b)
    (hb : methodValue b ≠ 0) : cmpIntStrings a b = .eq := by
  unfold cmpIntStrings
  rw [if_neg (not_lt_of_ge h.ge), if_pos h, if_neg (h ▸ hb)]

theorem methodValue_le_of_isLE {a b : List UInt8} (h : (cmpIntStrings a b).isLE = true) :
    methodValue a ≤ methodValue b := by
  unfold cmpIntStrings at h
  split_ifs at h with hlt heq
  · exact hlt.le
  · exact heq.le
  · exact heq.le
  · cases h

theorem methodValue_nonneg (s : List UInt8) : 0 ≤ methodValue s := by
  unfold methodValue wholeLong
  split
  · next h => exact le_trans zero_le_one (torParseLong_range h).1
  · exact le_refl 0

/-! ### The method -/

/-- How many votes list a text with the value `m`. -/
def methodBackers (votes : List CountedVote) (m : ℤ) : ℕ :=
  backing (methodLists votes) fun s => methodValue s = m

/-- **What the method should be**: the largest number that more than two thirds of the votes list, 1 if
there is none. -/
def IsConsensusMethod (votes : List CountedVote) (r : ℤ) : Prop :=
  (1 ≤ r ∧ 2 * votes.length < 3 * methodBackers votes r ∧
      ∀ m, 1 ≤ m → 2 * votes.length < 3 * methodBackers votes m → m ≤ r) ∨
    ((∀ m, 1 ≤ m → ¬2 * votes.length < 3 * methodBackers votes m) ∧ r = 1)

/-- More than two thirds of the votes list the number, in one spelling. -/
def Found (votes : List CountedVote) (r : ℤ) : Prop :=
  2 * votes.length < 3 * methodBackers votes r ∧
    (votes.length = 1 ∨ ∀ s ∈ (methodLists votes).flatten, ∀ t ∈ (methodLists votes).flatten,
      methodValue s = r → methodValue t = r → s = t)

/-- **The condition**: the number is found, or it is 1 and no text without a number is listed by more than
two thirds. -/
def MethodSpelled (votes : List CountedVote) : Prop :=
  ∃ r, IsConsensusMethod votes r ∧
    (Found votes r ∨
      r = 1 ∧ ∀ s, methodValue s = 0 → ¬2 * votes.length < 3 * backing (methodLists votes) (· = s))

theorem IsConsensusMethod.unique {votes : List CountedVote} {r r' : ℤ} (h : IsConsensusMethod votes r)
    (h' : IsConsensusMethod votes r') : r = r' := by
  rcases h with ⟨hpos, hback, hmax⟩ | ⟨hnone, rfl⟩
  · rcases h' with ⟨hpos', hback', hmax'⟩ | ⟨hnone', _⟩
    · exact le_antisymm (hmax' r hpos hback) (hmax r' hpos' hback')
    · exact absurd hback (hnone' r hpos)
  · rcases h' with ⟨hpos', hback', _⟩ | ⟨_, rfl⟩
    · exact absurd hback' (hnone r' hpos')
    · rfl

theorem IsConsensusMethod.pos {votes : List CountedVote} {r : ℤ} (h : IsConsensusMethod votes r) :
    1 ≤ r := by
  rcases h with ⟨hpos, _⟩ | ⟨_, rfl⟩
  · exact hpos
  · exact le_refl 1

theorem IsConsensusMethod.perm {votes votes' : List CountedVote} {r : ℤ} (hp : votes'.Perm votes)
    (h : IsConsensusMethod votes' r) : IsConsensusMethod votes r := by
  have hback : ∀ m, methodBackers votes' m = methodBackers votes m := fun m =>
    (hp.map _).countP_eq _
  unfold IsConsensusMethod at h ⊢
  simpa only [hback, hp.length_eq] using h

section Method

variable {votes : List CountedVote} {sort : ℕ → Sorter cmpIntStrings} {r : ℤ}

theorem consistent_methods (votes : List CountedVote) :
    ConsistentOn cmpIntStrings (methodLists votes).flatten :=
  consistentOn_of_transCmp _ _

theorem backing_le_methodBackers (votes : List CountedVote) (s : List UInt8) :
    backing (methodLists votes) (· = s) ≤ methodBackers votes (methodValue s) := by
  refine List.countP_mono_left ?_
  intro l _ hany
  obtain ⟨t, ht, hts⟩ := List.any_eq_true.mp hany
  rw [decide_eq_true_iff] at hts
  subst hts
  exact List.any_eq_true.mpr ⟨t, ht, by simp⟩

theorem listed_of_mem {s : List UInt8}
    (h : s ∈ frequentMembers sort (votes.length * 2 / 3) (methodLists votes)) :
    2 * votes.length < 3 * backing (methodLists votes) (· = s) := by
  have hlt := backing_of_mem (consistent_methods votes) h
  omega

theorem methodValue_le_of_mem {s : List UInt8} (hr : IsConsensusMethod votes r)
    (h : s ∈ frequentMembers sort (votes.length * 2 / 3) (methodLists votes)) : methodValue s ≤ r := by
  have hlisted := listed_of_mem h
  have hle := backing_le_methodBackers votes s
  rcases lt_or_ge (methodValue s) 1 with hlt | hge
  · exact le_trans (by omega) hr.pos
  · rcases hr with ⟨_, _, hmax⟩ | ⟨hnone, _⟩
    · exact hmax _ hge (by omega)
    · exact absurd (by omega) (hnone _ hge)

theorem methodValue_le_getLast {s best : List UInt8}
    (h : s ∈ frequentMembers sort (votes.length * 2 / 3) (methodLists votes))
    (hbest : (frequentMembers sort (votes.length * 2 / 3) (methodLists votes)).getLast? = some best) :
    methodValue s ≤ methodValue best := by
  have hpair : (frequentMembers sort (votes.length * 2 / 3) (methodLists votes)).Pairwise
      fun a b => (cmpIntStrings a b).isLE = true :=
    ((sort (methodLists votes).length).sorted _ (consistentOn_of_transCmp _ _)).sublist
      (getFrequentMembers_sublist _ _)
  obtain ⟨l, hl⟩ := List.getLast?_eq_some_iff.mp hbest
  rw [hl] at h hpair
  rcases List.mem_append.mp h with h | h
  · exact methodValue_le_of_isLE
      ((List.pairwise_append.mp hpair).2.2 s h best (List.mem_singleton_self best))
  · rw [List.mem_singleton.mp h]

theorem method_of_mem {s : List UInt8} (hr : IsConsensusMethod votes r) (hs : methodValue s = r)
    (h : s ∈ frequentMembers sort (votes.length * 2 / 3) (methodLists votes)) :
    computeConsensusMethod sort votes = r := by
  unfold computeConsensusMethod
  cases hbest : (frequentMembers sort (votes.length * 2 / 3) (methodLists votes)).getLast? with
  | none =>
    rw [List.getLast?_eq_none_iff.mp hbest] at h
    cases h
  | some best =>
    have hmem : best ∈ frequentMembers sort (votes.length * 2 / 3) (methodLists votes) :=
      List.mem_of_getLast? hbest
    have hge := methodValue_le_getLast h hbest
    have hle := methodValue_le_of_mem hr hmem
    dsimp only
    omega

theorem mem_methods_of_backers (h : 2 * votes.length < 3 * methodBackers votes r) :
    ∃ s ∈ (methodLists votes).flatten, methodValue s = r := by
  have hpos : 0 < methodBackers votes r := by omega
  obtain ⟨l, hl, hany⟩ := List.countP_pos_iff.mp hpos
  obtain ⟨s, hs, hsr⟩ := List.any_eq_true.mp hany
  exact ⟨s, List.mem_flatten_of_mem hl hs, by simpa using hsr⟩

/-- With one spelling the text is found. -/
theorem exists_mem_of_spelled (hlisted : 2 * votes.length < 3 * methodBackers votes r)
    (hone : ∀ s ∈ (methodLists votes).flatten, ∀ t ∈ (methodLists votes).flatten,
      methodValue s = r → methodValue t = r → s = t) :
    ∃ s, methodValue s = r ∧ s ∈ frequentMembers sort (votes.length * 2 / 3) (methodLists votes) := by
  obtain ⟨s, hs, hsr⟩ := mem_methods_of_backers hlisted
  refine ⟨s, hsr, mem_of_backing (consistent_methods votes) ?_ ?_⟩
  · intro t ht heq
    exact hone t ht s hs ((methodValue_eq_of_cmp heq).trans hsr) hsr
  · have hback : methodBackers votes r = backing (methodLists votes) (· = s) := by
      refine List.countP_congr ?_
      intro l hl
      simp only [List.any_eq_true, decide_eq_true_eq]
      refine exists_congr fun t => and_congr_right fun ht => ⟨?_, ?_⟩
      · exact fun htr => hone t (List.mem_flatten_of_mem hl ht) s hs htr hsr
      · rintro rfl
        exact hsr
    omega

theorem exists_mem_of_single (hlisted : 2 * votes.length < 3 * methodBackers votes r)
    (hlen : votes.length = 1) :
    ∃ s, methodValue s = r ∧ s ∈ frequentMembers sort (votes.length * 2 / 3) (methodLists votes) := by
  obtain ⟨v, rfl⟩ := List.length_eq_one_iff.mp hlen
  obtain ⟨s, hs, hsr⟩ := mem_methods_of_backers hlisted
  have hs' : s ∈ v.supportedMethods := by simpa [methodLists] using hs
  have hmin : [v].length * 2 / 3 = 0 := by simp
  obtain ⟨t, ht, hts⟩ := @exists_mem_frequentMembers_single _ _ _ sort _ _
    (consistentOn_of_transCmp cmpIntStrings v.supportedMethods) hs'
  refine ⟨t, (methodValue_eq_of_cmp hts).trans hsr, ?_⟩
  rw [hmin]
  exact ht

/-- **The condition is enough.** -/
theorem isConsensusMethod_of_spelled (h : MethodSpelled votes) :
    IsConsensusMethod votes (computeConsensusMethod sort votes) := by
  obtain ⟨r, hr, ⟨hlisted, hone⟩ | ⟨rfl, hjunk⟩⟩ := h
  · have hfound : ∃ s, methodValue s = r ∧
        s ∈ frequentMembers sort (votes.length * 2 / 3) (methodLists votes) := by
      rcases hone with hlen | hone
      · exact exists_mem_of_single hlisted hlen
      · exact exists_mem_of_spelled hlisted hone
    obtain ⟨s, hsr, hs⟩ := hfound
    rw [method_of_mem hr hsr hs]
    exact hr
  · have hone : computeConsensusMethod sort votes = 1 := by
      unfold computeConsensusMethod
      cases hbest : (frequentMembers sort (votes.length * 2 / 3) (methodLists votes)).getLast? with
      | none => rfl
      | some best =>
        have hmem : best ∈ frequentMembers sort (votes.length * 2 / 3) (methodLists votes) :=
          List.mem_of_getLast? hbest
        have hne : methodValue best ≠ 0 := fun h0 => hjunk best h0 (listed_of_mem hmem)
        have hle := methodValue_le_of_mem hr hmem
        have hnonneg := methodValue_nonneg best
        dsimp only
        omega
    rw [hone]
    exact hr

theorem exists_two_spellings (hlisted : 2 * votes.length < 3 * methodBackers votes r)
    (hlen : votes.length ≠ 1) {s t : List UInt8} (hs : s ∈ (methodLists votes).flatten)
    (ht : t ∈ (methodLists votes).flatten) (hsr : methodValue s = r) (htr : methodValue t = r)
    (hne : s ≠ t) :
    ∃ (i j : ℕ) (l l' : List (List UInt8)) (a b : List UInt8), i ≠ j ∧
      (methodLists votes)[i]? = some l ∧ (methodLists votes)[j]? = some l' ∧ a ∈ l ∧ b ∈ l' ∧
        methodValue a = r ∧ methodValue b = r ∧ a ≠ b := by
  obtain ⟨l, hl, hsl⟩ := List.mem_flatten.mp hs
  obtain ⟨l', hl', htl⟩ := List.mem_flatten.mp ht
  obtain ⟨i, hi⟩ := List.mem_iff_getElem?.mp hl
  obtain ⟨j, hj⟩ := List.mem_iff_getElem?.mp hl'
  by_cases hij : i = j
  · -- one vote lists both, and another one lists the number too
    subst hij
    have hother : ∃ k l'', k ≠ i ∧ (methodLists votes)[k]? = some l'' ∧
        l''.any (fun u => methodValue u = r) = true := by
      by_contra hnone
      have hle : methodBackers votes r ≤ 1 := by
        refine countP_le_one (List.pairwise_iff_getElem.mpr ?_)
        rintro k m hk hm hkm ⟨hpk, hpm⟩
        by_cases hki : k = i
        · exact hnone ⟨m, _, by omega, List.getElem?_eq_getElem hm, hpm⟩
        · exact hnone ⟨k, _, hki, List.getElem?_eq_getElem hk, hpk⟩
      have hlen' : methodBackers votes r ≤ (methodLists votes).length := backing_le_length _ _
      rw [methodLists, List.length_map] at hlen'
      omega
    obtain ⟨k, l'', hki, hk, hany⟩ := hother
    obtain ⟨u, hu, hur⟩ := List.any_eq_true.mp hany
    rw [decide_eq_true_iff] at hur
    by_cases hus : u = s
    · exact ⟨k, i, l'', l', u, t, hki, hk, hj, hu, htl, hur, htr, hus ▸ hne⟩
    · exact ⟨k, i, l'', l, u, s, hki, hk, hi, hu, hsl, hur, hsr, hus⟩
  · exact ⟨i, j, l, l', s, t, hij, hi, hj, hsl, htl, hsr, htr, hne⟩

/-- **What is not found for some sort.** -/
theorem exists_sort_of_not_found (hr : 1 ≤ r) (h : ¬Found votes r) :
    ∃ sort' : ℕ → Sorter cmpIntStrings,
      ∀ s ∈ frequentMembers sort' (votes.length * 2 / 3) (methodLists votes), methodValue s ≠ r := by
  by_cases hlisted : 2 * votes.length < 3 * methodBackers votes r
  · rw [Found, not_and] at h
    have h' := h hlisted
    push Not at h'
    obtain ⟨hlen, s, hs, t, ht, hsr, htr, hne⟩ := h'
    obtain ⟨i, j, l, l', a, b, hij, hi, hj, ha, hb, har, hbr, hab⟩ :=
      exists_two_spellings hlisted hlen hs ht hsr htr hne
    have ha' : a ∈ contributions (fun k => (Sorter.merge cmpIntStrings).parting (if k = i then a else b) 1)
        0 (methodLists votes) := by
      refine mem_contributions 0 i hi ?_
      rw [Nat.zero_add, if_pos rfl]
      exact mem_uniq_parting ha
    have hb' : b ∈ contributions (fun k => (Sorter.merge cmpIntStrings).parting (if k = i then a else b) 1)
        0 (methodLists votes) := by
      refine mem_contributions 0 j hj ?_
      rw [Nat.zero_add, if_neg (Ne.symm hij)]
      exact mem_uniq_parting hb
    have hmin : (methodLists votes).length ≤ 2 * (votes.length * 2 / 3) + 1 := by
      rw [methodLists, List.length_map]
      omega
    have hclass : ∀ {u}, methodValue u = r → cmpIntStrings u a = .eq := fun hu =>
      cmpIntStrings_of_methodValue (hu.trans har.symm) (by omega)
    obtain ⟨sort', hsort'⟩ := exists_sort_of_tied (consistent_methods votes) hmin ha' hb' (Ne.symm hab)
      (hclass hbr)
    exact ⟨sort', fun u hu hur => hsort' u hu (hclass hur)⟩
  · refine ⟨fun _ => default, ?_⟩
    intro s hs hsr
    have hlt := listed_of_mem hs
    have hle := backing_le_methodBackers votes s
    rw [hsr] at hle
    omega

/-- **When the method is the one that it should be, whatever the sort.** -/
theorem forall_isConsensusMethod_iff :
    (∀ sort, IsConsensusMethod votes (computeConsensusMethod sort votes)) ↔ MethodSpelled votes := by
  refine ⟨?_, fun h sort => isConsensusMethod_of_spelled h⟩
  intro hall
  have hr := hall fun _ => default
  refine ⟨_, hr, ?_⟩
  by_contra hnot
  rw [not_or, not_and] at hnot
  obtain ⟨hfound, hjunk⟩ := hnot
  obtain ⟨sort', hsort'⟩ := exists_sort_of_not_found hr.pos hfound
  have hsame := (hall sort').unique hr
  unfold computeConsensusMethod at hsame
  cases hbest : (frequentMembers sort' (votes.length * 2 / 3) (methodLists votes)).getLast? with
  | some best =>
    rw [hbest] at hsame
    exact hsort' best (List.mem_of_getLast? hbest) hsame
  | none =>
    rw [hbest] at hsame
    have hjunk' := hjunk hsame.symm
    push Not at hjunk'
    obtain ⟨s, hs0, hs⟩ := hjunk'
    -- a text without a number has no ties
    have hmem : s ∈ frequentMembers sort' (votes.length * 2 / 3) (methodLists votes) := by
      refine mem_of_backing (consistent_methods votes) ?_ (by omega)
      exact fun y _ heq => eq_of_cmpIntStrings heq hs0
    rw [List.getLast?_eq_none_iff.mp hbest] at hmem
    cases hmem

end Method

/-! ### The versions -/

section Versions

variable {field : CountedVote → Option (List UInt8)} {votes votes' : List CountedVote}
  {sort sort' : ℕ → Sorter compareTorVersionStrPtr}

def versionBackers (field : CountedVote → Option (List UInt8)) (votes : List CountedVote)
    (version : List UInt8) : ℕ :=
  backing (versionLists field votes) (· = version)

def VersionsOrdered (field : CountedVote → Option (List UInt8)) (votes : List CountedVote) : Prop :=
  ConsistentOn compareTorVersionStrPtr (versionLists field votes).flatten

/-- **The condition**: no version that more than half of the voters list compares equal to another string
that is listed. -/
def VersionsTieFree (field : CountedVote → Option (List UInt8)) (votes : List CountedVote) : Prop :=
  FrequentTieFree compareTorVersionStrPtr ((versionLists field votes).length / 2) (versionLists field votes)

/-- **The versions are those that more than half of the voters list**, each once. -/
def VersionsExact (field : CountedVote → Option (List UInt8)) (votes : List CountedVote)
    (sort : ℕ → Sorter compareTorVersionStrPtr) : Prop :=
  ∃ good : List (List UInt8), computeConsensusVersionsList sort field votes = joinVersions good ∧
    good.Nodup ∧
      ∀ version, version ∈ good ↔ (versionLists field votes).length < 2 * versionBackers field votes version

theorem versionsExact_of_tieFree (h : VersionsOrdered field votes) (htie : VersionsTieFree field votes) :
    VersionsExact field votes sort := by
  refine ⟨_, rfl, frequentMembers_nodup h htie, ?_⟩
  intro version
  rw [mem_frequentMembers_iff h htie, versionBackers]
  omega

theorem versions_perm (h : VersionsOrdered field votes) (htie : VersionsTieFree field votes)
    (hp : votes'.Perm votes) :
    computeConsensusVersionsList sort' field votes' = computeConsensusVersionsList sort field votes := by
  have hp' : (versionLists field votes').Perm (versionLists field votes) := hp.filterMap _
  unfold computeConsensusVersionsList
  rw [hp'.length_eq, frequentMembers_perm h htie hp']

/-- The versions of a vote are not empty and have no comma. -/
theorem splitVersions_plain {s t : List UInt8} (ht : t ∈ splitVersions s) :
    t ≠ [] ∧ ∀ c ∈ t, c ≠ 0x2c := by
  obtain ⟨ht, hne⟩ := List.mem_filter.mp ht
  obtain ⟨u, hu, rfl⟩ := List.mem_map.mp ht
  refine ⟨by simpa using hne, ?_⟩
  intro c hc hcomma
  have hcu : c ∈ u :=
    (List.dropWhile_sublist _).subset ((List.rdropWhile_prefix _ _).subset hc)
  have hnot := not_mem_splitOnP s u hu c hcu
  simp [hcomma] at hnot

/-- What is joined can be taken apart. -/
theorem joinVersions_inj {l l' : List (List UInt8)} (hl : ∀ t ∈ l, t ≠ [] ∧ ∀ c ∈ t, c ≠ 0x2c)
    (hl' : ∀ t ∈ l', t ≠ [] ∧ ∀ c ∈ t, c ≠ 0x2c) (h : joinVersions l = joinVersions l') : l = l' := by
  have hne : ∀ t l, t ≠ [] → joinVersions (t :: l) ≠ [] := by
    intro t l ht hnil
    cases l with
    | nil => simp [joinVersions, ht] at hnil
    | cons u l => simp [joinVersions, List.intercalate, ht] at hnil
  cases l with
  | nil =>
    cases l' with
    | nil => rfl
    | cons t l' => exact absurd h.symm (hne t l' (hl' t List.mem_cons_self).1)
  | cons t l =>
    cases l' with
    | nil => exact absurd h (hne t l (hl t List.mem_cons_self).1)
    | cons t' l' =>
      have hsplit := List.splitOn_intercalate (0x2c : UInt8) (fun u hu hc => (hl u hu).2 _ hc rfl)
        (List.cons_ne_nil t l)
      have hsplit' := List.splitOn_intercalate (0x2c : UInt8) (fun u hu hc => (hl' u hu).2 _ hc rfl)
        (List.cons_ne_nil t' l')
      unfold joinVersions at h
      rw [← hsplit, h, hsplit']

theorem mem_versionLists {version : List UInt8} (h : version ∈ (versionLists field votes).flatten) :
    version ≠ [] ∧ ∀ c ∈ version, c ≠ 0x2c := by
  obtain ⟨l, hl, hversion⟩ := List.mem_flatten.mp h
  obtain ⟨v, _, hv⟩ := List.mem_filterMap.mp hl
  obtain ⟨s, _, rfl⟩ := Option.map_eq_some_iff.mp hv
  exact splitVersions_plain hversion

/-- **The condition is necessary**, if the comparison orders the versions. -/
theorem versionsTieFree_of_exact (h : VersionsOrdered field votes)
    (hexact : ∀ sort, VersionsExact field votes sort) : VersionsTieFree field votes := by
  refine frequentTieFree_of_complete h (by omega) ?_
  intro sort version hversion
  obtain ⟨good, hjoin, _, hgood⟩ := hexact sort
  have hsame : frequentMembers sort ((versionLists field votes).length / 2) (versionLists field votes) =
      good := by
    refine joinVersions_inj ?_ ?_ hjoin
    · exact fun t ht => mem_versionLists (mem_of_mem_frequentMembers ht)
    · intro t ht
      have hlt := (hgood t).mp ht
      rw [versionBackers] at hlt
      have hpos : 0 < backing (versionLists field votes) (· = t) := by omega
      exact mem_versionLists (mem_flatten_of_backing hpos)
  rw [hsame, hgood, versionBackers]
  omega

end Versions

/-! ### The result -/

/-- Versions are counted exactly: for every sort and every order of the votes. -/
structure VersionsCounted (field : CountedVote → Option (List UInt8)) (votes : List CountedVote) :
    Prop where
  exact : ∀ sort, VersionsExact field votes sort
  perm : ∀ sort sort' votes', votes'.Perm votes →
    computeConsensusVersionsList sort' field votes' = computeConsensusVersionsList sort field votes
  once : ∀ sort : ℕ → Sorter compareTorVersionStrPtr, CountsOnce sort (versionLists field votes)

/-- **Counting is exact**: the method and the versions are those that enough votes list, for every sort
and every order of the votes, and a vote counts once. -/
structure Exact (votes : List CountedVote) : Prop where
  method : ∀ sort, IsConsensusMethod votes (computeConsensusMethod sort votes)
  methodPerm : ∀ sort sort' votes', votes'.Perm votes →
    computeConsensusMethod sort' votes' = computeConsensusMethod sort votes
  methodOnce : ∀ sort : ℕ → Sorter cmpIntStrings, CountsOnce sort (methodLists votes)
  clientVersions : VersionsCounted (·.clientVersions) votes
  serverVersions : VersionsCounted (·.serverVersions) votes

/-- **The condition.** -/
structure Countable (votes : List CountedVote) : Prop where
  spelled : MethodSpelled votes
  clientTieFree : VersionsTieFree (·.clientVersions) votes
  serverTieFree : VersionsTieFree (·.serverVersions) votes

theorem MethodSpelled.perm {votes votes' : List CountedVote} (hp : votes'.Perm votes)
    (h : MethodSpelled votes) : MethodSpelled votes' := by
  have hmap : (methodLists votes').Perm (methodLists votes) := hp.map _
  have hback : ∀ p, backing (methodLists votes') p = backing (methodLists votes) p := fun p =>
    hmap.countP_eq _
  obtain ⟨r, hr, hcond⟩ := h
  refine ⟨r, hr.perm hp.symm, ?_⟩
  rcases hcond with ⟨hlisted, hone⟩ | ⟨rfl, hjunk⟩
  · refine .inl ⟨?_, ?_⟩
    · rw [methodBackers, hback, hp.length_eq]
      exact hlisted
    · rw [hp.length_eq]
      refine hone.imp_right fun h s hs t ht => ?_
      exact h s (hmap.flatten.subset hs) t (hmap.flatten.subset ht)
  · refine .inr ⟨rfl, ?_⟩
    intro s hs
    rw [hback, hp.length_eq]
    exact hjunk s hs

theorem versionsCounted {field : CountedVote → Option (List UInt8)} {votes : List CountedVote}
    (h : VersionsOrdered field votes) (htie : VersionsTieFree field votes) : VersionsCounted field votes :=
  ⟨fun _ => versionsExact_of_tieFree h htie, fun _ _ _ hp => versions_perm h htie hp,
    fun _ => countsOnce h⟩

/-- **When counting is exact**, if the comparison orders the versions that are listed. -/
theorem exact_iff (votes : List CountedVote) (hclient : VersionsOrdered (·.clientVersions) votes)
    (hserver : VersionsOrdered (·.serverVersions) votes) : Exact votes ↔ Countable votes := by
  constructor
  · intro h
    exact ⟨forall_isConsensusMethod_iff.mp h.method, versionsTieFree_of_exact hclient h.clientVersions.exact,
      versionsTieFree_of_exact hserver h.serverVersions.exact⟩
  · intro h
    refine ⟨fun _ => isConsensusMethod_of_spelled h.spelled, ?_, fun _ => countsOnce (consistent_methods votes),
      versionsCounted hclient h.clientTieFree, versionsCounted hserver h.serverTieFree⟩
    intro sort sort' votes' hp
    have h' : IsConsensusMethod votes' (computeConsensusMethod sort' votes') :=
      isConsensusMethod_of_spelled (h.spelled.perm hp)
    exact (h'.perm hp).unique (isConsensusMethod_of_spelled h.spelled)

/-- A method that enough votes list, while enough list no larger one. -/
theorem isConsensusMethod_of_listed {votes : List CountedVote} {r : ℤ} (hpos : 1 ≤ r)
    (hback : 2 * votes.length < 3 * methodBackers votes r)
    (hmax : ∀ s ∈ (methodLists votes).flatten,
      2 * votes.length < 3 * methodBackers votes (methodValue s) → methodValue s ≤ r) :
    IsConsensusMethod votes r := by
  refine .inl ⟨hpos, hback, fun m _ hm => ?_⟩
  obtain ⟨s, hs, rfl⟩ := mem_methods_of_backers hm
  exact hmax s hs hm

/-- The version `0.n.0`, for a digit. -/
def versionText (n : UInt8) : List UInt8 := [0x30, 0x2e, n, 0x2e, 0x30]

/-- Three votes: two methods are in all of them, client version `0.1.0` is in all, `0.2.0` in two, others in one;
two of them list server versions. -/
def threeVotes : List CountedVote :=
  [⟨[[0x31], [0x32]], some (joinVersions [versionText 0x31, versionText 0x32]), some (versionText 0x31)⟩,
   ⟨[[0x31], [0x32], [0x33]], some (joinVersions [versionText 0x33, versionText 0x31]),
     some (joinVersions [versionText 0x31, versionText 0x32])⟩,
   ⟨[[0x32], [0x31]], some (joinVersions [versionText 0x32, versionText 0x31, versionText 0x34]), none⟩]

/-- Methods and versions that are spelled in one way are counted exactly. -/
theorem exact_threeVotes : Exact threeVotes := by
  have htie : ∀ field ∈ [CountedVote.clientVersions, CountedVote.serverVersions],
      VersionsOrdered field threeVotes ∧ VersionsTieFree field threeVotes := by
    intro field hfield
    have hclosed : ∀ field ∈ [CountedVote.clientVersions, CountedVote.serverVersions],
        ConsistentOn compareTorVersionStrPtr (versionLists field threeVotes).flatten ∧
          ∀ x ∈ (versionLists field threeVotes).flatten, ∀ y ∈ (versionLists field threeVotes).flatten,
            compareTorVersionStrPtr y x = .eq → y = x := by
      unfold ConsistentOn
      decide +kernel
    exact ⟨(hclosed field hfield).1, fun x hx => (hclosed field hfield).2 x (mem_flatten_of_backing hx)⟩
  obtain ⟨hclient, hclientTie⟩ := htie (·.clientVersions) List.mem_cons_self
  obtain ⟨hserver, hserverTie⟩ := htie (·.serverVersions) (List.mem_cons_of_mem _ List.mem_cons_self)
  have hmethod : IsConsensusMethod threeVotes 2 :=
    isConsensusMethod_of_listed (by decide) (by decide +kernel) (by decide +kernel)
  exact (exact_iff threeVotes hclient hserver).mpr
    ⟨⟨2, hmethod, .inl ⟨by decide +kernel, .inr (by decide +kernel)⟩⟩, hclientTie, hserverTie⟩

def voteForMethod (s : List UInt8) : CountedVote := ⟨[s], none, none⟩

/-- Three votes list the method 2, one of them as "02". -/
theorem not_exact_leadingZero : ¬Exact ([[0x32], [0x30, 0x32], [0x32]].map voteForMethod) := by
  intro h
  obtain ⟨r, hr, hcond⟩ := forall_isConsensusMethod_iff.mp h.method
  have htwo : IsConsensusMethod ([[0x32], [0x30, 0x32], [0x32]].map voteForMethod) 2 :=
    isConsensusMethod_of_listed (by decide) (by decide +kernel) (by decide +kernel)
  obtain rfl := hr.unique htwo
  rcases hcond with ⟨_, hlen | hone⟩ | ⟨hone, _⟩
  · exact absurd hlen (by decide)
  · have heq := hone [0x32] (by simp [methodLists, voteForMethod]) [0x30, 0x32]
      (by simp [methodLists, voteForMethod]) (by decide +kernel) (by decide +kernel)
    exact absurd heq (by decide)
  · exact absurd hone (by decide)

end TorEbpf.Dirauth
