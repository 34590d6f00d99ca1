import TorEbpf.Lib.Sorting
import TorEbpf.Or.ProtoverEncode
import TorEbpf.Or.ProtoverQuery

/-!
# Voting on protocol versions

The authorities' lists are parsed, the names in them collected and sorted, and for each name a version is
kept if enough of the lists have it; the votes for a version are counted in one byte.

* `toNat_countVotes` — no count overflows, as there are fewer than 256 lists;
* `mem_voteEntries` — which names and versions are kept;
* `voteEntries_spec` — the names come in order, the order of the lists does not matter, and another list
  never takes a version away.
-/

namespace TorEbpf.Or.Protover

open TorEbpf.Lib

/-! ### The vote -/

local instance nameLawfulBEq : LawfulBEq (List UInt8) := inferInstance

/-- `smartlist_add`, unless `smartlist_contains_string`. -/
def addName (names : List (List UInt8)) (ent : ProtoEntry) : List (List UInt8) :=
  if ent.name ∈ names then names else names ++ [ent.name]

/-- A vote is parsed and its names are collected; one that cannot be parsed is skipped. -/
def readVote (st : List (List UInt8) × List (List ProtoEntry)) (vote : List UInt8) :
    List (List UInt8) × List (List ProtoEntry) :=
  match parseProtocolList vote with
  | none => st
  | some unexpanded => (unexpanded.foldl addName st.1, st.2 ++ [unexpanded])

/-- One vote more for each version in the vote's first entry with this name. -/
def countVote (name : List UInt8) (counts : Fin 64 → UInt8) (vote : List ProtoEntry) : Fin 64 → UInt8 :=
  match findEntryByName vote name with
  | none => counts
  | some ent => fun i => if ent.bitmask &&& bit i ≠ 0 then counts i + 1 else counts i

def countVotes (parsed : List (List ProtoEntry)) (name : List UInt8) : Fin 64 → UInt8 :=
  parsed.foldl (countVote name) fun _ => 0

def resultBitmask (counts : Fin 64 → UInt8) (threshold : ℤ) : BitVec 64 :=
  (List.finRange 64).foldl (fun mask i => if threshold ≤ (counts i).toNat then mask ||| bit i else mask) 0

/-- The entry for a name, unless its mask is empty. -/
def resultEntry (parsed : List (List ProtoEntry)) (threshold : ℤ) (name : List UInt8) : Option ProtoEntry :=
  let bitmask := resultBitmask (countVotes parsed name) threshold
  if bitmask ≠ 0 then some ⟨name, bitmask⟩ else none

/-- The entries that `protover_compute_vote` encodes; `sort` is `smartlist_sort_strings`. -/
def voteEntries (sort : Sorter bytesCmp) (votes : List (List UInt8)) (threshold : ℤ) : List ProtoEntry :=
  let st := votes.foldl readVote ([], [])
  (sort.sort st.1).filterMap (resultEntry st.2 threshold)

/-- `protover_compute_vote`; `none` if the assertion on the number of votes fails. -/
def protoverComputeVote (sort : Sorter bytesCmp) (votes : List (List UInt8)) (threshold : ℤ) :
    Option (Encoding (List UInt8)) :=
  if 256 ≤ votes.length then none
  else if votes.length = 0 then some (pure [])
  else some (encodeProtocolList (voteEntries sort votes threshold))

/-! ### What a vote lists -/

/-- The vote can be parsed, and its first entry for the name lists the version. -/
def lists (name : List UInt8) (i : ℕ) (vote : List UInt8) : Bool :=
  match parseProtocolList vote with
  | none => false
  | some entries => (findEntryByName entries name).any (·.bitmask.getLsbD i)

def support (votes : List (List UInt8)) (name : List UInt8) (i : ℕ) : ℕ := votes.countP (lists name i)

section Vote

variable {votes votes' : List (List UInt8)} {name : List UInt8} {entries : List ProtoEntry}
  {names : List (List UInt8)} {threshold : ℤ} {i : ℕ}

/-! ### Names -/

theorem mem_foldl_addName :
    name ∈ entries.foldl addName names ↔ name ∈ names ∨ ∃ e ∈ entries, e.name = name := by
  induction entries generalizing names with
  | nil => simp
  | cons e entries ih =>
    rw [List.foldl_cons, ih, addName]
    split_ifs with hmem
    · constructor
      · rintro (h | ⟨e', he', rfl⟩)
        · exact .inl h
        · exact .inr ⟨e', List.mem_cons_of_mem e he', rfl⟩
      · rintro (h | ⟨e', he', rfl⟩)
        · exact .inl h
        · rcases List.mem_cons.mp he' with rfl | he'
          · exact .inl hmem
          · exact .inr ⟨e', he', rfl⟩
    · rw [List.mem_append, List.mem_singleton, or_assoc, @eq_comm _ name]
      simp only [List.mem_cons, exists_eq_or_imp]

theorem nodup_foldl_addName (h : names.Nodup) : (entries.foldl addName names).Nodup := by
  induction entries generalizing names with
  | nil => exact h
  | cons e entries ih =>
    rw [List.foldl_cons]
    apply ih
    unfold addName
    split_ifs with hmem
    · exact h
    · exact List.nodup_append_comm.mp (List.nodup_cons.mpr ⟨hmem, h⟩)

theorem foldl_readVote (votes : List (List UInt8)) (st : List (List UInt8) × List (List ProtoEntry))
    (hst : st.1.Nodup) :
    (votes.foldl readVote st).2 = st.2 ++ votes.filterMap parseProtocolList ∧
      (votes.foldl readVote st).1.Nodup ∧
      ∀ name, name ∈ (votes.foldl readVote st).1 ↔
        name ∈ st.1 ∨ ∃ entries ∈ votes.filterMap parseProtocolList, ∃ e ∈ entries, e.name = name := by
  induction votes generalizing st with
  | nil => simp [hst]
  | cons vote votes ih =>
    rw [List.foldl_cons, List.filterMap_cons]
    cases hparse : parseProtocolList vote with
    | none =>
      have hread : readVote st vote = st := by rw [readVote, hparse]
      rw [hread]
      exact ih st hst
    | some entries =>
      have hread : readVote st vote = (entries.foldl addName st.1, st.2 ++ [entries]) := by
        rw [readVote, hparse]
      rw [hread]
      obtain ⟨hparsed, hnodup, hnames⟩ := ih (entries.foldl addName st.1, st.2 ++ [entries])
        (nodup_foldl_addName hst)
      refine ⟨by rw [hparsed, List.append_assoc]; rfl, hnodup, fun name => ?_⟩
      rw [hnames, mem_foldl_addName, or_assoc]
      simp only [List.mem_cons, exists_eq_or_imp]

/-! ### Counts -/

theorem countVote_apply (counts : Fin 64 → UInt8) (vote : List ProtoEntry) (i : Fin 64) :
    countVote name counts vote i =
      if (findEntryByName vote name).any (·.bitmask.getLsbD i) = true then counts i + 1 else counts i := by
  unfold countVote
  cases findEntryByName vote name with
  | none => rfl
  | some ent =>
    dsimp only
    simp only [and_bit_ne_zero_iff i.isLt, Option.any_some]

/-- **The byte that counts the votes** does not overflow. -/
theorem toNat_foldl_countVote (parsed : List (List ProtoEntry)) (counts : Fin 64 → UInt8) (i : Fin 64)
    (h : (counts i).toNat + parsed.length < 256) :
    (parsed.foldl (countVote name) counts i).toNat =
      (counts i).toNat + parsed.countP fun vote => (findEntryByName vote name).any (·.bitmask.getLsbD i) := by
  induction parsed generalizing counts with
  | nil => rfl
  | cons vote parsed ih =>
    rw [List.length_cons] at h
    have hone : (1 : UInt8).toNat = 1 := rfl
    have hnext : (countVote name counts vote i).toNat = (counts i).toNat +
        if (findEntryByName vote name).any (·.bitmask.getLsbD i) = true then 1 else 0 := by
      rw [countVote_apply]
      split_ifs with hbit
      · rw [UInt8.toNat_add, hone, Nat.mod_eq_of_lt (by omega)]
      · rfl
    rw [List.foldl_cons, ih _ (by rw [hnext]; split_ifs <;> omega), hnext, List.countP_cons]
    omega

theorem toNat_countVotes (hlen : votes.length < 256) (i : Fin 64) :
    (countVotes (votes.filterMap parseProtocolList) name i).toNat = support votes name i := by
  have hle := List.length_filterMap_le parseProtocolList votes
  have hcount := @toNat_foldl_countVote name (votes.filterMap parseProtocolList) (fun _ => 0) i
    (by rw [UInt8.toNat_zero]; omega)
  rw [UInt8.toNat_zero, Nat.zero_add, List.countP_filterMap] at hcount
  rw [countVotes, hcount, support]
  congr 1
  funext vote
  rw [lists]
  cases parseProtocolList vote <;> rfl

theorem getLsbD_resultBitmask (counts : Fin 64 → UInt8) (j : Fin 64) :
    (resultBitmask counts threshold).getLsbD j = decide (threshold ≤ (counts j).toNat) := by
  have hfold : ∀ (l : List (Fin 64)) (m : BitVec 64),
      (l.foldl (fun mask i => if threshold ≤ (counts i).toNat then mask ||| bit i else mask) m).getLsbD j =
        (m.getLsbD j || decide (j ∈ l ∧ threshold ≤ (counts j).toNat)) := by
    intro l
    induction l with
    | nil => simp
    | cons i l ih =>
      intro m
      rw [List.foldl_cons, ih]
      by_cases hij : j = i
      · subst hij
        split_ifs with hle
        · rw [BitVec.getLsbD_or, getLsbD_bit j.isLt]
          simp [hle]
        · simp [hle]
      · have hmem : j ∈ i :: l ↔ j ∈ l := by rw [List.mem_cons, or_iff_right hij]
        simp only [hmem]
        split_ifs with hle
        · have hbit : (bit i).getLsbD j = false := by
            rw [getLsbD_bit j.isLt, decide_eq_false_iff_not, Fin.val_inj]
            exact hij
          rw [BitVec.getLsbD_or, hbit, Bool.or_false]
        · rfl
  rw [resultBitmask, hfold]
  simp

/-- The mask of a name has the versions with enough votes. -/
theorem getLsbD_resultBitmask_countVotes (hlen : votes.length < 256) (hi : i < 64) :
    (resultBitmask (countVotes (votes.filterMap parseProtocolList) name) threshold).getLsbD i = true ↔
      threshold ≤ support votes name i := by
  have hbit := @getLsbD_resultBitmask threshold (countVotes (votes.filterMap parseProtocolList) name)
    ⟨i, hi⟩
  dsimp only at hbit
  rw [hbit, decide_eq_true_eq, toNat_countVotes hlen]

/-! ### The result -/

variable {sort sort' : Sorter bytesCmp}

/-- A name with votes for a version is one of those that have been collected. -/
theorem exists_entry_of_support (h : 0 < support votes name i) :
    ∃ entries ∈ votes.filterMap parseProtocolList, ∃ e ∈ entries, e.name = name := by
  obtain ⟨vote, hvote, hlists⟩ := List.countP_pos_iff.mp h
  unfold lists at hlists
  cases hparse : parseProtocolList vote with
  | none => rw [hparse] at hlists; cases hlists
  | some entries =>
    rw [hparse] at hlists
    obtain ⟨e, hfind, _⟩ := (Option.any_eq_true _ _).mp hlists
    obtain ⟨hname, before, after, rfl, _⟩ := findEntryByName_iff.mp hfind
    exact ⟨_, List.mem_filterMap.mpr ⟨vote, hvote, hparse⟩, e,
      List.mem_append_right _ List.mem_cons_self, hname⟩

theorem voteEntries_eq (sort : Sorter bytesCmp) (votes : List (List UInt8)) (threshold : ℤ) :
    voteEntries sort votes threshold = (sort.sort (votes.foldl readVote ([], [])).1).filterMap
      (resultEntry (votes.filterMap parseProtocolList) threshold) := by
  rw [voteEntries, (foldl_readVote votes ([], []) List.nodup_nil).1]
  rfl

/-- **The entries of the result**: the versions with enough votes, for every name that has one. -/
theorem mem_voteEntries (hlen : votes.length < 256) (hthreshold : 1 ≤ threshold) {e : ProtoEntry} :
    e ∈ voteEntries sort votes threshold ↔
      e.bitmask ≠ 0 ∧ ∀ i, i < 64 → (e.bitmask.getLsbD i = true ↔ threshold ≤ support votes e.name i) := by
  obtain ⟨_, _, hnames⟩ := foldl_readVote votes ([], []) List.nodup_nil
  rw [voteEntries_eq, List.mem_filterMap]
  constructor
  · rintro ⟨name, _, hentry⟩
    unfold resultEntry at hentry
    dsimp only at hentry
    split_ifs at hentry with hzero
    cases hentry
    exact ⟨hzero, fun i hi => getLsbD_resultBitmask_countVotes hlen hi⟩
  · rintro ⟨hzero, hbits⟩
    have hmask : resultBitmask (countVotes (votes.filterMap parseProtocolList) e.name) threshold
        = e.bitmask := by
      apply BitVec.eq_of_getLsbD_eq
      intro i hi
      rw [Bool.eq_iff_iff, getLsbD_resultBitmask_countVotes hlen hi, hbits i hi]
    refine ⟨e.name, ?_, ?_⟩
    · rw [(sort.perm _).mem_iff, hnames]
      by_contra hnone
      -- without a vote there is no version in the mask
      apply hzero
      apply BitVec.eq_of_getLsbD_eq
      intro i hi
      rw [BitVec.ofNat_eq_ofNat, BitVec.getLsbD_zero, ← Bool.not_eq_true, hbits i hi]
      intro hle
      exact hnone (.inr (@exists_entry_of_support votes e.name i (by omega)))
    · unfold resultEntry
      dsimp only
      rw [hmask, if_pos hzero]

/-- **The names come in order**, and none twice. -/
theorem voteEntries_sorted (sort : Sorter bytesCmp) (votes : List (List UInt8)) (threshold : ℤ) :
    (voteEntries sort votes threshold).Pairwise fun a b => bytesCmp a.name b.name = .lt := by
  obtain ⟨_, hnodup, _⟩ := foldl_readVote votes ([], []) List.nodup_nil
  have hsorted := sort.sorted (votes.foldl readVote ([], [])).1 (consistentOn_of_transCmp bytesCmp _)
  have hdistinct := (sort.perm _).nodup_iff.mpr hnodup
  have hlt : (sort.sort (votes.foldl readVote ([], [])).1).Pairwise fun a b => bytesCmp a b = .lt := by
    refine hsorted.imp₂ (fun a b hle hne => ?_) hdistinct
    cases hcmp : bytesCmp a b with
    | lt => rfl
    | eq => exact absurd (Std.LawfulEqCmp.eq_of_compare hcmp) hne
    | gt => rw [hcmp] at hle; cases hle
  rw [voteEntries_eq, List.pairwise_filterMap]
  refine hlt.imp fun {a b} hab e he e' he' => ?_
  have hname : ∀ {name e}, resultEntry (votes.filterMap parseProtocolList) threshold name = some e →
      e.name = name := by
    intro name e h
    unfold resultEntry at h
    dsimp only at h
    split_ifs at h
    cases h
    rfl
  rw [hname he, hname he']
  exact hab

/-- **The order of the lists does not matter**, nor how the names are sorted. -/
theorem voteEntries_perm (hlen : votes.length < 256) (hthreshold : 1 ≤ threshold) (hperm : votes.Perm votes') :
    voteEntries sort votes threshold = voteEntries sort' votes' threshold := by
  have hne : ∀ {a b : ProtoEntry}, bytesCmp a.name b.name = .lt → a ≠ b := by
    rintro a _ hlt rfl
    rw [@Std.ReflCmp.compare_self _ bytesCmp] at hlt
    cases hlt
  have hsorted := voteEntries_sorted sort votes threshold
  have hsorted' := voteEntries_sorted sort' votes' threshold
  have hp : (voteEntries sort votes threshold).Perm (voteEntries sort' votes' threshold) := by
    refine (List.perm_ext_iff_of_nodup (hsorted.imp hne) (hsorted'.imp hne)).mpr fun e => ?_
    rw [mem_voteEntries hlen hthreshold, mem_voteEntries (hperm.length_eq ▸ hlen) hthreshold]
    simp only [support, hperm.countP_eq]
  refine hp.eq_of_pairwise (fun a b _ _ hab hba => ?_) hsorted hsorted'
  rw [@Std.OrientedCmp.eq_swap _ bytesCmp, hba] at hab
  cases hab

/-- What fewer than 256 votes make is the encoding of the entries. -/
theorem protoverComputeVote_eq (sort : Sorter bytesCmp) (hlen : votes.length < 256) (threshold : ℤ) :
    protoverComputeVote sort votes threshold = some (encodeProtocolList (voteEntries sort votes threshold)) := by
  rw [protoverComputeVote, if_neg (by omega)]
  split_ifs with hzero
  · obtain rfl := List.length_eq_zero_iff.mp hzero
    rw [voteEntries_eq, List.foldl_nil, (sort.perm []).eq_nil]
    rfl
  · rfl

/-- **The vote.**  Its entries are encoded.  Their names come in order; the versions of a name are those that
enough votes list, and each name with such a version is there.  The result does not depend on the order of the
votes, and another vote takes no version away. -/
theorem voteEntries_spec (sort : Sorter bytesCmp) (votes : List (List UInt8)) (hlen : votes.length < 256)
    (hthreshold : 1 ≤ threshold) :
    protoverComputeVote sort votes threshold = some (encodeProtocolList (voteEntries sort votes threshold)) ∧
      (voteEntries sort votes threshold).Pairwise (fun a b => bytesCmp a.name b.name = .lt) ∧
      (∀ e, e ∈ voteEntries sort votes threshold ↔ e.bitmask ≠ 0 ∧
        ∀ i, i < 64 → (e.bitmask.getLsbD i = true ↔ threshold ≤ support votes e.name i)) ∧
      (∀ sort' votes', votes.Perm votes' →
        protoverComputeVote sort' votes' threshold = protoverComputeVote sort votes threshold) ∧
      ∀ vote votes', (vote :: votes).Perm votes' → votes'.length < 256 →
        ∀ e ∈ voteEntries sort votes threshold, ∃ e' ∈ voteEntries sort votes' threshold,
          e'.name = e.name ∧ ∀ i, i < 64 → e.bitmask.getLsbD i = true → e'.bitmask.getLsbD i = true := by
  refine ⟨protoverComputeVote_eq sort hlen threshold, voteEntries_sorted sort votes threshold,
    fun e => mem_voteEntries hlen hthreshold, fun sort' votes' hperm => ?_, fun vote votes' hperm hlen' e he => ?_⟩
  · rw [protoverComputeVote_eq sort hlen, protoverComputeVote_eq sort' (hperm.length_eq ▸ hlen),
      @voteEntries_perm votes votes' threshold sort sort' hlen hthreshold hperm]
  · obtain ⟨hzero, hbits⟩ := (mem_voteEntries hlen hthreshold).mp he
    have hbits' : ∀ i, i < 64 → _ := fun i hi =>
      @getLsbD_resultBitmask_countVotes votes' e.name threshold i hlen' hi
    have hmore : ∀ i, i < 64 → e.bitmask.getLsbD i = true →
        (resultBitmask (countVotes (votes'.filterMap parseProtocolList) e.name) threshold).getLsbD i
          = true := by
      intro i hi hbit
      have hle : support votes e.name i ≤ support votes' e.name i := by
        rw [support, support, ← hperm.countP_eq, List.countP_cons]
        exact Nat.le_add_right _ _
      have hthis := (hbits i hi).mp hbit
      rw [hbits' i hi]
      omega
    obtain ⟨i, hi, hbit, _⟩ := (@and_ne_zero_iff e.bitmask e.bitmask).mp (by rwa [BitVec.and_self])
    refine ⟨⟨e.name, _⟩, (mem_voteEntries hlen' hthreshold).mpr ⟨?_, hbits'⟩, rfl, hmore⟩
    exact ne_zero_of_getLsbD (hmore i hi hbit)

/-- Two votes of three. -/
theorem voteEntries_spec_link : ⟨bytes "Link", 4⟩ ∈ voteEntries (Sorter.merge bytesCmp)
    [bytes "Link=1-2", bytes "?", bytes "Cons=1 Link=2-3"] 2 := by
  have hspec := @voteEntries_spec 2 (Sorter.merge bytesCmp)
    [bytes "Link=1-2", bytes "?", bytes "Cons=1 Link=2-3"] (by decide) (by decide)
  exact (hspec.2.2.1 ⟨bytes "Link", 4⟩).mpr (by decide +kernel)

end Vote

end TorEbpf.Or.Protover
