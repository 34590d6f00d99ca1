import Mathlib
import TorEbpf.Container.Smartlist
import TorEbpf.Dirauth.SharedRandom
import TorEbpf.Lib.Decimal

/-!
# Shared random values of a consensus

`sr_get_string_for_consensus` of `shared_random.c` takes the shared random values that most votes list.
The values are sorted and the longest run of equal ones is looked for; the line that is printed also has
`num_reveals`, of the vote whose value stands first in the run.

* `backed_of_majority` — a value that is printed was voted for by more than half of the authorities;
* `orderFree_iff` — the lines do not depend on the order of the votes, or on the sort, exactly if the
  votes for a printed value agree on its `num_reveals`.
-/

namespace TorEbpf.Dirauth

open TorEbpf.Lib TorEbpf.Container

/-! ### Printing -/

/-- `previous_srv_str`: "shared-rand-previous-value". -/
def previousSrvStr : List UInt8 :=
  [0x73, 0x68, 0x61, 0x72, 0x65, 0x64, 0x2d, 0x72, 0x61, 0x6e, 0x64, 0x2d, 0x70, 0x72, 0x65, 0x76, 0x69,
    0x6f, 0x75, 0x73, 0x2d, 0x76, 0x61, 0x6c, 0x75, 0x65]

/-- `current_srv_str`: "shared-rand-current-value". -/
def currentSrvStr : List UInt8 :=
  [0x73, 0x68, 0x61, 0x72, 0x65, 0x64, 0x2d, 0x72, 0x61, 0x6e, 0x64, 0x2d, 0x63, 0x75, 0x72, 0x72, 0x65,
    0x6e, 0x74, 0x2d, 0x76, 0x61, 0x6c, 0x75, 0x65]

def srvToNsString (srv : SrSrv) (key : List UInt8) : List UInt8 :=
  key ++ (32 :: (decimal srv.numReveals.toNat ++ (32 :: (base64Encode srv.value.val ++ [10]))))

def getNsStrFromSrValues (prevSrv curSrv : Option SrSrv) : Option (List UInt8) :=
  if prevSrv = none ∧ curSrv = none then none
  else some ((prevSrv.map fun s => srvToNsString s previousSrvStr).getD [] ++
    (curSrv.map fun s => srvToNsString s currentSrvStr).getD [])

/-! ### Votes -/

/-- `sr_info` of a vote. -/
structure SrVote where
  participate : Bool
  currentSrv : Option SrSrv
  previousSrv : Option SrSrv
  deriving DecidableEq, Repr

/-- What the authority knows: whether it takes part, how many authorities there are, whether its own value
is fresh, and `AuthDirNumSRVAgreements` of the votes. -/
structure SrView where
  authDirSharedRandomness : Bool
  nAuthorities : ℕ
  srvIsFresh : Bool
  numSrvAgreements : ℤ

def shouldKeepSrv (view : SrView) (nAgreements : ℕ) : Bool :=
  view.nAuthorities / 2 + 1 ≤ nAgreements &&
    (!view.srvIsFresh || decide (view.numSrvAgreements ≤ nAgreements))

def compareSrv : SrSrv → SrSrv → Ordering := cmpOn (fun s => s.value.val) bytesCmp

instance : Std.TransCmp compareSrv :=
  inferInstanceAs (Std.TransCmp (cmpOn (fun s : SrSrv => s.value.val) bytesCmp))

/-- `srv_list`: the values of the votes that take part. -/
def srvList (votes : List SrVote) (current : Bool) : List SrSrv :=
  (votes.filter (·.participate)).filterMap fun v => if current then v.currentSrv else v.previousSrv

def getMajoritySrvFromVotes (view : SrView) (sorter : Sorter compareSrv) (votes : List SrVote)
    (current : Bool) : Option SrSrv :=
  match smartlistGetMostFrequent compareSrv (sorter.sort (srvList votes current)) with
  | (some mostFrequentSrv, count) => if shouldKeepSrv view count then some mostFrequentSrv else none
  | (none, _) => none

def srGetStringForConsensus (view : SrView) (sorter : Sorter compareSrv) (votes : List SrVote) :
    Option (List UInt8) :=
  if view.authDirSharedRandomness then
    getNsStrFromSrValues (getMajoritySrvFromVotes view sorter votes false)
      (getMajoritySrvFromVotes view sorter votes true)
  else none

/-! ### The winner -/

/-- How many votes that take part list the value of `srv`. -/
def votesFor (votes : List SrVote) (current : Bool) (srv : SrSrv) : ℕ :=
  (srvList votes current).countP fun s => s.value = srv.value

/-- The value that is printed: most votes list it, the larger one if there are two, and they are
enough. -/
def Printed (view : SrView) (votes : List SrVote) (current : Bool) (srv : SrSrv) : Prop :=
  srv ∈ srvList votes current ∧ shouldKeepSrv view (votesFor votes current srv) = true ∧
    ∀ s ∈ srvList votes current, votesFor votes current s < votesFor votes current srv ∨
      votesFor votes current s = votesFor votes current srv ∧ (compareSrv s srv).isLE = true

theorem compareSrv_eq_iff {a b : SrSrv} : compareSrv a b = .eq ↔ a.value = b.value := by
  constructor
  · intro h
    have hval : a.value.val = b.value.val := Std.LawfulEqCmp.eq_of_compare h
    cases ha : a.value
    cases hb : b.value
    rw [ha, hb] at hval
    subst hval
    rfl
  · intro h
    rw [compareSrv, cmpOn, h]
    exact Std.ReflCmp.compare_self

theorem tally_eq_votesFor (votes : List SrVote) (current : Bool) (srv : SrSrv) :
    tally compareSrv (srvList votes current) srv = votesFor votes current srv := by
  unfold tally votesFor
  refine List.countP_congr ?_
  intro x _
  simp [compareSrv_eq_iff]

theorem srvList_perm {votes votes' : List SrVote} (h : votes.Perm votes') (current : Bool) :
    (srvList votes current).Perm (srvList votes' current) := (h.filter _).filterMap _

variable {view : SrView} {votes votes' : List SrVote} {current : Bool} {srv : SrSrv}
  {sorter : Sorter compareSrv}

/-- A winner in the sorted list is printed if it has enough votes. -/
theorem printed_iff_of_isWinner {c : ℕ}
    (h : IsWinner compareSrv (sorter.sort (srvList votes current)) srv c) :
    Printed view votes current srv ↔ shouldKeepSrv view c = true := by
  have hperm := sorter.perm (srvList votes current)
  have hc : c = votesFor votes current srv := by
    rw [h.count, tally_perm hperm, tally_eq_votesFor]
  rw [Printed, hc]
  constructor
  · intro hp
    exact hp.2.1
  · intro hk
    refine ⟨hperm.mem_iff.mp h.mem, hk, ?_⟩
    intro s hs
    have hmost := h.most s (hperm.mem_iff.mpr hs)
    rw [tally_perm hperm, tally_eq_votesFor, hc] at hmost
    exact hmost

/-- **What is chosen** is printed, and stands first of its value in the sorted list. -/
theorem getMajority_eq_some (h : getMajoritySrvFromVotes view sorter votes current = some srv) :
    Printed view votes current srv ∧
      (sorter.sort (srvList votes current)).find? (fun x => compareSrv x srv == .eq) = some srv := by
  unfold getMajoritySrvFromVotes at h
  by_cases hnil : sorter.sort (srvList votes current) = []
  · rw [hnil] at h
    cases h
  · obtain ⟨x, c, heq, hwin⟩ := isWinner_mostFrequent hnil
      (sorter.sorted _ (consistentOn_of_transCmp _ _))
    rw [heq] at h
    dsimp only at h
    split_ifs at h with hk
    cases h
    exact ⟨(printed_iff_of_isWinner hwin).mpr hk, hwin.first⟩

/-- A value that is to be printed is chosen, with one of the votes' `num_reveals`. -/
theorem exists_getMajority (h : Printed view votes current srv) (sorter : Sorter compareSrv) :
    ∃ s, getMajoritySrvFromVotes view sorter votes current = some s ∧ s.value = srv.value := by
  have hperm := sorter.perm (srvList votes current)
  have hnil : sorter.sort (srvList votes current) ≠ [] := by
    intro hnil
    have hmem := hperm.mem_iff.mpr h.1
    rw [hnil] at hmem
    cases hmem
  obtain ⟨x, c, heq, hwin⟩ := isWinner_mostFrequent hnil
    (sorter.sorted _ (consistentOn_of_transCmp _ _))
  -- two elements that occur most and are not smaller than each other are equal
  have hc : c = votesFor votes current x := by
    rw [hwin.count, tally_perm hperm, tally_eq_votesFor]
  have hx := h.2.2 x (hperm.mem_iff.mp hwin.mem)
  have hsrv := hwin.most srv (hperm.mem_iff.mpr h.1)
  rw [tally_perm hperm, tally_eq_votesFor, hc] at hsrv
  have hval : votesFor votes current x = votesFor votes current srv ∧ x.value = srv.value := by
    rcases hx with hlt | ⟨heq', hle⟩
    · rcases hsrv with hlt' | ⟨heq'', _⟩
      · omega
      · omega
    · rcases hsrv with hlt' | ⟨_, hle'⟩
      · omega
      · refine ⟨heq', compareSrv_eq_iff.mp ?_⟩
        rw [@Std.OrientedCmp.eq_swap _ compareSrv _ _ _] at hle'
        revert hle hle'
        cases compareSrv x srv <;> simp
  refine ⟨x, ?_, hval.2⟩
  unfold getMajoritySrvFromVotes
  rw [heq]
  dsimp only
  rw [hc, hval.1, if_pos h.2.1]

/-- **A printed value has a majority.** -/
theorem backed_of_majority (h : getMajoritySrvFromVotes view sorter votes current = some srv) :
    view.nAuthorities < 2 * votesFor votes current srv := by
  have hk := (getMajority_eq_some h).1.2.1
  rw [shouldKeepSrv, Bool.and_eq_true, decide_eq_true_eq] at hk
  omega

/-! ### The order of the votes -/

/-- **Order-free**: every order of the votes and every sort give the same lines, and the values in them
have a majority. -/
def OrderFree (view : SrView) (votes : List SrVote) : Prop :=
  ∀ (sorter sorter' : Sorter compareSrv) (votes' : List SrVote), votes'.Perm votes →
    srGetStringForConsensus view sorter votes = srGetStringForConsensus view sorter' votes' ∧
      ∀ current srv, getMajoritySrvFromVotes view sorter' votes' current = some srv →
        view.nAuthorities < 2 * votesFor votes' current srv

/-- The votes for a printed value agree on `num_reveals`. -/
def RevealsAgree (view : SrView) (votes : List SrVote) (current : Bool) : Prop :=
  ∀ a b, Printed view votes current a → b ∈ srvList votes current → b.value = a.value →
    b.numReveals = a.numReveals

theorem Printed.perm (hp : votes.Perm votes') (h : Printed view votes current srv) :
    Printed view votes' current srv := by
  have hl := srvList_perm hp current
  have hv : ∀ s, votesFor votes' current s = votesFor votes current s := fun s => (hl.countP_eq _).symm
  refine ⟨hl.mem_iff.mp h.1, ?_, ?_⟩
  · rw [hv]
    exact h.2.1
  · intro s hs
    rw [hv, hv]
    exact h.2.2 s (hl.mem_iff.mpr hs)

theorem RevealsAgree.perm (hp : votes.Perm votes') (h : RevealsAgree view votes current) :
    RevealsAgree view votes' current := by
  intro a b ha hb
  exact h a b (ha.perm hp.symm) ((srvList_perm hp current).mem_iff.mpr hb)

/-- If they agree, one of the values that are chosen is the other. -/
theorem getMajority_of_revealsAgree (h : RevealsAgree view votes current) (hp : votes'.Perm votes)
    {sorter sorter' : Sorter compareSrv}
    (hs : getMajoritySrvFromVotes view sorter votes current = some srv) :
    getMajoritySrvFromVotes view sorter' votes' current = some srv := by
  have hprinted := (getMajority_eq_some hs).1
  obtain ⟨s, hs', hval⟩ := exists_getMajority (hprinted.perm hp.symm) sorter'
  have hmem := (srvList_perm hp current).mem_iff.mp (getMajority_eq_some hs').1.1
  have hnum := h srv s hprinted hmem hval
  rw [hs']
  cases s
  cases srv
  simp only at hval hnum
  rw [hval, hnum]

theorem getMajority_eq (h : RevealsAgree view votes current) (hp : votes'.Perm votes)
    (sorter sorter' : Sorter compareSrv) :
    getMajoritySrvFromVotes view sorter votes current =
      getMajoritySrvFromVotes view sorter' votes' current := by
  cases hs : getMajoritySrvFromVotes view sorter votes current with
  | some srv => exact (getMajority_of_revealsAgree h hp hs).symm
  | none =>
    cases hs' : getMajoritySrvFromVotes view sorter' votes' current with
    | none => rfl
    | some srv =>
      have hback : getMajoritySrvFromVotes view sorter votes current = some srv :=
        getMajority_of_revealsAgree (h.perm hp.symm) hp.symm hs'
      rw [hs] at hback
      cases hback

theorem getMajority_favoring (h : Printed view votes current srv) :
    getMajoritySrvFromVotes view (.favoring compareSrv fun x => decide (x = srv)) votes current =
      some srv := by
  obtain ⟨s, hs, hval⟩ := exists_getMajority h (.favoring compareSrv fun x => decide (x = srv))
  have hfirst := (getMajority_eq_some hs).2
  have hfav := @Sorter.find_favoring _ compareSrv _ _ _ _ h.1 (fun x => decide_eq_true_iff (p := x = srv))
  have hsame : (fun x => compareSrv x s == .eq) = fun x => compareSrv x srv == .eq := by
    funext x
    rw [Std.TransCmp.congr_right (compareSrv_eq_iff.mpr hval)]
  rw [hsame, hfav] at hfirst
  rw [hs]
  exact hfirst.symm

/-- **A line shows `num_reveals`.** -/
theorem srvToNsString_inj {a b : SrSrv} {key r r' : List UInt8} (hval : a.value = b.value)
    (h : srvToNsString a key ++ r = srvToNsString b key ++ r') :
    a.numReveals = b.numReveals ∧ r = r' := by
  unfold srvToNsString at h
  rw [List.append_assoc, List.append_assoc, List.append_cancel_left_eq, List.cons_append,
    List.cons_append, List.cons_inj_right, List.append_assoc, List.append_assoc] at h
  have hread := congrArg readDecimal h
  rw [List.cons_append, List.cons_append, readDecimal_decimal _ (by intro c hc; cases hc; rfl),
    readDecimal_decimal _ (by intro c hc; cases hc; rfl)] at hread
  have hpair := Option.some.inj hread
  refine ⟨UInt64.toNat_inj.mp (congrArg Prod.fst hpair), ?_⟩
  have hrest := congrArg Prod.snd hpair
  simp only [List.cons_inj_right, hval] at hrest
  rw [List.append_assoc, List.append_assoc, List.append_cancel_left_eq] at hrest
  simpa using hrest

/-- A line of the consensus, or none. -/
def lineOf (srv : Option SrSrv) (key : List UInt8) : List UInt8 :=
  (srv.map fun s => srvToNsString s key).getD []

theorem lineOf_inj {a b : SrSrv} {p q : Option SrSrv} {key r r' : List UInt8} (hp : p = some a)
    (hq : q = some b) (hval : a.value = b.value) (h : lineOf p key ++ r = lineOf q key ++ r') :
    a.numReveals = b.numReveals ∧ r = r' := by
  subst hp
  subst hq
  exact srvToNsString_inj hval h

theorem getMajority_value (sorter sorter' : Sorter compareSrv) :
    (getMajoritySrvFromVotes view sorter votes current = none ∧
        getMajoritySrvFromVotes view sorter' votes current = none) ∨
      ∃ a b, getMajoritySrvFromVotes view sorter votes current = some a ∧
        getMajoritySrvFromVotes view sorter' votes current = some b ∧ a.value = b.value := by
  cases hs : getMajoritySrvFromVotes view sorter votes current with
  | some a =>
    obtain ⟨b, hb, hval⟩ := exists_getMajority (getMajority_eq_some hs).1 sorter'
    exact .inr ⟨a, b, rfl, hb, hval.symm⟩
  | none =>
    cases hs' : getMajoritySrvFromVotes view sorter' votes current with
    | none => exact .inl ⟨rfl, rfl⟩
    | some b =>
      obtain ⟨a, ha, _⟩ := exists_getMajority (getMajority_eq_some hs').1 sorter
      rw [hs] at ha
      cases ha

theorem getNsStr_eq {p q p' q' : Option SrSrv}
    (h : getNsStrFromSrValues p q = getNsStrFromSrValues p' q') :
    lineOf p previousSrvStr ++ lineOf q currentSrvStr =
      lineOf p' previousSrvStr ++ lineOf q' currentSrvStr := by
  unfold getNsStrFromSrValues at h
  split_ifs at h with h₁ h₂ h₂
  · rw [h₁.1, h₁.2, h₂.1, h₂.2]
  · exact Option.some.inj h

/-- **Equal lines, equal numbers.** -/
theorem numReveals_eq_of_string {sorter sorter' : Sorter compareSrv}
    (hsr : view.authDirSharedRandomness = true)
    (h : srGetStringForConsensus view sorter votes = srGetStringForConsensus view sorter' votes)
    {a b : SrSrv} (ha : getMajoritySrvFromVotes view sorter votes current = some a)
    (hb : getMajoritySrvFromVotes view sorter' votes current = some b) :
    a.numReveals = b.numReveals := by
  rw [srGetStringForConsensus, srGetStringForConsensus, if_pos hsr, if_pos hsr] at h
  have hline := getNsStr_eq h
  have hval : a.value = b.value := by
    rcases @getMajority_value view votes current sorter sorter' with ⟨hnone, _⟩ | ⟨a', b', ha', hb', hval⟩
    · rw [hnone] at ha
      cases ha
    · rw [ha] at ha'
      rw [hb] at hb'
      cases ha'
      cases hb'
      exact hval
  cases current with
  | false => exact (lineOf_inj ha hb hval hline).1
  | true =>
    -- the lines of the previous value are equal, so those of the current one are
    have hcur : lineOf (getMajoritySrvFromVotes view sorter votes true) currentSrvStr =
        lineOf (getMajoritySrvFromVotes view sorter' votes true) currentSrvStr := by
      rcases @getMajority_value view votes false sorter sorter' with
        ⟨hp, hq⟩ | ⟨p, q, hp, hq, hval'⟩
      · rw [hp, hq] at hline
        exact hline
      · exact (lineOf_inj hp hq hval' hline).2
    have hnil : lineOf (getMajoritySrvFromVotes view sorter votes true) currentSrvStr ++ [] =
        lineOf (getMajoritySrvFromVotes view sorter' votes true) currentSrvStr ++ [] := by
      rw [List.append_nil, List.append_nil, hcur]
    exact (lineOf_inj ha hb hval hnil).1

/-- **When the lines of a consensus do not depend on the order of the votes.** -/
theorem orderFree_iff (view : SrView) (votes : List SrVote) :
    OrderFree view votes ↔
      (view.authDirSharedRandomness = true → ∀ current, RevealsAgree view votes current) := by
  constructor
  · intro h hsr current a b ha hb hval
    have hb' : Printed view votes current b := by
      have hv : votesFor votes current b = votesFor votes current a := by
        unfold votesFor
        rw [hval]
      refine ⟨hb, by rw [hv]; exact ha.2.1, ?_⟩
      intro s hs
      rw [hv, Std.TransCmp.congr_right (compareSrv_eq_iff.mpr hval)]
      exact ha.2.2 s hs
    exact (numReveals_eq_of_string hsr
      (h (.favoring compareSrv fun x => decide (x = a)) (.favoring compareSrv fun x => decide (x = b))
        votes (.refl _)).1 (getMajority_favoring ha) (getMajority_favoring hb')).symm
  · intro h sorter sorter' votes' hp
    refine ⟨?_, fun current srv hs => backed_of_majority hs⟩
    unfold srGetStringForConsensus
    split_ifs with hsr
    · rw [getMajority_eq (h hsr false) hp sorter sorter', getMajority_eq (h hsr true) hp sorter sorter']
    · rfl

/-! ### A repeated value -/

/-- A vote for the value 0 with `n` reveals. -/
def voteFor (n : UInt64) : SrVote := ⟨true, some ⟨n, Bytes.pad 32 []⟩, none⟩

/-- Three authorities, one of which has not got a fresh value. -/
def threeAuthorities : SrView := ⟨true, 3, false, 0⟩

/-- The third authority repeats the value of the others with another number of reveals. -/
theorem not_orderFree_repeated : ¬OrderFree threeAuthorities [voteFor 7, voteFor 7, voteFor 8] := by
  intro h
  have hprinted : ∀ n, n = 7 ∨ n = 8 →
      Printed threeAuthorities [voteFor 7, voteFor 7, voteFor 8] true ⟨n, Bytes.pad 32 []⟩ := by
    rintro n (rfl | rfl)
    · exact ⟨by decide +kernel, by decide +kernel, by decide +kernel⟩
    · exact ⟨by decide +kernel, by decide +kernel, by decide +kernel⟩
  have heq := numReveals_eq_of_string rfl
    (h (.favoring compareSrv fun x => decide (x = ⟨7, Bytes.pad 32 []⟩))
      (.favoring compareSrv fun x => decide (x = ⟨8, Bytes.pad 32 []⟩)) _ (.refl _)).1
    (getMajority_favoring (hprinted 7 (.inl rfl))) (getMajority_favoring (hprinted 8 (.inr rfl)))
  exact absurd heq (by decide)

end TorEbpf.Dirauth
