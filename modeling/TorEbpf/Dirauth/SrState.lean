import Mathlib
import TorEbpf.Dirauth.SharedRandom
import TorEbpf.Lib.Events
import TorEbpf.Strings.ParseInt

/-!
# The shared-random protocol

The state of an authority in the commit-and-reveal protocol, after `shared_random_state.c`: votes bring
commits (`sr_handle_received_commits`), and `sr_state_update` moves the state to the next voting round.  A
run of the protocol is 24 rounds, 12 to commit and 12 to reveal; which phase it is follows from the time,
but the commits are only deleted when the phase changes from reveal to commit.

`storedIn` and `revealedIn` are not in the source: the run in which a commit was stored, and the phase in
which a reveal of a vote was taken.

* `sound_of_step` — every commit is what its encoding says, and a reveal taken from a vote matches it;
* `integrity_of_run` — commitments stay while a run lasts, and none of an earlier run is left, if no run is
  entered from another one but in its commit phase and from the reveal phase.
-/

namespace TorEbpf.Dirauth

open TorEbpf.Lib TorEbpf.Dircommon TorEbpf.Strings

/-! ### Commits of votes -/

/-- `SR_COMMIT_LEN` and `SR_REVEAL_LEN`: a timestamp and 32 bytes. -/
def srCommitLen : ℕ := 40

/-- What `commit_decode` and `reveal_decode` read out of a value of a vote. -/
def srDecode (encoded : List UInt8) : Option (UInt64 × Bytes 32) :=
  if srRevealBase64Len < encoded.length then none
  else
    match base64Decode srCommitLen encoded with
    | some b =>
        if b.length = srCommitLen then
          some (UInt64.ofNat (beNat (b.take 8)), Bytes.pad 32 (b.drop 8))
        else none
    | none => none

def sha3Name : List UInt8 := [0x73, 0x68, 0x61, 0x33, 0x2d, 0x32, 0x35, 0x36]

/-- `sr_parse_commit`: version, algorithm, fingerprint, commit value and maybe a reveal value. -/
def srParseCommit (args : List (List UInt8)) : Option SrCommit :=
  match args with
  | version :: alg :: fpr :: commitValue :: rest =>
      if srProtoVersion < wholeUlong version 1 (2 ^ 32 - 1) then none
      else if alg ≠ sha3Name then none
      else if fpr.length < 40 then none
      else
        match base16Decode (fpr.take 40), srDecode commitValue with
        | some digest, some (commitTs, hashedReveal) =>
            let commit : SrCommit := ⟨false, Bytes.pad 20 digest, commitTs, hashedReveal, commitValue,
              0, Bytes.pad 32 [], []⟩
            match rest with
            | [] => some commit
            | revealValue :: _ =>
                match srDecode revealValue with
                | some (revealTs, randomNumber) =>
                    some { commit with
                      revealTs := revealTs, randomNumber := randomNumber,
                      encodedReveal := revealValue }
                | none => none
        | _, _ => none
  | _ => none

/-- `sr_generate_our_commit`, with a random number. -/
def srGenerateOurCommit (H : Digest256) (me : Bytes 20) (timestamp : ℕ) (randomNumber : Bytes 32) :
    SrCommit :=
  let ts := UInt64.ofNat timestamp
  let reveal := base64Encode (beBytes 8 ts.toNat ++ randomNumber.val)
  let hashed := H (Bytes.pad srRevealBase64Len reveal).val
  ⟨true, me, ts, hashed, base64Encode (beBytes 8 ts.toNat ++ hashed.val), ts, randomNumber, reveal⟩

/-! ### The state -/

/-- An authority: the hash, which authorities it knows, itself, the voting interval, how its commits are
listed and sorted. -/
structure Authority where
  H : Digest256
  recognized : Bytes 20 → Bool
  me : Bytes 20
  votingInterval : ℕ
  order : List SrCommit → List SrCommit
  order_perm : ∀ l, (order l).Perm l
  sorter : Sorter compareReveal

structure SrState where
  phase : SrPhase
  validAfter : ℕ
  commits : List SrCommit
  previousSrv : Option SrSrv
  currentSrv : Option SrSrv
  isSrvFresh : Bool
  nProtocolRuns : ℕ
  nCommitRounds : ℕ
  nRevealRounds : ℕ
  storedIn : Bytes 20 → ℕ
  revealedIn : Bytes 20 → Option SrPhase

def sharedRandomNRounds : ℕ := 12

/-- `SHARED_RANDOM_N_ROUNDS * SHARED_RANDOM_N_PHASES`. -/
def totalRounds : ℕ := sharedRandomNRounds * 2

def getSrProtocolPhase (a : Authority) (validAfter : ℕ) : SrPhase :=
  if validAfter / a.votingInterval % totalRounds < sharedRandomNRounds then .commit else .reveal

/-- The run that a time belongs to. -/
def Authority.runOf (a : Authority) (validAfter : ℕ) : ℕ := validAfter / a.votingInterval / totalRounds

/-- `sr_state_add_commit`: the commit replaces the one of its authority. -/
def addCommit (s : SrState) (run : ℕ) (commit : SrCommit) : SrState :=
  { s with
    commits := s.commits.filter (·.rsaIdentity ≠ commit.rsaIdentity) ++ [commit]
    storedIn := Function.update s.storedIn commit.rsaIdentity run
    revealedIn := Function.update s.revealedIn commit.rsaIdentity none }

/-- `sr_state_copy_reveal_info`, for the saved commit of an authority. -/
def copyRevealInfo (commit saved : SrCommit) : SrCommit :=
  if saved.rsaIdentity = commit.rsaIdentity then
    { saved with
      revealTs := commit.revealTs, randomNumber := commit.randomNumber,
      encodedReveal := commit.encodedReveal }
  else saved

/-- `save_commit_to_state`; a failed assertion is no result. -/
def saveCommitToState (a : Authority) (s : SrState) (commit : SrCommit) : Option SrState :=
  match s.phase with
  | .commit =>
      some { addCommit s (a.runOf s.validAfter) commit with
        revealedIn := Function.update s.revealedIn commit.rsaIdentity
          (if commitHasRevealValue commit then some .commit else none) }
  | .reveal =>
      match getCommit s.commits commit.rsaIdentity with
      | none => none
      | some saved =>
          if commitmentsAreTheSame commit saved then
            some { s with
              commits := s.commits.map (copyRevealInfo commit)
              revealedIn := Function.update s.revealedIn commit.rsaIdentity (some .reveal) }
          else none

/-- One commit of `sr_handle_received_commits`. -/
def handleCommit (a : Authority) (voterKey : Bytes 20) (s : SrState) (commit : SrCommit) :
    Option SrState :=
  if shouldKeepCommit a.H a.recognized s.commits commit voterKey s.phase then
    saveCommitToState a s { commit with valid := true }
  else some s

/-- `sr_handle_received_commits`, on the commit lines of a vote. -/
def srHandleReceivedCommits (a : Authority) (s : SrState) (voterKey : Bytes 20)
    (lines : List (List (List UInt8))) : Option SrState :=
  (lines.filterMap srParseCommit).foldlM (handleCommit a voterKey) s

/-! ### The next round -/

/-- `sr_compute_srv` and the rotation of the values before it. -/
def rotateAndCompute (a : Authority) (s : SrState) : Option SrState :=
  (srComputeSrv a.H a.recognized a.sorter (a.order s.commits) s.currentSrv).map fun (_, srv) =>
    { s with previousSrv := s.currentSrv, currentSrv := some srv, isSrvFresh := true }

def addOurCommit (a : Authority) (s : SrState) (validAfter : ℕ) (random : Option (Bytes 32)) :
    SrState :=
  match random with
  | some rn => addCommit s (a.runOf validAfter) (srGenerateOurCommit a.H a.me validAfter rn)
  | none => s

def newProtocolRun (a : Authority) (s : SrState) (validAfter : ℕ) (random : Option (Bytes 32)) :
    Option SrState :=
  (if s.phase = .reveal then rotateAndCompute a s else some s).map fun s =>
    addOurCommit a { s with
      nRevealRounds := 0, nCommitRounds := 0, nProtocolRuns := s.nProtocolRuns + 1,
      validAfter := validAfter, commits := [] } validAfter random

/-- `sr_state_update` up to the new valid-after time. -/
def enterPhase (a : Authority) (s : SrState) (validAfter : ℕ) (random : Option (Bytes 32)) :
    Option SrState :=
  let nextPhase := getSrProtocolPhase a validAfter
  if s.phase ≠ nextPhase then
    (if nextPhase = .commit then newProtocolRun a s validAfter random else some s).map fun s =>
      { s with phase := nextPhase }
  else if s.phase = .commit ∧ s.commits.length = 0 then some (addOurCommit a s validAfter random)
  else some s

def srStateUpdate (a : Authority) (s : SrState) (validAfter : ℕ) (random : Option (Bytes 32)) :
    Option SrState :=
  if validAfter ≤ s.validAfter then some s
  else
    (enterPhase a s validAfter random).map fun s =>
      if s.phase = .commit then
        if s.nRevealRounds ≠ 0 then { s with validAfter := validAfter }
        else { s with validAfter := validAfter, nCommitRounds := s.nCommitRounds + 1 }
      else { s with validAfter := validAfter, nRevealRounds := s.nRevealRounds + 1 }

inductive SrEvent where
  | update (validAfter : ℕ) (random : Option (Bytes 32))
  | vote (voterKey : Bytes 20) (lines : List (List (List UInt8)))

def SrState.step (a : Authority) (s : SrState) : SrEvent → Option SrState
  | .update validAfter random => srStateUpdate a s validAfter random
  | .vote voterKey lines => srHandleReceivedCommits a s voterKey lines

/-- `state_new`, and the update that `sr_state_init` ends with. -/
def srStateInit (a : Authority) (now validAfter : ℕ) (random : Option (Bytes 32)) : Option SrState :=
  srStateUpdate a ⟨getSrProtocolPhase a now, 0, [], none, none, false, 0, 0, 0, fun _ => 0,
    fun _ => none⟩ validAfter random

/-! ### Soundness -/

def SrCommit.SameCommitment (c c' : SrCommit) : Prop :=
  c'.rsaIdentity = c.rsaIdentity ∧ c'.encodedCommit = c.encodedCommit ∧ c'.commitTs = c.commitTs ∧
    c'.hashedReveal = c.hashedReveal

/-- A commit is what its encoding says, or our own, which was made with its reveal. -/
def Coded (s : SrState) (c : SrCommit) : Prop :=
  srDecode c.encodedCommit = some (c.commitTs, c.hashedReveal) ∨
    commitHasRevealValue c = true ∧ s.revealedIn c.rsaIdentity = none

/-- **Sound**: the phase is that of the time, commits are coded, reveals taken from votes match, and no
commit is of another run. -/
structure Sound (a : Authority) (s : SrState) : Prop where
  phase : s.phase = getSrProtocolPhase a s.validAfter
  distinct : s.commits.Pairwise fun x y => x.rsaIdentity ≠ y.rsaIdentity
  coded : ∀ c ∈ s.commits, Coded s c
  revealed : ∀ c ∈ s.commits, ∀ ph, s.revealedIn c.rsaIdentity = some ph →
    ph = .reveal ∧ verifyCommitAndReveal a.H c = true
  current : ∀ c ∈ s.commits, s.storedIn c.rsaIdentity = a.runOf s.validAfter

/-- Every stored commitment stays. -/
def Keeps (s s' : SrState) : Prop :=
  ∀ c ∈ s.commits, ∃ c' ∈ s'.commits, c.SameCommitment c'

/-- **The condition**: a state with commits goes to another run only from the reveal phase to the commit
phase. -/
def SrState.Meets (a : Authority) (s : SrState) : SrEvent → Prop
  | .update validAfter _ =>
      s.validAfter < validAfter → a.runOf validAfter ≠ a.runOf s.validAfter → s.commits ≠ [] →
        s.phase = .reveal ∧ getSrProtocolPhase a validAfter = .commit
  | .vote _ _ => True

theorem Keeps.refl (s : SrState) : Keeps s s := fun c hc => ⟨c, hc, rfl, rfl, rfl, rfl⟩

theorem Keeps.trans {s t u : SrState} (h₁ : Keeps s t) (h₂ : Keeps t u) : Keeps s u := by
  intro c hc
  obtain ⟨c', hc', h1⟩ := h₁ c hc
  obtain ⟨c'', hc'', h2⟩ := h₂ c' hc'
  exact ⟨c'', hc'', h2.1.trans h1.1, h2.2.1.trans h1.2.1, h2.2.2.1.trans h1.2.2.1,
    h2.2.2.2.trans h1.2.2.2⟩

theorem Keeps.of_commits_eq {s s' : SrState} (h : s'.commits = s.commits) : Keeps s s' := by
  intro c hc
  exact ⟨c, by rw [h]; exact hc, rfl, rfl, rfl, rfl⟩

/-! ### Votes -/

variable {a : Authority} {s s' : SrState}

theorem srParseCommit_coded {args : List (List UInt8)} {c : SrCommit}
    (h : srParseCommit args = some c) :
    srDecode c.encodedCommit = some (c.commitTs, c.hashedReveal) := by
  unfold srParseCommit at h
  split at h
  · split_ifs at h
    split at h
    · next _ _ hdecode =>
      dsimp only at h
      split at h
      · cases h
        exact hdecode
      · split at h
        · cases h
          exact hdecode
        · cases h
    · cases h
  · cases h

theorem getCommit_eq_some {commits : List SrCommit} {id : Bytes 20} {c : SrCommit}
    (h : getCommit commits id = some c) : c ∈ commits ∧ c.rsaIdentity = id := by
  refine ⟨List.mem_of_find?_eq_some h, ?_⟩
  simpa using List.find?_some h

theorem getCommit_eq_none {commits : List SrCommit} {id : Bytes 20}
    (h : getCommit commits id = none) : ∀ c ∈ commits, c.rsaIdentity ≠ id := by
  intro c hc
  simpa using List.find?_eq_none.mp h c hc

/-- What `should_keep_commit` accepts, in each phase. -/
theorem shouldKeepCommit_cases {H : Digest256} {recognized : Bytes 20 → Bool}
    {commits : List SrCommit} {c : SrCommit} {voterKey : Bytes 20} {phase : SrPhase}
    (h : shouldKeepCommit H recognized commits c voterKey phase = true) :
    (phase = .commit ∧ getCommit commits c.rsaIdentity = none ∧ commitHasRevealValue c = false) ∨
      (phase = .reveal ∧ ∃ saved, getCommit commits c.rsaIdentity = some saved ∧
        c.encodedCommit = saved.encodedCommit ∧ commitHasRevealValue saved = false ∧
          commitHasRevealValue c = true ∧ verifyCommitAndReveal H c = true) := by
  unfold shouldKeepCommit at h
  split_ifs at h
  split at h
  · cases h
  · next hnone => exact .inl ⟨rfl, hnone, by simpa using h⟩
  · cases h
  · next saved hsaved =>
    simp only [Bool.and_eq_true, commitmentsAreTheSame, decide_eq_true_eq, Bool.not_eq_true'] at h
    exact .inr ⟨rfl, saved, hsaved, h.1.1.1, h.1.1.2, h.1.2, h.2⟩

theorem saveCommit_commit {c : SrCommit} (hs : Sound a s) (hphase : s.phase = .commit)
    (hnone : getCommit s.commits c.rsaIdentity = none)
    (hdecode : srDecode c.encodedCommit = some (c.commitTs, c.hashedReveal))
    (hreveal : commitHasRevealValue c = false) (h : saveCommitToState a s c = some s') :
    Sound a s' ∧ Keeps s s' := by
  have hne := getCommit_eq_none hnone
  have hfilter : s.commits.filter (·.rsaIdentity ≠ c.rsaIdentity) = s.commits :=
    List.filter_eq_self.mpr fun x hx => by simpa using hne x hx
  unfold saveCommitToState at h
  rw [hphase] at h
  simp only [addCommit, hfilter, hreveal, Bool.false_eq_true, if_false, Option.some.injEq] at h
  subst h
  have hstay : ∀ {β : Type} (f : Bytes 20 → β) (v : β) (x : SrCommit), x ∈ s.commits →
      Function.update f c.rsaIdentity v x.rsaIdentity = f x.rsaIdentity := by
    intro β f v x hx
    exact Function.update_of_ne (hne x hx) v f
  refine ⟨⟨hs.phase, ?_, ?_, ?_, ?_⟩, ?_⟩
  · refine List.pairwise_append.mpr ⟨hs.distinct, List.pairwise_singleton _ _, ?_⟩
    intro x hx y hy
    rw [List.mem_singleton.mp hy]
    exact hne x hx
  · intro x hx
    rcases List.mem_append.mp hx with hx | hx
    · rcases hs.coded x hx with hx' | hx'
      · exact .inl hx'
      · refine .inr ⟨hx'.1, ?_⟩
        dsimp only
        rw [hstay _ _ x hx]
        exact hx'.2
    · rw [List.mem_singleton.mp hx]
      exact .inl hdecode
  · intro x hx ph hph
    dsimp only at hph
    rcases List.mem_append.mp hx with hx | hx
    · rw [hstay _ _ x hx] at hph
      exact hs.revealed x hx ph hph
    · rw [List.mem_singleton.mp hx, Function.update_self] at hph
      cases hph
  · intro x hx
    dsimp only
    rcases List.mem_append.mp hx with hx | hx
    · rw [hstay _ _ x hx]
      exact hs.current x hx
    · rw [List.mem_singleton.mp hx, Function.update_self]
  · intro x hx
    exact ⟨x, List.mem_append_left _ hx, rfl, rfl, rfl, rfl⟩

theorem copyRevealInfo_id (c x : SrCommit) : x.SameCommitment (copyRevealInfo c x) := by
  unfold copyRevealInfo
  split_ifs
  · exact ⟨rfl, rfl, rfl, rfl⟩
  · exact ⟨rfl, rfl, rfl, rfl⟩

theorem Sound.eq_saved (hs : Sound a s) {x saved : SrCommit} {id : Bytes 20} (hx : x ∈ s.commits)
    (hid : x.rsaIdentity = id) (hsaved : getCommit s.commits id = some saved) : x = saved := by
  obtain ⟨hmem, hid'⟩ := getCommit_eq_some hsaved
  by_contra hne
  have hsymm : Std.Symm fun x y : SrCommit => x.rsaIdentity ≠ y.rsaIdentity := ⟨fun _ _ h => h.symm⟩
  exact hs.distinct.forall hx hmem hne (hid.trans hid'.symm)

theorem saveCommit_reveal {c saved : SrCommit} (hs : Sound a s) (hphase : s.phase = .reveal)
    (hsaved : getCommit s.commits c.rsaIdentity = some saved)
    (hsame : c.encodedCommit = saved.encodedCommit) (hno : commitHasRevealValue saved = false)
    (hdecode : srDecode c.encodedCommit = some (c.commitTs, c.hashedReveal))
    (hverify : verifyCommitAndReveal a.H c = true) (h : saveCommitToState a s c = some s') :
    Sound a s' ∧ Keeps s s' := by
  unfold saveCommitToState at h
  rw [hphase, hsaved] at h
  dsimp only at h
  split_ifs at h
  cases h
  -- the saved commit was decoded from the same text
  have hcoded : saved.commitTs = c.commitTs ∧ saved.hashedReveal = c.hashedReveal := by
    rcases hs.coded saved (getCommit_eq_some hsaved).1 with hdec | ⟨hrev, _⟩
    · rw [← hsame, hdecode] at hdec
      have hpair := Option.some.inj hdec
      exact ⟨(congrArg Prod.fst hpair).symm, (congrArg Prod.snd hpair).symm⟩
    · rw [hno] at hrev
      cases hrev
  refine ⟨⟨hphase.symm.trans hs.phase, ?_, ?_, ?_, ?_⟩, ?_⟩
  · refine List.pairwise_map.mpr (hs.distinct.imp ?_)
    intro x y hxy
    rw [(copyRevealInfo_id c x).1, (copyRevealInfo_id c y).1]
    exact hxy
  · intro y hy
    obtain ⟨x, hx, rfl⟩ := List.mem_map.mp hy
    have hid := copyRevealInfo_id c x
    by_cases heq : x.rsaIdentity = c.rsaIdentity
    · left
      rw [hid.2.1, hid.2.2.1, hid.2.2.2, hs.eq_saved hx heq hsaved, ← hsame, hcoded.1, hcoded.2]
      exact hdecode
    · have hcopy : copyRevealInfo c x = x := by
        rw [copyRevealInfo, if_neg heq]
      rw [hcopy]
      rcases hs.coded x hx with hx' | hx'
      · exact .inl hx'
      · refine .inr ⟨hx'.1, ?_⟩
        dsimp only
        rw [Function.update_of_ne heq]
        exact hx'.2
  · intro y hy ph hph
    obtain ⟨x, hx, rfl⟩ := List.mem_map.mp hy
    dsimp only at hph
    rw [(copyRevealInfo_id c x).1] at hph
    by_cases heq : x.rsaIdentity = c.rsaIdentity
    · rw [heq, Function.update_self] at hph
      cases hph
      refine ⟨rfl, ?_⟩
      have hx' := hs.eq_saved hx heq hsaved
      rw [copyRevealInfo, if_pos heq, hx']
      rw [verifyCommitAndReveal] at hverify ⊢
      rw [hcoded.1, hcoded.2]
      exact hverify
    · rw [Function.update_of_ne heq] at hph
      rw [copyRevealInfo, if_neg heq]
      exact hs.revealed x hx ph hph
  · intro y hy
    obtain ⟨x, hx, rfl⟩ := List.mem_map.mp hy
    rw [(copyRevealInfo_id c x).1]
    exact hs.current x hx
  · intro x hx
    exact ⟨copyRevealInfo c x, List.mem_map_of_mem hx, copyRevealInfo_id c x⟩

/-- **One commit of a vote.** -/
theorem sound_handleCommit {voterKey : Bytes 20} {c : SrCommit} (hs : Sound a s)
    (hdecode : srDecode c.encodedCommit = some (c.commitTs, c.hashedReveal))
    (h : handleCommit a voterKey s c = some s') : Sound a s' ∧ Keeps s s' := by
  unfold handleCommit at h
  split_ifs at h with hkeep
  · rcases shouldKeepCommit_cases hkeep with ⟨hphase, hnone, hrev⟩ | ⟨hphase, saved, hsaved, hsame, hno,
      _, hverify⟩
    · exact saveCommit_commit (c := { c with valid := true }) hs hphase hnone hdecode hrev h
    · exact saveCommit_reveal (c := { c with valid := true }) hs hphase hsaved hsame hno hdecode
        hverify h
  · cases h
    exact ⟨hs, Keeps.refl s⟩

theorem saveCommit_validAfter {c : SrCommit} (h : saveCommitToState a s c = some s') :
    s'.validAfter = s.validAfter := by
  unfold saveCommitToState at h
  split at h
  · cases h
    rfl
  · split at h
    · cases h
    · split_ifs at h
      cases h
      rfl

theorem handleCommit_validAfter {voterKey : Bytes 20} {c : SrCommit}
    (h : handleCommit a voterKey s c = some s') : s'.validAfter = s.validAfter := by
  unfold handleCommit at h
  split_ifs at h
  · exact saveCommit_validAfter h
  · cases h
    rfl

/-- **A vote.** -/
theorem sound_vote {voterKey : Bytes 20} {lines : List (List (List UInt8))} (hs : Sound a s)
    (h : srHandleReceivedCommits a s voterKey lines = some s') :
    Sound a s' ∧ Keeps s s' ∧ s'.validAfter = s.validAfter := by
  refine option_foldlM_invariant (lines.filterMap srParseCommit)
    (I := fun t => Sound a t ∧ Keeps s t ∧ t.validAfter = s.validAfter) ?_
    ⟨hs, Keeps.refl s, rfl⟩ h
  intro c hc t t' ht hstep
  obtain ⟨args, _, hparse⟩ := List.mem_filterMap.mp hc
  obtain ⟨hsound, hkeeps⟩ := sound_handleCommit ht.1 (srParseCommit_coded hparse) hstep
  exact ⟨hsound, ht.2.1.trans hkeeps, (handleCommit_validAfter hstep).trans ht.2.2⟩

/-! ### The next round -/

theorem base64Encode_ne_nil {l : List UInt8} (h : l ≠ []) : base64Encode l ≠ [] := by
  match l with
  | [] => exact absurd rfl h
  | [_] => exact List.cons_ne_nil _ _
  | [_, _] => exact List.cons_ne_nil _ _
  | _ :: _ :: _ :: _ => exact List.cons_ne_nil _ _

theorem ourCommit_hasReveal (H : Digest256) (me : Bytes 20) (timestamp : ℕ) (rn : Bytes 32) :
    commitHasRevealValue (srGenerateOurCommit H me timestamp rn) = true := by
  have hne : base64Encode (beBytes 8 (UInt64.ofNat timestamp).toNat ++ rn.val) ≠ [] := by
    refine base64Encode_ne_nil ?_
    intro hnil
    have hlen := congrArg List.length hnil
    rw [List.length_append, beBytes_length, List.length_nil] at hlen
    omega
  simpa [commitHasRevealValue, srGenerateOurCommit] using hne

theorem sound_addOurCommit {validAfter : ℕ} {random : Option (Bytes 32)} (hnil : s.commits = [])
    (hphase : s.phase = getSrProtocolPhase a validAfter) :
    Sound a { addOurCommit a s validAfter random with validAfter := validAfter } := by
  unfold addOurCommit
  cases random with
  | none => exact ⟨hphase, by simp [hnil], by simp [hnil], by simp [hnil], by simp [hnil]⟩
  | some rn =>
    simp only [addCommit, hnil, List.filter_nil, List.nil_append]
    refine ⟨hphase, List.pairwise_singleton _ _, ?_, ?_, ?_⟩
    · intro c hc
      rw [List.mem_singleton.mp hc]
      exact .inr ⟨ourCommit_hasReveal _ _ _ _, Function.update_self _ _ _⟩
    · intro c hc ph hph
      rw [List.mem_singleton.mp hc] at hph
      dsimp only at hph
      rw [Function.update_self] at hph
      cases hph
    · intro c hc
      rw [List.mem_singleton.mp hc]
      exact Function.update_self _ _ _

/-- Counting the round changes nothing else. -/
theorem srStateUpdate_cases {validAfter : ℕ} {random : Option (Bytes 32)}
    (h : srStateUpdate a s validAfter random = some s') :
    (validAfter ≤ s.validAfter ∧ s' = s) ∨
      (s.validAfter < validAfter ∧ ∃ t, enterPhase a s validAfter random = some t ∧
        s'.phase = t.phase ∧ s'.validAfter = validAfter ∧ s'.commits = t.commits ∧
          s'.storedIn = t.storedIn ∧ s'.revealedIn = t.revealedIn) := by
  unfold srStateUpdate at h
  split_ifs at h with hle
  · cases h
    exact .inl ⟨hle, rfl⟩
  · obtain ⟨t, ht, rfl⟩ := Option.map_eq_some_iff.mp h
    refine .inr ⟨Nat.lt_of_not_le hle, t, ht, ?_⟩
    split_ifs
    · exact ⟨rfl, rfl, rfl, rfl, rfl⟩
    · exact ⟨rfl, rfl, rfl, rfl, rfl⟩
    · exact ⟨rfl, rfl, rfl, rfl, rfl⟩

theorem Sound.congr {t : SrState} (ht : Sound a t) (hphase : s.phase = t.phase)
    (hva : s.validAfter = t.validAfter) (hcommits : s.commits = t.commits)
    (hstored : s.storedIn = t.storedIn) (hrevealed : s.revealedIn = t.revealedIn) : Sound a s := by
  refine ⟨?_, ?_, ?_, ?_, ?_⟩
  · rw [hphase, hva]
    exact ht.phase
  · rw [hcommits]
    exact ht.distinct
  · rw [hcommits]
    intro c hc
    rw [Coded, hrevealed]
    exact ht.coded c hc
  · rw [hcommits, hrevealed]
    exact ht.revealed
  · rw [hcommits, hstored, hva]
    exact ht.current

/-- A state that only moves on in time stays sound, if it stays in its run or has no commits. -/
theorem Sound.advance {validAfter : ℕ} (hs : Sound a s)
    (hrun : s.commits = [] ∨ a.runOf validAfter = a.runOf s.validAfter) :
    Sound a { s with phase := getSrProtocolPhase a validAfter, validAfter := validAfter } := by
  refine ⟨rfl, hs.distinct, hs.coded, hs.revealed, ?_⟩
  intro c hc
  rcases hrun with hnil | hrun
  · rw [hnil] at hc
    cases hc
  · rw [hrun]
    exact hs.current c hc

/-- **What entering a round does**: it starts anew from no commits, or leaves the commits. -/
theorem enterPhase_cases {validAfter : ℕ} {random : Option (Bytes 32)} {t : SrState}
    (h : enterPhase a s validAfter random = some t) :
    t.phase = getSrProtocolPhase a validAfter ∧
      ((∃ u : SrState, u.commits = [] ∧ t = addOurCommit a u validAfter random ∧
          (s.phase = .reveal ∧ getSrProtocolPhase a validAfter = .commit ∨ s.commits = [])) ∨
        t.commits = s.commits ∧ t.storedIn = s.storedIn ∧ t.revealedIn = s.revealedIn ∧
          ¬(s.phase = .reveal ∧ getSrProtocolPhase a validAfter = .commit)) := by
  have hour : ∀ u : SrState, (addOurCommit a u validAfter random).phase = u.phase := by
    intro u
    cases random <;> rfl
  have hset : ∀ (u : SrState) (ph : SrPhase), { addOurCommit a u validAfter random with phase := ph } =
      addOurCommit a { u with phase := ph } validAfter random := by
    intro u ph
    cases random <;> rfl
  unfold enterPhase at h
  dsimp only at h
  split_ifs at h with hne hcommit hempty
  · -- a new run
    obtain ⟨u, hu, rfl⟩ := Option.map_eq_some_iff.mp h
    refine ⟨rfl, .inl ?_⟩
    have hphase : s.phase = .reveal := by
      cases hp : s.phase with
      | commit => exact absurd (hp.trans hcommit.symm) hne
      | reveal => rfl
    unfold newProtocolRun at hu
    obtain ⟨w, _, rfl⟩ := Option.map_eq_some_iff.mp hu
    exact ⟨_, rfl, hset _ _, .inl ⟨hphase, hcommit⟩⟩
  · -- from the commit phase to the reveal phase
    cases h
    refine ⟨rfl, .inr ⟨rfl, rfl, rfl, ?_⟩⟩
    exact fun hp => hcommit hp.2
  · cases h
    refine ⟨?_, .inl ⟨s, List.length_eq_zero_iff.mp hempty.2, rfl,
      .inr (List.length_eq_zero_iff.mp hempty.2)⟩⟩
    rw [hour]
    exact not_not.mp hne
  · cases h
    refine ⟨not_not.mp hne, .inr ⟨rfl, rfl, rfl, ?_⟩⟩
    rintro ⟨hr, hc⟩
    rw [not_not.mp hne, hc] at hr
    cases hr

/-- **The next round** keeps the state sound. -/
theorem sound_update {validAfter : ℕ} {random : Option (Bytes 32)} (hs : Sound a s)
    (hm : s.Meets a (.update validAfter random)) (h : srStateUpdate a s validAfter random = some s') :
    Sound a s' := by
  rcases srStateUpdate_cases h with ⟨_, rfl⟩ | ⟨hlt, t, ht, hphase, hva, hcommits, hstored, hrevealed⟩
  · exact hs
  obtain ⟨htphase, hcases⟩ := enterPhase_cases ht
  rcases hcases with ⟨u, hnil, rfl, _⟩ | ⟨htc, hts, htr, hnot⟩
  · have hu : Sound a { addOurCommit a u validAfter random with validAfter := validAfter } := by
      refine sound_addOurCommit hnil ?_
      rw [← htphase]
      cases random <;> rfl
    exact hu.congr hphase hva hcommits hstored hrevealed
  · have hrun : s.commits = [] ∨ a.runOf validAfter = a.runOf s.validAfter := by
      by_contra hboth
      rw [not_or] at hboth
      exact hnot (hm hlt hboth.2 hboth.1)
    refine (hs.advance hrun).congr ?_ hva (hcommits.trans htc) (hstored.trans hts)
      (hrevealed.trans htr)
    rw [hphase, htphase]

theorem not_back_in_run {validAfter : ℕ} (hs : Sound a s) (hlt : s.validAfter < validAfter)
    (hrun : a.runOf validAfter = a.runOf s.validAfter) :
    ¬(s.phase = .reveal ∧ getSrProtocolPhase a validAfter = .commit) := by
  rintro ⟨hreveal, hcommit⟩
  rw [hs.phase] at hreveal
  unfold getSrProtocolPhase at hreveal hcommit
  split_ifs at hreveal hcommit with hslot hslot'
  unfold Authority.runOf at hrun
  have hle : s.validAfter / a.votingInterval ≤ validAfter / a.votingInterval :=
    Nat.div_le_div_right hlt.le
  simp only [totalRounds, sharedRandomNRounds] at hslot hslot' hrun
  omega

/-- **While a run lasts** the commitments stay. -/
theorem keeps_update {validAfter : ℕ} {random : Option (Bytes 32)} (hs : Sound a s)
    (h : srStateUpdate a s validAfter random = some s')
    (hrun : a.runOf s'.validAfter = a.runOf s.validAfter) : Keeps s s' := by
  rcases srStateUpdate_cases h with ⟨_, rfl⟩ | ⟨hlt, t, ht, _, hva, hcommits, _, _⟩
  · exact Keeps.refl s'
  rw [hva] at hrun
  obtain ⟨_, hcases⟩ := enterPhase_cases ht
  rcases hcases with ⟨u, _, _, hnew | hnil⟩ | ⟨htc, _⟩
  · exact absurd hnew (not_back_in_run hs hlt hrun)
  · intro c hc
    rw [hnil] at hc
    cases hc
  · exact Keeps.of_commits_eq (hcommits.trans htc)

/-! ### Runs -/

theorem sound_of_step {e : SrEvent} (hs : Sound a s) (hm : s.Meets a e) (h : s.step a e = some s') :
    Sound a s' := by
  cases e with
  | update validAfter random => exact sound_update hs hm h
  | vote voterKey lines => exact (sound_vote hs h).1

theorem validAfter_le_of_step {e : SrEvent} (hs : Sound a s) (h : s.step a e = some s') :
    s.validAfter ≤ s'.validAfter := by
  cases e with
  | update validAfter random =>
    rcases srStateUpdate_cases h with ⟨_, rfl⟩ | ⟨hlt, _, _, _, hva, _⟩
    · exact le_rfl
    · rw [hva]
      exact hlt.le
  | vote voterKey lines => exact (sound_vote hs h).2.2.ge

theorem keeps_of_step {e : SrEvent} (hs : Sound a s) (h : s.step a e = some s')
    (hrun : a.runOf s'.validAfter = a.runOf s.validAfter) : Keeps s s' := by
  cases e with
  | update validAfter random => exact keeps_update hs h hrun
  | vote voterKey lines => exact (sound_vote hs h).2.1

theorem runOf_mono (a : Authority) {t u : ℕ} (h : t ≤ u) : a.runOf t ≤ a.runOf u :=
  Nat.div_le_div_right (Nat.div_le_div_right h)

/-- Along a run the time does not go back, and what is stored stays while the protocol run lasts. -/
theorem keeps_of_run {events : List SrEvent} (hs : Sound a s)
    (hrun : Run (fun s e s' => s.Meets a e ∧ s.step a e = some s') s events s') :
    s.validAfter ≤ s'.validAfter ∧
      (a.runOf s'.validAfter = a.runOf s.validAfter → Keeps s s') := by
  induction hrun with
  | nil s => exact ⟨le_rfl, fun _ => Keeps.refl s⟩
  | cons hfirst _ ih =>
    have hs' := sound_of_step hs hfirst.1 hfirst.2
    have hle := validAfter_le_of_step hs hfirst.2
    obtain ⟨hle', hkeeps⟩ := ih hs'
    refine ⟨hle.trans hle', ?_⟩
    intro hsame
    have h₁ := runOf_mono a hle
    have h₂ := runOf_mono a hle'
    exact (keeps_of_step hs hfirst.2 (by omega)).trans (hkeeps (by omega))

theorem sound_init {now validAfter : ℕ} {random : Option (Bytes 32)}
    (h : srStateInit a now validAfter random = some s) (hpos : 0 < validAfter) : Sound a s := by
  unfold srStateInit at h
  rcases srStateUpdate_cases h with ⟨hle, _⟩ | ⟨_, t, ht, hphase, hva, hcommits, hstored, hrevealed⟩
  · exact absurd hle (Nat.not_le_of_lt hpos)
  obtain ⟨htphase, ⟨u, hnil, rfl, _⟩ | ⟨htc, hts, htr, _⟩⟩ := enterPhase_cases ht
  · have hu : Sound a { addOurCommit a u validAfter random with validAfter := validAfter } := by
      refine sound_addOurCommit hnil ?_
      rw [← htphase]
      cases random <;> rfl
    exact hu.congr hphase hva hcommits hstored hrevealed
  · have hnil : s.commits = [] := hcommits.trans htc
    refine ⟨?_, by simp [hnil], by simp [hnil], by simp [hnil], by simp [hnil]⟩
    rw [hphase, htphase, hva]

/-- **Commit-and-reveal integrity**: along every run that meets the condition, reveals taken from votes
match their commitments and were taken in the reveal phase, no commit is of an earlier protocol run, and
the commitments stay while a protocol run lasts. -/
theorem integrity_of_run {now validAfter : ℕ} {random : Option (Bytes 32)} {s₀ : SrState}
    {events : List SrEvent} (hinit : srStateInit a now validAfter random = some s₀)
    (hpos : 0 < validAfter)
    (hrun : Run (fun s e s' => s.Meets a e ∧ s.step a e = some s') s₀ events s) :
    (∀ events' s', Run (fun s e s' => s.Meets a e ∧ s.step a e = some s') s events' s' →
        a.runOf s'.validAfter = a.runOf s.validAfter → Keeps s s') ∧
      (∀ c ∈ s.commits, ∀ ph, s.revealedIn c.rsaIdentity = some ph →
        ph = .reveal ∧ verifyCommitAndReveal a.H c = true) ∧
      ∀ c ∈ s.commits, s.storedIn c.rsaIdentity = a.runOf s.validAfter := by
  have hs : Sound a s := by
    refine Run.invariant (I := Sound a) ?_ hrun (sound_init hinit hpos)
    intro t e t' ht hte
    exact sound_of_step ht hte.1 hte.2
  exact ⟨fun events' s' hrun' => (keeps_of_run hs hrun').2, hs.revealed, hs.current⟩

/-- An authority with a voting interval of one second. -/
def quickAuthority : Authority :=
  ⟨Bytes.pad 32, fun _ => true, Bytes.pad 20 [1], 1, id, fun _ => .refl _, default⟩

/-- The commit line of an authority in a vote: its commitment, and perhaps its reveal, both made of zeros. -/
def commitLine (i : UInt8) (reveal : Bool) : List (List UInt8) :=
  let revealValue := base64Encode (List.replicate 40 0)
  [[0x31], sha3Name, base16Encode (Bytes.pad 20 [i]).val,
    base64Encode (List.replicate 8 0 ++ (Bytes.pad 32 revealValue).val)] ++ if reveal then [revealValue] else []

/-- Two protocol runs, in each of which another authority commits and reveals. -/
def twoRuns : List SrEvent :=
  [.vote (Bytes.pad 20 [2]) [commitLine 2 false], .update 36 none,
   .vote (Bytes.pad 20 [2]) [commitLine 2 true], .update 48 (some (Bytes.pad 32 [8])),
   .vote (Bytes.pad 20 [2]) [commitLine 2 false], .update 60 none,
   .vote (Bytes.pad 20 [2]) [commitLine 2 true]]

instance (a : Authority) (s : SrState) : (e : SrEvent) → Decidable (s.Meets a e)
  | .update _ _ => inferInstanceAs (Decidable (_ → _ → _ → _))
  | .vote _ _ => inferInstanceAs (Decidable True)

/-- In the second of these runs the reveal matches the commitment, and no commit of the first is left. -/
theorem integrity_of_run_twoRuns :
    ∃ s₀ s, srStateInit quickAuthority 23 24 (some (Bytes.pad 32 [7])) = some s₀ ∧
      Run (fun s e s' => s.Meets quickAuthority e ∧ s.step quickAuthority e = some s') s₀ twoRuns s ∧
      s.revealedIn (Bytes.pad 20 [2]) = some .reveal ∧
      s.commits.map (·.rsaIdentity) = [Bytes.pad 20 [1], Bytes.pad 20 [2]] ∧
      (∀ c ∈ s.commits, ∀ ph, s.revealedIn c.rsaIdentity = some ph →
        verifyCommitAndReveal quickAuthority.H c = true) ∧
      ∀ c ∈ s.commits, s.storedIn c.rsaIdentity = 2 := by
  have hrun : (srStateInit quickAuthority 23 24 (some (Bytes.pad 32 [7])) >>= fun s =>
      twoRuns.foldlM (fun s e => if s.Meets quickAuthority e then s.step quickAuthority e else none) s).map
        (fun s => (s.validAfter, s.revealedIn (Bytes.pad 20 [2]), s.commits.map (·.rsaIdentity))) =
      some (60, some .reveal, [Bytes.pad 20 [1], Bytes.pad 20 [2]]) := by
    decide +kernel
  obtain ⟨s, hs, hfields⟩ := Option.map_eq_some_iff.mp hrun
  obtain ⟨s₀, hs₀, hfold⟩ := Option.bind_eq_some_iff.mp hs
  have hva : s.validAfter = 60 := congrArg Prod.fst hfields
  have hmeets := Run.of_foldlM hfold
  obtain ⟨-, hrevealed, hcurrent⟩ := integrity_of_run hs₀ (by decide) hmeets
  rw [hva] at hcurrent
  exact ⟨s₀, s, hs₀, hmeets, congrArg (·.2.1) hfields, congrArg (·.2.2) hfields,
    fun c hc ph hph => (hrevealed c hc ph hph).2, hcurrent⟩

/-- The authority misses the reveal phase: its commit of the first run is still there in the second. -/
theorem not_integrity_missedReveal :
    ¬∀ (a : Authority) (now validAfter : ℕ) (random : Option (Bytes 32)) (s₀ s : SrState)
      (events : List SrEvent), srStateInit a now validAfter random = some s₀ → 0 < validAfter →
        Run (fun s e s' => s.step a e = some s') s₀ events s →
          ∀ c ∈ s.commits, s.storedIn c.rsaIdentity = a.runOf s.validAfter := by
  intro hall
  have hrun : (srStateInit quickAuthority 23 24 (some (Bytes.pad 32 [7])) >>= fun s =>
      s.step quickAuthority (.update 48 none)).map (fun s =>
        (s.validAfter, s.commits.map fun c => s.storedIn c.rsaIdentity)) = some (48, [1]) := by
    decide +kernel
  obtain ⟨s, hs, hfields⟩ := Option.map_eq_some_iff.mp hrun
  obtain ⟨s₀, hs₀, hstep⟩ := Option.bind_eq_some_iff.mp hs
  have hva : s.validAfter = 48 := congrArg Prod.fst hfields
  have hmarks : (s.commits.map fun c => s.storedIn c.rsaIdentity) = [1] := congrArg Prod.snd hfields
  have hold := hall quickAuthority 23 24 _ s₀ s _ hs₀ (by decide) (.cons hstep (.nil s))
  have hstored : (1 : ℕ) ∈ s.commits.map fun c => s.storedIn c.rsaIdentity := by
    rw [hmarks]
    exact List.mem_singleton_self 1
  obtain ⟨c, hc, hone⟩ := List.mem_map.mp hstored
  have htwo := hold c hc
  rw [hone, hva] at htwo
  exact absurd htwo (by decide)

end TorEbpf.Dirauth
