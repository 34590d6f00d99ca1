import Mathlib
import TorEbpf.Dircommon.ConsDiffText
import TorEbpf.Lib.Bytes
import TorEbpf.Lib.Sorting

/-!
# Shared random values

Commits of the shared-random protocol and the value computed from them, after `shared_random.c` of the
directory authorities: which commits of a vote are kept (`should_keep_commit`) and how the commits of a
run become the shared random value (`sr_compute_srv`).  The commits come out of a hash map, so in any
order, and are sorted by their `hashed_reveal`.  SHA3-256 is a parameter.

* `sameSrv_iff` — the value is the same for all orders and all sorts exactly if no two of the revealed
  commits that go into it have the same `hashed_reveal`.
* `not_sameSrv_copied` — an authority that copies the commitment and the reveal of another makes two such
  commits.
-/

namespace TorEbpf.Dirauth

open TorEbpf.Lib TorEbpf.Dircommon

/-! ### Base64 -/

def base64EncodeTable (v : ℕ) : UInt8 :=
  if v < 26 then (65 + v).toUInt8
  else if v < 52 then (71 + v).toUInt8
  else if v < 62 then (v - 4).toUInt8
  else if v = 62 then 43
  else 47

/-- `base64_encode` without line breaks. -/
def base64Encode : List UInt8 → List UInt8
  | [] => []
  | [a] =>
      let n := a.toNat * 16
      [base64EncodeTable (n / 64), base64EncodeTable (n % 64), 61, 61]
  | [a, b] =>
      let n := (a.toNat * 256 + b.toNat) * 4
      [base64EncodeTable (n / 4096), base64EncodeTable (n / 64 % 64), base64EncodeTable (n % 64), 61]
  | a :: b :: c :: rest =>
      let n := (a.toNat * 256 + b.toNat) * 256 + c.toNat
      base64EncodeTable (n / 262144) :: base64EncodeTable (n / 4096 % 64) ::
        base64EncodeTable (n / 64 % 64) :: base64EncodeTable (n % 64) :: base64Encode rest

/-- `base64_decode_table`: 255 is not allowed, 64 is a space, 65 ends the data. -/
def base64DecodeTable (c : UInt8) : ℕ :=
  let v := c.toNat
  if 65 ≤ v ∧ v ≤ 90 then v - 65
  else if 97 ≤ v ∧ v ≤ 122 then v - 71
  else if 48 ≤ v ∧ v ≤ 57 then v + 4
  else if v = 43 then 62
  else if v = 47 then 63
  else if v = 61 then 65
  else if v = 32 ∨ v = 9 ∨ v = 10 ∨ v = 11 ∨ v = 13 then 64
  else 255

/-- The loop of `base64_decode`: the bits in `n`, `n_idx`, and what is written. -/
def base64DecodeLoop (destlen : ℕ) :
    List UInt8 → ℕ → ℕ → List UInt8 → Option (ℕ × ℕ × List UInt8)
  | [], n, nIdx, dest => some (n, nIdx, dest)
  | c :: src, n, nIdx, dest =>
      let v := base64DecodeTable c
      if v = 255 then none
      else if v = 64 then base64DecodeLoop destlen src n nIdx dest
      else if v = 65 then some (n, nIdx, dest)
      else
        let n := n * 64 + v
        if nIdx + 1 = 4 then
          if dest.length + 3 ≤ destlen then
            base64DecodeLoop destlen src 0 0
              (dest ++ [(n / 65536).toUInt8, (n / 256).toUInt8, n.toUInt8])
          else none
        else base64DecodeLoop destlen src n (nIdx + 1) dest

/-- `base64_decode` into `destlen` bytes. -/
def base64Decode (destlen : ℕ) (src : List UInt8) : Option (List UInt8) :=
  match base64DecodeLoop destlen src 0 0 [] with
  | none => none
  | some (n, nIdx, dest) =>
      if nIdx = 1 then none
      else if nIdx = 2 then
        if dest.length + 1 ≤ destlen then some (dest ++ [(n / 16).toUInt8]) else none
      else if nIdx = 3 then
        if dest.length + 2 ≤ destlen then some (dest ++ [(n / 1024).toUInt8, (n / 4).toUInt8])
        else none
      else some dest

/-! ### Commits -/

inductive SrPhase where
  | commit
  | reveal
  deriving DecidableEq, Repr

structure SrSrv where
  numReveals : UInt64
  value : Bytes 32
  deriving DecidableEq, Repr

/-- `sr_commit_t`.  The algorithm is always SHA3-256; `rsa_identity_hex` is `rsaFpr`. -/
structure SrCommit where
  valid : Bool
  rsaIdentity : Bytes 20
  commitTs : UInt64
  hashedReveal : Bytes 32
  encodedCommit : List UInt8
  revealTs : UInt64
  randomNumber : Bytes 32
  encodedReveal : List UInt8
  deriving DecidableEq, Repr

abbrev Digest256 := List UInt8 → Bytes 32

/-- `sr_commit_get_rsa_fpr`. -/
def SrCommit.rsaFpr (c : SrCommit) : List UInt8 := base16Encode c.rsaIdentity.val

def srRevealBase64Len : ℕ := 56

/-- `commit_has_reveal_value`: the array is not all zero. -/
def commitHasRevealValue (c : SrCommit) : Bool := c.encodedReveal ≠ []

def verifyCommitAndReveal (H : Digest256) (c : SrCommit) : Bool :=
  c.commitTs = c.revealTs && H (Bytes.pad srRevealBase64Len c.encodedReveal).val = c.hashedReveal

def commitmentsAreTheSame (a b : SrCommit) : Bool := a.encodedCommit = b.encodedCommit

def commitIsAuthoritative (c : SrCommit) (voterKey : Bytes 20) : Bool := c.rsaIdentity = voterKey

/-- `sr_state_get_commit`. -/
def getCommit (commits : List SrCommit) (rsaIdentity : Bytes 20) : Option SrCommit :=
  commits.find? (·.rsaIdentity = rsaIdentity)

/-- `should_keep_commit`; `recognized` is `trusteddirserver_get_by_v3_auth_digest`. -/
def shouldKeepCommit (H : Digest256) (recognized : Bytes 20 → Bool) (commits : List SrCommit)
    (c : SrCommit) (voterKey : Bytes 20) (phase : SrPhase) : Bool :=
  if commitIsAuthoritative c voterKey = false then false
  else if recognized c.rsaIdentity = false then false
  else
    match phase, getCommit commits c.rsaIdentity with
    | .commit, some _ => false
    | .commit, none => !commitHasRevealValue c
    | .reveal, none => false
    | .reveal, some saved =>
        commitmentsAreTheSame c saved && !commitHasRevealValue saved && commitHasRevealValue c &&
          verifyCommitAndReveal H c

/-! ### The value -/

def getSrvElementFromCommit (c : SrCommit) : Option (List UInt8) :=
  if commitHasRevealValue c then some (c.rsaFpr ++ c.encodedReveal) else none

/-- `SR_SRV_TOKEN`: "shared-random". -/
def srSrvToken : List UInt8 :=
  [0x73, 0x68, 0x61, 0x72, 0x65, 0x64, 0x2d, 0x72, 0x61, 0x6e, 0x64, 0x6f, 0x6d]

def srProtoVersion : ℕ := 1

def generateSrv (H : Digest256) (hashedReveals : Bytes 32) (revealNum : UInt64)
    (previousSrv : Option SrSrv) : SrSrv where
  numReveals := revealNum
  value := H (srSrvToken ++ beBytes 8 revealNum.toNat ++ beBytes 4 srProtoVersion ++
    hashedReveals.val ++ (previousSrv.map fun s => s.value.val).getD (List.replicate 32 0))

def compareReveal : SrCommit → SrCommit → Ordering := cmpOn (fun c => c.hashedReveal.val) bytesCmp

instance : Std.TransCmp compareReveal :=
  inferInstanceAs (Std.TransCmp (cmpOn (fun c : SrCommit => c.hashedReveal.val) bytesCmp))

/-- `reveals`: the string that `sr_compute_srv` hashes, and `reveal_num`. -/
def srReveals (recognized : Bytes 20 → Bool) (sorter : Sorter compareReveal)
    (stateCommits : List SrCommit) : List UInt8 × UInt64 :=
  let commits := sorter.sort (stateCommits.filter fun c => recognized c.rsaIdentity)
  let chunks := commits.filterMap getSrvElementFromCommit
  (chunks.flatten, UInt64.ofNat chunks.length)

/-- `sr_compute_srv` in the reveal phase, on the commits in the order in which the map lists them: the
string it hashes and the value it sets.  All commits have to be valid. -/
def srComputeSrv (H : Digest256) (recognized : Bytes 20 → Bool) (sorter : Sorter compareReveal)
    (stateCommits : List SrCommit) (previousSrv : Option SrSrv) : Option (List UInt8 × SrSrv) :=
  if stateCommits.all (·.valid) then
    let (reveals, revealNum) := srReveals recognized sorter stateCommits
    some (reveals, generateSrv H (H reveals) revealNum previousSrv)
  else none

/-! ### Agreement -/

/-- **Agreement**: every order of the commits and every sort lead to the same string and value. -/
def SameSrv (H : Digest256) (recognized : Bytes 20 → Bool) (commits : List SrCommit)
    (previousSrv : Option SrSrv) : Prop :=
  ∀ (sorter sorter' : Sorter compareReveal) (order order' : List SrCommit),
    order.Perm commits → order'.Perm commits →
      srComputeSrv H recognized sorter order previousSrv =
        srComputeSrv H recognized sorter' order' previousSrv

/-- A commit that goes into the string. -/
def Used (recognized : Bytes 20 → Bool) (c : SrCommit) : Bool :=
  recognized c.rsaIdentity && commitHasRevealValue c

theorem getSrvElement_eq_none {c : SrCommit} (h : commitHasRevealValue c = false) :
    getSrvElementFromCommit c = none := by
  rw [getSrvElementFromCommit, h]
  rfl

/-- Only revealed commits have an element. -/
theorem filterMap_element (l : List SrCommit) :
    l.filterMap getSrvElementFromCommit =
      (l.filter commitHasRevealValue).map fun c => c.rsaFpr ++ c.encodedReveal := by
  induction l with
  | nil => rfl
  | cons c l ih =>
    cases hc : commitHasRevealValue c with
    | true =>
      rw [List.filter_cons_of_pos hc, List.map_cons, ← ih, List.filterMap_cons,
        getSrvElementFromCommit, if_pos hc]
    | false =>
      rw [List.filterMap_cons, getSrvElement_eq_none hc, ih, List.filter_cons_of_neg]
      simp [hc]

/-- **Without equal keys the string does not depend on the order.** -/
theorem srReveals_eq {recognized : Bytes 20 → Bool} {commits order order' : List SrCommit}
    (hinj : ∀ a ∈ commits, ∀ b ∈ commits, Used recognized a = true → Used recognized b = true →
      a.hashedReveal = b.hashedReveal → a = b)
    (sorter sorter' : Sorter compareReveal) (hperm : order.Perm commits)
    (hperm' : order'.Perm commits) :
    srReveals recognized sorter order = srReveals recognized sorter' order' := by
  have hfilter : ∀ {a b : SrCommit}, compareReveal a b = .eq → a.hashedReveal = b.hashedReveal := by
    intro a b hab
    have hval : a.hashedReveal.val = b.hashedReveal.val := Std.LawfulEqCmp.eq_of_compare hab
    cases ha : a.hashedReveal
    cases hb : b.hashedReveal
    rw [ha, hb] at hval
    subst hval
    rfl
  have hsort := filter_sort_eq sorter sorter'
    ((hperm.trans hperm'.symm).filter fun c => recognized c.rsaIdentity) commitHasRevealValue ?_
  · unfold srReveals
    simp only [filterMap_element, hsort]
  · intro a ha b hb hra hrb hab
    obtain ⟨ha, hrec⟩ := List.mem_filter.mp ha
    obtain ⟨hb, hrec'⟩ := List.mem_filter.mp hb
    refine hinj a (hperm.mem_iff.mp ha) b (hperm.mem_iff.mp hb) ?_ ?_ (hfilter hab)
    · rw [Used, hrec, hra]
      rfl
    · rw [Used, hrec', hrb]
      rfl

/-- What comes in front of the commits with the key of `a`: its length is that of their elements. -/
def elementsBelow (recognized : Bytes 20 → Bool) (commits : List SrCommit) (a : SrCommit) : ℕ :=
  (((commits.filter fun c => recognized c.rsaIdentity).filter fun x =>
    compareReveal x a == .lt).filterMap getSrvElementFromCommit).flatten.length

theorem length_flatten_perm {l l' : List (List UInt8)} (h : l.Perm l') :
    l.flatten.length = l'.flatten.length := by
  rw [List.length_flatten, List.length_flatten]
  exact (h.map _).sum_eq

/-- A sort that favors `a` puts its element right behind those of the smaller keys. -/
theorem srReveals_favoring {recognized : Bytes 20 → Bool} {commits : List SrCommit} {a : SrCommit}
    (ha : a ∈ commits) (hused : Used recognized a = true) :
    ∃ front back, (srReveals recognized (.favoring compareReveal fun x => decide (x = a)) commits).1 =
        front ++ (a.rsaFpr ++ back) ∧ front.length = elementsBelow recognized commits a := by
  rw [Used, Bool.and_eq_true] at hused
  set l := commits.filter fun c => recognized c.rsaIdentity with hl
  set sorter : Sorter compareReveal := .favoring compareReveal fun x => decide (x = a) with hsorter
  have hal : a ∈ l := List.mem_filter.mpr ⟨ha, hused.1⟩
  have hfind : (sorter.sort l).find? (fun x => compareReveal x a == .eq) = some a :=
    Sorter.find_favoring hal fun x => decide_eq_true_iff
  obtain ⟨_, pre, post, hsplit, hpre⟩ := List.find?_eq_some_iff_append.mp hfind
  have hsorted := sorter.sorted l (consistentOn_of_transCmp _ l)
  rw [hsplit] at hsorted
  obtain ⟨_, hpost, hcross⟩ := List.pairwise_append.mp hsorted
  have hprelt : ∀ x ∈ pre, compareReveal x a = .lt := by
    intro x hx
    have hle := hcross x hx a List.mem_cons_self
    have hne := hpre x hx
    revert hle hne
    cases compareReveal x a <;> simp
  have hpostlt : ∀ x ∈ a :: post, compareReveal x a ≠ .lt := by
    intro x hx hlt
    have hle : (compareReveal a x).isLE = true := by
      rcases List.mem_cons.mp hx with rfl | hx
      · rw [@Std.ReflCmp.compare_self _ compareReveal]
        rfl
      · exact (List.pairwise_cons.mp hpost).1 x hx
    rw [@Std.OrientedCmp.eq_swap _ compareReveal _ _ _, hlt] at hle
    cases hle
  -- the elements in front of `a` are those with a smaller key
  have hperm : pre.Perm (l.filter fun x => compareReveal x a == .lt) := by
    have hp := (sorter.perm l).filter fun x => compareReveal x a == .lt
    have hall : pre.filter (fun x => compareReveal x a == .lt) = pre :=
      List.filter_eq_self.mpr fun x hx => by simp [hprelt x hx]
    have hnone : (a :: post).filter (fun x => compareReveal x a == .lt) = [] :=
      List.filter_eq_nil_iff.mpr fun x hx => by simp [hpostlt x hx]
    rw [hsplit, List.filter_append, hall, hnone, List.append_nil] at hp
    exact hp
  refine ⟨(pre.filterMap getSrvElementFromCommit).flatten,
    a.encodedReveal ++ (post.filterMap getSrvElementFromCommit).flatten, ?_, ?_⟩
  · show ((sorter.sort l).filterMap getSrvElementFromCommit).flatten = _
    rw [hsplit, List.filterMap_append, List.filterMap_cons, getSrvElementFromCommit,
      if_pos hused.2, List.flatten_append, List.flatten_cons, List.append_assoc]
  · exact length_flatten_perm (hperm.filterMap _)

theorem length_rsaFpr (c : SrCommit) : c.rsaFpr.length = 40 := by
  rw [SrCommit.rsaFpr, length_base16Encode, c.rsaIdentity.length_eq]

theorem rsaIdentity_eq_of_rsaFpr {a b : SrCommit} (h : a.rsaFpr = b.rsaFpr) :
    a.rsaIdentity = b.rsaIdentity := by
  have hval : a.rsaIdentity.val = b.rsaIdentity.val := by
    have hdec := congrArg base16Decode h
    rw [SrCommit.rsaFpr, SrCommit.rsaFpr, base16Decode_encode, base16Decode_encode] at hdec
    exact Option.some.inj hdec
  cases ha : a.rsaIdentity
  cases hb : b.rsaIdentity
  rw [ha, hb] at hval
  subst hval
  rfl

/-- **Two used commits with one key**: either can come first, which shows in the string. -/
theorem srReveals_ne {recognized : Bytes 20 → Bool} {commits : List SrCommit} {a b : SrCommit}
    (ha : a ∈ commits) (hb : b ∈ commits) (hua : Used recognized a = true)
    (hub : Used recognized b = true) (hkey : a.hashedReveal = b.hashedReveal)
    (hne : a.rsaIdentity ≠ b.rsaIdentity) :
    (srReveals recognized (.favoring compareReveal fun x => decide (x = a)) commits).1 ≠
      (srReveals recognized (.favoring compareReveal fun x => decide (x = b)) commits).1 := by
  obtain ⟨front, back, heq, hlen⟩ := srReveals_favoring ha hua
  obtain ⟨front', back', heq', hlen'⟩ := srReveals_favoring hb hub
  have hbelow : elementsBelow recognized commits a = elementsBelow recognized commits b := by
    have hcmp : ∀ x, compareReveal x a = compareReveal x b := by
      intro x
      rw [compareReveal, cmpOn, cmpOn, hkey]
    unfold elementsBelow
    simp only [hcmp]
  intro hsame
  rw [heq, heq'] at hsame
  have hback := (List.append_inj hsame (by rw [hlen, hlen', hbelow])).2
  have hfpr := (List.append_inj hback (by rw [length_rsaFpr, length_rsaFpr])).1
  exact hne (rsaIdentity_eq_of_rsaFpr hfpr)

/-- So the value is not a function of the commits. -/
theorem not_sameSrv_of_key {H : Digest256} {recognized : Bytes 20 → Bool} {commits : List SrCommit}
    {previousSrv : Option SrSrv} {a b : SrCommit} (hvalid : commits.all (·.valid) = true)
    (ha : a ∈ commits) (hb : b ∈ commits) (hua : Used recognized a = true)
    (hub : Used recognized b = true) (hkey : a.hashedReveal = b.hashedReveal)
    (hne : a.rsaIdentity ≠ b.rsaIdentity) : ¬SameSrv H recognized commits previousSrv := by
  intro hsame
  refine srReveals_ne ha hb hua hub hkey hne ?_
  have heq := hsame (.favoring compareReveal fun x => decide (x = a))
    (.favoring compareReveal fun x => decide (x = b)) commits commits (.refl _) (.refl _)
  unfold srComputeSrv at heq
  rw [if_pos hvalid, if_pos hvalid] at heq
  exact congrArg (fun r => (r.map Prod.fst).getD []) heq

/-- **When the shared random value is a function of the commits.** -/
theorem sameSrv_iff (H : Digest256) (recognized : Bytes 20 → Bool) (commits : List SrCommit)
    (previousSrv : Option SrSrv) (hvalid : ∀ c ∈ commits, c.valid = true)
    (hdistinct : commits.Pairwise fun a b => a.rsaIdentity ≠ b.rsaIdentity) :
    SameSrv H recognized commits previousSrv ↔
      commits.Pairwise fun a b => Used recognized a = true → Used recognized b = true →
        a.hashedReveal ≠ b.hashedReveal := by
  have hall : ∀ order : List SrCommit, order.Perm commits → order.all (·.valid) = true := by
    intro order hperm
    exact List.all_eq_true.mpr fun c hc => hvalid c (hperm.mem_iff.mp hc)
  constructor
  · intro hsame
    refine (List.pairwise_iff_forall_sublist.mpr ?_)
    intro a b hsub hua hub hkey
    have hne : a.rsaIdentity ≠ b.rsaIdentity := List.pairwise_iff_forall_sublist.mp hdistinct hsub
    have ha : a ∈ commits := hsub.subset (by simp)
    have hb : b ∈ commits := hsub.subset (by simp)
    exact not_sameSrv_of_key (hall _ (.refl _)) ha hb hua hub hkey hne hsame
  · intro hpair sorter sorter' order order' hperm hperm'
    have hinj : ∀ a ∈ commits, ∀ b ∈ commits, Used recognized a = true → Used recognized b = true →
        a.hashedReveal = b.hashedReveal → a = b := by
      intro a ha b hb hua hub hkey
      by_contra hne
      have hsymm : Std.Symm fun a b : SrCommit => Used recognized a = true →
          Used recognized b = true → a.hashedReveal ≠ b.hashedReveal :=
        ⟨fun _ _ h hy hx hxy => h hx hy hxy.symm⟩
      exact hpair.forall ha hb hne hua hub hkey
    rw [srComputeSrv, srComputeSrv, if_pos (hall _ hperm), if_pos (hall _ hperm'),
      srReveals_eq hinj sorter sorter' hperm hperm']

/-! ### Copied commits -/

/-- A commit that `should_keep_commit` accepts, in some state and phase, from its own authority. -/
def Accepted (H : Digest256) (recognized : Bytes 20 → Bool) (c : SrCommit) : Prop :=
  ∃ saved phase, shouldKeepCommit H recognized saved c c.rsaIdentity phase = true

/-- A revealed commit of the authority with the identity `i`, with a reveal of one character. -/
def revealed (H : Digest256) (i reveal : UInt8) : SrCommit where
  valid := true
  rsaIdentity := Bytes.pad 20 [i]
  commitTs := 0
  hashedReveal := H (Bytes.pad srRevealBase64Len [reveal]).val
  encodedCommit := [0x42]
  revealTs := 0
  randomNumber := Bytes.pad 32 []
  encodedReveal := [reveal]

theorem revealed_accepted (H : Digest256) (i : UInt8) : Accepted H (fun _ => true) (revealed H i 0x41) := by
  refine ⟨[{ revealed H i 0x41 with encodedReveal := [] }], .reveal, ?_⟩
  simp [shouldKeepCommit, commitIsAuthoritative, getCommit, commitmentsAreTheSame,
    commitHasRevealValue, verifyCommitAndReveal, revealed]

/-- Three authorities with reveals of their own; the fingerprints are not in the order of the reveals. -/
theorem sameSrv_threeRevealed : SameSrv (Bytes.pad 32) (fun _ => true)
    [revealed (Bytes.pad 32) 1 0x43, revealed (Bytes.pad 32) 2 0x41, revealed (Bytes.pad 32) 3 0x42] none :=
  (sameSrv_iff _ _ _ _ (by simp [revealed]) (by decide +kernel)).mpr (by decide +kernel)

/-- The second authority has copied the commitment and the reveal of the first. -/
theorem not_sameSrv_copied :
    ¬∀ (H : Digest256) (recognized : Bytes 20 → Bool) (commits : List SrCommit)
      (previousSrv : Option SrSrv), (∀ c ∈ commits, c.valid = true) →
        (commits.Pairwise fun a b => a.rsaIdentity ≠ b.rsaIdentity) →
          (∀ c ∈ commits, recognized c.rsaIdentity = true ∧ Accepted H recognized c) →
            SameSrv H recognized commits previousSrv := by
  intro hall
  have hsame := hall (Bytes.pad 32) (fun _ => true)
    [revealed (Bytes.pad 32) 1 0x41, revealed (Bytes.pad 32) 2 0x41] none (by simp [revealed])
    (List.pairwise_pair.mpr (by decide +kernel)) ?_
  · have hne : (revealed (Bytes.pad 32) 1 0x41).rsaIdentity ≠ (revealed (Bytes.pad 32) 2 0x41).rsaIdentity := by
      decide +kernel
    exact not_sameSrv_of_key (a := revealed (Bytes.pad 32) 1 0x41) (b := revealed (Bytes.pad 32) 2 0x41) rfl
      List.mem_cons_self (List.mem_cons_of_mem _ List.mem_cons_self) rfl rfl rfl hne hsame
  · intro c hc
    rcases List.mem_pair.mp hc with rfl | rfl
    · exact ⟨rfl, revealed_accepted _ 1⟩
    · exact ⟨rfl, revealed_accepted _ 2⟩

end TorEbpf.Dirauth
