import TorEbpf.Container.Smartlist
import TorEbpf.Encoding.Base64
import TorEbpf.Lib.Decimal
import TorEbpf.Net.AddrCompare

/-!
# The winning router status

`compute_routerstatus_consensus` sorts the votes about one relay and finds, in one scan of the runs of equal
ones, the one that most authorities agree on.  Among the votes that are equal to it the most frequent
microdescriptor digest and IPv6 OR port are chosen.

* `compareVoteRs_eq` — the comparison is one by keys;
* `isMost_scan` — what the scan of the sorted votes finds;
* `computeRouterstatusConsensus_correct` — the choices, and that the order of the votes does not matter.
-/

namespace TorEbpf.Dirauth

open TorEbpf.Lib TorEbpf.Or TorEbpf.Container TorEbpf.Encoding

/-! ### The code -/

/-- `vote_routerstatus_t`, with the parts of its `routerstatus_t` that are compared.  Votes are published after
the epoch, and their addresses are none of `AF_UNIX`. -/
structure VoteRouterstatus where
  identityDigest : Bytes 20
  descriptorDigest : Bytes 20
  publishedOn : ℤ
  nickname : List UInt8
  ipv4Addr : TorAddrPtr
  ipv4Orport : UInt16
  ipv4Dirport : UInt16
  ipv6Addr : TorAddrPtr
  ipv6Orport : UInt16
  /-- The lines of `microdesc`. -/
  microdesc : List (List UInt8)
  published_range : 0 ≤ publishedOn ∧ publishedOn < 2 ^ 63
  not_unix : torAddrFamily ipv4Addr ≠ .unix

/-- `CMP_FIELD`: the sign of the difference as an integer of `w` bits, the second value less the first. -/
def cmpFieldRev (w : ℕ) (a b : ℤ) : Ordering := compare (Int.bmod (b - a) (2 ^ w)) 0

/-- `tor_addr_compare`, exactly. -/
def addrOrdering (a b : TorAddrPtr) : Ordering := compare (torAddrCompare a b .exact) 0

def compareVoteRs (a b : VoteRouterstatus) : Ordering :=
  (bytesCmp a.identityDigest.val b.identityDigest.val).then <|
    (bytesCmp a.descriptorDigest.val b.descriptorDigest.val).then <|
      (cmpFieldRev 64 a.publishedOn b.publishedOn).then <|
        (bytesCmp b.nickname a.nickname).then <|
          (addrOrdering a.ipv4Addr b.ipv4Addr).then <|
            (cmpFieldRev 32 a.ipv4Orport.toNat b.ipv4Orport.toNat).then <|
              cmpFieldRev 32 a.ipv4Dirport.toNat b.ipv4Dirport.toNat

/-- `tor_addr_port_t`, of an address that is not of `AF_UNIX`. -/
structure OrAddrPort where
  addr : TorAddrPtr
  port : UInt16
  not_unix : torAddrFamily addr ≠ .unix

def compareOrports (a b : OrAddrPort) : Ordering :=
  (addrOrdering a.addr b.addr).then (compare ((b.port.toNat : ℤ) - a.port.toNat) 0)

structure VoteScan where
  most : Option VoteRouterstatus
  mostN : ℕ
  mostPublished : ℤ
  cur : Option VoteRouterstatus
  curN : ℕ

/-- The run that ends here may be the best one.  Behind the loop only `most` is still used. -/
def VoteScan.close (s : VoteScan) : VoteScan :=
  match s.cur with
  | some cur =>
      if s.mostN < s.curN ∨ (s.curN = s.mostN ∧ s.mostPublished < cur.publishedOn) then
        { s with most := some cur, mostN := s.curN, mostPublished := cur.publishedOn }
      else s
  | none => s

def VoteScan.step (s : VoteScan) (rs : VoteRouterstatus) : VoteScan :=
  match s.cur with
  | some cur =>
      if compareVoteRs cur rs = .eq then { s with curN := s.curN + 1 }
      else { s.close with cur := some rs, curN := 1 }
  | none => { s with cur := some rs, curN := 1 }

/-- `strstr`: where the text is found. -/
def strstr (text : List UInt8) : List UInt8 → Option (List UInt8)
  | [] => if text = [] then some [] else none
  | c :: s => if text.isPrefixOf (c :: s) then some (c :: s) else strstr text s

/-- The loop over the methods of a line: where the method `mstr` stands.  A round leaves fewer bytes, so that
as many rounds as there are bytes, and one, are enough. -/
def findMethod (mstr : List UInt8) : ℕ → List UInt8 → Option (List UInt8)
  | 0, _ => none
  | fuel + 1, cp =>
    let num := cp.takeWhile fun c => decide (48 ≤ c) && decide (c ≤ 57)
    if num = mstr then some cp
    else
      match num, cp.drop num.length with
      | [], _ => none
      | _, 0x2c :: cp => findMethod mstr fuel cp
      | _, _ => none

def sha256Text : List UInt8 := [0x20, 0x73, 0x68, 0x61, 0x32, 0x35, 0x36, 0x3d]

def digest256FromBase64 (d64 : List UInt8) : Option (List UInt8) :=
  match Encoding.base64Decode 32 d64 with
  | .ok (32, digest) => some digest
  | _ => none

/-- `vote_routerstatus_find_microdesc_hash`, for SHA-256. -/
def findMicrodescHash (method : ℕ) : List (List UInt8) → Option (List UInt8)
  | [] => none
  | line :: lines =>
    match findMethod (decimal method) (line.length + 1) line with
    | some cp => (strstr sha256Text cp).bind fun cp => digest256FromBase64 ((cp.drop 8).take 43)
    | none => findMicrodescHash method lines

def altOrport (rs : VoteRouterstatus) : Option OrAddrPort :=
  if h : torAddrIsNull rs.ipv6Addr.addr = false ∧ rs.ipv6Orport ≠ 0 then
    some ⟨rs.ipv6Addr, rs.ipv6Orport, by
      intro hunix
      revert h
      unfold torAddrFamily at hunix
      cases haddr : rs.ipv6Addr.addr <;> simp_all [torAddrIsNull]⟩
  else none

/-- What `compute_routerstatus_consensus` returns and writes. -/
structure RouterstatusChoice where
  most : VoteRouterstatus
  microdescDigest256 : Option (List UInt8)
  bestAltOrport : Option (TorAddr × UInt16)

/-- The sorts that the function uses. -/
structure VoteSorts where
  votes : Sorter compareVoteRs
  orports : Sorter compareOrports
  digests : Sorter bytesCmp

def classOf (votes : List VoteRouterstatus) (most : VoteRouterstatus) : List VoteRouterstatus :=
  votes.filter fun rs => compareVoteRs rs most == .eq

/-- `compute_routerstatus_consensus`; nothing if an assertion fails. -/
def computeRouterstatusConsensus (sorts : VoteSorts) (votes : List VoteRouterstatus) (method : ℕ) :
    Option RouterstatusChoice :=
  let votes := sorts.votes.sort votes
  let scan := (votes.foldl VoteScan.step ⟨none, 0, 0, none, 0⟩).close
  scan.most.map fun most =>
    let altOrports := (votes.filter fun rs => compareVoteRs most rs == .eq).filterMap altOrport
    let digests := (votes.filter fun rs => compareVoteRs rs most == .eq).filterMap fun rs =>
      findMicrodescHash method rs.microdesc
    { most
      microdescDigest256 := (smartlistGetMostFrequent bytesCmp (sorts.digests.sort digests)).1
      bestAltOrport :=
        (smartlistGetMostFrequent compareOrports (sorts.orports.sort altOrports)).1.map fun ap =>
          (ap.addr.addr, ap.port) }

/-! ### The comparisons are by keys -/

section Keys

/-- The comparison the other way around. -/
def reversed {α : Type} (cmp : α → α → Ordering) (a b : α) : Ordering := cmp b a

instance {α : Type} (cmp : α → α → Ordering) [Std.TransCmp cmp] : Std.TransCmp (reversed cmp) where
  eq_swap {a b} := @Std.OrientedCmp.eq_swap _ cmp _ b a
  isLE_trans {_ _ _} hab hbc := @Std.TransCmp.isLE_trans _ cmp _ _ _ _ hbc hab

def addrKeyOrdering (a b : AddrKey) : Ordering := compare (keyCompare .exact a b) 0

theorem addrKeyOrdering_isLE {a b : AddrKey} :
    (addrKeyOrdering a b).isLE = true ↔ keyCompare .exact a b ≤ 0 := by
  rw [addrKeyOrdering, Ordering.isLE_iff_ne_gt]
  exact (not_congr compare_gt_iff_gt).trans not_lt

instance : Std.TransCmp addrKeyOrdering where
  eq_swap {a b} := by
    have hopp := (keyLaws_exact a b b).opposite
    unfold addrKeyOrdering
    rcases lt_trichotomy (keyCompare .exact a b) 0 with h | h | h
    · rw [compare_lt_iff_lt.mpr h, compare_gt_iff_gt.mpr (by omega)]
      rfl
    · rw [h, show keyCompare .exact b a = 0 by omega]
      rfl
    · rw [compare_gt_iff_gt.mpr h, compare_lt_iff_lt.mpr (by omega)]
      rfl
  isLE_trans {a b c} hab hbc := by
    rw [addrKeyOrdering_isLE] at hab hbc ⊢
    exact (keyLaws_exact a b c).trans hab hbc

theorem addrOrdering_eq {a b : TorAddrPtr} (ha : torAddrFamily a ≠ .unix) (hb : torAddrFamily b ≠ .unix) :
    addrOrdering a b = addrKeyOrdering (addrKey a) (addrKey b) := by
  rw [addrOrdering, addrKeyOrdering, ← sign_torAddrCompare ha hb]
  rcases lt_trichotomy (torAddrCompare a b .exact) 0 with h | h | h
  · rw [compare_lt_iff_lt.mpr h, compare_lt_iff_lt.mpr (Int.sign_neg_iff.mpr h)]
  · rw [h]
    rfl
  · rw [compare_gt_iff_gt.mpr h, compare_gt_iff_gt.mpr (Int.sign_pos_iff.mpr h)]

/-- `CMP_FIELD` of values that are not negative: the larger one first. -/
theorem cmpFieldRev_eq {w : ℕ} {a b : ℤ} (ha : 0 ≤ a ∧ 2 * a < 2 ^ w) (hb : 0 ≤ b ∧ 2 * b < 2 ^ w) :
    cmpFieldRev w a b = compare b a := by
  apply compare_bmod_sub
  push_cast
  rcases abs_cases (b - a) with ⟨h, _⟩ | ⟨h, _⟩ <;> rw [h] <;> omega

def compareVoteKeys : VoteRouterstatus → VoteRouterstatus → Ordering :=
  compareLex (cmpOn (fun rs => rs.identityDigest.val) bytesCmp) <|
    compareLex (cmpOn (fun rs => rs.descriptorDigest.val) bytesCmp) <|
      compareLex (reversed (cmpOn VoteRouterstatus.publishedOn compare)) <|
        compareLex (reversed (cmpOn VoteRouterstatus.nickname bytesCmp)) <|
          compareLex (cmpOn (fun rs => addrKey rs.ipv4Addr) addrKeyOrdering) <|
            compareLex (reversed (cmpOn (fun rs => (rs.ipv4Orport.toNat : ℤ)) compare))
              (reversed (cmpOn (fun rs => (rs.ipv4Dirport.toNat : ℤ)) compare))

theorem compareVoteRs_eq : compareVoteRs = compareVoteKeys := by
  funext a b
  have hport : ∀ p : UInt16, 0 ≤ (p.toNat : ℤ) ∧ 2 * (p.toNat : ℤ) < 2 ^ 32 := by
    intro p
    have hlt := p.toNat_lt
    omega
  have hpub : ∀ rs : VoteRouterstatus, 0 ≤ rs.publishedOn ∧ 2 * rs.publishedOn < 2 ^ 64 := by
    intro rs
    have hrange := rs.published_range
    omega
  simp only [compareVoteRs, cmpFieldRev_eq (hpub a) (hpub b), addrOrdering_eq a.not_unix b.not_unix,
    cmpFieldRev_eq (hport a.ipv4Orport) (hport b.ipv4Orport),
    cmpFieldRev_eq (hport a.ipv4Dirport) (hport b.ipv4Dirport)]
  rfl

instance : Std.TransCmp compareVoteRs := by
  rw [compareVoteRs_eq]
  unfold compareVoteKeys
  infer_instance

def compareOrportKeys : OrAddrPort → OrAddrPort → Ordering :=
  compareLex (cmpOn (fun ap => addrKey ap.addr) addrKeyOrdering)
    (reversed (cmpOn (fun ap => (ap.port.toNat : ℤ)) compare))

theorem compareOrports_eq : compareOrports = compareOrportKeys := by
  funext a b
  have hport : compare ((b.port.toNat : ℤ) - a.port.toNat) 0 = compare (b.port.toNat : ℤ) a.port.toNat := by
    rcases lt_trichotomy (b.port.toNat : ℤ) a.port.toNat with h | h | h
    · rw [compare_lt_iff_lt.mpr h, compare_lt_iff_lt.mpr (by omega)]
    · rw [h, sub_self]
      simp
    · rw [compare_gt_iff_gt.mpr h, compare_gt_iff_gt.mpr (by omega)]
  simp only [compareOrports, addrOrdering_eq a.not_unix b.not_unix, hport]
  rfl

instance : Std.TransCmp compareOrports := by
  rw [compareOrports_eq]
  unfold compareOrportKeys
  infer_instance

end Keys

/-! ### The scan -/

section Scan

variable {votes : List VoteRouterstatus}

/-- No vote is better: more authorities agree on this one, or as many and it is later, or it is as late and the
smaller one. -/
structure IsMost (votes : List VoteRouterstatus) (most : VoteRouterstatus) : Prop where
  mem : most ∈ votes
  best : ∀ rs ∈ votes, tally compareVoteRs votes rs < tally compareVoteRs votes most ∨
    (tally compareVoteRs votes rs = tally compareVoteRs votes most ∧
      (rs.publishedOn < most.publishedOn ∨
        (rs.publishedOn = most.publishedOn ∧ (compareVoteRs most rs).isLE = true)))

/-- What is known of the runs that have ended. -/
def BestRun (pre : List VoteRouterstatus) (s : VoteScan) : Prop :=
  (pre = [] ∧ s.mostN = 0) ∨
    ∃ most, s.most = some most ∧ s.mostN = tally compareVoteRs pre most ∧
      s.mostPublished = most.publishedOn ∧ IsMost pre most

structure VotesAt (votes pre : List VoteRouterstatus) (cur : VoteRouterstatus) (grp : List VoteRouterstatus)
    (s : VoteScan) : Prop where
  run : LastRun compareVoteRs votes pre cur grp
  cur : s.cur = some cur
  curN : s.curN = grp.length + 1
  best : BestRun pre s

theorem publishedOn_eq {a b : VoteRouterstatus} (h : compareVoteRs a b = .eq) :
    a.publishedOn = b.publishedOn := by
  rw [compareVoteRs_eq] at h
  simp only [compareVoteKeys, compareLex_eq_eq, cmpOn, reversed] at h
  exact (compare_eq_iff_eq.mp h.2.2.1).symm

theorem VotesAt.close {pre grp : List VoteRouterstatus} {cur : VoteRouterstatus} {s : VoteScan}
    (h : VotesAt votes pre cur grp s) : BestRun votes s.close := by
  have hrun := h.run
  have htcur : tally compareVoteRs votes cur = s.curN := by rw [hrun.tally_self, h.curN]
  have hclose : s.close = if s.mostN < s.curN ∨ (s.curN = s.mostN ∧ s.mostPublished < cur.publishedOn) then
      { s with most := some cur, mostN := s.curN, mostPublished := cur.publishedOn } else s := by
    rw [VoteScan.close, h.cur]
  right
  rw [hclose]
  by_cases hbetter : s.mostN < s.curN ∨ (s.curN = s.mostN ∧ s.mostPublished < cur.publishedOn)
  · rw [if_pos hbetter]
    refine ⟨cur, rfl, htcur.symm, rfl, hrun.mem, ?_⟩
    intro rs hrs
    rw [htcur]
    rcases hrun.mem_iff.mp hrs with hrs | hrs
    · -- the runs before were not better
      rw [hrun.tally_pre hrs]
      rcases h.best with ⟨rfl, _⟩ | ⟨most, -, hn, hpub, hmost⟩
      · cases hrs
      · have hold := hmost.best rs hrs
        rw [← hn, ← hpub] at hold
        omega
    · right
      rw [hrun.tally_run hrs, h.curN]
      have heq := hrun.eq_of_mem hrs
      refine ⟨rfl, Or.inr ⟨publishedOn_eq heq, ?_⟩⟩
      rw [Std.OrientedCmp.eq_comm.mp heq]
      rfl
  · rw [if_neg hbetter]
    rcases h.best with ⟨_, hzero⟩ | ⟨most, hsome, hn, hpub, hmost⟩
    · exact absurd (Or.inl (by rw [hzero, h.curN]; omega)) hbetter
    · have hpre := hrun.tally_pre hmost.mem
      refine ⟨most, hsome, by rw [hpre, hn], hpub, hrun.mem_iff.mpr (Or.inl hmost.mem), ?_⟩
      intro rs hrs
      rw [hpre, ← hn, ← hpub]
      rcases hrun.mem_iff.mp hrs with hrs | hrs
      · have hold := hmost.best rs hrs
        rwa [hrun.tally_pre hrs, hn, hpub]
      · -- this run is not better, and it is behind
        have heq := hrun.eq_of_mem hrs
        have hlt : (compareVoteRs most rs).isLE = true := by
          rw [Std.TransCmp.congr_right heq, hrun.below most hmost.mem]
          rfl
        rw [hrun.tally_run hrs, ← h.curN, publishedOn_eq heq]
        simp only [hlt, and_true]
        omega

theorem VotesAt.step {pre grp : List VoteRouterstatus} {cur rs : VoteRouterstatus} {s : VoteScan}
    (h : VotesAt votes pre cur grp s) (hle : (compareVoteRs cur rs).isLE = true) :
    ∃ pre' cur' grp', VotesAt (votes ++ [rs]) pre' cur' grp' (s.step rs) := by
  by_cases heq : compareVoteRs cur rs = .eq
  · have hstep : s.step rs = { s with curN := s.curN + 1 } := by
      simp only [VoteScan.step, h.cur, heq, if_true]
    refine ⟨pre, cur, grp ++ [rs], ?_⟩
    rw [hstep]
    refine ⟨h.run.snoc heq, h.cur, ?_, h.best⟩
    rw [List.length_append, List.length_singleton]
    exact congrArg (· + 1) h.curN
  · have hstep : s.step rs = { s.close with cur := some rs, curN := 1 } := by
      simp only [VoteScan.step, h.cur, heq, if_false]
    refine ⟨votes, rs, [], ?_⟩
    rw [hstep]
    exact ⟨h.run.next heq hle, rfl, rfl, h.close⟩

theorem votesAt_foldl (hne : votes ≠ [])
    (hsorted : votes.Pairwise fun a b => (compareVoteRs a b).isLE = true) :
    ∃ pre cur grp, VotesAt votes pre cur grp (votes.foldl VoteScan.step ⟨none, 0, 0, none, 0⟩) := by
  induction votes using List.reverseRecOn with
  | nil => exact absurd rfl hne
  | append_singleton votes rs ih =>
    rw [List.foldl_append]
    obtain ⟨hvotes, -, hlast⟩ := List.pairwise_append.mp hsorted
    by_cases hnil : votes = []
    · subst hnil
      exact ⟨[], rs, [], lastRun_singleton rs, rfl, rfl, Or.inl ⟨rfl, rfl⟩⟩
    · obtain ⟨pre, cur, grp, hat⟩ := ih hnil hvotes
      exact hat.step (hlast cur hat.run.mem rs (List.mem_singleton_self rs))

/-- **What the scan of the sorted votes finds.** -/
theorem isMost_scan (hne : votes ≠ [])
    (hsorted : votes.Pairwise fun a b => (compareVoteRs a b).isLE = true) :
    ∃ most, (votes.foldl VoteScan.step ⟨none, 0, 0, none, 0⟩).close.most = some most ∧ IsMost votes most := by
  obtain ⟨pre, cur, grp, hat⟩ := votesAt_foldl hne hsorted
  rcases hat.close with ⟨hnil, -⟩ | ⟨most, hsome, -, -, hmost⟩
  · exact absurd hnil hne
  · exact ⟨most, hsome, hmost⟩

theorem IsMost.perm {votes' : List VoteRouterstatus} {most : VoteRouterstatus} (h : IsMost votes most)
    (hperm : votes.Perm votes') : IsMost votes' most where
  mem := hperm.mem_iff.mp h.mem
  best rs hrs := by
    have hbest := h.best rs (hperm.mem_iff.mpr hrs)
    rwa [tally_perm hperm, tally_perm hperm] at hbest

theorem IsMost.eq {most most' : VoteRouterstatus} (h : IsMost votes most) (h' : IsMost votes most') :
    compareVoteRs most most' = .eq := by
  have hle := h.best most' h'.mem
  have hle' := h'.best most h.mem
  have hab : (compareVoteRs most most').isLE = true := by
    rcases hle with hlt | ⟨_, hlt | ⟨_, hisLE⟩⟩
    · exact (by omega : False).elim
    · exact (by omega : False).elim
    · exact hisLE
  have hba : (compareVoteRs most' most).isLE = true := by
    rcases hle' with hlt | ⟨_, hlt | ⟨_, hisLE⟩⟩
    · exact (by omega : False).elim
    · exact (by omega : False).elim
    · exact hisLE
  exact Std.OrientedCmp.isLE_antisymm hab hba

end Scan

/-! ### The most frequent digest and port -/

section Frequent

variable {α : Type} {cmp : α → α → Ordering} {l l' : List α} {a b : α}

/-- No member is more frequent; those that are as frequent are not larger. -/
structure MostFrequent (cmp : α → α → Ordering) (l : List α) (a : α) : Prop where
  mem : a ∈ l
  most : ∀ y ∈ l, tally cmp l y < tally cmp l a ∨ (tally cmp l y = tally cmp l a ∧ (cmp y a).isLE = true)

theorem MostFrequent.perm (h : MostFrequent cmp l a) (hperm : l.Perm l') : MostFrequent cmp l' a where
  mem := hperm.mem_iff.mp h.mem
  most y hy := by
    have hmost := h.most y (hperm.mem_iff.mpr hy)
    rwa [tally_perm hperm, tally_perm hperm] at hmost

variable [Std.TransCmp cmp]

theorem MostFrequent.eq (h : MostFrequent cmp l a) (h' : MostFrequent cmp l b) : cmp a b = .eq := by
  have hb := h.most b h'.mem
  have ha := h'.most a h.mem
  have hab : (cmp a b).isLE = true := by
    rcases ha with hlt | ⟨_, hle⟩
    · exact (by omega : False).elim
    · exact hle
  have hba : (cmp b a).isLE = true := by
    rcases hb with hlt | ⟨_, hle⟩
    · exact (by omega : False).elim
    · exact hle
  exact Std.OrientedCmp.isLE_antisymm hab hba

theorem mostFrequent_sort (s : Sorter cmp) (l : List α) :
    (l = [] ∧ (smartlistGetMostFrequent cmp (s.sort l)).1 = none) ∨
      ∃ a, (smartlistGetMostFrequent cmp (s.sort l)).1 = some a ∧ MostFrequent cmp l a := by
  have hperm := s.perm l
  by_cases hnil : l = []
  · subst hnil
    left
    rw [hperm.eq_nil]
    exact ⟨rfl, rfl⟩
  · right
    have hne : s.sort l ≠ [] := by
      intro heq
      rw [heq] at hperm
      exact hnil hperm.symm.eq_nil
    obtain ⟨a, c, hget, hwin⟩ := isWinner_mostFrequent hne (s.sorted l (consistentOn_of_transCmp cmp l))
    refine ⟨a, by rw [hget], MostFrequent.perm ⟨hwin.mem, ?_⟩ hperm⟩
    rw [← hwin.count]
    exact hwin.most

end Frequent

theorem beNat_injective {l l' : List UInt8} (hlen : l.length = l'.length) (h : beNat l = beNat l') :
    l = l' := by
  induction l generalizing l' with
  | nil => exact (List.eq_nil_of_length_eq_zero hlen.symm).symm
  | cons b l ih =>
    cases l' with
    | nil => cases hlen
    | cons b' l' =>
      have hlen' : l.length = l'.length := by simpa using hlen
      rw [beNat_cons, beNat_cons, ← hlen'] at h
      have hl := beNat_lt l
      have hl' := beNat_lt l'
      rw [← hlen'] at hl'
      have hpos : 0 < 256 ^ l.length := by positivity
      have hmod : beNat l = beNat l' := by
        have hrest := congrArg (· % 256 ^ l.length) h
        simpa only [Nat.mul_add_mod_self_right, Nat.mod_eq_of_lt hl, Nat.mod_eq_of_lt hl'] using hrest
      have hdiv : b.toNat = b'.toNat := by
        rw [hmod] at h
        exact Nat.eq_of_mul_eq_mul_right hpos (Nat.add_right_cancel h)
      rw [ih hlen' hmod, UInt8.toNat_inj.mp hdiv]

theorem orport_eq {p q : OrAddrPort} (h : compareOrports p q = .eq) (hp : torAddrIsNull p.addr.addr = false)
    (hq : torAddrIsNull q.addr.addr = false) : (p.addr.addr, p.port) = (q.addr.addr, q.port) := by
  rw [compareOrports_eq] at h
  simp only [compareOrportKeys, compareLex_eq_eq, cmpOn, reversed, addrKeyOrdering] at h
  obtain ⟨hkey, hport⟩ := h
  have hkey' : addrKey p.addr = addrKey q.addr := by
    rcases keyCompare_eq_zero (compare_eq_iff_eq.mp hkey) with heq | ⟨hhow, _⟩
    · exact heq
    · cases hhow
  have hport' : p.port = q.port := by
    have hnat := compare_eq_iff_eq.mp hport
    exact UInt16.toNat_inj.mp (by omega)
  have haddr : p.addr.addr = q.addr.addr := by
    unfold addrKey at hkey'
    cases hpa : p.addr.addr <;> cases hqa : q.addr.addr <;> rw [hpa, hqa] at hkey' <;>
      rw [hpa] at hp <;> rw [hqa] at hq
    all_goals first | cases hp | cases hq | cases hkey' | skip
    · rw [UInt32.toNat_inj.mp (AddrKey.inet.inj hkey')]
    · next x y =>
      have hval := beNat_injective (by rw [x.length_eq, y.length_eq]) (AddrKey.inet6.inj hkey')
      obtain ⟨xs, hx⟩ := x
      obtain ⟨ys, hy⟩ := y
      simp only at hval
      subst hval
      rfl
  rw [haddr, hport']

/-! ### The choices -/

section Choices

variable {votes votes' : List VoteRouterstatus} {most most' : VoteRouterstatus} {method : ℕ}

def classOrports (votes : List VoteRouterstatus) (most : VoteRouterstatus) : List OrAddrPort :=
  (classOf votes most).filterMap altOrport

def classDigests (votes : List VoteRouterstatus) (most : VoteRouterstatus) (method : ℕ) : List (List UInt8) :=
  (classOf votes most).filterMap fun rs => findMicrodescHash method rs.microdesc

structure ChoiceCorrect (votes : List VoteRouterstatus) (method : ℕ) (r : RouterstatusChoice) : Prop where
  most : IsMost votes r.most
  digest : (classDigests votes r.most method = [] ∧ r.microdescDigest256 = none) ∨
    ∃ d, r.microdescDigest256 = some d ∧ MostFrequent bytesCmp (classDigests votes r.most method) d
  orport : (classOrports votes r.most = [] ∧ r.bestAltOrport = none) ∨
    ∃ ap : OrAddrPort, r.bestAltOrport = some (ap.addr.addr, ap.port) ∧
      MostFrequent compareOrports (classOrports votes r.most) ap

/-- The same choice: equal votes, and the same digest and port. -/
structure SameChoice (r r' : RouterstatusChoice) : Prop where
  most : compareVoteRs r.most r'.most = .eq
  digest : r.microdescDigest256 = r'.microdescDigest256
  orport : r.bestAltOrport = r'.bestAltOrport

theorem classOf_perm (hperm : votes.Perm votes') (heq : compareVoteRs most most' = .eq) :
    (classOf votes most).Perm (classOf votes' most') := by
  have hclass : classOf votes' most' = classOf votes' most := by
    unfold classOf
    congr 1
    funext rs
    rw [Std.TransCmp.congr_right heq]
  rw [hclass]
  exact hperm.filter _

theorem not_isNull_of_mem_classOrports {ap : OrAddrPort} (h : ap ∈ classOrports votes most) :
    torAddrIsNull ap.addr.addr = false := by
  obtain ⟨rs, -, hrs⟩ := List.mem_filterMap.mp h
  unfold altOrport at hrs
  split_ifs at hrs with hnull
  cases hrs
  exact hnull.1

/-- Correct choices of the same votes, in any order, are the same. -/
theorem ChoiceCorrect.same {r r' : RouterstatusChoice} (h : ChoiceCorrect votes method r)
    (h' : ChoiceCorrect votes' method r') (hperm : votes.Perm votes') : SameChoice r r' := by
  have heq := h.most.eq (h'.most.perm hperm.symm)
  have hclass := classOf_perm hperm heq
  have hdigests : (classDigests votes r.most method).Perm (classDigests votes' r'.most method) :=
    hclass.filterMap _
  have hports : (classOrports votes r.most).Perm (classOrports votes' r'.most) := hclass.filterMap _
  refine ⟨heq, ?_, ?_⟩
  · rcases h.digest with ⟨hnil, hnone⟩ | ⟨d, hd, hfreq⟩
    · rcases h'.digest with ⟨_, hnone'⟩ | ⟨d', _, hfreq'⟩
      · rw [hnone, hnone']
      · rw [hnil] at hdigests
        have hmem := hdigests.mem_iff.mpr hfreq'.mem
        cases hmem
    · rcases h'.digest with ⟨hnil', _⟩ | ⟨d', hd', hfreq'⟩
      · rw [hnil'] at hdigests
        have hmem := hdigests.mem_iff.mp hfreq.mem
        cases hmem
      · rw [hd, hd', Std.LawfulEqCmp.eq_of_compare (hfreq.eq (hfreq'.perm hdigests.symm))]
  · rcases h.orport with ⟨hnil, hnone⟩ | ⟨ap, hap, hfreq⟩
    · rcases h'.orport with ⟨_, hnone'⟩ | ⟨ap', _, hfreq'⟩
      · rw [hnone, hnone']
      · rw [hnil] at hports
        have hmem := hports.mem_iff.mpr hfreq'.mem
        cases hmem
    · rcases h'.orport with ⟨hnil', _⟩ | ⟨ap', hap', hfreq'⟩
      · rw [hnil'] at hports
        have hmem := hports.mem_iff.mp hfreq.mem
        cases hmem
      · rw [hap, hap', orport_eq (hfreq.eq (hfreq'.perm hports.symm))
          (not_isNull_of_mem_classOrports hfreq.mem) (not_isNull_of_mem_classOrports hfreq'.mem)]

/-- The function makes a correct choice. -/
theorem exists_choiceCorrect (sorts : VoteSorts) (hne : votes ≠ []) (method : ℕ) :
    ∃ r, computeRouterstatusConsensus sorts votes method = some r ∧ ChoiceCorrect votes method r := by
  have hperm := sorts.votes.perm votes
  have hne' : sorts.votes.sort votes ≠ [] := by
    intro heq
    rw [heq] at hperm
    exact hne hperm.symm.eq_nil
  obtain ⟨most, hscan, hmost⟩ := isMost_scan hne' (sorts.votes.sorted votes (consistentOn_of_transCmp _ votes))
  have hclass : ((sorts.votes.sort votes).filter fun rs => compareVoteRs rs most == .eq).Perm
      (classOf votes most) := hperm.filter _
  have hclass' : ((sorts.votes.sort votes).filter fun rs => compareVoteRs most rs == .eq).Perm
      (classOf votes most) := by
    have hsymm : (fun rs => compareVoteRs most rs == .eq) = fun rs => compareVoteRs rs most == .eq := by
      funext rs
      rw [Bool.eq_iff_iff, beq_iff_eq, beq_iff_eq, Std.OrientedCmp.eq_comm]
    rw [hsymm]
    exact hclass
  rw [computeRouterstatusConsensus]
  dsimp only
  rw [hscan]
  refine ⟨_, rfl, hmost.perm hperm, ?_, ?_⟩
  · have hdigests := hclass.filterMap fun rs => findMicrodescHash method rs.microdesc
    rcases mostFrequent_sort sorts.digests _ with ⟨hnil, hnone⟩ | ⟨d, hd, hfreq⟩
    · refine Or.inl ⟨?_, hnone⟩
      rw [hnil] at hdigests
      exact hdigests.symm.eq_nil
    · exact Or.inr ⟨d, hd, hfreq.perm hdigests⟩
  · have hports := hclass'.filterMap altOrport
    rcases mostFrequent_sort sorts.orports _ with ⟨hnil, hnone⟩ | ⟨ap, hap, hfreq⟩
    · refine Or.inl ⟨?_, by dsimp only; rw [hnone]; rfl⟩
      rw [hnil] at hports
      exact hports.symm.eq_nil
    · exact Or.inr ⟨ap, by dsimp only; rw [hap]; rfl, hfreq.perm hports⟩

/-- **The winning router status**, and that neither the order of the votes nor the sorts matter. -/
theorem computeRouterstatusConsensus_correct (sorts : VoteSorts) (votes : List VoteRouterstatus)
    (hne : votes ≠ []) (method : ℕ) :
    ∃ r, computeRouterstatusConsensus sorts votes method = some r ∧ ChoiceCorrect votes method r ∧
      ∀ (sorts' : VoteSorts) (votes' : List VoteRouterstatus), votes'.Perm votes →
        ∃ r', computeRouterstatusConsensus sorts' votes' method = some r' ∧ SameChoice r r' := by
  obtain ⟨r, hr, hcorrect⟩ := exists_choiceCorrect sorts hne method
  refine ⟨r, hr, hcorrect, ?_⟩
  intro sorts' votes' hperm
  have hne' : votes' ≠ [] := by
    rintro rfl
    exact hne hperm.symm.eq_nil
  obtain ⟨r', hr', hcorrect'⟩ := exists_choiceCorrect sorts' hne' method
  exact ⟨r', hr', hcorrect.same hcorrect' hperm.symm⟩

/-- A vote about the relay `a` at 1.2.3.4, port 443, published at some time. -/
def relayVote (publishedOn : ℤ) (h : 0 ≤ publishedOn ∧ publishedOn < 2 ^ 63) : VoteRouterstatus where
  identityDigest := ⟨List.replicate 20 1, by decide⟩
  descriptorDigest := ⟨List.replicate 20 2, by decide⟩
  publishedOn := publishedOn
  nickname := [0x61]
  ipv4Addr := ⟨0, .inet 0x01020304⟩
  ipv4Orport := 443
  ipv4Dirport := 0
  ipv6Addr := ⟨1, .unspec⟩
  ipv6Orport := 0
  microdesc := []
  published_range := h
  not_unix := by decide

/-- Three votes, two of them with the later time. -/
theorem computeRouterstatusConsensus_correct_three :
    ∃ r, computeRouterstatusConsensus ⟨Sorter.merge _, Sorter.merge _, Sorter.merge _⟩
        [relayVote 5 (by decide), relayVote 9 (by decide), relayVote 9 (by decide)] 28 = some r ∧
      ChoiceCorrect [relayVote 5 (by decide), relayVote 9 (by decide), relayVote 9 (by decide)] 28 r ∧
      ∀ (sorts' : VoteSorts) (votes' : List VoteRouterstatus),
        votes'.Perm [relayVote 5 (by decide), relayVote 9 (by decide), relayVote 9 (by decide)] →
        ∃ r', computeRouterstatusConsensus sorts' votes' 28 = some r' ∧ SameChoice r r' :=
  computeRouterstatusConsensus_correct _ _ (by simp) 28

end Choices

end TorEbpf.Dirauth
