import TorEbpf.Lib.Buffer
import TorEbpf.Lib.Series
import TorEbpf.Strings.NumberText

/-!
# The parameters of a consensus

`dirvote_compute_params` of `dirvote.c` pools the parameters of all votes, sorts them as texts, and takes the
low median of every series of one keyword that has enough votes.

* `paramLoop_series` — what the loop makes of a series;
* `dirvoteComputeParams_correct` — which parameters a consensus has.
-/

namespace TorEbpf.Dirauth

open TorEbpf.Lib TorEbpf.Strings

/-! ### The code -/

def int32Min : ℤ := -2 ^ 31

def int32Max : ℤ := 2 ^ 31 - 1

def minVotesForParam : ℕ := 3

def keyword (param : List UInt8) : List UInt8 := param.takeWhile (· ≠ 0x3d)

/-- `eq+1 - param`, where `eq` is the first equality sign. -/
def paramLen (param : List UInt8) : Checked Unit Access ℕ :=
  if 0x3d ∈ param then .ok ((keyword param).length + 1) else fault .assertion

def findNthInt32 (array : List ℤ) (nth : ℤ) : Checked Unit Access ℤ := do
  torAssert (0 ≤ nth)
  torAssert (nth < array.length)
  load (array.mergeSort fun a b => a ≤ b) nth.toNat

def medianInt32 (array : List ℤ) : Checked Unit Access ℤ := findNthInt32 array ((array.length - 1 : ℤ).tdiv 2)

/-- `%ld`. -/
def longText (v : ℤ) : List UInt8 := if v < 0 then 0x2d :: decimal v.natAbs else decimal v.natAbs

/-- `i > total_authorities/2 || i >= MIN_VOTES_FOR_PARAM`. -/
def Enough (totalAuthorities : ℤ) (n : ℕ) : Prop := totalAuthorities.tdiv 2 < n ∨ minVotesForParam ≤ n

instance (totalAuthorities : ℤ) (n : ℕ) : Decidable (Enough totalAuthorities n) :=
  inferInstanceAs (Decidable (_ ∨ _))

/-- The local variables of `dirvote_compute_params`: `vals` up to `i`, `cur_param_len` and `output`. -/
structure ParamScan where
  vals : List ℤ
  curParamLen : ℕ
  output : List (List UInt8)

def ParamScan.close (totalAuthorities : ℤ) (s : ParamScan) (param : List UInt8) :
    Checked Unit Access (List (List UInt8)) :=
  if Enough totalAuthorities s.vals.length then do
    let median ← medianInt32 s.vals
    return s.output ++ [param.take s.curParamLen ++ longText median]
  else .ok s.output

def paramStep (nVotes : ℕ) (totalAuthorities : ℤ) (s : ParamScan) (param : List UInt8)
    (nextParam : Option (List UInt8)) : Checked Unit Access ParamScan := do
  let len ← paramLen param
  torAssert (s.vals.length < nVotes)
  match torParseLong (param.drop len) int32Min int32Max with
  | some (v, []) =>
    let s := { s with vals := s.vals ++ [v] }
    match nextParam with
    | none => (fun output => ⟨[], s.curParamLen, output⟩) <$> s.close totalAuthorities param
    | some next =>
      if next.take s.curParamLen = param.take s.curParamLen then return s
      else do
        let output ← s.close totalAuthorities param
        let len ← paramLen next
        return ⟨[], len, output⟩
  | _ => fault .assertion

/-- The loop of `dirvote_compute_params`. -/
def paramLoop (nVotes : ℕ) (totalAuthorities : ℤ) :
    ParamScan → List (List UInt8) → Checked Unit Access (List (List UInt8))
  | s, [] => .ok s.output
  | s, param :: rest => do
    let s ← paramStep nVotes totalAuthorities s param rest.head?
    paramLoop nVotes totalAuthorities s rest

/-- `dirvote_compute_params`, with the `net_params` of the votes. -/
def dirvoteComputeParams (sorter : Sorter bytesCmp) (votes : List (Option (List (List UInt8))))
    (totalAuthorities : ℤ) : Checked Unit Access (List (List UInt8)) :=
  match sorter.sort (votes.flatMap (·.getD [])) with
  | [] => .ok []
  | curParam :: rest => do
    let len ← paramLen curParam
    paramLoop votes.length totalAuthorities ⟨[], len, []⟩ (curParam :: rest)

/-! ### What a vote is about -/

/-- The text behind the first equality sign. -/
def valueText (param : List UInt8) : List UInt8 := param.drop ((keyword param).length + 1)

def paramValue (param : List UInt8) : ℤ := wholeLong (valueText param) int32Min int32Max

/-- A keyword, an equality sign and a value. -/
def IsParam (param : List UInt8) : Prop :=
  0x3d ∈ param ∧ torParseLong (valueText param) int32Min int32Max = some (paramValue param, [])

/-- Well-formed `net_params`: parameters with different keywords. -/
def ParamsWellFormed (params : List (List UInt8)) : Prop :=
  (∀ param ∈ params, IsParam param) ∧ (params.map keyword).Nodup

def votedValues (votes : List (Option (List (List UInt8)))) (kw : List UInt8) : List ℤ :=
  ((votes.flatMap (·.getD [])).filter (keyword · = kw)).map paramValue

/-- These values, in the order in which the loop meets them. -/
def sortedValues (sorter : Sorter bytesCmp) (votes : List (Option (List (List UInt8)))) (kw : List UInt8) :
    List ℤ :=
  ((sorter.sort (votes.flatMap (·.getD []))).filter (keyword · = kw)).map paramValue

def voters (votes : List (Option (List (List UInt8)))) (kw : List UInt8) : ℕ :=
  votes.countP fun params => (params.getD []).any (keyword · = kw)

/-! ### Keywords -/

section Keywords

variable {param next kw : List UInt8}

theorem keyword_append (h : 0x3d ∈ param) : param = keyword param ++ 0x3d :: valueText param := by
  induction param with
  | nil => cases h
  | cons c param ih =>
    by_cases hc : c = 0x3d
    · subst hc
      rfl
    · have hkw : keyword (c :: param) = c :: keyword param := List.takeWhile_cons_of_pos (by simpa using hc)
      have hrest : valueText (c :: param) = valueText param := by
        rw [valueText, hkw, valueText, List.length_cons, List.drop_succ_cons]
      rw [hkw, hrest, List.cons_append, ← ih (List.mem_of_ne_of_mem (Ne.symm hc) h)]

theorem not_mem_keyword : 0x3d ∉ keyword param := by
  intro h
  have := List.mem_takeWhile_imp h
  simp at this

theorem keyword_of_append (h : 0x3d ∉ kw) (rest : List UInt8) : keyword (kw ++ 0x3d :: rest) = kw := by
  have hkw : ∀ c ∈ kw, decide (c ≠ 0x3d) = true := by
    intro c hc
    simpa using fun heq : c = 0x3d => h (heq ▸ hc)
  rw [keyword, List.takeWhile_append_of_pos hkw, List.takeWhile_cons_of_neg (by simp), List.append_nil]

theorem take_paramLen (h : 0x3d ∈ param) :
    param.take ((keyword param).length + 1) = keyword param ++ [0x3d] := by
  have htake : ∀ k rest : List UInt8, (k ++ 0x3d :: rest).take (k.length + 1) = k ++ [0x3d] := by
    intro k rest
    rw [List.take_append, List.take_of_length_le (Nat.le_succ _), Nat.add_sub_cancel_left]
    rfl
  exact (congrArg (List.take _) (keyword_append h)).trans (htake _ _)

/-- The parameter has the keyword if it begins with it and an equality sign. -/
theorem prefix_iff (hkw : 0x3d ∉ kw) : kw ++ [0x3d] <+: param ↔ 0x3d ∈ param ∧ keyword param = kw := by
  constructor
  · rintro ⟨rest, rfl⟩
    rw [List.append_assoc]
    exact ⟨by simp, keyword_of_append hkw rest⟩
  · rintro ⟨hmem, rfl⟩
    refine ⟨valueText param, ?_⟩
    conv_rhs => rw [keyword_append hmem]
    rw [List.append_assoc]
    rfl

theorem take_eq_iff (h : 0x3d ∈ param) (hnext : 0x3d ∈ next) :
    next.take ((keyword param).length + 1) = param.take ((keyword param).length + 1) ↔
      keyword next = keyword param := by
  rw [take_paramLen h]
  constructor
  · intro htake
    refine ((prefix_iff not_mem_keyword).mp ?_).2
    rw [← htake]
    exact List.take_prefix _ _
  · intro hkw
    rw [← hkw]
    exact take_paramLen hnext

end Keywords

theorem contiguous_params {l : List (List UInt8)} (hl : ∀ param ∈ l, 0x3d ∈ param)
    (hsorted : l.Pairwise fun a b => (bytesCmp a b).isLE = true) : Contiguous keyword l := by
  intro a b c habc hkey
  have hpair := hsorted.sublist habc
  simp only [List.pairwise_cons, List.mem_cons, List.not_mem_nil, or_false] at hpair
  obtain ⟨hab, hbc, -⟩ := hpair
  have ha : keyword a ++ [0x3d] <+: a := (prefix_iff not_mem_keyword).mpr ⟨hl a (habc.subset (by simp)), rfl⟩
  have hc : keyword a ++ [0x3d] <+: c :=
    (prefix_iff not_mem_keyword).mpr ⟨hl c (habc.subset (by simp)), hkey.symm⟩
  exact ((prefix_iff not_mem_keyword).mp (prefix_of_between ha hc (hab b (Or.inl rfl)) (hbc c rfl))).2

/-! ### Medians -/

/-- The value in the middle of the sorted values. -/
def lowMedian (vals : List ℤ) : ℤ := (vals.mergeSort fun a b => a ≤ b)[(vals.length - 1) / 2]?.getD 0

theorem mergeSort_getElem? {vals : List ℤ} (h : vals ≠ []) :
    (vals.mergeSort fun a b => a ≤ b)[(vals.length - 1) / 2]? = some (lowMedian vals) := by
  have hpos := List.length_pos_iff.mpr h
  have hlt : (vals.length - 1) / 2 < (vals.mergeSort fun a b => a ≤ b).length := by
    rw [List.length_mergeSort]
    omega
  rw [lowMedian, List.getElem?_eq_getElem hlt]
  rfl

/-- **`median_int32`** finds the low median. -/
theorem medianInt32_eq {vals : List ℤ} (h : vals ≠ []) : medianInt32 vals = .ok (lowMedian vals) := by
  have hpos := List.length_pos_iff.mpr h
  have hnth : ((vals.length - 1 : ℤ).tdiv 2) = ((vals.length - 1) / 2 : ℕ) := by
    rw [Int.tdiv_eq_ediv_of_nonneg (by omega)]
    omega
  rw [medianInt32, findNthInt32, hnth, torAssert_of (by omega), ok_bind, torAssert_of (by omega), ok_bind,
    Int.toNat_natCast, load, mergeSort_getElem? h]

theorem isLowMedian_lowMedian {vals : List ℤ} (h : vals ≠ []) : IsLowMedian vals (lowMedian vals) := by
  have hperm := List.mergeSort_perm vals fun a b => a ≤ b
  have hsorted : (vals.mergeSort fun a b => a ≤ b).Pairwise (· ≤ ·) := by
    refine (List.pairwise_mergeSort ?_ ?_ vals).imp (by simp)
    · intro a b c hab hbc
      simp only [decide_eq_true_eq] at hab hbc ⊢
      exact hab.trans hbc
    · intro a b
      simpa using le_total a b
  refine (isLowMedian_sorted hsorted ?_).perm hperm
  rw [List.length_mergeSort]
  exact mergeSort_getElem? h

/-! ### The loop -/

/-- The parameter of a series, if it has enough votes. -/
def elected (totalAuthorities : ℤ) (kw : List UInt8) (vals : List ℤ) : List (List UInt8) :=
  if Enough totalAuthorities vals.length then [kw ++ 0x3d :: longText (lowMedian vals)] else []

section Loop

variable {nVotes : ℕ} {totalAuthorities : ℤ} {s : ParamScan} {param next kw : List UInt8}
variable {series rest : List (List UInt8)}

theorem paramLen_of_mem (h : 0x3d ∈ param) : paramLen param = .ok ((keyword param).length + 1) := if_pos h

theorem close_eq (hvals : s.vals ≠ []) (hlen : s.curParamLen = (keyword param).length + 1) (h : 0x3d ∈ param) :
    s.close totalAuthorities param = .ok (s.output ++ elected totalAuthorities (keyword param) s.vals) := by
  rw [ParamScan.close, elected, hlen, take_paramLen h, medianInt32_eq hvals]
  split_ifs with henough
  · rw [ok_bind, List.append_assoc]
    rfl
  · rw [List.append_nil]

theorem paramStep_inner (hparam : IsParam param) (hnext : IsParam next) (hkw : keyword next = keyword param)
    (hlen : s.curParamLen = (keyword param).length + 1) (hroom : s.vals.length < nVotes) :
    paramStep nVotes totalAuthorities s param (some next) =
      .ok ⟨s.vals ++ [paramValue param], s.curParamLen, s.output⟩ := by
  have hvalue := hparam.2
  unfold valueText at hvalue
  rw [paramStep, paramLen_of_mem hparam.1, ok_bind, torAssert_of hroom, ok_bind, hvalue]
  dsimp only
  rw [hlen, if_pos ((take_eq_iff hparam.1 hnext.1).mpr hkw)]
  rfl

/-- `cur_param_len` of the next series. -/
def nextLen (len : ℕ) : Option (List UInt8) → ℕ
  | none => len
  | some next => (keyword next).length + 1

theorem paramStep_last {nextParam : Option (List UInt8)} (hparam : IsParam param)
    (hnext : ∀ next ∈ nextParam, IsParam next ∧ keyword next ≠ keyword param)
    (hlen : s.curParamLen = (keyword param).length + 1) (hroom : s.vals.length < nVotes) :
    paramStep nVotes totalAuthorities s param nextParam = .ok ⟨[], nextLen s.curParamLen nextParam,
      s.output ++ elected totalAuthorities (keyword param) (s.vals ++ [paramValue param])⟩ := by
  have hvalue := hparam.2
  unfold valueText at hvalue
  have hclose : ParamScan.close totalAuthorities ⟨s.vals ++ [paramValue param], s.curParamLen, s.output⟩ param =
      .ok (s.output ++ elected totalAuthorities (keyword param) (s.vals ++ [paramValue param])) :=
    close_eq (by simp) hlen hparam.1
  rw [paramStep, paramLen_of_mem hparam.1, ok_bind, torAssert_of hroom, ok_bind, hvalue]
  cases nextParam with
  | none =>
    dsimp only
    rw [hclose]
    rfl
  | some next =>
    obtain ⟨hnext, hkw⟩ := hnext next rfl
    have htake : ¬next.take s.curParamLen = param.take s.curParamLen := by
      rw [hlen]
      exact fun heq => hkw ((take_eq_iff hparam.1 hnext.1).mp heq)
    dsimp only
    rw [if_neg htake, hclose, ok_bind, paramLen_of_mem hnext.1]
    rfl

/-- **A series**: its values are collected, and it is closed before the next one. -/
theorem paramLoop_series (hseries : ∀ param ∈ series, IsParam param ∧ keyword param = kw) (hne : series ≠ [])
    (hrest : ∀ next ∈ rest.head?, IsParam next ∧ keyword next ≠ kw) (hlen : s.curParamLen = kw.length + 1)
    (hroom : s.vals.length + series.length ≤ nVotes) :
    paramLoop nVotes totalAuthorities s (series ++ rest) =
      paramLoop nVotes totalAuthorities ⟨[], nextLen s.curParamLen rest.head?,
        s.output ++ elected totalAuthorities kw (s.vals ++ series.map paramValue)⟩ rest := by
  induction series generalizing s with
  | nil => exact absurd rfl hne
  | cons param series ih =>
    obtain ⟨⟨hparam, hkw⟩, hseries⟩ := List.forall_mem_cons.mp hseries
    rw [List.length_cons] at hroom
    have hlen' : s.curParamLen = (keyword param).length + 1 := by rw [hkw, hlen]
    cases series with
    | nil =>
      rw [List.singleton_append, paramLoop,
        paramStep_last hparam (by rw [hkw]; exact hrest) hlen' (by omega), ok_bind, hkw]
      rfl
    | cons next series =>
      obtain ⟨hnext, hkw'⟩ := hseries next List.mem_cons_self
      have hinner := ih (s := ⟨s.vals ++ [paramValue param], s.curParamLen, s.output⟩) hseries (by simp) hlen
        (by rw [List.length_append, List.length_singleton]; omega)
      rw [List.cons_append, paramLoop]
      rw [show (next :: series ++ rest).head? = some next from rfl,
        paramStep_inner hparam hnext (by rw [hkw, hkw']) hlen' (by omega), ok_bind, hinner]
      dsimp only
      rw [List.append_assoc]
      rfl

/-- **All series.** -/
theorem paramLoop_all {l : List (List UInt8)} (hl : ∀ param ∈ l, IsParam param)
    (hroom : ∀ kw, (l.filter (keyword · = kw)).length ≤ nVotes) (ks : List (List UInt8)) (hnodup : ks.Nodup)
    (hks : ∀ k ∈ ks, ∃ a ∈ l, keyword a = k) {len : ℕ} {output : List (List UInt8)}
    (hlen : ∀ k ∈ ks.head?, len = k.length + 1) :
    paramLoop nVotes totalAuthorities ⟨[], len, output⟩ (ks.flatMap fun k => l.filter (keyword · = k)) =
      .ok (output ++ ks.flatMap fun k =>
        elected totalAuthorities k ((l.filter (keyword · = k)).map paramValue)) := by
  induction ks generalizing len output with
  | nil =>
    rw [List.flatMap_nil, List.flatMap_nil, List.append_nil]
    rfl
  | cons k ks ih =>
    obtain ⟨hk, hnodup⟩ := List.nodup_cons.mp hnodup
    obtain ⟨⟨a, ha, hka⟩, hks⟩ := List.forall_mem_cons.mp hks
    have hseries : ∀ param ∈ l.filter (keyword · = k), IsParam param ∧ keyword param = k := by
      intro param hparam
      obtain ⟨hmem, hkw⟩ := List.mem_filter.mp hparam
      exact ⟨hl param hmem, by simpa using hkw⟩
    have hne : l.filter (keyword · = k) ≠ [] :=
      List.ne_nil_of_mem (List.mem_filter.mpr ⟨ha, by simpa using hka⟩)
    -- what comes next is the first parameter of the next series
    have hhead : ∀ next ∈ (ks.flatMap fun k => l.filter (keyword · = k)).head?,
        IsParam next ∧ ks.head? = some (keyword next) := by
      intro next hnext
      cases ks with
      | nil => cases hnext
      | cons k' ks =>
        obtain ⟨b, hb, hkb⟩ := hks k' List.mem_cons_self
        have hmem : b ∈ l.filter (keyword · = k') := List.mem_filter.mpr ⟨hb, by simpa using hkb⟩
        obtain ⟨c, cs, hcs⟩ := List.exists_cons_of_ne_nil (List.ne_nil_of_mem hmem)
        rw [List.flatMap_cons, hcs] at hnext
        cases hnext
        obtain ⟨hc, hkc⟩ := List.mem_filter.mp (hcs ▸ List.mem_cons_self : next ∈ l.filter (keyword · = k'))
        exact ⟨hl next hc, by simpa using (of_decide_eq_true hkc).symm⟩
    rw [List.flatMap_cons, List.flatMap_cons, paramLoop_series hseries hne ?_ (hlen k rfl)
      (by simpa using hroom k)]
    · dsimp only
      rw [List.nil_append, ih hnodup hks, List.append_assoc]
      intro k' hk'
      cases hnext : (ks.flatMap fun k => l.filter (keyword · = k)).head? with
      | none =>
        exfalso
        obtain ⟨b, hb, hkb⟩ := hks k' (List.mem_of_mem_head? hk')
        have hmem : b ∈ ks.flatMap fun k => l.filter (keyword · = k) :=
          List.mem_flatMap.mpr ⟨k', List.mem_of_mem_head? hk', List.mem_filter.mpr ⟨hb, by simpa using hkb⟩⟩
        rw [List.head?_eq_none_iff.mp hnext] at hmem
        cases hmem
      | some next =>
        have hsome := (hhead next hnext).2
        rw [hk'] at hsome
        rw [nextLen, Option.some.inj hsome]
    · intro next hnext
      obtain ⟨hnext, hsome⟩ := hhead next hnext
      refine ⟨hnext, fun heq => hk ?_⟩
      rw [← heq]
      exact List.mem_of_mem_head? hsome

end Loop

/-! ### All votes -/

section Votes

variable {votes : List (Option (List (List UInt8)))} {totalAuthorities : ℤ}

theorem length_filter_params {params : List (List UInt8)} (h : ParamsWellFormed params) (kw : List UInt8) :
    (params.filter (keyword · = kw)).length = if params.any (keyword · = kw) then 1 else 0 := by
  have hcount : (params.filter (keyword · = kw)).length = (params.map keyword).count kw := by
    rw [← List.countP_eq_length_filter, List.count, List.countP_map]
    exact List.countP_congr fun x _ => by simp
  rw [hcount]
  split_ifs with hany
  · refine List.count_eq_one_of_mem h.2 ?_
    simpa using hany
  · rw [List.count_eq_zero]
    simpa using hany

theorem length_votedValues (h : ∀ params ∈ votes, ParamsWellFormed (params.getD [])) (kw : List UInt8) :
    (votedValues votes kw).length = voters votes kw := by
  unfold votedValues voters
  rw [List.length_map]
  induction votes with
  | nil => rfl
  | cons params votes ih =>
    obtain ⟨hparams, hvotes⟩ := List.forall_mem_cons.mp h
    rw [List.flatMap_cons, List.filter_append, List.length_append, length_filter_params hparams, ih hvotes,
      List.countP_cons, Nat.add_comm]

/-- Enough votes are more than half of the authorities, or `MIN_VOTES_FOR_PARAM`. -/
theorem enough_iff {n : ℕ} (hn : 0 < n) : Enough totalAuthorities n ↔ totalAuthorities < 2 * n ∨ 3 ≤ n := by
  unfold Enough minVotesForParam
  rcases le_total 0 totalAuthorities with h | h
  · rw [Int.tdiv_eq_ediv_of_nonneg h]
    omega
  · obtain ⟨m, rfl⟩ : ∃ m : ℤ, totalAuthorities = -m := ⟨-totalAuthorities, by omega⟩
    rw [Int.neg_tdiv, Int.tdiv_eq_ediv_of_nonneg (by omega)]
    omega

/-- The parameters that `dirvote_compute_params` finds, in the order of their texts. -/
theorem dirvoteComputeParams_eq (sorter : Sorter bytesCmp)
    (h : ∀ params ∈ votes, ParamsWellFormed (params.getD [])) :
    ∃ ks : List (List UInt8), ks.Nodup ∧ (∀ k, k ∈ ks ↔ 0 < voters votes k) ∧
      dirvoteComputeParams sorter votes totalAuthorities =
        .ok (ks.flatMap fun k => elected totalAuthorities k (sortedValues sorter votes k)) := by
  have hperm := sorter.perm (votes.flatMap (·.getD []))
  have hparam : ∀ param ∈ sorter.sort (votes.flatMap (·.getD [])), IsParam param := by
    intro param hmem
    obtain ⟨params, hparams, hmem⟩ := List.mem_flatMap.mp (hperm.mem_iff.mp hmem)
    exact (h params hparams).1 param hmem
  have hsorted := sorter.sorted (votes.flatMap (·.getD [])) (consistentOn_of_transCmp bytesCmp _)
  have hlen : ∀ kw, ((sorter.sort (votes.flatMap (·.getD []))).filter (keyword · = kw)).length =
      voters votes kw := by
    intro kw
    rw [(hperm.filter _).length_eq, ← length_votedValues h kw, votedValues, List.length_map]
  obtain ⟨ks, hnodup, hks, hsplit⟩ := exists_series (contiguous_params (fun p hp => (hparam p hp).1) hsorted)
  refine ⟨ks, hnodup, fun k => ?_, ?_⟩
  · rw [hks, ← hlen, List.length_pos_iff]
    simp [List.filter_eq_nil_iff]
  · have hroom : ∀ kw, ((sorter.sort (votes.flatMap (·.getD []))).filter (keyword · = kw)).length ≤
        votes.length := by
      intro kw
      rw [hlen]
      exact List.countP_le_length
    unfold dirvoteComputeParams sortedValues
    generalize hl : sorter.sort (votes.flatMap (·.getD [])) = l at *
    cases l with
    | nil =>
      cases ks with
      | nil => rfl
      | cons k ks =>
        obtain ⟨a, ha, -⟩ := (hks k).mp List.mem_cons_self
        cases ha
    | cons param rest =>
      have hfirst : ∀ k ∈ ks.head?, (keyword param).length + 1 = k.length + 1 := by
        intro k hk
        cases ks with
        | nil => cases hk
        | cons k' ks =>
          cases hk
          obtain ⟨a, ha, hka⟩ := (hks k).mp List.mem_cons_self
          have hmem : a ∈ (param :: rest).filter (keyword · = k) := List.mem_filter.mpr ⟨ha, by simpa using hka⟩
          obtain ⟨b, bs, hbs⟩ := List.exists_cons_of_ne_nil (List.ne_nil_of_mem hmem)
          have hb : b ∈ (param :: rest).filter (keyword · = k) := hbs ▸ List.mem_cons_self
          rw [List.flatMap_cons, hbs, List.cons_append] at hsplit
          rw [(List.cons.inj hsplit).1, of_decide_eq_true (List.mem_filter.mp hb).2]
      dsimp only
      rw [paramLen_of_mem (hparam param List.mem_cons_self).1, ok_bind]
      conv_lhs => rw [hsplit]
      exact paramLoop_all hparam hroom ks hnodup (fun k hk => (hks k).mp hk) hfirst

theorem mem_elected_iff {kw entry : List UInt8} {vals : List ℤ} : entry ∈ elected totalAuthorities kw vals ↔
    Enough totalAuthorities vals.length ∧ entry = kw ++ 0x3d :: longText (lowMedian vals) := by
  unfold elected
  split_ifs with henough
  · simp [henough]
  · simp [henough]

/-- The sorted texts do not depend on the order of the votes. -/
theorem sort_perm (sorter sorter' : Sorter bytesCmp) {l l' : List (List UInt8)} (h : l.Perm l') :
    sorter.sort l = sorter'.sort l' := by
  have hfilter := filter_sort_eq sorter sorter' h (fun _ => true) fun _ _ _ _ _ _ =>
    Std.LawfulEqCmp.eq_of_compare
  simpa using hfilter

theorem keywords_elected {ks : List (List UInt8)} (hks : ∀ k ∈ ks, 0x3d ∉ k) (vals : List UInt8 → List ℤ) :
    ((ks.flatMap fun k => elected totalAuthorities k (vals k)).map keyword).Sublist ks := by
  induction ks with
  | nil => exact List.Sublist.refl []
  | cons k ks ih =>
    obtain ⟨hk, hks⟩ := List.forall_mem_cons.mp hks
    rw [List.flatMap_cons, List.map_append]
    unfold elected
    split_ifs
    · rw [List.map_singleton, keyword_of_append hk]
      exact List.Sublist.cons_cons k (ih hks)
    · exact List.Sublist.cons k (ih hks)

/-- **The parameters of a consensus.**  For well-formed votes `dirvote_compute_params` fails no assertion, and
finds, for each keyword that more than half of the authorities or at least three voters have voted on, the low
median of their values, and nothing else; the order of the votes does not matter. -/
theorem dirvoteComputeParams_correct (sorter : Sorter bytesCmp) (votes : List (Option (List (List UInt8))))
    (totalAuthorities : ℤ) (h : ∀ params ∈ votes, ParamsWellFormed (params.getD [])) :
    ∃ output, dirvoteComputeParams sorter votes totalAuthorities = .ok output ∧
      (output.map keyword).Nodup ∧
      (∀ entry, entry ∈ output ↔ ∃ kw v, entry = kw ++ 0x3d :: longText v ∧ 0x3d ∉ kw ∧
        0 < voters votes kw ∧ (totalAuthorities < 2 * voters votes kw ∨ 3 ≤ voters votes kw) ∧
          IsLowMedian (votedValues votes kw) v) ∧
      ∀ sorter' votes', votes'.Perm votes →
        dirvoteComputeParams sorter' votes' totalAuthorities = .ok output := by
  obtain ⟨ks, hnodup, hks, heq⟩ := @dirvoteComputeParams_eq votes totalAuthorities sorter h
  have hkw : ∀ k ∈ ks, 0x3d ∉ k := by
    intro k hk
    obtain ⟨params, -, hany⟩ := List.countP_pos_iff.mp ((hks k).mp hk)
    obtain ⟨param, -, hkey⟩ := List.any_eq_true.mp hany
    rw [← of_decide_eq_true hkey]
    exact not_mem_keyword
  -- the values of a series are the voted values, in another order
  have hvals : ∀ k, (sortedValues sorter votes k).Perm (votedValues votes k) := fun k =>
    ((sorter.perm _).filter _).map _
  have hlen : ∀ k, (sortedValues sorter votes k).length = voters votes k := fun k => by
    rw [(hvals k).length_eq, length_votedValues h]
  have hne : ∀ k, 0 < voters votes k → sortedValues sorter votes k ≠ [] := fun k hpos => by
    rwa [← List.length_pos_iff, hlen]
  refine ⟨_, heq, (keywords_elected hkw _).nodup hnodup, fun entry => ?_, ?_⟩
  · rw [List.mem_flatMap]
    constructor
    · rintro ⟨k, hk, hentry⟩
      obtain ⟨henough, rfl⟩ := mem_elected_iff.mp hentry
      have hpos := (hks k).mp hk
      rw [hlen] at henough
      exact ⟨k, _, rfl, hkw k hk, hpos, (enough_iff hpos).mp henough,
        (isLowMedian_lowMedian (hne k hpos)).perm (hvals k)⟩
    · rintro ⟨k, v, rfl, -, hpos, henough, hmedian⟩
      refine ⟨k, (hks k).mpr hpos, mem_elected_iff.mpr ⟨?_, ?_⟩⟩
      · rw [hlen]
        exact (enough_iff hpos).mpr henough
      · rw [hmedian.unique ((isLowMedian_lowMedian (hne k hpos)).perm (hvals k))]
  · intro sorter' votes' hvotes
    have hsort : sorter'.sort (votes'.flatMap (·.getD [])) = sorter.sort (votes.flatMap (·.getD [])) :=
      sort_perm sorter' sorter (hvotes.flatMap_right _)
    rw [← heq]
    unfold dirvoteComputeParams
    rw [hsort, hvotes.length_eq]

/-- Four votes of five authorities: three disagree on `a`, two on `b`, one has `c`, one has no parameters. -/
def fourVotes : List (Option (List (List UInt8))) :=
  [some [[0x61, 0x3d, 0x37], [0x62, 0x3d, 0x2d, 0x35]], none, some [[0x61, 0x3d, 0x31], [0x63, 0x3d, 0x32]],
   some [[0x61, 0x3d, 0x33], [0x62, 0x3d, 0x39]]]

/-- The median of `a` is `3`; `b` and `c` have too few votes. -/
theorem dirvoteComputeParams_fourVotes :
    ∃ output, dirvoteComputeParams (Sorter.merge bytesCmp) fourVotes 5 = .ok output ∧
      [0x61, 0x3d, 0x33] ∈ output ∧ (∀ entry ∈ output, keyword entry = [0x61]) ∧
      ∀ votes', votes'.Perm fourVotes → dirvoteComputeParams (Sorter.merge bytesCmp) votes' 5 = .ok output := by
  have hformed : ∀ params ∈ fourVotes, ParamsWellFormed (params.getD []) := by
    unfold ParamsWellFormed IsParam
    decide +kernel
  obtain ⟨output, hok, -, hmem, hperm⟩ := dirvoteComputeParams_correct (Sorter.merge bytesCmp) fourVotes 5 hformed
  have hmedian : IsLowMedian (votedValues fourVotes [0x61]) 3 := by
    unfold IsLowMedian
    decide +kernel
  refine ⟨output, hok, (hmem _).mpr ⟨[0x61], 3, by decide +kernel, by decide, by decide, by decide, hmedian⟩,
    fun entry hentry => ?_, hperm _⟩
  obtain ⟨kw, v, rfl, hkw, hpos, henough, -⟩ := (hmem entry).mp hentry
  rw [keyword_of_append hkw]
  -- a keyword that a vote has is one of the three
  obtain ⟨params, hparams, hany⟩ := List.countP_pos_iff.mp hpos
  obtain ⟨param, hparam, hkey⟩ := List.any_eq_true.mp hany
  have hthree : ∀ params ∈ fourVotes, ∀ param ∈ params.getD [],
      keyword param = [0x61] ∨ voters fourVotes (keyword param) ≤ 2 := by
    decide +kernel
  rcases hthree params hparams param hparam with ha | hfew
  · rw [← of_decide_eq_true hkey, ha]
  · rw [of_decide_eq_true hkey] at hfew
    omega

end Votes

end TorEbpf.Dirauth
