import TorEbpf.Lib.Keyed

/-!
# The replay cache

`replaycache_add_and_test_internal` remembers when data was last given to it, by digest, and answers whether
that is within the horizon.  Old entries are removed by scrubs, which have an interval of their own.

* `Remembers` — what a cache knows of the calls up to some time;
* `remembers_run` — it holds after every run of calls whose times do not decrease;
* `replaycacheAddAndTest_correct` — the answers, the elapsed times and what a scrub leaves.
-/

namespace TorEbpf.Hs

open TorEbpf.Lib

/-! ### The code -/

structure Replaycache (δ : Type) where
  scrubInterval : ℤ
  scrubbed : ℤ
  horizon : ℤ
  /-- The digests and their access times. -/
  digestsSeen : List (δ × ℤ)

/-- `replaycache_new`; nothing is `NULL`. -/
def replaycacheNew (δ : Type) (horizon interval : ℤ) : Option (Replaycache δ) :=
  if horizon < 0 then none
  else some { scrubInterval := if interval < 0 then 0 else interval, scrubbed := 0, horizon, digestsSeen :=
   [] }

def Replaycache.early {δ : Type} (r : Replaycache δ) (present : ℤ) : Bool :=
  present - r.scrubbed < r.scrubInterval && 0 < r.scrubbed

/-- `replaycache_scrub_if_needed_internal`. -/
def replaycacheScrubIfNeeded {δ : Type} (present : ℤ) (r : Replaycache δ) : Replaycache δ :=
  if r.early present then r
  else if r.horizon = 0 then r
  else
    { r with
      digestsSeen := r.digestsSeen.filter fun e => ¬e.2 < present - r.horizon
      scrubbed := if r.scrubbed < present then present else r.scrubbed }

inductive ReplayCall where
  | addAndTest (present : ℤ) (data : List UInt8)
  | scrubIfNeeded (present : ℤ)
  deriving DecidableEq, Repr

def ReplayCall.present : ReplayCall → ℤ
  | .addAndTest present _ => present
  | .scrubIfNeeded present => present

section Digests

variable {δ : Type} [DecidableEq δ] (sha256 : List UInt8 → δ)

/-- The cache with the access time of the digest updated, before the scrub. -/
def replaycacheTouch (present : ℤ) (r : Replaycache δ) (digest : δ) : Replaycache δ :=
  match lookup Prod.fst digest r.digestsSeen with
  | some (_, accessTime) =>
    if accessTime < present then
      { r with digestsSeen := modify Prod.fst digest (fun e => (e.1, present)) r.digestsSeen }
    else r
  | none => { r with digestsSeen := (digest, present) :: r.digestsSeen }

/-- `replaycache_add_and_test_internal`: the answer, and `*elapsed` if it is written. -/
def replaycacheAddAndTest (present : ℤ) (r : Replaycache δ) (data : List UInt8) :
    Replaycache δ × Bool × Option ℤ :=
  if present ≤ 0 ∨ data.isEmpty then (r, false, none)
  else
    let digest := sha256 data
    let answer : Bool × Option ℤ :=
      match lookup Prod.fst digest r.digestsSeen with
      | some (_, accessTime) =>
        if present - r.horizon ≤ accessTime ∨ r.horizon = 0 then
          (true, some (if accessTime ≤ present then present - accessTime else 0))
        else (false, none)
      | none => (false, none)
    (replaycacheScrubIfNeeded present (replaycacheTouch present r digest), answer)

def ReplayCall.step (r : Replaycache δ) : ReplayCall → Replaycache δ
  | .addAndTest present data => (replaycacheAddAndTest sha256 present r data).1
  | .scrubIfNeeded present => replaycacheScrubIfNeeded present r

def replayRun (r : Replaycache δ) (calls : List ReplayCall) : Replaycache δ :=
  calls.foldl (ReplayCall.step sha256) r

end Digests

/-! ### What a cache remembers -/

def Given (calls : List ReplayCall) (data : List UInt8) (time : ℤ) : Prop :=
  ReplayCall.addAndTest time data ∈ calls

section Memory

variable {δ : Type} [DecidableEq δ] {sha256 : List UInt8 → δ} {horizon present : ℤ} {calls : List ReplayCall}
  {r : Replaycache δ}

/-- What the cache knows at a time, after some calls. -/
structure Remembers (sha256 : List UInt8 → δ) (horizon present : ℤ) (calls : List ReplayCall)
    (r : Replaycache δ) : Prop where
  horizon_eq : r.horizon = horizon
  keyed : Keyed Prod.fst r.digestsSeen
  /-- An entry has the time of the latest call. -/
  entry : ∀ data ≠ [], ∀ time, lookup Prod.fst (sha256 data) r.digestsSeen = some (sha256 data, time) →
    IsGreatest {t | Given calls data t} time
  /-- Data without an entry was given before the horizon, if at all. -/
  missing : ∀ data ≠ [], lookup Prod.fst (sha256 data) r.digestsSeen = none →
    ∀ time, Given calls data time → horizon ≠ 0 ∧ time < present - horizon

theorem Remembers.later {present' : ℤ} (h : Remembers sha256 horizon present calls r)
    (hle : present ≤ present') : Remembers sha256 horizon present' calls r where
  horizon_eq := h.horizon_eq
  keyed := h.keyed
  entry := h.entry
  missing data hdata hnone time hgiven := by
    have := h.missing data hdata hnone time hgiven
    omega

theorem remembers_new {interval : ℤ} (hnew : replaycacheNew δ horizon interval = some r) :
    Remembers sha256 horizon present [] r := by
  unfold replaycacheNew at hnew
  split at hnew
  · cases hnew
  cases hnew
  refine ⟨rfl, List.nodup_nil, ?_, ?_⟩
  · intro data _ time hsome
    cases hsome
  · intro data _ _ time hgiven
    cases hgiven

theorem Remembers.scrub (h : Remembers sha256 horizon present calls r) :
    Remembers sha256 horizon present calls (replaycacheScrubIfNeeded present r) := by
  by_cases hearly : r.early present = true
  · rwa [replaycacheScrubIfNeeded, if_pos hearly]
  by_cases hzero : r.horizon = 0
  · rwa [replaycacheScrubIfNeeded, if_neg hearly, if_pos hzero]
  rw [replaycacheScrubIfNeeded, if_neg hearly, if_neg hzero]
  refine ⟨h.horizon_eq, h.keyed.filter _, ?_, ?_⟩
  · intro data hdata time hsome
    rw [lookup_filter h.keyed] at hsome
    exact h.entry data hdata time (Option.eq_some_of_filter_eq_some hsome)
  · intro data hdata hnone time hgiven
    dsimp only at hnone
    rw [lookup_filter h.keyed] at hnone
    cases hlook : lookup Prod.fst (sha256 data) r.digestsSeen with
    | none => exact h.missing data hdata hlook time hgiven
    | some e =>
      obtain ⟨digest, accessTime⟩ := e
      have hkey : digest = sha256 data := key_of_lookup hlook
      subst hkey
      have hgreatest := h.entry data hdata accessTime hlook
      have hle : time ≤ accessTime := hgreatest.2 hgiven
      rw [hlook] at hnone
      have hold : accessTime + r.horizon < present := by simpa using hnone
      rw [← h.horizon_eq]
      exact ⟨hzero, by omega⟩

theorem lookup_touch_self {digest : δ}
    (hpast : ∀ time, lookup Prod.fst digest r.digestsSeen = some (digest, time) → time ≤ present) :
    lookup Prod.fst digest (replaycacheTouch present r digest).digestsSeen = some (digest, present) := by
  unfold replaycacheTouch
  cases hlook : lookup Prod.fst digest r.digestsSeen with
  | none =>
    dsimp only
    rw [lookup_cons, if_pos rfl]
  | some e =>
    obtain ⟨key, time⟩ := e
    have hkey : key = digest := key_of_lookup hlook
    subst hkey
    have hle := hpast time hlook
    dsimp only
    split_ifs with hlt
    · dsimp only
      rw [lookup_modify (g := fun e => (e.1, present)) fun _ => rfl, hlook, if_pos rfl]
      rfl
    · rw [hlook]
      congr
      omega

theorem lookup_touch_ne {digest other : δ} (hne : other ≠ digest) :
    lookup Prod.fst other (replaycacheTouch present r digest).digestsSeen =
      lookup Prod.fst other r.digestsSeen := by
  unfold replaycacheTouch
  split
  · split_ifs
    · dsimp only
      rw [lookup_modify (g := fun e => (e.1, present)) fun _ => rfl, if_neg hne]
    · rfl
  · dsimp only
    rw [lookup_cons, if_neg (Ne.symm hne)]

theorem keyed_touch {digest : δ} (h : Keyed Prod.fst r.digestsSeen) :
    Keyed Prod.fst (replaycacheTouch present r digest).digestsSeen := by
  unfold replaycacheTouch
  split
  · split_ifs
    · exact h.modify fun _ => rfl
    · exact h
  · next hnone => exact h.cons hnone

@[simp] theorem horizon_touch {digest : δ} : (replaycacheTouch present r digest).horizon = r.horizon := by
  unfold replaycacheTouch
  split
  · split_ifs <;> rfl
  · rfl

@[simp] theorem early_touch {digest : δ} {time : ℤ} :
    (replaycacheTouch present r digest).early time = r.early time := by
  unfold replaycacheTouch
  split
  · split_ifs <;> rfl
  · rfl

theorem given_append {data data' : List UInt8} {time : ℤ} :
    Given (calls ++ [.addAndTest present data]) data' time ↔
      Given calls data' time ∨ (time = present ∧ data' = data) := by
  simp [Given]

theorem Remembers.touch {data : List UInt8} (h : Remembers sha256 horizon present calls r)
    (hsha : Function.Injective sha256) (hdata : data ≠ []) (hpast : ∀ c ∈ calls, c.present ≤ present) :
    Remembers sha256 horizon present (calls ++ [.addAndTest present data])
      (replaycacheTouch present r (sha256 data)) := by
  have hself : lookup Prod.fst (sha256 data) (replaycacheTouch present r (sha256 data)).digestsSeen =
      some (sha256 data, present) := by
    apply lookup_touch_self
    intro time hlook
    exact hpast _ (h.entry data hdata time hlook).1
  refine ⟨by rw [horizon_touch, h.horizon_eq], keyed_touch h.keyed, ?_, ?_⟩
  · intro data' hdata' time hlook
    by_cases heq : data' = data
    · subst heq
      rw [hself] at hlook
      obtain rfl : present = time := by simpa using hlook
      refine ⟨given_append.mpr (Or.inr ⟨rfl, rfl⟩), ?_⟩
      intro t ht
      rcases given_append.mp ht with ht | ⟨rfl, -⟩
      · exact hpast _ ht
      · exact le_refl _
    · rw [lookup_touch_ne (hsha.ne heq)] at hlook
      have hgreatest := h.entry data' hdata' time hlook
      refine ⟨given_append.mpr (Or.inl hgreatest.1), ?_⟩
      intro t ht
      exact hgreatest.2 ((given_append.mp ht).resolve_right fun hand => heq hand.2)
  · intro data' hdata' hnone time hgiven
    have heq : data' ≠ data := by
      rintro rfl
      rw [hself] at hnone
      cases hnone
    rw [lookup_touch_ne (hsha.ne heq)] at hnone
    exact h.missing data' hdata' hnone time
      ((given_append.mp hgiven).resolve_right fun hand => heq hand.2)

theorem Remembers.skip {c : ReplayCall} (h : Remembers sha256 horizon present calls r)
    (hc : ∀ data ≠ [], ∀ time, c ≠ .addAndTest time data) :
    Remembers sha256 horizon present (calls ++ [c]) r := by
  have hgiven : ∀ data ≠ [], ∀ time, Given (calls ++ [c]) data time ↔ Given calls data time := by
    intro data hdata time
    simp [Given, (hc data hdata time).symm]
  refine ⟨h.horizon_eq, h.keyed, ?_, ?_⟩
  · intro data hdata time hlook
    simpa only [hgiven data hdata] using h.entry data hdata time hlook
  · intro data hdata hnone time htime
    exact h.missing data hdata hnone time ((hgiven data hdata time).mp htime)

theorem Remembers.step {c : ReplayCall} (h : Remembers sha256 horizon c.present calls r)
    (hsha : Function.Injective sha256) (hpos : 0 < c.present) (hpast : ∀ c' ∈ calls, c'.present ≤ c.present) :
    Remembers sha256 horizon c.present (calls ++ [c]) (c.step sha256 r) := by
  cases c with
  | addAndTest time data =>
    by_cases hdata : data = []
    · have hsame : ReplayCall.step sha256 r (.addAndTest time data) = r := by
        simp [ReplayCall.step, replaycacheAddAndTest, hdata]
      rw [hsame]
      apply h.skip
      rintro data' hdata' time' heq
      cases heq
      exact hdata' hdata
    · have hstep : ReplayCall.step sha256 r (.addAndTest time data) =
          replaycacheScrubIfNeeded time (replaycacheTouch time r (sha256 data)) := by
        have hguard : ¬(time ≤ 0 ∨ data.isEmpty = true) := by
          have htime : 0 < time := hpos
          simp only [List.isEmpty_iff, hdata, or_false]
          omega
        rw [ReplayCall.step, replaycacheAddAndTest, if_neg hguard]
      rw [hstep]
      exact (h.touch hsha hdata hpast).scrub
  | scrubIfNeeded time =>
    have hscrub : Remembers sha256 horizon time calls (replaycacheScrubIfNeeded time r) := h.scrub
    exact hscrub.skip fun data _ time' heq => by cases heq

/-- **A cache remembers**, after every run of calls whose times do not decrease. -/
theorem remembers_run {r₀ : Replaycache δ} (hsha : Function.Injective sha256) (last : ℤ)
    (h : ∀ time, Remembers sha256 horizon time [] r₀) (hpos : ∀ c ∈ calls, 0 < c.present)
    (hmono : calls.Pairwise fun c c' => c.present ≤ c'.present) (hlast : ∀ c ∈ calls, c.present ≤ last) :
    Remembers sha256 horizon last calls (replayRun sha256 r₀ calls) := by
  induction calls using List.reverseRecOn generalizing last with
  | nil => exact h last
  | append_singleton calls c ih =>
    obtain ⟨hcalls, -, hpast⟩ := List.pairwise_append.mp hmono
    have hc : c ∈ calls ++ [c] := by simp
    have hbefore : ∀ c' ∈ calls, c'.present ≤ c.present := fun c' hc' => hpast c' hc' c (by simp)
    have hrest := ih c.present (fun c' hc' => hpos c' (by simp [hc'])) hcalls hbefore
    rw [replayRun, List.foldl_append]
    exact (hrest.step hsha (hpos c hc) hbefore).later (hlast c hc)

end Memory

/-! ### The answers -/

section Answers

variable {δ : Type} [DecidableEq δ]

/-- What the code promises of a call, after some others. -/
structure CallCorrect (sha256 : List UInt8 → δ) (horizon : ℤ) (calls : List ReplayCall) (r : Replaycache δ)
    (c : ReplayCall) : Prop where
  /-- Data is found if it was given before, within the horizon. -/
  found : ∀ time, ∀ data ≠ [], c = .addAndTest time data →
    ((replaycacheAddAndTest sha256 time r data).2.1 = true ↔
      ∃ t, Given calls data t ∧ (time - horizon ≤ t ∨ horizon = 0))
  /-- The time since it was given last. -/
  elapsed : ∀ time, ∀ data ≠ [], c = .addAndTest time data →
    (replaycacheAddAndTest sha256 time r data).2.1 = true →
      ∃ t, IsGreatest {t | Given calls data t} t ∧
        (replaycacheAddAndTest sha256 time r data).2.2 = some (time - t)
  /-- After a scrub there are no entries from before the horizon. -/
  scrubbed : 0 < horizon → r.early c.present = false → (∀ time, c ≠ .addAndTest time []) →
    ∀ e ∈ (c.step sha256 r).digestsSeen, c.present - horizon ≤ e.2

omit [DecidableEq δ] in
theorem le_of_mem_scrub {r : Replaycache δ} {present : ℤ} (hhorizon : 0 < r.horizon)
    (hearly : r.early present = false) {e : δ × ℤ}
    (he : e ∈ (replaycacheScrubIfNeeded present r).digestsSeen) : present - r.horizon ≤ e.2 := by
  rw [replaycacheScrubIfNeeded, if_neg (by simp [hearly]), if_neg hhorizon.ne'] at he
  have hkept := (List.mem_filter.mp he).2
  simpa using hkept

/-- **Replays are found within the horizon**, whatever calls and scrubs came before. -/
theorem replaycacheAddAndTest_correct (sha256 : List UInt8 → δ) (hsha : Function.Injective sha256)
    (horizon interval : ℤ) (r₀ : Replaycache δ) (hnew : replaycacheNew δ horizon interval = some r₀)
    (calls : List ReplayCall) (c : ReplayCall) (hpos : ∀ c' ∈ calls ++ [c], 0 < c'.present)
    (hmono : (calls ++ [c]).Pairwise fun c' c'' => c'.present ≤ c''.present) :
    CallCorrect sha256 horizon calls (replayRun sha256 r₀ calls) c := by
  obtain ⟨hcalls, -, hpast⟩ := List.pairwise_append.mp hmono
  have hbefore : ∀ c' ∈ calls, c'.present ≤ c.present := fun c' hc' => hpast c' hc' c (by simp)
  have hmem : Remembers sha256 horizon c.present calls (replayRun sha256 r₀ calls) :=
    remembers_run hsha c.present (fun _ => remembers_new hnew) (fun c' hc' => hpos c' (by simp [hc'])) hcalls
      hbefore
  have hcpos : 0 < c.present := hpos c (by simp)
  generalize replayRun sha256 r₀ calls = r at hmem
  have hguard : ∀ time, ∀ data ≠ [], c = .addAndTest time data → ¬(time ≤ 0 ∨ data.isEmpty = true) := by
    rintro time data hdata rfl
    have htime : 0 < time := hcpos
    simp only [List.isEmpty_iff, hdata, or_false]
    omega
  constructor
  · intro time data hdata hc
    rw [replaycacheAddAndTest, if_neg (hguard time data hdata hc)]
    dsimp only
    subst hc
    cases hlook : lookup Prod.fst (sha256 data) r.digestsSeen with
    | none =>
      have hmissing := hmem.missing data hdata hlook
      simp only [Bool.false_eq_true, false_iff]
      rintro ⟨t, ht, hor⟩
      obtain ⟨hzero, hold⟩ := hmissing t ht
      have hold' : t < time - horizon := hold
      omega
    | some e =>
      obtain ⟨digest, last⟩ := e
      obtain rfl : digest = sha256 data := key_of_lookup hlook
      obtain ⟨hgiven, hgreatest⟩ := hmem.entry data hdata last hlook
      dsimp only
      rw [hmem.horizon_eq]
      by_cases hhit : time - horizon ≤ last ∨ horizon = 0
      · rw [if_pos hhit]
        simp only [true_iff]
        exact ⟨last, hgiven, hhit⟩
      · rw [if_neg hhit]
        simp only [Bool.false_eq_true, false_iff]
        rintro ⟨t, ht, hor⟩
        have hle : t ≤ last := hgreatest ht
        omega
  · intro time data hdata hc hfound
    rw [replaycacheAddAndTest, if_neg (hguard time data hdata hc)] at hfound ⊢
    dsimp only at hfound ⊢
    subst hc
    cases hlook : lookup Prod.fst (sha256 data) r.digestsSeen with
    | none =>
      rw [hlook] at hfound
      cases hfound
    | some e =>
      obtain ⟨digest, last⟩ := e
      obtain rfl : digest = sha256 data := key_of_lookup hlook
      have hlast := hmem.entry data hdata last hlook
      rw [hlook] at hfound
      dsimp only at hfound ⊢
      split_ifs at hfound ⊢ with hhit hle
      · exact ⟨last, hlast, rfl⟩
      · exact absurd (hbefore _ hlast.1) hle
  · intro hhorizon hearly hdata e he
    rw [← hmem.horizon_eq] at hhorizon ⊢
    cases c with
    | addAndTest time data =>
      have hne : data ≠ [] := fun heq => hdata time (by rw [heq])
      rw [ReplayCall.step, replaycacheAddAndTest, if_neg (hguard time data hne rfl)] at he
      have hkept := le_of_mem_scrub (by rwa [horizon_touch]) (by rwa [early_touch]) he
      rwa [horizon_touch] at hkept
    | scrubIfNeeded time => exact le_of_mem_scrub hhorizon hearly he

/-- The letter `a` has its digest; no other data has one that begins in this way. -/
def digestOfA (data : List UInt8) : List UInt8 :=
  if data = [0x61] then
    [0xca, 0x97, 0x81, 0x12, 0xca, 0x1b, 0xbd, 0xca, 0xfa, 0xc2, 0x31, 0xb3, 0x9a, 0x23, 0xdc, 0x4d, 0xa7,
     0x86, 0xef, 0xf8, 0x14, 0x7c, 0x4e, 0x72, 0xb9, 0x80, 0x77, 0x85, 0xaf, 0xee, 0x48, 0xbb]
  else 0 :: data

theorem digestOfA_injective : Function.Injective digestOfA := by
  intro d d' h
  unfold digestOfA at h
  split_ifs at h with hd hd'
  · rw [hd, hd']
  · cases h
  · cases h
  · exact (List.cons.inj h).2

/-- The letter `a` is given at 100 and at 105, with a horizon of 10. -/
theorem replaycacheAddAndTest_correct_two :
    CallCorrect digestOfA 10 [.addAndTest 100 [0x61]]
      (replayRun digestOfA ⟨0, 0, 10, []⟩ [.addAndTest 100 [0x61]]) (.addAndTest 105 [0x61]) :=
  replaycacheAddAndTest_correct digestOfA digestOfA_injective 10 (-5) ⟨0, 0, 10, []⟩ rfl
    [.addAndTest 100 [0x61]] (.addAndTest 105 [0x61]) (by decide) (by decide)

end Answers

end TorEbpf.Hs
