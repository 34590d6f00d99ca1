import Mathlib.Tactic.Common
import Mathlib.Tactic.Linarith
import TorEbpf.Lib.Saturation

/-!
# Token buckets

`token_bucket.c` keeps the level of a bucket in an `int32_t`, the rate in a `uint32_t`, and measures the
room above the level in a `size_t`; the level may be negative.

* `tokenBucketRawRefillSteps_fst` — on every level an `int32_t` can hold, up to the burst, a refill is the
  refill of an ideal bucket of unbounded integers;
* `codeRun_eq_idealRun` — so are all the levels and answers of a run, as long as the ideal level stays in
  the range of `int32_t`;
* `rwRefill_twice_iff` — when two refills of a read-write bucket do what one does: whole steps are counted
  from the previous refill, so that the fractions of two refills must not make another step.
-/

namespace TorEbpf.Evloop

open TorEbpf.Lib

/-! ### Raw buckets -/

/-- The bounds of `int32_t`. -/
def int32Min : ℤ := -2 ^ 31

/-- `TOKEN_BUCKET_MAX_BURST`, which is `INT32_MAX`. -/
def tokenBucketMaxBurst : ℤ := 2 ^ 31 - 1

/-- The least value of `ssize_t`. -/
def ssizeMin : ℤ := -2 ^ 63

/-- The conversion of an integer to `int32_t`. -/
def toInt32 (x : ℤ) : ℤ := x.bmod (2 ^ 32)

theorem toInt32_of_mem {x : ℤ} (hlow : int32Min ≤ x) (hhigh : x ≤ tokenBucketMaxBurst) : toInt32 x = x := by
  unfold int32Min at hlow
  unfold tokenBucketMaxBurst at hhigh
  unfold toInt32
  rw [Int.bmod_def]
  omega

/-- `token_bucket_cfg_t`: the tokens added in each unit of time, and the most the bucket holds. -/
structure TokenBucketCfg where
  rate : ℕ
  burst : ℤ
  deriving DecidableEq, Repr

/-- A configuration as `token_bucket_cfg_init` makes it from a positive rate and burst. -/
structure Config extends TokenBucketCfg where
  rate_pos : 0 < rate
  rate_lt : rate < 2 ^ 32
  burst_pos : 0 < burst
  burst_le : burst ≤ tokenBucketMaxBurst

def tokenBucketCfgInit (rate burst : ℕ) : TokenBucketCfg :=
  if (burst : ℤ) > tokenBucketMaxBurst then ⟨rate, tokenBucketMaxBurst⟩ else ⟨rate, burst⟩

/-- What `token_bucket_cfg_init` makes of arguments that pass its assertions. -/
def Config.init (rate burst : ℕ) (hrate : 0 < rate) (hrate' : rate < 2 ^ 32) (hburst : 0 < burst) : Config where
  toTokenBucketCfg := tokenBucketCfgInit rate burst
  rate_pos := by unfold tokenBucketCfgInit; split <;> exact hrate
  rate_lt := by unfold tokenBucketCfgInit; split <;> exact hrate'
  burst_pos := by
    unfold tokenBucketCfgInit
    split
    · show (0 : ℤ) < tokenBucketMaxBurst
      decide
    · exact Int.natCast_pos.mpr hburst
  burst_le := by
    unfold tokenBucketCfgInit
    split
    · exact le_rfl
    · exact not_lt.mp ‹_›

def tokenBucketRawReset (cfg : TokenBucketCfg) : ℤ := cfg.burst

def tokenBucketRawAdjust (bucket : ℤ) (cfg : TokenBucketCfg) : ℤ := min bucket cfg.burst

/-- The difference of two numbers converted to `size_t`. -/
def sizeTSub (x y : ℤ) : ℕ := ((x % 2 ^ 64 - y % 2 ^ 64) % 2 ^ 64).toNat

/-- `token_bucket_raw_refill_steps`: the level, and whether the bucket was empty and no longer is. -/
def tokenBucketRawRefillSteps (bucket : ℤ) (cfg : TokenBucketCfg) (elapsed : ℕ) : ℤ × Bool :=
  let wasEmpty := decide (bucket ≤ 0)
  let gap := sizeTSub cfg.burst bucket
  let bucket' :=
    if elapsed > gap / cfg.rate then cfg.burst
    -- the sum of an `int32_t` and a `uint32_t` is a `uint32_t`
    else toInt32 ((bucket % 2 ^ 32 + (cfg.rate * elapsed % 2 ^ 32 : ℕ)) % 2 ^ 32)
  (bucket', wasEmpty && decide (bucket' > 0))

/-- `token_bucket_raw_dec`: the level, and whether the bucket was not empty and now is.  There is no
result if the difference is not an `ssize_t`. -/
def tokenBucketRawDec (bucket n : ℤ) : Option (ℤ × Bool) :=
  if n < 0 then some (bucket, false)
  else if bucket - n < ssizeMin then none
  else some (toInt32 (bucket - n), decide (bucket > 0) && decide (n ≥ bucket))

/-- The level is an `int32_t` and not above the burst. -/
structure LevelOk (cfg : TokenBucketCfg) (bucket : ℤ) : Prop where
  min_le : int32Min ≤ bucket
  le_burst : bucket ≤ cfg.burst

theorem Config.levelOk_burst (cfg : Config) : LevelOk cfg.toTokenBucketCfg cfg.burst :=
  ⟨le_trans (by decide) cfg.burst_pos.le, le_rfl⟩

/-- The casts to `size_t` measure the room above the level. -/
theorem sizeTSub_burst {cfg : Config} {bucket : ℤ} (h : LevelOk cfg.toTokenBucketCfg bucket) :
    (sizeTSub cfg.burst bucket : ℤ) = cfg.burst - bucket := by
  obtain ⟨hlow, hhigh⟩ := h
  have hmax := cfg.burst_le
  unfold int32Min at hlow
  unfold tokenBucketMaxBurst at hmax
  unfold sizeTSub
  omega

theorem burst_sub_lt {cfg : Config} {bucket : ℤ} (h : LevelOk cfg.toTokenBucketCfg bucket) :
    cfg.burst - bucket < 2 ^ 32 := by
  have hlow := h.min_le
  have hmax := cfg.burst_le
  unfold int32Min at hlow
  unfold tokenBucketMaxBurst at hmax
  omega

/-- The division test asks whether the bucket overflows. -/
theorem gap_div_rate_lt_iff {cfg : Config} {bucket : ℤ} (h : LevelOk cfg.toTokenBucketCfg bucket)
    (elapsed : ℕ) :
    sizeTSub cfg.burst bucket / cfg.rate < elapsed ↔ cfg.burst < bucket + (cfg.rate * elapsed : ℕ) := by
  have hgap := sizeTSub_burst h
  rw [Nat.div_lt_iff_lt_mul cfg.rate_pos, Nat.mul_comm]
  omega

/-- **A refill** of the stored level is a refill of an ideal bucket. -/
theorem tokenBucketRawRefillSteps_fst {cfg : Config} {bucket : ℤ}
    (h : LevelOk cfg.toTokenBucketCfg bucket) (elapsed : ℕ) :
    (tokenBucketRawRefillSteps bucket cfg.toTokenBucketCfg elapsed).1
      = topUp cfg.burst (cfg.rate * elapsed : ℕ) bucket := by
  have htest := gap_div_rate_lt_iff h elapsed
  have hroom := burst_sub_lt h
  unfold tokenBucketRawRefillSteps
  dsimp only
  by_cases hover : sizeTSub cfg.burst bucket / cfg.rate < elapsed
  · rw [if_pos hover, topUp_eq_cap_iff.mpr (htest.mp hover).le]
  · have hfits : bucket + (cfg.rate * elapsed : ℕ) ≤ cfg.burst := not_lt.mp (mt htest.mpr hover)
    have hsmall : cfg.rate * elapsed < 2 ^ 32 := by omega
    rw [if_neg hover, topUp_of_le hfits, Nat.mod_eq_of_lt hsmall]
    have hlow := h.min_le
    have hmax := cfg.burst_le
    unfold int32Min at hlow
    unfold tokenBucketMaxBurst at hmax
    unfold toInt32
    rw [Int.bmod_def]
    omega

theorem tokenBucketRawRefillSteps_snd (bucket : ℤ) (cfg : TokenBucketCfg) (elapsed : ℕ) :
    (tokenBucketRawRefillSteps bucket cfg elapsed).2
      = decide (bucket ≤ 0 ∧ 0 < (tokenBucketRawRefillSteps bucket cfg elapsed).1) := by
  rw [Bool.decide_and]
  rfl

theorem LevelOk.topUp {cfg : Config} {bucket : ℤ} (h : LevelOk cfg.toTokenBucketCfg bucket) (gain : ℕ) :
    LevelOk cfg.toTokenBucketCfg (topUp cfg.burst gain bucket) := by
  refine ⟨le_min cfg.levelOk_burst.min_le ?_, topUp_le_cap _ _ _⟩
  exact h.min_le.trans (le_add_of_nonneg_right (Int.natCast_nonneg gain))

/-- A decrement of an ideal bucket that stays in the range of `int32_t` is the one of the code. -/
theorem tokenBucketRawDec_of_le {cfg : Config} {bucket : ℤ} (h : LevelOk cfg.toTokenBucketCfg bucket) {n : ℕ}
    (hlow : int32Min ≤ bucket - n) :
    tokenBucketRawDec bucket n = some (bucket - n, decide (0 < bucket ∧ bucket - n ≤ 0)) := by
  have hhigh : bucket - n ≤ tokenBucketMaxBurst := by
    have := h.le_burst
    have := cfg.burst_le
    omega
  have hssize : ¬ bucket - n < ssizeMin := not_lt.mpr (le_trans (by decide) hlow)
  have hempty : decide ((n : ℤ) ≥ bucket) = decide (bucket - n ≤ 0) := by
    rw [decide_eq_decide]
    omega
  unfold tokenBucketRawDec
  rw [if_neg (not_lt.mpr (Int.natCast_nonneg n)), if_neg hssize, toInt32_of_mem hlow hhigh, hempty,
    Bool.decide_and]

/-! ### Runs of a raw bucket -/

/-- An operation on a bucket.  A new configuration comes with an adjustment of the level to it. -/
inductive BucketOp where
  | reset
  | adjust (cfg : Config)
  | refillSteps (elapsed : Fin (2 ^ 32))
  | dec (n : Fin (2 ^ 63))

structure Bucket where
  cfg : Config
  level : ℤ

/-- What the code does: the next bucket and the answer (`false` where the function returns nothing). -/
def codeStep (b : Bucket) : BucketOp → Option (Bucket × Bool)
  | .reset => some (⟨b.cfg, tokenBucketRawReset b.cfg.toTokenBucketCfg⟩, false)
  | .adjust cfg => some (⟨cfg, tokenBucketRawAdjust b.level cfg.toTokenBucketCfg⟩, false)
  | .refillSteps elapsed =>
    let r := tokenBucketRawRefillSteps b.level b.cfg.toTokenBucketCfg elapsed
    some (⟨b.cfg, r.1⟩, r.2)
  | .dec n => (tokenBucketRawDec b.level (n : ℕ)).map fun r => (⟨b.cfg, r.1⟩, r.2)

def idealLevel (b : Bucket) : BucketOp → ℤ
  | .reset => b.cfg.burst
  | .adjust cfg => min b.level cfg.burst
  | .refillSteps elapsed => min b.cfg.burst (b.level + b.cfg.rate * (elapsed : ℕ))
  | .dec n => b.level - (n : ℕ)

/-- The answers of an ideal bucket: it was empty and no longer is, or the other way round. -/
def idealAnswer (b : Bucket) (op : BucketOp) : Bool :=
  match op with
  | .refillSteps _ => decide (b.level ≤ 0 ∧ 0 < idealLevel b op)
  | .dec _ => decide (0 < b.level ∧ idealLevel b op ≤ 0)
  | _ => false

def cfgAfter (b : Bucket) : BucketOp → Config
  | .adjust cfg => cfg
  | _ => b.cfg

def idealStep (b : Bucket) (op : BucketOp) : Bucket × Bool :=
  (⟨cfgAfter b op, idealLevel b op⟩, idealAnswer b op)

def codeRun (b : Bucket) : List BucketOp → Option (List (Bucket × Bool))
  | [] => some []
  | op :: ops => (codeStep b op).bind fun r => (codeRun r.1 ops).map (r :: ·)

def idealRun (b : Bucket) : List BucketOp → List (Bucket × Bool)
  | [] => []
  | op :: ops => idealStep b op :: idealRun (idealStep b op).1 ops

/-- The level of a bucket is an `int32_t` and not above the burst. -/
def Bucket.Ok (b : Bucket) : Prop := LevelOk b.cfg.toTokenBucketCfg b.level

theorem idealStep_le_burst {b : Bucket} (h : b.Ok) (op : BucketOp) :
    (idealStep b op).1.level ≤ (idealStep b op).1.cfg.burst := by
  cases op with
  | reset => exact le_rfl
  | adjust cfg => exact min_le_right _ _
  | refillSteps elapsed => exact min_le_left _ _
  | dec n => exact (sub_le_self _ (Int.natCast_nonneg n)).trans h.le_burst

/-- **One step** of the code is a step of the ideal bucket. -/
theorem codeStep_eq_idealStep {b : Bucket} (h : b.Ok) {op : BucketOp}
    (hlow : int32Min ≤ (idealStep b op).1.level) : codeStep b op = some (idealStep b op) := by
  cases op with
  | reset => rfl
  | adjust cfg => rfl
  | refillSteps elapsed =>
    have hlevel := tokenBucketRawRefillSteps_fst h elapsed
    have hanswer := tokenBucketRawRefillSteps_snd b.level b.cfg.toTokenBucketCfg elapsed
    rw [hlevel] at hanswer
    simp only [codeStep, idealStep, hlevel, hanswer]
    unfold topUp
    push_cast
    rfl
  | dec n =>
    simp only [codeStep, tokenBucketRawDec_of_le h hlow, Option.map_some]
    rfl

/-- **Runs.**  As long as the ideal level stays in the range of `int32_t`, the stored levels and the
answers are those of the ideal bucket, and no level is above the burst. -/
theorem codeRun_eq_idealRun {b : Bucket} (h : b.Ok) {ops : List BucketOp}
    (hlow : ∀ r ∈ idealRun b ops, int32Min ≤ r.1.level) :
    codeRun b ops = some (idealRun b ops) ∧ ∀ r ∈ idealRun b ops, r.1.level ≤ r.1.cfg.burst := by
  induction ops generalizing b with
  | nil => exact ⟨rfl, by simp [idealRun]⟩
  | cons op ops ih =>
    have hhead := hlow _ List.mem_cons_self
    have hburst := idealStep_le_burst h op
    obtain ⟨hrun, hrest⟩ := ih (b := (idealStep b op).1) ⟨hhead, hburst⟩
      fun r hr => hlow r (List.mem_cons_of_mem _ hr)
    refine ⟨?_, List.forall_mem_cons.mpr ⟨hburst, hrest⟩⟩
    simp only [codeRun, codeStep_eq_idealStep h hhead, Option.bind_some, hrun, Option.map_some, idealRun]

/-- A bucket of one token: two are taken, and a long time passes. -/
theorem codeRun_eq_idealRun_negative :
    let cfg := Config.init 1 1 (by decide) (by decide) (by decide)
    let ops := [BucketOp.reset, .dec 2, .refillSteps (Fin.last _)]
    codeRun ⟨cfg, 0⟩ ops = some (idealRun ⟨cfg, 0⟩ ops) ∧
      ∀ r ∈ idealRun ⟨cfg, 0⟩ ops, r.1.level ≤ r.1.cfg.burst := by
  intro cfg ops
  exact codeRun_eq_idealRun (b := ⟨cfg, 0⟩) ⟨by decide, by decide⟩ (by decide)

/-! ### Read-write buckets -/

def ticksPerStep : ℕ := 16

def uint32Max : ℕ := 2 ^ 32 - 1

structure TokenBucketRw where
  cfg : TokenBucketCfg
  readBucket : ℤ
  writeBucket : ℤ
  lastRefilledAtTimestamp : ℕ
  deriving DecidableEq, Repr

/-- `TB_READ` and `TB_WRITE`. -/
def tbRead : ℕ := 1
def tbWrite : ℕ := 2

/-- `token_bucket_rw_refill`: the bucket and the flags returned. -/
def tokenBucketRwRefill (b : TokenBucketRw) (nowTs : ℕ) : TokenBucketRw × ℕ :=
  let elapsedTicks := (nowTs + (2 ^ 32 - b.lastRefilledAtTimestamp)) % 2 ^ 32
  if elapsedTicks > uint32Max - 300 * 1000 then (b, 0)
  else
    let elapsedSteps := elapsedTicks / ticksPerStep
    if elapsedSteps = 0 then (b, 0)
    else
      let r := tokenBucketRawRefillSteps b.readBucket b.cfg elapsedSteps
      let w := tokenBucketRawRefillSteps b.writeBucket b.cfg elapsedSteps
      (⟨b.cfg, r.1, w.1, nowTs⟩, (if r.2 then tbRead else 0) ||| (if w.2 then tbWrite else 0))

def TokenBucketRw.levels (b : TokenBucketRw) : ℤ × ℤ := (b.readBucket, b.writeBucket)

/-- A read-write bucket as the module's functions leave it, last refilled at the time `t`. -/
structure TokenBucketRw.Ok (b : TokenBucketRw) (cfg : Config) (t : ℕ) : Prop where
  cfg_eq : b.cfg = cfg.toTokenBucketCfg
  read_ok : LevelOk cfg.toTokenBucketCfg b.readBucket
  write_ok : LevelOk cfg.toTokenBucketCfg b.writeBucket
  timestamp_eq : b.lastRefilledAtTimestamp = t % 2 ^ 32

section Refill

variable {b : TokenBucketRw} {cfg : Config} {t t' : ℕ}

/-- Timestamps that have wrapped measure the time between two refills. -/
theorem elapsedTicks_eq (h : b.Ok cfg t) (hle : t ≤ t') (hspan : t' - t < 2 ^ 32 - 300000) :
    (t' % 2 ^ 32 + (2 ^ 32 - b.lastRefilledAtTimestamp)) % 2 ^ 32 = t' - t := by
  rw [h.timestamp_eq]
  omega

/-- Less than a step after the last refill nothing happens. -/
theorem tokenBucketRwRefill_of_lt (h : b.Ok cfg t) (hle : t ≤ t') (hshort : t' - t < ticksPerStep) :
    (tokenBucketRwRefill b (t' % 2 ^ 32)).1 = b := by
  unfold ticksPerStep at hshort
  have hsteps : (t' - t) / ticksPerStep = 0 := Nat.div_eq_of_lt hshort
  unfold tokenBucketRwRefill
  rw [elapsedTicks_eq h hle (by omega)]
  dsimp only
  rw [hsteps, if_pos rfl, ite_self]

/-- Otherwise both levels are topped up by the whole steps, and the timestamp is the current one. -/
theorem tokenBucketRwRefill_of_le (h : b.Ok cfg t) (hle : t ≤ t') (hspan : t' - t < 2 ^ 32 - 300000)
    (hlong : ticksPerStep ≤ t' - t) :
    (tokenBucketRwRefill b (t' % 2 ^ 32)).1 =
      ⟨cfg.toTokenBucketCfg, topUp cfg.burst (cfg.rate * ((t' - t) / ticksPerStep) : ℕ) b.readBucket,
        topUp cfg.burst (cfg.rate * ((t' - t) / ticksPerStep) : ℕ) b.writeBucket, t' % 2 ^ 32⟩ := by
  have hsteps : (t' - t) / ticksPerStep ≠ 0 := (Nat.div_pos hlong (by decide)).ne'
  have hnear : ¬ t' - t > uint32Max - 300 * 1000 := by
    unfold uint32Max
    omega
  unfold tokenBucketRwRefill
  rw [elapsedTicks_eq h hle hspan]
  dsimp only
  rw [if_neg hnear, if_neg hsteps, h.cfg_eq, tokenBucketRawRefillSteps_fst h.read_ok,
    tokenBucketRawRefillSteps_fst h.write_ok]

/-- In both cases the levels are topped up by the whole steps. -/
theorem levels_tokenBucketRwRefill (h : b.Ok cfg t) (hle : t ≤ t') (hspan : t' - t < 2 ^ 32 - 300000) :
    (tokenBucketRwRefill b (t' % 2 ^ 32)).1.levels =
      (topUp cfg.burst (cfg.rate * ((t' - t) / ticksPerStep) : ℕ) b.readBucket,
        topUp cfg.burst (cfg.rate * ((t' - t) / ticksPerStep) : ℕ) b.writeBucket) := by
  by_cases hshort : t' - t < ticksPerStep
  · rw [tokenBucketRwRefill_of_lt h hle hshort, Nat.div_eq_of_lt hshort, Nat.mul_zero, Nat.cast_zero,
      topUp_zero h.read_ok.le_burst, topUp_zero h.write_ok.le_burst]
    rfl
  · rw [tokenBucketRwRefill_of_le h hle hspan (not_lt.mp hshort)]
    rfl

/-- A refill that counts a step leaves a bucket last refilled at its time. -/
theorem tokenBucketRwRefill_ok (h : b.Ok cfg t) (hle : t ≤ t') (hspan : t' - t < 2 ^ 32 - 300000)
    (hlong : ticksPerStep ≤ t' - t) : (tokenBucketRwRefill b (t' % 2 ^ 32)).1.Ok cfg t' := by
  rw [tokenBucketRwRefill_of_le h hle hspan hlong]
  exact ⟨rfl, h.read_ok.topUp _, h.write_ok.topUp _, rfl⟩

end Refill

/-- The bucket is full after `steps` more steps, whatever it holds. -/
def Fills (cfg : Config) (steps : ℕ) (bucket : ℤ) : Prop := cfg.burst ≤ bucket + (cfg.rate * steps : ℕ)

/-- One step more shows unless the bucket is full without it. -/
theorem topUp_eq_topUp_succ_iff (cfg : Config) (steps : ℕ) (bucket : ℤ) :
    topUp cfg.burst (cfg.rate * steps : ℕ) bucket = topUp cfg.burst (cfg.rate * (steps + 1) : ℕ) bucket ↔
      Fills cfg steps bucket := by
  have hmore : ((cfg.rate * steps : ℕ) : ℤ) < (cfg.rate * (steps + 1) : ℕ) := by
    rw [Nat.mul_succ]
    have := cfg.rate_pos
    omega
  exact topUp_eq_topUp_iff hmore

/-- The whole steps of two intervals are those of both together, or one is missing. -/
theorem div_ticksPerStep_add (d d' : ℕ) :
    (d + d') / ticksPerStep = d / ticksPerStep + d' / ticksPerStep +
      if d % ticksPerStep + d' % ticksPerStep < ticksPerStep then 0 else 1 := by
  unfold ticksPerStep
  split <;> omega

/-- **Two refills** do what one does iff the first does nothing, or no step is lost between them, or both
buckets are full without it. -/
theorem rwRefill_twice_iff {b : TokenBucketRw} {cfg : Config} {t₀ t₁ t₂ : ℕ} (h : b.Ok cfg t₀) (h₁ : t₀ ≤ t₁)
    (h₂ : t₁ ≤ t₂) (hspan : t₂ - t₀ < 2 ^ 32 - 300000) :
    (tokenBucketRwRefill (tokenBucketRwRefill b (t₁ % 2 ^ 32)).1 (t₂ % 2 ^ 32)).1.levels
        = (tokenBucketRwRefill b (t₂ % 2 ^ 32)).1.levels ↔
      t₁ - t₀ < ticksPerStep ∨
        (t₁ - t₀) % ticksPerStep + (t₂ - t₁) % ticksPerStep < ticksPerStep ∨
        Fills cfg ((t₁ - t₀) / ticksPerStep + (t₂ - t₁) / ticksPerStep) b.readBucket ∧
          Fills cfg ((t₁ - t₀) / ticksPerStep + (t₂ - t₁) / ticksPerStep) b.writeBucket := by
  by_cases hshort : t₁ - t₀ < ticksPerStep
  · simp only [tokenBucketRwRefill_of_lt h h₁ hshort, hshort, true_or]
  have hlong := not_lt.mp hshort
  have hfirst := tokenBucketRwRefill_of_le h h₁ (by omega) hlong
  have hok := tokenBucketRwRefill_ok h h₁ (by omega) hlong
  have hsum : t₂ - t₀ = (t₁ - t₀) + (t₂ - t₁) := by omega
  rw [levels_tokenBucketRwRefill hok h₂ (by omega), levels_tokenBucketRwRefill h (h₁.trans h₂) hspan, hfirst]
  dsimp only
  rw [topUp_topUp _ _ _ (Int.natCast_nonneg _), topUp_topUp _ _ _ (Int.natCast_nonneg _), ← Nat.cast_add,
    ← Nat.mul_add, hsum, div_ticksPerStep_add, Prod.mk.injEq]
  by_cases hwhole : (t₁ - t₀) % ticksPerStep + (t₂ - t₁) % ticksPerStep < ticksPerStep
  · simp only [hwhole, if_true, Nat.add_zero, true_or, or_true, and_self]
  · simp only [hwhole, hshort, if_false, false_or, topUp_eq_topUp_succ_iff]

/-- One token in each step, and room for a hundred. -/
def slowCfg : Config := Config.init 1 100 (by decide) (by decide) (by decide)

def emptyRw : TokenBucketRw := ⟨slowCfg.toTokenBucketCfg, 0, 0, 0⟩

theorem emptyRw_ok : emptyRw.Ok slowCfg 0 :=
  ⟨rfl, ⟨by decide, by decide⟩, ⟨by decide, by decide⟩, rfl⟩

/-- Refills at the ticks 16 and 32 do what one refill at the tick 32 does. -/
theorem rwRefill_twice_iff_whole :
    (tokenBucketRwRefill (tokenBucketRwRefill emptyRw (16 % 2 ^ 32)).1 (32 % 2 ^ 32)).1.levels
      = (tokenBucketRwRefill emptyRw (32 % 2 ^ 32)).1.levels :=
  (rwRefill_twice_iff emptyRw_ok (by decide) (by decide) (by decide)).mpr (.inr (.inl (by decide)))

/-- Refills at the ticks 17 and 32 lose a step. -/
theorem not_rwRefill_twice_fraction :
    ¬ ∀ (b : TokenBucketRw) (cfg : Config) (t₀ t₁ t₂ : ℕ), b.Ok cfg t₀ → t₀ ≤ t₁ → t₁ ≤ t₂ →
      t₂ - t₀ < 2 ^ 32 - 300000 →
      (tokenBucketRwRefill (tokenBucketRwRefill b (t₁ % 2 ^ 32)).1 (t₂ % 2 ^ 32)).1.levels
        = (tokenBucketRwRefill b (t₂ % 2 ^ 32)).1.levels := by
  intro hall
  have h := hall emptyRw slowCfg 0 17 32 emptyRw_ok (by decide) (by decide) (by decide)
  exact absurd h (by decide)

end TorEbpf.Evloop
