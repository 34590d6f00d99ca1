import TorEbpf.Lib.Events
import TorEbpf.Or.CircpadTokens

/-!
# Padding limits

A machine counts the padding cells and the other cells that are sent while it runs, in two numbers of 16 bits
that are halved together before one of them is full; the process counts both kinds of cells as well.  Before
padding is scheduled, the share of padding is compared with a limit for the machine and with one for the
process, each of them from an allowance on.  The share is a quotient by the number of all cells.

* `counters_lt_of_run` — they stay below `UINT16_MAX`, in every run;
* `noFault_reachedPaddingLimit_iff` — when a check does not divide by zero;
* `limitsSafe_iff_of_run` — in every state of every run that is all that can go wrong with a check.
-/

namespace TorEbpf.Or.Circpad

open TorEbpf.Lib

/-! ### Counting -/

/-- The globals: `circpad_global_max_padding_percent`, `circpad_global_allowed_cells`,
`circpad_global_padding_sent` and `circpad_global_nonpadding_sent`. -/
structure Globals where
  maxPaddingPercent : UInt8
  allowedCells : UInt16
  paddingSent : UInt64
  nonpaddingSent : UInt64
  deriving DecidableEq, Repr

/-- The two counters after one of them has been increased, which is the last argument. -/
def halveAtMax (mi : Runtime) (counter : UInt16) : Runtime :=
  if counter = 65535 then
    { mi with paddingSent := mi.paddingSent / 2, nonpaddingSent := mi.nonpaddingSent / 2 }
  else mi

/-- `circpad_machine_count_padding_sent`, for the machine. -/
def machineCountPaddingSent (mi : Runtime) : Runtime :=
  let mi :=
    if mi.stateLength ≠ stateLengthInfinite ∧ mi.stateLength ≠ 0 then
      { mi with stateLength := mi.stateLength - 1 }
    else mi
  let mi := { mi with paddingSent := mi.paddingSent + 1 }
  let mi := halveAtMax mi mi.paddingSent
  -- `circpad_is_token_removal_supported`
  if mi.histogram.isSome ∧ mi.chosenBin < mi.histogramLen ∧ mi.tokensAt mi.chosenBin ≠ 0 then
    mi.takeToken mi.chosenBin
  else mi

def machineUpdateStateLengthForNonpadding (machine : MachineSpec) (mi : Runtime) : Runtime :=
  if mi.stateLength = stateLengthInfinite then mi
  else
    match machineCurrentState machine mi with
    | none => mi
    | some state =>
        if state.lengthIncludesNonpadding ∧ 0 < mi.stateLength then
          { mi with stateLength := mi.stateLength - 1 }
        else mi

def machineCountNonpaddingSent (machine : MachineSpec) (currentTime : UInt64) (mi : Runtime) : Runtime :=
  let mi := { mi with nonpaddingSent := mi.nonpaddingSent + 1 }
  let mi := halveAtMax mi mi.nonpaddingSent
  let mi := machineUpdateStateLengthForNonpadding machine mi
  machineRemoveToken machine currentTime mi

/-! ### Checking -/

def divide (n d : ℕ) : Outcome ℕ := if d = 0 then fault .divideByZero else pure (n / d)

/-- The check of `circpad_machine_reached_padding_limit` for the machine. -/
def reachedMachineLimit (machine : MachineSpec) (mi : Runtime) : Outcome Bool :=
  if machine.maxPaddingPercent ≠ 0 ∧ machine.allowedPaddingCount ≤ mi.paddingSent then do
    let percent ← divide (100 * mi.paddingSent.toNat) (mi.paddingSent.toNat + mi.nonpaddingSent.toNat)
    return machine.maxPaddingPercent.toNat < percent
  else pure false

/-- The check for the process; the numbers are 64-bit ones. -/
def reachedGlobalLimit (globals : Globals) : Outcome Bool :=
  if globals.maxPaddingPercent ≠ 0 ∧ globals.allowedCells.toUInt64 ≤ globals.paddingSent then do
    let percent ← divide (100 * globals.paddingSent).toNat
      (globals.paddingSent + globals.nonpaddingSent).toNat
    return globals.maxPaddingPercent.toNat < percent
  else pure false

def machineReachedPaddingLimit (machine : MachineSpec) (mi : Runtime) (globals : Globals) :
    Outcome Bool := do
  if ← reachedMachineLimit machine mi then return true
  else if ← reachedGlobalLimit globals then return true
  else return false

/-- Nothing has been counted for the machine, and it has no allowance. -/
def NoMachineCells (machine : MachineSpec) (mi : Runtime) : Prop :=
  machine.maxPaddingPercent ≠ 0 ∧ machine.allowedPaddingCount = 0 ∧ mi.paddingSent = 0 ∧
    mi.nonpaddingSent = 0

/-- The sum of what has been counted for the process is zero, as a 64-bit number, and the allowance is used
up. -/
def NoGlobalCells (globals : Globals) : Prop :=
  globals.maxPaddingPercent ≠ 0 ∧ globals.allowedCells.toUInt64 ≤ globals.paddingSent ∧
    globals.paddingSent + globals.nonpaddingSent = 0

def ExceedsShare (machine : MachineSpec) (mi : Runtime) : Prop :=
  machine.maxPaddingPercent ≠ 0 ∧ machine.allowedPaddingCount ≤ mi.paddingSent ∧
    machine.maxPaddingPercent.toNat
      < 100 * mi.paddingSent.toNat / (mi.paddingSent.toNat + mi.nonpaddingSent.toNat)

instance (machine : MachineSpec) (mi : Runtime) : Decidable (ExceedsShare machine mi) :=
  inferInstanceAs (Decidable (_ ∧ _ ∧ _))

/-- What the code expects of a check. -/
def CanCheck (machine : MachineSpec) (mi : Runtime) (globals : Globals) : Prop :=
  ¬NoMachineCells machine mi ∧ (ExceedsShare machine mi ∨ ¬NoGlobalCells globals)

/-! ### Runs -/

/-- What happens in a process; the machines of all circuits have an index of their own. -/
inductive LimitEvent (ι : Type) where
  | setup (i : ι) (machine : MachineSpec)
  | free (i : ι)
  | paddingSent (i : ι)
  | cellNonpaddingSent
  | nonpaddingSent (i : ι) (currentTime : UInt64)
  | consensus (maxPaddingPercent : UInt8) (allowedCells : UInt16)
  | check (i : ι)
  /-- a transition, or any other function that does not count cells -/
  | internal (i : ι) (mi : Runtime)

/-- The machines that run, and the globals. -/
structure Process (ι : Type) where
  machines : ι → Option (MachineSpec × Runtime)
  globals : Globals

section Runs

variable {ι : Type} [DecidableEq ι]

def Process.update (p : Process ι) (i : ι) (m : Option (MachineSpec × Runtime)) : Process ι :=
  { p with machines := Function.update p.machines i m }

/-- The steps of a process; a check that divides by zero ends the run. -/
inductive LimitStep : Process ι → LimitEvent ι → Process ι → Prop where
  | setup (p : Process ι) (i : ι) (machine : MachineSpec) :
      LimitStep p (.setup i machine) (p.update i (some (machine, machineinfoNew)))
  | free (p : Process ι) (i : ι) : LimitStep p (.free i) (p.update i none)
  | paddingSent (p : Process ι) (i : ι) (machine : MachineSpec) (mi : Runtime)
      (hi : p.machines i = some (machine, mi)) :
      LimitStep p (.paddingSent i)
        { p.update i (some (machine, machineCountPaddingSent mi)) with
          globals := { p.globals with paddingSent := p.globals.paddingSent + 1 } }
  | cellNonpaddingSent (p : Process ι) :
      LimitStep p .cellNonpaddingSent
        { p with globals := { p.globals with nonpaddingSent := p.globals.nonpaddingSent + 1 } }
  | nonpaddingSent (p : Process ι) (i : ι) (currentTime : UInt64) (machine : MachineSpec) (mi : Runtime)
      (hi : p.machines i = some (machine, mi)) :
      LimitStep p (.nonpaddingSent i currentTime)
        (p.update i (some (machine, machineCountNonpaddingSent machine currentTime mi)))
  | consensus (p : Process ι) (maxPaddingPercent : UInt8) (allowedCells : UInt16) :
      LimitStep p (.consensus maxPaddingPercent allowedCells)
        { p with globals := { p.globals with
          maxPaddingPercent := maxPaddingPercent, allowedCells := allowedCells } }
  | check (p : Process ι) (i : ι) (machine : MachineSpec) (mi : Runtime) (reached : Bool)
      (hi : p.machines i = some (machine, mi))
      (hcheck : machineReachedPaddingLimit machine mi p.globals = .ok reached) : LimitStep p (.check i) p
  | internal (p : Process ι) (i : ι) (machine : MachineSpec) (mi mi' : Runtime)
      (hi : p.machines i = some (machine, mi)) (hpadding : mi'.paddingSent = mi.paddingSent)
      (hnonpadding : mi'.nonpaddingSent = mi.nonpaddingSent) :
      LimitStep p (.internal i mi') (p.update i (some (machine, mi')))

/-- A process at its start: no machines, and nothing has been counted. -/
def Process.start (maxPaddingPercent : UInt8) (allowedCells : UInt16) : Process ι where
  machines _ := none
  globals := ⟨maxPaddingPercent, allowedCells, 0, 0⟩

/-- The counters are below `UINT16_MAX`. -/
def CountersLt (mi : Runtime) : Prop := mi.paddingSent < 65535 ∧ mi.nonpaddingSent < 65535

/-- A safe check, in a state where the counters are not full: it does not divide by zero, and if it reports
that no limit is reached, then the padding is within the share of the machine. -/
def LimitsSafe (machine : MachineSpec) (mi : Runtime) (globals : Globals) : Prop :=
  NoFault (machineReachedPaddingLimit machine mi globals) ∧ CountersLt mi ∧
    (machineReachedPaddingLimit machine mi globals = .ok false → machine.maxPaddingPercent ≠ 0 →
      machine.allowedPaddingCount ≤ mi.paddingSent →
      100 * mi.paddingSent.toNat / (mi.paddingSent.toNat + mi.nonpaddingSent.toNat)
        ≤ machine.maxPaddingPercent.toNat)

end Runs

/-! ### The counters -/

section Counters

variable {machine : MachineSpec} {mi mi' : Runtime} {globals : Globals} {currentTime : UInt64}

theorem halve_lt (n : UInt16) : n / 2 < 65535 := by
  have hdiv : (n / 2).toNat = n.toNat / 2 := UInt16.toNat_div n 2
  have hsize := UInt16.toNat_lt n
  rw [UInt16.lt_iff_toNat_lt, hdiv]
  exact Nat.lt_of_lt_of_le (Nat.div_lt_of_lt_mul (by omega)) (Nat.le_refl 65535)

theorem lt_max_of_ne {n : UInt16} (hmax : n ≠ 65535) : n < 65535 := by
  have hsize := UInt16.toNat_lt n
  have hne : n.toNat ≠ 65535 := fun heq => hmax (UInt16.toNat_inj.mp heq)
  rw [UInt16.lt_iff_toNat_lt]
  exact Nat.lt_of_le_of_ne (Nat.le_of_lt_succ hsize) hne

/-- After the halving both counters are below `UINT16_MAX` if the one that has not been increased was. -/
theorem countersLt_halveAtMax (counter : UInt16)
    (h : counter ≠ 65535 → CountersLt mi) : CountersLt (halveAtMax mi counter) := by
  unfold halveAtMax
  split_ifs with hmax
  · exact ⟨halve_lt _, halve_lt _⟩
  · exact h hmax

theorem CountersLt.congr (h : CountersLt mi) (hpadding : mi'.paddingSent = mi.paddingSent)
    (hnonpadding : mi'.nonpaddingSent = mi.nonpaddingSent) : CountersLt mi' := by
  rw [CountersLt, hpadding, hnonpadding]
  exact h

/-- **Counting** a padding cell. -/
theorem CountersLt.countPaddingSent (h : CountersLt mi) : CountersLt (machineCountPaddingSent mi) := by
  unfold machineCountPaddingSent
  dsimp only
  have hcount : ∀ mi' : Runtime, mi'.nonpaddingSent = mi.nonpaddingSent →
      CountersLt (halveAtMax { mi' with paddingSent := mi'.paddingSent + 1 } (mi'.paddingSent + 1)) := by
    intro mi' hmi'
    refine countersLt_halveAtMax _ fun hmax => ⟨lt_max_of_ne hmax, ?_⟩
    rw [hmi']
    exact h.2
  have hlength := hcount (if mi.stateLength ≠ stateLengthInfinite ∧ mi.stateLength ≠ 0 then
    { mi with stateLength := mi.stateLength - 1 } else mi) (by split_ifs <;> rfl)
  split_ifs at hlength ⊢
  · exact hlength.congr rfl rfl
  · exact hlength
  · exact hlength.congr rfl rfl
  · exact hlength

theorem updateStateLength_counters :
    (machineUpdateStateLengthForNonpadding machine mi).paddingSent = mi.paddingSent ∧
      (machineUpdateStateLengthForNonpadding machine mi).nonpaddingSent = mi.nonpaddingSent := by
  unfold machineUpdateStateLengthForNonpadding
  split_ifs
  · exact ⟨rfl, rfl⟩
  · cases machineCurrentState machine mi with
    | none => exact ⟨rfl, rfl⟩
    | some state =>
      dsimp only
      split_ifs
      · exact ⟨rfl, rfl⟩
      · exact ⟨rfl, rfl⟩

theorem removeToken_counters :
    (machineRemoveToken machine currentTime mi).paddingSent = mi.paddingSent ∧
      (machineRemoveToken machine currentTime mi).nonpaddingSent = mi.nonpaddingSent := by
  unfold machineRemoveToken
  split_ifs
  · exact ⟨rfl, rfl⟩
  · cases machineCurrentState machine mi with
    | none => exact ⟨rfl, rfl⟩
    | some state =>
      dsimp only
      split_ifs
      · exact ⟨rfl, rfl⟩
      all_goals
        rename_i hremoval _
        rcases performRemoval_eq_or state.tokenRemoval machine
          { mi with paddingScheduledAtUsec := 0, isPaddingTimerScheduled := false } _ with heq | ⟨b, heq⟩
        · rw [heq]
          exact ⟨rfl, rfl⟩
        · rw [heq]
          exact ⟨rfl, rfl⟩

/-- **Counting** another cell. -/
theorem CountersLt.countNonpaddingSent (h : CountersLt mi) :
    CountersLt (machineCountNonpaddingSent machine currentTime mi) := by
  have hcount : CountersLt (halveAtMax { mi with nonpaddingSent := mi.nonpaddingSent + 1 }
      (mi.nonpaddingSent + 1)) :=
    countersLt_halveAtMax _ fun hmax => ⟨h.1, lt_max_of_ne hmax⟩
  have hlength := hcount.congr (@updateStateLength_counters machine _).1 updateStateLength_counters.2
  exact hlength.congr removeToken_counters.1 removeToken_counters.2

end Counters

/-! ### The check -/

section Check

variable {machine : MachineSpec} {mi : Runtime} {globals : Globals}

theorem noFault_divide_iff {n d : ℕ} : NoFault (divide n d) ↔ d ≠ 0 := by
  unfold divide
  split_ifs with hd
  · exact iff_of_false (not_noFault_fault _) (not_not.mpr hd)
  · exact iff_of_true (noFault_pure _) hd

theorem divide_eq_ok_iff {n d q : ℕ} : divide n d = .ok q ↔ d ≠ 0 ∧ q = n / d := by
  unfold divide
  split_ifs with hd
  · exact iff_of_false nofun fun h => h.1 hd
  · constructor
    · intro h
      cases h
      exact ⟨hd, rfl⟩
    · rintro ⟨_, rfl⟩
      rfl

theorem toNat_eq_zero {n : UInt16} (h : n.toNat = 0) : n = 0 := UInt16.toNat_inj.mp h

theorem noFault_reachedMachineLimit_iff :
    NoFault (reachedMachineLimit machine mi) ↔ ¬NoMachineCells machine mi := by
  unfold reachedMachineLimit
  split_ifs with hcheck
  · rw [noFault_bind, noFault_divide_iff]
    simp only [noFault_pure, implies_true, and_true]
    constructor
    · intro hd hno
      obtain ⟨_, _, hp, hn⟩ := hno
      apply hd
      rw [hp, hn]
      rfl
    · intro hnot hd
      have hp := toNat_eq_zero (Nat.eq_zero_of_add_eq_zero_right hd)
      have hn := toNat_eq_zero (Nat.eq_zero_of_add_eq_zero_left hd)
      have hallowed := hcheck.2
      rw [hp] at hallowed
      exact hnot ⟨hcheck.1, UInt16.le_zero_iff.mp hallowed, hp, hn⟩
  · refine iff_of_true (noFault_pure _) ?_
    intro hno
    obtain ⟨hpct, hallowed, _, _⟩ := hno
    apply hcheck
    rw [hallowed]
    exact ⟨hpct, UInt16.zero_le⟩

theorem reachedMachineLimit_eq (h : ¬NoMachineCells machine mi) :
    reachedMachineLimit machine mi = .ok (decide (ExceedsShare machine mi)) := by
  have hno := noFault_reachedMachineLimit_iff.mpr h
  unfold reachedMachineLimit at hno ⊢
  split_ifs at hno ⊢ with hcheck
  · have hd := noFault_divide_iff.mp (noFault_bind.mp hno).1
    rw [divide_eq_ok_iff.mpr ⟨hd, rfl⟩, ok_bind]
    refine congrArg Except.ok (decide_eq_decide.mpr ?_)
    exact ⟨fun hlt => ⟨hcheck.1, hcheck.2, hlt⟩, fun hexceeds => hexceeds.2.2⟩
  · have hnot : ¬ExceedsShare machine mi := fun hexceeds => hcheck ⟨hexceeds.1, hexceeds.2.1⟩
    exact congrArg Except.ok (decide_eq_false hnot).symm

theorem noFault_reachedGlobalLimit_iff : NoFault (reachedGlobalLimit globals) ↔ ¬NoGlobalCells globals := by
  unfold reachedGlobalLimit
  split_ifs with hcheck
  · rw [noFault_bind, noFault_divide_iff]
    simp only [noFault_pure, implies_true, and_true]
    constructor
    · intro hd hno
      obtain ⟨_, _, hsum⟩ := hno
      apply hd
      rw [hsum]
      rfl
    · intro hnot hd
      exact hnot ⟨hcheck.1, hcheck.2, UInt64.toNat_inj.mp hd⟩
  · exact iff_of_true (noFault_pure _) fun h => hcheck ⟨h.1, h.2.1⟩

theorem reachedPaddingLimit_eq (h : ¬NoMachineCells machine mi) :
    machineReachedPaddingLimit machine mi globals =
      if ExceedsShare machine mi then .ok true else reachedGlobalLimit globals := by
  unfold machineReachedPaddingLimit
  rw [reachedMachineLimit_eq h, ok_bind]
  by_cases hexceeds : ExceedsShare machine mi
  · rw [decide_eq_true hexceeds, if_pos hexceeds]
    rfl
  · rw [decide_eq_false hexceeds, if_neg hexceeds, if_neg Bool.false_ne_true]
    cases reachedGlobalLimit globals with
    | error e => rfl
    | ok reached =>
      cases reached with
      | false => rfl
      | true => rfl

/-- **Checking.**  When a check does not divide by zero. -/
theorem noFault_reachedPaddingLimit_iff :
    NoFault (machineReachedPaddingLimit machine mi globals) ↔ CanCheck machine mi globals := by
  unfold CanCheck
  by_cases hmachine : NoMachineCells machine mi
  · refine iff_of_false (fun hno => ?_) fun h => h.1 hmachine
    unfold machineReachedPaddingLimit at hno
    exact noFault_reachedMachineLimit_iff.mp (noFault_bind.mp hno).1 hmachine
  · rw [reachedPaddingLimit_eq hmachine]
    split_ifs with hexceeds
    · exact iff_of_true (noFault_ok _) ⟨hmachine, .inl hexceeds⟩
    · rw [noFault_reachedGlobalLimit_iff]
      exact ⟨fun h => ⟨hmachine, .inr h⟩, fun h => h.2.resolve_left hexceeds⟩

/-- If no limit is reached, then the machine has not exceeded its share. -/
theorem not_exceedsShare_of_not_reached
    (h : machineReachedPaddingLimit machine mi globals = .ok false) : ¬ExceedsShare machine mi := by
  intro hexceeds
  by_cases hmachine : NoMachineCells machine mi
  · have hno : NoFault (machineReachedPaddingLimit machine mi globals) := by
      rw [h]
      exact noFault_ok _
    exact (noFault_reachedPaddingLimit_iff.mp hno).1 hmachine
  · rw [reachedPaddingLimit_eq hmachine, if_pos hexceeds] at h
    cases h

end Check

/-! ### Every run -/

section Process

variable {ι : Type} [DecidableEq ι] {p p' : Process ι} {events : List (LimitEvent ι)} {event : LimitEvent ι}

/-- The counters of all machines leave room. -/
def Process.CountersLt (p : Process ι) : Prop :=
  ∀ i machine mi, p.machines i = some (machine, mi) → Circpad.CountersLt mi

theorem machines_update_self (i : ι) (m : Option (MachineSpec × Runtime)) : (p.update i m).machines i = m := by
  unfold Process.update
  exact Function.update_self i m p.machines

theorem machines_update_of_ne {i j : ι} (hij : j ≠ i) (m : Option (MachineSpec × Runtime)) :
    (p.update i m).machines j = p.machines j := by
  unfold Process.update
  exact Function.update_of_ne hij m p.machines

theorem Process.CountersLt.update (h : p.CountersLt) {i : ι} {m : Option (MachineSpec × Runtime)}
    (hm : ∀ machine mi, m = some (machine, mi) → Circpad.CountersLt mi) : (p.update i m).CountersLt := by
  intro j machine mi hj
  by_cases hij : j = i
  · rw [hij, machines_update_self] at hj
    exact hm machine mi hj
  · rw [machines_update_of_ne hij] at hj
    exact h j machine mi hj

theorem LimitStep.countersLt (h : p.CountersLt) (hstep : LimitStep p event p') : p'.CountersLt := by
  cases hstep with
  | setup i machine =>
    refine h.update fun _ mi hmi => ?_
    cases hmi
    exact ⟨by decide, by decide⟩
  | free i => exact h.update nofun
  | paddingSent i machine mi hi =>
    have hmi := (h i machine mi hi).countPaddingSent
    have hupdate : (p.update i (some (machine, machineCountPaddingSent mi))).CountersLt := by
      refine h.update fun _ mi' hmi' => ?_
      cases hmi'
      exact hmi
    exact hupdate
  | cellNonpaddingSent => exact h
  | nonpaddingSent i currentTime machine mi hi =>
    have hmi : Circpad.CountersLt (machineCountNonpaddingSent machine currentTime mi) :=
      (h i machine mi hi).countNonpaddingSent
    refine h.update fun _ mi' hmi' => ?_
    cases hmi'
    exact hmi
  | consensus maxPaddingPercent allowedCells => exact h
  | check i machine mi reached hi hcheck => exact h
  | internal i machine mi mi' hi hpadding hnonpadding =>
    have hmi := (h i machine mi hi).congr hpadding hnonpadding
    refine h.update fun _ mi'' hmi'' => ?_
    cases hmi''
    exact hmi

/-- **Counters.**  In every run the counters of all machines stay below `UINT16_MAX`. -/
theorem counters_lt_of_run {maxPaddingPercent : UInt8} {allowedCells : UInt16}
    (hrun : Run LimitStep (Process.start maxPaddingPercent allowedCells) events p) : p.CountersLt :=
  Run.invariant (fun _ _ _ h hstep => hstep.countersLt h) hrun nofun

/-- **Limits.**  In every state of every run a check of any machine is safe exactly if the machine has counted
cells or has an allowance, and the process has counted cells, has an allowance, or is not asked. -/
theorem limitsSafe_iff_of_run {maxPaddingPercent : UInt8} {allowedCells : UInt16}
    (hrun : Run LimitStep (Process.start maxPaddingPercent allowedCells) events p) {i : ι}
    {machine : MachineSpec} {mi : Runtime} (hi : p.machines i = some (machine, mi)) :
    LimitsSafe machine mi p.globals ↔ CanCheck machine mi p.globals := by
  constructor
  · intro h
    exact noFault_reachedPaddingLimit_iff.mp h.1
  · intro h
    refine ⟨noFault_reachedPaddingLimit_iff.mpr h, counters_lt_of_run hrun i machine mi hi, ?_⟩
    intro hreached hpct hallowed
    by_contra hlt
    exact not_exceedsShare_of_not_reached hreached ⟨hpct, hallowed, Nat.lt_of_not_le hlt⟩

end Process

/-! ### A machine without an allowance -/

def halfMachine : MachineSpec := { fullMachine .higher with maxPaddingPercent := 50 }

def halfProcess : Process Unit := (Process.start 0 0).update () (some (halfMachine, machineinfoNew))

def halfRuntime : Runtime := machineCountPaddingSent (machineCountNonpaddingSent halfMachine 0 machineinfoNew)

/-- A check is safe after a cell of each kind has been sent; half of the cells are padding. -/
theorem limitsSafe_iff_half :
    ∃ p, Run LimitStep (Process.start 0 0)
        [.setup () halfMachine, .nonpaddingSent () 0, .cellNonpaddingSent, .paddingSent (), .check ()] p ∧
      LimitsSafe halfMachine halfRuntime p.globals := by
  have hchecked : machineReachedPaddingLimit halfMachine halfRuntime ⟨0, 0, 1, 1⟩ = .ok false := by decide +kernel
  have hrun : Run LimitStep (Process.start 0 0)
      [.setup () halfMachine, .nonpaddingSent () 0, .cellNonpaddingSent, .paddingSent (), .check ()] _ :=
    .cons (.setup _ () halfMachine) (.cons (.nonpaddingSent _ () 0 _ _ rfl) (.cons (.cellNonpaddingSent _)
      (.cons (.paddingSent _ () _ _ rfl) (.cons (.check _ () _ halfRuntime _ rfl hchecked) (.nil _)))))
  refine ⟨_, hrun, (limitsSafe_iff_of_run hrun (i := ()) rfl).mpr ?_⟩
  unfold CanCheck NoMachineCells NoGlobalCells
  decide +kernel

/-- The first check divides by zero: no cell has been counted, and the allowance of zero cells is used up. -/
theorem not_limitsSafe_half :
    machineReachedPaddingLimit halfMachine machineinfoNew halfProcess.globals = fault .divideByZero ∧
      ¬LimitsSafe halfMachine machineinfoNew halfProcess.globals := by
  have hfault : machineReachedPaddingLimit halfMachine machineinfoNew halfProcess.globals
      = fault .divideByZero := rfl
  refine ⟨hfault, fun h => ?_⟩
  have hno := h.1
  rw [hfault] at hno
  exact not_noFault_fault _ hno

end TorEbpf.Or.Circpad
