import Mathlib
import TorEbpf.Hs.TimePeriod

/-!
# Descriptors of an onion service

A service holds two descriptors, each for a time period.  `hs_service.c` builds both when the service
starts, by the position between the two cycles, and later shifts them when a new protocol run has begun
and builds one for the next time period.

* `fetch_mem_store` — the index that a client fetches from is one under which the service stores, and the
  descriptor stored there is for the client's time period;
* `serves_iff` — the descriptors stay those that the indices are for, exactly if the service sees a
  consensus of every protocol run, the first one in the first half of the run.
-/

namespace TorEbpf.Hs

open TorEbpf.Lib

/-- The descriptors of a service (`hs_service_t`), each given by its `time_period_num`. -/
structure HsService where
  descCurrent : Option ℕ
  descNext : Option ℕ
  nextRotationTime : ℕ
deriving DecidableEq

def newService : HsService := ⟨none, none, 0⟩

def buildDescriptorsForNewService (view : HsView) (service : HsService) : Option HsService := do
  if ← hsInPeriodBetweenTpAndSrv view none then
    let currentDescTp ← hsGetPreviousTimePeriodNum view 0
    let nextDescTp ← hsGetTimePeriodNum view 0
    some { service with descCurrent := some currentDescTp, descNext := some nextDescTp }
  else
    let currentDescTp ← hsGetTimePeriodNum view 0
    let nextDescTp ← hsGetNextTimePeriodNum view 0
    some { service with descCurrent := some currentDescTp, descNext := some nextDescTp }

/-- `build_all_descriptors`, for one service. -/
def buildAllDescriptors (view : HsView) (service : HsService) : Option HsService :=
  match service.descCurrent, service.descNext with
  | none, none => buildDescriptorsForNewService view service
  | none, some _ => some service
  | some _, none => (hsGetNextTimePeriodNum view 0).map fun tp => { service with descNext := some tp }
  | some _, some _ => some service

def setRotationTime (view : HsView) (service : HsService) : Option HsService := do
  let start ← srStateGetStartTimeOfCurrentProtocolRun view
  let duration ← srStateGetProtocolRunDuration view
  some { service with nextRotationTime := start + duration }

def shouldRotateDescriptors (view : HsView) (service : HsService) : Bool :=
  match getReasonablyLiveConsensus view with
  | none => false
  | some ns =>
      service.nextRotationTime ≤ ns.validAfter && service.descCurrent.isSome && service.descNext.isSome

def rotateServiceDescriptors (view : HsView) (service : HsService) : Option HsService :=
  setRotationTime view { service with descCurrent := service.descNext, descNext := none }

/-- `rotate_all_descriptors`, for one service. -/
def rotateAllDescriptors (view : HsView) (service : HsService) : Option HsService :=
  if shouldRotateDescriptors view service then rotateServiceDescriptors view service else some service

/-- `run_housekeeping_event`, for one service. -/
def runHousekeepingEvent (view : HsView) (service : HsService) : Option HsService :=
  if service.nextRotationTime = 0 then setRotationTime view service else some service

/-- `hs_service_run_scheduled_events`, as far as the periods of descriptors go. -/
def hsServiceRunScheduledEvents (view : HsView) (service : HsService) : Option HsService := do
  let service ← runHousekeepingEvent view service
  let service ← rotateAllDescriptors view service
  buildAllDescriptors view service

/-! ### Meeting -/

section Meeting

variable {v : ℕ} {view : HsView} {ns : HsConsensus}

/-- A new service has the descriptors of the run and of the one before. -/
theorem Scheduled.buildNew (h : Scheduled v view ns) (service : HsService) :
    buildDescriptorsForNewService view service =
      some { service with
        descCurrent := some (runOf v ns.validAfter - 1), descNext := some (runOf v ns.validAfter) } := by
  rcases h.position with ⟨_, hb, hnum, hnum', _⟩ | ⟨_, hb, hnum, hnum', _⟩
  · simp only [buildDescriptorsForNewService, hb, hnum, hnum', Option.bind_eq_bind, Option.bind_some,
      if_true]
  · simp only [buildDescriptorsForNewService, hb, hnum, hnum', Option.bind_eq_bind, Option.bind_some,
      Bool.false_eq_true, if_false]

/-- **Clients and services meet.** -/
theorem fetch_mem_store {srv : ℕ → Bytes 32} {client service : HsView} {c s : HsConsensus}
    (hc : Scheduled v client c) (hs : Scheduled v service s) (hcsrv : Carries v srv c)
    (hssrv : Carries v srv s) (hcs : c.validAfter ≤ s.validAfter + 12 * v)
    (hsc : s.validAfter ≤ c.validAfter + 12 * v) :
    ∃ fetched stored current next,
      nodeSetHsdirIndex client c = some fetched ∧ nodeSetHsdirIndex service s = some stored ∧
      buildDescriptorsForNewService service newService = some ⟨some current, some next, 0⟩ ∧
      (fetched.fetch = stored.storeFirst ∧ fetched.fetch.1 = current ∨
        fetched.fetch = stored.storeSecond ∧ fetched.fetch.1 = next) := by
  refine ⟨_, _, _, _, nodeSetHsdirIndex_eq hc hcsrv, nodeSetHsdirIndex_eq hs hssrv, hs.buildNew newService, ?_⟩
  rcases periodOf_of_near hc.pos hc.late.le hs.late.le hcs hsc with heq | heq
  · left
    simp only [heq, and_self]
  · right
    simp only [heq, and_self]

end Meeting

def dailySrv (n : ℕ) : Bytes 32 := Bytes.pad 32 [n.toUInt8]

def hourlyConsensus (hour : ℕ) : HsConsensus :=
  ⟨3600 * hour, 3600 * hour + 3600, 3600 * hour + 10800, none,
    some (dailySrv (hour / 24)), some (dailySrv (hour / 24 - 1))⟩

/-- A client or a service with that consensus. -/
def hourlyView (hour : ℕ) : HsView :=
  ⟨3600 * hour, false, some (hourlyConsensus hour), 3600, 3600 * hour, fun _ => Bytes.pad 32 []⟩

theorem scheduled_hourly {hour : ℕ} (h : 24 < hour) :
    Scheduled 3600 (hourlyView hour) (hourlyConsensus hour) := by
  refine ⟨rfl, ?_, rfl, by decide, ⟨1440, rfl, by decide⟩, ⟨hour, rfl⟩, ?_⟩
  · rw [consensusReasonablyLive, Bool.and_eq_true]
    refine ⟨decide_eq_true ?_, decide_eq_true ?_⟩
    · simp only [hourlyView, hourlyConsensus]
      omega
    · simp only [hourlyView, hourlyConsensus]
      omega
  · simp only [hourlyConsensus]
    omega

theorem carries_hourly (hour : ℕ) : Carries 3600 dailySrv (hourlyConsensus hour) := by
  have hrun : runOf 3600 (hourlyConsensus hour).validAfter = hour / 24 := by
    simp only [runOf, hourlyConsensus]
    omega
  refine ⟨?_, ?_⟩
  · rw [hrun]
    rfl
  · rw [hrun]
    rfl

/-- A client one hour before a new period, and a service one hour after it. -/
theorem fetch_mem_store_noon :
    ∃ fetched stored current next,
      nodeSetHsdirIndex (hourlyView 59) (hourlyConsensus 59) = some fetched ∧
      nodeSetHsdirIndex (hourlyView 61) (hourlyConsensus 61) = some stored ∧
      buildDescriptorsForNewService (hourlyView 61) newService = some ⟨some current, some next, 0⟩ ∧
      (fetched.fetch = stored.storeFirst ∧ fetched.fetch.1 = current ∨
        fetched.fetch = stored.storeSecond ∧ fetched.fetch.1 = next) :=
  fetch_mem_store (scheduled_hourly (by decide)) (scheduled_hourly (by decide)) (carries_hourly 59)
    (carries_hourly 61) (by decide) (by decide)

/-! ### A running service -/

/-- What a service sees: its view and the consensus in it. -/
abbrev HsEvent := HsView × HsConsensus

/-- The descriptors are those that the store indices are for. -/
def Holds (e : HsEvent) (service : HsService) : Prop :=
  ∃ index, nodeSetHsdirIndex e.1 e.2 = some index ∧
    service.descCurrent = some index.storeFirst.1 ∧ service.descNext = some index.storeSecond.1

/-- **After every consensus that it sees the service holds the right descriptors.** -/
def Serves (service : HsService) : List HsEvent → Prop
  | [] => True
  | e :: es =>
      ∃ service', hsServiceRunScheduledEvents e.1 service = some service' ∧ Holds e service' ∧
        Serves service' es

/-- **The condition** on consecutive consensuses: they are of one run, or the second is in the first half
of the next run. -/
def Follows (v : ℕ) (e e' : HsEvent) : Prop :=
  runOf v e'.2.validAfter = runOf v e.2.validAfter ∨
    runOf v e'.2.validAfter = runOf v e.2.validAfter + 1 ∧
      hsInPeriodBetweenTpAndSrv e'.1 (some e'.2) = some false

section Running

variable {v r : ℕ} {e : HsEvent}

/-- The service in run `r`, as it should be. -/
def serving (v r : ℕ) : HsService := ⟨some (r - 1), some r, 24 * v * r + 24 * v⟩

theorem Scheduled.setRotationTime_eq {view : HsView} {ns : HsConsensus} (h : Scheduled v view ns)
    (service : HsService) :
    setRotationTime view service =
      some { service with nextRotationTime := 24 * v * runOf v ns.validAfter + 24 * v } := by
  simp only [setRotationTime, h.startOfRun, h.runDuration, Option.bind_eq_bind, Option.bind_some]

theorem holds_iff (h : Scheduled v e.1 e.2) (service : HsService) :
    Holds e service ↔ service.descCurrent = some (runOf v e.2.validAfter - 1) ∧
      service.descNext = some (runOf v e.2.validAfter) := by
  constructor
  · rintro ⟨index, hindex, hcur, hnext⟩
    obtain rfl := Option.some.inj (h.hsdirIndex.symm.trans hindex)
    exact ⟨hcur, hnext⟩
  · rintro ⟨hcur, hnext⟩
    exact ⟨_, h.hsdirIndex, hcur, hnext⟩

theorem validAfter_lt (h : Scheduled v e.1 e.2) :
    e.2.validAfter < 24 * v * runOf v e.2.validAfter + 24 * v := by
  have hpos := h.pos
  have hmod := Nat.div_add_mod e.2.validAfter (24 * v)
  have hlt := Nat.mod_lt e.2.validAfter (show 24 * v > 0 by omega)
  rw [runOf]
  omega

/-- **The start.** -/
theorem events_newService (h : Scheduled v e.1 e.2) :
    hsServiceRunScheduledEvents e.1 newService = some (serving v (runOf v e.2.validAfter)) := by
  have hlt := validAfter_lt h
  have hrot : shouldRotateDescriptors e.1
      { newService with nextRotationTime := 24 * v * runOf v e.2.validAfter + 24 * v } = false := by
    simp only [shouldRotateDescriptors, h.consensus, decide_eq_false (Nat.not_le_of_lt hlt), Bool.false_and]
  simp only [hsServiceRunScheduledEvents, runHousekeepingEvent, newService, if_true, h.setRotationTime_eq,
    Option.bind_eq_bind, Option.bind_some]
  rw [rotateAllDescriptors]
  simp only [newService] at hrot
  simp only [hrot, Bool.false_eq_true, if_false, Option.bind_some, buildAllDescriptors, h.buildNew]
  rfl

/-- **A consensus of the same run** changes nothing. -/
theorem events_serving_same (h : Scheduled v e.1 e.2) (hr : runOf v e.2.validAfter = r) :
    hsServiceRunScheduledEvents e.1 (serving v r) = some (serving v r) := by
  have hlt := validAfter_lt h
  have hpos := h.pos
  rw [hr] at hlt
  have hrot : shouldRotateDescriptors e.1 (serving v r) = false := by
    simp only [shouldRotateDescriptors, h.consensus, serving, Option.isSome_some, Bool.and_true]
    exact decide_eq_false (Nat.not_le_of_lt hlt)
  have hne : (serving v r).nextRotationTime ≠ 0 := by
    simp only [serving]
    omega
  simp only [hsServiceRunScheduledEvents, runHousekeepingEvent, if_neg hne, rotateAllDescriptors, hrot,
    Bool.false_eq_true, if_false, Option.bind_eq_bind, Option.bind_some]
  rfl

/-- **A consensus of a later run** shifts the descriptors, and makes one for the next period. -/
theorem events_serving_later (h : Scheduled v e.1 e.2) (hr : r < runOf v e.2.validAfter) :
    hsServiceRunScheduledEvents e.1 (serving v r) =
      (hsGetNextTimePeriodNum e.1 0).map fun tp =>
        ⟨some r, some tp, 24 * v * runOf v e.2.validAfter + 24 * v⟩ := by
  have hpos := h.pos
  have hle : 24 * v * r + 24 * v ≤ e.2.validAfter := by
    have hstart : 24 * v * runOf v e.2.validAfter ≤ e.2.validAfter := Nat.mul_div_le _ _
    have hmul : 24 * v * (r + 1) ≤ 24 * v * runOf v e.2.validAfter := Nat.mul_le_mul_left _ hr
    rw [Nat.mul_add] at hmul
    omega
  have hrot : shouldRotateDescriptors e.1 (serving v r) = true := by
    simp [shouldRotateDescriptors, h.consensus, serving, hle]
  have hne : (serving v r).nextRotationTime ≠ 0 := by
    simp only [serving]
    omega
  simp only [hsServiceRunScheduledEvents, runHousekeepingEvent, if_neg hne, rotateAllDescriptors, hrot,
    if_true, rotateServiceDescriptors, h.setRotationTime_eq, Option.bind_eq_bind, Option.bind_some]
  rfl

theorem between_false_iff (h : Scheduled v e.1 e.2) :
    hsInPeriodBetweenTpAndSrv e.1 (some e.2) = some false ↔
      hsGetNextTimePeriodNum e.1 0 = some (runOf v e.2.validAfter) := by
  rcases h.position with ⟨hb, _, hnum, _, _⟩ | ⟨hb, _, _, hnum', _⟩
  · rw [hb, hsGetNextTimePeriodNum, hnum]
    simp
  · exact ⟨fun _ => hnum', fun _ => hb⟩

/-- **One consensus**: the service goes on as it should exactly if the consensus follows the last one. -/
theorem step_iff {e' : HsEvent} (h' : Scheduled v e'.1 e'.2)
    (hle : runOf v e.2.validAfter ≤ runOf v e'.2.validAfter) (service' : HsService) :
    hsServiceRunScheduledEvents e'.1 (serving v (runOf v e.2.validAfter)) = some service' ∧
        Holds e' service' ↔
      Follows v e e' ∧ service' = serving v (runOf v e'.2.validAfter) := by
  rw [holds_iff h', Follows]
  rcases hle.eq_or_lt with heq | hlt
  · rw [events_serving_same h' heq.symm, heq]
    constructor
    · rintro ⟨hserv, _⟩
      exact ⟨.inl rfl, (Option.some.inj hserv).symm⟩
    · rintro ⟨_, rfl⟩
      exact ⟨rfl, rfl, rfl⟩
  · rw [events_serving_later h' hlt, between_false_iff h', Option.map_eq_some_iff]
    constructor
    · rintro ⟨⟨tp, htp, rfl⟩, hcur, hnext⟩
      have hr : runOf v e.2.validAfter = runOf v e'.2.validAfter - 1 := Option.some.inj hcur
      obtain rfl : tp = runOf v e'.2.validAfter := Option.some.inj hnext
      refine ⟨.inr ⟨by omega, htp⟩, ?_⟩
      rw [serving, ← hr]
    · rintro ⟨heq | ⟨heq, htp⟩, rfl⟩
      · exact absurd heq.symm hlt.ne
      · have hr : runOf v e'.2.validAfter - 1 = runOf v e.2.validAfter := by omega
        refine ⟨⟨_, htp, ?_⟩, rfl, rfl⟩
        rw [serving, hr]

theorem serves_serving_iff (e : HsEvent) (es : List HsEvent) (h : ∀ e' ∈ es, Scheduled v e'.1 e'.2)
    (hinc : (e :: es).IsChain fun a b => a.2.validAfter < b.2.validAfter) :
    Serves (serving v (runOf v e.2.validAfter)) es ↔ (e :: es).IsChain (Follows v) := by
  induction es generalizing e with
  | nil => simp [Serves]
  | cons e' es ih =>
    obtain ⟨hlt, hinc'⟩ := List.isChain_cons_cons.mp hinc
    have h' := h e' List.mem_cons_self
    have hrest := ih e' (fun x hx => h x (List.mem_cons_of_mem e' hx)) hinc'
    have hle : runOf v e.2.validAfter ≤ runOf v e'.2.validAfter := Nat.div_le_div_right hlt.le
    rw [List.isChain_cons_cons, ← hrest, Serves]
    constructor
    · rintro ⟨service', hstep, hholds, hserves⟩
      obtain ⟨hfollows, rfl⟩ := (step_iff h' hle service').mp ⟨hstep, hholds⟩
      exact ⟨hfollows, hserves⟩
    · rintro ⟨hfollows, hserves⟩
      obtain ⟨hstep, hholds⟩ := (step_iff h' hle _).mpr ⟨hfollows, rfl⟩
      exact ⟨_, hstep, hholds, hserves⟩

/-- **When a running service holds the right descriptors**: after every consensus of a run, exactly if
each consensus follows the one before. -/
theorem serves_iff (v : ℕ) (es : List HsEvent) (h : ∀ e ∈ es, Scheduled v e.1 e.2)
    (hinc : es.IsChain fun a b => a.2.validAfter < b.2.validAfter) :
    Serves newService es ↔ es.IsChain (Follows v) := by
  cases es with
  | nil => simp [Serves]
  | cons e es =>
    have he := h e List.mem_cons_self
    rw [← serves_serving_iff e es (fun x hx => h x (List.mem_cons_of_mem e hx)) hinc, Serves]
    constructor
    · rintro ⟨service', hstep, _, hserves⟩
      rw [events_newService he] at hstep
      rwa [Option.some.inj hstep]
    · intro hserves
      exact ⟨_, events_newService he, (holds_iff he _).mpr ⟨rfl, rfl⟩, hserves⟩

end Running

/-- A service that sees the consensus of every hour for two hours. -/
theorem serves_twoHours :
    Serves newService [(hourlyView 47, hourlyConsensus 47), (hourlyView 48, hourlyConsensus 48)] := by
  refine (serves_iff 3600 _ ?_ ?_).mpr ?_
  · intro e he
    simp only [List.mem_cons, List.not_mem_nil, or_false] at he
    rcases he with rfl | rfl
    · exact scheduled_hourly (by decide)
    · exact scheduled_hourly (by decide)
  · exact List.isChain_pair.mpr (by decide)
  · exact List.isChain_pair.mpr (.inr ⟨by decide, by decide +kernel⟩)

/-- The host was suspended for half a day, over the start of a run. -/
theorem not_serves_suspended :
    ¬Serves newService [(hourlyView 47, hourlyConsensus 47), (hourlyView 61, hourlyConsensus 61)] := by
  rintro ⟨service, hservice, _, service', hservice', ⟨index, hindex, _, hnext⟩, _⟩
  have hrun : ((hsServiceRunScheduledEvents (hourlyView 47) newService).bind
      (hsServiceRunScheduledEvents (hourlyView 61))).map (·.descNext) = some (some 3) := by
    decide +kernel
  have hstore : (nodeSetHsdirIndex (hourlyView 61) (hourlyConsensus 61)).map (·.storeSecond.1) = some 2 := by
    decide +kernel
  rw [hservice, Option.bind_some, hservice', Option.map_some] at hrun
  rw [hindex, Option.map_some] at hstore
  rw [Option.some.inj hrun, Option.some.inj hstore] at hnext
  exact absurd hnext (by decide)

end TorEbpf.Hs
