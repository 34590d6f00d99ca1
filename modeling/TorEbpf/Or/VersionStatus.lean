import TorEbpf.Dirauth.DirVote

/-!
# Whether a version is obsolete

`tor_version_is_obsolete` reads a list of recommended versions once, collects four flags, and decides from
them.  What it should answer is the first of several statuses that applies, by a list of priorities.

* `FoundVersions.Says.scan` — what the flags say of the versions that were read;
* `torVersionIsObsolete_eq_first` — the answer is the first status that applies, where a version that is newer
  than all listed ones is new before it is new in its series.
-/

namespace TorEbpf.Or

open TorEbpf.Lib TorEbpf.Strings

/-! ### The code -/

inductive VersionStatusT where
  | recommended
  | old
  | new
  | newInSeries
  | unrecommended
  | empty
  | unknown
  deriving DecidableEq, Repr

def torVersionSameSeries (a b : TorVersion) : Bool :=
  a.major = b.major && a.minor = b.minor && a.micro = b.micro

/-- `strcmpstart(cp, "Tor ")` is 0: the prefix is skipped. -/
def skipTor (cp : List UInt8) : List UInt8 :=
  if cp.take 4 = [0x54, 0x6f, 0x72, 0x20] then cp.drop 4 else cp

def entryVersion (cp : List UInt8) : Option TorVersion := torVersionParse (skipTor cp)

/-- `smartlist_split_string(version_sl, versionlist, ",", SPLIT_SKIP_SPACE, 0)`. -/
def splitVersionList (s : List UInt8) : List (List UInt8) :=
  (s.splitOnP (· == 0x2c)).map fun t => (t.dropWhile isSpace).rdropWhile isSpace

/-- The flags of `tor_version_is_obsolete`. -/
structure FoundVersions where
  foundNewer : Bool := false
  foundOlder : Bool := false
  foundNewerInSeries : Bool := false
  foundAnyInSeries : Bool := false
  deriving DecidableEq, Repr

/-- The body of the loop; nothing if it is left because the version is listed. -/
def obsoleteStep (mine : TorVersion) (found : FoundVersions) (cp : List UInt8) : Option FoundVersions :=
  match entryVersion cp with
  | none => some found
  | some other =>
    let same := torVersionSameSeries mine other
    let found := if same then { found with foundAnyInSeries := true } else found
    match torVersionCompare mine other with
    | .eq => none
    | .lt =>
      let found := { found with foundNewer := true }
      some (if same then { found with foundNewerInSeries := true } else found)
    | .gt => some { found with foundOlder := true }

def FoundVersions.status (found : FoundVersions) : VersionStatusT :=
  if found.foundAnyInSeries && !found.foundNewerInSeries && found.foundNewer then .newInSeries
  else if found.foundNewer && !found.foundOlder then .old
  else if found.foundOlder && !found.foundNewer then .new
  else .unrecommended

/-- `tor_version_is_obsolete`; nothing if the own version has no meaning, which is asserted. -/
def torVersionIsObsolete (myversion versionlist : List UInt8) : Option VersionStatusT :=
  (torVersionParse myversion).map fun mine =>
    if versionlist.isEmpty then .empty
    else
      match (splitVersionList versionlist).foldlM (obsoleteStep mine) {} with
      | none => .recommended
      | some found => found.status

/-! ### What it should answer -/

/-- The versions of a list: those of its entries that have a meaning. -/
def listedVersions (versionlist : List UInt8) : List TorVersion :=
  (splitVersionList versionlist).filterMap entryVersion

/-- A status applies to a version and a list of recommended ones. -/
def VersionStatusT.Applies (mine : TorVersion) (listed : List TorVersion) : VersionStatusT → Prop
  | .recommended => ∃ v ∈ listed, torVersionCompare mine v = .eq
  | .old => ∀ v ∈ listed, torVersionCompare mine v = .lt
  | .new => ∀ v ∈ listed, torVersionCompare mine v = .gt
  | .newInSeries =>
      (∃ v ∈ listed, torVersionSameSeries mine v = true) ∧
        ∀ v ∈ listed, torVersionSameSeries mine v = true → torVersionCompare mine v ≠ .lt
  | .unrecommended => True
  | .empty => False
  | .unknown => False

instance (mine : TorVersion) (listed : List TorVersion) :
    DecidablePred (VersionStatusT.Applies mine listed) := fun st => by
  cases st <;> unfold VersionStatusT.Applies <;> infer_instance

def firstStatus (priorities : List VersionStatusT) (mine : TorVersion) (listed : List TorVersion) :
    Option VersionStatusT :=
  priorities.find? fun st => st.Applies mine listed

/-! ### The loop -/

section Loop

variable {mine : TorVersion}

structure FoundVersions.Says (mine : TorVersion) (read : List TorVersion) (found : FoundVersions) : Prop where
  /-- None of them is the own one. -/
  different : ∀ v ∈ read, torVersionCompare mine v ≠ .eq
  newer : found.foundNewer = true ↔ ∃ v ∈ read, torVersionCompare mine v = .lt
  older : found.foundOlder = true ↔ ∃ v ∈ read, torVersionCompare mine v = .gt
  newerInSeries : found.foundNewerInSeries = true ↔
    ∃ v ∈ read, torVersionCompare mine v = .lt ∧ torVersionSameSeries mine v = true
  anyInSeries : found.foundAnyInSeries = true ↔ ∃ v ∈ read, torVersionSameSeries mine v = true

theorem FoundVersions.says_nil : FoundVersions.Says mine [] {} := by
  constructor <;> simp

/-- What one step does with an entry that has a meaning. -/
theorem obsoleteStep_eq_some_iff {found found' : FoundVersions} {cp : List UInt8} {other : TorVersion}
    (hparse : entryVersion cp = some other) :
    obsoleteStep mine found cp = some found' ↔
      torVersionCompare mine other ≠ .eq ∧
        found' = ⟨found.foundNewer || torVersionCompare mine other == .lt,
          found.foundOlder || torVersionCompare mine other == .gt,
          found.foundNewerInSeries || (torVersionCompare mine other == .lt && torVersionSameSeries mine other),
          found.foundAnyInSeries || torVersionSameSeries mine other⟩ := by
  rw [obsoleteStep, hparse]
  dsimp only
  cases hcmp : torVersionCompare mine other <;> cases hsame : torVersionSameSeries mine other <;>
    simp [eq_comm]

/-- One more version that has a meaning and is not the own one. -/
theorem FoundVersions.Says.step {read : List TorVersion} {found found' : FoundVersions} {cp : List UInt8}
    {other : TorVersion} (h : found.Says mine read) (hparse : entryVersion cp = some other)
    (hstep : obsoleteStep mine found cp = some found') : found'.Says mine (read ++ [other]) := by
  obtain ⟨hne, rfl⟩ := (obsoleteStep_eq_some_iff hparse).mp hstep
  constructor
  · intro v hv
    rcases List.mem_append.mp hv with hv | hv
    · exact h.different v hv
    · rwa [List.mem_singleton.mp hv]
  · simp [h.newer, or_and_right, exists_or]
  · simp [h.older, or_and_right, exists_or]
  · simp [h.newerInSeries, or_and_right, exists_or]
  · simp [h.anyInSeries, or_and_right, exists_or]

theorem FoundVersions.Says.scan {read : List TorVersion} {found found' : FoundVersions}
    {entries : List (List UInt8)} (h : found.Says mine read)
    (hscan : entries.foldlM (obsoleteStep mine) found = some found') :
    found'.Says mine (read ++ entries.filterMap entryVersion) := by
  induction entries generalizing read found with
  | nil =>
    cases hscan
    simpa using h
  | cons cp entries ih =>
    rw [List.foldlM_cons] at hscan
    obtain ⟨next, hstep, hrest⟩ := Option.bind_eq_some_iff.mp hscan
    cases hparse : entryVersion cp with
    | none =>
      rw [obsoleteStep, hparse] at hstep
      cases hstep
      rw [List.filterMap_cons_none hparse]
      exact ih h hrest
    | some other =>
      rw [List.filterMap_cons_some hparse, List.append_cons]
      exact ih (h.step hparse hstep) hrest

/-- The loop is left early if a version of the list is the own one. -/
theorem exists_equal_of_scan_eq_none {found : FoundVersions} {entries : List (List UInt8)}
    (hscan : entries.foldlM (obsoleteStep mine) found = none) :
    ∃ v ∈ entries.filterMap entryVersion, torVersionCompare mine v = .eq := by
  induction entries generalizing found with
  | nil => cases hscan
  | cons cp entries ih =>
    rw [List.foldlM_cons] at hscan
    cases hparse : entryVersion cp with
    | none =>
      rw [List.filterMap_cons_none hparse]
      rw [obsoleteStep, hparse] at hscan
      exact ih hscan
    | some other =>
      rw [List.filterMap_cons_some hparse]
      by_cases heq : torVersionCompare mine other = .eq
      · exact ⟨other, List.mem_cons_self, heq⟩
      · obtain ⟨v, hv, hcmp⟩ : ∃ v ∈ entries.filterMap entryVersion,
            torVersionCompare mine v = .eq := by
          rw [(obsoleteStep_eq_some_iff hparse).mpr ⟨heq, rfl⟩] at hscan
          exact ih hscan
        exact ⟨v, List.mem_cons_of_mem other hv, hcmp⟩

end Loop

/-! ### The answer -/

section Answer

variable {mine : TorVersion} {listed : List TorVersion} {found : FoundVersions}

/-- The decision behind the loop is the first status that applies. -/
theorem FoundVersions.Says.firstStatus_eq (h : found.Says mine listed) (hne : listed ≠ []) :
    firstStatus [.recommended, .old, .new, .newInSeries, .unrecommended] mine listed = some found.status := by
  obtain ⟨other, hother⟩ := List.exists_mem_of_ne_nil listed hne
  have hrec : ¬VersionStatusT.Applies mine listed .recommended := by
    rintro ⟨v, hv, heq⟩
    exact h.different v hv heq
  -- each listed version is newer or older
  have hcases : ∀ v ∈ listed, torVersionCompare mine v = .lt ∨ torVersionCompare mine v = .gt := by
    intro v hv
    have hne := h.different v hv
    revert hne
    cases torVersionCompare mine v <;> simp
  have hold : VersionStatusT.Applies mine listed .old ↔ found.foundOlder = false := by
    rw [← Bool.not_eq_true, h.older]
    constructor
    · rintro hall ⟨v, hv, hgt⟩
      rw [hall v hv] at hgt
      cases hgt
    · intro hnone v hv
      exact (hcases v hv).resolve_right fun hgt => hnone ⟨v, hv, hgt⟩
  have hnew : VersionStatusT.Applies mine listed .new ↔ found.foundNewer = false := by
    rw [← Bool.not_eq_true, h.newer]
    constructor
    · rintro hall ⟨v, hv, hlt⟩
      rw [hall v hv] at hlt
      cases hlt
    · intro hnone v hv
      exact (hcases v hv).resolve_left fun hlt => hnone ⟨v, hv, hlt⟩
  have hseries : VersionStatusT.Applies mine listed .newInSeries ↔
      found.foundAnyInSeries = true ∧ found.foundNewerInSeries = false := by
    rw [← Bool.not_eq_true, h.newerInSeries, h.anyInSeries]
    refine and_congr_right' ⟨?_, ?_⟩
    · rintro hall ⟨v, hv, hlt, hsame⟩
      exact hall v hv hsame hlt
    · intro hnone v hv hsame hlt
      exact hnone ⟨v, hv, hlt, hsame⟩
  -- some version is newer or older, and one that is newer in its series is newer
  have hsome : found.foundNewer = true ∨ found.foundOlder = true := by
    rw [h.newer, h.older]
    exact (hcases other hother).imp (fun hlt => ⟨other, hother, hlt⟩) (fun hgt => ⟨other, hother, hgt⟩)
  have hany : found.foundAnyInSeries = true → found.foundNewerInSeries = false → found.foundOlder = true := by
    rw [← Bool.not_eq_true, h.anyInSeries, h.newerInSeries, h.older]
    rintro ⟨v, hv, hsame⟩ hnone
    exact ⟨v, hv, (hcases v hv).resolve_left fun hlt => hnone ⟨v, hv, hlt, hsame⟩⟩
  have hun : VersionStatusT.Applies mine listed .unrecommended := trivial
  simp only [firstStatus, List.find?_cons, hrec, hold, hnew, hseries, hun, FoundVersions.status]
  revert hsome hany
  rcases found with ⟨newer, older, newerIn, anyIn⟩
  cases newer <;> cases older <;> cases newerIn <;> cases anyIn <;> simp

/-- **The answer is the first status that applies**: recommended, old, new, new in its series, unrecommended. -/
theorem torVersionIsObsolete_eq_first (myversion versionlist : List UInt8) (mine : TorVersion)
    (hmine : torVersionParse myversion = some mine) (hlisted : listedVersions versionlist ≠ []) :
    torVersionIsObsolete myversion versionlist =
      firstStatus [.recommended, .old, .new, .newInSeries, .unrecommended] mine
        (listedVersions versionlist) := by
  have hempty : versionlist.isEmpty = false := by
    cases versionlist with
    | nil => exact absurd (by decide +kernel : listedVersions [] = []) hlisted
    | cons c s => rfl
  rw [torVersionIsObsolete, hmine, Option.map_some, if_neg (by simp [hempty])]
  cases hscan : (splitVersionList versionlist).foldlM (obsoleteStep mine) {} with
  | none =>
    have hrec : VersionStatusT.Applies mine (listedVersions versionlist) .recommended :=
      exists_equal_of_scan_eq_none hscan
    simp [firstStatus, hrec]
  | some found =>
    have hclear : found.Says mine (listedVersions versionlist) := by
      simpa [listedVersions] using FoundVersions.says_nil.scan hscan
    exact (hclear.firstStatus_eq hlisted).symm

/-- `0.1.0.3`, where `Tor 0.1.0.2,Tor 0.1.1.0` are recommended. -/
theorem torVersionIsObsolete_eq_first_two :
    torVersionIsObsolete [0x30, 0x2e, 0x31, 0x2e, 0x30, 0x2e, 0x33]
        [0x54, 0x6f, 0x72, 0x20, 0x30, 0x2e, 0x31, 0x2e, 0x30, 0x2e, 0x32, 0x2c, 0x54, 0x6f, 0x72, 0x20,
          0x30, 0x2e, 0x31, 0x2e, 0x31, 0x2e, 0x30] =
      firstStatus [.recommended, .old, .new, .newInSeries, .unrecommended]
        { major := 0, minor := 1, micro := 0, patchlevel := 3 }
        (listedVersions [0x54, 0x6f, 0x72, 0x20, 0x30, 0x2e, 0x31, 0x2e, 0x30, 0x2e, 0x32, 0x2c, 0x54, 0x6f,
          0x72, 0x20, 0x30, 0x2e, 0x31, 0x2e, 0x31, 0x2e, 0x30]) :=
  torVersionIsObsolete_eq_first _ _ _ (by decide +kernel) (by decide +kernel)

/-- `0.2.9.9-dev`, where `0.2.9.9` is recommended, is new, and not new in its series, which was asked first. -/
theorem not_newInSeries_before_new :
    ¬∀ (myversion versionlist : List UInt8) (mine : TorVersion), torVersionParse myversion = some mine →
      listedVersions versionlist ≠ [] →
      torVersionIsObsolete myversion versionlist =
        firstStatus [.recommended, .old, .newInSeries, .new, .unrecommended] mine
          (listedVersions versionlist) := by
  intro h
  have hdev := h [0x30, 0x2e, 0x32, 0x2e, 0x39, 0x2e, 0x39, 0x2d, 0x64, 0x65, 0x76]
    [0x30, 0x2e, 0x32, 0x2e, 0x39, 0x2e, 0x39]
    { major := 0, minor := 2, micro := 9, patchlevel := 9, statusTag := [0x64, 0x65, 0x76] }
    (by decide +kernel) (by decide +kernel)
  revert hdev
  decide +kernel

end Answer

end TorEbpf.Or
