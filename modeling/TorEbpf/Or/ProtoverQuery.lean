import TorEbpf.Or.Protover

/-!
# Asking a protocol list about versions

There are two questions: does a list support a version of a protocol, and does it support that version or a
later one?  The first looks for the first entry with the protocol's name; the second looks at every entry, and
does not distinguish upper and lower case.

* `protocolListSupportsProtocol_iff`, `protocolListSupportsProtocolOrLater_iff` — what the two answers mean;
* `orLater_iff` — when they agree: if a version is listed under the protocol's name in any spelling and in
  any entry, the first entry with exactly that name has to list one as well.
-/

namespace TorEbpf.Or.Protover

/-! ### The queries -/

def bytes (s : String) : List UInt8 := s.toList.map fun c => c.toNat.toUInt8

inductive ProtocolType where
  | link
  | linkAuth
  | relay
  | dirCache
  | hsDir
  | hsIntro
  | hsRend
  | desc
  | microdesc
  | cons
  | padding
  | flowCtrl
  deriving DecidableEq, Repr

def protocolNames : List (ProtocolType × List UInt8) :=
  [(.link, bytes "Link"), (.linkAuth, bytes "LinkAuth"), (.relay, bytes "Relay"),
    (.dirCache, bytes "DirCache"), (.hsDir, bytes "HSDir"), (.hsIntro, bytes "HSIntro"),
    (.hsRend, bytes "HSRend"), (.desc, bytes "Desc"), (.microdesc, bytes "Microdesc"),
    (.padding, bytes "Padding"), (.cons, bytes "Cons"), (.flowCtrl, bytes "FlowCtrl")]

def protocolTypeToStr (pr : ProtocolType) : List UInt8 :=
  match protocolNames.find? fun row => row.1 = pr with
  | some row => row.2
  | none => bytes "UNKNOWN"

/-- `BIT(i)`. -/
def bit (i : ℕ) : BitVec 64 := (1 : BitVec 64) <<< i

def findEntryByName (protos : List ProtoEntry) (name : List UInt8) : Option ProtoEntry :=
  protos.find? fun ent => ent.name = name

def protocolListContains (protos : List ProtoEntry) (pr : ProtocolType) (ver : ℕ) : Bool :=
  if maxProtocolVersion < ver then false
  else
    match findEntryByName protos (protocolTypeToStr pr) with
    | some ent => ent.bitmask &&& bit ver ≠ 0
    | none => false

def protocolListSupportsProtocol (list : List UInt8) (tp : ProtocolType) (version : ℕ) : Bool :=
  match parseProtocolList list with
  | none => false
  | some protocols => protocolListContains protocols tp version

def toLower (c : UInt8) : UInt8 := if 65 ≤ c ∧ c ≤ 90 then c + 32 else c

/-- `strcasecmp` is 0. -/
def strcaseEq (s t : List UInt8) : Bool := s.map toLower = t.map toLower

def protocolListSupportsProtocolOrLater (list : List UInt8) (tp : ProtocolType) (version : ℕ) : Bool :=
  match parseProtocolList list with
  | none => false
  | some protocols =>
      let mask := bitmaskForRange version 63
      protocols.any fun proto => strcaseEq proto.name (protocolTypeToStr tp) && proto.bitmask &&& mask ≠ 0

/-! ### What an entry lists -/

/-- The entry lists a version from `v` on. -/
def ListsFrom (entry : ProtoEntry) (v : ℕ) : Prop :=
  ∃ w, v ≤ w ∧ w ≤ maxProtocolVersion ∧ entry.bitmask.getLsbD w = true

section Masks

variable {m m' : BitVec 64} {v i : ℕ}

theorem getLsbD_bit (hi : i < 64) (v : ℕ) : (bit v).getLsbD i = decide (i = v) := by
  have hone : (1 : BitVec 64) = 1#64 := rfl
  rw [bit, BitVec.getLsbD_shiftLeft, hone, BitVec.getLsbD_one, decide_eq_true hi, Bool.eq_iff_iff]
  simp only [Bool.and_eq_true, Bool.not_eq_true', decide_eq_true_eq, decide_eq_false_iff_not, true_and]
  omega

theorem and_ne_zero_iff : m &&& m' ≠ 0 ↔ ∃ i, i < 64 ∧ m.getLsbD i = true ∧ m'.getLsbD i = true := by
  constructor
  · intro h
    by_contra hnone
    apply h
    apply BitVec.eq_of_getLsbD_eq
    intro i hi
    rw [BitVec.getLsbD_and, BitVec.ofNat_eq_ofNat, BitVec.getLsbD_zero, Bool.and_eq_false_iff]
    by_contra hbits
    rw [not_or, Bool.not_eq_false, Bool.not_eq_false] at hbits
    exact hnone ⟨i, hi, hbits⟩
  · rintro ⟨i, _, hm, hm'⟩ hzero
    have hbit := congrArg (BitVec.getLsbD · i) hzero
    rw [BitVec.getLsbD_and, hm, hm', BitVec.ofNat_eq_ofNat, BitVec.getLsbD_zero] at hbit
    cases hbit

theorem and_bit_ne_zero_iff (hv : v < 64) : m &&& bit v ≠ 0 ↔ m.getLsbD v = true := by
  rw [and_ne_zero_iff]
  constructor
  · rintro ⟨i, hi, hm, hbit⟩
    rw [getLsbD_bit hi, decide_eq_true_eq] at hbit
    rwa [hbit] at hm
  · intro hm
    exact ⟨v, hv, hm, by rw [getLsbD_bit hv, decide_eq_true_eq]⟩

theorem and_bitmaskForRange_ne_zero_iff {entry : ProtoEntry} (hv : v ≤ maxProtocolVersion) :
    entry.bitmask &&& bitmaskForRange v 63 ≠ 0 ↔ ListsFrom entry v := by
  have hmax : maxProtocolVersion = 63 := rfl
  rw [and_ne_zero_iff]
  constructor
  · rintro ⟨i, hi, hm, hrange⟩
    rw [getLsbD_bitmaskForRange (by omega) (Nat.le_refl 63) hi, decide_eq_true_eq] at hrange
    exact ⟨i, hrange.1, hrange.2, hm⟩
  · rintro ⟨w, hle, hw, hm⟩
    refine ⟨w, by omega, hm, ?_⟩
    rw [getLsbD_bitmaskForRange (by omega) (Nat.le_refl 63) (by omega), decide_eq_true_eq]
    exact ⟨hle, hw⟩

end Masks

/-! ### The answers -/

def IsFirstNamed (entries : List ProtoEntry) (name : List UInt8) (entry : ProtoEntry) : Prop :=
  entry.name = name ∧ ∃ before after, entries = before ++ entry :: after ∧ ∀ e ∈ before, e.name ≠ name

section Answers

variable {list name : List UInt8} {entries : List ProtoEntry} {entry : ProtoEntry} {tp : ProtocolType}
  {v w : ℕ}

theorem findEntryByName_iff : findEntryByName entries name = some entry ↔ IsFirstNamed entries name entry := by
  unfold findEntryByName IsFirstNamed
  rw [List.find?_eq_some_iff_append, decide_eq_true_eq]
  simp only [Bool.not_eq_true', decide_eq_false_iff_not]

/-- **The first question**: the first entry with the name of the protocol lists the version. -/
theorem protocolListSupportsProtocol_iff : protocolListSupportsProtocol list tp w = true ↔
    w ≤ maxProtocolVersion ∧ ∃ entries entry, IsList list entries ∧
      IsFirstNamed entries (protocolTypeToStr tp) entry ∧ entry.bitmask.getLsbD w = true := by
  have hmax : maxProtocolVersion = 63 := rfl
  unfold protocolListSupportsProtocol
  cases hparse : parseProtocolList list with
  | none =>
    refine iff_of_false Bool.false_ne_true ?_
    rintro ⟨_, entries, _, hlist, _⟩
    rw [parseProtocolList_iff.mpr hlist] at hparse
    cases hparse
  | some entries =>
    have hlist := parseProtocolList_iff.mp hparse
    dsimp only
    unfold protocolListContains
    by_cases hw : maxProtocolVersion < w
    · rw [if_pos hw]
      exact iff_of_false Bool.false_ne_true fun h => Nat.not_le.mpr hw h.1
    · rw [if_neg hw]
      constructor
      · intro h
        cases hfind : findEntryByName entries (protocolTypeToStr tp) with
        | none => rw [hfind] at h; cases h
        | some entry =>
          rw [hfind] at h
          dsimp only at h
          rw [decide_eq_true_eq, and_bit_ne_zero_iff (by omega)] at h
          exact ⟨Nat.le_of_not_lt hw, entries, entry, hlist, findEntryByName_iff.mp hfind, h⟩
      · rintro ⟨_, entries', entry, hlist', hfirst, hbit⟩
        have heq := parseProtocolList_iff.mpr hlist'
        rw [hparse] at heq
        cases heq
        rw [findEntryByName_iff.mpr hfirst]
        dsimp only
        rwa [decide_eq_true_eq, and_bit_ne_zero_iff (by omega)]

/-- **The second question**: an entry with this name in some spelling lists the version or a later one. -/
theorem protocolListSupportsProtocolOrLater_iff (hv : v ≤ maxProtocolVersion) :
    protocolListSupportsProtocolOrLater list tp v = true ↔
      ∃ entries, IsList list entries ∧
        ∃ e ∈ entries, strcaseEq e.name (protocolTypeToStr tp) = true ∧ ListsFrom e v := by
  unfold protocolListSupportsProtocolOrLater
  cases hparse : parseProtocolList list with
  | none =>
    refine iff_of_false Bool.false_ne_true ?_
    rintro ⟨entries, hlist, _⟩
    rw [parseProtocolList_iff.mpr hlist] at hparse
    cases hparse
  | some entries =>
    dsimp only
    rw [List.any_eq_true]
    simp only [Bool.and_eq_true, decide_eq_true_eq, and_bitmaskForRange_ne_zero_iff hv]
    constructor
    · intro h
      exact ⟨entries, parseProtocolList_iff.mp hparse, h⟩
    · rintro ⟨entries', hlist, h⟩
      have heq := parseProtocolList_iff.mpr hlist
      rw [hparse] at heq
      cases heq
      exact h

/-- If an entry whose name is the protocol's in some spelling lists a version from `v` on, then so does the
first entry that has exactly this name. -/
def FirstSpeaks (list : List UInt8) (tp : ProtocolType) (v : ℕ) : Prop :=
  ∀ entries, IsList list entries →
    (∃ e ∈ entries, strcaseEq e.name (protocolTypeToStr tp) = true ∧ ListsFrom e v) →
      ∃ entry, IsFirstNamed entries (protocolTypeToStr tp) entry ∧ ListsFrom entry v

/-- **The two queries agree** exactly on the lists whose first entry speaks for the others. -/
theorem orLater_iff (list : List UInt8) (tp : ProtocolType) (hv : v ≤ maxProtocolVersion) :
    (protocolListSupportsProtocolOrLater list tp v = true ↔
      ∃ w, v ≤ w ∧ w ≤ maxProtocolVersion ∧ protocolListSupportsProtocol list tp w = true) ↔
      FirstSpeaks list tp v := by
  have hexact : (∃ w, v ≤ w ∧ w ≤ maxProtocolVersion ∧ protocolListSupportsProtocol list tp w = true) ↔
      ∃ entries entry, IsList list entries ∧ IsFirstNamed entries (protocolTypeToStr tp) entry ∧
        ListsFrom entry v := by
    simp only [protocolListSupportsProtocol_iff, ListsFrom]
    constructor
    · rintro ⟨w, hle, hw, _, entries, entry, hlist, hfirst, hbit⟩
      exact ⟨entries, entry, hlist, hfirst, w, hle, hw, hbit⟩
    · rintro ⟨entries, entry, hlist, hfirst, w, hle, hw, hbit⟩
      exact ⟨w, hle, hw, hw, entries, entry, hlist, hfirst, hbit⟩
  rw [hexact, protocolListSupportsProtocolOrLater_iff hv]
  constructor
  · intro h entries hlist hany
    obtain ⟨entries', entry, hlist', hfirst, hlists⟩ := h.mp ⟨entries, hlist, hany⟩
    have heq := parseProtocolList_iff.mpr hlist
    rw [parseProtocolList_iff.mpr hlist'] at heq
    cases heq
    exact ⟨entry, hfirst, hlists⟩
  · intro h
    constructor
    · rintro ⟨entries, hlist, hany⟩
      obtain ⟨entry, hfirst, hlists⟩ := h entries hlist hany
      exact ⟨entries, entry, hlist, hfirst, hlists⟩
    · -- the first entry with exactly this name is among those that the second query looks at
      rintro ⟨entries, entry, hlist, ⟨hname, before, after, rfl, _⟩, hlists⟩
      refine ⟨_, hlist, entry, List.mem_append_right _ List.mem_cons_self, ?_, hlists⟩
      rw [hname, strcaseEq, decide_eq_true_eq]

/-- `Link=1-5`, from version 2 on. -/
theorem orLater_iff_link :
    (protocolListSupportsProtocolOrLater (bytes "Link=1-5") .link 2 = true ↔
      ∃ w, 2 ≤ w ∧ w ≤ maxProtocolVersion ∧
        protocolListSupportsProtocol (bytes "Link=1-5") .link w = true) ↔
      FirstSpeaks (bytes "Link=1-5") .link 2 :=
  orLater_iff (bytes "Link=1-5") .link (by decide)

end Answers

/-- A second entry for `Link`, and another spelling of it: version 5 is there for one query only. -/
theorem not_orLater_link :
    (protocolListSupportsProtocolOrLater (bytes "Link=1 Link=5") .link 5 = true ∧
      ∀ w, 5 ≤ w → w ≤ maxProtocolVersion →
        protocolListSupportsProtocol (bytes "Link=1 Link=5") .link w = false) ∧
    protocolListSupportsProtocolOrLater (bytes "link=5") .link 5 = true ∧
      ∀ w, protocolListSupportsProtocol (bytes "link=5") .link w = false := by
  have htwo : parseProtocolList (bytes "Link=1 Link=5") = some [⟨bytes "Link", 2⟩, ⟨bytes "Link", 32⟩] := by
    decide +kernel
  have hlower : parseProtocolList (bytes "link=5") = some [⟨bytes "link", 32⟩] := by decide +kernel
  refine ⟨⟨by decide +kernel, fun w hle hw => ?_⟩, by decide +kernel, fun w => ?_⟩
  · have hfind : findEntryByName [⟨bytes "Link", 2⟩, ⟨bytes "Link", 32⟩] (protocolTypeToStr .link)
        = some ⟨bytes "Link", 2⟩ := by decide +kernel
    rw [protocolListSupportsProtocol, htwo]
    dsimp only
    rw [protocolListContains, if_neg (Nat.not_lt.mpr hw), hfind]
    have hbit : ∀ w, w < 64 → 5 ≤ w → (2 : BitVec 64).getLsbD w = false := by decide +kernel
    have hmax : maxProtocolVersion = 63 := rfl
    dsimp only
    rw [decide_eq_false_iff_not, and_bit_ne_zero_iff (by omega), hbit w (by omega) hle]
    exact Bool.false_ne_true
  · have hfind : findEntryByName [⟨bytes "link", 32⟩] (protocolTypeToStr .link) = none := by decide +kernel
    rw [protocolListSupportsProtocol, hlower]
    dsimp only
    rw [protocolListContains, hfind]
    exact ite_self false

end TorEbpf.Or.Protover
