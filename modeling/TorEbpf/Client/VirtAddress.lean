import TorEbpf.Client.VirtRange

/-!
# The reverse map of virtual addresses

`virtaddress_reversemap` records for an address to which virtual addresses it has been given, and is to be
kept in step with `addressmap`: what it records is virtual, and is mapped there.  The maps are changed by the
operations of `addressmap.c`; an operation can also read a string that is absent, or that has been freed.

* `virtaddressRemove_spec` — what the one helper undoes;
* `removeWhere_inv`, `register_inv`, `registerVirtual_inv` — the operations, on the condition that there is
  nothing to undo that the helper does not;
* `reversemap_of_run` — so the maps are in step after every run of such operations.
-/

namespace TorEbpf.Client

open TorEbpf.Lib TorEbpf.Net TorEbpf.Or

/-! ### The maps -/

def strmapSet {α : Type} (map : StrMap α) (key : CString) (val : α) : StrMap α :=
  (key, val) :: map.filter (·.1 ≠ key)

def strmapRemove {α : Type} (map : StrMap α) (key : CString) : StrMap α := map.filter (·.1 ≠ key)

structure VirtaddressEntry where
  ipv4Address : Option CString
  ipv6Address : Option CString
  hostnameAddress : Option CString
  deriving DecidableEq, Repr

/-- `virtaddress_reversemap`; an entry that has been freed and is still there is `none`. -/
abbrev ReverseMap := StrMap (Option VirtaddressEntry)

/-- `addressmap` and `virtaddress_reversemap`. -/
structure VirtState where
  addressmap : StrMap AddressmapEntry
  reversemap : ReverseMap
  deriving DecidableEq, Repr

def addressmapInit : VirtState := ⟨[], []⟩

/-! ### Removing mappings -/

/-- `if (!strcmp(address, slot)) tor_free(slot)`. -/
def freeIfSame (address : CString) : Option CString → Except VirtFault (Option CString)
  | none => .error .absent
  | some s => .ok (if address = s then none else some s)

/-- `addressmap_virtaddress_remove`; there is no `address` if the caller has freed it. -/
def addressmapVirtaddressRemove (ranges : VirtualRanges) (rev : ReverseMap) (address : Option CString)
    (ent : AddressmapEntry) : Except VirtFault ReverseMap :=
  match ent.newAddress with
  | none => .ok rev
  | some target =>
    if addressIsInVirtualRange ranges target then
      match strmapGet rev target with
      | none => .ok rev
      | some none => .error .freed
      | some (some ve) =>
        match address with
        | none => .error .freed
        | some address => do
          let ipv4 ← freeIfSame address ve.ipv4Address
          let ipv6 ← freeIfSame address ve.ipv6Address
          let hostname ← freeIfSame address ve.hostnameAddress
          if ipv4.isNone && ipv6.isNone && hostname.isNone then return strmapRemove rev target
          else return strmapSet rev target (some ⟨ipv4, ipv6, hostname⟩)
    else .ok rev

/-- The loops that remove mappings: `addressmap_ent_remove` for each one that passes the test, and the entry is
taken out of `addressmap`, with its key before that if `keyFreed`. -/
def removeWhere (ranges : VirtualRanges) (keyFreed : Bool)
    (test : CString → AddressmapEntry → Except VirtFault Bool) (st : VirtState) : Except VirtFault VirtState :=
  st.addressmap.foldlM (fun st e => do
    if ← test e.1 e.2 then
      let rev ← addressmapVirtaddressRemove ranges st.reversemap (if keyFreed then none else some e.1) e.2
      return ⟨strmapRemove st.addressmap e.1, rev⟩
    else return st) st

/-- The test of `clear_trackexithost_mappings`, for the suffix in lower case. -/
def trackexitTest (suffix : CString) (_address : CString) (ent : AddressmapEntry) : Except VirtFault Bool :=
  if ent.source = .trackexit then
    match ent.newAddress with
    | none => .error .absent
    | some target => .ok (endsWith target suffix)
  else .ok false

/-- `".%s.exit"`, in lower case. -/
def trackexitSuffix (exitname : CString) : CString := (0x2e :: exitname ++ dotExit).map toLower

def clearTrackexithostMappings (ranges : VirtualRanges) (exitname : Option CString) (st : VirtState) :
    Except VirtFault VirtState :=
  match exitname with
  | none => .ok st
  | some exitname => removeWhere ranges false (trackexitTest (trackexitSuffix exitname)) st

/-- The name of the node in a target that ends in `.exit`. -/
def exitNodename (target : CString) : CString :=
  ((target.take (target.length - 5)).reverse.takeWhile (· ≠ 0x2e)).reverse

/-- The test of `addressmap_clear_excluded_trackexithosts`: `unwanted` says of the name of a node and an address
that the node is not known or not allowed, or the address is not in `TrackHostExits`. -/
def excludedTest (unwanted : CString → CString → Bool) (address : CString) (ent : AddressmapEntry) :
    Except VirtFault Bool :=
  match ent.newAddress with
  | none => .ok false
  | some target =>
    if !endsWith target dotExit then .ok false
    else if ent.source ≠ .trackexit then .ok false
    else if target.length < 6 then .ok false
    else .ok (unwanted (exitNodename target) address)

/-- `addressmap_clear_excluded_trackexithosts`, when nodes are allowed or excluded. -/
def clearExcludedTrackexithosts (ranges : VirtualRanges) (unwanted : CString → CString →
    Bool) (st : VirtState) :
    Except VirtFault VirtState := removeWhere ranges false (excludedTest unwanted) st

def addressShouldAutomap (address : CString) (suffixes : List CString) : Bool :=
  suffixes.any fun suffix => suffix == [0x2e] || endsNoCase address suffix

/-- The test of `addressmap_clear_invalid_automaps`. -/
def automapTest (ranges : VirtualRanges) (automapHostsOnResolve : Bool) (suffixes : Option (List CString))
    (srcAddress : CString) (ent : AddressmapEntry) : Except VirtFault Bool :=
  if ent.source ≠ .automap then .ok false
  else if !automapHostsOnResolve then .ok true
  else
    match suffixes with
    | none => .ok true
    | some suffixes =>
      if !addressShouldAutomap srcAddress suffixes then .ok true
      else
        match ent.newAddress with
        | none => .error .assertion
        | some target => .ok (!addressIsInVirtualRange ranges target)

def clearInvalidAutomaps (ranges : VirtualRanges) (automapHostsOnResolve : Bool)
    (suffixes : Option (List CString)) (st : VirtState) : Except VirtFault VirtState :=
  removeWhere ranges false (automapTest ranges automapHostsOnResolve suffixes) st

/-- The test of `addressmap_get_mappings`. -/
def expiresTest (minExpires maxExpires : ℤ) (_key : CString) (val : AddressmapEntry) : Except VirtFault Bool :=
  .ok (minExpires ≤ val.expires ∧ val.expires ≤ maxExpires)

/-- `addressmap_get_mappings` without a list: the entry is freed with its key before the mapping is removed. -/
def clearMappings (ranges : VirtualRanges) (minExpires maxExpires : ℤ) (st : VirtState) :
    Except VirtFault VirtState := removeWhere ranges true (expiresTest minExpires maxExpires) st

/-! ### Registering mappings -/

/-- The arguments of `addressmap_register`. -/
structure Registration where
  address : CString
  newAddress : Option CString
  expires : ℤ
  source : AddressmapSource
  wildcardAddr : Bool
  wildcardNewAddr : Bool
  wildcard : wildcardNewAddr = true → wildcardAddr = true

/-- The call removes the mapping of its address. -/
def Registration.removes (r : Registration) : Bool :=
  match r.newAddress with
  | none => true
  | some new => sameNoCase r.address new && r.wildcardAddr == r.wildcardNewAddr

def Registration.entry (r : Registration) : AddressmapEntry where
  newAddress := r.newAddress
  expires := if r.expires = 2 then 1 else r.expires
  source := r.source
  srcWildcard := r.wildcardAddr
  dstWildcard := r.wildcardNewAddr
  numResolveFailures := 0

def addressmapRegister (ranges : VirtualRanges) (r : Registration)
    (st : VirtState) : Except VirtFault VirtState :=
  let set (rev : ReverseMap) : VirtState := ⟨strmapSet st.addressmap r.address r.entry, rev⟩
  match strmapGet st.addressmap r.address with
  | none => .ok (if r.removes then st else set st.reversemap)
  | some ent =>
    if r.removes then do
      let rev ← addressmapVirtaddressRemove ranges st.reversemap (some r.address) ent
      return ⟨strmapRemove st.addressmap r.address, rev⟩
    else
      match ent.newAddress with
      | none => .ok (set st.reversemap)
      | some target =>
        if 1 < r.expires then .ok st
        else if addressIsInVirtualRange ranges target ∧ r.expires ≠ 2 then do
          let rev ← addressmapVirtaddressRemove ranges st.reversemap (some r.address) ent
          return set rev
        else .ok (set st.reversemap)

def VirtaddressEntry.slot (ve : VirtaddressEntry) : ResolvedType → Option CString
  | .ipv4 => ve.ipv4Address
  | .ipv6 => ve.ipv6Address
  | .hostname | .unsupported => ve.hostnameAddress

def VirtaddressEntry.setSlot (ve : VirtaddressEntry) (type : ResolvedType)
    (address : CString) : VirtaddressEntry :=
  match type with
  | .ipv4 => { ve with ipv4Address := some address }
  | .ipv6 => { ve with ipv6Address := some address }
  | .hostname | .unsupported => { ve with hostnameAddress := some address }

/-- `addressmap` maps `address` to `target`. -/
def mapsTo (map : StrMap AddressmapEntry) (address target : CString) : Bool :=
  match strmapGet map address with
  | some ent => ent.newAddress.any fun new => sameNoCase target new
  | none => false

/-- What `addressmap_register_virtual_address` maps the address it has found to. -/
def virtualRegistration (address newAddress : CString) : Registration where
  address := address
  newAddress := some newAddress
  expires := 2
  source := .automap
  wildcardAddr := false
  wildcardNewAddr := false
  wildcard h := h

/-- `addressmap_register_virtual_address`, from where no address is recorded that maps to `newAddress`:
`found` says that `vent` is in the map. -/
def registerFresh (ranges : VirtualRanges) (type : ResolvedType) (newAddress : CString) (draws : Draws)
    (vent : VirtaddressEntry) (found : Bool)
      (st : VirtState) : Except VirtFault (VirtState × Option CString) := do
  match ← addressmapGetVirtualAddress ranges st.addressmap type draws with
  | none =>
    -- `vent` is freed, and stays where it is
    return (⟨st.addressmap, if found then strmapSet st.reversemap newAddress none else st.reversemap⟩, none)
  | some address =>
    let rev := strmapSet st.reversemap newAddress (some (vent.setSlot type address))
    let st ← addressmapRegister ranges (virtualRegistration address newAddress) ⟨st.addressmap, rev⟩
    return (st, some address)

def addressmapRegisterVirtualAddress (ranges : VirtualRanges) (type : ResolvedType) (newAddress : CString)
    (draws : Draws) (st : VirtState) : Except VirtFault (VirtState × Option CString) :=
  match strmapGet st.reversemap newAddress with
  | some none => .error .freed
  | some (some vent) =>
    match vent.slot type with
    | some address =>
      if mapsTo st.addressmap address newAddress then .ok (st, some address)
      else registerFresh ranges type newAddress draws vent true st
    | none => registerFresh ranges type newAddress draws vent true st
  | none => registerFresh ranges type newAddress draws ⟨none, none, none⟩ false st

/-! ### Runs -/

inductive VirtOp where
  | register (r : Registration)
  | registerVirtual (type : ResolvedType) (newAddress : CString) (draws : Draws)
  | clearTrackexit (exitname : Option CString)
  | clearExcluded (unwanted : CString → CString → Bool)
  | clearAutomaps (automapHostsOnResolve : Bool) (suffixes : Option (List CString))
  | clear (minExpires maxExpires : ℤ)

def VirtOp.step (ranges : VirtualRanges) (st : VirtState) : VirtOp → Except VirtFault VirtState
  | .register r => addressmapRegister ranges r st
  | .registerVirtual type newAddress draws =>
    (addressmapRegisterVirtualAddress ranges type newAddress draws st).map Prod.fst
  | .clearTrackexit exitname => clearTrackexithostMappings ranges exitname st
  | .clearExcluded unwanted => clearExcludedTrackexithosts ranges unwanted st
  | .clearAutomaps onResolve suffixes => clearInvalidAutomaps ranges onResolve suffixes st
  | .clear minExpires maxExpires => clearMappings ranges minExpires maxExpires st

def virtRun (ranges : VirtualRanges) (ops : List VirtOp) : Except VirtFault VirtState :=
  ops.foldlM (VirtOp.step ranges) addressmapInit

/-- The reverse map records `address` for `target`. -/
def Records (rev : ReverseMap) (target address : CString) : Prop :=
  ∃ ve, strmapGet rev target = some (some ve) ∧ ∃ type : ResolvedType, ve.slot type = some address

/-- **The maps are in step**: what the reverse map records is virtual, and is mapped to its target. -/
structure InStep (ranges : VirtualRanges) (st : VirtState) : Prop where
  isVirtual : ∀ target address, Records st.reversemap target address →
    addressIsInVirtualRange ranges address = true
  mapped : ∀ target address, Records st.reversemap target address →
    mapsTo st.addressmap address target = true

/-! ### Maps and their keys -/

section Maps

variable {α : Type} {map : StrMap α} {key key' : CString} {val : α}

theorem strmapGet_cons (e : CString × α) (map : StrMap α) (key : CString) :
    strmapGet (e :: map) key = if e.1 = key then some e.2 else strmapGet map key := by
  unfold strmapGet
  by_cases h : e.1 = key
  · rw [List.find?_cons_of_pos (by simpa using h), if_pos h]
    rfl
  · rw [List.find?_cons_of_neg (by simpa using h), if_neg h]

theorem strmapGet_remove_ne (h : key' ≠ key) : strmapGet (strmapRemove map key) key' = strmapGet map key' := by
  induction map with
  | nil => rfl
  | cons e map ih =>
    rw [strmapRemove, strmapGet_cons] at *
    by_cases he : e.1 = key
    · rw [List.filter_cons_of_neg (by simpa using he), ih, if_neg fun heq => h (by rw [← heq, he])]
    · rw [List.filter_cons_of_pos (by simpa using he), strmapGet_cons, ih]

theorem strmapGet_remove_self : strmapGet (strmapRemove map key) key = none := by
  induction map with
  | nil => rfl
  | cons e map ih =>
    rw [strmapRemove] at *
    by_cases he : e.1 = key
    · rwa [List.filter_cons_of_neg (by simpa using he)]
    · rwa [List.filter_cons_of_pos (by simpa using he), strmapGet_cons, if_neg he]

theorem strmapGet_set_self : strmapGet (strmapSet map key val) key = some val := by
  rw [strmapSet, strmapGet_cons, if_pos rfl]

theorem strmapGet_set_ne (h : key' ≠ key) : strmapGet (strmapSet map key val) key' = strmapGet map key' := by
  rw [strmapSet, strmapGet_cons, if_neg fun heq => h heq.symm]
  exact strmapGet_remove_ne h

theorem mem_of_strmapGet (h : strmapGet map key = some val) : (key, val) ∈ map := by
  obtain ⟨e, he, rfl⟩ := Option.map_eq_some_iff.mp h
  have hkey : e.1 = key := by simpa using List.find?_some he
  rw [← hkey]
  exact List.mem_of_find?_eq_some he

theorem mem_strmapSet {e : CString × α} (h : e ∈ strmapSet map key val) : e = (key, val) ∨ e ∈ map :=
  (List.mem_cons.mp h).imp id fun he => (List.mem_filter.mp he).1

end Maps

section Records

variable {ranges : VirtualRanges} {rev rev' : ReverseMap} {target address : CString} {ve : VirtaddressEntry}

theorem slot_iff : (∃ type : ResolvedType, ve.slot type = some address) ↔
    ve.ipv4Address = some address ∨ ve.ipv6Address = some address ∨ ve.hostnameAddress = some address := by
  constructor
  · rintro ⟨type, htype⟩
    cases type with
    | ipv4 => exact .inl htype
    | ipv6 => exact .inr (.inl htype)
    | hostname => exact .inr (.inr htype)
    | unsupported => exact .inr (.inr htype)
  · rintro (h | h | h)
    · exact ⟨.ipv4, h⟩
    · exact ⟨.ipv6, h⟩
    · exact ⟨.hostname, h⟩

theorem records_iff (h : strmapGet rev target = some (some ve)) : Records rev target address ↔
    ve.ipv4Address = some address ∨ ve.ipv6Address = some address ∨ ve.hostnameAddress = some address := by
  rw [← slot_iff]
  constructor
  · rintro ⟨ve', hve', hslot⟩
    rw [h] at hve'
    cases hve'
    exact hslot
  · exact fun hslot => ⟨ve, h, hslot⟩

theorem records_congr (h : strmapGet rev' target = strmapGet rev target) :
    Records rev' target address ↔ Records rev target address := by
  unfold Records
  rw [h]

/-- No entry of the reverse map has been freed. -/
def Live (rev : ReverseMap) : Prop := ∀ target, strmapGet rev target ≠ some none

/-- The helper undoes something for this mapping. -/
def Undoes (ranges : VirtualRanges) (ent : AddressmapEntry) (target : CString) : Prop :=
  ent.newAddress = some target ∧ addressIsInVirtualRange ranges target = true

/-- The helper finds all the strings that it compares. -/
def Comparable (ranges : VirtualRanges) (rev : ReverseMap) (keyFreed : Bool) (ent : AddressmapEntry) : Prop :=
  ∀ target ve, Undoes ranges ent target → strmapGet rev target = some (some ve) →
    keyFreed = false ∧ ve.ipv4Address.isSome ∧ ve.ipv6Address.isSome ∧ ve.hostnameAddress.isSome

theorem freeIfSame_eq_some {s : CString} {a : CString} :
    (if address = s then none else some s) = some a ↔ s = a ∧ a ≠ address := by
  by_cases h : address = s
  · rw [if_pos h]
    exact iff_of_false (by simp) fun hboth => hboth.2 (by rw [h, hboth.1])
  · rw [if_neg h, Option.some.injEq]
    exact ⟨fun heq => ⟨heq, fun hsame => h (by rw [heq, hsame])⟩, fun hboth => hboth.1⟩

theorem virtaddressRemove_three {ent : AddressmapEntry} (hundo : Undoes ranges ent target) {a4 a6 ahost : CString}
    (hget : strmapGet rev target = some (some ⟨some a4, some a6, some ahost⟩)) :
    ∃ rev', addressmapVirtaddressRemove ranges rev (some address) ent = .ok rev' ∧
      (∀ t, t ≠ target → strmapGet rev' t = strmapGet rev t) ∧
      strmapGet rev' target ≠ some none ∧
      (∀ a, Records rev' target a ↔ Records rev target a ∧ a ≠ address) ∧
      (¬Records rev target address → strmapGet rev' target = strmapGet rev target) := by
  let ve : VirtaddressEntry := ⟨if address = a4 then none else some a4, if address = a6 then none else some a6,
    if address = ahost then none else some ahost⟩
  have heval : addressmapVirtaddressRemove ranges rev (some address) ent =
      .ok (if ve.ipv4Address.isNone && ve.ipv6Address.isNone && ve.hostnameAddress.isNone
        then strmapRemove rev target else strmapSet rev target (some ve)) := by
    rw [addressmapVirtaddressRemove, hundo.1]
    simp only [hundo.2, if_true, hget]
    show (if (ve.ipv4Address.isNone && ve.ipv6Address.isNone && ve.hostnameAddress.isNone) = true
      then pure (strmapRemove rev target) else pure (strmapSet rev target (some ve))) = _
    split_ifs <;> rfl
  have hslots : ∀ a, (ve.ipv4Address = some a ∨ ve.ipv6Address = some a ∨ ve.hostnameAddress = some a) ↔
      Records rev target a ∧ a ≠ address := by
    intro a
    rw [records_iff hget, Option.some.injEq, Option.some.injEq, Option.some.injEq, or_and_right, or_and_right]
    exact or_congr freeIfSame_eq_some (or_congr freeIfSame_eq_some freeIfSame_eq_some)
  refine ⟨_, heval, ?_⟩
  split_ifs with hnone
  · -- the last address has been freed, and the entry with it
    have hempty : ve.ipv4Address = none ∧ ve.ipv6Address = none ∧ ve.hostnameAddress = none := by
      simpa [and_assoc] using hnone
    have hnot : ∀ a, ¬(Records rev target a ∧ a ≠ address) := by
      intro a ha
      rw [← hslots, hempty.1, hempty.2.1, hempty.2.2] at ha
      simp at ha
    refine ⟨fun t ht => strmapGet_remove_ne ht, by rw [strmapGet_remove_self]; simp, fun a => ?_,
      fun hrecords => ?_⟩
    · refine iff_of_false ?_ (hnot a)
      rintro ⟨ve', hve', -⟩
      rw [strmapGet_remove_self] at hve'
      cases hve'
    · have ha4 : Records rev target a4 := (records_iff hget).mpr (.inl rfl)
      exact absurd ⟨ha4, fun heq => hrecords (heq ▸ ha4)⟩ (hnot a4)
  · refine ⟨fun t ht => strmapGet_set_ne ht, by rw [strmapGet_set_self]; simp, fun a => ?_, fun hrecords => ?_⟩
    · rw [records_iff strmapGet_set_self, hslots]
    · have hne : address ≠ a4 ∧ address ≠ a6 ∧ address ≠ ahost := by
        rw [records_iff hget, Option.some.injEq, Option.some.injEq, Option.some.injEq, not_or,
          not_or] at hrecords
        exact ⟨Ne.symm hrecords.1, Ne.symm hrecords.2.1, Ne.symm hrecords.2.2⟩
      have hve : ve = ⟨some a4, some a6, some ahost⟩ := by
        simp only [ve, if_neg hne.1, if_neg hne.2.1, if_neg hne.2.2]
      rw [strmapGet_set_self, hget, hve]

/-- The helper without an entry for the target, or when the target is not virtual. -/
theorem virtaddressRemove_nothing {ent : AddressmapEntry}
    (h : ∀ target, Undoes ranges ent target → strmapGet rev target = none) (key : Option CString) :
    addressmapVirtaddressRemove ranges rev key ent = .ok rev := by
  unfold addressmapVirtaddressRemove
  match hnew : ent.newAddress with
  | none => rfl
  | some target =>
    dsimp only
    by_cases hvirtual : addressIsInVirtualRange ranges target = true
    · rw [if_pos hvirtual, h target ⟨hnew, hvirtual⟩]
    · rw [if_neg hvirtual]

/-- **What the helper undoes**: if the target is virtual, the record of the address for it. -/
theorem virtaddressRemove_spec (hlive : Live rev) (address : CString) {keyFreed : Bool} {ent : AddressmapEntry}
    (hcomparable : Comparable ranges rev keyFreed ent) :
    ∃ rev', addressmapVirtaddressRemove ranges rev (if keyFreed then none else some address) ent = .ok rev' ∧
      Live rev' ∧
      (∀ t a, Records rev' t a ↔ Records rev t a ∧ ¬(Undoes ranges ent t ∧ a = address)) ∧
      ∀ t, ¬Records rev t address → strmapGet rev' t = strmapGet rev t := by
  by_cases hact : ∃ target ve, Undoes ranges ent target ∧ strmapGet rev target = some (some ve)
  · obtain ⟨target, ⟨slot4, slot6, slotHost⟩, hundo, hget⟩ := hact
    obtain ⟨rfl, h4, h6, hhost⟩ := hcomparable target _ hundo hget
    obtain ⟨a4, rfl⟩ := Option.isSome_iff_exists.mp h4
    obtain ⟨a6, rfl⟩ := Option.isSome_iff_exists.mp h6
    obtain ⟨ahost, rfl⟩ := Option.isSome_iff_exists.mp hhost
    obtain ⟨rev', heval, hother, hfreed, hrecords, hkeep⟩ := virtaddressRemove_three hundo hget
    have htarget : ∀ t, Undoes ranges ent t → t = target := fun t ht =>
      Option.some.inj (ht.1.symm.trans hundo.1)
    refine ⟨rev', heval, fun t => ?_, fun t a => ?_, fun t ht => ?_⟩
    · by_cases heq : t = target
      · rw [heq]
        exact hfreed
      · rw [hother t heq]
        exact hlive t
    · by_cases heq : t = target
      · rw [heq, hrecords a]
        simp [hundo]
      · rw [records_congr (hother t heq)]
        exact ⟨fun h => ⟨h, fun hboth => heq (htarget t hboth.1)⟩, fun h => h.1⟩
    · by_cases heq : t = target
      · rw [heq] at ht ⊢
        exact hkeep ht
      · exact hother t heq
  · have hnothing : ∀ target, Undoes ranges ent target → strmapGet rev target = none := by
      intro target hundo
      match hget : strmapGet rev target with
      | none => rfl
      | some none => exact absurd hget (hlive target)
      | some (some ve) => exact absurd ⟨target, ve, hundo, hget⟩ hact
    refine ⟨rev, virtaddressRemove_nothing hnothing _, hlive, fun t a => ?_, fun t _ => rfl⟩
    refine ⟨fun h => ⟨h, fun hboth => ?_⟩, fun h => h.1⟩
    obtain ⟨ve, hve, -⟩ := h
    rw [hnothing t hboth.1] at hve
    cases hve

end Records

/-! ### The operations keep the maps in step -/

section Operations

variable {ranges : VirtualRanges} {st : VirtState}

/-- The maps are in step, no mapping is without a target, and no entry of the reverse map has been freed. -/
structure VirtInv (ranges : VirtualRanges) (st : VirtState) : Prop extends InStep ranges st where
  targets : ∀ e ∈ st.addressmap, e.2.newAddress.isSome
  live : Live st.reversemap

theorem virtInv_init (ranges : VirtualRanges) : VirtInv ranges addressmapInit where
  isVirtual := by
    rintro target address ⟨ve, hve, -⟩
    cases hve
  mapped := by
    rintro target address ⟨ve, hve, -⟩
    cases hve
  targets := fun e he => by cases he
  live := fun target h => by cases h

theorem mapsTo_congr {map map' : StrMap AddressmapEntry} {address : CString} (target : CString)
    (h : strmapGet map' address = strmapGet map address) : mapsTo map' address target =
      mapsTo map address target := by
  rw [mapsTo, mapsTo, h]

theorem VirtInv.not_records (h : VirtInv ranges st) {address : CString}
    (hget : strmapGet st.addressmap address = none) (target : CString) : ¬Records st.reversemap target address := by
  intro hrecords
  have hmapped := h.mapped target address hrecords
  rw [mapsTo, hget] at hmapped
  cases hmapped

/-- A mapping is taken away, or replaced: all that is recorded for its address is undone, or still holds of the
new mapping. -/
theorem VirtInv.withdraw (h : VirtInv ranges st) (address : CString) {ent : AddressmapEntry} {keyFreed : Bool}
    (hcomparable : Comparable ranges st.reversemap keyFreed ent) (map' : StrMap AddressmapEntry)
    (hother : ∀ a, a ≠ address → strmapGet map' a = strmapGet st.addressmap a)
    (htargets : ∀ e ∈ map', e.2.newAddress.isSome)
    (hrecorded : ∀ target, Records st.reversemap target address →
      Undoes ranges ent target ∨ mapsTo map' address target = true) :
    ∃ rev', addressmapVirtaddressRemove ranges st.reversemap (if keyFreed then none else some address) ent =
        .ok rev' ∧ VirtInv ranges ⟨map', rev'⟩ ∧
      (∀ t a, Records rev' t a → Records st.reversemap t a) ∧
      ∀ t, ¬Records st.reversemap t address → strmapGet rev' t = strmapGet st.reversemap t := by
  obtain ⟨rev', heval, hlive, hrecords, hkeep⟩ := virtaddressRemove_spec h.live address hcomparable
  refine ⟨rev', heval, ⟨⟨?_, ?_⟩, htargets, hlive⟩, fun t a ht => ((hrecords t a).mp ht).1, hkeep⟩
  · intro t a ht
    exact h.isVirtual t a ((hrecords t a).mp ht).1
  · intro t a ht
    obtain ⟨hold, hnot⟩ := (hrecords t a).mp ht
    by_cases heq : a = address
    · rw [heq] at hold ⊢
      exact (hrecorded t hold).resolve_left fun hundo => hnot ⟨hundo, heq⟩
    · rw [mapsTo_congr t (hother a heq)]
      exact h.mapped t a hold

/-- Mappings that can be removed one after the other: each is one for which the helper finds all its strings and
undoes all that is recorded, and no two of them have one virtual target for which one of them is recorded. -/
structure RemovalsOk (ranges : VirtualRanges) (rev : ReverseMap) (keyFreed : Bool)
    (l : List (CString × AddressmapEntry)) : Prop where
  comparable : ∀ e ∈ l, Comparable ranges rev keyFreed e.2
  recorded : ∀ e ∈ l, ∀ target, Records rev target e.1 → Undoes ranges e.2 target
  apart : l.Pairwise fun e e' => ∀ target, Undoes ranges e.2 target → Undoes ranges e'.2 target →
    ¬Records rev target e.1 ∧ ¬Records rev target e'.1

/-- The mappings that pass the test. -/
def passing (test : CString → AddressmapEntry → Except VirtFault Bool) (l : List (CString × AddressmapEntry)) :
    List (CString × AddressmapEntry) := l.filter fun e => test e.1 e.2 matches .ok true

/-- After the first removal the others can still be done. -/
theorem RemovalsOk.tail {rev rev' : ReverseMap} {keyFreed : Bool} {e : CString × AddressmapEntry}
    {l : List (CString × AddressmapEntry)} (h : RemovalsOk ranges rev keyFreed (e :: l))
    (hsub : ∀ t a, Records rev' t a → Records rev t a)
    (hkeep : ∀ t, ¬Records rev t e.1 → strmapGet rev' t =
      strmapGet rev t) : RemovalsOk ranges rev' keyFreed l := by
  obtain ⟨hhead, htail⟩ := List.pairwise_cons.mp h.apart
  refine ⟨fun e' he' target ve hundo hget => ?_, fun e' he' target hrecords => ?_, htail.imp fun hpair => ?_⟩
  · have hnot : ¬Records rev target e.1 := fun hrecords =>
      (hhead e' he' target (h.recorded e List.mem_cons_self target hrecords) hundo).1 hrecords
    rw [hkeep target hnot] at hget
    exact h.comparable e' (List.mem_cons_of_mem _ he') target ve hundo hget
  · exact h.recorded e' (List.mem_cons_of_mem _ he') target (hsub target e'.1 hrecords)
  · intro target hundo hundo'
    obtain ⟨hnot, hnot'⟩ := hpair target hundo hundo'
    exact ⟨fun hrecords => hnot (hsub _ _ hrecords), fun hrecords => hnot' (hsub _ _ hrecords)⟩

/-- **The loops** that remove mappings. -/
theorem removeWhere_inv (h : VirtInv ranges st) {keyFreed : Bool}
    {test : CString → AddressmapEntry → Except VirtFault Bool}
    (htest : ∀ address ent, ent.newAddress.isSome → ∃ b, test address ent = .ok b)
    (hok : RemovalsOk ranges st.reversemap keyFreed (passing test st.addressmap)) :
    ∃ st', removeWhere ranges keyFreed test st = .ok st' ∧ VirtInv ranges st' := by
  have hsome := h.targets
  unfold removeWhere
  generalize st.addressmap = l at hok hsome
  -- over the mappings that the loop has not come to
  induction l generalizing st with
  | nil => exact ⟨st, rfl, h⟩
  | cons e l ih =>
    obtain ⟨he, hl⟩ := List.forall_mem_cons.mp hsome
    obtain ⟨b, hb⟩ := htest e.1 e.2 he
    rw [List.foldlM_cons, hb]
    cases b with
    | false =>
      have hpass : passing test (e :: l) = passing test l := by
        rw [passing, List.filter_cons_of_neg (by simp [hb]), passing]
      rw [hpass] at hok
      exact ih h hok hl
    | true =>
      have hpass : passing test (e :: l) = e :: passing test l := by
        rw [passing, List.filter_cons_of_pos (by simp [hb]), passing]
      rw [hpass] at hok
      obtain ⟨rev', heval, hinv, hsub, hkeep⟩ :=
        h.withdraw e.1 (hok.comparable e List.mem_cons_self) (strmapRemove st.addressmap e.1)
          (fun a ha => strmapGet_remove_ne ha) (fun e' he' => h.targets e' (List.mem_filter.mp he').1)
          (fun target hrecords => .inl (hok.recorded e List.mem_cons_self target hrecords))
      obtain ⟨st', hst', hinv'⟩ := ih hinv (hok.tail hsub hkeep) hl
      refine ⟨st', ?_, hinv'⟩
      show ((do
        let rev ← addressmapVirtaddressRemove ranges st.reversemap (if keyFreed =
          true then none else some e.1) e.2
        pure (VirtState.mk (strmapRemove st.addressmap e.1) rev)) >>= _) = _
      rw [heval]
      exact hst'

/-- A registration that removes or replaces a mapping leaves nothing behind. -/
def RegisterOk (ranges : VirtualRanges) (st : VirtState) (r : Registration) : Prop :=
  ∀ ent, strmapGet st.addressmap r.address = some ent → r.removes = true ∨ r.expires ≤ 1 →
    Comparable ranges st.reversemap false ent ∧
      ∀ target, Records st.reversemap target r.address →
        Undoes ranges ent target ∨ r.removes = false ∧ r.newAddress.any (fun new => sameNoCase target new) =
          true

theorem mapsTo_strmapSet (map : StrMap AddressmapEntry) (r : Registration) (target : CString) :
    mapsTo (strmapSet map r.address r.entry) r.address target =
      r.newAddress.any fun new => sameNoCase target new := by
  rw [mapsTo, strmapGet_set_self]
  rfl

theorem targets_strmapSet (h : VirtInv ranges st) {r : Registration} (hremoves : r.removes = false) :
    ∀ e ∈ strmapSet st.addressmap r.address r.entry, e.2.newAddress.isSome := by
  intro e he
  rcases mem_strmapSet he with rfl | he
  · show r.newAddress.isSome
    cases hnew : r.newAddress with
    | none => simp [Registration.removes, hnew] at hremoves
    | some new => rfl
  · exact h.targets e he

/-- **Registering a mapping.** -/
theorem register_inv (h : VirtInv ranges st) {r : Registration} (hok : RegisterOk ranges st r) :
    ∃ st', addressmapRegister ranges r st = .ok st' ∧ VirtInv ranges st' := by
  unfold addressmapRegister
  dsimp only
  cases hget : strmapGet st.addressmap r.address with
  | none =>
    cases hremoves : r.removes with
    | true => exact ⟨st, rfl, h⟩
    | false =>
      refine ⟨_, rfl, ⟨⟨h.isVirtual, ?_⟩, targets_strmapSet h hremoves, h.live⟩⟩
      intro target a hrecords
      have hne : a ≠ r.address := fun heq => h.not_records hget target (heq ▸ hrecords)
      exact (mapsTo_congr target (strmapGet_set_ne hne)).trans (h.mapped target a hrecords)
  | some ent =>
    have hent : ent.newAddress.isSome := h.targets _ (mem_of_strmapGet hget)
    obtain ⟨old, hold⟩ := Option.isSome_iff_exists.mp hent
    dsimp only
    cases hremoves : r.removes with
    | true =>
      obtain ⟨hcomparable, hrecorded⟩ := hok ent hget (.inl hremoves)
      obtain ⟨rev', heval, hinv, -, -⟩ :=
        h.withdraw r.address hcomparable (strmapRemove st.addressmap r.address)
        (fun a ha => strmapGet_remove_ne ha) (fun e he => h.targets e (List.mem_filter.mp he).1)
        (fun target hrecords => (hrecorded target hrecords).imp id fun hkept => by simp [hremoves] at hkept)
      refine ⟨_, ?_, hinv⟩
      rw [if_pos rfl, show addressmapVirtaddressRemove ranges st.reversemap (some r.address) ent =
        .ok rev' from heval]
      rfl
    | false =>
      rw [if_neg (by decide), hold]
      dsimp only
      by_cases hexpires : 1 < r.expires
      · rw [if_pos hexpires]
        exact ⟨st, rfl, h⟩
      · rw [if_neg hexpires]
        obtain ⟨hcomparable, hrecorded⟩ := hok ent hget (.inr (by omega))
        obtain ⟨rev', heval, hinv, -, -⟩ := h.withdraw r.address hcomparable
          (strmapSet st.addressmap r.address r.entry) (fun a ha => strmapGet_set_ne ha)
            (targets_strmapSet h hremoves)
          (fun target hrecords => (hrecorded target hrecords).imp id fun hkept => by
            rw [mapsTo_strmapSet]
            exact hkept.2)
        refine ⟨_, ?_, hinv⟩
        by_cases hvirtual : addressIsInVirtualRange ranges old = true
        · rw [if_pos ⟨hvirtual, by omega⟩,
            show addressmapVirtaddressRemove ranges st.reversemap (some r.address) ent = .ok rev' from heval]
          rfl
        · have hnothing : addressmapVirtaddressRemove ranges st.reversemap (some r.address) ent =
              .ok st.reversemap := by
            refine virtaddressRemove_nothing (fun target hundo => absurd ?_ hvirtual) _
            rw [← Option.some.inj (hundo.1.symm.trans hold)]
            exact hundo.2
          obtain rfl : st.reversemap = rev' := Except.ok.inj (hnothing.symm.trans heval)
          rw [if_neg fun hboth => hvirtual hboth.1]

/-- A fresh virtual address for `newAddress` is found, other than `newAddress` itself; or none is, and the
reverse map has no entry for `newAddress`. -/
def RegisterVirtualOk (ranges : VirtualRanges) (st : VirtState) (type : ResolvedType) (newAddress : CString)
    (draws : Draws) : Prop :=
  (∀ ve, strmapGet st.reversemap newAddress = some (some ve) → ve.slot type = none) →
    ∀ found, addressmapGetVirtualAddress ranges st.addressmap type draws = .ok found →
      match found with
      | none => strmapGet st.reversemap newAddress = none
      | some address => sameNoCase address newAddress = false

theorem slot_setSlot {ve : VirtaddressEntry} {type type' : ResolvedType} {address a : CString}
    (h : (ve.setSlot type address).slot type' = some a) : a = address ∨ ve.slot type' = some a := by
  cases type <;> cases type' <;> simp_all [VirtaddressEntry.setSlot, VirtaddressEntry.slot]

/-- The virtual address is looked for. -/
theorem registerFresh_inv (h : VirtInv ranges st) {type : ResolvedType} {newAddress : CString} {draws : Draws}
    {vent : VirtaddressEntry} {found : Bool}
    (hvent : ∀ type' a, vent.slot type' = some a → Records st.reversemap newAddress a)
    (hok : ∀ address?, addressmapGetVirtualAddress ranges st.addressmap type draws = .ok address? →
      match address? with
      | none => found = false
      | some address => sameNoCase address newAddress = false) :
    registerFresh ranges type newAddress draws vent found st = .error .endless ∨
      ∃ r, registerFresh ranges type newAddress draws vent found st = .ok r ∧ VirtInv ranges r.1 := by
  unfold registerFresh
  rcases getVirtualAddress_spec ranges st.addressmap type draws with hendless | ⟨address?, hget, hspec⟩
  · rw [hendless]
    exact .inl rfl
  · have hcond := hok address? hget
    rw [hget]
    right
    cases address? with
    | none =>
      obtain rfl : found = false := hcond
      exact ⟨_, rfl, h⟩
    | some address =>
      obtain ⟨hvirtual, hfree⟩ := hspec address rfl
      have hremoves : (virtualRegistration address newAddress).removes = false := by
        show (sameNoCase address newAddress && _) = false
        rw [show sameNoCase address newAddress = false from hcond, Bool.false_and]
      have hregister : addressmapRegister ranges (virtualRegistration address newAddress)
          ⟨st.addressmap, strmapSet st.reversemap newAddress (some (vent.setSlot type address))⟩ =
          .ok ⟨strmapSet st.addressmap address (virtualRegistration address newAddress).entry,
            strmapSet st.reversemap newAddress (some (vent.setSlot type address))⟩ := by
        rw [addressmapRegister, show (virtualRegistration address newAddress).address = address from rfl]
        simp only [hfree, hremoves]
        rfl
      refine ⟨(⟨strmapSet st.addressmap address (virtualRegistration address newAddress).entry,
        strmapSet st.reversemap newAddress (some (vent.setSlot type address))⟩, some address), ?_, ?_⟩
      · show (addressmapRegister ranges (virtualRegistration address newAddress)
          ⟨st.addressmap, strmapSet st.reversemap newAddress (some (vent.setSlot type address))⟩ >>=
            fun st => pure (st, some address)) = _
        rw [hregister]
        rfl
      -- what is recorded now is the fresh address, or was recorded before
      have hrecords : ∀ t a, Records (strmapSet st.reversemap newAddress (some (vent.setSlot type address))) t a →
          t = newAddress ∧ a = address ∨ Records st.reversemap t a := by
        rintro t a ⟨ve, hve, type', hslot⟩
        by_cases heq : t = newAddress
        · rw [heq, strmapGet_set_self] at hve
          cases hve
          rcases slot_setSlot hslot with ha | hold
          · exact .inl ⟨heq, ha⟩
          · exact .inr (heq ▸ hvent type' a hold)
        · rw [strmapGet_set_ne heq] at hve
          exact .inr ⟨ve, hve, type', hslot⟩
      refine ⟨⟨fun t a ht => ?_, fun t a ht => ?_⟩, targets_strmapSet h hremoves, fun t => ?_⟩
      · rcases hrecords t a ht with ⟨-, rfl⟩ | hold
        · exact hvirtual
        · exact h.isVirtual t a hold
      · rcases hrecords t a ht with ⟨rfl, rfl⟩ | hold
        · refine (mapsTo_strmapSet st.addressmap (virtualRegistration a t) t).trans ?_
          simp [virtualRegistration, sameNoCase]
        · have hne : a ≠ address := fun heq => h.not_records hfree t (heq ▸ hold)
          exact (mapsTo_congr t (strmapGet_set_ne hne)).trans (h.mapped t a hold)
      · by_cases heq : t = newAddress
        · rw [heq, strmapGet_set_self]
          simp
        · rw [strmapGet_set_ne heq]
          exact h.live t

/-- **Registering a virtual address.** -/
theorem registerVirtual_inv (h : VirtInv ranges st) {type : ResolvedType} {newAddress : CString} {draws : Draws}
    (hok : RegisterVirtualOk ranges st type newAddress draws) :
    addressmapRegisterVirtualAddress ranges type newAddress draws st = .error .endless ∨
      ∃ r, addressmapRegisterVirtualAddress ranges type newAddress draws st = .ok r ∧ VirtInv ranges r.1 := by
  unfold addressmapRegisterVirtualAddress
  match hget : strmapGet st.reversemap newAddress with
  | some none => exact absurd hget (h.live newAddress)
  | some (some vent) =>
    dsimp only
    have hvent : ∀ type' a, vent.slot type' = some a → Records st.reversemap newAddress a :=
      fun type' a hslot => ⟨vent, hget, type', hslot⟩
    cases hslot : vent.slot type with
    | some address =>
      dsimp only
      rw [if_pos (h.mapped newAddress address (hvent type address hslot))]
      exact .inr ⟨_, rfl, h⟩
    | none =>
      refine registerFresh_inv h hvent fun address? haddress => ?_
      have hcond := hok (fun ve hve => by cases hget.symm.trans hve; exact hslot) address? haddress
      cases address? with
      | none => exact absurd (hget.symm.trans hcond) (by simp)
      | some address => exact hcond
  | none =>
    refine registerFresh_inv h (fun type' a hslot => by cases type' <;> cases hslot) fun address? haddress => ?_
    have hcond := hok (fun ve hve => by cases hget.symm.trans hve) address? haddress
    cases address? with
    | none => rfl
    | some address => exact hcond

end Operations

/-! ### All runs -/

/-- The operation leaves nothing behind and finds all that it reads. -/
def VirtOp.Ok (ranges : VirtualRanges) (st : VirtState) : VirtOp → Prop
  | .register r => RegisterOk ranges st r
  | .registerVirtual type newAddress draws => RegisterVirtualOk ranges st type newAddress draws
  | .clearTrackexit exitname => ∀ name ∈ exitname, RemovalsOk ranges st.reversemap false
      (passing (trackexitTest (trackexitSuffix name)) st.addressmap)
  | .clearExcluded unwanted =>
    RemovalsOk ranges st.reversemap false (passing (excludedTest unwanted) st.addressmap)
  | .clearAutomaps onResolve suffixes =>
    RemovalsOk ranges st.reversemap false (passing (automapTest ranges onResolve suffixes) st.addressmap)
  | .clear minExpires maxExpires =>
    RemovalsOk ranges st.reversemap true (passing (expiresTest minExpires maxExpires) st.addressmap)

/-- Each step of a run meets the condition in the state before it. -/
def RunOk (ranges : VirtualRanges) : VirtState → List VirtOp → Prop
  | _, [] => True
  | st, op :: ops => op.Ok ranges st ∧ ∀ st', op.step ranges st = .ok st' → RunOk ranges st' ops

theorem trackexitTest_ok (suffix address : CString) {ent : AddressmapEntry} (h : ent.newAddress.isSome) :
    ∃ b, trackexitTest suffix address ent = .ok b := by
  obtain ⟨target, htarget⟩ := Option.isSome_iff_exists.mp h
  unfold trackexitTest
  rw [htarget]
  split_ifs
  · exact ⟨_, rfl⟩
  · exact ⟨_, rfl⟩

theorem excludedTest_ok (unwanted : CString → CString → Bool) (address : CString) (ent : AddressmapEntry) :
    ∃ b, excludedTest unwanted address ent = .ok b := by
  unfold excludedTest
  cases ent.newAddress with
  | none => exact ⟨_, rfl⟩
  | some target =>
    dsimp only
    split_ifs
    all_goals exact ⟨_, rfl⟩

theorem automapTest_ok (ranges : VirtualRanges) (onResolve : Bool) (suffixes : Option (List CString))
    (address : CString) {ent : AddressmapEntry} (h : ent.newAddress.isSome) :
    ∃ b, automapTest ranges onResolve suffixes address ent = .ok b := by
  obtain ⟨target, htarget⟩ := Option.isSome_iff_exists.mp h
  unfold automapTest
  rw [htarget]
  cases suffixes with
  | none => split_ifs <;> exact ⟨_, rfl⟩
  | some suffixes =>
    dsimp only
    split_ifs
    all_goals exact ⟨_, rfl⟩

/-- **One operation** that meets the condition keeps the maps in step. -/
theorem VirtOp.step_inv {ranges : VirtualRanges} {st : VirtState} {op : VirtOp} (h : VirtInv ranges st)
    (hok : op.Ok ranges st) :
    op.step ranges st = .error .endless ∨ ∃ st', op.step ranges st = .ok st' ∧ VirtInv ranges st' := by
  cases op with
  | register r => exact .inr (register_inv h hok)
  | registerVirtual type newAddress draws =>
    rcases registerVirtual_inv h hok with hendless | ⟨r, hr, hinv⟩
    · left
      rw [VirtOp.step, hendless]
      rfl
    · right
      refine ⟨r.1, ?_, hinv⟩
      rw [VirtOp.step, hr]
      rfl
  | clearTrackexit exitname =>
    cases exitname with
    | none => exact .inr ⟨st, rfl, h⟩
    | some name => exact .inr (removeWhere_inv h (fun a ent => trackexitTest_ok _ a) (hok name rfl))
  | clearExcluded unwanted => exact .inr (removeWhere_inv h (fun a ent _ => excludedTest_ok unwanted a ent) hok)
  | clearAutomaps onResolve suffixes =>
    exact .inr (removeWhere_inv h (fun a ent => automapTest_ok ranges onResolve suffixes a) hok)
  | clear minExpires maxExpires => exact .inr (removeWhere_inv h (fun a ent _ => ⟨_, rfl⟩) hok)

theorem foldlM_step_inv {ranges : VirtualRanges} {st : VirtState} (ops : List VirtOp) (h : VirtInv ranges st)
    (hrun : RunOk ranges st ops) :
    ops.foldlM (VirtOp.step ranges) st = .error .endless ∨
      ∃ st', ops.foldlM (VirtOp.step ranges) st = .ok st' ∧ VirtInv ranges st' := by
  induction ops generalizing st with
  | nil => exact .inr ⟨st, rfl, h⟩
  | cons op ops ih =>
    rw [List.foldlM_cons]
    rcases VirtOp.step_inv h hrun.1 with hendless | ⟨st', hst', hinv⟩
    · rw [hendless]
      exact .inl rfl
    · rw [hst']
      exact ih hinv (hrun.2 st' hst')

/-- **The reverse map** stays in step with `addressmap`, and no string is read that is absent or has been
freed, in every run whose steps all leave nothing behind; only names can be drawn without an end. -/
theorem reversemap_of_run (ranges : VirtualRanges) (ops : List VirtOp)
    (hrun : RunOk ranges addressmapInit ops) :
    virtRun ranges ops = .error .endless ∨ ∃ st, virtRun ranges ops = .ok st ∧ InStep ranges st := by
  rcases foldlM_step_inv ops (virtInv_init ranges) hrun with hendless | ⟨st, hst, hinv⟩
  · exact .inl hendless
  · exact .inr ⟨st, hst, hinv.toInStep⟩

def defaultRanges : VirtualRanges where
  ipv4 := 0x7fc00000
  bits4 := 10
  ipv6 := ⟨0xfe :: 0x80 :: List.replicate 14 0, by decide⟩
  bits6 := 10
  bits4_le := by decide
  bits6_le := by decide

theorem length_sixteenZeros : (List.replicate 16 (0 : UInt8)).length = 16 := rfl

def zeroDraws : Draws where
  names := [⟨List.replicate 10 0, by decide⟩]
  addresses := List.replicate 1000 ⟨List.replicate 16 0, length_sixteenZeros⟩
  attempts := List.length_replicate

/-- The name `aaaaaaaaaaaaaaaa.virtual`, which is found then. -/
def virtualName : CString := List.replicate 16 0x61 ++ dotVirtual

/-- The host `b`, and a virtual address for it. -/
def registerB : VirtOp := .registerVirtual .hostname [0x62] zeroDraws

/-- The mapping of `c` to `d`, and its removal. -/
def mapC (newAddress : Option CString) : VirtOp :=
  .register ⟨[0x63], newAddress, 5, .dns, false, false, fun h => absurd h Bool.false_ne_true⟩

/-- The maps after `registerB`, and with further mappings. -/
def stateB (further : StrMap AddressmapEntry) : VirtState :=
  ⟨further ++ [(virtualName, (virtualRegistration virtualName [0x62]).entry)],
    [([0x62], some ⟨none, none, some virtualName⟩)]⟩

theorem registerOk_mapC {further : StrMap AddressmapEntry} {r : Registration} (haddress : r.address = [0x63])
    (hfurther : (strmapGet (stateB further).addressmap [0x63]).all (·.newAddress = some [0x64]) = true) :
    RegisterOk defaultRanges (stateB further) r := by
  intro ent hent _
  rw [haddress] at hent ⊢
  refine ⟨fun target ve hundo _ => ?_, fun target hrecords => ?_⟩
  · rw [hent, Option.all_some, decide_eq_true_eq, hundo.1] at hfurther
    cases hfurther
    exact absurd hundo.2 (by decide +kernel)
  · obtain ⟨ve, hve, type, hslot⟩ := hrecords
    rw [stateB, strmapGet_cons] at hve
    split_ifs at hve
    · cases hve
      cases type <;> cases hslot
    · cases hve

theorem runOk_registerB :
    RunOk defaultRanges addressmapInit [registerB, mapC (some [0x64]), mapC none] := by
  have hname : addressmapGetVirtualAddress defaultRanges [] .hostname zeroDraws = .ok (some virtualName) := by
    decide +kernel
  refine ⟨fun _ found hfound => ?_, fun st hst => ?_⟩
  · obtain rfl : some virtualName = found := Except.ok.inj (hname.symm.trans hfound)
    decide +kernel
  · obtain rfl : stateB [] = st := Except.ok.inj (Eq.trans (by decide +kernel) hst)
    refine ⟨registerOk_mapC rfl (by decide +kernel), fun st hst => ?_⟩
    obtain rfl : stateB [([0x63], ⟨some [0x64], 5, .dns, false, false, 0⟩)] = st :=
      Except.ok.inj (Eq.trans (by decide +kernel) hst)
    exact ⟨registerOk_mapC rfl (by decide +kernel), fun _ _ => trivial⟩

/-- A virtual address is registered, then another mapping, which is removed again. -/
theorem reversemap_of_run_registerB :
    virtRun defaultRanges [registerB, mapC (some [0x64]), mapC none] = .error .endless ∨
      ∃ st, virtRun defaultRanges [registerB, mapC (some [0x64]), mapC none] = .ok st ∧ InStep defaultRanges st :=
  reversemap_of_run defaultRanges _ runOk_registerB

/-- A mapping to a host is cleared and stays recorded; of one to a virtual address, the addresses are compared
that its entry does not have; and when no address is found for a host that has a virtual name, its entry is
freed, and then read. -/
theorem not_inStep :
    (∃ st, virtRun defaultRanges [registerB, .clearAutomaps false none] = .ok st ∧ ¬InStep defaultRanges st) ∧
      virtRun defaultRanges [.registerVirtual .hostname ([0x62] ++ dotVirtual) zeroDraws,
        .register ⟨virtualName, none, 0, .controller, false, false, id⟩] = .error .absent ∧
      virtRun defaultRanges [registerB, .registerVirtual .ipv4 [0x62] zeroDraws, registerB] = .error .freed :=
        by
  refine ⟨⟨⟨[], [([0x62], some ⟨none, none, some virtualName⟩)]⟩, by decide +kernel, fun h => ?_⟩, ?_, ?_⟩
  · have hmapped := h.mapped [0x62] virtualName ⟨⟨none, none, some virtualName⟩, rfl, .hostname, rfl⟩
    cases hmapped
  · decide +kernel
  · decide +kernel

end TorEbpf.Client
