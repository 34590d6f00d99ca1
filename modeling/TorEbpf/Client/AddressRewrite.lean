import TorEbpf.Net.InetRoundTrip
import TorEbpf.Net.PtrName

/-!
# Rewriting addresses

`addressmap_rewrite` applies the mappings of `addressmap` to an address, one after the other, in the
caller's buffer of `maxlen` bytes; `addressmap_match_superdomains` looks for a wildcard mapping of a
superdomain, and cuts the superdomain off if the mapping puts another in its place.

* `addressmapMatchSuperdomains_spec` — it finds the longest superdomain;
* `rewriteRound_cases` — what one round of the loop does;
* `addressmapRewrite_wholeRules_iff` — all that happens to an address is the application of whole, allowed
  mappings iff each of the addresses it goes through fits into the buffer and none of them meets a
  mapping from superdomain to superdomain that is not applied.
-/

namespace TorEbpf.Client

open TorEbpf.Lib TorEbpf.Net TorEbpf.Or

/-! ### The map -/

abbrev CString := List UInt8

/-- `addressmap_entry_source_t`. -/
inductive AddressmapSource where
  | controller
  | automap
  | torrc
  | trackexit
  | dns
  | none
  deriving DecidableEq, Repr

structure AddressmapEntry where
  newAddress : Option CString
  expires : ℤ
  source : AddressmapSource
  srcWildcard : Bool
  dstWildcard : Bool
  numResolveFailures : ℤ
  deriving DecidableEq, Repr

abbrev StrMap (α : Type) := List (CString × α)

def strmapGet {α : Type} (map : StrMap α) (key : CString) : Option α :=
  (map.find? (·.1 = key)).map Prod.snd

def strmapGetLc {α : Type} (map : StrMap α) (key : CString) : Option α := strmapGet map (key.map toLower)

/-! ### The functions -/

/-- `AMR_FLAG_USE_IPV4_DNS` and the other flags. -/
def amrFlagUseIpv4Dns : UInt32 := 1
def amrFlagUseIpv6Dns : UInt32 := 2
def amrFlagUseMapaddress : UInt32 := 4
def amrFlagUseAutomap : UInt32 := 8
def amrFlagUseTrackexit : UInt32 := 16

/-- The loop of `addressmap_match_superdomains` from `cp` on, `before` being what is in front of it: the
entry, and what is in the buffer afterwards. -/
def matchSuperdomainsLoop (map : StrMap AddressmapEntry) (before : CString) :
    CString → Option AddressmapEntry × CString
  | [] => (none, before)
  | c :: cp =>
    if c = 0x2e then
      match strmapGetLc map cp with
      | some val =>
        if val.srcWildcard then (some val, if val.dstWildcard then before else before ++ c :: cp)
        else matchSuperdomainsLoop map (before ++ [c]) cp
      | none => matchSuperdomainsLoop map (before ++ [c]) cp
    else matchSuperdomainsLoop map (before ++ [c]) cp

def addressmapMatchSuperdomains (map : StrMap AddressmapEntry) (address : CString) :
    Option AddressmapEntry × CString := matchSuperdomainsLoop map [] address

/-- `strlcpy(dst, src, siz)`. -/
def strlcpy (src : CString) (siz : ℕ) : CString := src.take (siz - 1)

def strlcat (dst src : CString) (siz : ℕ) : CString :=
  if siz ≤ dst.length then dst else dst ++ src.take (siz - 1 - dst.length)

/-- The family of the address that a text is parsed to, if there is one. -/
def familyOfText (text : CString) : Option SaFamily :=
  match torAddrParse text with
  | .ok (some addr) => some (addrFamily addr)
  | _ => none

/-- The flags allow the use of a mapping to `newAddress`. -/
def allowed (flags : UInt32) (ent : AddressmapEntry) (newAddress : CString) : Bool :=
  match ent.source with
  | .dns =>
    let f := familyOfText newAddress
    if f = some .inet ∧ flags &&& amrFlagUseIpv4Dns = 0 then false
    else if f = some .inet6 ∧ flags &&& amrFlagUseIpv6Dns = 0 then false
    else true
  | .controller | .torrc => flags &&& amrFlagUseMapaddress != 0
  | .automap => flags &&& amrFlagUseAutomap != 0
  | .trackexit => flags &&& amrFlagUseTrackexit != 0
  | .none => false

/-- `!strcmpend(s1, s2)`. -/
def endsWith (s1 s2 : CString) : Bool :=
  if s1.length < s2.length then s1 == s2 else s1.drop (s1.length - s2.length) == s2

def dotExit : CString := [0x2e, 0x65, 0x78, 0x69, 0x74]

/-- What one round of the loop does: it leaves an address in the buffer, and either goes to `done`, or has
applied an entry. -/
inductive Round where
  | done (address : CString)
  | rewritten (address : CString) (ent : AddressmapEntry)

/-- The round after an entry has been looked for: `address` is what is in the buffer. -/
def applyEntry (flags : UInt32) (maxlen : ℕ) (address : CString) (ent : AddressmapEntry) (exactMatch : Bool) :
    Round :=
  match ent.newAddress with
  | none => .done address
  | some new =>
    if !allowed flags ent new then .done address
    else if ent.dstWildcard && !exactMatch then
      .rewritten (strlcat (strlcat address [0x2e] maxlen) new maxlen) ent
    else .rewritten (strlcpy new maxlen) ent

/-- The round without an exact match. -/
def superdomainRound (map : StrMap AddressmapEntry) (flags : UInt32) (maxlen : ℕ) (address : CString) : Round :=
  match addressmapMatchSuperdomains map address with
  | (none, address') => .done address'
  | (some ent, address') => applyEntry flags maxlen address' ent false

def rewriteRound (map : StrMap AddressmapEntry) (flags : UInt32) (maxlen : ℕ) (address : CString) : Round :=
  match strmapGet map address with
  | none => superdomainRound map flags maxlen address
  | some ent =>
    match ent.newAddress with
    | none => superdomainRound map flags maxlen address
    | some new =>
      -- `*.example.com example.com` has nothing to do for `example.com`
      if ent.srcWildcard && !ent.dstWildcard && sameNoCase address new then .done address
      else applyEntry flags maxlen address ent true

def timeMax : ℤ := 2 ^ 63 - 1

/-- What `addressmap_rewrite` leaves behind: the buffer, the rewrites it has logged, and what it stores in
`*expires_out` and `*exit_source_out`. -/
structure Rewritten where
  address : CString
  rewrites : List (CString × CString)
  expires : ℤ
  exitSource : AddressmapSource
  deriving DecidableEq, Repr

/-- The loop of `addressmap_rewrite`, for at most `rounds` rounds. -/
def rewriteLoop (map : StrMap AddressmapEntry) (flags : UInt32) (maxlen : ℕ) (addrOrig : CString) :
    ℕ → CString → ℤ → AddressmapSource → Rewritten
  | 0, address, expires, exitSource => ⟨address, [], expires, exitSource⟩
  | rounds + 1, address, expires, exitSource =>
    match rewriteRound map flags maxlen address with
    | .done address' => ⟨address', [], expires, exitSource⟩
    | .rewritten address' ent =>
      let exitSource :=
        if endsWith address' dotExit && !endsWith addrOrig dotExit && exitSource = .none then ent.source
        else exitSource
      let expires := if ent.expires > 1 && ent.expires < expires then ent.expires else expires
      let rest := rewriteLoop map flags maxlen addrOrig rounds address' expires exitSource
      { rest with rewrites := (address, address') :: rest.rewrites }

/-- `addressmap_rewrite`: the value returned, and what is left behind. -/
def addressmapRewrite (map : StrMap AddressmapEntry) (address : CString) (maxlen : ℕ) (flags : UInt32) :
    Bool × Rewritten :=
  let r := rewriteLoop map flags maxlen address 16 address timeMax .none
  (decide (r.rewrites.length > 0), r)

/-! ### Whole mappings -/

/-- A wildcard mapping of the superdomain `suf` of an address `pre.suf`. -/
def WildcardAt (map : StrMap AddressmapEntry) (address pre suf : CString) (ent : AddressmapEntry) : Prop :=
  address = pre ++ 0x2e :: suf ∧ strmapGetLc map suf = some ent ∧ ent.srcWildcard = true

/-- The same, where no wildcard mapping is of a longer superdomain. -/
def LongestSuperdomain (map : StrMap AddressmapEntry) (address pre suf : CString)
    (ent : AddressmapEntry) : Prop :=
  WildcardAt map address pre suf ent ∧
    ∀ pre' suf' ent', WildcardAt map address pre' suf' ent' → suf'.length ≤ suf.length

def exactMapping (map : StrMap AddressmapEntry) (address : CString) : Option (AddressmapEntry × CString) :=
  (strmapGet map address).bind fun ent => ent.newAddress.map fun new => (ent, new)

/-- **A whole mapping** leads from one address to another: the address's own, unless it maps a domain and its
subdomains to the domain; or, if it has none of its own, that of its longest superdomain. -/
inductive Maps (map : StrMap AddressmapEntry) (address : CString) : AddressmapEntry → CString → CString →
  Prop where
  | exact {ent new} (hget : exactMapping map address = some (ent, new))
      (hdone : ¬ (ent.srcWildcard && !ent.dstWildcard && sameNoCase address new)) : Maps map address ent new new
  | domain {pre suf ent new} (hexact : exactMapping map address = none)
      (hlongest : LongestSuperdomain map address pre suf ent) (hnew : ent.newAddress = some new)
      (hdst : ent.dstWildcard = false) : Maps map address ent new new
  | subdomain {pre suf ent new} (hexact : exactMapping map address = none)
      (hlongest : LongestSuperdomain map address pre suf ent) (hnew : ent.newAddress = some new)
      (hdst : ent.dstWildcard = true) : Maps map address ent new (pre ++ 0x2e :: new)

/-- One application of a whole mapping that the flags allow. -/
def Rewrites (map : StrMap AddressmapEntry) (flags : UInt32) (address address' : CString) : Prop :=
  ∃ ent new, Maps map address ent new address' ∧ allowed flags ent new

/-- The address meets a mapping from superdomain to superdomain that is not applied. -/
def Blocked (map : StrMap AddressmapEntry) (flags : UInt32) (address : CString) : Prop :=
  exactMapping map address = none ∧ ∃ pre suf ent, LongestSuperdomain map address pre suf ent ∧
    ent.dstWildcard = true ∧ ∀ new, ent.newAddress = some new → allowed flags ent new = false

/-! ### The search for a superdomain -/

section Search

variable {map : StrMap AddressmapEntry}

theorem wildcardAt_cons_iff {c : UInt8} {cp pre suf : CString} {ent : AddressmapEntry} :
    WildcardAt map (c :: cp) pre suf ent ↔
      (pre = [] ∧ c = 0x2e ∧ suf = cp ∧ strmapGetLc map cp = some ent ∧ ent.srcWildcard = true) ∨
        ∃ p, pre = c :: p ∧ WildcardAt map cp p suf ent := by
  unfold WildcardAt
  constructor
  · rintro ⟨heq, hget, hwild⟩
    rcases List.cons_eq_append_iff.mp heq with ⟨rfl, htail⟩ | ⟨p, rfl, htail⟩
    · obtain ⟨hc, rfl⟩ := List.cons.inj htail
      exact .inl ⟨rfl, hc.symm, rfl, hget, hwild⟩
    · exact .inr ⟨p, rfl, htail, hget, hwild⟩
  · rintro (⟨rfl, rfl, rfl, hget, hwild⟩ | ⟨p, rfl, heq, hget, hwild⟩)
    · exact ⟨rfl, hget, hwild⟩
    · exact ⟨by rw [heq, List.cons_append], hget, hwild⟩

theorem matchSuperdomainsLoop_cons {c : UInt8} {cp : CString}
    (hno : ¬ ∃ ent, WildcardAt map (c :: cp) [] cp ent) (before : CString) :
    matchSuperdomainsLoop map before (c :: cp) = matchSuperdomainsLoop map (before ++ [c]) cp := by
  rw [matchSuperdomainsLoop]
  by_cases hc : c = 0x2e
  · rw [if_pos hc]
    cases hget : strmapGetLc map cp with
    | none => rfl
    | some val =>
      have hwild : ¬ val.srcWildcard = true := by
        intro hwild
        exact hno ⟨val, by rw [hc, List.nil_append], hget, hwild⟩
      exact if_neg hwild
  · exact if_neg hc

/-- The loop stops at the longest superdomain with a wildcard mapping, or at none. -/
theorem matchSuperdomainsLoop_spec (map : StrMap AddressmapEntry) (before rest : CString) :
    (∃ pre suf ent, WildcardAt map rest pre suf ent ∧
        (∀ pre' suf' ent', WildcardAt map rest pre' suf' ent' → suf'.length ≤ suf.length) ∧
        matchSuperdomainsLoop map before rest =
          (some ent, before ++ if ent.dstWildcard then pre else rest)) ∨
      ((¬ ∃ pre suf ent, WildcardAt map rest pre suf ent) ∧
        matchSuperdomainsLoop map before rest = (none, before ++ rest)) := by
  induction rest generalizing before with
  | nil =>
    right
    refine ⟨?_, by rw [matchSuperdomainsLoop, List.append_nil]⟩
    rintro ⟨pre, suf, ent, heq, -⟩
    exact absurd heq.symm (List.append_ne_nil_of_right_ne_nil _ (List.cons_ne_nil _ _))
  | cons c cp ih =>
    by_cases hhit : ∃ ent, WildcardAt map (c :: cp) [] cp ent
    · obtain ⟨ent, heq, hget, hwild⟩ := hhit
      left
      refine ⟨[], cp, ent, ⟨heq, hget, hwild⟩, ?_, ?_⟩
      · rintro pre' suf' ent' ⟨heq', -⟩
        have hlen := congrArg List.length heq'
        simp only [List.length_cons, List.length_append] at hlen
        omega
      · rw [matchSuperdomainsLoop, if_pos (List.cons.inj heq).1, hget]
        dsimp only
        rw [if_pos hwild]
        cases ent.dstWildcard <;> simp
    · rw [matchSuperdomainsLoop_cons hhit]
      have hskip : ∀ pre suf ent, WildcardAt map (c :: cp) pre suf ent → ∃ p, pre =
          c :: p ∧ WildcardAt map cp p suf ent := by
        intro pre suf ent hw
        rcases wildcardAt_cons_iff.mp hw with ⟨rfl, -, rfl, -, -⟩ | hrest
        · exact absurd ⟨ent, hw⟩ hhit
        · exact hrest
      rcases ih (before ++ [c]) with ⟨pre, suf, ent, hw, hlongest, hloop⟩ | ⟨hnone, hloop⟩
      · left
        refine ⟨c :: pre, suf, ent, wildcardAt_cons_iff.mpr (.inr ⟨pre, rfl, hw⟩), ?_, ?_⟩
        · intro pre' suf' ent' hw'
          obtain ⟨p, -, hp⟩ := hskip _ _ _ hw'
          exact hlongest p suf' ent' hp
        · rw [hloop]
          cases ent.dstWildcard <;> simp
      · right
        refine ⟨?_, by rw [hloop, List.append_assoc]; rfl⟩
        rintro ⟨pre, suf, ent, hw⟩
        obtain ⟨p, -, hp⟩ := hskip _ _ _ hw
        exact hnone ⟨p, suf, ent, hp⟩

/-- **The search** finds the longest superdomain, and cuts it off if another is to take its place. -/
theorem addressmapMatchSuperdomains_spec (map : StrMap AddressmapEntry) (address : CString) :
    (∃ pre suf ent, LongestSuperdomain map address pre suf ent ∧
        addressmapMatchSuperdomains map address = (some ent, if ent.dstWildcard then pre else address)) ∨
      ((¬ ∃ pre suf ent, LongestSuperdomain map address pre suf ent) ∧
        addressmapMatchSuperdomains map address = (none, address)) := by
  unfold addressmapMatchSuperdomains
  rcases matchSuperdomainsLoop_spec map [] address with
    ⟨pre, suf, ent, hw, hlongest, hloop⟩ | ⟨hnone, hloop⟩
  · exact .inl ⟨pre, suf, ent, ⟨hw, hlongest⟩, hloop⟩
  · refine .inr ⟨?_, hloop⟩
    rintro ⟨pre, suf, ent, hw, -⟩
    exact hnone ⟨pre, suf, ent, hw⟩

theorem LongestSuperdomain.unique {address pre pre' suf suf' : CString} {ent ent' : AddressmapEntry}
    (h : LongestSuperdomain map address pre suf ent) (h' : LongestSuperdomain map address pre' suf' ent') :
    pre = pre' ∧ ent = ent' := by
  obtain ⟨⟨heq, hget, hwild⟩, hlongest⟩ := h
  obtain ⟨⟨heq', hget', hwild'⟩, hlongest'⟩ := h'
  have hlen : suf.length = suf'.length :=
    le_antisymm (hlongest' _ _ _ ⟨heq, hget, hwild⟩) (hlongest _ _ _ ⟨heq', hget', hwild'⟩)
  have hsame := List.append_inj' (heq.symm.trans heq') (by simp [hlen])
  obtain ⟨-, rfl⟩ := List.cons.inj hsame.2
  rw [hget] at hget'
  exact ⟨hsame.1, Option.some.inj hget'⟩

end Search

/-! ### A round -/

section Round

variable {map : StrMap AddressmapEntry} {flags : UInt32} {maxlen : ℕ} {address : CString}

theorem Maps.unique {ent ent' : AddressmapEntry} {new new' a a' : CString} (h : Maps map address ent new a)
    (h' : Maps map address ent' new' a') : ent = ent' ∧ new = new' ∧ a = a' := by
  cases h with
  | exact hget hdone =>
    cases h' with
    | exact hget' hdone' =>
      rw [hget] at hget'
      cases hget'
      exact ⟨rfl, rfl, rfl⟩
    | domain hexact | subdomain hexact =>
      rw [hget] at hexact
      cases hexact
  | domain hexact hlongest hnew hdst =>
    cases h' with
    | exact hget' =>
      rw [hexact] at hget'
      cases hget'
    | domain _ hlongest' hnew' =>
      obtain ⟨-, rfl⟩ := hlongest.unique hlongest'
      rw [hnew] at hnew'
      cases hnew'
      exact ⟨rfl, rfl, rfl⟩
    | subdomain _ hlongest' _ hdst' =>
      obtain ⟨-, rfl⟩ := hlongest.unique hlongest'
      rw [hdst] at hdst'
      cases hdst'
  | subdomain hexact hlongest hnew hdst =>
    cases h' with
    | exact hget' =>
      rw [hexact] at hget'
      cases hget'
    | domain _ hlongest' _ hdst' =>
      obtain ⟨-, rfl⟩ := hlongest.unique hlongest'
      rw [hdst] at hdst'
      cases hdst'
    | subdomain _ hlongest' hnew' =>
      obtain ⟨rfl, rfl⟩ := hlongest.unique hlongest'
      rw [hnew] at hnew'
      cases hnew'
      exact ⟨rfl, rfl, rfl⟩

theorem Rewrites.unique {a a' : CString} (h : Rewrites map flags address a)
    (h' : Rewrites map flags address a') :
    a = a' := by
  obtain ⟨ent, new, hmaps, -⟩ := h
  obtain ⟨ent', new', hmaps', -⟩ := h'
  exact (hmaps.unique hmaps').2.2

/-- An address in the buffer of `maxlen` bytes, cut if it is too long. -/
def cut (maxlen : ℕ) (a : CString) : CString := a.take (maxlen - 1)

theorem cut_eq_iff {a : CString} (hpos : 0 < maxlen) : cut maxlen a = a ↔ a.length < maxlen := by
  unfold cut
  rw [List.take_eq_self_iff]
  omega

theorem length_cut_lt {a : CString} (hpos : 0 < maxlen) : (cut maxlen a).length < maxlen := by
  have := List.length_take_le (maxlen - 1) a
  unfold cut
  omega

theorem strlcat_eq_cut {dst src : CString} (h : dst.length < maxlen) :
    strlcat dst src maxlen = cut maxlen (dst ++ src) := by
  unfold strlcat cut
  have hdst : dst.take (maxlen - 1) = dst := List.take_of_length_le (by omega)
  rw [if_neg (not_le.mpr h), List.take_append, hdst]

theorem strlcat_strlcat {a b c : CString} (h : a.length < maxlen) :
    strlcat (strlcat a b maxlen) c maxlen = cut maxlen (a ++ (b ++ c)) := by
  have hpos : 0 < maxlen := by omega
  rw [strlcat_eq_cut h, strlcat_eq_cut (length_cut_lt hpos)]
  unfold cut
  by_cases hfits : (a ++ b).length ≤ maxlen - 1
  · rw [List.take_of_length_le hfits, List.append_assoc]
  · have hfull : ((a ++ b).take (maxlen - 1)).length = maxlen - 1 := List.length_take_of_le (by omega)
    have hleft : ((a ++ b).take (maxlen - 1) ++ c).take (maxlen - 1) = (a ++ b).take (maxlen - 1) := by
      rw [List.take_append_of_le_length hfull.ge, List.take_take, min_self]
    have hright : ((a ++ b) ++ c).take (maxlen - 1) = (a ++ b).take (maxlen - 1) :=
      List.take_append_of_le_length (by omega)
    rw [hleft, ← List.append_assoc, hright]

/-- What a round does: it applies the mapping of the address, or it leaves the address alone, or it cuts off
the superdomain of a blocked address. -/
inductive RoundCases (map : StrMap AddressmapEntry) (flags : UInt32) (maxlen : ℕ) (address : CString) :
    Round → Prop where
  | rewritten {ent new a} (hmaps : Maps map address ent new a) (hallowed : allowed flags ent new) :
      RoundCases map flags maxlen address (.rewritten (cut maxlen a) ent)
  | unchanged (hno : ∀ a, ¬ Rewrites map flags address a) (hfree : ¬ Blocked map flags address) :
      RoundCases map flags maxlen address (.done address)
  | truncated {a} (hblocked : Blocked map flags address) (hne : a.length < address.length) :
      RoundCases map flags maxlen address (.done a)

theorem applyEntry_allowed {ent : AddressmapEntry} {new : CString} {exactMatch : Bool}
    (hnew : ent.newAddress = some new) (hallowed : allowed flags ent new = true) (h : address.length < maxlen) :
    applyEntry flags maxlen address ent exactMatch =
      .rewritten (cut maxlen (if ent.dstWildcard && !exactMatch then address ++ 0x2e :: new else new)) ent := by
  unfold applyEntry
  rw [hnew]
  dsimp only
  rw [hallowed]
  by_cases hwild : (ent.dstWildcard && !exactMatch) = true
  · rw [if_pos hwild, if_pos hwild, strlcat_strlcat h]
    rfl
  · rw [if_neg hwild, if_neg hwild]
    rfl

theorem applyEntry_not_allowed {ent : AddressmapEntry} {exactMatch : Bool}
    (hno : ∀ new, ent.newAddress = some new → allowed flags ent new = false) :
    applyEntry flags maxlen address ent exactMatch = .done address := by
  unfold applyEntry
  cases hnew : ent.newAddress with
  | none => rfl
  | some new =>
    dsimp only
    rw [hno new hnew]
    rfl

/-- Nothing applies to an address without a mapping of its own if no superdomain's is used. -/
theorem not_rewrites_of_exactMapping (hexact : exactMapping map address = none)
    (hno : ∀ pre suf ent new, LongestSuperdomain map address pre suf ent → ent.newAddress = some new →
      allowed flags ent new = false) (a : CString) : ¬ Rewrites map flags address a := by
  rintro ⟨ent, new, hmaps, hallowed⟩
  cases hmaps with
  | exact hget =>
    rw [hexact] at hget
    cases hget
  | domain _ hlongest hnew | subdomain _ hlongest hnew =>
    rw [hno _ _ _ _ hlongest hnew] at hallowed
    cases hallowed

theorem Blocked.not_rewrites (h : Blocked map flags address) (a : CString) : ¬ Rewrites map flags address a :=
    by
  obtain ⟨hexact, pre, suf, ent, hlongest, -, hno⟩ := h
  refine not_rewrites_of_exactMapping hexact ?_ a
  intro pre' suf' ent' new hlongest' hnew
  obtain ⟨-, rfl⟩ := hlongest.unique hlongest'
  exact hno new hnew

/-- The round of an address without a mapping of its own. -/
theorem superdomainRound_cases (h : address.length < maxlen) (hexact : exactMapping map address = none) :
    RoundCases map flags maxlen address (superdomainRound map flags maxlen address) := by
  unfold superdomainRound
  rcases addressmapMatchSuperdomains_spec map address with
    ⟨pre, suf, ent, hlongest, hmatch⟩ | ⟨hnone, hmatch⟩
  · rw [hmatch]
    dsimp only
    by_cases hused : ∃ new, ent.newAddress = some new ∧ allowed flags ent new = true
    · obtain ⟨new, hnew, hallowed⟩ := hused
      cases hdst : ent.dstWildcard with
      | true =>
        have hpre : pre.length < maxlen := by
          have := congrArg List.length hlongest.1.1
          simp only [List.length_append, List.length_cons] at this
          omega
        rw [if_pos rfl, applyEntry_allowed hnew hallowed hpre, hdst]
        exact .rewritten (.subdomain hexact hlongest hnew hdst) hallowed
      | false =>
        rw [if_neg (by simp), applyEntry_allowed hnew hallowed h, hdst]
        exact .rewritten (.domain hexact hlongest hnew hdst) hallowed
    · have hno : ∀ new, ent.newAddress = some new → allowed flags ent new = false := by
        intro new hnew
        by_contra hallowed
        exact hused ⟨new, hnew, by simpa using hallowed⟩
      rw [applyEntry_not_allowed hno]
      cases hdst : ent.dstWildcard with
      | true =>
        refine .truncated ⟨hexact, pre, suf, ent, hlongest, hdst, hno⟩ ?_
        have := congrArg List.length hlongest.1.1
        simp only [List.length_append, List.length_cons] at this
        rw [if_pos rfl]
        omega
      | false =>
        rw [if_neg (by simp)]
        refine .unchanged (not_rewrites_of_exactMapping hexact ?_) ?_
        · intro pre' suf' ent' new hlongest' hnew
          obtain ⟨-, rfl⟩ := hlongest.unique hlongest'
          exact hno new hnew
        · rintro ⟨-, pre', suf', ent', hlongest', hdst', -⟩
          obtain ⟨-, rfl⟩ := hlongest.unique hlongest'
          rw [hdst] at hdst'
          cases hdst'
  · rw [hmatch]
    refine .unchanged (not_rewrites_of_exactMapping hexact ?_) ?_
    · intro pre suf ent new hlongest
      exact absurd ⟨pre, suf, ent, hlongest⟩ hnone
    · rintro ⟨-, pre, suf, ent, hlongest, -⟩
      exact hnone ⟨pre, suf, ent, hlongest⟩

/-- **A round.** -/
theorem rewriteRound_cases (map : StrMap AddressmapEntry) (flags : UInt32) (h : address.length < maxlen) :
    RoundCases map flags maxlen address (rewriteRound map flags maxlen address) := by
  unfold rewriteRound
  cases hget : strmapGet map address with
  | none => exact superdomainRound_cases h (by rw [exactMapping, hget]; rfl)
  | some ent =>
    dsimp only
    cases hnew : ent.newAddress with
    | none => exact superdomainRound_cases h (by rw [exactMapping, hget, Option.bind_some, hnew]; rfl)
    | some new =>
      have hexact : exactMapping map address = some (ent, new) := by
        rw [exactMapping, hget, Option.bind_some, hnew]
        rfl
      have hfree : ¬ Blocked map flags address := by
        rintro ⟨hnone, -⟩
        rw [hexact] at hnone
        cases hnone
      -- the mapping of the address itself is the only one there is
      have hown : ∀ {ent' new' a}, Maps map address ent' new' a → ent' = ent ∧ new' = new ∧
          ¬ (ent.srcWildcard && !ent.dstWildcard && sameNoCase address new) = true := by
        intro ent' new' a hmaps
        cases hmaps with
        | exact hget' hdone =>
          rw [hexact] at hget'
          cases hget'
          exact ⟨rfl, rfl, hdone⟩
        | domain hnone | subdomain hnone =>
          rw [hexact] at hnone
          cases hnone
      dsimp only
      by_cases hdone : (ent.srcWildcard && !ent.dstWildcard && sameNoCase address new) = true
      · rw [if_pos hdone]
        refine .unchanged ?_ hfree
        rintro a ⟨ent', new', hmaps, -⟩
        exact (hown hmaps).2.2 hdone
      · rw [if_neg hdone]
        cases hallowed : allowed flags ent new with
        | true =>
          rw [applyEntry_allowed hnew hallowed h, Bool.not_true, Bool.and_false, if_neg (by simp)]
          exact .rewritten (.exact hexact hdone) hallowed
        | false =>
          have hno : ∀ new', ent.newAddress = some new' → allowed flags ent new' = false := by
            intro new' hnew'
            rw [hnew] at hnew'
            cases hnew'
            exact hallowed
          rw [applyEntry_not_allowed hno]
          refine .unchanged ?_ hfree
          rintro a ⟨ent', new', hmaps, hallowed'⟩
          obtain ⟨rfl, rfl, -⟩ := hown hmaps
          rw [hallowed] at hallowed'
          cases hallowed'

end Round

/-! ### The loop -/

/-- A succession of applications, from the first address to the last. -/
inductive RewriteChain (map : StrMap AddressmapEntry) (flags : UInt32) :
    CString → List (CString × CString) → CString → Prop where
  | nil (a) : RewriteChain map flags a [] a
  | cons {a a' b rewrites} (hfirst : Rewrites map flags a a') (hrest : RewriteChain map flags a' rewrites b) :
      RewriteChain map flags a ((a, a') :: rewrites) b

theorem RewriteChain.eq_of_nil {map : StrMap AddressmapEntry} {flags : UInt32} {a b : CString}
    (h : RewriteChain map flags a [] b) : b = a := by
  cases h
  rfl

/-- Whole mappings only: every rewrite, of at most 16, applies a whole mapping that the flags allow, the result
is what the last of them made of the address, and the function returns whether there was one. -/
structure WholeRules (map : StrMap AddressmapEntry) (flags : UInt32) (maxlen : ℕ) (address : CString)
    (r : Bool × Rewritten) : Prop where
  rewrites_le : r.2.rewrites.length ≤ 16
  length_lt : r.2.address.length < maxlen
  chain : RewriteChain map flags address r.2.rewrites r.2.address
  unchanged : r.1 = false → r.2.address = address

/-- Each of the addresses that an address is rewritten to, in at most `rounds` rounds, fits into the buffer,
and none that is looked up meets a mapping from superdomain to superdomain that is not applied. -/
def Fits (map : StrMap AddressmapEntry) (flags : UInt32) (maxlen : ℕ) : ℕ → CString → Prop
  | 0, _ => True
  | rounds + 1, a => ¬ Blocked map flags a ∧
      ∀ a', Rewrites map flags a a' → a'.length < maxlen ∧ Fits map flags maxlen rounds a'

section Loop

variable (map : StrMap AddressmapEntry) (flags : UInt32) {maxlen : ℕ} (addrOrig : CString)

/-- The buffer never overflows, and there is one rewrite in each round at most. -/
theorem rewriteLoop_length (rounds : ℕ) {address : CString} (h : address.length < maxlen) (expires : ℤ)
    (exitSource : AddressmapSource) :
    (rewriteLoop map flags maxlen addrOrig rounds address expires exitSource).address.length < maxlen ∧
      (rewriteLoop map flags maxlen addrOrig rounds address expires exitSource).rewrites.length ≤ rounds := by
  induction rounds generalizing address expires exitSource with
  | zero => exact ⟨h, le_rfl⟩
  | succ rounds ih =>
    have hpos : 0 < maxlen := by omega
    have hcases := rewriteRound_cases map flags h
    rw [rewriteLoop]
    cases hround : rewriteRound map flags maxlen address with
    | done a =>
      rw [hround] at hcases
      refine ⟨?_, Nat.zero_le _⟩
      cases hcases with
      | unchanged => exact h
      | truncated _ hne => exact hne.trans h
    | rewritten a ent =>
      rw [hround] at hcases
      cases hcases with
      | @rewritten _ new a' hmaps hallowed =>
        have hrest := ih (length_cut_lt hpos : (cut maxlen a').length < maxlen)
        exact ⟨(hrest _ _).1, Nat.succ_le_succ (hrest _ _).2⟩

/-- **The loop** applies whole mappings only iff everything on its way fits. -/
theorem rewriteLoop_chain_iff (rounds : ℕ) {address : CString} (h : address.length < maxlen) (expires : ℤ)
    (exitSource : AddressmapSource) :
    RewriteChain map flags address
        (rewriteLoop map flags maxlen addrOrig rounds address expires exitSource).rewrites
        (rewriteLoop map flags maxlen addrOrig rounds address expires exitSource).address ↔
      Fits map flags maxlen rounds address := by
  induction rounds generalizing address expires exitSource with
  | zero => exact ⟨fun _ => trivial, fun _ => .nil _⟩
  | succ rounds ih =>
    have hpos : 0 < maxlen := by omega
    have hcases := rewriteRound_cases map flags h
    rw [rewriteLoop, Fits]
    cases hround : rewriteRound map flags maxlen address with
    | done a =>
      rw [hround] at hcases
      cases hcases with
      | unchanged hno hfree => exact ⟨fun _ => ⟨hfree, fun a ha => absurd ha (hno a)⟩, fun _ => .nil _⟩
      | truncated hblocked hne =>
        refine ⟨?_, fun hfits => absurd hblocked hfits.1⟩
        intro hchain
        have heq : a = address := hchain.eq_of_nil
        exact absurd (heq ▸ hne) (lt_irrefl _)
    | rewritten a ent =>
      rw [hround] at hcases
      cases hcases with
      | @rewritten _ new a' hmaps hallowed =>
        have hrewrites : Rewrites map flags address a' := ⟨ent, new, hmaps, hallowed⟩
        have hfree : ¬ Blocked map flags address := fun hblocked => hblocked.not_rewrites a' hrewrites
        dsimp only
        constructor
        · intro hchain
          obtain _ | ⟨hfirst, hrest⟩ := hchain
          have hsame : cut maxlen a' = a' := hfirst.unique hrewrites
          have hlen := (cut_eq_iff hpos).mp hsame
          refine ⟨hfree, fun a'' ha'' => ?_⟩
          rw [ha''.unique hrewrites]
          rw [hsame] at hrest
          exact ⟨hlen, (ih hlen _ _).mp hrest⟩
        · intro hfits
          obtain ⟨hlen, hrest⟩ := hfits.2 a' hrewrites
          rw [(cut_eq_iff hpos).mpr hlen]
          exact .cons hrewrites ((ih hlen _ _).mpr hrest)

end Loop

/-- **Address rewriting** applies whole mappings only iff each of the addresses it goes through fits into the
buffer and none of them meets a mapping from superdomain to superdomain that is not applied. -/
theorem addressmapRewrite_wholeRules_iff (map : StrMap AddressmapEntry) (flags : UInt32) {maxlen : ℕ}
    {address : CString} (h : address.length < maxlen) :
    WholeRules map flags maxlen address (addressmapRewrite map address maxlen flags) ↔
      Fits map flags maxlen 16 address := by
  obtain ⟨hlen, hrewrites⟩ := rewriteLoop_length map flags address 16 h timeMax .none
  have hchain := rewriteLoop_chain_iff map flags address 16 h timeMax .none
  constructor
  · intro hwhole
    exact hchain.mp hwhole.chain
  · intro hfits
    have hchain := hchain.mpr hfits
    refine ⟨hrewrites, hlen, hchain, ?_⟩
    intro hzero
    have hnil : (rewriteLoop map flags maxlen address 16 address timeMax .none).rewrites = [] := by
      rw [← List.length_eq_zero_iff]
      simpa [addressmapRewrite] using hzero
    rw [hnil] at hchain
    exact hchain.eq_of_nil

/-- The text `a.c.d`, and a mapping from `*.c.d` to `*.e.f` in the configuration. -/
def addressAcd : CString := [0x61, 0x2e, 0x63, 0x2e, 0x64]
def mapCdEf : StrMap AddressmapEntry :=
  [([0x63, 0x2e, 0x64], ⟨some [0x65, 0x2e, 0x66], 0, .torrc, true, true, 0⟩)]

/-- The text `a.e.f`. -/
def addressAef : CString := [0x61, 0x2e, 0x65, 0x2e, 0x66]

theorem fits_of_not_mapped {map : StrMap AddressmapEntry} {flags : UInt32} {maxlen : ℕ} {address : CString}
    (hexact : exactMapping map address = none) (hsearch : (addressmapMatchSuperdomains map address).1 = none) :
    ∀ rounds, Fits map flags maxlen rounds address
  | 0 => trivial
  | rounds + 1 => by
    have hnone : ¬∃ pre suf ent, LongestSuperdomain map address pre suf ent := by
      rcases addressmapMatchSuperdomains_spec map address with ⟨pre, suf, ent, -, hloop⟩ | ⟨hnone, -⟩
      · rw [hloop] at hsearch
        cases hsearch
      · exact hnone
    refine ⟨fun ⟨_, pre, suf, ent, hlongest, _⟩ => hnone ⟨pre, suf, ent, hlongest⟩, fun a' ha' => ?_⟩
    refine absurd ha' (not_rewrites_of_exactMapping hexact (fun pre suf ent _ hlongest => ?_) a')
    exact absurd ⟨pre, suf, ent, hlongest⟩ hnone

/-- A caller that wants configured mappings gets `a.e.f` for `a.c.d`. -/
theorem addressmapRewrite_wholeRules_iff_acd :
    (addressmapRewrite mapCdEf addressAcd 256 amrFlagUseMapaddress).2.rewrites = [(addressAcd, addressAef)] ∧
      WholeRules mapCdEf amrFlagUseMapaddress 256 addressAcd
        (addressmapRewrite mapCdEf addressAcd 256 amrFlagUseMapaddress) := by
  refine ⟨by decide +kernel, (addressmapRewrite_wholeRules_iff mapCdEf amrFlagUseMapaddress (by decide)).mpr ?_⟩
  have hrewrites : Rewrites mapCdEf amrFlagUseMapaddress addressAcd addressAef := by
    rcases addressmapMatchSuperdomains_spec mapCdEf addressAcd with ⟨pre, suf, ent, hlongest, hloop⟩ | ⟨-, hloop⟩
    · rw [show addressmapMatchSuperdomains mapCdEf addressAcd =
        (some ⟨some [0x65, 0x2e, 0x66], 0, .torrc, true, true, 0⟩, [0x61]) by decide] at hloop
      obtain ⟨hent, hpre⟩ := Prod.mk.inj hloop
      obtain rfl := Option.some.inj hent
      obtain rfl : [0x61] = pre := hpre
      exact ⟨_, _, .subdomain (by decide) hlongest rfl rfl, by decide⟩
    · exact absurd (congrArg Prod.fst hloop) (by decide)
  refine ⟨fun hblocked => hblocked.not_rewrites _ hrewrites, fun a' ha' => ?_⟩
  obtain rfl := hrewrites.unique ha'
  exact ⟨by decide, fits_of_not_mapped (by decide) (by decide) 15⟩

/-- A caller that does not want configured mappings gets `a` back for `a.c.d`. -/
theorem not_addressmapRewrite_wholeRules :
    ¬ ∀ (map : StrMap AddressmapEntry) (flags : UInt32) (maxlen : ℕ) (address : CString),
      address.length < maxlen →
      WholeRules map flags maxlen address (addressmapRewrite map address maxlen flags) := by
  intro hall
  have hunchanged := (hall mapCdEf 0 256 addressAcd (by decide)).unchanged (by decide +kernel)
  exact absurd hunchanged (by decide +kernel)

end TorEbpf.Client
