import TorEbpf.Dircommon.ConsDiffText
import TorEbpf.Net.PtrName
import TorEbpf.Or.PolicyLookup

/-!
# Sets of relays

`routerset.c` reads a list of nicknames, identity fingerprints, country codes and address patterns into a
set: the list itself, a map for the nicknames, one for the digests, an address policy, and a table of
countries.  The parser of address patterns and the geoip database are parameters here.

* `Consistent.routersetParse` — whatever is parsed, the maps hold exactly what the list names;
* `routersetContains2_ne_zero_iff` — what it means for a relay to be in a set.
-/

namespace TorEbpf.Nodelist

open TorEbpf.Dircommon TorEbpf.Net TorEbpf.Or TorEbpf.Strings

abbrev CString := List UInt8

/-! ### Names of relays -/

/-- `MAX_NICKNAME_LEN` and `HEX_DIGEST_LEN`. -/
def maxNicknameLen : ℕ := 19
def hexDigestLen : ℕ := 40

/-- A character is one of `LEGAL_NICKNAME_CHARACTERS`. -/
def isNicknameChar (c : UInt8) : Bool :=
  decide (0x61 ≤ c ∧ c ≤ 0x7a) || decide (0x41 ≤ c ∧ c ≤ 0x5a) || decide (0x30 ≤ c ∧ c ≤ 0x39)

def isLegalNickname (s : CString) : Bool :=
  decide (s.length > 0) && decide (s.length ≤ maxNicknameLen) && s.all isNicknameChar

/-- A string without the `$` it may start with. -/
def skipDollar (s : CString) : CString := if s.head? = some 0x24 then s.drop 1 else s

/-- `=` or `~`, before a nickname that follows a digest. -/
def isQualifier (c : Option UInt8) : Bool := c == some 0x3d || c == some 0x7e

def isLegalHexdigest (s : CString) : Bool :=
  let s := skipDollar s
  if s.length > hexDigestLen ∧ !isQualifier s[hexDigestLen]? then false
  else if s.length > hexDigestLen ∧ !isLegalNickname (s.drop (hexDigestLen + 1)) then false
  else decide (s.length ≥ hexDigestLen) && decide ((s.takeWhile torIsXDigit).length = hexDigestLen)

/-- `hex_digest_nickname_decode`: the digest, and the character before the nickname. -/
def hexDigestNicknameDecode (s : CString) : Option (List UInt8 × Option UInt8) :=
  let s := skipDollar s
  if s.length < hexDigestLen then none
  else if s.length > hexDigestLen ∧ isQualifier s[hexDigestLen]? ∧
      s.length ≤ hexDigestLen + 1 + maxNicknameLen then
    (base16Decode (s.take hexDigestLen)).map (·, s[hexDigestLen]?)
  else if s.length = hexDigestLen then (base16Decode (s.take hexDigestLen)).map (·, none)
  else none

def torStrlower (s : CString) : CString := s.map toLower

/-! ### Sets -/

/-- `addr_policy_t`, with the flag of an entry for private addresses. -/
structure SetPolicy extends AddrPolicy where
  isPrivate : Bool
  deriving DecidableEq, Repr

/-- `routerset_t`; the country table is what a bit array says about each country. -/
structure Routerset where
  list : List CString
  names : List CString
  digests : List (List UInt8)
  policies : List SetPolicy
  countryNames : List CString
  countries : Option (List Bool)
  deriving DecidableEq, Repr

def routersetNew : Routerset := ⟨[], [], [], [], [], none⟩

/-- What a set is parsed and looked up with: `router_parse_addr_policy_item_from_string` with
`ADDR_POLICY_REJECT`, which yields an entry or says whether the whole list is malformed; and the geoip
database. -/
structure Env where
  policyItem : CString → SetPolicy ⊕ Bool
  geoipIsLoaded : Bool
  geoipNCountries : ℕ
  geoipGetCountry : CString → Option ℕ
  geoipGetCountryByAddr : TorAddrPtr → ℤ

def routersetGetCountryname (c : CString) : Option CString :=
  if c.length < 4 ∨ c.getD 0 0 ≠ 0x7b ∨ c.getD 3 0 ≠ 0x7d then none
  else some (torStrlower ((c.drop 1).take 2))

def routersetRefreshCountries (env : Env) (target : Routerset) : Routerset :=
  if !env.geoipIsLoaded then { target with countries := none }
  else
    let cc := target.countryNames.filterMap env.geoipGetCountry
    { target with countries := some ((List.range env.geoipNCountries).map fun i => cc.contains i) }

def expandUnspec (p : SetPolicy) : List SetPolicy :=
  if torAddrFamily p.addr = .inet6 ∨ torAddrFamily p.addr = .inet ∨ p.isPrivate then [p]
  else if torAddrFamily p.addr = .unspec then
    [{ p with maskbits := 0, addr := ⟨p.addr.ptr, .inet 0⟩ },
      { p with maskbits := 0, addr := ⟨p.addr.ptr, .inet6 ⟨List.replicate 16 0, by simp⟩⟩ }]
  else [p]

def policyExpandUnspec (policy : List SetPolicy) : List SetPolicy := policy.flatMap expandUnspec

/-- What an element of the text is. -/
inductive Kind where
  | digest (d : List UInt8)
  | name (nick : CString)
  | country (cc : CString)
  | policy (p : SetPolicy)
  | malformed
  | ignored
  deriving DecidableEq, Repr

/-- The chain of tests in `routerset_parse`. -/
def kindOf (env : Env) (nick : CString) : Kind :=
  if isLegalHexdigest nick then .digest ((base16Decode ((skipDollar nick).take hexDigestLen)).getD [])
  else if isLegalNickname nick then .name (torStrlower nick)
  else
    match routersetGetCountryname nick with
    | some cc => .country cc
    | none =>
      if nick.contains 0x2e || nick.contains 0x3a || nick.contains 0x2a then
        match env.policyItem nick with
        | .inl p => .policy p
        | .inr true => .malformed
        | .inr false => .ignored
      else .malformed

/-- The set and the local variables of `routerset_parse`. -/
structure ParseState where
  target : Routerset
  list : List CString
  addedCountries : Bool
  r : ℤ

def parseItem (env : Env) (st : ParseState) (nick : CString) : ParseState :=
  let target := st.target
  match kindOf env nick with
  | .digest d => { st with target := { target with digests := d :: target.digests }, list := st.list ++ [nick] }
  | .name n => { st with target := { target with names := n :: target.names }, list := st.list ++ [nick] }
  | .country cc =>
    { st with
      target := { target with countryNames := target.countryNames ++ [cc] }
      list := st.list ++ [nick]
      addedCountries := true }
  | .policy p =>
    { st with target := { target with policies := target.policies ++ [p] }, list := st.list ++ [nick] }
  | .malformed => { st with r := -1 }
  | .ignored => st

def trimSpace (s : CString) : CString := ((s.dropWhile isSpace).reverse.dropWhile isSpace).reverse

/-- `smartlist_split_string(list, s, ",", SPLIT_SKIP_SPACE | SPLIT_IGNORE_BLANK, 0)`. -/
def splitList (s : CString) : List CString := ((s.splitOn 0x2c).map trimSpace).filter (· ≠ [])

/-- `routerset_parse`: the set and the value returned. -/
def routersetParse (env : Env) (target : Routerset) (s : CString) : Routerset × ℤ :=
  let st := (splitList s).foldl (parseItem env) ⟨target, [], false, 0⟩
  let target := { st.target with
    policies := policyExpandUnspec st.target.policies
    list := st.target.list ++ st.list }
  (if st.addedCountries then routersetRefreshCountries env target else target, st.r)

def routersetIsList (set : Routerset) : Bool := set.countryNames.length == 0 && set.policies.length == 0

def compareTorAddrToAddrPolicy (addr : TorAddrPtr) (port : UInt16) (policy : List AddrPolicy) :
    AddrPolicyAnswer :=
  if torAddrIsNull addr.addr then
    if port = 0 then .rejected else compareUnknownTorAddrToAddrPolicy port policy
  else if port = 0 then compareKnownTorAddrToAddrPolicyNoport addr policy
  else
    match compareKnownTorAddrToAddrPolicy addr port policy with
    | .accepted => .accepted
    | .rejected => .rejected

/-- The policy of a set rejects an address and a port, if there is an address. -/
def policyRejects (set : Routerset) : Option (TorAddrPtr × UInt16) → Bool
  | none => false
  | some (addr, port) =>
    decide (compareTorAddrToAddrPolicy addr port (set.policies.map SetPolicy.toAddrPolicy) = .rejected)

/-- The country of a relay: that of its address, if it is not known. -/
def countryOf (env : Env) (addr : Option (TorAddrPtr × UInt16)) (country : ℤ) : ℤ :=
  match addr with
  | none => country
  | some (addr, _) => if country < 0 then env.geoipGetCountryByAddr addr else country

def countryListed (env : Env) (set : Routerset) (addr : Option (TorAddrPtr × UInt16)) (country : ℤ) : Bool :=
  match set.countries with
  | none => false
  | some countries =>
    let country := countryOf env addr country
    decide (country ≥ 0) && decide (country < countries.length) && countries.getD country.toNat false

/-- `routerset_contains2`; each address comes with its port. -/
def routersetContains2 (env : Env) (set : Option Routerset) (addr addr2 : Option (TorAddrPtr × UInt16))
    (nickname : Option CString) (idDigest : Option (List UInt8)) (country : ℤ) : ℕ :=
  match set with
  | none => 0
  | some set =>
    if nickname.any fun n => set.names.contains (torStrlower n) then 4
    else if idDigest.any set.digests.contains then 4
    else if policyRejects set addr then 3
    else if policyRejects set addr2 then 3
    else if countryListed env set addr country then 2
    else 0

/-! ### What a set holds -/

/-- The nickname, the digest, the country or the policy entry that an element of the text stands for. -/
def namePart (env : Env) (e : CString) : Option CString :=
  match kindOf env e with
  | .name n => some n
  | _ => none

def digestPart (env : Env) (e : CString) : Option (List UInt8) :=
  match kindOf env e with
  | .digest d => some d
  | _ => none

def countryPart (env : Env) (e : CString) : Option CString :=
  match kindOf env e with
  | .country cc => some cc
  | _ => none

def policyPart (env : Env) (e : CString) : Option SetPolicy :=
  match kindOf env e with
  | .policy p => some p
  | _ => none

/-- An element that stays in the list. -/
def kept (env : Env) (e : CString) : Bool :=
  match kindOf env e with
  | .malformed | .ignored => false
  | _ => true

/-- The loop of `routerset_parse` collects what the elements stand for. -/
theorem foldl_parseItem (env : Env) (items : List CString) (st : ParseState) :
    items.foldl (parseItem env) st =
      { target := { st.target with
          names := (items.filterMap (namePart env)).reverse ++ st.target.names
          digests := (items.filterMap (digestPart env)).reverse ++ st.target.digests
          countryNames := st.target.countryNames ++ items.filterMap (countryPart env)
          policies := st.target.policies ++ items.filterMap (policyPart env) }
        list := st.list ++ items.filter (kept env)
        addedCountries := st.addedCountries || items.any fun e => (countryPart env e).isSome
        r := if items.any fun e => kindOf env e = .malformed then -1 else st.r } := by
  induction items generalizing st with
  | nil => simp
  | cons e items ih =>
    rw [List.foldl_cons, ih]
    cases hkind : kindOf env e <;>
      simp [parseItem, hkind, namePart, digestPart, countryPart, policyPart, kept]

/-- The maps of a set hold exactly what its list names. -/
structure Consistent (env : Env) (set : Routerset) : Prop where
  mem_names : ∀ n, n ∈ set.names ↔ n ∈ set.list.filterMap (namePart env)
  mem_digests : ∀ d, d ∈ set.digests ↔ d ∈ set.list.filterMap (digestPart env)
  countryNames_eq : set.countryNames = set.list.filterMap (countryPart env)
  policies_eq : set.policies = policyExpandUnspec (set.list.filterMap (policyPart env))
  kept : ∀ e ∈ set.list, kept env e = true

theorem consistent_routersetNew (env : Env) : Consistent env routersetNew := by
  constructor <;> simp [routersetNew, policyExpandUnspec]

theorem flatMap_expandUnspec (p : SetPolicy) : (expandUnspec p).flatMap expandUnspec = expandUnspec p := by
  unfold expandUnspec
  by_cases hkeep : torAddrFamily p.addr = .inet6 ∨ torAddrFamily p.addr = .inet ∨ p.isPrivate
  · rw [if_pos hkeep, List.flatMap_singleton, if_pos hkeep]
  · rw [if_neg hkeep]
    by_cases hunspec : torAddrFamily p.addr = .unspec
    · rw [if_pos hunspec]
      rfl
    · rw [if_neg hunspec, List.flatMap_singleton, if_neg hkeep, if_neg hunspec]

theorem policyExpandUnspec_append (l l' : List SetPolicy) :
    policyExpandUnspec (policyExpandUnspec l ++ l') = policyExpandUnspec (l ++ l') := by
  unfold policyExpandUnspec
  rw [List.flatMap_append, List.flatMap_append, List.flatMap_assoc]
  simp only [flatMap_expandUnspec]

/-- What is dropped stands for nothing. -/
theorem filterMap_filter_kept {α : Type} {env : Env} (part : CString → Option α)
    (hpart : ∀ e, kept env e = false → part e = none) (items : List CString) :
    (items.filter (kept env)).filterMap part = items.filterMap part := by
  rw [List.filterMap_filter]
  refine List.filterMap_congr fun e _ => ?_
  cases hkept : kept env e with
  | true => rfl
  | false => rw [hpart e hkept]; rfl

theorem part_of_not_kept {env : Env} {e : CString} (h : kept env e = false) :
    namePart env e = none ∧ digestPart env e = none ∧ countryPart env e = none ∧ policyPart env e = none := by
  unfold kept at h
  unfold namePart digestPart countryPart policyPart
  cases hkind : kindOf env e <;> simp [hkind] at h ⊢

/-- What `routerset_parse` makes of a set, up to the table of countries. -/
structure Parsed (env : Env) (target : Routerset) (items : List CString) (set : Routerset) : Prop where
  list_eq : set.list = target.list ++ items.filter (kept env)
  names_eq : set.names = (items.filterMap (namePart env)).reverse ++ target.names
  digests_eq : set.digests = (items.filterMap (digestPart env)).reverse ++ target.digests
  countryNames_eq : set.countryNames = target.countryNames ++ items.filterMap (countryPart env)
  policies_eq : set.policies = policyExpandUnspec (target.policies ++ items.filterMap (policyPart env))

theorem parsed_routersetParse (env : Env) (target : Routerset) (s : CString) :
    Parsed env target (splitList s) (routersetParse env target s).1 := by
  unfold routersetParse
  rw [foldl_parseItem]
  dsimp only
  rw [List.nil_append]
  split
  · unfold routersetRefreshCountries
    split <;> exact ⟨rfl, rfl, rfl, rfl, rfl⟩
  · exact ⟨rfl, rfl, rfl, rfl, rfl⟩

/-- **Parsing** keeps the maps in agreement with the list. -/
theorem Consistent.routersetParse {env : Env} {target : Routerset} (h : Consistent env target) (s : CString) :
    Consistent env (routersetParse env target s).1 := by
  have hp := parsed_routersetParse env target s
  have hname := filterMap_filter_kept (namePart env) fun e he => (part_of_not_kept he).1
  refine ⟨?_, ?_, ?_, ?_, ?_⟩
  · intro n
    rw [hp.names_eq, hp.list_eq, List.filterMap_append, hname, List.mem_append, List.mem_append,
      List.mem_reverse,
      h.mem_names, or_comm]
  · intro d
    have hdigest := filterMap_filter_kept (digestPart env) fun e he => (part_of_not_kept he).2.1
    rw [hp.digests_eq, hp.list_eq, List.filterMap_append, hdigest, List.mem_append, List.mem_append,
      List.mem_reverse, h.mem_digests, or_comm]
  · have hcountry := filterMap_filter_kept (countryPart env) fun e he => (part_of_not_kept he).2.2.1
    rw [hp.countryNames_eq, hp.list_eq, List.filterMap_append, hcountry, h.countryNames_eq]
  · have hpolicy := filterMap_filter_kept (policyPart env) fun e he => (part_of_not_kept he).2.2.2
    rw [hp.policies_eq, hp.list_eq, List.filterMap_append, hpolicy, h.policies_eq, policyExpandUnspec_append]
  · intro e he
    rw [hp.list_eq] at he
    rcases List.mem_append.mp he with he | he
    · exact h.kept e he
    · exact (List.mem_filter.mp he).2

/-- **Membership**: by nickname, by digest, by one of two addresses, or by country. -/
theorem routersetContains2_ne_zero_iff (env : Env) (set : Routerset) (addr addr2 : Option (TorAddrPtr × UInt16))
    (nickname : Option CString) (idDigest : Option (List UInt8)) (country : ℤ) :
    routersetContains2 env (some set) addr addr2 nickname idDigest country ≠ 0 ↔
      (∃ n ∈ nickname, torStrlower n ∈ set.names) ∨ (∃ d ∈ idDigest, d ∈ set.digests) ∨
        policyRejects set addr = true ∨ policyRejects set addr2 = true ∨
          countryListed env set addr country = true := by
  have hname : (nickname.any fun n => set.names.contains (torStrlower n)) = true ↔
      ∃ n ∈ nickname, torStrlower n ∈ set.names := by
    cases nickname <;> simp
  have hdigest : idDigest.any set.digests.contains = true ↔ ∃ d ∈ idDigest, d ∈ set.digests := by
    cases idDigest <;> simp
  unfold routersetContains2
  dsimp only
  rw [← hname, ← hdigest]
  split_ifs with h1 h2 h3 h4 h5
  · exact iff_of_true (by decide) (.inl h1)
  · exact iff_of_true (by decide) (.inr (.inl h2))
  · exact iff_of_true (by decide) (.inr (.inr (.inl h3)))
  · exact iff_of_true (by decide) (.inr (.inr (.inr (.inl h4))))
  · exact iff_of_true (by decide) (.inr (.inr (.inr (.inr h5))))
  · refine iff_of_false (by decide) ?_
    rintro (h | h | h | h | h)
    · exact h1 h
    · exact h2 h
    · exact h3 h
    · exact h4 h
    · exact h5 h

end TorEbpf.Nodelist
