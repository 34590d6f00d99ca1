import TorEbpf.Lib.Keyed
import TorEbpf.Nodelist.Routerset

/-!
# The nodes of a set

`routerset_get_all_nodes` collects the nodes of a set in one of two ways: if the set is a list of nicknames and
digests, it looks each element up with `node_get_by_nickname`; otherwise it asks each node whether it is in
the set.

* `nodeGetByNickname_eq_some_iff` — which node an element is resolved to;
* `lookupNodes_agrees_iff` — the two ways agree iff each node of the set is found by exactly one element.
-/

namespace TorEbpf.Nodelist

open TorEbpf.Dircommon TorEbpf.Or TorEbpf.Strings

/-! ### Nodes -/

/-- `routerstatus_t`, as far as a set is concerned. -/
structure Routerstatus where
  nickname : CString
  identityDigest : List UInt8
  ipv4Addr : TorAddrPtr
  ipv4Orport : UInt16
  deriving DecidableEq, Repr

/-- `routerinfo_t`, as far as a set is concerned. -/
structure Routerinfo where
  nickname : CString
  identityDigest : List UInt8
  ipv4Addr : TorAddrPtr
  ipv4Orport : UInt16
  ipv6Addr : TorAddrPtr
  ipv6Orport : UInt16
  deriving DecidableEq, Repr

structure Node where
  identity : List UInt8
  rs : Option Routerstatus
  ri : Option Routerinfo
  isRunning : Bool
  country : ℤ
  deriving DecidableEq, Repr

def nodeGetNickname (node : Node) : Option CString :=
  match node.rs, node.ri with
  | some rs, _ => some rs.nickname
  | none, some ri => some ri.nickname
  | none, none => none

/-- A node of the node list: it has a routerstatus or a routerinfo, they have its identity, and their
nicknames are legal. -/
structure Node.Ok (node : Node) : Prop where
  rs_identity : ∀ rs ∈ node.rs, rs.identityDigest = node.identity
  ri_identity : ∀ ri ∈ node.ri, ri.identityDigest = node.identity
  nickname_legal : ∃ n, nodeGetNickname node = some n ∧ isLegalNickname n = true

/-- The node list: no two nodes have one identity. -/
structure NodeList where
  nodes : List Node
  node_ok : ∀ n ∈ nodes, n.Ok
  identity_nodup : (nodes.map Node.identity).Nodup

def routersetContainsRouterstatus (env : Env) (set : Option Routerset) (rs : Routerstatus) (country : ℤ) : ℕ :=
  routersetContains2 env set (some (rs.ipv4Addr, rs.ipv4Orport)) none (some rs.nickname)
    (some rs.identityDigest) country

def routersetContainsRouter (env : Env) (set : Option Routerset) (ri : Routerinfo) (country : ℤ) : ℕ :=
  routersetContains2 env set (some (ri.ipv4Addr, ri.ipv4Orport)) (some (ri.ipv6Addr, ri.ipv6Orport))
    (some ri.nickname) (some ri.identityDigest) country

def routersetContainsNode (env : Env) (set : Option Routerset) (node : Node) : ℕ :=
  match node.rs, node.ri with
  | some rs, _ => routersetContainsRouterstatus env set rs node.country
  | none, some ri => routersetContainsRouter env set ri node.country
  | none, none => 0

/-! ### Looking a node up -/

def nodeGetById (nodes : List Node) (identity : List UInt8) : Option Node :=
  nodes.find? (·.identity = identity)

def nodeGetByHexId (nodes : List Node) (hexId : CString) : Option Node :=
  match hexDigestNicknameDecode hexId with
  | none => none
  | some (digest, nnChar) =>
    match nodeGetById nodes digest with
    | none => none
    -- "=" indicates a Named relay, but there aren't any of those now
    | some node => if nnChar = some 0x3d then none else some node

/-- `UNNAMED_ROUTER_NICKNAME`, in lower case. -/
def unnamed : CString := [0x75, 0x6e, 0x6e, 0x61, 0x6d, 0x65, 0x64]

/-- The nickname of a node is a text, up to case. -/
def hasNickname (nickname : CString) (node : Node) : Bool :=
  (nodeGetNickname node).any fun n => torStrlower n == torStrlower nickname

def nodeGetByNickname (nodes : List Node) (nickname : CString) : Option Node :=
  match nodeGetByHexId nodes nickname with
  | some node => some node
  | none =>
    if torStrlower nickname = unnamed then none
    -- the first of the matches
    else (nodes.filter (hasNickname nickname)).head?

/-! ### The nodes of a set -/

/-- A node that is to be added if it is in the set. -/
def wanted (env : Env) (excludeset : Option Routerset) (runningOnly : Bool) (node : Node) : Bool :=
  (!runningOnly || node.isRunning) && routersetContainsNode env excludeset node == 0

/-- `smartlist_add` of a node that satisfies a condition, if there is one. -/
def addIf (p : Node → Bool) (out : List Node) : Option Node → List Node
  | some node => if p node then out ++ [node] else out
  | none => out

/-- The branch of `routerset_get_all_nodes` that looks the elements up. -/
def lookupNodes (env : Env) (nodes : List Node) (routerset : Routerset) (excludeset : Option Routerset)
    (runningOnly : Bool) : List Node :=
  routerset.list.foldl
    (fun out name => addIf (wanted env excludeset runningOnly) out (nodeGetByNickname nodes name)) []

/-- The branch of `routerset_get_all_nodes` that goes through the node list. -/
def scanNodes (env : Env) (nodes : List Node) (routerset : Routerset) (excludeset : Option Routerset)
    (runningOnly : Bool) : List Node :=
  let inSet := fun node =>
    wanted env excludeset runningOnly node && routersetContainsNode env (some routerset) node != 0
  nodes.foldl (fun out node => addIf inSet out (some node)) []

/-- `routerset_get_all_nodes`: what it adds to `out`. -/
def routersetGetAllNodes (env : Env) (nodes : List Node) (routerset : Routerset) (excludeset : Option Routerset)
    (runningOnly : Bool) : List Node :=
  if routersetIsList routerset then lookupNodes env nodes routerset excludeset runningOnly
  else scanNodes env nodes routerset excludeset runningOnly

/-! ### Which node an element finds -/

/-- **An element finds a node**: it is a digest of the node's identity, without `=` behind it; or it is the
nickname of the node, other than `Unnamed`, and no earlier node of the list has this nickname. -/
def finds (nodes : List Node) (entry : CString) (node : Node) : Bool :=
  if isLegalHexdigest entry then
    (hexDigestNicknameDecode entry).any fun r => r.1 == node.identity && r.2 != some 0x3d
  else
    torStrlower entry != unnamed && hasNickname entry node &&
      !(nodes.takeWhile (·.identity != node.identity)).any (hasNickname entry)

/-! ### Resolving an element -/

theorem exists_base16Decode {s : CString} {n : ℕ} (hlen : s.length = 2 * n) (hhex : ∀ c ∈ s, torIsXDigit c =
    true) :
    ∃ d, base16Decode s = some d := by
  induction n generalizing s with
  | zero =>
    rw [Nat.mul_zero, List.length_eq_zero_iff] at hlen
    exact ⟨[], by rw [hlen]; rfl⟩
  | succ n ih =>
    match s, hlen with
    | c1 :: c2 :: s, hlen =>
      obtain ⟨v1, hv1⟩ := Option.isSome_iff_exists.mp (hhex c1 (by simp))
      obtain ⟨v2, hv2⟩ := Option.isSome_iff_exists.mp (hhex c2 (by simp))
      have hrest : s.length = 2 * n := by
        simp only [List.length_cons] at hlen
        omega
      obtain ⟨d, hd⟩ := ih hrest fun c hc => hhex c (by simp [hc])
      exact ⟨(16 * v1 + v2).toUInt8 :: d, by rw [base16Decode, hv1, hv2, hd]; rfl⟩

/-- A legal digest has 40 hexadecimal digits, and then nothing or a legal nickname behind `=` or `~`. -/
theorem isLegalHexdigest_iff (s : CString) :
    isLegalHexdigest s = true ↔
      hexDigestLen ≤ (skipDollar s).length ∧ ((skipDollar s).takeWhile torIsXDigit).length = hexDigestLen ∧
        (hexDigestLen < (skipDollar s).length → isQualifier (skipDollar s)[hexDigestLen]? = true ∧
          isLegalNickname ((skipDollar s).drop (hexDigestLen + 1)) = true) := by
  unfold isLegalHexdigest
  dsimp only
  split_ifs with h1 h2
  · simp only [false_iff]
    rintro ⟨-, -, h⟩
    simp [(h h1.1).1] at h1
  · simp only [false_iff]
    rintro ⟨-, -, h⟩
    simp [(h h2.1).2] at h2
  · simp only [Bool.and_eq_true, decide_eq_true_eq, ge_iff_le]
    constructor
    · rintro ⟨hlen, hhex⟩
      refine ⟨hlen, hhex, fun hlong => ?_⟩
      constructor
      · by_contra hq
        exact h1 ⟨hlong, by simpa using hq⟩
      · by_contra hn
        exact h2 ⟨hlong, by simpa using hn⟩
    · rintro ⟨hlen, hhex, -⟩
      exact ⟨hlen, hhex⟩

theorem length_le_of_isLegalNickname {s : CString} (h : isLegalNickname s =
    true) : s.length ≤ maxNicknameLen := by
  simp only [isLegalNickname, Bool.and_eq_true, decide_eq_true_eq] at h
  exact h.1.2

theorem length_skipDollar_le (s : CString) : (skipDollar s).length ≤ s.length := by
  unfold skipDollar
  split
  · rw [List.length_drop]
    omega
  · exact le_rfl

/-- A legal digest is decoded to the digest that goes into the map. -/
theorem hexDigestNicknameDecode_of_legal {s : CString} (h : isLegalHexdigest s = true) :
    ∃ d q, base16Decode ((skipDollar s).take hexDigestLen) = some d ∧
      hexDigestNicknameDecode s = some (d, q) := by
  obtain ⟨hlen, hhex, hrest⟩ := (isLegalHexdigest_iff s).mp h
  have htake : (skipDollar s).take hexDigestLen = (skipDollar s).takeWhile torIsXDigit := by
    rw [← hhex]
    exact (List.prefix_iff_eq_take.mp (List.takeWhile_prefix _)).symm
  obtain ⟨d, hd⟩ := exists_base16Decode (n := 20) (s := (skipDollar s).take hexDigestLen)
    (by rw [htake, hhex]; rfl) (fun c hc => List.mem_takeWhile_imp (htake ▸ hc))
  refine ⟨d, ?_⟩
  unfold hexDigestNicknameDecode
  dsimp only
  rw [if_neg (by omega), hd]
  by_cases hlong : hexDigestLen < (skipDollar s).length
  · obtain ⟨hq, hn⟩ := hrest hlong
    have hshort := length_le_of_isLegalNickname hn
    rw [List.length_drop] at hshort
    rw [if_pos ⟨hlong, hq, by omega⟩]
    exact ⟨_, rfl, rfl⟩
  · rw [if_neg (fun hc => hlong hc.1), if_pos (by omega)]
    exact ⟨_, rfl, rfl⟩

theorem hexDigestNicknameDecode_of_nickname {s : CString} (h : isLegalNickname s = true) :
    hexDigestNicknameDecode s = none := by
  have hlen := length_le_of_isLegalNickname h
  have hle := length_skipDollar_le s
  unfold maxNicknameLen at hlen
  unfold hexDigestNicknameDecode
  dsimp only
  rw [if_pos (by unfold hexDigestLen; omega)]

section Resolve

variable (nl : NodeList)

theorem nodeGetById_eq_some_iff (d : List UInt8) (n : Node) :
    nodeGetById nl.nodes d = some n ↔ n ∈ nl.nodes ∧ n.identity = d :=
  Lib.lookup_eq_some_iff nl.identity_nodup

theorem hasNickname_eq_false {e : CString} {n : Node} (hn : n ∈ nl.nodes) (he : maxNicknameLen < e.length) :
    hasNickname e n = false := by
  obtain ⟨nick, hnick, hlegal⟩ := (nl.node_ok n hn).nickname_legal
  have hlen := length_le_of_isLegalNickname hlegal
  unfold hasNickname
  rw [hnick, Option.any_some, beq_eq_false_iff_ne]
  intro hsame
  have := congrArg List.length hsame
  simp only [torStrlower, List.length_map] at this
  omega

/-- The first match of a list whose members have different keys. -/
theorem head?_filter_eq_some_iff {l : List Node} (hl : (l.map Node.identity).Nodup) (p : Node →
    Bool) (n : Node) :
    (l.filter p).head? = some n ↔
      n ∈ l ∧ p n = true ∧ (l.takeWhile (·.identity != n.identity)).any p = false := by
  induction l with
  | nil => simp
  | cons x l ih =>
    obtain ⟨hx, hl⟩ := List.nodup_cons.mp hl
    by_cases hxn : x = n
    · subst hxn
      cases hp : p x with
      | true => simp [hp]
      | false =>
        have hout : x ∉ l := fun hmem => hx (List.mem_map_of_mem hmem)
        rw [List.filter_cons_of_neg (by simp [hp]), ih hl]
        simp [hp, hout]
    · by_cases hmem : n ∈ l
      · have hid : (x.identity != n.identity) = true := by
          rw [bne_iff_ne]
          intro heq
          exact hx (heq ▸ List.mem_map_of_mem hmem)
        have htake : (x :: l).takeWhile (·.identity != n.identity) =
            x :: l.takeWhile (·.identity != n.identity) :=
          List.takeWhile_cons_of_pos hid
        rw [htake, List.any_cons]
        cases hp : p x with
        | true =>
          rw [List.filter_cons_of_pos hp, List.head?_cons]
          simp [hxn]
        | false =>
          rw [List.filter_cons_of_neg (by simp [hp]), ih hl]
          simp [hmem]
      · have hout : n ∉ x :: l := by simp [hmem, Ne.symm hxn]
        refine iff_of_false ?_ (fun h => hout h.1)
        intro hhead
        exact hout (List.mem_filter.mp (List.mem_of_mem_head? hhead)).1

/-- **Resolving an element**: `node_get_by_nickname` returns the node that the element finds. -/
theorem nodeGetByNickname_eq_some_iff {e : CString}
    (he : isLegalHexdigest e = true ∨ isLegalNickname e = true) (n : Node) :
    nodeGetByNickname nl.nodes e = some n ↔ n ∈ nl.nodes ∧ finds nl.nodes e n = true := by
  unfold nodeGetByNickname finds
  by_cases hhex : isLegalHexdigest e = true
  · obtain ⟨d, q, -, hdecode⟩ := hexDigestNicknameDecode_of_legal hhex
    have hlong : maxNicknameLen < e.length := by
      have := ((isLegalHexdigest_iff e).mp hhex).1
      have := length_skipDollar_le e
      unfold hexDigestLen at *
      unfold maxNicknameLen
      omega
    -- a digest that finds no node is no nickname either
    have hnone : (nl.nodes.filter (hasNickname e)).head? = none := by
      rw [List.head?_eq_none_iff, List.filter_eq_nil_iff]
      intro m hm
      rw [hasNickname_eq_false nl hm hlong]
      exact Bool.false_ne_true
    rw [if_pos hhex, hdecode, hnone, ite_self, Option.any_some]
    unfold nodeGetByHexId
    rw [hdecode]
    dsimp only
    cases hget : nodeGetById nl.nodes d with
    | none =>
      refine iff_of_false (by simp) ?_
      rintro ⟨hn, hfinds⟩
      simp only [Bool.and_eq_true, beq_iff_eq] at hfinds
      have := (nodeGetById_eq_some_iff nl d n).mpr ⟨hn, hfinds.1.symm⟩
      rw [hget] at this
      cases this
    | some m =>
      obtain ⟨hm, hid⟩ := (nodeGetById_eq_some_iff nl d m).mp hget
      by_cases hq : q = some 0x3d
      · simp [hq]
      · have hkey : (n ∈ nl.nodes ∧ n.identity = d) ↔ m = n := by
          rw [← nodeGetById_eq_some_iff, hget, Option.some.injEq]
        simp only [hq, if_false, Option.some.injEq, Bool.and_eq_true, beq_iff_eq, bne_iff_ne, ne_eq,
          not_false_eq_true, and_true, eq_comm (a := d), hkey]
  · have hnick := he.resolve_left hhex
    have hbyhex : nodeGetByHexId nl.nodes e = none := by
      unfold nodeGetByHexId
      rw [hexDigestNicknameDecode_of_nickname hnick]
    rw [if_neg hhex, hbyhex]
    dsimp only
    by_cases hun : torStrlower e = unnamed
    · simp [hun]
    · rw [if_neg hun, head?_filter_eq_some_iff nl.identity_nodup]
      simp [hun]

end Resolve

/-! ### Elements and members -/

theorem expandUnspec_ne_nil (p : SetPolicy) : expandUnspec p ≠ [] := by
  unfold expandUnspec
  split_ifs <;> simp

theorem Consistent.legal {env : Env} {set : Routerset} (h : Consistent env set) (hlist : routersetIsList set =
    true)
    {e : CString} (he : e ∈ set.list) : isLegalHexdigest e = true ∨ isLegalNickname e = true := by
  simp only [routersetIsList, Bool.and_eq_true, beq_iff_eq, List.length_eq_zero_iff] at hlist
  obtain ⟨hcountries, hpolicies⟩ := hlist
  have hcountry : countryPart env e = none :=
    List.filterMap_eq_nil_iff.mp (h.countryNames_eq.symm.trans hcountries) e he
  have hpolicy : policyPart env e = none := by
    have hempty := h.policies_eq.symm.trans hpolicies
    unfold policyExpandUnspec at hempty
    refine List.filterMap_eq_nil_iff.mp ?_ e he
    rw [List.flatMap_eq_nil_iff] at hempty
    exact List.eq_nil_iff_forall_not_mem.mpr fun p hp => expandUnspec_ne_nil p (hempty p hp)
  by_contra hnot
  obtain ⟨hhex, hnick⟩ := not_or.mp hnot
  have hkept := h.kept e he
  unfold countryPart at hcountry
  unfold policyPart at hpolicy
  unfold Nodelist.kept at hkept
  cases hkind : kindOf env e with
  | digest d =>
    unfold kindOf at hkind
    rw [if_neg hhex, if_neg hnick] at hkind
    split at hkind
    · cases hkind
    · split at hkind
      · split at hkind <;> cases hkind
      · cases hkind
  | name n =>
    unfold kindOf at hkind
    rw [if_neg hhex, if_neg hnick] at hkind
    split at hkind
    · cases hkind
    · split at hkind
      · split at hkind <;> cases hkind
      · cases hkind
  | country cc =>
    rw [hkind] at hcountry
    cases hcountry
  | policy p =>
    rw [hkind] at hpolicy
    cases hpolicy
  | malformed => simp [hkind] at hkept
  | ignored => simp [hkind] at hkept

theorem containsNode_of_listed (env : Env) (set : Routerset) {n : Node} (hok : n.Ok)
    (h : (∃ nick, nodeGetNickname n = some nick ∧ torStrlower nick ∈ set.names) ∨ n.identity ∈ set.digests) :
    routersetContainsNode env (some set) n ≠ 0 := by
  obtain ⟨nick, hnick, -⟩ := hok.nickname_legal
  unfold nodeGetNickname at h hnick
  unfold routersetContainsNode
  cases hrs : n.rs with
  | some rs =>
    rw [hrs] at h
    dsimp only at h ⊢
    unfold routersetContainsRouterstatus
    rw [routersetContains2_ne_zero_iff]
    rcases h with ⟨nick', hnick', hmem⟩ | hmem
    · cases hnick'
      exact .inl ⟨_, rfl, hmem⟩
    · exact .inr (.inl ⟨_, rfl, hok.rs_identity rs hrs ▸ hmem⟩)
  | none =>
    rw [hrs] at h hnick
    cases hri : n.ri with
    | none =>
      rw [hri] at hnick
      cases hnick
    | some ri =>
      rw [hri] at h
      dsimp only at h ⊢
      unfold routersetContainsRouter
      rw [routersetContains2_ne_zero_iff]
      rcases h with ⟨nick', hnick', hmem⟩ | hmem
      · cases hnick'
        exact .inl ⟨_, rfl, hmem⟩
      · exact .inr (.inl ⟨_, rfl, hok.ri_identity ri hri ▸ hmem⟩)

/-- **What an element finds is in the set.** -/
theorem containsNode_of_finds {env : Env} {set : Routerset} (h : Consistent env set) {nl : NodeList}
    {e : CString} (he : e ∈ set.list) (hlegal : isLegalHexdigest e = true ∨ isLegalNickname e = true) {n : Node}
    (hn : n ∈ nl.nodes) (hfinds : finds nl.nodes e n = true) : routersetContainsNode env (some set) n ≠ 0 := by
  refine containsNode_of_listed env set (nl.node_ok n hn) ?_
  unfold finds at hfinds
  by_cases hhex : isLegalHexdigest e = true
  · right
    obtain ⟨d, q, hbase, hdecode⟩ := hexDigestNicknameDecode_of_legal hhex
    rw [if_pos hhex, hdecode, Option.any_some, Bool.and_eq_true, beq_iff_eq] at hfinds
    rw [h.mem_digests, List.mem_filterMap]
    refine ⟨e, he, ?_⟩
    unfold digestPart kindOf
    rw [if_pos hhex, hbase, ← hfinds.1]
    rfl
  · left
    have hnick := hlegal.resolve_left hhex
    rw [if_neg hhex, Bool.and_eq_true, Bool.and_eq_true] at hfinds
    obtain ⟨nick, hget, -⟩ := (nl.node_ok n hn).nickname_legal
    have hsame := hfinds.1.2
    unfold hasNickname at hsame
    rw [hget, Option.any_some, beq_iff_eq] at hsame
    refine ⟨nick, hget, ?_⟩
    rw [h.mem_names, List.mem_filterMap]
    refine ⟨e, he, ?_⟩
    unfold namePart kindOf
    rw [if_neg hhex, if_pos hnick, hsame]

/-! ### The two branches -/

section Branches

variable (env : Env) (nodes : List Node) (set : Routerset) (excludeset : Option Routerset) (runningOnly : Bool)

/-- A loop that adds what it finds and keeps. -/
theorem foldl_addIf {α : Type} (f : α → Option Node) (p : Node → Bool) (l : List α) (out : List Node) :
    l.foldl (fun out a => addIf p out (f a)) out = out ++ (l.filterMap f).filter p := by
  induction l generalizing out with
  | nil => simp
  | cons a l ih =>
    rw [List.foldl_cons, ih]
    cases hf : f a with
    | none => simp [addIf, hf]
    | some b => cases hp : p b <;> simp [addIf, hf, hp]

theorem lookupNodes_eq : lookupNodes env nodes set excludeset runningOnly =
    (set.list.filterMap (nodeGetByNickname nodes)).filter (wanted env excludeset runningOnly) := by
  unfold lookupNodes
  rw [foldl_addIf, List.nil_append]

theorem scanNodes_eq : scanNodes env nodes set excludeset runningOnly =
    nodes.filter fun n => wanted env excludeset runningOnly n && routersetContainsNode env (some set) n != 0 :=
      by
  unfold scanNodes
  rw [foldl_addIf some, List.nil_append, List.filterMap_some]

end Branches

/-- The branch that looks the elements up adds each node of the other branch, once, and no others. -/
structure Agrees (env : Env) (nodes : List Node) (set : Routerset) (excludeset : Option Routerset)
    (runningOnly : Bool) : Prop where
  nodup : (lookupNodes env nodes set excludeset runningOnly).Nodup
  mem_iff : ∀ n, n ∈ lookupNodes env nodes set excludeset runningOnly ↔
    n ∈ scanNodes env nodes set excludeset runningOnly

/-- **The two branches agree** iff each node that is wanted and in the set is found by exactly one element. -/
theorem lookupNodes_agrees_iff {env : Env} (nl : NodeList) {set : Routerset} (h : Consistent env set)
    (hlist : routersetIsList set = true) (excludeset : Option Routerset) (runningOnly : Bool) :
    Agrees env nl.nodes set excludeset runningOnly ↔
      ∀ n ∈ nl.nodes, wanted env excludeset runningOnly n = true → routersetContainsNode env (some set) n ≠ 0 →
        set.list.countP (finds nl.nodes · n) = 1 := by
  have hcount : ∀ n ∈ nl.nodes, wanted env excludeset runningOnly n = true →
      (lookupNodes env nl.nodes set excludeset runningOnly).count n = set.list.countP (finds nl.nodes · n) := by
    intro n hn hw
    rw [lookupNodes_eq, List.count_filter hw, List.count_filterMap]
    refine List.countP_congr fun e he => ?_
    rw [beq_iff_eq, nodeGetByNickname_eq_some_iff nl (h.legal hlist he)]
    simp [hn]
  have hsound : ∀ n ∈ lookupNodes env nl.nodes set excludeset runningOnly,
      n ∈ nl.nodes ∧ wanted env excludeset runningOnly n = true ∧ routersetContainsNode env (some set) n ≠ 0 :=
        by
    intro n hmem
    rw [lookupNodes_eq, List.mem_filter, List.mem_filterMap] at hmem
    obtain ⟨⟨e, he, hget⟩, hw⟩ := hmem
    obtain ⟨hn, hfinds⟩ := (nodeGetByNickname_eq_some_iff nl (h.legal hlist he) n).mp hget
    exact ⟨hn, hw, containsNode_of_finds h he (h.legal hlist he) hn hfinds⟩
  have hscan : ∀ n, n ∈ scanNodes env nl.nodes set excludeset runningOnly ↔
      n ∈ nl.nodes ∧ wanted env excludeset runningOnly n = true ∧ routersetContainsNode env (some set) n ≠ 0 :=
        by
    intro n
    rw [scanNodes_eq, List.mem_filter, Bool.and_eq_true, bne_iff_ne]
  constructor
  · rintro ⟨hnodup, hmem⟩ n hn hw hin
    have hadded := (hmem n).mpr ((hscan n).mpr ⟨hn, hw, hin⟩)
    rw [← hcount n hn hw]
    exact le_antisymm (List.nodup_iff_count_le_one.mp hnodup n) (List.count_pos_iff.mpr hadded)
  · intro hone
    refine ⟨List.nodup_iff_count_le_one.mpr fun n => ?_, fun n => ?_⟩
    · by_cases hmem : n ∈ lookupNodes env nl.nodes set excludeset runningOnly
      · obtain ⟨hn, hw, hin⟩ := hsound n hmem
        rw [hcount n hn hw, hone n hn hw hin]
      · rw [List.count_eq_zero_of_not_mem hmem]
        exact Nat.zero_le 1
    · rw [hscan]
      refine ⟨hsound n, ?_⟩
      rintro ⟨hn, hw, hin⟩
      rw [← List.count_pos_iff, hcount n hn hw, hone n hn hw hin]
      exact Nat.one_pos

/-- No geoip database, and no address patterns. -/
def bareEnv : Env := ⟨fun _ => .inr true, false, 0, fun _ => none, fun _ => -1⟩

def bareSet (text : CString) : Routerset := (routersetParse bareEnv routersetNew text).1

theorem consistent_bareSet (text : CString) : Consistent bareEnv (bareSet text) :=
  (consistent_routersetNew bareEnv).routersetParse _

/-- A node with a nickname of one letter, whose identity is one byte, twenty times. -/
def nodeCalled (c byte : UInt8) : Node :=
  ⟨List.replicate 20 byte, some ⟨[c], List.replicate 20 byte, ⟨0, .inet 0x01020304⟩, 9001⟩, none, true, -1⟩

theorem nodeCalled_ok {c : UInt8} (byte : UInt8) (hc : isLegalNickname [c] = true) : (nodeCalled c byte).Ok where
  rs_identity rs hrs := by
    cases hrs
    rfl
  ri_identity ri hri := by cases hri
  nickname_legal := ⟨[c], rfl, hc⟩

/-- The nodes `a`, `b` and `c`. -/
def nodesAbc : NodeList where
  nodes := [nodeCalled 0x61 1, nodeCalled 0x62 2, nodeCalled 0x63 3]
  node_ok n hn := by
    simp only [List.mem_cons, List.not_mem_nil, or_false] at hn
    rcases hn with rfl | rfl | rfl <;> exact nodeCalled_ok _ (by decide)
  identity_nodup := by decide

/-- Two nodes that are called `a`. -/
def twoA : NodeList where
  nodes := [nodeCalled 0x61 1, nodeCalled 0x61 2]
  node_ok n hn := by
    rcases List.mem_pair.mp hn with rfl | rfl <;> exact nodeCalled_ok _ (by decide)
  identity_nodup := by decide

/-- The nickname `a` and the identity of `b`. -/
def nicknameAndDigest : CString := 0x61 :: 0x2c :: (List.replicate 20 [0x30, 0x32]).flatten

/-- Of three nodes, one is found by its nickname and one by its identity. -/
theorem lookupNodes_agrees_iff_three :
    (lookupNodes bareEnv nodesAbc.nodes (bareSet nicknameAndDigest) none false).length = 2 ∧
      Agrees bareEnv nodesAbc.nodes (bareSet nicknameAndDigest) none false :=
  ⟨by decide +kernel, (lookupNodes_agrees_iff nodesAbc (consistent_bareSet _) (by decide +kernel) none false).mpr
    (by decide +kernel)⟩

/-- A nickname that two nodes have: only the first is looked up. -/
theorem not_lookupNodes_agrees :
    ¬ ∀ (env : Env) (nl : NodeList) (set : Routerset) (excludeset : Option Routerset) (runningOnly : Bool),
      Consistent env set → routersetIsList set = true → Agrees env nl.nodes set excludeset runningOnly := by
  intro hall
  have h := hall bareEnv twoA (bareSet [0x61]) none false (consistent_bareSet _) (by decide +kernel)
  have hmem := (h.mem_iff (nodeCalled 0x61 2)).mpr (by decide +kernel)
  exact absurd hmem (by decide +kernel)

end TorEbpf.Nodelist
