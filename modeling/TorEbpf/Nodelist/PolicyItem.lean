import TorEbpf.Net.MaskPortsGrammar
import TorEbpf.Nodelist.Routerset
import TorEbpf.Or.Versions

/-!
# One entry of an address policy

`router_parse_addr_policy_item_from_string` reads one entry of an exit policy with the tokenizer of directory
documents.  A text that starts with an address or `*` is read as if the assumed action stood in front of it;
any other text has to have an action of its own, which may be to accept.
-/

namespace TorEbpf.Nodelist

open TorEbpf.Lib TorEbpf.Net TorEbpf.Or TorEbpf.Strings

/-! ### Tokens -/

inductive PolicyKeyword where
  | accept
  | accept6
  | reject
  | reject6
  deriving DecidableEq, Repr

/-- The texts `accept`, `reject`, `opt`, `private` and `-----BEGIN `. -/
def acceptText : CString := [0x61, 0x63, 0x63, 0x65, 0x70, 0x74]
def rejectText : CString := [0x72, 0x65, 0x6a, 0x65, 0x63, 0x74]
def optWord : CString := [0x6f, 0x70, 0x74]
def privateText : CString := [0x70, 0x72, 0x69, 0x76, 0x61, 0x74, 0x65]
def beginText : CString := List.replicate 5 0x2d ++ [0x42, 0x45, 0x47, 0x49, 0x4e, 0x20]

/-- The entries of `routerdesc_token_table` that are wanted here. -/
def policyKeyword (word : CString) : Option PolicyKeyword :=
  if word = acceptText then some .accept
  else if word = acceptText ++ [0x36] then some .accept6
  else if word = rejectText then some .reject
  else if word = rejectText ++ [0x36] then some .reject6
  else none

/-- `eat_whitespace_eos_no_nl`. -/
def eatWhitespaceNoNl (s : CString) : CString := s.dropWhile fun c => c = 0x20 || c = 0x09 || c = 0x0d

/-- The text up to where `find_whitespace` stops. -/
def nextWord (s : CString) : CString := s.takeWhile fun c => !endsWord c

/-- `get_token_arguments`; the number is how many arguments there may still be. -/
def getTokenArguments : ℕ → CString → Option (List CString)
  | _, [] => some []
  | 0, _ :: _ => none
  | j + 1, c :: cp =>
    let arg := nextWord (c :: cp)
    match (c :: cp).drop arg.length with
    | [] => some [arg]
    -- the character where the argument ends is overwritten, even a `#`
    | _ :: cp => (getTokenArguments j (eatWhitespace false cp)).map (arg :: ·)

/-- `MAX_ARGS` and `MAX_LINE_LENGTH`. -/
def maxArgs : ℕ := 512
def maxLineLength : ℕ := 128 * 1024

/-- There is an object behind a line: it starts with `-----BEGIN `, and its line ends. -/
def objectFollows (s : CString) : Bool := s.contains 0x0a && beginText.isPrefixOf s

/-- `get_next_token`, with the tokens that `router_parse_addr_policy_item_from_string` wants; none of them may
have an object. -/
def getNextToken (s : CString) : Option (PolicyKeyword × List CString) :=
  let s := eatWhitespace false s
  let line := s.takeWhile (· ≠ 0x0a)
  if line.length > maxLineLength then none
  else
    let start :=
      if nextWord line = optWord then eatWhitespaceNoNl (line.drop (nextWord line).length) else line
    match policyKeyword (nextWord start) with
    | none => none
    | some tp =>
      match getTokenArguments maxArgs (eatWhitespaceNoNl (start.drop (nextWord start).length)) with
      | none => none
      | some args => if objectFollows (eatWhitespace false (s.drop line.length)) then none else some (tp, args)

/-! ### Entries -/

def PolicyKeyword.action : PolicyKeyword → AddrPolicyAction
  | .accept | .accept6 => .accept
  | .reject | .reject6 => .reject

def PolicyKeyword.isIpv6 : PolicyKeyword → Bool
  | .accept6 | .reject6 => true
  | .accept | .reject => false

def routerParseAddrPolicyPrivate (tp : PolicyKeyword) (arg : CString) : Option SetPolicy :=
  if privateText.isPrefixOf arg then
    match eatWhitespace false (arg.drop privateText.length) with
    | 0x3a :: port =>
      (parsePortRange (some port)).map fun (portMin, portMax) =>
        ⟨⟨tp.action, 0, ⟨0, .unspec⟩, portMin.toUInt16, portMax.toUInt16⟩, true⟩
    | _ => none
  else none

/-- `TAPMP_EXTENDED_STAR`, and `TAPMP_STAR_IPV6_ONLY` for the keywords for IPv6; every result is wanted. -/
def policyArgs (tp : PolicyKeyword) : MaskPortsArgs :=
  ⟨true, false, tp.isIpv6, true, true, true, fun h => Bool.noConfusion h.1⟩

/-- `router_parse_addr_policy` with `TAPMP_EXTENDED_STAR`. -/
def routerParseAddrPolicy (tp : PolicyKeyword) (args : List CString) : Option SetPolicy :=
  match args with
  | [arg] =>
    if privateText.isPrefixOf arg then routerParseAddrPolicyPrivate tp arg
    else
      -- the parser of addresses has no faults
      match torAddrParseMaskPorts (policyArgs tp) arg with
      | .ok (some r) =>
        some ⟨⟨tp.action, (r.maskbits.getD 0).toUInt8, ⟨0, r.addr⟩, (r.portMin.getD 0).toUInt16,
          (r.portMax.getD 0).toUInt16⟩, false⟩
      | _ => none
  | _ => none

/-- The token of an entry, and the entry; or whether the list is malformed. -/
def policyItemOf (cp : CString) : SetPolicy ⊕ Bool :=
  match getNextToken cp with
  | none => .inr true
  | some (tp, args) =>
    match routerParseAddrPolicy tp args with
    | none => .inr true
    | some r => if tp.isIpv6 ∧ torAddrFamily r.addr ≠ .inet6 then .inr false else .inl r

/-- The text starts with an address or `*`, as far as an action can be assumed. -/
def startsAddress (s : CString) : Bool :=
  match s with
  | [] => false
  | c :: _ => c == 0x2a || c == 0x5b || isDigit c

def actionText : AddrPolicyAction → CString
  | .accept => acceptText
  | .reject => rejectText

def policyLineSize : ℕ := torAddrBufLen * 2 + 32

/-- `router_parse_addr_policy_item_from_string`: an entry, or the value of `*malformed_list`. -/
def routerParseAddrPolicyItemFromString (assumeAction : Option AddrPolicyAction) (s : CString) :
    SetPolicy ⊕ Bool :=
  let s := eatWhitespace false s
  match assumeAction with
  | none => policyItemOf s
  | some action =>
    if startsAddress s then
      match torSnprintf policyLineSize (actionText action ++ 0x20 :: s) with
      | none => .inr false
      | some line => policyItemOf (torStrlower line)
    else policyItemOf s

/-- `accept 1.2.3.4` keeps its own action. -/
example : routerParseAddrPolicyItemFromString (some .reject)
    (acceptText ++ [0x20, 0x31, 0x2e, 0x32, 0x2e, 0x33, 0x2e, 0x34]) =
      .inl ⟨⟨.accept, 32, ⟨0, .inet 0x01020304⟩, 1, 65535⟩, false⟩ := by
  decide +kernel

end TorEbpf.Nodelist
