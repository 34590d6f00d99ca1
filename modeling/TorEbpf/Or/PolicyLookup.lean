import TorEbpf.Or.Policies

/-!
# Policy lookups with missing information

If the port or the address is not known, a lookup looks for an entry that matches whatever it is.  If entries
in front of this one that may match say something else, the answer is only probable.

* `compareCautiously_accepted_iff`, `compareCautiously_rejected_iff` — when the answer is definite;
* `noportSound` — without the port, a definite answer is the answer for every port;
* `unknownSound_iff` — without the address, an entry without a mask is taken to match every address, but it
  only matches those of its family: what is behind it has to agree for the others.
-/

namespace TorEbpf.Or

open TorEbpf.Lib

/-! ### The lookups -/

/-- `addr_policy_result_t`. -/
inductive AddrPolicyAnswer where
  | accepted
  | rejected
  | probablyAccepted
  | probablyRejected
  deriving DecidableEq, Repr

/-- The loop of the two lookups: an entry may match (`possible`), and if so it may match whatever is not
known (`certain`). -/
def compareCautiously (possible certain : AddrPolicy → Bool) (maybeAccept maybeReject : Bool) :
    List AddrPolicy → AddrPolicyAnswer
  | [] => if maybeReject then .probablyAccepted else .accepted
  | tmpe :: policy =>
      if possible tmpe then
        if certain tmpe then
          if tmpe.policyType = .accept then
            if maybeReject then .probablyAccepted else .accepted
          else if maybeAccept then .probablyRejected else .rejected
        else if tmpe.policyType = .reject then
          compareCautiously possible certain maybeAccept true policy
        else compareCautiously possible certain true maybeReject policy
      else compareCautiously possible certain maybeAccept maybeReject policy

def compareKnownTorAddrToAddrPolicyNoport (addr : TorAddrPtr) (policy : List AddrPolicy) :
    AddrPolicyAnswer :=
  compareCautiously (fun tmpe => torAddrCompareMasked addr tmpe.addr tmpe.maskbits .exact = 0)
    (fun tmpe => tmpe.prtMin ≤ 1 && tmpe.prtMax ≥ 65535) false false policy

def compareUnknownTorAddrToAddrPolicy (port : UInt16) (policy : List AddrPolicy) : AddrPolicyAnswer :=
  compareCautiously (fun tmpe => tmpe.prtMin ≤ port && port ≤ tmpe.prtMax)
    (fun tmpe => tmpe.maskbits = 0) false false policy

/-! ### Definite answers -/

/-- **The entry that decides**: it matches whatever is not known, and the entries in front of it that may
match have the same action. -/
def Decides (possible certain : AddrPolicy → Bool) (policy before : List AddrPolicy) (d : AddrPolicy)
    (behind : List AddrPolicy) : Prop :=
  policy = before ++ d :: behind ∧ possible d = true ∧ certain d = true ∧
    ∀ e ∈ before, possible e = true → certain e = false ∧ e.policyType = d.policyType

section Definite

variable {possible certain : AddrPolicy → Bool} {maybeAccept maybeReject : Bool} {policy : List AddrPolicy}

theorem policyType_eq_reject {e : AddrPolicy} : e.policyType = .reject ↔ e.policyType ≠ .accept := by
  cases e.policyType <;> decide

/-- An entry in front that cannot match, or that says the same and is not certain. -/
theorem exists_decides_cons {e : AddrPolicy} {action : AddrPolicyAction}
    (h : possible e = true → certain e = false ∧ e.policyType = action) :
    (∃ before d behind, Decides possible certain (e :: policy) before d behind ∧ d.policyType = action) ↔
      ∃ before d behind, Decides possible certain policy before d behind ∧ d.policyType = action := by
  constructor
  · rintro ⟨before, d, behind, ⟨heq, hpossible, hcertain, hbefore⟩, hd⟩
    cases before with
    | nil =>
      cases heq
      rw [(h hpossible).1] at hcertain
      cases hcertain
    | cons e' before =>
      cases heq
      exact ⟨before, d, behind,
        ⟨rfl, hpossible, hcertain, fun e he => hbefore e (List.mem_cons_of_mem _ he)⟩, hd⟩
  · rintro ⟨before, d, behind, ⟨rfl, hpossible, hcertain, hbefore⟩, hd⟩
    refine ⟨e :: before, d, behind, ⟨rfl, hpossible, hcertain, fun e' he' => ?_⟩, hd⟩
    rcases List.mem_cons.mp he' with rfl | he'
    · rw [hd]
      exact h
    · exact hbefore e' he'

/-- An entry that may match and says something else, or one that is certain. -/
theorem not_exists_decides_cons {e : AddrPolicy} {action : AddrPolicyAction} (hpossible : possible e = true)
    (hne : e.policyType ≠ action) :
    ¬∃ before d behind, Decides possible certain (e :: policy) before d behind ∧ d.policyType = action := by
  rintro ⟨before, d, behind, ⟨heq, _, _, hbefore⟩, hd⟩
  cases before with
  | nil =>
    cases heq
    exact hne hd
  | cons e' before =>
    cases heq
    exact hne ((hbefore e List.mem_cons_self hpossible).2.trans hd)

/-- **Accepted** for certain. -/
theorem compareCautiously_accepted_iff :
    compareCautiously possible certain maybeAccept maybeReject policy = .accepted ↔ maybeReject = false ∧
      ((∃ before d behind, Decides possible certain policy before d behind ∧ d.policyType = .accept) ∨
        ∀ e ∈ policy, possible e = true → certain e = false ∧ e.policyType = .accept) := by
  induction policy generalizing maybeAccept maybeReject with
  | nil =>
    rw [compareCautiously]
    cases maybeReject with
    | true => exact iff_of_false nofun fun h => Bool.noConfusion h.1
    | false => exact iff_of_true rfl ⟨rfl, .inr nofun⟩
  | cons e policy ih =>
    rw [compareCautiously, List.forall_mem_cons]
    by_cases hpossible : possible e = true
    · rw [if_pos hpossible]
      by_cases haccept : e.policyType = .accept
      · by_cases hcertain : certain e = true
        · rw [if_pos hcertain, if_pos haccept]
          cases maybeReject with
          | true => exact iff_of_false nofun fun h => Bool.noConfusion h.1
          | false =>
            exact iff_of_true rfl ⟨rfl, .inl ⟨[], e, policy, ⟨rfl, hpossible, hcertain, nofun⟩, haccept⟩⟩
        · have hsame : possible e = true → certain e = false ∧ e.policyType = .accept := fun _ =>
            ⟨Bool.eq_false_of_not_eq_true hcertain, haccept⟩
          rw [if_neg hcertain, if_neg (by rw [haccept]; decide), ih, exists_decides_cons hsame,
            and_iff_right hsame]
      · have hnone := @not_exists_decides_cons possible certain policy e .accept hpossible haccept
        have hright : ¬(maybeReject = false ∧
            ((∃ before d behind, Decides possible certain (e :: policy) before d behind ∧
                d.policyType = .accept) ∨
              (possible e = true → certain e = false ∧ e.policyType = .accept) ∧
                ∀ e ∈ policy, possible e = true → certain e = false ∧ e.policyType = .accept)) := by
          rintro ⟨_, h | h⟩
          · exact hnone h
          · exact haccept (h.1 hpossible).2
        by_cases hcertain : certain e = true
        · rw [if_pos hcertain, if_neg haccept]
          refine iff_of_false ?_ hright
          cases maybeAccept <;> nofun
        · rw [if_neg hcertain, if_pos (policyType_eq_reject.mpr haccept), ih]
          exact iff_of_false (fun h => Bool.noConfusion h.1) hright
    · have hsame : possible e = true → certain e = false ∧ e.policyType = .accept := fun h =>
        absurd h hpossible
      rw [if_neg hpossible, ih, exists_decides_cons hsame, and_iff_right hsame]

/-- **Rejected** for certain. -/
theorem compareCautiously_rejected_iff :
    compareCautiously possible certain maybeAccept maybeReject policy = .rejected ↔ maybeAccept = false ∧
      ∃ before d behind, Decides possible certain policy before d behind ∧ d.policyType = .reject := by
  induction policy generalizing maybeAccept maybeReject with
  | nil =>
    rw [compareCautiously]
    refine iff_of_false ?_ ?_
    · cases maybeReject <;> nofun
    · rintro ⟨_, before, d, behind, ⟨heq, _⟩, _⟩
      exact List.cons_ne_nil d behind (List.append_eq_nil_iff.mp heq.symm).2
  | cons e policy ih =>
    rw [compareCautiously]
    by_cases hpossible : possible e = true
    · rw [if_pos hpossible]
      by_cases hreject : e.policyType = .reject
      · by_cases hcertain : certain e = true
        · rw [if_pos hcertain, if_neg (policyType_eq_reject.mp hreject)]
          cases maybeAccept with
          | true => exact iff_of_false nofun fun h => Bool.noConfusion h.1
          | false =>
            exact iff_of_true rfl ⟨rfl, [], e, policy, ⟨rfl, hpossible, hcertain, nofun⟩, hreject⟩
        · have hsame : possible e = true → certain e = false ∧ e.policyType = .reject := fun _ =>
            ⟨Bool.eq_false_of_not_eq_true hcertain, hreject⟩
          rw [if_neg hcertain, if_pos hreject, ih, exists_decides_cons hsame]
      · have hnone := @not_exists_decides_cons possible certain policy e .reject hpossible hreject
        by_cases hcertain : certain e = true
        · rw [if_pos hcertain, if_pos (not_not.mp (mt policyType_eq_reject.mpr hreject))]
          refine iff_of_false ?_ fun h => hnone h.2
          cases maybeReject <;> nofun
        · rw [if_neg hcertain, if_neg hreject, ih]
          exact iff_of_false (fun h => Bool.noConfusion h.1) fun h => hnone h.2
    · have hsame : possible e = true → certain e = false ∧ e.policyType = .reject := fun h =>
        absurd h hpossible
      rw [if_neg hpossible, ih, exists_decides_cons hsame]

end Definite

/-! ### Soundness -/

def IsIp (addr : TorAddrPtr) : Prop := torAddrFamily addr = .inet ∨ torAddrFamily addr = .inet6

/-- Without the port: a definite answer is the one for every port. -/
def NoportSound (policy : List AddrPolicy) (addr : TorAddrPtr) : Prop :=
  (compareKnownTorAddrToAddrPolicyNoport addr policy = .accepted →
      ∀ port, 1 ≤ port → compareKnownTorAddrToAddrPolicy addr port policy = .accepted) ∧
    (compareKnownTorAddrToAddrPolicyNoport addr policy = .rejected →
      ∀ port, 1 ≤ port → compareKnownTorAddrToAddrPolicy addr port policy = .rejected)

/-- Without the address: a definite answer is the one for every address. -/
def UnknownSound (policy : List AddrPolicy) (port : UInt16) : Prop :=
  (compareUnknownTorAddrToAddrPolicy port policy = .accepted →
      ∀ addr, IsIp addr → compareKnownTorAddrToAddrPolicy addr port policy = .accepted) ∧
    (compareUnknownTorAddrToAddrPolicy port policy = .rejected →
      ∀ addr, IsIp addr → compareKnownTorAddrToAddrPolicy addr port policy = .rejected)

/-- The first of the entries that matches has this action; or none does, and the action is to accept. -/
def FirstMatchIs (action : AddrPolicyAction) (addr : TorAddrPtr) (port : UInt16) (l : List AddrPolicy) :
    Prop :=
  (∃ before e behind, l = before ++ e :: behind ∧ e.matches addr port = true ∧
      (∀ e' ∈ before, e'.matches addr port = false) ∧ e.policyType = action) ∨
    (∀ e ∈ l, e.matches addr port = false) ∧ action = .accept

def AddrPolicy.hasPort (port : UInt16) (e : AddrPolicy) : Bool := e.prtMin ≤ port && port ≤ e.prtMax

/-- **What is behind the entry that decides**, for the addresses of other families that get there: it has to
do what the entry does. -/
def Uniform (policy : List AddrPolicy) (port : UInt16) : Prop :=
  ∀ before d behind, Decides (AddrPolicy.hasPort port) (·.maskbits = 0) policy before d behind →
    ∀ addr, IsIp addr → torAddrFamily addr ≠ torAddrFamily d.addr →
      (∀ e ∈ before, e.matches addr port = false) → FirstMatchIs d.policyType addr port behind

section Sound

variable {policy before behind : List AddrPolicy} {d e : AddrPolicy} {addr : TorAddrPtr} {port : UInt16}
  {action : AddrPolicyAction}

/-- The answer that an action gives. -/
def AddrPolicyAction.result (action : AddrPolicyAction) : AddrPolicyResult :=
  if action = .accept then .accepted else .rejected

theorem result_inj {action' : AddrPolicyAction} : action.result = action'.result ↔ action = action' := by
  cases action <;> cases action' <;> decide

theorem compareKnown_eq_result_iff : compareKnownTorAddrToAddrPolicy addr port policy = action.result ↔
    FirstMatchIs action addr port policy := by
  have hresult : ∀ e : AddrPolicy, e.result = action.result ↔ e.policyType = action := fun e => result_inj
  have hdefault : AddrPolicyResult.accepted = action.result ↔ action = .accept := by
    cases action <;> decide
  rw [compareKnown_eq_answer, answer_eq_iff, FirstMatchIs]
  simp only [hresult, hdefault]

/-- An entry in front that decides the same way, or does not match. -/
theorem compareKnown_of_before (hbefore : ∀ e ∈ before, e.matches addr port = true → e.policyType = action)
    (h : (∀ e ∈ before, e.matches addr port = false) →
      compareKnownTorAddrToAddrPolicy addr port policy = action.result) :
    compareKnownTorAddrToAddrPolicy addr port (before ++ policy) = action.result := by
  rw [compareKnown_eq_answer, answer_append, ← compareKnown_eq_answer]
  rw [answer_eq_iff]
  by_cases hnone : ∀ e ∈ before, e.matches addr port = false
  · exact .inr ⟨hnone, h hnone⟩
  · left
    obtain ⟨l₁, e, l₂, heq, hmatch, hfirst⟩ : ∃ l₁ e l₂, before = l₁ ++ e :: l₂ ∧
        e.matches addr port = true ∧ ∀ b ∈ l₁, AddrPolicy.matches addr port b = false := by
      rcases answer_eq_iff.mp (Eq.refl (answer (AddrPolicy.matches addr port) AddrPolicy.result .accepted
        before)) with ⟨l₁, e, l₂, heq, hmatch, hfirst, _⟩ | ⟨hall, _⟩
      · exact ⟨l₁, e, l₂, heq, hmatch, hfirst⟩
      · exact absurd hall hnone
    refine ⟨l₁, e, l₂, heq, hmatch, hfirst, ?_⟩
    have htype := hbefore e (heq ▸ List.mem_append_right _ List.mem_cons_self) hmatch
    rw [AddrPolicy.result, htype]
    rfl

theorem hasPort_of_matches (h : e.matches addr port = true) : e.hasPort port = true := by
  unfold AddrPolicy.matches at h
  exact (Bool.and_eq_true_iff.mp h).2

/-- An entry without a mask matches the addresses of its family, and only these. -/
theorem matches_iff_of_maskbits_eq_zero (haddr : IsIp addr) (hmask : d.maskbits = 0)
    (hport : d.hasPort port = true) :
    d.matches addr port = true ↔ torAddrFamily addr = torAddrFamily d.addr := by
  have hports := Bool.and_eq_true_iff.mp hport
  rw [AddrPolicy.matches_iff, hmask]
  constructor
  · rintro ⟨hkey, _⟩
    rw [← maskedKey_fst addr, ← maskedKey_fst d.addr]
    exact congrArg Prod.fst hkey
  · intro hfam
    refine ⟨maskedKey_zero hfam ?_, of_decide_eq_true hports.1, of_decide_eq_true hports.2⟩
    rcases haddr with h | h <;> rw [h] <;> decide

/-- **Without the port** a definite answer is always right. -/
theorem noportSound (policy : List AddrPolicy) (addr : TorAddrPtr) : NoportSound policy addr := by
  have hmatches : ∀ {e : AddrPolicy} {port : UInt16}, e.matches addr port = true →
      decide (torAddrCompareMasked addr e.addr e.maskbits .exact = 0) = true := by
    intro e port h
    unfold AddrPolicy.matches at h
    rw [Bool.and_eq_true, beq_iff_eq] at h
    exact decide_eq_true h.1
  -- the entry that decides has every port
  have hdecides : ∀ {action}, (∃ before d behind,
      Decides (fun e => decide (torAddrCompareMasked addr e.addr e.maskbits .exact = 0))
        (fun e => decide (e.prtMin ≤ 1) && decide (e.prtMax ≥ 65535)) policy before d behind ∧
      d.policyType = action) → ∀ port, 1 ≤ port →
        compareKnownTorAddrToAddrPolicy addr port policy = action.result := by
    rintro action ⟨before, d, behind, ⟨rfl, hpossible, hcertain, hbefore⟩, rfl⟩ port hport
    refine compareKnown_of_before (fun e he hmatch => (hbefore e he (hmatches hmatch)).2) fun _ => ?_
    have hall : d.matches addr port = true := by
      rw [Bool.and_eq_true, decide_eq_true_eq, decide_eq_true_eq, UInt16.le_iff_toNat_le, ge_iff_le,
        UInt16.le_iff_toNat_le] at hcertain
      rw [decide_eq_true_eq] at hpossible
      have hlt := port.toNat_lt
      have hmax : (65535 : UInt16).toNat = 65535 := rfl
      rw [UInt16.le_iff_toNat_le] at hport
      rw [AddrPolicy.matches, Bool.and_eq_true, Bool.and_eq_true, beq_iff_eq, decide_eq_true_eq,
        decide_eq_true_eq, UInt16.le_iff_toNat_le, UInt16.le_iff_toNat_le]
      exact ⟨hpossible, by omega, by omega⟩
    have hnone : ∀ e ∈ ([] : List AddrPolicy), e.matches addr port = false := by simp
    exact compareKnown_eq_result_iff.mpr (.inl ⟨[], d, behind, rfl, hall, hnone, rfl⟩)
  constructor
  · intro h
    obtain ⟨_, hdecided | hall⟩ := compareCautiously_accepted_iff.mp h
    · exact hdecides hdecided
    · intro port _
      have hdefault : compareKnownTorAddrToAddrPolicy addr port (policy ++ []) = .accepted :=
        @compareKnown_of_before [] policy addr port .accept
          (fun e he hmatch => (hall e he (hmatches hmatch)).2) fun _ => rfl
      rwa [List.append_nil] at hdefault
  · intro h
    exact hdecides (compareCautiously_rejected_iff.mp h).2

/-- What a policy says about an address behind the entry that decides. -/
theorem compareKnown_of_decides
    (h : Decides (AddrPolicy.hasPort port) (·.maskbits = 0) policy before d behind) (haddr : IsIp addr) :
    compareKnownTorAddrToAddrPolicy addr port policy = d.policyType.result ↔
      (torAddrFamily addr ≠ torAddrFamily d.addr → (∀ e ∈ before, e.matches addr port = false) →
        FirstMatchIs d.policyType addr port behind) := by
  obtain ⟨rfl, hport, hmask, hbefore⟩ := h
  have hd := matches_iff_of_maskbits_eq_zero haddr (of_decide_eq_true hmask) hport
  constructor
  · intro hknown hfam hnone
    have hdfalse : d.matches addr port = false := Bool.eq_false_of_not_eq_true fun h => hfam (hd.mp h)
    rw [compareKnown_eq_answer, answer_append] at hknown
    rw [← compareKnown_eq_result_iff, compareKnown_eq_answer]
    rcases answer_eq_iff.mp hknown with ⟨l₁, e, l₂, heq, hmatch, _⟩ | ⟨_, hrest⟩
    · rw [hnone e (heq ▸ List.mem_append_right _ List.mem_cons_self)] at hmatch
      cases hmatch
    · rwa [answer_cons_of_neg hdfalse] at hrest
  · intro hbehind
    have hsame : ∀ e ∈ before, e.matches addr port = true → e.policyType = d.policyType := fun e he hmatch =>
      (hbefore e he (hasPort_of_matches hmatch)).2
    refine compareKnown_of_before hsame fun hnone => ?_
    rw [compareKnown_eq_answer]
    by_cases hfam : torAddrFamily addr = torAddrFamily d.addr
    · rw [answer_cons_of_pos (hd.mpr hfam)]
      rfl
    · rw [answer_cons_of_neg (Bool.eq_false_of_not_eq_true fun h => hfam (hd.mp h)), ← compareKnown_eq_answer,
        compareKnown_eq_result_iff]
      exact hbehind hfam hnone

/-- **Without the address** a definite answer is right exactly if what is behind the entry that decides
agrees with it. -/
theorem unknownSound_iff (policy : List AddrPolicy) (port : UInt16) :
    UnknownSound policy port ↔ Uniform policy port := by
  have haccepted : compareUnknownTorAddrToAddrPolicy port policy = .accepted ↔ _ :=
    compareCautiously_accepted_iff
  have hrejected : compareUnknownTorAddrToAddrPolicy port policy = .rejected ↔ _ :=
    compareCautiously_rejected_iff
  constructor
  · intro ⟨haccept, hreject⟩ before d behind hdecides addr haddr
    rw [← compareKnown_of_decides hdecides haddr]
    cases htype : d.policyType with
    | accept => exact haccept (haccepted.mpr ⟨rfl, .inl ⟨before, d, behind, hdecides, htype⟩⟩) addr haddr
    | reject => exact hreject (hrejected.mpr ⟨rfl, before, d, behind, hdecides, htype⟩) addr haddr
  · intro huniform
    have hdecided : ∀ {action}, (∃ before d behind,
        Decides (AddrPolicy.hasPort port) (·.maskbits = 0) policy before d behind ∧ d.policyType = action) →
        ∀ addr, IsIp addr → compareKnownTorAddrToAddrPolicy addr port policy = action.result := by
      rintro action ⟨before, d, behind, hdecides, rfl⟩ addr haddr
      exact (compareKnown_of_decides hdecides haddr).mpr (huniform before d behind hdecides addr haddr)
    refine ⟨fun h => ?_, fun h => hdecided (hrejected.mp h).2⟩
    obtain ⟨_, hd | hall⟩ := haccepted.mp h
    · exact hdecided hd
    · intro addr _
      have hdefault : compareKnownTorAddrToAddrPolicy addr port (policy ++ []) = .accepted :=
        @compareKnown_of_before [] policy addr port .accept
          (fun e he hmatch => (hall e he (hasPort_of_matches hmatch)).2) fun _ => rfl
      rwa [List.append_nil] at hdefault

/-- **Lookups with missing information** are sound for a policy exactly if, for every port, what is behind the
entry that decides agrees with it. -/
theorem lookupsSound_iff (policy : List AddrPolicy) :
    ((∀ addr, NoportSound policy addr) ∧ ∀ port, port ≠ 0 → UnknownSound policy port) ↔
      ∀ port, port ≠ 0 → Uniform policy port := by
  rw [and_iff_right (noportSound policy)]
  simp only [unknownSound_iff]

end Sound

/-- `reject *4:80`, asked about port 80. -/
theorem not_lookupsSound_rejectInet :
    compareUnknownTorAddrToAddrPolicy 80 [⟨.reject, 0, ⟨1, .inet 0⟩, 80, 80⟩] = .rejected ∧
      compareKnownTorAddrToAddrPolicy ⟨2, .inet6 ⟨List.replicate 15 0 ++ [1], by decide⟩⟩ 80
        [⟨.reject, 0, ⟨1, .inet 0⟩, 80, 80⟩] = .accepted := by
  decide

end TorEbpf.Or
