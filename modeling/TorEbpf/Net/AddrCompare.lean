import TorEbpf.Or.Policies

/-!
# The order of addresses

Addresses of one family are compared by their bytes, addresses of different families by the family; the
semantic comparison takes an IPv4-mapped IPv6 address for its IPv4 address when it is compared with a native
one.

* `sign_torAddrCompare` — the comparison in terms of the numbers that the addresses are;
* `orderOn_iff` — on which sets of addresses the comparison is a total order: a native address, a mapped one
  that is not above it, and an IPv6 address in front of the mapped ones go around in a circle.
-/

namespace TorEbpf.Or

open TorEbpf.Lib

def torAddrCompare (addr1 addr2 : TorAddrPtr) (how : TorAddrComparison) : ℤ :=
  torAddrCompareMasked addr1 addr2 128 how

/-! ### Addresses as numbers -/

def in6Nat (a : Bytes 16) : ℕ := beNat a.val

/-- What an address is compared by. -/
inductive AddrKey where
  | unspec
  | inet (n : ℕ)
  | inet6 (n : ℕ)

/-- The key of an address; there is none for `AF_UNIX`. -/
def addrKey (a : TorAddrPtr) : AddrKey :=
  match a.addr with
  | .inet ipv4h => .inet ipv4h.toNat
  | .inet6 bytes => .inet6 (in6Nat bytes)
  | _ => .unspec

/-- The number is that of an IPv4-mapped address. -/
def IsMapped (n : ℕ) : Prop := n / 2 ^ 32 = 0xffff

instance (n : ℕ) : Decidable (IsMapped n) := inferInstanceAs (Decidable (_ = _))

def keyCompare (how : TorAddrComparison) : AddrKey → AddrKey → ℤ
  | .unspec, .unspec => 0
  | .unspec, _ => -1
  | _, .unspec => 1
  | .inet m, .inet n => tristate m n
  | .inet6 m, .inet6 n => tristate m n
  | .inet m, .inet6 n => if how = .semantic ∧ IsMapped n then tristate m (n % 2 ^ 32) else -1
  | .inet6 m, .inet n => if how = .semantic ∧ IsMapped m then tristate (m % 2 ^ 32) n else 1

section Numbers

variable {a b : Bytes 16}

theorem in6Nat_words (a : Bytes 16) : in6Nat a = beNat (slice a.val 0 4) * 2 ^ 96 +
    beNat (slice a.val 4 4) * 2 ^ 64 + beNat (slice a.val 8 4) * 2 ^ 32 + beNat (slice a.val 12 4) := by
  have hlen := a.length_eq
  have hsplit : a.val = slice a.val 0 4 ++ (slice a.val 4 4 ++ (slice a.val 8 4 ++ slice a.val 12 4)) := by
    have hlast : a.val.drop 12 = slice a.val 12 4 := by
      rw [slice, List.take_of_length_le (by rw [List.length_drop, hlen])]
    rw [← hlast]
    unfold slice
    rw [List.drop_zero]
    conv_lhs => rw [← List.take_append_drop 4 a.val, ← List.take_append_drop 4 (a.val.drop 4),
      ← List.take_append_drop 4 ((a.val.drop 4).drop 4), List.drop_drop, List.drop_drop]
  have hslice : ∀ off, off + 4 ≤ 16 → (slice a.val off 4).length = 4 := fun off h =>
    slice_length (by rw [hlen]; exact h)
  rw [in6Nat]
  conv_lhs => rw [hsplit]
  rw [beNat_append, beNat_append, beNat_append, List.length_append, List.length_append,
    hslice 4 (by decide), hslice 8 (by decide), hslice 12 (by decide)]
  ring

theorem beNat_slice_lt (a : Bytes 16) {off : ℕ} (h : off + 4 ≤ 16) : beNat (slice a.val off 4) < 2 ^ 32 := by
  have hlt := beNat_lt (slice a.val off 4)
  rw [slice_length (by rw [a.length_eq]; exact h)] at hlt
  exact hlt

theorem torAddrIsV4_inet6 (p : ℕ) (a : Bytes 16) : torAddrIsV4 ⟨p, .inet6 a⟩ = true ↔ IsMapped (in6Nat a) := by
  have h0 := beNat_slice_lt a (show 0 + 4 ≤ 16 by decide)
  have h1 := beNat_slice_lt a (show 4 + 4 ≤ 16 by decide)
  have h2 := beNat_slice_lt a (show 8 + 4 ≤ 16 by decide)
  have h3 := beNat_slice_lt a (show 12 + 4 ≤ 16 by decide)
  rw [torAddrIsV4, IsMapped, in6Nat_words]
  simp only [Bool.and_eq_true, beq_iff_eq]
  omega

theorem torAddrToMappedIpv4h_inet6 (p : ℕ) (a : Bytes 16) :
    torAddrToMappedIpv4h ⟨p, .inet6 a⟩ = in6Nat a % 2 ^ 32 := by
  have h3 := beNat_slice_lt a (show 12 + 4 ≤ 16 by decide)
  rw [torAddrToMappedIpv4h, in6Nat_words]
  dsimp only
  omega

theorem sign_tristate (m n : ℕ) : (tristate m n).sign = tristate m n := by
  unfold tristate
  split_ifs <;> rfl

theorem sign_torMemcmp {l m : List UInt8} (h : l.length = m.length) :
    (torMemcmp l m).sign = tristate (beNat l) (beNat m) := by
  induction l generalizing m with
  | nil =>
    have hm : m = [] := List.length_eq_zero_iff.mp h.symm
    rw [hm]
    rfl
  | cons x l ih =>
    cases m with
    | nil => cases h
    | cons y m =>
      have hlen : l.length = m.length := Nat.succ.inj h
      have hcons : torMemcmp (x :: l) (y :: m) =
          if x = y then torMemcmp l m else (x.toNat : ℤ) - y.toNat := rfl
      have hl := beNat_lt l
      have hm := beNat_lt m
      rw [hlen] at hl
      rw [hcons, beNat_cons, beNat_cons, hlen]
      by_cases hxy : x = y
      · rw [if_pos hxy, ih hlen, hxy]
        unfold tristate
        split_ifs <;> first | rfl | omega
      · have hne : x.toNat ≠ y.toNat := fun h => hxy (UInt8.toNat_inj.mp h)
        rw [if_neg hxy]
        unfold tristate
        rcases Nat.lt_or_gt_of_ne hne with hlt | hgt
        · have hmul := Nat.mul_le_mul_right (256 ^ m.length) (Nat.succ_le_of_lt hlt)
          rw [Nat.succ_mul] at hmul
          rw [if_pos (by omega), Int.sign_eq_neg_one_of_neg (by omega)]
        · have hmul := Nat.mul_le_mul_right (256 ^ m.length) (Nat.succ_le_of_lt hgt)
          rw [Nat.succ_mul] at hmul
          rw [if_neg (by omega), if_neg (by omega), Int.sign_eq_one_of_pos (by omega)]

end Numbers

/-! ### The comparison -/

section Compare

variable {p q : ℕ} {x y : UInt32} {a b : Bytes 16} {how : TorAddrComparison} {addr1 addr2 : TorAddrPtr}

theorem torAddrCompare_inet : torAddrCompare ⟨p, .inet x⟩ ⟨q, .inet y⟩ how = tristate x.toNat y.toNat := rfl

theorem torAddrCompare_inet6 : torAddrCompare ⟨p, .inet6 a⟩ ⟨q, .inet6 b⟩ how = torMemcmp a.val b.val := by
  have hcompare : torAddrCompare ⟨p, .inet6 a⟩ ⟨q, .inet6 b⟩ how = compareInet6 a.val b.val 128 := rfl
  have hbytes : 128 >>> 3 = 16 := rfl
  have hleft : 128 &&& 7 = 0 := rfl
  rw [hcompare]
  unfold compareInet6
  dsimp only
  rw [if_neg (Nat.lt_irrefl 128), hbytes, hleft, List.take_of_length_le (Nat.le_of_eq a.length_eq),
    List.take_of_length_le (Nat.le_of_eq b.length_eq), if_neg (not_not.mpr rfl)]
  split_ifs with hr
  · rfl
  · rw [not_and, not_not] at hr
    exact (hr (by decide)).symm

theorem torAddrCompare_inet_inet6 : torAddrCompare ⟨p, .inet x⟩ ⟨q, .inet6 b⟩ how =
    if how = .semantic ∧ IsMapped (in6Nat b) then tristate x.toNat (in6Nat b % 2 ^ 32) else -1 := by
  cases how with
  | exact => rfl
  | semantic =>
    have hcompare : torAddrCompare ⟨p, .inet x⟩ ⟨q, .inet6 b⟩ .semantic =
        if torAddrIsV4 ⟨q, .inet6 b⟩ = true then tristate x.toNat (torAddrToMappedIpv4h ⟨q, .inet6 b⟩)
        else -1 := by
      unfold torAddrCompare torAddrCompareMasked
      generalize torAddrIsV4 ⟨q, .inet6 b⟩ = v
      cases v <;> rfl
    rw [hcompare, torAddrToMappedIpv4h_inet6]
    simp only [torAddrIsV4_inet6, true_and]

theorem torAddrCompare_inet6_inet : torAddrCompare ⟨p, .inet6 a⟩ ⟨q, .inet y⟩ how =
    if how = .semantic ∧ IsMapped (in6Nat a) then tristate (in6Nat a % 2 ^ 32) y.toNat else 1 := by
  cases how with
  | exact => rfl
  | semantic =>
    have hcompare : torAddrCompare ⟨p, .inet6 a⟩ ⟨q, .inet y⟩ .semantic =
        if torAddrIsV4 ⟨p, .inet6 a⟩ = true then tristate (torAddrToMappedIpv4h ⟨p, .inet6 a⟩) y.toNat
        else 1 := by
      unfold torAddrCompare torAddrCompareMasked
      generalize torAddrIsV4 ⟨p, .inet6 a⟩ = v
      cases v <;> rfl
    rw [hcompare, torAddrToMappedIpv4h_inet6]
    simp only [torAddrIsV4_inet6, true_and]

/-- **The sign of a comparison** is that of the keys. -/
theorem sign_torAddrCompare (h1 : torAddrFamily addr1 ≠ .unix) (h2 : torAddrFamily addr2 ≠ .unix) :
    (torAddrCompare addr1 addr2 how).sign = keyCompare how (addrKey addr1) (addrKey addr2) := by
  obtain ⟨p, a⟩ := addr1
  obtain ⟨q, b⟩ := addr2
  have hsign : ∀ (c : Prop) [Decidable c] (t e : ℤ), t.sign = t → e.sign = e →
      (if c then t else e).sign = if c then t else e := by
    intro c _ t e ht he
    split_ifs
    · exact ht
    · exact he
  cases a with
  | unix => exact absurd rfl h1
  | unspec =>
    cases b with
    | unix => exact absurd rfl h2
    | unspec => rfl
    | inet y => cases how <;> rfl
    | inet6 b =>
      cases how with
      | exact => rfl
      | semantic =>
        unfold torAddrCompare torAddrCompareMasked
        generalize torAddrIsV4 ⟨q, .inet6 b⟩ = v
        cases v <;> rfl
  | inet x =>
    cases b with
    | unix => exact absurd rfl h2
    | unspec => cases how <;> rfl
    | inet y =>
      rw [torAddrCompare_inet, sign_tristate]
      rfl
    | inet6 b =>
      rw [torAddrCompare_inet_inet6, hsign _ _ _ (sign_tristate _ _) rfl]
      rfl
  | inet6 a =>
    cases b with
    | unix => exact absurd rfl h2
    | unspec =>
      cases how with
      | exact => rfl
      | semantic =>
        unfold torAddrCompare torAddrCompareMasked
        generalize torAddrIsV4 ⟨p, .inet6 a⟩ = v
        cases v <;> rfl
    | inet y =>
      rw [torAddrCompare_inet6_inet, hsign _ _ _ (sign_tristate _ _) rfl]
      rfl
    | inet6 b =>
      rw [torAddrCompare_inet6, sign_torMemcmp (by rw [a.length_eq, b.length_eq])]
      rfl

end Compare

/-! ### Orders -/

/-- The keys go around in a circle: a native address, a mapped one that is not above it, and an IPv6 address
that is in front of the mapped ones. -/
def Circle : AddrKey → AddrKey → AddrKey → Prop
  | .inet x, .inet6 y, .inet6 n => IsMapped y ∧ y % 2 ^ 32 ≤ x ∧ n < 0xffff * 2 ^ 32
  | _, _, _ => False

/-- The laws of an order for three keys. -/
structure KeyLaws (how : TorAddrComparison) (a b c : AddrKey) : Prop where
  opposite : keyCompare how a b = -keyCompare how b a
  trans : keyCompare how a b ≤ 0 → keyCompare how b c ≤ 0 → keyCompare how a c ≤ 0
  congr : keyCompare how a b = 0 → keyCompare how a c = keyCompare how b c

section Orders

variable {how : TorAddrComparison} {a b c : AddrKey} {m n x : ℕ}

theorem tristate_swap (m n : ℕ) : tristate n m = -tristate m n := by
  unfold tristate
  split_ifs <;> first | rfl | omega

theorem tristate_le_zero_iff : tristate m n ≤ 0 ↔ m ≤ n := by
  unfold tristate
  split_ifs <;> omega

/-- Mapped addresses are in the order of the addresses that they map. -/
theorem tristate_of_isMapped (hm : IsMapped m) (hn : IsMapped n) :
    tristate m n = tristate (m % 2 ^ 32) (n % 2 ^ 32) := by
  unfold IsMapped at hm hn
  unfold tristate
  split_ifs <;> first | rfl | omega

theorem keyCompare_swap (how : TorAddrComparison) (a b : AddrKey) :
    keyCompare how b a = -keyCompare how a b := by
  cases a with
  | unspec => cases b <;> rfl
  | inet m =>
    cases b with
    | unspec => rfl
    | inet n => exact tristate_swap m n
    | inet6 n =>
      rw [keyCompare, keyCompare]
      split_ifs
      · exact tristate_swap m _
      · rfl
  | inet6 m =>
    cases b with
    | unspec => rfl
    | inet n =>
      rw [keyCompare, keyCompare]
      split_ifs
      · exact tristate_swap _ n
      · rfl
    | inet6 n => exact tristate_swap m n

/-- Keys that are equal, and a native address and its mapped one. -/
theorem keyCompare_eq_zero (h : keyCompare how a b = 0) :
    a = b ∨ how = .semantic ∧ ∃ m n, IsMapped n ∧ m = n % 2 ^ 32 ∧
      (a = .inet m ∧ b = .inet6 n ∨ a = .inet6 n ∧ b = .inet m) := by
  cases a with
  | unspec => cases b <;> first | exact .inl rfl | cases h
  | inet m =>
    cases b with
    | unspec => cases h
    | inet n => exact .inl (congrArg AddrKey.inet ((tristate_eq_zero_iff m n).mp h))
    | inet6 n =>
      rw [keyCompare] at h
      split_ifs at h with hmapped
      exact .inr ⟨hmapped.1, m, n, hmapped.2, (tristate_eq_zero_iff _ _).mp h, .inl ⟨rfl, rfl⟩⟩
  | inet6 m =>
    cases b with
    | unspec => cases h
    | inet n =>
      rw [keyCompare] at h
      have hmapped : how = .semantic ∧ IsMapped m := by
        by_contra hnot
        rw [if_neg hnot] at h
        cases h
      rw [if_pos hmapped] at h
      exact .inr ⟨hmapped.1, n, m, hmapped.2, ((tristate_eq_zero_iff _ _).mp h).symm, .inr ⟨rfl, rfl⟩⟩
    | inet6 n => exact .inl (congrArg AddrKey.inet6 ((tristate_eq_zero_iff m n).mp h))

/-- **Exactly compared**, the keys are in order. -/
theorem keyLaws_exact (a b c : AddrKey) : KeyLaws .exact a b c := by
  refine ⟨keyCompare_swap .exact b a, ?_, fun h => ?_⟩
  · cases a <;> cases b <;> cases c <;>
      simp only [keyCompare, tristate_le_zero_iff, reduceCtorEq, false_and, if_false] <;> omega
  · rcases keyCompare_eq_zero h with rfl | ⟨hhow, _⟩
    · rfl
    · cases hhow

/-- A native address and its mapped one compare alike, unless there is a circle. -/
theorem keyCompare_of_isMapped (hn : IsMapped n) (hc : ¬Circle (.inet (n % 2 ^ 32)) (.inet6 n) c) :
    keyCompare .semantic (.inet (n % 2 ^ 32)) c = keyCompare .semantic (.inet6 n) c := by
  cases c with
  | unspec => rfl
  | inet y => rw [keyCompare, keyCompare, if_pos ⟨rfl, hn⟩]
  | inet6 y =>
    rw [keyCompare, keyCompare]
    by_cases hy : IsMapped y
    · rw [if_pos ⟨rfl, hy⟩, tristate_of_isMapped hn hy]
    · rw [if_neg fun h => hy h.2]
      have hlow : ¬y < 0xffff * 2 ^ 32 := fun hlt => hc ⟨hn, Nat.le_refl _, hlt⟩
      unfold IsMapped at hn hy
      rw [tristate, if_pos (by omega)]

/-- What is not above what, in the semantic comparison. -/
def keyLe : AddrKey → AddrKey → Prop
  | .unspec, _ => True
  | _, .unspec => False
  | .inet m, .inet n => m ≤ n
  | .inet6 m, .inet6 n => m ≤ n
  | .inet m, .inet6 n => IsMapped n → m ≤ n % 2 ^ 32
  | .inet6 m, .inet n => IsMapped m ∧ m % 2 ^ 32 ≤ n

theorem keyCompare_le_zero_iff : keyCompare .semantic a b ≤ 0 ↔ keyLe a b := by
  cases a with
  | unspec => cases b <;> exact iff_of_true (by simp [keyCompare]) trivial
  | inet m =>
    cases b with
    | unspec => exact iff_of_false (by simp [keyCompare]) id
    | inet n => exact tristate_le_zero_iff
    | inet6 n =>
      rw [keyCompare, keyLe]
      by_cases hn : IsMapped n
      · rw [if_pos ⟨rfl, hn⟩, tristate_le_zero_iff, forall_prop_of_true hn]
      · rw [if_neg fun h => hn h.2]
        exact iff_of_true (by decide) fun h => absurd h hn
  | inet6 m =>
    cases b with
    | unspec => exact iff_of_false (by simp [keyCompare]) id
    | inet n =>
      rw [keyCompare, keyLe]
      by_cases hm : IsMapped m
      · rw [if_pos ⟨rfl, hm⟩, tristate_le_zero_iff, and_iff_right hm]
      · rw [if_neg fun h => hm h.2]
        exact iff_of_false (by decide) fun h => hm h.1
    | inet6 n => exact tristate_le_zero_iff

/-- **Semantically compared**, they are in order unless there is a circle. -/
theorem keyLaws_semantic (h : ∀ k₁ ∈ [a, b, c], ∀ k₂ ∈ [a, b, c], ∀ k₃ ∈ [a, b, c], ¬Circle k₁ k₂ k₃) :
    KeyLaws .semantic a b c := by
  have ha : a ∈ [a, b, c] := List.mem_cons_self
  have hb : b ∈ [a, b, c] := List.mem_cons_of_mem a List.mem_cons_self
  have hc : c ∈ [a, b, c] := List.mem_cons_of_mem a (List.mem_cons_of_mem b List.mem_cons_self)
  refine ⟨keyCompare_swap .semantic b a, ?_, fun hzero => ?_⟩
  · -- a circle is broken where the native, the mapped and the other address stand in any of three orders
    have h1 := h a ha c hc b hb
    have h2 := h b hb a ha c hc
    have h3 := h c hc b hb a ha
    rw [keyCompare_le_zero_iff, keyCompare_le_zero_iff, keyCompare_le_zero_iff]
    intro hab hbc
    clear h ha hb hc
    cases a <;> cases b <;> cases c <;>
      simp only [keyLe, Circle, IsMapped, not_false_eq_true] at hab hbc h1 h2 h3 ⊢ <;> omega
  · rcases keyCompare_eq_zero hzero with rfl | ⟨_, m, n, hn, rfl, ⟨rfl, rfl⟩ | ⟨rfl, rfl⟩⟩
    · rfl
    · exact keyCompare_of_isMapped hn (h _ ha _ hb c hc)
    · exact (keyCompare_of_isMapped hn (h _ hb _ ha c hc)).symm

end Orders

/-- **The comparison orders the addresses of a set**: it has opposite signs the other way around, it is
transitive, and equal addresses compare alike. -/
def OrderOn (how : TorAddrComparison) (S : Set TorAddrPtr) : Prop :=
  ∀ a ∈ S, ∀ b ∈ S, ∀ c ∈ S,
    (torAddrCompare a b how).sign = -(torAddrCompare b a how).sign ∧
      (torAddrCompare a b how ≤ 0 → torAddrCompare b c how ≤ 0 → torAddrCompare a c how ≤ 0) ∧
      (torAddrCompare a b how = 0 → (torAddrCompare a c how).sign = (torAddrCompare b c how).sign)

/-- There is a native address, a mapped one that is not above it, and an IPv6 address in front of the mapped
ones. -/
def Tangled (S : Set TorAddrPtr) : Prop :=
  ∃ a ∈ S, ∃ b ∈ S, ∃ c ∈ S, Circle (addrKey a) (addrKey b) (addrKey c)

theorem orderOn_iff_keyLaws {how : TorAddrComparison} {S : Set TorAddrPtr}
    (hS : ∀ a ∈ S, torAddrFamily a ≠ .unix) :
    OrderOn how S ↔ ∀ a ∈ S, ∀ b ∈ S, ∀ c ∈ S, KeyLaws how (addrKey a) (addrKey b) (addrKey c) := by
  have hsign : ∀ {a b}, a ∈ S → b ∈ S →
      (torAddrCompare a b how).sign = keyCompare how (addrKey a) (addrKey b) := fun ha hb =>
    sign_torAddrCompare (hS _ ha) (hS _ hb)
  have hle : ∀ {a b}, a ∈ S → b ∈ S →
      (torAddrCompare a b how ≤ 0 ↔ keyCompare how (addrKey a) (addrKey b) ≤ 0) := by
    intro a b ha hb
    rw [← hsign ha hb, Int.sign_nonpos_iff]
  have hzero : ∀ {a b}, a ∈ S → b ∈ S →
      (torAddrCompare a b how = 0 ↔ keyCompare how (addrKey a) (addrKey b) = 0) := by
    intro a b ha hb
    rw [← hsign ha hb, Int.sign_eq_zero_iff_zero]
  constructor
  · intro h a ha b hb c hc
    obtain ⟨hopposite, htrans, hcongr⟩ := h a ha b hb c hc
    rw [hsign ha hb, hsign hb ha] at hopposite
    rw [hle ha hb, hle hb hc, hle ha hc] at htrans
    rw [hzero ha hb, hsign ha hc, hsign hb hc] at hcongr
    exact ⟨hopposite, htrans, hcongr⟩
  · intro h a ha b hb c hc
    obtain ⟨hopposite, htrans, hcongr⟩ := h a ha b hb c hc
    rw [hsign ha hb, hsign hb ha, hle ha hb, hle hb hc, hle ha hc, hzero ha hb, hsign ha hc, hsign hb hc]
    exact ⟨hopposite, htrans, hcongr⟩

/-- **On which addresses the comparison is an order**: exactly compared, on all; semantically compared, on
those among which nothing goes around in a circle. -/
theorem orderOn_iff (how : TorAddrComparison) (S : Set TorAddrPtr)
    (hS : ∀ a ∈ S, torAddrFamily a ≠ .unix) : OrderOn how S ↔ how = .exact ∨ ¬Tangled S := by
  rw [orderOn_iff_keyLaws hS]
  cases how with
  | exact => exact iff_of_true (fun a _ b _ c _ => keyLaws_exact _ _ _) (.inl rfl)
  | semantic =>
    rw [or_iff_right (by decide)]
    constructor
    · rintro h ⟨a, ha, b, hb, c, hc, hcircle⟩
      -- the mapped address is not above the native one, and this is below the IPv6 address
      have htrans := (h b hb a ha c hc).trans
      rw [keyCompare_le_zero_iff, keyCompare_le_zero_iff, keyCompare_le_zero_iff] at htrans
      revert hcircle htrans
      cases addrKey a <;> cases addrKey b <;> cases addrKey c <;>
        simp only [keyLe, Circle, IsMapped, false_implies]
      omega
    · intro h a ha b hb c hc
      refine keyLaws_semantic fun k₁ h₁ k₂ h₂ k₃ h₃ hcircle => h ?_
      have hmem : ∀ k ∈ [addrKey a, addrKey b, addrKey c], ∃ p ∈ S, addrKey p = k := by
        intro k hk
        rcases List.mem_cons.mp hk with rfl | hk
        · exact ⟨a, ha, rfl⟩
        rcases List.mem_cons.mp hk with rfl | hk
        · exact ⟨b, hb, rfl⟩
        · exact ⟨c, hc, (List.mem_singleton.mp hk).symm⟩
      obtain ⟨p₁, hp₁, rfl⟩ := hmem k₁ h₁
      obtain ⟨p₂, hp₂, rfl⟩ := hmem k₂ h₂
      obtain ⟨p₃, hp₃, rfl⟩ := hmem k₃ h₃
      exact ⟨p₁, hp₁, p₂, hp₂, p₃, hp₃, hcircle⟩

/-- `1.2.3.4` and `1.2.3.5`. -/
theorem orderOn_iff_inet :
    OrderOn .semantic {⟨0, .inet 0x01020304⟩, ⟨1, .inet 0x01020305⟩} ↔
      TorAddrComparison.semantic = .exact ∨ ¬Tangled {⟨0, .inet 0x01020304⟩, ⟨1, .inet 0x01020305⟩} := by
  refine orderOn_iff .semantic {⟨0, .inet 0x01020304⟩, ⟨1, .inet 0x01020305⟩} fun a ha => ?_
  rcases ha with rfl | rfl <;> decide

/-- `1.2.3.4`, `::ffff:1.2.3.4` and `::1`. -/
def nativeAddr : TorAddrPtr := ⟨0, .inet 0x01020304⟩
def mappedAddr : TorAddrPtr := ⟨1, .inet6 ⟨List.replicate 10 0 ++ [255, 255, 1, 2, 3, 4], by decide⟩⟩
def loopbackAddr : TorAddrPtr := ⟨2, .inet6 ⟨List.replicate 15 0 ++ [1], by decide⟩⟩

/-- The first two are equal, but the third is above the one and below the other. -/
theorem not_orderOn_semantic :
    torAddrCompare mappedAddr nativeAddr .semantic = 0 ∧ torAddrCompare nativeAddr loopbackAddr .semantic < 0 ∧
      0 < torAddrCompare mappedAddr loopbackAddr .semantic := by
  decide +kernel

end TorEbpf.Or
