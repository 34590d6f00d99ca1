import Mathlib
import TorEbpf.Or.PluginOffer

/-!
# Lists of plugins in cells

A list of plugin names is written into a cell as names with newlines between them and a `NUL` behind the
last one, by `smart_list_to_payload` of `plugin_exchange.c`.  Two functions read it:
`smart_list_plugins_in_payload`, and the loop of `handle_plugin_request_cell`.

* `smartListToPayload_eq` — the names are kept greedily, and what is written stays inside the space;
* `scan_listText_iff` — they are read back, as long as each fits into `plugin_name`;
* `readersAgree_iff` — the two readers on the same bytes.
-/

namespace TorEbpf.Or

open TorEbpf.Lib

/-! ### Writing -/

/-- The local variables of `smart_list_to_payload`, and the array that it writes to. -/
structure PayloadOut where
  listOut : List UInt8
  idx : ℕ
  spaceLeft : UInt16
  deriving DecidableEq

/-- A byte is written, and `idx` advances. -/
def pushByte (s : PayloadOut) (b : UInt8) : Step PayloadOut :=
  if s.idx < s.listOut.length then pure { s with listOut := s.listOut.set s.idx b, idx := s.idx + 1 }
  else fault .write

def pushPlugin (s : PayloadOut) (pluginName : Name) : Step PayloadOut :=
  if pluginName.length + 1 < s.spaceLeft.toNat then do
    let s ← pluginName.foldlM pushByte s
    let s ← pushByte s 0x0a
    return { s with spaceLeft := s.spaceLeft - UInt16.ofNat (pluginName.length + 1) }
  else pure s

/-- `smart_list_to_payload`: the array and what is returned. -/
def smartListToPayload (list : List Name) (listOut : List UInt8) (maxSize : UInt16) :
    Step (List UInt8 × UInt16) := do
  let s ← list.foldlM pushPlugin ⟨listOut, 0, maxSize⟩
  let idx := if 0 < s.idx then s.idx - 1 else 0
  let s ← pushByte { s with idx := idx } 0
  return (s.listOut, maxSize - s.spaceLeft)

/-! ### Reading -/

/-- The inner loop of `handle_plugin_request_cell`: `plugin_name`, `last`, and the payload from
`payload_idx` on. -/
def requestName : List UInt8 → Name → Step (Name × Bool × List UInt8)
  | [], _ => fault .read
  | b :: rest, pluginName =>
      if b = 0x0a then pure (pluginName, false, b :: rest)
      else if b = 0 then pure (pluginName, true, b :: rest)
      else if pluginName.length < cellPayloadSize then requestName rest (pluginName ++ [b])
      else fault .write

theorem length_requestName (p : List UInt8) :
    ∀ name r, requestName p name = .ok r → 0 < r.2.2.length ∧ r.2.2.length ≤ p.length := by
  induction p with
  | nil =>
    intro name r h
    cases h
  | cons b rest ih =>
    intro name r h
    rw [requestName] at h
    split_ifs at h
    · cases h
      exact ⟨Nat.succ_pos _, le_rfl⟩
    · cases h
      exact ⟨Nat.succ_pos _, le_rfl⟩
    · obtain ⟨hpos, hle⟩ := ih _ r h
      exact ⟨hpos, hle.trans (Nat.le_succ _)⟩
    · cases h

/-- The outer loop: the names that `send_plugin` is called with. -/
def requestLoop (p : List UInt8) (sent : List Name) : Step (List Name) :=
  match h : requestName p [] with
  | .error e => .error e
  | .ok (pluginName, last, rest) =>
      if last then pure (sent ++ [pluginName]) else requestLoop rest.tail (sent ++ [pluginName])
termination_by p.length
decreasing_by
  obtain ⟨hpos, hle⟩ := length_requestName p [] _ h
  dsimp only at hpos hle
  rw [List.length_tail]
  omega

/-- `handle_plugin_request_cell`: the names that `send_plugin` is called with. -/
def handlePluginRequestCell (cell : Cell) : Step (List Name) := requestLoop cell.payload.val []

/-! ### The names that are kept -/

/-- The names that are kept: those that leave something of the space. -/
def keptNames : ℕ → List Name → List Name
  | _, [] => []
  | space, name :: names =>
      if name.length + 1 < space then name :: keptNames (space - (name.length + 1)) names
      else keptNames space names

def listSize (names : List Name) : ℕ := (names.map fun name => name.length + 1).sum

def listText : List Name → List UInt8
  | [] => []
  | [name] => name
  | name :: next :: names => name ++ 0x0a :: listText (next :: names)

def listLines (names : List Name) : List UInt8 := names.flatMap fun name => name ++ [0x0a]

section Writing

variable {names : List Name} {name : Name} {w f : List UInt8} {k : UInt16}

theorem keptNames_sublist (n : ℕ) (names : List Name) : (keptNames n names).Sublist names := by
  induction names generalizing n with
  | nil => exact .slnil
  | cons name names ih =>
    rw [keptNames]
    split_ifs
    · exact (ih _).cons_cons name
    · exact (ih _).cons name

theorem listLines_eq (h : names ≠ []) : listLines names = listText names ++ [0x0a] := by
  induction names with
  | nil => exact absurd rfl h
  | cons name names ih =>
    cases names with
    | nil => simp [listLines, listText]
    | cons next names =>
      have hrest := ih (List.cons_ne_nil next names)
      rw [listText, List.append_assoc, List.cons_append, ← hrest]
      simp [listLines]

theorem listSize_keptNames {n : ℕ} (hpos : 0 < n) (names : List Name) :
    listSize (keptNames n names) < n := by
  induction names generalizing n with
  | nil => exact hpos
  | cons name names ih =>
    rw [keptNames]
    split_ifs with hfits
    · have hrest := ih (n := n - (name.length + 1)) (by omega)
      rw [listSize, List.map_cons, List.sum_cons, ← listSize]
      omega
    · exact ih hpos

theorem pushByte_eq {b c : UInt8} :
    pushByte ⟨w ++ c :: f, w.length, k⟩ b =
      .ok ⟨w ++ [b] ++ f, (w ++ [b]).length, k⟩ := by
  have hlt : w.length < (w ++ c :: f).length := by
    rw [List.length_append, List.length_cons]
    omega
  rw [pushByte, if_pos hlt, List.set_append_right _ _ le_rfl, Nat.sub_self, List.set_cons_zero,
    List.length_append, List.append_assoc]
  rfl

theorem foldlM_pushByte (h : name.length ≤ f.length) :
    name.foldlM pushByte ⟨w ++ f, w.length, k⟩ =
      .ok ⟨w ++ name ++ f.drop name.length, (w ++ name).length, k⟩ := by
  induction name generalizing w f with
  | nil =>
    rw [List.append_nil, List.length_nil, List.drop_zero]
    rfl
  | cons b name ih =>
    cases f with
    | nil => simp at h
    | cons c f =>
      have hle : name.length ≤ f.length := Nat.le_of_succ_le_succ h
      rw [List.foldlM_cons, pushByte_eq, ok_bind, ih hle]
      simp [List.append_assoc]

theorem toNat_spaceLeft {n : ℕ} (h : n < k.toNat) : (k - UInt16.ofNat n).toNat = k.toNat - n := by
  have hn : (UInt16.ofNat n).toNat = n := UInt16.toNat_ofNat_of_lt' (h.trans k.toNat_lt)
  rw [UInt16.toNat_sub_of_le, hn]
  rw [UInt16.le_iff_toNat_le, hn]
  exact h.le

theorem pushPlugin_eq (hfits : name.length + 1 < k.toNat) (hfree : f.length = k.toNat) :
    ∃ k', k'.toNat = k.toNat - (name.length + 1) ∧
      pushPlugin ⟨w ++ f, w.length, k⟩ name =
        .ok ⟨w ++ (name ++ [0x0a]) ++ f.drop (name.length + 1),
          (w ++ (name ++ [0x0a])).length, k'⟩ := by
  refine ⟨k - UInt16.ofNat (name.length + 1), toNat_spaceLeft hfits, ?_⟩
  obtain ⟨c, rest, hrest⟩ : ∃ c rest, f.drop name.length = c :: rest :=
    List.exists_cons_of_length_pos (by rw [List.length_drop]; omega)
  have hdrop : f.drop (name.length + 1) = rest := by
    rw [← List.drop_drop, hrest]
    rfl
  rw [pushPlugin, if_pos hfits, foldlM_pushByte (by omega), ok_bind, hrest, pushByte_eq, ok_bind, hdrop,
    List.append_assoc w name]
  rfl

/-- **The loop** writes the names that are kept. -/
theorem foldlM_pushPlugin (hfree : f.length = k.toNat) (names : List Name) :
    ∃ f' k', f'.length = k'.toNat ∧
      k'.toNat = k.toNat - listSize (keptNames k.toNat names) ∧
      names.foldlM pushPlugin ⟨w ++ f, w.length, k⟩ =
        .ok ⟨w ++ listLines (keptNames k.toNat names) ++ f',
          (w ++ listLines (keptNames k.toNat names)).length, k'⟩ := by
  induction names generalizing w f k with
  | nil =>
    refine ⟨f, k, hfree, (Nat.sub_zero _).symm, ?_⟩
    rw [keptNames, listLines, List.flatMap_nil, List.append_nil]
    rfl
  | cons name names ih =>
    rw [List.foldlM_cons, keptNames]
    split_ifs with hfits
    · obtain ⟨k₁, hspace₁, hpush⟩ := pushPlugin_eq (w := w) hfits hfree
      have hfree₁ : (f.drop (name.length + 1)).length = k₁.toNat := by
        rw [List.length_drop, hfree, hspace₁]
      obtain ⟨f', k', hfree', hspace', hloop⟩ := ih (w := w ++ (name ++ [0x0a])) hfree₁
      rw [hspace₁] at hspace' hloop
      refine ⟨f', k', hfree', ?_, ?_⟩
      · rw [hspace', listSize, listSize, List.map_cons, List.sum_cons]
        omega
      · rw [hpush, ok_bind, hloop]
        simp [listLines, List.append_assoc]
    · rw [pushPlugin, if_neg hfits]
      exact ih hfree

/-- **What is written**: the kept names, within the space. -/
theorem smartListToPayload_eq {listOut : List UInt8} {maxSize : UInt16} (hpos : 0 < maxSize.toNat)
    (hlen : listOut.length = maxSize.toNat) (names : List Name) :
    ∃ f n, smartListToPayload names listOut maxSize =
        .ok (listText (keptNames maxSize.toNat names) ++ 0 :: f, n) ∧
      n.toNat = listSize (keptNames maxSize.toNat names) := by
  have hsize := listSize_keptNames hpos names
  obtain ⟨f, k, hfree, hspace, hloop⟩ := foldlM_pushPlugin (w := []) hlen names
  rw [List.nil_append, List.nil_append] at hloop
  generalize keptNames maxSize.toNat names = kept at hsize hspace hloop
  have hn : (maxSize - k).toNat = listSize kept := by
    rw [UInt16.toNat_sub_of_le]
    · omega
    · rw [UInt16.le_iff_toNat_le]
      omega
  obtain ⟨c, rest, rfl⟩ : ∃ c rest, f = c :: rest := List.exists_cons_of_length_pos (by omega)
  rw [smartListToPayload]
  simp only [hloop, List.length_nil] at *
  by_cases hkept : kept = []
  · subst hkept
    refine ⟨rest, maxSize - k, ?_, hn⟩
    rw [ok_bind]
    have hwrite := pushByte_eq (w := []) (f := rest) (k := k) (b := 0) (c := c)
    rw [List.nil_append] at hwrite
    simp only [listLines, List.flatMap_nil, List.nil_append, List.length_nil, Nat.lt_irrefl, if_false]
    rw [List.length_nil] at hwrite
    rw [hwrite]
    rfl
  · refine ⟨c :: rest, maxSize - k, ?_, hn⟩
    rw [ok_bind, listLines_eq hkept]
    have hidx : 0 < (listText kept ++ [0x0a]).length := by simp
    have hwrite := pushByte_eq (w := listText kept) (f := c :: rest) (k := k) (b := 0) (c := 0x0a)
    rw [if_pos hidx]
    simp only [List.length_append, List.length_singleton, Nat.add_sub_cancel, List.append_assoc,
      List.singleton_append] at hwrite ⊢
    rw [hwrite]
    rfl

end Writing

/-! ### Reading a list back -/

section Reading

variable {names : List Name} {name : Name} {p free : List UInt8}

/-- A name that can stand in a list. -/
def Listable (name : Name) : Prop := name ≠ [] ∧ 0 ∉ name ∧ 0x0a ∉ name

theorem scanPlugins_append (h0 : 0 ∉ name) (hnl : 0x0a ∉ name) (rest : List UInt8) :
    ∀ cur list, scanPlugins (name ++ rest) cur list = scanPlugins rest (cur ++ name) list := by
  induction name with
  | nil =>
    intro cur list
    rw [List.nil_append, List.append_nil]
  | cons b name ih =>
    intro cur list
    rw [List.mem_cons, not_or] at h0 hnl
    rw [List.cons_append, scanPlugins, if_neg (Ne.symm h0.1), if_neg (Ne.symm hnl.1), ih h0.2 hnl.2,
      List.append_assoc]
    rfl

theorem scan_listText (h : ∀ name ∈ names, Listable name) (list : List Name) :
    scanPlugins (listText names ++ 0 :: free) [] list = names.foldlM addPluginName list := by
  induction names generalizing list with
  | nil => rfl
  | cons name names ih =>
    obtain ⟨hne, h0, hnl⟩ := h name List.mem_cons_self
    cases names with
    | nil =>
      rw [listText, scanPlugins_append h0 hnl, List.nil_append, scanPlugins, if_pos rfl, if_neg hne]
      simp
    | cons next names =>
      rw [listText, List.append_assoc, List.cons_append, scanPlugins_append h0 hnl, List.nil_append,
        scanPlugins, if_neg (by decide), if_pos rfl, List.foldlM_cons]
      have hrest := ih fun n hn => h n (List.mem_cons_of_mem name hn)
      exact congrArg (addPluginName list name >>= ·) (funext hrest)

theorem foldlM_addPluginName (names list : List Name) :
    names.foldlM addPluginName list = .ok (list ++ names) ↔ ∀ name ∈ names, name.length < pathMax := by
  induction names generalizing list with
  | nil =>
    rw [List.append_nil]
    exact ⟨fun _ _ hname => absurd hname List.not_mem_nil, fun _ => rfl⟩
  | cons name names ih =>
    rw [List.foldlM_cons, List.forall_mem_cons, addPluginName]
    split_ifs with hlt
    · rw [show (pure (list ++ [name]) : Step (List Name)) = .ok (list ++ [name]) from rfl, ok_bind,
        List.append_cons list name names, ih]
      exact ⟨fun h => ⟨hlt, h⟩, fun h => h.2⟩
    · constructor
      · intro h
        cases h
      · intro h
        exact absurd h.1 hlt

/-- **A list is read back** if each of its names fits into `plugin_name`. -/
theorem scan_listText_iff (h : ∀ name ∈ names, Listable name) :
    smartListPluginsInPayload (listText names ++ 0 :: free) = .ok names ↔
      ∀ name ∈ names, name.length < pathMax := by
  rw [smartListPluginsInPayload, scan_listText h, ← foldlM_addPluginName names [], List.nil_append]

/-- **Writing and reading a list.**  Whatever the space, `smart_list_to_payload` stays inside an array of
that size and returns the size of the names that it keeps; `smart_list_plugins_in_payload` gives these
names back, in order, exactly if each of them fits into its `plugin_name`. -/
theorem payload_roundTrip (names : List Name) (hnames : ∀ name ∈ names, Listable name) (maxSize : UInt16)
    (hpos : 0 < maxSize.toNat) (listOut : List UInt8) (hlen : listOut.length = maxSize.toNat) :
    ∃ out n, smartListToPayload names listOut maxSize = .ok (out, n) ∧
      n.toNat = listSize (keptNames maxSize.toNat names) ∧
      (smartListPluginsInPayload out = .ok (keptNames maxSize.toNat names) ↔
        ∀ name ∈ keptNames maxSize.toNat names, name.length < pathMax) := by
  obtain ⟨free, n, hwrite, hn⟩ := smartListToPayload_eq hpos hlen names
  refine ⟨_, n, hwrite, hn, scan_listText_iff ?_⟩
  intro name hname
  exact hnames name ((keptNames_sublist _ _).mem hname)

/-- Three names, of which the second does not fit. -/
theorem payload_roundTrip_threeNames :
    keptNames 8 [[0x61, 0x62], [0x63, 0x64, 0x65, 0x66], [0x67]] = [[0x61, 0x62], [0x67]] ∧
      ∃ out n, smartListToPayload [[0x61, 0x62], [0x63, 0x64, 0x65, 0x66], [0x67]]
          (List.replicate 8 0xff) 8 = .ok (out, n) ∧
        n.toNat = 5 ∧ smartListPluginsInPayload out = .ok [[0x61, 0x62], [0x67]] := by
  refine ⟨by decide, ?_⟩
  obtain ⟨out, n, hwrite, hn, hread⟩ := payload_roundTrip
    [[0x61, 0x62], [0x63, 0x64, 0x65, 0x66], [0x67]] (by unfold Listable; decide) 8 (by decide)
    (List.replicate 8 0xff) (by decide)
  exact ⟨out, n, hwrite, hn, hread.mpr (by decide)⟩

/-- **A name that is longer than a path**: it is written, and reading it overruns `plugin_name`. -/
theorem not_payload_roundTrip_longName :
    ¬∀ names : List Name, (∀ name ∈ names, Listable name) → ∀ maxSize : UInt16, 0 < maxSize.toNat →
      ∀ listOut : List UInt8, listOut.length = maxSize.toNat →
        ∃ out n, smartListToPayload names listOut maxSize = .ok (out, n) ∧
          smartListPluginsInPayload out = .ok (keptNames maxSize.toNat names) := by
  intro h
  have hplain : ∀ b ∈ List.replicate pathMax (0x61 : UInt8), b = 0x61 := fun b hb => List.eq_of_mem_replicate hb
  have hnames : ∀ name ∈ [List.replicate pathMax (0x61 : UInt8)], Listable name := by
    intro name hname
    rw [List.mem_singleton] at hname
    subst hname
    refine ⟨List.ne_nil_of_length_pos (by rw [List.length_replicate]; decide), ?_, ?_⟩
    · intro h0
      exact absurd (hplain _ h0) (by decide)
    · intro hnl
      exact absurd (hplain _ hnl) (by decide)
  have hlen : (List.replicate 4098 (0 : UInt8)).length = (4098 : UInt16).toNat := List.length_replicate
  obtain ⟨out, n, hwrite, hread⟩ := h _ hnames 4098 (by decide) _ hlen
  obtain ⟨free, n', hwrite', _⟩ := smartListToPayload_eq (show 0 < (4098 : UInt16).toNat by decide) hlen
    [List.replicate pathMax (0x61 : UInt8)]
  have hkept : keptNames (4098 : UInt16).toNat [List.replicate pathMax (0x61 : UInt8)] =
      [List.replicate pathMax (0x61 : UInt8)] := by
    rw [keptNames, if_pos (by rw [List.length_replicate]; decide), keptNames]
  rw [hkept] at hread hwrite'
  rw [hwrite] at hwrite'
  cases hwrite'
  have hshort := (scan_listText_iff hnames).mp hread _ List.mem_cons_self
  rw [List.length_replicate] at hshort
  exact absurd hshort (lt_irrefl _)

end Reading

/-! ### The two readers -/

section Readers

variable {p pre post : List UInt8}

/-- The outer loop, from the middle of a name. -/
def requestFrom (p : List UInt8) (pluginName : Name) (sent : List Name) : Step (List Name) :=
  requestName p pluginName >>= fun r =>
    if r.2.1 then pure (sent ++ [r.1]) else requestLoop r.2.2.tail (sent ++ [r.1])

theorem requestLoop_eq (p : List UInt8) (sent : List Name) : requestLoop p sent = requestFrom p [] sent := by
  rw [requestLoop, requestFrom]
  split
  · next e h =>
    rw [h]
    rfl
  · next h =>
    rw [h]
    rfl

theorem requestFrom_cons (b : UInt8) (rest : List UInt8) (name : Name) (sent : List Name) :
    requestFrom (b :: rest) name sent =
      if b = 0x0a then requestFrom rest [] (sent ++ [name])
      else if b = 0 then pure (sent ++ [name])
      else if name.length < cellPayloadSize then requestFrom rest (name ++ [b]) sent
      else fault .write := by
  rw [requestFrom, requestName]
  split_ifs
  · exact requestLoop_eq rest _
  · rfl
  · rfl
  · rfl

/-- **Both readers on one list**: they agree on all names but the last, which the one sends and the other
leaves out if it is empty. -/
theorem readers_eq (h0 : 0 ∉ pre) :
    ∀ cur, cur.length + pre.length < cellPayloadSize → ∃ names last,
      (∀ sent, requestFrom (pre ++ 0 :: post) cur sent = .ok (sent ++ names ++ [last])) ∧
      (∀ list, scanPlugins (pre ++ 0 :: post) cur list =
        .ok (if last = [] then list ++ names else list ++ names ++ [last])) ∧
      (last = [] ↔ cur ++ pre = [] ∨ pre.getLast? = some 0x0a) := by
  induction pre with
  | nil =>
    intro cur hlen
    refine ⟨[], cur, ?_, ?_, by simp⟩
    · intro sent
      rw [List.nil_append, requestFrom_cons, if_neg (by decide), if_pos rfl, List.append_nil]
      rfl
    · intro list
      rw [List.nil_append, scanPlugins, if_pos rfl, List.append_nil, addPluginName_of_lt (by
        unfold pathMax
        unfold cellPayloadSize at hlen
        omega)]
      split_ifs <;> rfl
  | cons b pre ih =>
    intro cur hlen
    rw [List.mem_cons, not_or] at h0
    rw [List.length_cons] at hlen
    by_cases hb : b = 0x0a
    · subst hb
      obtain ⟨names, last, hrequest, hscan, hlast⟩ := ih h0.2 [] (by rw [List.length_nil]; omega)
      refine ⟨cur :: names, last, ?_, ?_, ?_⟩
      · intro sent
        rw [List.cons_append, requestFrom_cons, if_pos rfl, hrequest, List.append_cons sent cur names]
      · intro list
        rw [List.cons_append, scanPlugins, if_neg (by decide), if_pos rfl, addPluginName_of_lt (by
          unfold pathMax
          unfold cellPayloadSize at hlen
          omega), ok_bind, hscan,
          List.append_cons list cur names]
      · rw [hlast]
        cases pre with
        | nil => simp
        | cons c pre => simp
    · obtain ⟨names, last, hrequest, hscan, hlast⟩ :=
        ih h0.2 (cur ++ [b]) (by rw [List.length_append, List.length_singleton]; omega)
      refine ⟨names, last, ?_, ?_, ?_⟩
      · intro sent
        rw [List.cons_append, requestFrom_cons, if_neg hb, if_neg (Ne.symm h0.1), if_pos (by omega), hrequest]
      · intro list
        rw [List.cons_append, scanPlugins, if_neg (Ne.symm h0.1), if_neg hb, hscan]
      · rw [hlast]
        cases pre with
        | nil => simp [hb]
        | cons c pre => simp

/-- A list without a `NUL` is read beyond its end. -/
theorem requestFrom_of_not_mem (h0 : 0 ∉ p) :
    ∀ cur sent names, requestFrom p cur sent ≠ .ok names := by
  induction p with
  | nil =>
    intro cur sent names h
    cases h
  | cons b rest ih =>
    intro cur sent names h
    rw [List.mem_cons, not_or] at h0
    rw [requestFrom_cons, if_neg (Ne.symm h0.1)] at h
    split_ifs at h
    · exact ih h0.2 _ _ _ h
    · exact ih h0.2 _ _ _ h
    · cases h

/-- The two readers agree on a payload: the loop ends inside of it, and calls `send_plugin` with the names
that the other one returns. -/
def ReadersAgree (cell : Cell) : Prop :=
  ∃ names, handlePluginRequestCell cell = .ok names ∧
    smartListPluginsInPayload cell.payload.val = .ok names

/-- **When the readers agree**: exactly if the list ends with a `NUL`, is not empty, and has no newline
behind its last name. -/
theorem readersAgree_iff (cell : Cell) :
    ReadersAgree cell ↔ ∃ pre post, cell.payload.val = pre ++ 0 :: post ∧ 0 ∉ pre ∧ pre ≠ [] ∧
      pre.getLast? ≠ some 0x0a := by
  have hlen : cell.payload.val.length = cellPayloadSize := cell.payload.length_eq
  unfold ReadersAgree handlePluginRequestCell smartListPluginsInPayload
  rw [requestLoop_eq]
  generalize cell.payload.val = p at hlen
  by_cases h0 : 0 ∈ p
  · obtain ⟨pre, post, rfl, hpre⟩ := List.eq_append_cons_of_mem h0
    obtain ⟨names, last, hrequest, hscan, hlast⟩ := @readers_eq pre post hpre [] (by
      rw [List.length_append, List.length_cons] at hlen
      rw [List.length_nil]
      omega)
    rw [List.nil_append] at hlast
    constructor
    · rintro ⟨all, hall, hall'⟩
      refine ⟨pre, post, rfl, hpre, ?_⟩
      rw [hrequest, List.nil_append] at hall
      rw [hscan] at hall'
      cases hall
      have hne : last ≠ [] := by
        intro hnil
        rw [if_pos hnil] at hall'
        have hlen' := congrArg List.length (Except.ok.inj hall')
        rw [List.nil_append, List.length_append, List.length_singleton] at hlen'
        omega
      rw [ne_eq, hlast, not_or] at hne
      exact hne
    · rintro ⟨pre', post', heq, hpre', hcond⟩
      obtain ⟨rfl, _⟩ : pre = pre' ∧ post = post' := by
        have htake : ∀ l m : List UInt8, 0 ∉ l → (l ++ 0 :: m).takeWhile (· ≠ 0) = l := by
          intro l m hl
          rw [List.takeWhile_append_of_pos]
          · simp
          · intro x hx
            rw [decide_eq_true_eq]
            rintro rfl
            exact hl hx
        have hsame : pre = pre' := by rw [← htake pre post hpre, heq, htake pre' post' hpre']
        subst hsame
        exact ⟨rfl, by simpa using heq⟩
      have hne : last ≠ [] := by
        rw [ne_eq, hlast, not_or]
        exact hcond
      refine ⟨names ++ [last], by simpa using hrequest [], ?_⟩
      rw [hscan, if_neg hne, List.nil_append]
  · constructor
    · rintro ⟨names, hrequest, _⟩
      exact absurd hrequest (requestFrom_of_not_mem h0 _ _ _)
    · rintro ⟨pre, post, rfl, _⟩
      exact absurd (List.mem_append_right pre List.mem_cons_self) h0

/-- **An empty request**: a plugin without a name is sent. -/
theorem not_readersAgree_empty : ¬ReadersAgree ⟨14, Bytes.pad cellPayloadSize []⟩ := by
  rintro ⟨names, hrequest, hscan⟩
  have hpayload : (Bytes.pad cellPayloadSize []).val = [] ++ 0 :: List.replicate 508 0 := by decide +kernel
  rw [handlePluginRequestCell, requestLoop_eq, hpayload, List.nil_append, requestFrom_cons] at hrequest
  rw [smartListPluginsInPayload, hpayload, List.nil_append, scanPlugins] at hscan
  cases hrequest
  cases hscan

end Readers

end TorEbpf.Or
