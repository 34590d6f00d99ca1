import Mathlib
import TorEbpf.Or.CreateFormat
import TorEbpf.Or.PluginTransfer

/-!
# Sending the files of a plugin

`send_plugin_files` of `plugin_exchange.c` cuts each file of a plugin into pieces.  A cell holds the
length of the name of the file, the name, the length of the piece and the piece, and the loop ends with
the first piece that does not fill its cell.

* `sendLoop_ok` — what the loop sends, if there is space left behind the name;
* `not_sendFile_ok` — what it does otherwise: it writes behind the cell, or sends empty pieces for ever;
* `lossless_iff` — so every file arrives exactly if plugin and file name leave space in the cell.
-/

namespace TorEbpf.Or

open TorEbpf.Lib

/-! ### Sending -/

/-- `memcpy` of an `int` into a payload. -/
def setInt (o : ByteOrder) (n : ℕ) : List UInt8 :=
  match o with
  | .little => leBytes 4 n
  | .big => beBytes 4 n

/-- The payloads of the cells that were queued; nothing if the loop still runs. -/
abbrev Sent := Option (List (Bytes cellPayloadSize))

/-- The `do` loop of `send_plugin_files`, `fuel` times at most: `idx` is `payload_idx` and `space` is
`remaining_space`. -/
def sendLoop (o : ByteOrder) (idx space : ℕ) :
    ℕ → Bytes cellPayloadSize → List UInt8 → List (Bytes cellPayloadSize) → Step Sent
  | 0, _, _, _ => pure none
  | fuel + 1, payload, content, sent => do
      let bytesRead := content.take space
      let payload ← store payload (idx + 4) bytesRead
      let cell ← store payload idx (setInt o bytesRead.length)
      -- only `remaining_space` bytes are cleared: the last four bytes of the piece stay
      let payload ← store cell idx (List.replicate space 0)
      if bytesRead.length = space then
        sendLoop o idx space fuel payload (content.drop space) (sent ++ [cell])
      else pure (some (sent ++ [cell]))

def relativeFileName (pluginName dName : Name) : Name := pluginName ++ 0x2f :: dName

/-- `remaining_space`, an `unsigned long`. -/
def remainingSpace (idx : ℕ) : ℕ := (2 ^ 64 + cellPayloadSize - idx - 4) % 2 ^ 64

def sendFile (o : ByteOrder) (fuel : ℕ) (pluginName dName : Name) (content : List UInt8) : Step Sent := do
  let name := relativeFileName pluginName dName
  if cellPayloadSize < name.length + 1 then fault .write
  else
    let payload ← store (Bytes.pad cellPayloadSize []) 0 (setInt o name.length)
    let payload ← store payload 4 name
    sendLoop o (4 + name.length) (remainingSpace (4 + name.length)) fuel payload content []

/-- `send_plugin_files`, for the names and contents of the files in the directory. -/
def sendPluginFiles (o : ByteOrder) (fuel : ℕ) (pluginName : Name) : List (Name × List UInt8) → Step Sent
  | [] => pure (some [])
  | (dName, content) :: files =>
      if dName.head? = some 0x2e then sendPluginFiles o fuel pluginName files
      else do
        match ← sendFile o fuel pluginName dName content with
        | none => pure none
        | some cells => do
            match ← sendPluginFiles o fuel pluginName files with
            | none => pure none
            | some more => pure (some (cells ++ more))

/-- What `handle_plugin_transfer_cell` reads in a cell: the name of the file and the piece. -/
def receivePiece (o : ByteOrder) (payload : Bytes cellPayloadSize) : Step (Name × List UInt8) := do
  let (fileName, idx, lenData) ← transferPayload o payload.val
  if idx + lenData ≤ payload.val.length then pure (fileName, slice payload.val idx lenData) else fault .read

/-- The pieces of a file, one after the other. -/
def received (pieces : List (Name × List UInt8)) (fileName : Name) : List UInt8 :=
  pieces.flatMap fun piece => if piece.1 = fileName then piece.2 else []

/-- The directory of a plugin: what the file system allows. -/
structure PluginDir where
  name : Name
  files : List (Name × List UInt8)
  name_nul : 0 ∉ name
  files_nul : ∀ file ∈ files, 0 ∉ file.1
  nodup : (files.map Prod.fst).Nodup

/-! ### What a cell holds -/

def CarriesPiece (o : ByteOrder) (name piece : List UInt8) (cell : Bytes cellPayloadSize) : Prop :=
  ∃ rest, cell.val = setInt o name.length ++ name ++ setInt o piece.length ++ piece ++ rest

section Cells

variable {o : ByteOrder} {name piece : List UInt8} {cell : Bytes cellPayloadSize}

@[simp] theorem length_setInt (o : ByteOrder) (n : ℕ) : (setInt o n).length = 4 := by
  cases o
  · exact leBytes_length 4 n
  · exact beBytes_length 4 n

theorem getInt_setInt {n : ℕ} (h : n < 2 ^ 32) : getInt o (setInt o n) = n := by
  cases o
  · exact leNat_leBytes h
  · exact beNat_beBytes h

theorem cString_pad {n : ℕ} (h0 : 0 ∉ name) (hlen : name.length ≤ n) :
    cString (Bytes.pad n name).val = name := by
  have hplain : ∀ b ∈ name, (decide (b ≠ 0)) = true := by
    intro b hb
    rw [decide_eq_true_eq]
    rintro rfl
    exact h0 hb
  have hval : (Bytes.pad n name).val = name ++ List.replicate (n - name.length) 0 := by
    show (name ++ List.replicate n 0).take n = _
    rw [List.take_append, List.take_of_length_le hlen, List.take_replicate,
      Nat.min_eq_left (Nat.sub_le _ _)]
  rw [cString, hval, List.takeWhile_append_of_pos hplain]
  cases n - name.length with
  | zero => simp
  | succ k => simp [List.replicate_succ]

/-- **What is received** is what the cell carries. -/
theorem receivePiece_of_carries (h : CarriesPiece o name piece cell) (h0 : 0 ∉ name) :
    receivePiece o cell = .ok (name, piece) := by
  obtain ⟨rest, hval⟩ := h
  have hlen := cell.length_eq
  rw [hval] at hlen
  simp only [List.length_append, length_setInt] at hlen
  unfold cellPayloadSize at hlen
  have hname : readInt o cell.val 0 = .ok name.length := by
    have hslice : slice cell.val 0 4 = setInt o name.length := by
      rw [hval, List.append_assoc, List.append_assoc, List.append_assoc]
      exact slice_append_left (length_setInt o _).symm
    rw [readInt, if_pos (by rw [cell.length_eq]; decide), hslice, getInt_setInt (by omega)]
    rfl
  have hcopy : memcpy cell.val 4 name.length cellPayloadSize = .ok (Bytes.pad cellPayloadSize name) := by
    have hslice : slice cell.val 4 name.length = name := by
      rw [hval, List.append_assoc, List.append_assoc]
      exact slice_append_mid (length_setInt o _).symm rfl
    unfold memcpy
    rw [if_pos (by rw [cell.length_eq]; unfold cellPayloadSize; omega),
      if_pos (by unfold cellPayloadSize; omega), hslice]
    rfl
  have hdata : readInt o cell.val (4 + name.length) = .ok piece.length := by
    have hslice : slice cell.val (4 + name.length) 4 = setInt o piece.length := by
      rw [hval, List.append_assoc]
      exact slice_append_mid (by simp) (length_setInt o _).symm
    rw [readInt, if_pos (by rw [cell.length_eq]; unfold cellPayloadSize; omega), hslice,
      getInt_setInt (by omega)]
    rfl
  have hpiece : slice cell.val (8 + name.length) piece.length = piece := by
    rw [hval]
    refine slice_append_mid ?_ rfl
    simp only [List.length_append, length_setInt]
    omega
  rw [receivePiece, transferPayload, hname, ok_bind, hcopy, ok_bind, hdata, ok_bind,
    cString_pad h0 (by unfold cellPayloadSize; omega)]
  simp only [pure_bind, hpiece]
  rw [if_pos (by rw [cell.length_eq]; unfold cellPayloadSize; omega)]
  rfl

end Cells

/-! ### The loop -/

section Loop

variable {o : ByteOrder} {name : Name}

theorem store_append {n off : ℕ} {b : Bytes n} {a r m : List UInt8} (hval : b.val = a ++ r)
    (hoff : off = a.length) (h : m.length ≤ r.length) :
    ∃ b', store b off m = .ok b' ∧ b'.val = a ++ m ++ r.drop m.length := by
  have hlen := b.length_eq
  rw [hval, List.length_append] at hlen
  have hle : off + m.length ≤ n := by omega
  refine ⟨b.write off m hle, dif_pos hle, ?_⟩
  show b.val.take off ++ m ++ b.val.drop (off + m.length) = _
  rw [hval, hoff, List.take_left, List.drop_append, List.drop_eq_nil_of_le (by omega),
    List.nil_append, Nat.add_sub_cancel_left]

/-- One piece: the cell that is sent, and what is left in the payload. -/
theorem piece_stored (o : ByteOrder) (piece : List UInt8) {k : ℕ} {payload : Bytes cellPayloadSize}
    {head r : List UInt8} (hval : payload.val = head ++ r) (hspace : r.length = 4 + k)
    (hpiece : piece.length ≤ k) :
    ∃ payload₁ cell payload₂, store payload (head.length + 4) piece = .ok payload₁ ∧
      store payload₁ head.length (setInt o piece.length) = .ok cell ∧
      store cell head.length (List.replicate k 0) = .ok payload₂ ∧
      (∃ rest, cell.val = head ++ setInt o piece.length ++ piece ++ rest) ∧
      ∃ r', payload₂.val = head ++ r' ∧ r'.length = 4 + k := by
  have hsplit : payload.val = (head ++ r.take 4) ++ r.drop 4 := by
    rw [hval, List.append_assoc, List.take_append_drop]
  have htake : (r.take 4).length = 4 := by
    rw [List.length_take]
    omega
  obtain ⟨payload₁, hstore₁, hval₁⟩ := store_append (m := piece) hsplit
    (show head.length + 4 = _ by rw [List.length_append, htake]) (by rw [List.length_drop]; omega)
  have hsplit₁ : payload₁.val = head ++ (r.take 4 ++ piece ++ (r.drop 4).drop piece.length) := by
    rw [hval₁]
    simp only [List.append_assoc]
  obtain ⟨cell, hstore, hcell⟩ := store_append (m := setInt o piece.length) hsplit₁ rfl
    (by simp only [List.length_append, length_setInt, htake]; omega)
  have hdrop : (r.take 4 ++ piece ++ (r.drop 4).drop piece.length).drop 4 =
      piece ++ (r.drop 4).drop piece.length := by
    rw [List.append_assoc, List.drop_append, htake, Nat.sub_self, List.drop_eq_nil_of_le (by omega)]
    rfl
  rw [length_setInt, hdrop, ← List.append_assoc] at hcell
  have hsplit₂ : cell.val = head ++ (setInt o piece.length ++ piece ++ (r.drop 4).drop piece.length) := by
    rw [hcell]
    simp only [List.append_assoc]
  have hlen₂ : (setInt o piece.length ++ piece ++ (r.drop 4).drop piece.length).length = 4 + k := by
    simp only [List.length_append, length_setInt, List.length_drop]
    omega
  obtain ⟨payload₂, hstore₂, hval₂⟩ := store_append (m := List.replicate k (0 : UInt8)) hsplit₂ rfl
    (by rw [hlen₂, List.length_replicate]; omega)
  rw [List.append_assoc] at hval₂
  refine ⟨payload₁, cell, payload₂, hstore₁, hstore, hstore₂, ⟨_, hcell⟩, _, hval₂, ?_⟩
  rw [List.length_append, List.length_drop, hlen₂, List.length_replicate]
  omega

/-- **The loop** sends the content in pieces. -/
theorem sendLoop_ok {k : ℕ} {head : List UInt8} :
    ∀ fuel (payload : Bytes cellPayloadSize) (r content : List UInt8) sent, payload.val = head ++ r →
      r.length = 4 + k → content.length < fuel * k →
      ∃ pieces cells, sendLoop o head.length k fuel payload content sent = .ok (some (sent ++ cells)) ∧
        pieces.flatten = content ∧ List.Forall₂ (fun (piece : List UInt8) (cell : Bytes cellPayloadSize) =>
          ∃ rest, cell.val = head ++ setInt o piece.length ++ piece ++ rest) pieces cells := by
  intro fuel
  induction fuel with
  | zero =>
    intro payload r content sent _ _ hfuel
    omega
  | succ fuel ih =>
    intro payload r content sent hval hr hfuel
    obtain ⟨payload₁, cell, payload₂, h₁, hcell, h₂, hcarries, r', hval', hr'⟩ :=
      piece_stored o (content.take k) hval hr (List.length_take_le _ _)
    rw [sendLoop, h₁, ok_bind, hcell, ok_bind, h₂, ok_bind]
    split_ifs with hfull
    · rw [List.length_take] at hfull
      rw [Nat.succ_mul] at hfuel
      obtain ⟨pieces, cells, hloop, hflat, hall⟩ :=
        ih payload₂ r' (content.drop k) (sent ++ [cell]) hval' hr' (by rw [List.length_drop]; omega)
      refine ⟨content.take k :: pieces, cell :: cells, ?_, ?_, .cons hcarries hall⟩
      · rw [hloop, List.append_assoc]
        rfl
      · rw [List.flatten_cons, hflat, List.take_append_drop]
    · have hshort : content.length < k := by
        rw [List.length_take] at hfull
        omega
      rw [List.take_of_length_le hshort.le] at hcarries
      refine ⟨[content], [cell], rfl, by simp, ?_⟩
      exact .cons hcarries .nil

/-- Without space, the loop sends empty pieces for ever. -/
theorem sendLoop_none {head : List UInt8} :
    ∀ fuel (payload : Bytes cellPayloadSize) (r content : List UInt8) sent, payload.val = head ++ r →
      r.length = 4 → sendLoop o head.length 0 fuel payload content sent = .ok none := by
  intro fuel
  induction fuel with
  | zero =>
    intro payload r content sent _ _
    rfl
  | succ fuel ih =>
    intro payload r content sent hval hr
    obtain ⟨payload₁, cell, payload₂, h₁, hcell, h₂, _, r', hval', hr'⟩ :=
      piece_stored o [] (k := 0) hval hr (by simp)
    rw [sendLoop, List.take_zero, h₁, ok_bind, hcell, ok_bind, h₂, ok_bind, List.length_nil, if_pos rfl]
    exact ih payload₂ r' _ _ hval' hr'

theorem name_stored (o : ByteOrder) (name : Name) (h : name.length ≤ 501) :
    ∃ payload₁ payload r, store (Bytes.pad cellPayloadSize []) 0 (setInt o name.length) = .ok payload₁ ∧
      store payload₁ 4 name = .ok payload ∧ payload.val = setInt o name.length ++ name ++ r ∧
      r.length = 505 - name.length := by
  have hlen : 4 + name.length ≤ cellPayloadSize := by
    unfold cellPayloadSize
    omega
  have hstore : store (Bytes.pad cellPayloadSize (setInt o name.length)) 4 name =
      .ok (Bytes.pad cellPayloadSize (setInt o name.length ++ name)) :=
    store_pad (length_setInt o _).symm (by rwa [length_setInt])
  refine ⟨_, _, List.replicate (505 - name.length) 0, store_start (by simp [cellPayloadSize]), hstore, ?_,
    List.length_replicate⟩
  show (setInt o name.length ++ name ++ List.replicate cellPayloadSize 0).take cellPayloadSize = _
  have htotal : (setInt o name.length ++ name).length = 4 + name.length := by simp
  rw [List.take_append, List.take_of_length_le (by omega), htotal, List.take_replicate]
  congr 2
  unfold cellPayloadSize at hlen ⊢
  omega

end Loop

/-! ### Files -/

section Files

variable {o : ByteOrder} {pluginName dName : Name} {content : List UInt8} {fuel : ℕ}

theorem remainingSpace_eq {n : ℕ} (h : n ≤ 501) : remainingSpace (4 + n) = 501 - n := by
  unfold remainingSpace cellPayloadSize
  omega

theorem sendFile_ok (h : (relativeFileName pluginName dName).length ≤ 500) (hfuel : content.length < fuel) :
    ∃ pieces cells, sendFile o fuel pluginName dName content = .ok (some cells) ∧ pieces.flatten = content ∧
      List.Forall₂ (CarriesPiece o (relativeFileName pluginName dName)) pieces cells := by
  unfold sendFile
  simp only
  generalize relativeFileName pluginName dName = name at h
  obtain ⟨payload₁, payload, r, h₁, hstore, hval, hr⟩ := name_stored o name (by omega)
  rw [if_neg (by unfold cellPayloadSize; omega), h₁, ok_bind, hstore, ok_bind, remainingSpace_eq (by omega)]
  have hhead : (setInt o name.length ++ name).length = 4 + name.length := by simp
  have hspace : 0 < 501 - name.length := by omega
  obtain ⟨pieces, cells, hloop, hflat, hall⟩ := sendLoop_ok (o := o) fuel payload r content [] hval
    (by omega) (lt_of_lt_of_le hfuel (Nat.le_mul_of_pos_right fuel hspace))
  rw [hhead, List.nil_append] at hloop
  exact ⟨pieces, cells, hloop, hflat, hall⟩

/-- A file whose name leaves no space is not sent: the loop does not end, or writes behind the cell. -/
theorem not_sendFile_ok (h : 501 ≤ (relativeFileName pluginName dName).length)
    (cells : List (Bytes cellPayloadSize)) : sendFile o fuel pluginName dName content ≠ .ok (some cells) := by
  unfold sendFile
  simp only
  generalize relativeFileName pluginName dName = name at h
  intro hok
  split_ifs at hok
  · cases hok
  obtain ⟨payload₁, h₁, hok⟩ := bind_eq_ok.mp hok
  obtain ⟨payload, hstore, hok⟩ := bind_eq_ok.mp hok
  rcases Nat.eq_or_lt_of_le h with heq | hlt
  · obtain ⟨payload₁', payload', r, h₁', hstore', hval, hr⟩ := name_stored o name heq.ge
    rw [h₁'] at h₁
    cases h₁
    rw [hstore'] at hstore
    cases hstore
    have hhead : (setInt o name.length ++ name).length = 4 + name.length := by simp
    have hloop := sendLoop_none (o := o) fuel payload r content [] hval (by omega)
    rw [remainingSpace_eq heq.ge, ← heq, Nat.sub_self, heq, ← hhead, hloop] at hok
    cases hok
  · -- the length of the piece does not fit
    cases fuel with
    | zero => cases hok
    | succ fuel =>
      rw [sendLoop] at hok
      obtain ⟨payload₂, hpiece, _⟩ := bind_eq_ok.mp hok
      rw [store] at hpiece
      split_ifs at hpiece with hfits
      · unfold cellPayloadSize at hfits
        omega
      · cases hpiece

theorem mapM_receivePiece {name : Name} (h0 : 0 ∉ name) {pieces : List (List UInt8)}
    {cells : List (Bytes cellPayloadSize)} (h : List.Forall₂ (CarriesPiece o name) pieces cells) :
    cells.mapM (receivePiece o) = .ok (pieces.map (name, ·)) := by
  induction h with
  | nil => rfl
  | cons hfirst _ ih =>
    rw [List.mapM_cons, receivePiece_of_carries hfirst h0, ok_bind, ih]
    rfl

theorem received_append (l m : List (Name × List UInt8)) (name : Name) :
    received (l ++ m) name = received l name ++ received m name := List.flatMap_append

theorem received_map (name name' : Name) (pieces : List (List UInt8)) :
    received (pieces.map (name, ·)) name' = if name = name' then pieces.flatten else [] := by
  rw [received, List.flatMap_map]
  split_ifs
  · simp [List.flatMap_id']
  · simp

def contentOf (files : List (Name × List UInt8)) (dName : Name) : List UInt8 :=
  files.flatMap fun file => if file.1 = dName then file.2 else []

theorem contentOf_of_mem {files : List (Name × List UInt8)} (hnodup : (files.map Prod.fst).Nodup)
    {file : Name × List UInt8} (h : file ∈ files) : contentOf files file.1 = file.2 := by
  induction files with
  | nil => exact absurd h List.not_mem_nil
  | cons first files ih =>
    rw [List.map_cons, List.nodup_cons] at hnodup
    rw [contentOf, List.flatMap_cons, ← contentOf]
    rcases List.mem_cons.mp h with rfl | hrest
    · have hnone : contentOf files file.1 = [] := by
        rw [contentOf, List.flatMap_eq_nil_iff]
        intro other hother
        rw [if_neg]
        intro heq
        exact hnodup.1 (List.mem_map.mpr ⟨other, hother, heq⟩)
      rw [if_pos rfl, hnone, List.append_nil]
    · have hne : first.1 ≠ file.1 := by
        intro heq
        exact hnodup.1 (List.mem_map.mpr ⟨file, hrest, heq.symm⟩)
      rw [if_neg hne, List.nil_append, ih hnodup.2 hrest]

/-- The files that are not hidden. -/
def visible (files : List (Name × List UInt8)) : List (Name × List UInt8) :=
  files.filter fun file => file.1.head? ≠ some 0x2e

theorem visible_cons (file : Name × List UInt8) (files : List (Name × List UInt8)) :
    visible (file :: files) = if file.1.head? = some 0x2e then visible files else file :: visible files := by
  unfold visible
  by_cases hdot : file.1.head? = some 0x2e
  · rw [if_pos hdot, List.filter_cons_of_neg (by simpa using hdot)]
  · rw [if_neg hdot, List.filter_cons_of_pos (by simpa using hdot)]

/-- **A directory whose names leave space** is sent and received. -/
theorem sendPluginFiles_ok (hname : 0 ∉ pluginName) (files : List (Name × List UInt8))
    (hfit : ∀ file ∈ visible files, 0 ∉ file.1 ∧ (relativeFileName pluginName file.1).length ≤ 500 ∧
      file.2.length < fuel) :
    ∃ cells pieces, sendPluginFiles o fuel pluginName files = .ok (some cells) ∧
      (∀ cell ∈ cells, ∃ file ∈ files, ∃ piece,
        CarriesPiece o (relativeFileName pluginName file.1) piece cell) ∧
      cells.mapM (receivePiece o) = .ok pieces ∧
      ∀ dName, received pieces (relativeFileName pluginName dName) = contentOf (visible files) dName := by
  induction files with
  | nil => exact ⟨[], [], rfl, fun _ h => absurd h List.not_mem_nil, rfl, fun _ => rfl⟩
  | cons file files ih =>
    rw [visible_cons] at hfit ⊢
    rw [sendPluginFiles]
    split_ifs at hfit ⊢ with hdot
    · obtain ⟨cells, pieces, hsend, hcells, hrest⟩ := ih hfit
      refine ⟨cells, pieces, hsend, ?_, hrest⟩
      intro cell hcell
      obtain ⟨file', hfile', hcarries⟩ := hcells cell hcell
      exact ⟨file', List.mem_cons_of_mem file hfile', hcarries⟩
    · rw [List.forall_mem_cons] at hfit
      obtain ⟨⟨h0, hlen, hfuel⟩, hothers⟩ := hfit
      obtain ⟨cells, pieces, hsend, hcells, hreceive, hcontent⟩ := ih hothers
      obtain ⟨own, ownCells, hown, hflat, hall⟩ := sendFile_ok (o := o) hlen hfuel
      have hnul : 0 ∉ relativeFileName pluginName file.1 := by
        simp only [relativeFileName, List.mem_append, List.mem_cons, not_or]
        exact ⟨hname, by decide, h0⟩
      refine ⟨ownCells ++ cells, own.map (relativeFileName pluginName file.1, ·) ++ pieces, ?_, ?_, ?_, ?_⟩
      · simp only [hown, ok_bind, hsend]
        rfl
      · intro cell hcell
        rcases List.mem_append.mp hcell with hcell | hcell
        · obtain ⟨i, hi, rfl⟩ := List.mem_iff_getElem.mp hcell
          have hi' : i < own.length := by rwa [hall.length_eq]
          exact ⟨file, List.mem_cons_self, own[i], (List.forall₂_iff_get.mp hall).2 i hi' hi⟩
        · obtain ⟨file', hfile', hcarries⟩ := hcells cell hcell
          exact ⟨file', List.mem_cons_of_mem file hfile', hcarries⟩
      · rw [List.mapM_append, mapM_receivePiece hnul hall, ok_bind, hreceive]
        rfl
      · intro dName
        rw [received_append, received_map, hcontent, hflat]
        have hinj :
            relativeFileName pluginName file.1 = relativeFileName pluginName dName ↔ file.1 = dName := by
          simp [relativeFileName]
        simp only [hinj]
        rfl

/-- A directory with a name that leaves no space is not sent. -/
theorem not_sendPluginFiles_ok {files : List (Name × List UInt8)} {file : Name × List UInt8}
    (hfile : file ∈ visible files) (hlen : 501 ≤ (relativeFileName pluginName file.1).length)
    (cells : List (Bytes cellPayloadSize)) : sendPluginFiles o fuel pluginName files ≠ .ok (some cells) := by
  induction files generalizing cells with
  | nil => exact absurd hfile List.not_mem_nil
  | cons first files ih =>
    rw [visible_cons] at hfile
    rw [sendPluginFiles]
    intro hok
    split_ifs at hfile hok
    · exact ih hfile cells hok
    · obtain ⟨sent, hfirst, hok⟩ := bind_eq_ok.mp hok
      cases sent with
      | none => cases hok
      | some ownCells =>
        rcases List.mem_cons.mp hfile with rfl | hfile
        · exact not_sendFile_ok hlen ownCells hfirst
        · obtain ⟨more, hmore, hok⟩ := bind_eq_ok.mp hok
          cases more with
          | none => cases hok
          | some moreCells => exact ih hfile moreCells hmore

/-- The files of a plugin arrive as they are: the loops end, every cell holds a name and a piece, and the
pieces that are received for a file are its content. -/
def Lossless (o : ByteOrder) (dir : PluginDir) : Prop :=
  ∃ fuel cells pieces, sendPluginFiles o fuel dir.name dir.files = .ok (some cells) ∧
    (∀ cell ∈ cells, ∃ file ∈ dir.files, ∃ piece,
      CarriesPiece o (relativeFileName dir.name file.1) piece cell) ∧
    cells.mapM (receivePiece o) = .ok pieces ∧
    ∀ file ∈ visible dir.files, received pieces (relativeFileName dir.name file.1) = file.2

/-- **When the files of a plugin arrive**: exactly if, with each of its files, the two names have at most
499 bytes. -/
theorem lossless_iff (o : ByteOrder) (dir : PluginDir) :
    Lossless o dir ↔ ∀ file ∈ visible dir.files, dir.name.length + file.1.length ≤ 499 := by
  have hlen : ∀ dName, (relativeFileName dir.name dName).length = dir.name.length + dName.length + 1 := by
    intro dName
    simp only [relativeFileName, List.length_append, List.length_cons]
    omega
  constructor
  · rintro ⟨fuel, cells, _, hsend, _⟩ file hfile
    by_contra hlong
    exact not_sendPluginFiles_ok hfile (by rw [hlen]; omega) cells hsend
  · intro hfit
    have hsum : ∀ file ∈ dir.files, file.2.length < (dir.files.map fun f => f.2.length).sum + 1 := by
      intro file hfile
      exact Nat.lt_succ_of_le (List.le_sum_of_mem (List.mem_map.mpr ⟨file, hfile, rfl⟩))
    have hvisible : ∀ file ∈ visible dir.files, file ∈ dir.files := fun file hfile =>
      List.mem_of_mem_filter hfile
    obtain ⟨cells, pieces, hsend, hcells, hreceive, hcontent⟩ :=
      sendPluginFiles_ok (o := o) dir.name_nul dir.files fun file hfile =>
        ⟨dir.files_nul file (hvisible file hfile), by rw [hlen]; have := hfit file hfile; omega,
          hsum file (hvisible file hfile)⟩
    refine ⟨_, cells, pieces, hsend, hcells, hreceive, ?_⟩
    intro file hfile
    rw [hcontent]
    exact contentOf_of_mem (dir.nodup.sublist (List.filter_sublist.map Prod.fst)) hfile

def longNames : PluginDir where
  name := List.replicate 250 0x61
  files := [(List.replicate 250 0x62, [1, 2, 3])]
  name_nul := by decide
  files_nul := by decide
  nodup := by decide

/-- **Names that fill the cell**: the loop sends empty pieces for ever. -/
theorem not_lossless_longNames : ¬Lossless .little longNames := by
  rintro ⟨fuel, cells, _, hsend, _⟩
  have hmem : (List.replicate 250 0x62, [1, 2, 3]) ∈ visible longNames.files := by decide +kernel
  exact not_sendPluginFiles_ok hmem (by decide +kernel) cells hsend

end Files

end TorEbpf.Or
