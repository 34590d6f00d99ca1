import TorEbpf.Ubpf.Elf

/-!
# Which images the ELF loader handles safely

* `noFault_prepare` — the headers, the sections and the copy of the text are read inside the image,
  for every byte string.
* `noFault_relocate` — one relocation, exactly: what has to hold of its fields, of the symbol and the
  string they name and of the text before it.
* `noFault_ubpfLoadElf` — the loader makes no access outside the image, `text_copy` or `sections` iff
  every relocation that it reaches meets that condition.
-/

namespace TorEbpf.Ubpf.Elf

open TorEbpf.Lib

/-! ### Single accesses -/

@[simp] theorem noFault_rejectIf (c : Prop) [Decidable c] (e : ElfError) :
    NoFault (rejectIf c e) := by
  unfold rejectIf
  split
  · exact noFault_reject e
  · exact noFault_pure ()

theorem rejectIf_ok {c : Prop} [Decidable c] {e : ElfError} {u : Unit}
    (h : rejectIf c e = .ok u) : ¬c := by
  unfold rejectIf at h
  split at h
  · cases h
  · assumption

theorem rejectIf_of_not {c : Prop} [Decidable c] (e : ElfError) (h : ¬c) :
    rejectIf c e = .ok () := by
  rw [rejectIf, if_neg h]
  rfl

theorem noFault_read {img : Image} {off n : ℕ} (h : off + n ≤ img.size) :
    NoFault (img.read off n) := by
  rw [Image.read, if_pos h]
  exact noFault_pure _

theorem read_of_le {img : Image} {off n : ℕ} (h : off + n ≤ img.size) :
    img.read off n = .ok (img.field off n) := by
  rw [Image.read, if_pos h]
  rfl

theorem read_ok {img : Image} {off n v : ℕ} (h : img.read off n = .ok v) : v = img.field off n := by
  unfold Image.read at h
  split at h
  · cases h
    rfl
  · cases h

theorem noFault_readCStr {img : Image} {off : ℕ} :
    NoFault (img.readCStr off) ↔ ∃ s, img.cstr? off = some s := by
  unfold Image.readCStr
  cases img.cstr? off with
  | none => simp
  | some s => simp

theorem readCStr_ok {img : Image} {off : ℕ} {s : List UInt8} :
    img.readCStr off = .ok s ↔ img.cstr? off = some s := by
  unfold Image.readCStr
  cases img.cstr? off with
  | none => exact ⟨fun h => (by cases h), fun h => (by cases h)⟩
  | some s' => exact ⟨fun h => (by cases h; rfl), fun h => (by cases h; rfl)⟩

theorem noFault_sectionAt {sections : List Section} {i : ℕ} :
    NoFault (sectionAt sections i) ↔ i < sections.length := by
  unfold sectionAt
  cases h : sections[i]? with
  | none =>
    have := List.getElem?_eq_none_iff.mp h
    simp
    omega
  | some s =>
    obtain ⟨hlt, _⟩ := List.getElem?_eq_some_iff.mp h
    simp [hlt]

theorem sectionAt_ok {sections : List Section} {i : ℕ} {s : Section} :
    sectionAt sections i = .ok s ↔ sections[i]? = some s := by
  unfold sectionAt
  cases sections[i]? with
  | none => exact ⟨fun h => (by cases h), fun h => (by cases h)⟩
  | some s' => exact ⟨fun h => (by cases h; rfl), fun h => (by cases h; rfl)⟩

theorem noFault_readText {text : List UInt8} {off : ℕ} :
    NoFault (readText text off) ↔ off + 4 ≤ text.length := by
  unfold readText
  split <;> simp [*]

theorem noFault_writeText {text : List UInt8} {off v : ℕ} :
    NoFault (writeText text off v) ↔ off + 4 ≤ text.length := by
  unfold writeText
  split <;> simp [*]

theorem writeText_length {text text' : List UInt8} {off v : ℕ}
    (h : writeText text off v = .ok text') : text'.length = text.length := by
  unfold writeText at h
  split at h
  · cases h
    rw [List.length_append, List.length_append, List.length_take, List.length_drop, leBytes_length]
    omega
  · cases h

theorem field_lt (img : Image) (off n : ℕ) : img.field off n < 256 ^ n := by
  apply Nat.lt_of_lt_of_le (leNat_lt _)
  apply Nat.pow_le_pow_right (by decide)
  rw [slice, List.length_take]
  omega

theorem boundsCheck_some {boundsSize offset size x : ℕ} (ho : offset < 2 ^ 64)
    (hs : size < 2 ^ 64) (h : boundsCheck boundsSize offset size = some x) :
    x = offset ∧ offset + size ≤ boundsSize := by
  unfold boundsCheck at h
  split at h
  · cases h
  · cases h
    refine ⟨rfl, ?_⟩
    omega

/-! ### The headers -/

theorem noFault_readEhdr (img : Image) : NoFault (readEhdr img) := by
  unfold readEhdr
  refine noFault_bind.mpr ⟨noFault_rejectIf _ _, ?_⟩
  intro _ hcheck
  have hsize : 64 ≤ img.size := by
    have hne := rejectIf_ok hcheck
    unfold boundsCheck at hne
    split at hne
    · exact absurd rfl hne
    · omega
  repeat' refine noFault_bind.mpr ⟨?_, fun _ _ => ?_⟩
  all_goals first
    | exact noFault_rejectIf _ _
    | exact noFault_read (by omega)
    | exact noFault_pure _

/-- The data of a section lie inside the image. -/
def Section.Fits (img : Image) (s : Section) : Prop := s.data + s.size ≤ img.size

theorem noFault_readSection (img : Image) (ehdr : Ehdr) (i : ℕ) :
    NoFault (readSection img ehdr i) := by
  unfold readSection
  split
  · exact noFault_reject _
  · rename_i shdr hcheck
    obtain ⟨rfl, hle⟩ := boundsCheck_some (Nat.mod_lt _ (by decide)) (by decide) hcheck
    repeat' refine noFault_bind.mpr ⟨?_, fun _ _ => ?_⟩
    all_goals first
      | exact noFault_rejectIf _ _
      | exact noFault_read (by omega)
      | exact noFault_pure _

theorem readSection_fits {img : Image} {ehdr : Ehdr} {i : ℕ} {s : Section}
    (h : readSection img ehdr i = .ok s) : s.Fits img := by
  unfold readSection at h
  split at h
  · cases h
  · rename_i shdr hcheck
    obtain ⟨rfl, hle⟩ := boundsCheck_some (Nat.mod_lt _ (by decide)) (by decide) hcheck
    obtain ⟨offset, hoffset, h⟩ := bind_eq_ok.mp h
    obtain ⟨size, hsize, h⟩ := bind_eq_ok.mp h
    obtain ⟨_, hdata, h⟩ := bind_eq_ok.mp h
    obtain ⟨_, _, h⟩ := bind_eq_ok.mp h
    obtain ⟨_, _, h⟩ := bind_eq_ok.mp h
    obtain ⟨_, _, h⟩ := bind_eq_ok.mp h
    obtain ⟨_, _, h⟩ := bind_eq_ok.mp h
    cases h
    have ho : offset < 2 ^ 64 := by rw [read_ok hoffset]; exact field_lt _ _ _
    have hs : size < 2 ^ 64 := by rw [read_ok hsize]; exact field_lt _ _ _
    obtain ⟨x, hx⟩ := Option.ne_none_iff_exists'.mp (rejectIf_ok hdata)
    exact (boundsCheck_some ho hs hx).2

theorem noFault_readSections (img : Image) (ehdr : Ehdr) : NoFault (readSections img ehdr) := by
  rw [readSections, noFault_foldlM]
  intro pre i post acc _ _
  exact noFault_bind.mpr ⟨noFault_readSection img ehdr i, fun _ _ => noFault_pure _⟩

/-- The sections that are read are `e_shnum`, and the data of each lie inside the image. -/
theorem readSections_spec {img : Image} {ehdr : Ehdr} {sections : List Section}
    (h : readSections img ehdr = .ok sections) :
    sections.length = ehdr.shnum ∧ ∀ s ∈ sections, s.Fits img := by
  have key : ∀ (is : List ℕ) (acc : List Section), (∀ s ∈ acc, s.Fits img) →
      is.foldlM (fun sections i => do
        let s ← readSection img ehdr i
        return sections ++ [s]) acc = (.ok sections : Load (List Section)) →
      sections.length = acc.length + is.length ∧ ∀ s ∈ sections, s.Fits img := by
    intro is
    induction is with
    | nil =>
      intro acc hacc h
      cases h
      exact ⟨rfl, hacc⟩
    | cons i is ih =>
      intro acc hacc h
      rw [List.foldlM_cons, bind_eq_ok] at h
      obtain ⟨acc', hacc', h⟩ := h
      obtain ⟨s, hs, hret⟩ := bind_eq_ok.mp hacc'
      cases hret
      obtain ⟨hlen, hfits⟩ := ih (acc ++ [s]) (by
        intro s' hs'
        rcases List.mem_append.mp hs' with hmem | hmem
        · exact hacc s' hmem
        · rw [List.mem_singleton.mp hmem]
          exact readSection_fits hs) h
      refine ⟨?_, hfits⟩
      rw [hlen, List.length_append, List.length_singleton, List.length_cons]
      omega
  obtain ⟨hlen, hfits⟩ := key _ [] (by simp) h
  refine ⟨?_, hfits⟩
  rw [hlen, List.length_nil, List.length_range, Nat.zero_add]

/-! ### Before the relocations -/

/-- What holds of the loader's data once the sections are read. -/
structure Job.Ok (job : Job) : Prop where
  length : job.sections.length = job.ehdr.shnum
  fits : ∀ s ∈ job.sections, s.Fits job.img
  text : job.text ∈ job.sections

theorem textShndx_lt {sections : List Section} (h : textShndx sections ≠ 0) :
    textShndx sections < sections.length := by
  unfold textShndx at h ⊢
  cases hf : sections.findIdx? fun s => s.shType = 1 ∧ s.shFlags = 6 with
  | none => rw [hf] at h; exact absurd rfl h
  | some i => exact (List.findIdx?_eq_some_iff_getElem.mp hf).1

/-- **Up to the relocations every access is inside.** -/
theorem noFault_prepare (img : Image) (vm : UbpfVm) (malloc : ℕ → ℕ → Option (BitVec 64)) :
    NoFault (prepare img vm malloc) := by
  unfold prepare
  refine noFault_bind.mpr ⟨noFault_readEhdr img, fun ehdr _ => ?_⟩
  refine noFault_bind.mpr ⟨noFault_readSections img ehdr, fun sections hsec => ?_⟩
  refine noFault_bind.mpr ⟨noFault_rejectIf _ _, fun _ hne => ?_⟩
  refine noFault_bind.mpr ⟨noFault_sectionAt.mpr (textShndx_lt (rejectIf_ok hne)), ?_⟩
  intro text htext
  refine noFault_bind.mpr ⟨noFault_rejectIf _ _, fun _ _ => ?_⟩
  refine noFault_bind.mpr ⟨?_, fun _ _ => noFault_pure _⟩
  have hfits : text.data + text.size ≤ img.size :=
    (readSections_spec hsec).2 text (List.mem_of_getElem? (sectionAt_ok.mp htext))
  rw [Image.copy, if_pos hfits]
  exact noFault_pure _

theorem prepare_spec {img : Image} {vm : UbpfVm} {malloc : ℕ → ℕ → Option (BitVec 64)} {job : Job}
    {st : RelocState} (h : prepare img vm malloc = .ok (job, st)) :
    job.Ok ∧ job.img = img ∧ st.text.length = job.text.size := by
  unfold prepare at h
  obtain ⟨ehdr, _, h⟩ := bind_eq_ok.mp h
  obtain ⟨sections, hsec, h⟩ := bind_eq_ok.mp h
  obtain ⟨_, _, h⟩ := bind_eq_ok.mp h
  obtain ⟨text, htext, h⟩ := bind_eq_ok.mp h
  obtain ⟨_, _, h⟩ := bind_eq_ok.mp h
  obtain ⟨copy, hcopy, h⟩ := bind_eq_ok.mp h
  cases h
  obtain ⟨hlen, hfits⟩ := readSections_spec hsec
  have hmem := List.mem_of_getElem? (sectionAt_ok.mp htext)
  refine ⟨⟨hlen, hfits, hmem⟩, rfl, ?_⟩
  have hfit : text.data + text.size ≤ img.size := hfits text hmem
  rw [Image.copy, if_pos hfit] at hcopy
  cases hcopy
  exact slice_length hfit

/-! ### One relocation -/

/-- Relocation `j` of a section, as its bytes in the image say. -/
def relAt (img : Image) (rel : Section) (j : ℕ) : Rel :=
  ⟨img.field (rel.data + 16 * j) 8, img.field (rel.data + 16 * j + 8) 8⟩

/-- Symbol `idx` of a symbol table. -/
def symAt (img : Image) (symtab : Section) (idx : ℕ) : Sym :=
  ⟨img.field (symtab.data + 24 * idx) 4, img.field (symtab.data + 24 * idx + 4) 1,
    img.field (symtab.data + 24 * idx + 6) 2, img.field (symtab.data + 24 * idx + 8) 8⟩

theorem readRel_eq {img : Image} {rel : Section} {j : ℕ} (hfits : rel.Fits img)
    (hj : j < rel.size / 16) : readRel img rel j = .ok (relAt img rel j) := by
  unfold Section.Fits at hfits
  rw [readRel, read_of_le (by omega), read_of_le (by omega)]
  rfl

theorem readSym_eq {img : Image} {symtab : Section} {idx : ℕ} (hfits : symtab.Fits img)
    (hidx : idx < symtab.size / 24) : readSym img symtab idx = .ok (symAt img symtab idx) := by
  unfold Section.Fits at hfits
  rw [readSym, read_of_le (by omega), read_of_le (by omega), read_of_le (by omega),
    read_of_le (by omega)]
  rfl

/-- The four bytes at an offset, modulo `2^64`, lie in `text_copy`. -/
def InText (ctx : RelocCtx) (off : ℕ) : Prop := off % 2 ^ 64 + 4 ≤ ctx.textSize

/-- Where in its section the string of a relocation of type 1 starts: `STT_SECTION` symbols have it in
the immediate of the instruction, `STT_OBJECT` symbols in their value. -/
def stringOffset (st : RelocState) (r : Rel) (sym : Sym) : Option ℕ :=
  if sym.type = sttSection then
    some (extendImm (leNat (slice st.text ((r.offset + 4) % 2 ^ 64) 4)))
  else if sym.type = sttObject then some sym.value
  else none

/-- What has to hold of a relocation of type 1: the section index of its symbol is one of the file,
the immediate that is read and the two that are written lie in the text, and the string ends inside
the image. -/
structure DataOk (ctx : RelocCtx) (st : RelocState) (r : Rel) (sym : Sym) : Prop where
  shndx : sym.shndx < ctx.sections.length
  imm : sym.type = sttSection → InText ctx (r.offset + 4)
  string : ∀ sec offset, ctx.sections[sym.shndx]? = some sec → stringOffset st r sym = some offset →
    ∃ s, ctx.img.cstr? ((sec.data + offset) % 2 ^ 64) = some s ∧
      (ctx.malloc st.mallocs (s.length + 1) ≠ none → ctx.malloc (st.mallocs + 1) 24 ≠ none →
        InText ctx (r.offset + 4) ∧ InText ctx (r.offset + 12))

/-- What has to hold of a relocation of type 2 or 10: the name of its symbol ends inside the image,
and its offset is not one of the four for which `r_offset + 8` wraps and `r_offset + 4` does not. -/
def CallOk (ctx : RelocCtx) (st : RelocState) (r : Rel) (sym : Sym) : Prop :=
  (r.offset + 8) % 2 ^ 64 ≤ ctx.textSize →
    ∃ name, ctx.img.cstr? (ctx.strtab.data + sym.name) = some name ∧
      (lookupRegisteredFunction st.vm name ≠ none →
        ¬(2 ^ 64 - 8 ≤ r.offset ∧ r.offset < 2 ^ 64 - 4))

/-- What has to hold of a relocation whose symbol passes the two checks on it. -/
def RelocOk (ctx : RelocCtx) (st : RelocState) (r : Rel) : Prop :=
  let sym := symAt ctx.img ctx.symtab r.sym
  r.sym < ctx.numSyms → sym.name < ctx.strtab.size →
    (r.type = 1 → DataOk ctx st r sym) ∧ (r.type = 2 ∨ r.type = 10 → CallOk ctx st r sym)

section Relocation

variable {ctx : RelocCtx} {st : RelocState} {r : Rel}

theorem RelocCtx.sym_lt (hidx : r.sym < ctx.numSyms) : r.sym < ctx.symtab.size / 24 :=
  Nat.lt_of_lt_of_le hidx (Nat.mod_le _ _)

theorem noFault_readStringOffset (htext : st.text.length = ctx.textSize) {sym : Sym} :
    NoFault (readStringOffset st r sym) ↔ (sym.type = sttSection → InText ctx (r.offset + 4)) := by
  unfold readStringOffset InText
  rw [← htext]
  by_cases hs : sym.type = sttSection
  · rw [if_pos hs, noFault_bind, noFault_readText]
    exact ⟨fun h _ => h.1, fun h => ⟨h hs, fun _ _ => noFault_pure _⟩⟩
  · rw [if_neg hs]
    refine ⟨fun _ h => absurd h hs, fun _ => ?_⟩
    split
    · exact noFault_pure _
    · exact noFault_reject _

theorem readStringOffset_ok (htext : st.text.length = ctx.textSize) {sym : Sym}
    (himm : sym.type = sttSection → InText ctx (r.offset + 4)) {offset : ℕ} :
    readStringOffset st r sym = .ok offset ↔ stringOffset st r sym = some offset := by
  unfold readStringOffset stringOffset
  by_cases hs : sym.type = sttSection
  · have hin : (r.offset + 4) % 2 ^ 64 + 4 ≤ st.text.length := by
      rw [htext]
      exact himm hs
    rw [if_pos hs, if_pos hs, readText, if_pos hin]
    exact ⟨fun h => by cases h; rfl, fun h => by cases h; rfl⟩
  · rw [if_neg hs, if_neg hs]
    split
    · exact ⟨fun h => by cases h; rfl, fun h => by cases h; rfl⟩
    · exact ⟨fun h => (by cases h), fun h => (by cases h)⟩

theorem noFault_storeString (htext : st.text.length = ctx.textSize) {s : List UInt8} :
    NoFault (storeString ctx st r s) ↔
      (ctx.malloc st.mallocs (s.length + 1) ≠ none → ctx.malloc (st.mallocs + 1) 24 ≠ none →
        InText ctx (r.offset + 4) ∧ InText ctx (r.offset + 12)) := by
  unfold storeString
  cases ctx.malloc st.mallocs (s.length + 1) with
  | none => simp
  | some ptr =>
    cases ctx.malloc (st.mallocs + 1) 24 with
    | none => simp
    | some node =>
      simp only [noFault_bind, noFault_writeText, noFault_pure, ne_eq, reduceCtorEq,
        not_false_eq_true, true_implies, implies_true, and_true, InText, ← htext]
      constructor
      · rintro ⟨h₁, h₂⟩
        refine ⟨h₁, ?_⟩
        obtain ⟨text', hw⟩ : ∃ text', writeText st.text ((r.offset + 4) % 2 ^ 64)
            (ptr.toNat % 2 ^ 32) = .ok text' := by
          rw [writeText, if_pos h₁]
          exact ⟨_, rfl⟩
        rw [← writeText_length hw]
        exact h₂ _ hw
      · rintro ⟨h₁, h₂⟩
        refine ⟨h₁, fun text' hw => ?_⟩
        rw [writeText_length hw]
        exact h₂

theorem noFault_relocateData (hfits : ctx.symtab.Fits ctx.img)
    (htext : st.text.length = ctx.textSize) :
    NoFault (relocateData ctx st r) ↔
      (r.sym < ctx.numSyms → (symAt ctx.img ctx.symtab r.sym).name < ctx.strtab.size →
        DataOk ctx st r (symAt ctx.img ctx.symtab r.sym)) := by
  unfold relocateData
  by_cases hidx : r.sym < ctx.numSyms
  · rw [rejectIf_of_not _ (by omega), readSym_eq hfits (RelocCtx.sym_lt hidx), ok_bind, ok_bind]
    generalize symAt ctx.img ctx.symtab r.sym = sym
    by_cases hname : sym.name < ctx.strtab.size
    · rw [rejectIf_of_not _ (by omega), ok_bind, ok_bind, noFault_bind, noFault_sectionAt]
      simp only [noFault_bind, noFault_readStringOffset htext, noFault_readCStr,
        noFault_storeString htext, hidx, hname, true_implies, sectionAt_ok, readCStr_ok]
      constructor
      · intro ⟨hshndx, h⟩
        have hsec : ctx.sections[sym.shndx]? = some ctx.sections[sym.shndx] :=
          List.getElem?_eq_getElem hshndx
        have himm := (h _ hsec).1
        refine ⟨hshndx, himm, ?_⟩
        intro sec offset hget hoff
        obtain ⟨⟨s, hs⟩, hstore⟩ := (h sec hget).2 offset ((readStringOffset_ok htext himm).mpr hoff)
        exact ⟨s, hs, hstore s hs⟩
      · intro hok
        refine ⟨hok.shndx, fun sec hget => ⟨hok.imm, fun offset hoff => ?_⟩⟩
        obtain ⟨s, hs, hstore⟩ :=
          hok.string sec offset hget ((readStringOffset_ok htext hok.imm).mp hoff)
        refine ⟨⟨s, hs⟩, fun s' hs' => ?_⟩
        rw [hs] at hs'
        cases hs'
        exact hstore
    · rw [rejectIf, if_pos (by omega), reject_bind]
      exact ⟨fun _ _ h => absurd h hname, fun _ => noFault_reject _⟩
  · rw [rejectIf, if_pos (by omega), reject_bind]
    exact ⟨fun _ h => absurd h hidx, fun _ => noFault_reject _⟩

theorem noFault_relocateCall (hfits : ctx.symtab.Fits ctx.img)
    (htext : st.text.length = ctx.textSize) (hsize : ctx.textSize < 2 ^ 64)
    (hoffset : r.offset < 2 ^ 64) :
    NoFault (relocateCall ctx st r) ↔
      (r.sym < ctx.numSyms → (symAt ctx.img ctx.symtab r.sym).name < ctx.strtab.size →
        CallOk ctx st r (symAt ctx.img ctx.symtab r.sym)) := by
  unfold relocateCall
  by_cases hidx : r.sym < ctx.numSyms
  · rw [rejectIf_of_not _ (by omega), readSym_eq hfits (RelocCtx.sym_lt hidx), ok_bind, ok_bind]
    generalize symAt ctx.img ctx.symtab r.sym = sym
    by_cases hname : sym.name < ctx.strtab.size
    · rw [rejectIf_of_not _ (by omega), ok_bind]
      simp only [hidx, hname, true_implies, CallOk]
      by_cases hoff : (r.offset + 8) % 2 ^ 64 ≤ ctx.textSize
      · rw [rejectIf_of_not _ (by omega), ok_bind, noFault_bind, noFault_readCStr]
        simp only [hoff, true_implies, readCStr_ok]
        -- the write is in the text iff the offset is not one of the four
        have hwrite : ∀ imm, NoFault (writeText st.text ((r.offset + 4) % 2 ^ 64) imm) ↔
            ¬(2 ^ 64 - 8 ≤ r.offset ∧ r.offset < 2 ^ 64 - 4) := by
          intro imm
          rw [noFault_writeText, htext]
          omega
        constructor
        · intro ⟨⟨name, hn⟩, h⟩
          refine ⟨name, hn, fun hreg => ?_⟩
          obtain ⟨imm, himm⟩ := Option.ne_none_iff_exists'.mp hreg
          have hnf := h name hn
          rw [himm] at hnf
          exact (hwrite imm).mp (noFault_bind.mp hnf).1
        · intro ⟨name, hn, h⟩
          refine ⟨⟨name, hn⟩, fun name' hn' => ?_⟩
          rw [hn] at hn'
          cases hn'
          cases hreg : lookupRegisteredFunction st.vm name with
          | none => exact noFault_reject _
          | some imm =>
            rw [hreg] at h
            exact noFault_bind.mpr ⟨(hwrite imm).mpr (h (by simp)), fun _ _ => noFault_pure _⟩
      · rw [rejectIf, if_pos (by omega), reject_bind]
        exact ⟨fun _ h => absurd h hoff, fun _ => noFault_reject _⟩
    · rw [rejectIf, if_pos (by omega), reject_bind]
      exact ⟨fun _ _ h => absurd h hname, fun _ => noFault_reject _⟩
  · rw [rejectIf, if_pos (by omega), reject_bind]
    exact ⟨fun _ h => absurd h hidx, fun _ => noFault_reject _⟩

/-- **One relocation.** -/
theorem noFault_relocate (hfits : ctx.symtab.Fits ctx.img) (htext : st.text.length = ctx.textSize)
    (hsize : ctx.textSize < 2 ^ 64) (hoffset : r.offset < 2 ^ 64) :
    NoFault (relocate ctx st r) ↔ RelocOk ctx st r := by
  unfold relocate RelocOk
  by_cases h₁ : r.type = 1
  · rw [if_pos h₁, noFault_relocateData hfits htext]
    have h₂ : ¬(r.type = 2 ∨ r.type = 10) := by omega
    simp [h₁]
  · rw [if_neg h₁]
    by_cases h₂ : r.type ≠ 2 ∧ r.type ≠ 10
    · rw [if_pos h₂]
      have h₃ : ¬(r.type = 2 ∨ r.type = 10) := by omega
      simp [h₁, h₃]
    · rw [if_neg h₂, noFault_relocateCall hfits htext hsize hoffset]
      have h₃ : r.type = 2 ∨ r.type = 10 := by omega
      simp only [h₁, h₃, false_implies, true_implies, true_and]

theorem storeString_text_length {s : List UInt8} {st' : RelocState}
    (h : storeString ctx st r s = .ok st') : st'.text.length = st.text.length := by
  unfold storeString at h
  split at h
  · cases h
  · cases h
  · obtain ⟨text₁, h₁, h⟩ := bind_eq_ok.mp h
    obtain ⟨text₂, h₂, h⟩ := bind_eq_ok.mp h
    cases h
    exact (writeText_length h₂).trans (writeText_length h₁)

theorem relocate_text_length {st' : RelocState} (h : relocate ctx st r = .ok st') :
    st'.text.length = st.text.length := by
  unfold relocate at h
  split at h
  · unfold relocateData at h
    obtain ⟨_, _, h⟩ := bind_eq_ok.mp h
    obtain ⟨sym, _, h⟩ := bind_eq_ok.mp h
    obtain ⟨_, _, h⟩ := bind_eq_ok.mp h
    obtain ⟨_, _, h⟩ := bind_eq_ok.mp h
    obtain ⟨sec, _, h⟩ := bind_eq_ok.mp h
    obtain ⟨offset, _, h⟩ := bind_eq_ok.mp h
    obtain ⟨s, _, h⟩ := bind_eq_ok.mp h
    exact storeString_text_length h
  · split at h
    · cases h
    · unfold relocateCall at h
      obtain ⟨_, _, h⟩ := bind_eq_ok.mp h
      obtain ⟨sym, _, h⟩ := bind_eq_ok.mp h
      obtain ⟨_, _, h⟩ := bind_eq_ok.mp h
      obtain ⟨_, _, h⟩ := bind_eq_ok.mp h
      obtain ⟨name, _, h⟩ := bind_eq_ok.mp h
      split at h
      · cases h
      · obtain ⟨text, hw, h⟩ := bind_eq_ok.mp h
        cases h
        exact writeText_length hw

end Relocation

/-! ### The whole loader -/

section Loops

variable {job : Job} {st st' : RelocState} {i : ℕ}

theorem relocateEntry_text_length {ctx : RelocCtx} {rel : Section} {j : ℕ}
    (h : relocateEntry ctx rel st j = .ok st') : st'.text.length = st.text.length := by
  unfold relocateEntry at h
  obtain ⟨r, _, h⟩ := bind_eq_ok.mp h
  exact relocate_text_length h

/-- Section `i` holds relocations of the text, and these are the tables its links name. -/
structure Tables (job : Job) (i : ℕ) (rel symtab strtab : Section) : Prop where
  getRel : job.sections[i]? = some rel
  type : rel.shType = 9
  info : rel.shInfo = textShndx job.sections
  getSymtab : job.sections[rel.shLink]? = some symtab
  getStrtab : job.sections[symtab.shLink]? = some strtab

/-- A turn of the loop over the sections faults iff the loop over the relocations does. -/
theorem noFault_relocateSection (hjob : job.Ok) (hi : i < job.ehdr.shnum) :
    NoFault (relocateSection job st i) ↔ ∀ rel symtab strtab, Tables job i rel symtab strtab →
      NoFault ((List.range (rel.size / 16)).foldlM (relocateEntry (job.ctx symtab strtab) rel) st) := by
  obtain ⟨rel, hrel⟩ : ∃ rel, job.sections[i]? = some rel :=
    ⟨_, List.getElem?_eq_getElem (by rw [hjob.length]; exact hi)⟩
  have hsame : ∀ {rel' symtab strtab}, Tables job i rel' symtab strtab → rel' = rel :=
    fun ht => Option.some.inj (ht.getRel.symm.trans hrel)
  -- a section that does not take part: nothing is read, and there are no tables for it
  have hnone : ∀ {x : Load RelocState}, NoFault x →
      (∀ symtab strtab, ¬Tables job i rel symtab strtab) →
      (NoFault x ↔ ∀ rel symtab strtab, Tables job i rel symtab strtab →
        NoFault ((List.range (rel.size / 16)).foldlM
          (relocateEntry (job.ctx symtab strtab) rel) st)) := by
    intro x hx hno
    refine ⟨fun _ rel' symtab strtab ht => ?_, fun _ => hx⟩
    rw [hsame ht] at ht
    exact absurd ht (hno symtab strtab)
  unfold relocateSection
  rw [sectionAt_ok.mpr hrel, ok_bind]
  by_cases h₁ : rel.shType = 4
  · rw [if_pos h₁]
    exact hnone (noFault_reject _) fun _ _ ht => by have := ht.type; omega
  rw [if_neg h₁]
  by_cases h₂ : rel.shType ≠ 9
  · rw [if_pos h₂]
    exact hnone (noFault_pure _) fun _ _ ht => h₂ ht.type
  rw [if_neg h₂]
  by_cases h₃ : rel.shInfo ≠ textShndx job.sections
  · rw [if_pos h₃]
    exact hnone (noFault_pure _) fun _ _ ht => h₃ ht.info
  rw [if_neg h₃]
  cases hsymtab : job.sections[rel.shLink]? with
  | none =>
    have hlen := List.getElem?_eq_none_iff.mp hsymtab
    rw [hjob.length] at hlen
    rw [rejectIf, if_pos hlen, reject_bind]
    exact hnone (noFault_reject _) fun _ _ ht => by
      have := ht.getSymtab
      rw [hsymtab] at this
      cases this
  | some symtab =>
    obtain ⟨hlt, _⟩ := List.getElem?_eq_some_iff.mp hsymtab
    rw [hjob.length] at hlt
    rw [rejectIf_of_not _ (by omega), ok_bind, sectionAt_ok.mpr hsymtab, ok_bind]
    cases hstrtab : job.sections[symtab.shLink]? with
    | none =>
      have hlen := List.getElem?_eq_none_iff.mp hstrtab
      rw [hjob.length] at hlen
      rw [rejectIf, if_pos hlen, reject_bind]
      refine hnone (noFault_reject _) fun symtab' _ ht => ?_
      obtain rfl : symtab' = symtab := Option.some.inj (ht.getSymtab.symm.trans hsymtab)
      have := ht.getStrtab
      rw [hstrtab] at this
      cases this
    | some strtab =>
      obtain ⟨hlt', _⟩ := List.getElem?_eq_some_iff.mp hstrtab
      rw [hjob.length] at hlt'
      rw [rejectIf_of_not _ (by omega), ok_bind, sectionAt_ok.mpr hstrtab, ok_bind]
      constructor
      · intro h rel' symtab' strtab' ht
        obtain rfl := hsame ht
        obtain rfl : symtab' = symtab := Option.some.inj (ht.getSymtab.symm.trans hsymtab)
        obtain rfl : strtab' = strtab := Option.some.inj (ht.getStrtab.symm.trans hstrtab)
        exact h
      · intro h
        exact h rel symtab strtab ⟨hrel, by omega, by omega, hsymtab, hstrtab⟩

theorem relocateSection_text_length (h : relocateSection job st i = .ok st') :
    st'.text.length = st.text.length := by
  unfold relocateSection at h
  obtain ⟨rel, _, h⟩ := bind_eq_ok.mp h
  split at h
  · cases h
  · split at h
    · cases h
      rfl
    · split at h
      · cases h
        rfl
      · obtain ⟨_, _, h⟩ := bind_eq_ok.mp h
        obtain ⟨symtab, _, h⟩ := bind_eq_ok.mp h
        obtain ⟨_, _, h⟩ := bind_eq_ok.mp h
        obtain ⟨strtab, _, h⟩ := bind_eq_ok.mp h
        exact foldlM_invariant (I := fun t => t.text.length = st.text.length)
          (fun t j t' ht hj => (relocateEntry_text_length hj).trans ht) _ rfl h

end Loops

/-- A relocation that the loader reaches: index `j` of a section with its tables, where everything
before it was accepted and left the state `st`. -/
def Reached (img : Image) (vm : UbpfVm) (malloc : ℕ → ℕ → Option (BitVec 64)) (job : Job)
    (rel symtab strtab : Section) (j : ℕ) (st : RelocState) : Prop :=
  ∃ st₀ st₁ pre i post preJ postJ, prepare img vm malloc = .ok (job, st₀) ∧
    List.range job.ehdr.shnum = pre ++ i :: post ∧
    pre.foldlM (relocateSection job) st₀ = .ok st₁ ∧ Tables job i rel symtab strtab ∧
    List.range (rel.size / 16) = preJ ++ j :: postJ ∧
    preJ.foldlM (relocateEntry (job.ctx symtab strtab) rel) st₁ = .ok st

theorem mem_range_of_split {n x : ℕ} {pre post : List ℕ} (h : List.range n = pre ++ x :: post) :
    x < n := by
  have hmem : x ∈ List.range n := by
    rw [h]
    exact List.mem_append_right _ List.mem_cons_self
  exact List.mem_range.mp hmem

theorem noFault_relocateEntry {img : Image} {vm : UbpfVm} {malloc : ℕ → ℕ → Option (BitVec 64)}
    {job : Job} {rel symtab strtab : Section} {j : ℕ} {st : RelocState}
    (h : Reached img vm malloc job rel symtab strtab j st) :
    NoFault (relocateEntry (job.ctx symtab strtab) rel st j) ↔
      RelocOk (job.ctx symtab strtab) st (relAt img rel j) := by
  obtain ⟨st₀, st₁, pre, i, post, preJ, postJ, hprep, _, hpre, ht, hj, hpreJ⟩ := h
  obtain ⟨hjob, rfl, htext₀⟩ := prepare_spec hprep
  have htext₁ : st₁.text.length = job.text.size :=
    foldlM_invariant (I := fun t => t.text.length = job.text.size)
      (fun t i t' ht hi => (relocateSection_text_length hi).trans ht) _ htext₀ hpre
  have htext : st.text.length = job.text.size :=
    foldlM_invariant (I := fun t => t.text.length = job.text.size)
      (fun t i t' ht hi => (relocateEntry_text_length hi).trans ht) _ htext₁ hpreJ
  have hrel : rel.Fits job.img := hjob.fits rel (List.mem_of_getElem? ht.getRel)
  have hsymtab : symtab.Fits job.img := hjob.fits symtab (List.mem_of_getElem? ht.getSymtab)
  have hsize : job.text.size < 2 ^ 64 := by
    have hfits : job.text.data + job.text.size ≤ job.img.size := hjob.fits _ hjob.text
    have := job.img.size_lt
    unfold Image.size at hfits
    omega
  have hread : readRel (job.ctx symtab strtab).img rel j = .ok (relAt job.img rel j) :=
    readRel_eq hrel (mem_range_of_split hj)
  rw [relocateEntry, hread, ok_bind]
  exact noFault_relocate hsymtab htext hsize (field_lt _ _ _)

/-- **Which images the loader handles safely.**  It makes no access outside the image, `text_copy` or
`sections` iff every relocation it reaches is in order. -/
theorem noFault_ubpfLoadElf (img : Image) (vm : UbpfVm) (malloc : ℕ → ℕ → Option (BitVec 64))
    (memoryPtr memorySize ctxId : BitVec 64) :
    NoFault (ubpfLoadElf img vm malloc memoryPtr memorySize ctxId) ↔
      ∀ job rel symtab strtab j st, Reached img vm malloc job rel symtab strtab j st →
        RelocOk (job.ctx symtab strtab) st (relAt img rel j) := by
  unfold ubpfLoadElf
  rw [noFault_bind]
  constructor
  · intro ⟨_, h⟩ job rel symtab strtab j st hr
    rw [← noFault_relocateEntry hr]
    obtain ⟨st₀, st₁, pre, i, post, preJ, postJ, hprep, hi, hpre, ht, hj, hpreJ⟩ := hr
    have hloop := (noFault_bind.mp (h (job, st₀) hprep)).1
    rw [noFault_foldlM] at hloop
    have hsec := hloop pre i post st₁ hi hpre
    rw [noFault_relocateSection (prepare_spec hprep).1 (mem_range_of_split hi)] at hsec
    exact (noFault_foldlM _ st₁).mp (hsec rel symtab strtab ht) preJ j postJ st hj hpreJ
  · intro h
    refine ⟨noFault_prepare img vm malloc, ?_⟩
    intro ⟨job, st₀⟩ hprep
    refine noFault_bind.mpr ⟨?_, ?_⟩
    · rw [noFault_foldlM]
      intro pre i post st₁ hi hpre
      rw [noFault_relocateSection (prepare_spec hprep).1 (mem_range_of_split hi)]
      intro rel symtab strtab ht
      rw [noFault_foldlM]
      intro preJ j postJ st hj hpreJ
      have hr : Reached img vm malloc job rel symtab strtab j st :=
        ⟨st₀, st₁, pre, i, post, preJ, postJ, hprep, hi, hpre, ht, hj, hpreJ⟩
      exact (noFault_relocateEntry hr).mpr (h job rel symtab strtab j st hr)
    · intro st _
      split
      · exact noFault_reject _
      · exact noFault_pure _

/-! ### An image with a relocation beyond the text -/

/-- An ELF header for `shnum` section headers right behind it. -/
def ehdrBytes (shnum : ℕ) : List UInt8 :=
  [0x7f, 0x45, 0x4c, 0x46, 2, 1, 1, 0] ++ leBytes 8 0 ++ leBytes 2 1 ++ leBytes 2 247 ++ leBytes 4 1
    ++ leBytes 8 0 ++ leBytes 8 0 ++ leBytes 8 64 ++ leBytes 4 0 ++ leBytes 2 64 ++ leBytes 2 0
    ++ leBytes 2 0 ++ leBytes 2 64 ++ leBytes 2 shnum ++ leBytes 2 0

def shdrBytes (type flags offset size link info : ℕ) : List UInt8 :=
  leBytes 4 0 ++ leBytes 4 type ++ leBytes 8 flags ++ leBytes 8 0 ++ leBytes 8 offset
    ++ leBytes 8 size ++ leBytes 4 link ++ leBytes 4 info ++ leBytes 8 0 ++ leBytes 8 0

/-- A text of one `EXIT`, a symbol for an empty string, and a relocation of type 1 at offset 8. -/
def badReloc : List UInt8 :=
  ehdrBytes 3 ++ shdrBytes 2 0 256 24 0 0 ++ shdrBytes 1 6 296 8 0 0 ++ shdrBytes 9 0 280 16 0 1
    ++ (leBytes 4 0 ++ leBytes 1 1 ++ leBytes 1 0 ++ leBytes 2 0 ++ leBytes 8 0 ++ leBytes 8 0)
    ++ (leBytes 8 8 ++ leBytes 8 1)
    ++ [0x95, 0, 0, 0, 0, 0, 0, 0]

theorem badReloc_size_lt : badReloc.length < 2 ^ 64 := by
  decide +kernel

/-- **The loader writes beyond `text_copy`**: four bytes at offset 12 of a text of eight. -/
theorem not_noFault_badReloc :
    ¬NoFault (ubpfLoadElf ⟨badReloc, badReloc_size_lt⟩ ubpfCreate (fun _ _ => some 0x1000) 0 0 0) := by
  have hfault : fault? (ubpfLoadElf ⟨badReloc, badReloc_size_lt⟩ ubpfCreate (fun _ _ => some 0x1000)
      0 0 0) = some (.writeText 12) := by
    decide +kernel
  rw [noFault_iff_fault?, hfault]
  exact Option.some_ne_none _

end TorEbpf.Ubpf.Elf
