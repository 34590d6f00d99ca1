import TorEbpf.Lib.Bytes
import TorEbpf.Lib.Checked
import TorEbpf.Ubpf.Rewrite

/-!
# The ELF loader

`ubpf_load_elf` of `ubpf_loader.c`.  Every access the loader makes is a step that can fault: a read
outside the image, a read or write outside `text_copy`, an index outside `sections`.  Checks of the
source are steps that can reject.  Offsets, sizes and addresses are natural numbers with the wrapping
of the C types written out; pointers into the image and into `text_copy` are offsets from their base
modulo `2^64`.

* The host is little-endian, which the loader requires of the image too.
* `malloc` is an oracle: what the `k`-th allocation of `n` bytes returns.
* A string is read as a whole.  For the name of a function this is `strcmp` against the registered
  names and, if there is no match, the `%s` of the error message: together they reach its end.
-/

namespace TorEbpf.Ubpf.Elf

open TorEbpf.Lib

/-- A byte string in memory, with a size that a `size_t` holds. -/
structure Image where
  bytes : List UInt8
  size_lt : bytes.length < 2 ^ 64

def Image.size (img : Image) : ℕ := img.bytes.length

inductive ElfError where
  | noHeader | wrongMagic | wrongClass | wrongByteOrder | wrongVersion | wrongOsAbi | wrongType
  | wrongMachine (machine : ℕ)
  | tooManySections | badSectionHeader | badSection | noText | noMemory
  | relaNotSupported
  | badSymtabIndex | badStrtabIndex | badSymbolIndex | badSymbolName
  | badSymbolType (type : ℕ)
  | strMalloc | nodeMalloc
  | badRelocationType (type : ℕ)
  | badRelocationOffset
  | functionNotFound (name : List UInt8)
  | load (e : LoadError)
  deriving DecidableEq, Repr

/-- The text stored in `*errmsg`; the two paths that only print to `stderr` store none. -/
def ElfError.message : ElfError → Option String
  | .noHeader => "not enough data for ELF header"
  | .wrongMagic => "wrong magic"
  | .wrongClass => "wrong class"
  | .wrongByteOrder => "wrong byte order"
  | .wrongVersion => "wrong version"
  | .wrongOsAbi => "wrong OS ABI"
  | .wrongType => "wrong type, expected relocatable"
  | .wrongMachine machine =>
      "wrong machine, expected none or BPF, got " ++ toString machine
  | .tooManySections => "too many sections"
  | .badSectionHeader => "bad section header offset or size"
  | .badSection => "bad section offset or size"
  | .noText => "text section not found"
  | .noMemory => "failed to allocate memory"
  | .relaNotSupported => none
  | .badSymtabIndex => "bad symbol table section index"
  | .badStrtabIndex => "bad string table section index"
  | .badSymbolIndex => "bad symbol index"
  | .badSymbolName => "bad symbol name"
  | .badSymbolType _ => none
  | .strMalloc => "str malloc error"
  | .nodeMalloc => "static_mem_node_t malloc error"
  | .badRelocationType type => "bad relocation type " ++ toString type
  | .badRelocationOffset => "bad relocation offset"
  | .functionNotFound name =>
      "function '" ++ String.ofList (name.map fun b => Char.ofNat b.toNat) ++ "' not found"
  | .load e => e.message

/-- The accesses the loader must not make. -/
inductive ElfFault where
  | sectionIndex (ndx : ℕ)
  | readImage (off : ℕ)
  | readText (off : ℕ)
  | writeText (off : ℕ)
  deriving DecidableEq, Repr

abbrev Load (α : Type) := Checked ElfError ElfFault α

/-- `if (c) { *errmsg = …; goto error; }`. -/
def rejectIf (c : Prop) [Decidable c] (e : ElfError) : Load Unit := if c then reject e else pure ()

/-! ### Reading the image -/

/-- The field of `n` bytes at `off`. -/
def Image.field (img : Image) (off n : ℕ) : ℕ := leNat (slice img.bytes off n)

def Image.read (img : Image) (off n : ℕ) : Load ℕ :=
  if off + n ≤ img.size then pure (img.field off n) else fault (.readImage off)

/-- The bytes from `off` up to the next `NUL` of the image. -/
def Image.cstr? (img : Image) (off : ℕ) : Option (List UInt8) :=
  if 0 ∈ img.bytes.drop off then some ((img.bytes.drop off).takeWhile (· ≠ 0)) else none

def Image.readCStr (img : Image) (off : ℕ) : Load (List UInt8) :=
  match img.cstr? off with
  | some s => pure s
  | none => fault (.readImage off)

/-- `memcpy` from the image. -/
def Image.copy (img : Image) (off n : ℕ) : Load (List UInt8) :=
  if off + n ≤ img.size then pure (slice img.bytes off n) else fault (.readImage off)

/-- `bounds_check`: the offset, or `NULL`. -/
def boundsCheck (boundsSize offset size : ℕ) : Option ℕ :=
  if boundsSize < (offset + size) % 2 ^ 64 ∨ (offset + size) % 2 ^ 64 < offset then none
  else some offset

/-! ### Headers and sections -/

def maxSections : ℕ := 32

/-- What the loader uses of `Elf64_Ehdr`. -/
structure Ehdr where
  shoff : ℕ
  shentsize : ℕ
  shnum : ℕ

/-- The header checks.  The constants are those of `elf.h`. -/
def readEhdr (img : Image) : Load Ehdr := do
  rejectIf (boundsCheck img.size 0 64 = none) .noHeader
  let magic ← img.read 0 4
  rejectIf (magic ≠ 0x464c457f) .wrongMagic
  let cls ← img.read 4 1
  rejectIf (cls ≠ 2) .wrongClass
  let data ← img.read 5 1
  rejectIf (data ≠ 1) .wrongByteOrder
  let version ← img.read 6 1
  rejectIf (version ≠ 1) .wrongVersion
  let osabi ← img.read 7 1
  rejectIf (osabi ≠ 0) .wrongOsAbi
  let type ← img.read 16 2
  rejectIf (type ≠ 1) .wrongType
  let machine ← img.read 18 2
  rejectIf (machine ≠ 0 ∧ machine ≠ 247) (.wrongMachine machine)
  let shnum ← img.read 60 2
  rejectIf (maxSections < shnum) .tooManySections
  let shoff ← img.read 40 8
  let shentsize ← img.read 58 2
  return ⟨shoff, shentsize, shnum⟩

/-- `struct section`, with what the loader uses of its `Elf64_Shdr`. -/
structure Section where
  shType : ℕ
  shFlags : ℕ
  shLink : ℕ
  shInfo : ℕ
  data : ℕ
  size : ℕ

/-- One turn of the loop over the section headers. -/
def readSection (img : Image) (ehdr : Ehdr) (i : ℕ) : Load Section :=
  match boundsCheck img.size ((ehdr.shoff + i * ehdr.shentsize) % 2 ^ 64) 64 with
  | none => reject .badSectionHeader
  | some shdr => do
      let offset ← img.read (shdr + 24) 8
      let size ← img.read (shdr + 32) 8
      rejectIf (boundsCheck img.size offset size = none) .badSection
      let shType ← img.read (shdr + 4) 4
      let shFlags ← img.read (shdr + 8) 8
      let shLink ← img.read (shdr + 40) 4
      let shInfo ← img.read (shdr + 44) 4
      return ⟨shType, shFlags, shLink, shInfo, offset, size⟩

def readSections (img : Image) (ehdr : Ehdr) : Load (List Section) :=
  (List.range ehdr.shnum).foldlM
    (fun sections i => do
      let s ← readSection img ehdr i
      return sections ++ [s]) []

def sectionAt (sections : List Section) (i : ℕ) : Load Section :=
  match sections[i]? with
  | some s => pure s
  | none => fault (.sectionIndex i)

/-- `text_shndx`: the first `SHT_PROGBITS` section with `SHF_ALLOC|SHF_EXECINSTR`, or `0`. -/
def textShndx (sections : List Section) : ℕ :=
  (sections.findIdx? fun s => s.shType = 1 ∧ s.shFlags = 6).getD 0

/-! ### Relocations -/

/-- `Elf64_Rel`. -/
structure Rel where
  offset : ℕ
  info : ℕ

/-- `ELF64_R_TYPE`. -/
def Rel.type (r : Rel) : ℕ := r.info % 2 ^ 32

/-- `ELF64_R_SYM`. -/
def Rel.sym (r : Rel) : ℕ := r.info / 2 ^ 32

/-- What the loader uses of `Elf64_Sym`. -/
structure Sym where
  name : ℕ
  info : ℕ
  shndx : ℕ
  value : ℕ

/-- `ELF64_ST_TYPE`. -/
def Sym.type (s : Sym) : ℕ := s.info % 16

def sttObject : ℕ := 1

def sttSection : ℕ := 3

/-- `rs[j]`. -/
def readRel (img : Image) (rel : Section) (j : ℕ) : Load Rel := do
  let offset ← img.read (rel.data + 16 * j) 8
  let info ← img.read (rel.data + 16 * j + 8) 8
  return ⟨offset, info⟩

def readSym (img : Image) (symtab : Section) (idx : ℕ) : Load Sym := do
  let name ← img.read (symtab.data + 24 * idx) 4
  let info ← img.read (symtab.data + 24 * idx + 4) 1
  let shndx ← img.read (symtab.data + 24 * idx + 6) 2
  let value ← img.read (symtab.data + 24 * idx + 8) 8
  return ⟨name, info, shndx, value⟩

/-- Read a `uint32_t` of `text_copy`. -/
def readText (text : List UInt8) (off : ℕ) : Load ℕ :=
  if off + 4 ≤ text.length then pure (leNat (slice text off 4)) else fault (.readText off)

def writeText (text : List UInt8) (off v : ℕ) : Load (List UInt8) :=
  if off + 4 ≤ text.length then pure (text.take off ++ leBytes 4 v ++ text.drop (off + 4))
  else fault (.writeText off)

/-- What a relocation reads besides itself. -/
structure RelocCtx where
  img : Image
  sections : List Section
  textSize : ℕ
  symtab : Section
  strtab : Section
  malloc : ℕ → ℕ → Option (BitVec 64)

/-- `num_syms`, a `uint32_t`. -/
def RelocCtx.numSyms (ctx : RelocCtx) : ℕ := ctx.symtab.size / 24 % 2 ^ 32

/-- What a relocation changes: the copy of the text, the VM with the strings it owns, and the number
of allocations made. -/
structure RelocState where
  text : List UInt8
  vm : UbpfVm
  mallocs : ℕ

/-- `offset = inst->imm`: a 32-bit immediate extended to a `uint64_t`. -/
def extendImm (imm : ℕ) : ℕ := if imm < 2 ^ 31 then imm else imm + 2 ^ 64 - 2 ^ 32

/-- The offset of the string in its section: for a symbol of type `STT_SECTION` it is in the
instruction (clang 12), for one of type `STT_OBJECT` in the symbol table (clang 10 and before). -/
def readStringOffset (st : RelocState) (r : Rel) (sym : Sym) : Load ℕ :=
  if sym.type = sttSection then do
    let imm ← readText st.text ((r.offset + 4) % 2 ^ 64)
    return extendImm imm
  else if sym.type = sttObject then pure sym.value
  else reject (.badSymbolType sym.type)

/-- Copy the string into memory of the VM and put its address into the two halves of the `LDDW`. -/
def storeString (ctx : RelocCtx) (st : RelocState) (r : Rel) (s : List UInt8) : Load RelocState :=
  match ctx.malloc st.mallocs (s.length + 1), ctx.malloc (st.mallocs + 1) 24 with
  | none, _ => reject .strMalloc
  | some _, none => reject .nodeMalloc
  | some ptr, some _ => do
      let text ← writeText st.text ((r.offset + 4) % 2 ^ 64) (ptr.toNat % 2 ^ 32)
      let text ← writeText text ((r.offset + 12) % 2 ^ 64) (ptr.toNat / 2 ^ 32)
      return ⟨text, { st.vm with staticMem := (s ++ [0]) :: st.vm.staticMem }, st.mallocs + 2⟩

/-- A relocation of type 1: the address of a string. -/
def relocateData (ctx : RelocCtx) (st : RelocState) (r : Rel) : Load RelocState := do
  rejectIf (ctx.numSyms ≤ r.sym) .badSymbolIndex
  let sym ← readSym ctx.img ctx.symtab r.sym
  -- the source makes this check twice
  rejectIf (ctx.strtab.size ≤ sym.name) .badSymbolName
  rejectIf (ctx.strtab.size ≤ sym.name) .badSymbolName
  let strSection ← sectionAt ctx.sections sym.shndx
  let offset ← readStringOffset st r sym
  let s ← ctx.img.readCStr ((strSection.data + offset) % 2 ^ 64)
  storeString ctx st r s

def lookupRegisteredFunction (vm : UbpfVm) (name : List UInt8) : Option ℕ :=
  (List.finRange maxExtFuncs).findIdx? fun i =>
    match vm.extFuncs i with
    | none => false
    | some other => other.toUTF8.toList = name

/-- A relocation of type 2 or 10: the index of a function is put into a `CALL`. -/
def relocateCall (ctx : RelocCtx) (st : RelocState) (r : Rel) : Load RelocState := do
  rejectIf (ctx.numSyms ≤ r.sym) .badSymbolIndex
  let sym ← readSym ctx.img ctx.symtab r.sym
  rejectIf (ctx.strtab.size ≤ sym.name) .badSymbolName
  rejectIf (ctx.textSize < (r.offset + 8) % 2 ^ 64) .badRelocationOffset
  let name ← ctx.img.readCStr (ctx.strtab.data + sym.name)
  match lookupRegisteredFunction st.vm name with
  | none => reject (.functionNotFound name)
  | some imm => do
      let text ← writeText st.text ((r.offset + 4) % 2 ^ 64) imm
      return { st with text := text }

/-- What one relocation does, by its type. -/
def relocate (ctx : RelocCtx) (st : RelocState) (r : Rel) : Load RelocState :=
  if r.type = 1 then relocateData ctx st r
  else if r.type ≠ 2 ∧ r.type ≠ 10 then reject (.badRelocationType r.type)
  else relocateCall ctx st r

/-! ### The loader -/

/-- What stays the same while the relocations are processed. -/
structure Job where
  img : Image
  ehdr : Ehdr
  sections : List Section
  text : Section
  malloc : ℕ → ℕ → Option (BitVec 64)

/-- The surroundings of a relocation for given symbol and string tables. -/
def Job.ctx (job : Job) (symtab strtab : Section) : RelocCtx :=
  ⟨job.img, job.sections, job.text.size, symtab, strtab, job.malloc⟩

/-- Read relocation `j` of a section and process it. -/
def relocateEntry (ctx : RelocCtx) (rel : Section) (st : RelocState) (j : ℕ) : Load RelocState := do
  let r ← readRel ctx.img rel j
  relocate ctx st r

/-- One turn of the loop over the sections. -/
def relocateSection (job : Job) (st : RelocState) (i : ℕ) : Load RelocState := do
  let rel ← sectionAt job.sections i
  if rel.shType = 4 then reject .relaNotSupported
  else if rel.shType ≠ 9 then pure st
  else if rel.shInfo ≠ textShndx job.sections then pure st
  else do
    rejectIf (job.ehdr.shnum ≤ rel.shLink) .badSymtabIndex
    let symtab ← sectionAt job.sections rel.shLink
    rejectIf (job.ehdr.shnum ≤ symtab.shLink) .badStrtabIndex
    let strtab ← sectionAt job.sections symtab.shLink
    (List.range (rel.size / 16)).foldlM (relocateEntry (job.ctx symtab strtab) rel) st

/-- Everything before the relocations: the headers, the text section and its copy. -/
def prepare (img : Image) (vm : UbpfVm) (malloc : ℕ → ℕ → Option (BitVec 64)) :
    Load (Job × RelocState) := do
  let ehdr ← readEhdr img
  let sections ← readSections img ehdr
  rejectIf (textShndx sections = 0) .noText
  let text ← sectionAt sections (textShndx sections)
  rejectIf (malloc 0 text.size = none) .noMemory
  let copy ← img.copy text.data text.size
  return (⟨img, ehdr, sections, text, malloc⟩, ⟨copy, vm, 1⟩)

def ubpfLoadElf (img : Image) (vm : UbpfVm) (malloc : ℕ → ℕ → Option (BitVec 64))
    (memoryPtr memorySize ctxId : BitVec 64) : Load UbpfVm := do
  let (job, st) ← prepare img vm malloc
  let st ← (List.range job.ehdr.shnum).foldlM (relocateSection job) st
  -- `code_len` is a `uint32_t`
  match ubpfLoad st.vm (st.text.take (job.text.size % 2 ^ 32)) memoryPtr memorySize ctxId with
  | .error e => reject (.load e)
  | .ok vm' => return vm'

end TorEbpf.Ubpf.Elf
