import MirOs.ByteMemory

/-!
# Linking a module into the kernel

`load_module` as far as it changes the copy of the object file in memory: the addresses of the
sections, the symbols looked up in the kernel, the cleared sections, the values of the symbols and
the relocations. All tables are read from the copy when they are used. What the loader does to the
symbol tables of the kernel is in `ModuleLoad`.
-/

namespace MirOs.ElfModule

set_option autoImplicit false

open MirOs.ByteMemory

/-- The bytes of a string before its terminating null. -/
abbrev Name := List (BitVec 8)

def nameAt (mem : Memory) (a : Address) : Nat → Name
  | 0 => []
  | limit + 1 => if mem a = 0 then [] else mem a :: nameAt mem (a + 1) limit

/-! ## Records -/

/-- The fields of `Elf32_Ehdr` that are read. -/
structure Ehdr where
  shoff : BitVec 32
  shnum : Nat
  shstrndx : Nat

def ehdrAt (mem : Memory) (hdr : Address) : Ehdr where
  shoff := word mem (hdr + 32)
  shnum := (half mem (hdr + 48)).toNat
  shstrndx := (half mem (hdr + 50)).toNat

structure Shdr where
  type : BitVec 32
  flags : BitVec 32
  addr : BitVec 32
  offset : BitVec 32
  size : BitVec 32
  link : BitVec 32
  info : BitVec 32

def shdrAt (mem : Memory) (a : Address) : Shdr where
  type := word mem (a + 4)
  flags := word mem (a + 8)
  addr := word mem (a + 12)
  offset := word mem (a + 16)
  size := word mem (a + 20)
  link := word mem (a + 24)
  info := word mem (a + 28)

/-- `&sections[i]`. -/
def sectionAt (sections : Address) (i : Nat) : Address := sections + BitVec.ofNat 32 (40 * i)

structure Sym where
  name : BitVec 32
  value : BitVec 32
  info : BitVec 8
  shndx : Nat
deriving DecidableEq

def symAt (mem : Memory) (a : Address) : Sym where
  name := word mem a
  value := word mem (a + 4)
  info := mem (a + 12)
  shndx := (half mem (a + 14)).toNat

/-- `&symbols[i]`. -/
def symbolAt (symbols : Address) (i : Nat) : Address := symbols + BitVec.ofNat 32 (16 * i)

/-- `ELF32_ST_BIND` and `ELF32_ST_TYPE`. -/
def Sym.bind (sym : Sym) : Nat := sym.info.toNat / 16

def Sym.type (sym : Sym) : Nat := sym.info.toNat % 16

structure Rel where
  offset : BitVec 32
  info : BitVec 32

def relAt (mem : Memory) (a : Address) : Rel where
  offset := word mem a
  info := word mem (a + 4)

/-- `&rel[n]`. -/
def entryAt (rel : Address) (n : Nat) : Address := rel + BitVec.ofNat 32 (8 * n)

/-- `ELF32_R_SYM` and `ELF32_R_TYPE`. -/
def Rel.sym (rel : Rel) : Nat := rel.info.toNat / 256

def Rel.type (rel : Rel) : Nat := rel.info.toNat % 256

def shtSymtab : BitVec 32 := 2
def shtStrtab : BitVec 32 := 3
def shtNobits : BitVec 32 := 8
def shtRel : BitVec 32 := 9

def shnUndef : Nat := 0
def shnAbs : Nat := 0xfff1

/-- `SHF_ALLOC`. -/
def Shdr.alloc (s : Shdr) : Bool := s.flags &&& 2 ≠ 0

/-! ## Loops -/

/-- A loop over the sections from `i` on, of at most so many rounds; `e_shnum` is read in every
round. -/
def sectionLoop (hdr : Address) (body : Nat → Memory → Memory) : Nat → Nat → Memory → Memory
  | 0, _, mem => mem
  | rounds + 1, i, mem =>
      if i < (ehdrAt mem hdr).shnum then sectionLoop hdr body rounds (i + 1) (body i mem) else mem

/-- `e_shnum` has 16 bits. -/
def eachSection (hdr : Address) (body : Nat → Memory → Memory) (mem : Memory) : Memory :=
  sectionLoop hdr body 65536 0 mem

/-! ## The passes -/

def relocateBase (base hdr : Address) (mem : Memory) : Memory :=
  let shdr := hdr + (ehdrAt mem hdr).shoff
  eachSection hdr (fun i mem =>
    setWord mem (sectionAt shdr i + 12) (base + (shdrAt mem (sectionAt shdr i)).offset)) mem

/-- Where the tables are. -/
structure Tables where
  sections : Address
  symbols : Address
  symbolCnt : Nat
  symstr : Address

/-- The last symbol table, if there is one. -/
def findSymtab (hdr sections : Address) (mem : Memory) : Option (Address × Nat) :=
  (List.range (ehdrAt mem hdr).shnum).foldl (fun found i =>
    let s := shdrAt mem (sectionAt sections i)
    if s.type = shtSymtab then some (hdr + s.offset, s.size.toNat / 16) else found) none

/-- The section taken for the string table; -1 if there is none. -/
def findStrtab (hdr sections : Address) (mem : Memory) : Option Nat :=
  (List.range (ehdrAt mem hdr).shnum).find? fun i =>
    (shdrAt mem (sectionAt sections i)).type = shtStrtab ∧ i ≠ (ehdrAt mem hdr).shstrndx

def symstrOf (hdr sections : Address) (mem : Memory) : Address :=
  hdr + match findStrtab hdr sections mem with
    | some i => (shdrAt mem (sectionAt sections i)).offset
    | none => (shdrAt mem (sections - 40)).offset

/-- What the allocator grants: the three tables, an entry for the dependency on symbol `i`, and the
strings of `.modinfo`. -/
structure Grants where
  tables : Bool
  dep : Nat → Bool
  modinfo : Bool

/-- The kernel's symbols, the size of the module, which bounds its strings, and what a load before
has left in `init_module`. -/
structure Linkage where
  ksyms : Name → Option Address
  limit : Nat
  init : Address

def resolveSymbol (linkage : Linkage) (grants : Grants) (t : Tables) (mem : Memory) (i : Nat) :
    Option Memory :=
  let sym := symAt mem (symbolAt t.symbols i)
  if sym.bind = 0 ∨ sym.type ≠ 0 then some mem
  else
    match linkage.ksyms (nameAt mem (t.symstr + sym.name) linkage.limit) with
    | none => none
    | some addr =>
        if grants.dep i then some (setWord mem (symbolAt t.symbols i + 4) addr) else none

def resolve (linkage : Linkage) (grants : Grants) (t : Tables) (mem : Memory) : Option Memory :=
  (List.range t.symbolCnt).foldlM (resolveSymbol linkage grants t) mem

def zeroSection (sections : Address) (i : Nat) (mem : Memory) : Memory :=
  let s := shdrAt mem (sectionAt sections i)
  if s.alloc ∧ s.type = shtNobits then fill mem s.addr 0 s.size.toNat else mem

def zeroBss (hdr : Address) (t : Tables) (mem : Memory) : Memory :=
  eachSection hdr (zeroSection t.sections) mem

def rebaseSymbol (t : Tables) (mem : Memory) (i : Nat) : Memory :=
  let sym := symAt mem (symbolAt t.symbols i)
  if sym.shndx = shnAbs ∨ sym.shndx = shnUndef ∨ sym.type = 0 then mem
  else
    setWord mem (symbolAt t.symbols i + 4)
      (sym.value + (shdrAt mem (sectionAt t.sections sym.shndx)).addr)

def rebase (t : Tables) (mem : Memory) : Memory :=
  (List.range t.symbolCnt).foldl (rebaseSymbol t) mem

def relocateEntry (t : Tables) (rel ptr : Address) (mem : Memory) (n : Nat) : Memory :=
  let entry := relAt mem (entryAt rel n)
  let r := ptr + entry.offset
  let value := (symAt mem (symbolAt t.symbols entry.sym)).value
  if entry.type = 1 then setWord mem r (word mem r + value)
  else if entry.type = 2 then setWord mem r (word mem r + (value - r))
  else mem

def relocateSection (hdr : Address) (t : Tables) (i : Nat) (mem : Memory) : Memory :=
  let s := shdrAt mem (sectionAt t.sections i)
  if s.type ≠ shtRel then mem
  else
    let ptr := (shdrAt mem (sectionAt t.sections s.info.toNat)).addr
    (List.range (s.size.toNat / 8)).foldl (relocateEntry t (hdr + s.offset) ptr) mem

def relocate (hdr : Address) (t : Tables) (mem : Memory) : Memory :=
  eachSection hdr (relocateSection hdr t) mem

/-- `init_module`: the value of the last symbol of that name, if there is one. -/
def initModule (linkage : Linkage) (t : Tables) (mem : Memory) : Address :=
  (List.range t.symbolCnt).foldl (fun init i =>
    let sym := symAt mem (symbolAt t.symbols i)
    if nameAt mem (t.symstr + sym.name) linkage.limit =
      "init_module".toList.map (fun c => BitVec.ofNat 8 c.toNat) then sym.value else init) linkage.init

/-- The tables, after the sections have their addresses; without a symbol table the kernel
panics. -/
def tablesOf (hdr : Address) (mem : Memory) : Option Tables :=
  let sections := hdr + (ehdrAt mem hdr).shoff
  (findSymtab hdr sections mem).map fun (symbols, symbolCnt) =>
    { sections := sections
      symbols := symbols
      symbolCnt := symbolCnt
      symstr := symstrOf hdr sections mem }

/-- The module in memory when `load_module` returns 0. -/
def loadModule (linkage : Linkage) (grants : Grants) (hdr : Address) (mem : Memory) :
    Option Memory :=
  if !grants.tables then none
  else
    let mem := relocateBase hdr hdr mem
    (tablesOf hdr mem).bind fun t =>
      (resolve linkage grants t mem).bind fun mem =>
        let mem := relocate hdr t (rebase t (zeroBss hdr t mem))
        if grants.modinfo ∧ initModule linkage t mem ≠ 0 then some mem else none

/-! ## A small object file -/

def loadedAt (hdr : Address) (bytes : List Nat) : Memory := fun x =>
  BitVec.ofNat 8 (bytes.getD (position hdr x) 0)

/-- Sections `.text` of two words, `.rel.text`, `.bss` of one word at offset `bss`, and the tables.
The first word of `.text` is relocated against `label`, a local symbol with this `st_info` at the
second word; `init_module` is there too. Offset 60 is a hole of four bytes before `.text`. -/
def smallModule (bss info : Nat) : List Nat :=
  [127, 69, 76, 70, 1, 1, 1, 0, 0, 0, 0, 0, 0, 0, 0, 0, 1, 0, 3, 0, 1, 0, 0, 0, 0, 0, 0, 0, 0,
    0, 0, 0, 188, 0, 0, 0, 0, 0, 0, 0, 52, 0, 0, 0, 0, 0, 40, 0, 7, 0, 6, 0, 0, 0, 0, 0, 1, 1,
    0, 0, 0, 0, 0, 0, 0, 0, 0, 0, 195, 144, 144, 144, 0, 0, 0, 0, 0, 0, 0, 0, 0, 0, 0, 0, 0, 0,
    0, 0, 1, 0, 0, 0, 4, 0, 0, 0, 0, 0, 0, 0, info, 0, 1, 0, 7, 0, 0, 0, 4, 0, 0, 0, 4, 0, 0, 0,
    18, 0, 1, 0, 0, 108, 97, 98, 101, 108, 0, 105, 110, 105, 116, 95, 109, 111, 100, 117, 108,
    101, 0, 0, 46, 116, 101, 120, 116, 0, 46, 114, 101, 108, 46, 116, 101, 120, 116, 0, 46, 98,
    115, 115, 0, 46, 115, 121, 109, 116, 97, 98, 0, 46, 115, 116, 114, 116, 97, 98, 0, 46, 115,
    104, 115, 116, 114, 116, 97, 98, 0, 0, 0, 0, 0, 0, 0, 0, 0, 0, 0, 0, 0, 0, 0, 0, 0, 0, 0, 0,
    0, 0, 0, 0, 0, 0, 0, 0, 0, 0, 0, 0, 0, 0, 0, 0, 0, 0, 0, 0, 0, 0, 1, 0, 0, 0, 1, 0, 0, 0, 6,
    0, 0, 0, 0, 0, 0, 0, 64, 0, 0, 0, 8, 0, 0, 0, 0, 0, 0, 0, 0, 0, 0, 0, 4, 0, 0, 0, 0, 0, 0,
    0, 7, 0, 0, 0, 9, 0, 0, 0, 0, 0, 0, 0, 0, 0, 0, 0, 52, 0, 0, 0, 8, 0, 0, 0, 4, 0, 0, 0, 1,
    0, 0, 0, 4, 0, 0, 0, 8, 0, 0, 0, 17, 0, 0, 0, 8, 0, 0, 0, 3, 0, 0, 0, 0, 0, 0, 0, bss, 0, 0,
    0, 4, 0, 0, 0, 0, 0, 0, 0, 0, 0, 0, 0, 4, 0, 0, 0, 0, 0, 0, 0, 22, 0, 0, 0, 2, 0, 0, 0, 0,
    0, 0, 0, 0, 0, 0, 0, 72, 0, 0, 0, 48, 0, 0, 0, 5, 0, 0, 0, 2, 0, 0, 0, 4, 0, 0, 0, 16, 0, 0,
    0, 30, 0, 0, 0, 3, 0, 0, 0, 0, 0, 0, 0, 0, 0, 0, 0, 120, 0, 0, 0, 19, 0, 0, 0, 0, 0, 0, 0,
    0, 0, 0, 0, 1, 0, 0, 0, 0, 0, 0, 0, 38, 0, 0, 0, 3, 0, 0, 0, 0, 0, 0, 0, 0, 0, 0, 0, 139, 0,
    0, 0, 48, 0, 0, 0, 0, 0, 0, 0, 0, 0, 0, 0, 1, 0, 0, 0, 0, 0, 0, 0]

def smallModuleSize : Nat := 468

def smallModuleAt (bss info : Nat) : Memory := loadedAt 0x1000 (smallModule bss info)

end MirOs.ElfModule
