import MirOs.Vmalloc
import Mathlib.Algebra.BigOperators.Group.Finset.Basic

/-!
# Loading and unloading modules

`kernel/elf.c` and `kernel/module.c` as far as symbols are concerned: the hash of
symbols, the symbols a module exports, the dependency entries that hold its
references, and the region the module is copied to. Symbol objects are named by
numbers in the order of their allocation. The relocation of the image is left out;
what slab and page allocator grant and what `init_module` returns is part of the
event.
-/

namespace MirOs.ModuleLoad

set_option autoImplicit false

open MirOs.MachineWord MirOs.Vmalloc

/-- The bytes of a string before its terminating null. -/
abbrev Name := List (BitVec 8)

def nameOf (text : String) : Name := text.toList.map fun c => BitVec.ofNat 8 c.toNat

def modMax : Nat := 0x7f
def hashTableSize : Nat := 101

def symbolHashFn (name : Name) : Nat :=
  name.foldl (fun hash byte => ulong (hash + 31 * byte.toNat)) 0 % hashTableSize

/-- `struct ksyms`; `table` is the module whose symbol table it belongs to. -/
structure Ksyms (M : Type*) where
  name : Name
  used : Nat
  table : Option M

inductive Bind where
  | local_
  | global
  | weak
  deriving DecidableEq, Repr

/-- The fields of `Elf32_Sym` the loader branches on. -/
structure ElfSym where
  name : Name
  bind : Bind
  notype : Bool
  undef : Bool

/-- What GRUB left in memory: `modinfo` tells which strings of `.modinfo` are there. -/
structure ModImage where
  addr : Nat
  size : BitVec 32
  symbols : List ElfSym
  modinfo : Option (Bool × Bool)
  ksymtab : List Name

structure Module where
  status : Bool
  loadAddress : Nat
  symbolTable : Option (List Nat)
  depTable : Option (List Nat)
  initModule : Bool

structure Kernel (M : Type*) where
  ksyms : Nat → Option (Ksyms M)
  nextKsym : Nat
  hash : Nat → List Nat
  modules : M → Module
  regions : List Region

/-- What the allocators grant to one load, and whether `init_module` succeeds. -/
structure LoadEnv where
  vmallocSlab : Bool
  vmallocTables : Bool
  symbolTable : Bool
  depTable : Bool
  modInfo : Bool
  dep : Nat → Bool
  author : Bool
  version : Bool
  initModule : Bool

variable {M : Type*} [DecidableEq M]

def lookupSymbol (k : Kernel M) (name : Name) : Option Nat :=
  (k.hash (symbolHashFn name)).find? fun id =>
    (k.ksyms id).map Ksyms.name = some (name.take modMax)

/-- `add_sym`; the new symbol goes to the front of its hash chain. -/
def addSym (k : Kernel M) (table : Option M) (name : Name) : Nat × Kernel M :=
  let stored := name.take modMax
  let hash := symbolHashFn stored
  (k.nextKsym,
    { k with
      ksyms := Function.update k.ksyms k.nextKsym
        (some { name := stored, used := 0, table := table })
      nextKsym := k.nextKsym + 1
      hash := Function.update k.hash hash (k.nextKsym :: k.hash hash) })

def searchSymbol (k : Kernel M) (table : List Nat) (name : Name) : Option Nat :=
  table.find? fun id => (k.ksyms id).map Ksyms.name = some name

def setUsed (k : Kernel M) (id : Nat) (change : Nat → Nat) : Kernel M :=
  { k with
    ksyms := Function.update k.ksyms id
      ((k.ksyms id).map fun sym => { sym with used := change sym.used }) }

def setModule (k : Kernel M) (m : M) (module : Module) : Kernel M :=
  { k with modules := Function.update k.modules m module }

/-- The symbols `load_module` looks up in the kernel. -/
def dependencies (image : ModImage) : List Name :=
  (image.symbols.filter fun sym => sym.bind ≠ .local_ && sym.notype).map ElfSym.name

/-- The loop that resolves the dependencies from the `i`-th on. -/
def resolve (dep : Nat → Bool) : List Name → Nat → Kernel M → List Nat →
    Bool × Kernel M × List Nat
  | [], _, k, deps => (true, k, deps)
  | name :: rest, i, k, deps =>
      match lookupSymbol k name with
      | none => (false, k, deps)
      | some id =>
          if dep i then resolve dep rest (i + 1) (setUsed k id (· + 1)) (deps ++ [id])
          else (false, k, deps)

/-- The strings of `.modinfo` could be copied. -/
def infoGranted (image : ModImage) (env : LoadEnv) : Bool :=
  match image.modinfo with
  | none => true
  | some (author, version) => (!author || env.author) && (!version || env.version)

def publishExports (m : M) (k : Kernel M) (names : List Name) : Kernel M × List Nat :=
  names.foldl (fun state name =>
    let added := addSym state.1 (some m) name
    (added.2, state.2 ++ [added.1])) (k, [])

/-- One round of the loop over the symbols of the image; the flag is `init_module`. -/
def publishSymbol (m : M) (state : Kernel M × List Nat × Bool) (sym : ElfSym) :
    Kernel M × List Nat × Bool :=
  if sym.name = nameOf "init_module" then (state.1, state.2.1, true)
  else if sym.name = nameOf "cleanup_module" then state
  else if sym.bind ≠ .global ∨ sym.undef then state
  else if (searchSymbol state.1 state.2.1 sym.name).isNone then state
  else
    let added := addSym state.1 (some m) sym.name
    (added.2, state.2.1 ++ [added.1], state.2.2)

/-- `load_module`: the flag tells success; on failure the tables are freed and what
they hold is left as it is. -/
def loadModule (k : Kernel M) (m : M) (image : ModImage) (env : LoadEnv) : Bool × Kernel M :=
  if !(env.symbolTable && env.depTable && env.modInfo) then (false, k)
  else
    match resolve env.dep (dependencies image) 0 k [] with
    | (false, k, _) => (false, k)
    | (true, k, deps) =>
        if !infoGranted image env then (false, k)
        else
          let exported := publishExports m k image.ksymtab
          let published := image.symbols.foldl (publishSymbol m)
            (exported.1, exported.2, (k.modules m).initModule)
          let k := setModule published.1 m
            { published.1.modules m with initModule := published.2.2 }
          if published.2.2 then
            (true, setModule k m { k.modules m with
              symbolTable := some published.2.1
              depTable := some deps })
          else (false, k)

/-- `remove_syms` and the `slab_free` behind it. -/
def removeSym (k : Kernel M) (id : Nat) : Kernel M :=
  { k with
    ksyms := Function.update k.ksyms id none
    hash := fun b => (k.hash b).erase id }

def releaseModule (k : Kernel M) (m : M) : Kernel M :=
  let module := k.modules m
  let k := (module.depTable.getD []).foldl (fun k id => setUsed k id (· - 1)) k
  let k := (module.symbolTable.getD []).foldl removeSym k
  let k := { k with regions := (vfree k.regions module.loadAddress).2 }
  setModule k m { module with
    status := false
    loadAddress := 0
    symbolTable := none
    depTable := none }

def installModule (k : Kernel M) (m : M) (image : ModImage) (env : LoadEnv) : Int × Kernel M :=
  if image.addr = 0 then (-1, k)
  else
    let granted := vmalloc k.regions image.size.toNat 0 env.vmallocSlab env.vmallocTables
    let k := { k with regions := granted.2 }
    if granted.1 = 0 then (-1, k)
    else
      let k := setModule k m { k.modules m with
        loadAddress := granted.1
        symbolTable := none
        depTable := none }
      let loaded := loadModule k m image env
      if !loaded.1 then (-1, releaseModule loaded.2 m)
      else if !env.initModule then (0, releaseModule loaded.2 m)
      else (0, setModule loaded.2 m { loaded.2.modules m with initModule := false, status := true })

def modInUse (k : Kernel M) (m : M) : Bool :=
  ((k.modules m).symbolTable.getD []).any fun id =>
    ((k.ksyms id).map fun sym => decide (sym.used ≠ 0)).getD false

def deinstallModule (k : Kernel M) (m : M) (image : ModImage) : Int × Kernel M :=
  if image.addr = 0 ∨ (k.modules m).loadAddress = 0 then (-1, k)
  else if modInUse k m then (-1, k)
  else (0, releaseModule k m)

/-- `insmod` and `rmmod` behind the search for the module. -/
inductive ModuleEvent (M : Type*) where
  | insmod (m : M) (env : LoadEnv)
  | rmmod (m : M)

def moduleStep (images : M → ModImage) (k : Kernel M) : ModuleEvent M → Option (Kernel M)
  | .insmod m env =>
      some (if (k.modules m).status then k else (installModule k m (images m) env).2)
  | .rmmod m => some (if (k.modules m).status then (deinstallModule k m (images m)).2 else k)

/-- No module loaded, no symbol known. -/
def unbooted : Kernel M where
  ksyms := fun _ => none
  nextKsym := 0
  hash := fun _ => []
  modules := fun _ =>
    { status := false, loadAddress := 0, symbolTable := none, depTable := none,
      initModule := false }
  regions := []

/-- `get_ksyms` on the names of the kernel's own symbols. -/
def getKsyms (names : List Name) : Kernel M :=
  names.foldl (fun k name => (addSym k none name).2) unbooted

end MirOs.ModuleLoad
