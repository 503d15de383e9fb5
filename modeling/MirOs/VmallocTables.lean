import MirOs.Vmalloc
import MirOs.PageBlocks
import MirOs.PageWalk
import Mathlib.Logic.Function.Basic

/-!
# The page tables behind vmalloc

`vmalloc` and `vfree` with the page tables they set up and tear down, the cache of pages
that `pte_free` fills, and the page allocator below. A page table is a value of its directory
slot: its page comes from the allocator and is used for nothing else. Nothing frees a page
table, so the cache for them is always empty and left out.
-/

namespace MirOs.VmallocTables

open MirOs.MachineWord MirOs.PageAllocModel MirOs.PageBlocks MirOs.Vmalloc MirOs.PageWalk

set_option autoImplicit false

structure PageTable where
  page : Nat
  entries : Nat → Nat

structure VmState where
  pages : PageState
  pteCache : List Nat
  initPgdir : Nat → Option PageTable
  regions : List Region

/-- `__PAGE_USER` and `PTE_CACHE_MAX`. -/
def pageUser : Nat := 0x67
def pteCacheMax : Nat := 0x100

/-- The page table entry of a virtual page. -/
def VmState.entry (s : VmState) (page : Nat) : Nat :=
  match s.initPgdir (page / 1024) with
  | none => 0
  | some table => table.entries (page % 1024)

/-- The address in an entry: `get_pte(pte) & PAGE_MASK`. -/
def frame (value : Nat) : Nat := value / 4096 * 4096

def PageTable.set (table : PageTable) (index value : Nat) : PageTable :=
  { table with entries := Function.update table.entries index value }

def VmState.setEntry (s : VmState) (slot index value : Nat) : VmState :=
  { s with initPgdir :=
      Function.update s.initPgdir slot ((s.initPgdir slot).map fun table => table.set index value) }

def VmState.setTable (s : VmState) (slot : Nat) (table : PageTable) : VmState :=
  { s with initPgdir := Function.update s.initPgdir slot (some table) }

def getFreePage (s : VmState) : Nat × VmState :=
  let result := getFreePages s.pages.mem 0
  let live := granted s.pages.live result.1 (orderSize 0)
  (result.1, { s with pages := { mem := result.2, live := live } })

/-- `pte_alloc_page`: the cache is a stack. -/
def pteAllocPage (s : VmState) : Nat × VmState :=
  match s.pteCache with
  | page :: rest => (page, { s with pteCache := rest })
  | [] => getFreePage s

def pteFreeCache (s : VmState) (page : Nat) : VmState :=
  if s.pteCache.length < pteCacheMax then { s with pteCache := page :: s.pteCache }
  else
    let result := freePages s.pages.mem page 0
    { s with pages := released s.pages ⟨page, orderSize 0⟩ result }

def pteFree (slot index : Nat) (s : VmState) : VmState :=
  let value := s.entry (slot * 1024 + index)
  if value = 0 then s else (pteFreeCache s (frame value)).setEntry slot index 0

/-- `pte_alloc`; the middle level is the directory entry itself. -/
def pteAlloc (slot : Nat) (s : VmState) : Int × VmState :=
  match s.initPgdir slot with
  | some _ => (0, s)
  | none =>
      let page := getFreePage s
      if page.1 = 0 then (-1, page.2) else (0, page.2.setTable slot ⟨page.1, fun _ => 0⟩)

/-- The body of the loop of `setup_pte`. -/
def setupEntry (slot index : Nat) (s : VmState) : Int × VmState :=
  let page := pteAllocPage s
  if page.1 = 0 then (-1, page.2)
  else (0, (pteFree slot index page.2).setEntry slot index (page.1 ||| pageUser))

/-- The body of the loop of `free_pte`. -/
def freeEntry (slot index : Nat) (s : VmState) : Int × VmState := (0, pteFree slot index s)

def pgdNone (slot : Nat) (s : VmState) : Bool := (s.initPgdir slot).isNone

/-- The test of `free_pmd`. -/
def pmdPresent (slot : Nat) (s : VmState) : Int × VmState :=
  (if (s.initPgdir slot).isNone then -1 else 0, s)

def setupPte := walkPte setupEntry
def setupPmd := walkPmd pteAlloc setupEntry
def setupPgd := walkPgd (fun _ _ => false) pteAlloc setupEntry

def freePte := walkPte freeEntry
def freePmd := walkPmd pmdPresent freeEntry
def freePgd := walkPgd pgdNone pmdPresent freeEntry

/-- `slab` tells whether the slab allocator has a `vmalloc_struct`; no result is a walk that
does not end. -/
def vmallocPages (s : VmState) (size : Nat) (flags : Int) (slab : Bool) : Option (Nat × VmState) :=
  if size = 0 then some (0, s)
  else
    match getVmallocAddr s.regions (pageAlign size) flags slab with
    | none => some (0, s)
    | some (ptr, linked) =>
        (setupPgd ptr.addr (pageAlign size) { s with regions := linked }).bind fun (err, s) =>
          if err < 0 then
            (freePgd ptr.addr (pageAlign size) s).map fun (_, s) =>
              (0, { s with regions := (searchVmalloc s.regions ptr.addr).2 })
          else some (ptr.addr, s)

def vfreePages (s : VmState) (addr : Nat) : Option (Nat × VmState) :=
  if addr = 0 then some (0, s)
  else
    match searchVmalloc s.regions addr with
    | (none, _) => some (0, s)
    | (some ptr, rest) =>
        (freePgd ptr.addr (ulong (ptr.size + 2 ^ 32 - pageSize)) { s with regions := rest }).map
          fun (_, s) => (ptr.addr, s)

end MirOs.VmallocTables
