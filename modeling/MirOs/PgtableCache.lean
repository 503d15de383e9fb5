import MirOs.ByteMemory
import MirOs.RamPages
import MirOs.VmallocFrames

/-!
# The cache of page table pages

`pgtable_alloc_cache` and `pgtable_free_cache` keep free pages in a chain that goes through the first
words of the pages. The pages come from the page allocator, which other clients use as well.
-/

namespace MirOs.PgtableCache

set_option autoImplicit false

open MirOs.PageAllocModel MirOs.PageAllocEffect MirOs.PageBlocks MirOs.BootMemory
open MirOs.ByteMemory MirOs.Reachability
open MirOs.PageAccounting (prefix_alloc)
open MirOs.MachineWord (ulong)
open MirOs.VmallocTables (idle_unmerged unmerged_alloc unmerged_page granted_kept granted_new
  page_contains order_size_page released_live VmState pteAllocPage pteFreeCache pteCacheMax)

/-- One cache, the pages its callers hold, and the blocks of the other clients. A null pointer
is 0. -/
structure CacheState where
  pages : PageState
  memory : Memory
  cache : Address
  cacheSize : BitVec 32
  held : List Address
  others : List Block

def pageBlock (page : Address) : Block := ⟨page.toNat, orderSize 0⟩

def getFreePage (s : CacheState) : Address × CacheState :=
  let result := getFreePages s.pages.mem 0
  let area := BitVec.ofNat 32 result.1
  (area, { s with
    pages := { mem := result.2, live := granted s.pages.live result.1 (orderSize 0) }
    memory := if result.1 = 0 then s.memory else fill s.memory area 0 pageSize })

def pgtableAllocCache (s : CacheState) : Address × CacheState :=
  if s.cache ≠ 0 then
    let page := s.cache
    let cacheSize := s.cacheSize - 1
    -- the counter is unsigned
    let cacheSize := if cacheSize < 0 then 0 else cacheSize
    (page, { s with
      cacheSize := cacheSize, cache := word s.memory page, memory := setWord s.memory page 0 })
  else getFreePage s

def pgtableFreeCache (limit : BitVec 32) (s : CacheState) (page : Address) : Int × CacheState :=
  if s.cacheSize < limit then
    (0, { s with
      cacheSize := s.cacheSize + 1, memory := setWord s.memory page s.cache, cache := page })
  else
    (0, { s with
      pages := released s.pages (pageBlock page) (freePages s.pages.mem page.toNat 0) })

/-! ## Runs -/

/-- Calls on the cache, stores of a byte, and whole pages taken and given back by others. -/
inductive CacheEvent where
  | alloc
  | free (page : Address)
  | write (addr : Address) (value : BitVec 8)
  | getFreePages (order : Int)
  | freePages (block : Block) (order : Int)

/-- After a call of `pgtable_alloc_cache` the caller holds the page. -/
def afterAlloc (s : CacheState) : CacheState :=
  { (pgtableAllocCache s).2 with
    held := if (pgtableAllocCache s).1 = 0 then s.held else (pgtableAllocCache s).1 :: s.held }

def afterFree (limit : BitVec 32) (s : CacheState) (page : Address) : CacheState :=
  { (pgtableFreeCache limit s page).2 with held := s.held.erase page }

def cacheStep (limit : BitVec 32) (s : CacheState) : CacheEvent → Option CacheState
  | .alloc => some (afterAlloc s)
  | .free page => some (afterFree limit s page)
  | .write addr value => some { s with memory := Function.update s.memory addr value }
  | .getFreePages order =>
      let result := getFreePages s.pages.mem order
      some { s with
        pages := { mem := result.2, live := granted s.pages.live result.1 (orderSize order) }
        others := granted s.others result.1 (orderSize order) }
  | .freePages block order =>
      (pageStep s.pages (.freePages block order)).map fun pages =>
        { s with pages := pages, others := s.others.filter fun b => decide (b ≠ block) }

/-- Pages and blocks are freed by their holders, and nobody stores into a block that it does not
hold. -/
def Permitted (s : CacheState) : CacheEvent → Prop
  | .free page => page ∈ s.held
  | .write addr _ => ∀ block ∈ s.pages.live, block.Contains addr.toNat →
      block ∈ s.others ∨ ∃ page ∈ s.held, block = pageBlock page
  | .freePages block _ => block ∈ s.others
  | _ => True

/-- After `init_mm` no page is in the cache, and the page tables are held by the kernel. -/
structure Booted (s : CacheState) : Prop where
  pages : ∃ ram bios, initMm ram bios = some s.pages
  cache : s.cache = 0
  cacheSize : s.cacheSize = 0
  held : s.held = []
  others : s.others = s.pages.live

/-! ## Chains through memory -/

/-- The pages from a pointer on, each with the address of the next one in its first word. -/
def Linked (memory : Memory) : Address → List Address → Prop
  | head, [] => head = 0
  | head, page :: rest => head = page ∧ page ≠ 0 ∧ Linked memory (word memory page) rest

theorem linked_congr {memory other : Memory} {head : Address} {chain : List Address}
    (same : ∀ page ∈ chain, word other page = word memory page)
    (linked : Linked memory head chain) : Linked other head chain := by
  induction chain generalizing head with
  | nil => exact linked
  | cons page rest ih =>
      obtain ⟨first, nonnull, later⟩ := linked
      refine ⟨first, nonnull, ?_⟩
      rw [same page List.mem_cons_self]
      exact ih (fun next member => same next (List.mem_cons_of_mem _ member)) later

theorem linked_null {memory : Memory} {chain : List Address} (linked : Linked memory 0 chain) :
    chain = [] := by
  cases chain with
  | nil => rfl
  | cons page rest => exact absurd linked.1.symm linked.2.1

theorem linked_cons {memory : Memory} {head : Address} {chain : List Address}
    (linked : Linked memory head chain) (nonnull : head ≠ 0) :
    ∃ rest, chain = head :: rest ∧ Linked memory (word memory head) rest := by
  cases chain with
  | nil => exact absurd linked nonnull
  | cons page rest =>
      obtain ⟨rfl, _, later⟩ := linked
      exact ⟨rest, rfl, later⟩

theorem first_word_bytes {page x : Address} (aligned : page.toNat % 4096 = 0)
    (inside : InRange page 4 x) : page.toNat ≤ x.toNat ∧ x.toNat < page.toNat + 4 := by
  unfold InRange at inside
  bv_omega

/-- A store into the first word of another page. -/
theorem word_set_other {memory : Memory} {page other : Address} (value : BitVec 32)
    (aligned : page.toNat % 4096 = 0) (otherAligned : other.toNat % 4096 = 0)
    (apart : other ≠ page) : word (setWord memory page value) other = word memory other := by
  apply word_congr
  intro x inside
  apply set_word_other
  intro here
  have bounds := first_word_bytes otherAligned inside
  have within := first_word_bytes aligned here
  apply apart
  apply BitVec.eq_of_toNat_eq
  omega

theorem word_fill_zero {memory : Memory} {page : Address} {size : Nat} (long : 4 ≤ size) :
    word (fill memory page 0 size) page = 0 := by
  have bytes : (0 : BitVec 8) ++ (0 : BitVec 8) ++ (0 : BitVec 8) ++ (0 : BitVec 8) =
      (0 : BitVec 32) := by decide
  have zero : word (fun _ => 0) page = 0 := bytes
  rw [← zero]
  apply word_congr
  intro x inside
  exact if_pos (Nat.lt_of_lt_of_le inside long)

/-! ## Whole pages -/

theorem order_size_whole (order : Int) : orderSize order % pageSize = 0 := by
  unfold orderSize ulong
  rw [Nat.mod_mod_of_dvd _ (by unfold pageSize; decide), Nat.mul_mod_left]

/-- A request for whole pages without a merge position leaves none. -/
theorem get_free_pages_idle {mem : MemAlloc} (idle : mem.lastOffset = 0) (order : Int) :
    (getFreePages mem order).2.lastOffset = 0 := by
  have unmerged : ∀ start ∈ contiguousScan mem (pagesUp (orderSize order)),
      merges mem 0 start = false := fun start _ => merges_idle idle 0 start
  unfold getFreePages
  rcases unmerged_alloc unmerged (order_size_whole order) with refused | ⟨whole, _⟩
  · rw [refused]
    exact idle
  · exact whole

theorem free_pages_idle {state : PageState} {addr : Nat} {order : Int} (inv : BlockInv state)
    (idle : state.mem.lastOffset = 0) (bound : addr < 2 ^ 32) :
    (freePages state.mem addr order).2.lastOffset = 0 := by
  unfold freePages
  split
  · exact idle
  · next valid =>
    rcases free_effect state.mem inv.placed.base addr (orderSize order) bound (order_size_lt order)
      (by omega) with ⟨_, same⟩ | ⟨_, _, _, offset, _⟩
    · rw [same]
      exact idle
    · exact offset

/-! ## The invariant -/

/-- A page that belongs to the cache or to one of its callers. -/
structure OwnPage (s : CacheState) (page : Address) : Prop where
  aligned : page.toNat % 4096 = 0
  live : pageBlock page ∈ s.pages.live
  own : pageBlock page ∉ s.others

structure CacheInv (limit : BitVec 32) (s : CacheState) (chain : List Address) : Prop where
  blocks : BlockInv s.pages
  idle : s.pages.mem.lastOffset = 0
  linked : Linked s.memory s.cache chain
  distinct : (chain ++ s.held).Nodup
  page : ∀ page ∈ chain ++ s.held, OwnPage s page
  known : ∀ block ∈ s.others, block ∈ s.pages.live
  sized : chain.length = s.cacheSize.toNat
  bound : chain.length ≤ limit.toNat

theorem booted_inv (limit : BitVec 32) {s : CacheState} (booted : Booted s) : CacheInv limit s [] := by
  obtain ⟨ram, bios, ready⟩ := booted.pages
  refine ⟨init_mm_inv ready, (init_mm_bits ready).idle, booted.cache, ?_, ?_, ?_, ?_, Nat.zero_le _⟩
  · rw [booted.held]
    exact List.nodup_nil
  · rw [booted.held]
    exact List.forall_mem_nil _
  · rw [booted.others]
    exact fun _ member => member
  · rw [booted.cacheSize]
    rfl

theorem page_block_inj {page other : Address} (same : pageBlock page = pageBlock other) :
    page = other :=
  BitVec.eq_of_toNat_eq (congrArg Block.addr same)

theorem own_page_ne_zero {s : CacheState} {page : Address} (blocks : BlockInv s.pages)
    (owned : OwnPage s page) : page ≠ 0 := by
  intro null
  subst null
  exact blocks.null _ owned.live rfl

section Steps

variable {limit : BitVec 32} {s : CacheState} {chain : List Address}

/-- The first page of the chain goes to the caller. -/
theorem pop_inv (inv : CacheInv limit s chain) (filled : s.cache ≠ 0) :
    ∃ rest, chain = s.cache :: rest ∧ CacheInv limit (afterAlloc s) rest := by
  obtain ⟨rest, rfl, later⟩ := linked_cons inv.linked filled
  have moved : (s.cache :: (rest ++ s.held)).Perm (rest ++ s.cache :: s.held) :=
    List.perm_middle.symm
  have distinct := inv.distinct
  have fresh : s.cache ∉ rest ++ s.held := (List.nodup_cons.mp distinct).1
  have first := inv.page s.cache List.mem_cons_self
  have sized := inv.sized
  rw [List.length_cons] at sized
  have counter : (if s.cacheSize - 1 < 0 then 0 else s.cacheSize - 1).toNat = rest.length := by
    rw [if_neg (by bv_omega)]
    bv_omega
  unfold afterAlloc pgtableAllocCache
  rw [if_pos filled]
  dsimp only
  rw [if_neg filled]
  refine ⟨rest, rfl, inv.blocks, inv.idle, ?_, moved.nodup_iff.mp distinct, ?_, inv.known,
    counter.symm, Nat.le_of_succ_le inv.bound⟩
  · refine linked_congr ?_ later
    intro page member
    have other := inv.page page (List.mem_cons_of_mem _ (List.mem_append_left _ member))
    refine word_set_other 0 first.aligned other.aligned ?_
    rintro rfl
    exact fresh (List.mem_append_left _ member)
  · intro page member
    obtain ⟨aligned, live, own⟩ := inv.page page (moved.mem_iff.mpr member)
    exact ⟨aligned, live, own⟩

/-- A page that is taken anew is no page of the cache, of a caller or of another client. -/
theorem new_block_apart (inv : CacheInv limit s chain) (order : Int)
    (nonnull : (getFreePages s.pages.mem order).1 ≠ 0) {block : Block}
    (member : block ∈ s.pages.live) :
    (Block.mk (getFreePages s.pages.mem order).1 (orderSize order)).Apart block := by
  have effect := alloc_effect inv.blocks.placed (order_size_lt order)
    (idle_in_range inv.idle (orderSize order) 0)
  exact fun byte inside => (new_block_unused inv.blocks effect nonnull inside).2 block member

theorem get_blocks_inv (inv : CacheInv limit s chain) (order : Int) :
    BlockInv
      { mem := (getFreePages s.pages.mem order).2
        live := granted s.pages.live (getFreePages s.pages.mem order).1 (orderSize order) } :=
  @page_step_inv s.pages _ (.getFreePages order) inv.blocks (idle_in_range inv.idle _ _) rfl

theorem get_address (inv : CacheInv limit s chain) (order : Int) :
    (BitVec.ofNat 32 (getFreePages s.pages.mem order).1).toNat =
      (getFreePages s.pages.mem order).1 := by
  have blocks := get_blocks_inv inv order
  rw [BitVec.toNat_ofNat]
  by_cases null : (getFreePages s.pages.mem order).1 = 0
  · rw [null]
  · exact Nat.mod_eq_of_lt (blocks.bound _ (granted_new null _ _)).1

/-- The page of a request is the block that the allocator gives out, and it was in no hands. -/
theorem fresh_page (inv : CacheInv limit s chain) (nonnull : (getFreePages s.pages.mem 0).1 ≠ 0) :
    pageBlock (BitVec.ofNat 32 (getFreePages s.pages.mem 0).1) =
        ⟨(getFreePages s.pages.mem 0).1, orderSize 0⟩ ∧
      pageBlock (BitVec.ofNat 32 (getFreePages s.pages.mem 0).1) ∉ s.pages.live := by
  have block : pageBlock (BitVec.ofNat 32 (getFreePages s.pages.mem 0).1) =
      ⟨(getFreePages s.pages.mem 0).1, orderSize 0⟩ := by
    unfold pageBlock
    rw [get_address inv 0]
  refine ⟨block, fun live => ?_⟩
  rw [block] at live
  exact new_block_apart inv 0 nonnull live _ page_contains page_contains

/-- The cache is empty, and a page of the allocator goes to the caller. -/
theorem fetch_inv (inv : CacheInv limit s chain) (empty : s.cache = 0) :
    chain = [] ∧ CacheInv limit (afterAlloc s) [] := by
  have none : chain = [] := linked_null (empty ▸ inv.linked)
  subst none
  refine ⟨rfl, ?_⟩
  obtain ⟨blocks, _, aligned, _⟩ := unmerged_page inv.blocks (idle_unmerged inv.idle)
  have idle := get_free_pages_idle inv.idle 0
  have fresh := fresh_page inv
  have address := get_address inv 0
  unfold afterAlloc pgtableAllocCache
  rw [if_neg (not_not.mpr empty)]
  unfold getFreePage
  dsimp only at blocks aligned ⊢
  generalize getFreePages s.pages.mem 0 = result at *
  refine ⟨blocks, idle, empty, ?_, ?_, fun block member => granted_kept (inv.known block member) _,
    inv.sized, Nat.zero_le _⟩
  · dsimp only
    rw [List.nil_append]
    split
    · exact inv.distinct
    · next taken =>
      have nonnull : result.1 ≠ 0 := fun null => taken (congrArg (BitVec.ofNat 32) null)
      exact List.nodup_cons.mpr
        ⟨fun member => (fresh nonnull).2 (inv.page _ member).live, inv.distinct⟩
  · have kept : ∀ page ∈ s.held, OwnPage
        { s with pages := { mem := result.2, live := granted s.pages.live result.1 (orderSize 0) } }
        page := by
      intro page member
      obtain ⟨whole, live, own⟩ := inv.page page member
      exact ⟨whole, granted_kept live _, own⟩
    dsimp only
    rw [List.nil_append]
    intro page member
    split at member
    · exact ⟨(kept page member).aligned, (kept page member).live, (kept page member).own⟩
    · next taken =>
      have nonnull : result.1 ≠ 0 := fun null => taken (congrArg (BitVec.ofNat 32) null)
      obtain ⟨block, unused⟩ := fresh nonnull
      rcases List.mem_cons.mp member with rfl | older
      · refine ⟨?_, ?_, fun other => unused (inv.known _ other)⟩
        · rw [address]
          exact aligned
        · rw [block]
          exact granted_new nonnull _ _
      · exact ⟨(kept page older).aligned, (kept page older).live, (kept page older).own⟩

/-- A held page beside the chain and the other held pages. -/
theorem held_split (inv : CacheInv limit s chain) {page : Address} (member : page ∈ s.held) :
    (page :: (chain ++ s.held.erase page)).Nodup ∧
      ∀ other ∈ chain ++ s.held.erase page, OwnPage s other ∧ other ≠ page := by
  have moved : (chain ++ s.held).Perm (page :: (chain ++ s.held.erase page)) :=
    ((List.perm_cons_erase member).append_left chain).trans List.perm_middle
  have distinct := moved.nodup_iff.mp inv.distinct
  refine ⟨distinct, fun other inside => ⟨?_, ?_⟩⟩
  · exact inv.page other (moved.mem_iff.mpr (List.mem_cons_of_mem _ inside))
  · rintro rfl
    exact (List.nodup_cons.mp distinct).1 inside

/-- A page goes back to the front of the chain. -/
theorem push_inv (inv : CacheInv limit s chain) {page : Address} (member : page ∈ s.held)
    (room : s.cacheSize < limit) :
    CacheInv limit (afterFree limit s page) (page :: chain) := by
  obtain ⟨distinct, others⟩ := held_split inv member
  have returned := inv.page page (List.mem_append_right _ member)
  have sized := inv.sized
  unfold afterFree pgtableFreeCache
  rw [if_pos room]
  refine ⟨inv.blocks, inv.idle, ⟨rfl, own_page_ne_zero inv.blocks returned, ?_⟩, distinct, ?_,
    inv.known, ?_, ?_⟩
  · dsimp only
    rw [word_set_self]
    refine linked_congr ?_ inv.linked
    intro other inside
    obtain ⟨owned, apart⟩ := others other (List.mem_append_left _ inside)
    exact word_set_other _ returned.aligned owned.aligned apart
  · intro other inside
    rcases List.mem_cons.mp inside with rfl | older
    · exact ⟨returned.aligned, returned.live, returned.own⟩
    · obtain ⟨⟨aligned, live, own⟩, _⟩ := others other older
      exact ⟨aligned, live, own⟩
  · rw [List.length_cons]
    bv_omega
  · rw [List.length_cons]
    bv_omega

/-- The cache is full, and the page goes back to the allocator. -/
theorem give_back_inv (inv : CacheInv limit s chain) {page : Address} (member : page ∈ s.held)
    (full : ¬ s.cacheSize < limit) :
    CacheInv limit (afterFree limit s page) chain := by
  obtain ⟨distinct, others⟩ := held_split inv member
  have returned := inv.page page (List.mem_append_right _ member)
  have freeable : (pageBlock page).freeable s.pages.live = true := by
    unfold Block.freeable
    rw [Bool.and_eq_true, Bool.and_eq_true, decide_eq_true_eq, decide_eq_true_eq,
      decide_eq_true_eq]
    refine ⟨⟨returned.live, ?_⟩, order_size_whole 0⟩
    rw [page_size_eq]
    exact returned.aligned
  unfold afterFree pgtableFreeCache
  rw [if_neg full]
  refine ⟨free_pages_keeps inv.blocks freeable rfl,
    free_pages_idle inv.blocks inv.idle page.isLt, inv.linked, (List.nodup_cons.mp distinct).2, ?_, ?_,
    inv.sized, inv.bound⟩
  · intro other inside
    obtain ⟨⟨aligned, live, own⟩, apart⟩ := others other inside
    have different : pageBlock page ≠ pageBlock other :=
      fun same => apart (page_block_inj same).symm
    exact ⟨aligned, released_live live different, own⟩
  · intro block known
    have different : pageBlock page ≠ block := by
      rintro rfl
      exact returned.own known
    exact released_live (inv.known block known) different

theorem write_inv (inv : CacheInv limit s chain) {addr : Address} {value : BitVec 8}
    (permitted : Permitted s (.write addr value)) :
    CacheInv limit { s with memory := Function.update s.memory addr value } chain := by
  refine ⟨inv.blocks, inv.idle, ?_, inv.distinct, ?_, inv.known, inv.sized, inv.bound⟩
  · refine linked_congr ?_ inv.linked
    intro page member
    have owned := inv.page page (List.mem_append_left _ member)
    apply word_congr
    intro x inside
    apply Function.update_of_ne
    rintro rfl
    have bounds := first_word_bytes owned.aligned inside
    have contains : (pageBlock page).Contains x.toNat := by
      unfold pageBlock Block.Contains
      dsimp only
      rw [order_size_page]
      omega
    rcases permitted _ owned.live contains with other | ⟨holder, held, same⟩
    · exact owned.own other
    · rw [← page_block_inj same] at held
      exact List.disjoint_of_nodup_append inv.distinct member held
  · intro page member
    obtain ⟨aligned, live, own⟩ := inv.page page member
    exact ⟨aligned, live, own⟩

theorem others_get_inv (inv : CacheInv limit s chain) (order : Int) {t : CacheState}
    (stepped : cacheStep limit s (.getFreePages order) = some t) : CacheInv limit t chain := by
  have blocks := get_blocks_inv inv order
  have idle := get_free_pages_idle inv.idle order
  have apart := new_block_apart inv order
  unfold cacheStep at stepped
  dsimp only at stepped
  generalize getFreePages s.pages.mem order = result at *
  cases stepped
  refine ⟨blocks, idle, inv.linked, inv.distinct, ?_, ?_, inv.sized, inv.bound⟩
  · intro page member
    obtain ⟨aligned, live, own⟩ := inv.page page member
    refine ⟨aligned, granted_kept live _, fun taken => ?_⟩
    rcases mem_granted taken with older | ⟨nonnull, same⟩
    · exact own older
    · have new := apart nonnull live
      rw [← same] at new
      exact new _ page_contains page_contains
  · intro block member
    rcases mem_granted member with older | ⟨nonnull, rfl⟩
    · exact granted_kept (inv.known block older) _
    · exact granted_new nonnull _ _

theorem others_free_inv (inv : CacheInv limit s chain) {block : Block} {order : Int}
    (member : block ∈ s.others) {t : CacheState}
    (stepped : cacheStep limit s (.freePages block order) = some t) : CacheInv limit t chain := by
  unfold cacheStep at stepped
  rw [Option.map_eq_some_iff] at stepped
  obtain ⟨pages, freed, rfl⟩ := stepped
  have blocks := @page_step_inv s.pages _ (.freePages block order) inv.blocks trivial freed
  unfold pageStep at freed
  dsimp only at freed
  split at freed
  · have bound := (inv.blocks.bound block (inv.known block member)).1
    cases freed
    refine ⟨blocks, free_pages_idle inv.blocks inv.idle bound, inv.linked, inv.distinct, ?_, ?_,
      inv.sized, inv.bound⟩
    · intro page inside
      obtain ⟨aligned, live, own⟩ := inv.page page inside
      have different : block ≠ pageBlock page := by
        rintro rfl
        exact own member
      exact ⟨aligned, released_live live different, fun left => own (List.mem_of_mem_filter left)⟩
    · intro other left
      obtain ⟨known, different⟩ := List.mem_filter.mp left
      exact released_live (inv.known other known) (Ne.symm (of_decide_eq_true different))
  · cases freed

end Steps

theorem cache_step_inv (limit : BitVec 32) (s : CacheState) (event : CacheEvent) (t : CacheState)
    (inv : ∃ chain, CacheInv limit s chain) (permitted : Permitted s event)
    (stepped : cacheStep limit s event = some t) : ∃ chain, CacheInv limit t chain := by
  obtain ⟨chain, inv⟩ := inv
  cases event with
  | alloc =>
      cases stepped
      by_cases empty : s.cache = 0
      · exact ⟨[], (fetch_inv inv empty).2⟩
      · obtain ⟨rest, _, popped⟩ := pop_inv inv empty
        exact ⟨rest, popped⟩
  | free page =>
      cases stepped
      by_cases room : s.cacheSize < limit
      · exact ⟨page :: chain, push_inv inv permitted room⟩
      · exact ⟨chain, give_back_inv inv permitted room⟩
  | write addr value =>
      cases stepped
      exact ⟨chain, write_inv inv permitted⟩
  | getFreePages order => exact ⟨chain, others_get_inv inv order stepped⟩
  | freePages block order => exact ⟨chain, others_free_inv inv permitted stepped⟩

/-! ## Every run -/

/-- A chain of the cache: its pages differ, are as many as the counter says, at most the limit,
held by no caller, and used in the bitmap. -/
structure SoundChain (limit : BitVec 32) (s : CacheState) (chain : List Address) : Prop where
  linked : Linked s.memory s.cache chain
  distinct : chain.Nodup
  sized : chain.length = s.cacheSize.toNat
  bound : chain.length ≤ limit.toNat
  cached : ∀ page ∈ chain, page ∉ s.held
  used : ∀ page ∈ chain, page.toNat % 4096 = 0 ∧ s.pages.mem.bitmap (pageOf page.toNat) = true

structure CacheSound (limit : BitVec 32) (s : CacheState) : Prop where
  chain : ∃ chain, SoundChain limit s chain
  popped : s.cache ≠ 0 → (pgtableAllocCache s).1 = s.cache
  cleared : (pgtableAllocCache s).1 ≠ 0 →
    word (pgtableAllocCache s).2.memory (pgtableAllocCache s).1 = 0

theorem page_cleared (s : CacheState) (nonnull : (pgtableAllocCache s).1 ≠ 0) :
    word (pgtableAllocCache s).2.memory (pgtableAllocCache s).1 = 0 := by
  unfold pgtableAllocCache at nonnull ⊢
  split
  · exact word_set_self
  · next empty =>
    rw [if_neg empty] at nonnull
    unfold getFreePage at nonnull ⊢
    dsimp only at nonnull ⊢
    rw [if_neg fun null => nonnull (congrArg (BitVec.ofNat 32) null)]
    exact word_fill_zero (by unfold pageSize; decide)

theorem cache_sound {limit : BitVec 32} {start s : CacheState} (booted : Booted start)
    (run : Reaches (cacheStep limit) Permitted start s) : CacheSound limit s := by
  obtain ⟨chain, inv⟩ := @reaches_invariant _ _ (cacheStep limit) Permitted
    (fun s => ∃ chain, CacheInv limit s chain) start s ⟨[], booted_inv limit booted⟩
    (cache_step_inv limit) run
  refine ⟨⟨chain, inv.linked, inv.distinct.of_append_left, inv.sized, inv.bound, ?_, ?_⟩, ?_,
    page_cleared s⟩
  · intro page member held
    exact List.disjoint_of_nodup_append inv.distinct member held
  · intro page member
    have owned := inv.page page (List.mem_append_left _ member)
    exact ⟨owned.aligned, inv.blocks.safe.marked _ owned.live _ page_contains⟩
  · intro filled
    unfold pgtableAllocCache
    rw [if_pos filled]

/-! ## The list that stands for the chain -/

/-- The `pteCache` of the page table model is the chain. -/
structure Tracks (s : CacheState) (v : VmState) (chain : List Address) : Prop where
  pages : v.pages = s.pages
  cache : v.pteCache = chain.map BitVec.toNat

section Tracking

variable {limit : BitVec 32} {s : CacheState} {v : VmState} {chain : List Address}

theorem alloc_cache_tracks (inv : CacheInv limit s chain) (tracks : Tracks s v chain) :
    (pteAllocPage v).1 = (pgtableAllocCache s).1.toNat ∧
      ∃ rest, CacheInv limit (afterAlloc s) rest ∧ Tracks (afterAlloc s) (pteAllocPage v).2 rest := by
  unfold pteAllocPage
  rw [tracks.cache]
  by_cases empty : s.cache = 0
  · obtain ⟨rfl, fetched⟩ := fetch_inv inv empty
    have call : pgtableAllocCache s = getFreePage s := if_neg (not_not.mpr empty)
    have pages : (VmallocTables.getFreePage v).2.pages = (getFreePage s).2.pages := by
      unfold VmallocTables.getFreePage getFreePage
      rw [tracks.pages]
    refine ⟨?_, [], fetched, ?_, tracks.cache⟩
    · rw [call]
      unfold VmallocTables.getFreePage getFreePage
      rw [tracks.pages]
      exact (get_address inv 0).symm
    · unfold afterAlloc
      rw [call]
      exact pages
  · obtain ⟨rest, rfl, popped⟩ := pop_inv inv empty
    refine ⟨?_, rest, popped, ?_, rfl⟩
    · unfold pgtableAllocCache
      rw [if_pos empty]
      rfl
    · unfold afterAlloc pgtableAllocCache
      rw [if_pos empty]
      exact tracks.pages

theorem free_cache_tracks (inv : CacheInv 0x100 s chain) (tracks : Tracks s v chain)
    {page : Address} (member : page ∈ s.held) :
    ∃ after, CacheInv 0x100 (afterFree 0x100 s page) after ∧
      Tracks (afterFree 0x100 s page) (pteFreeCache v page.toNat) after := by
  have length : v.pteCache.length = s.cacheSize.toNat := by
    rw [tracks.cache, List.length_map, inv.sized]
  have test : s.cacheSize < 0x100 ↔ v.pteCache.length < pteCacheMax := by
    rw [length]
    exact Iff.rfl
  unfold pteFreeCache
  by_cases room : s.cacheSize < 0x100
  · rw [if_pos (test.mp room)]
    refine ⟨page :: chain, push_inv inv member room, ?_, ?_⟩
    · unfold afterFree pgtableFreeCache
      rw [if_pos room]
      exact tracks.pages
    · rw [List.map_cons, ← tracks.cache]
  · rw [if_neg fun less => room (test.mpr less)]
    refine ⟨chain, give_back_inv inv member room, ?_, tracks.cache⟩
    unfold afterFree pgtableFreeCache
    rw [if_neg room]
    dsimp only
    rw [tracks.pages]
    rfl

end Tracking

def bootState (pages : PageState) : CacheState where
  pages := pages
  memory := fun _ => 0
  cache := 0
  cacheSize := 0
  held := []
  others := pages.live

/-- On the 4 GB machine a page is taken and goes to the cache. -/
theorem cache_sound_page : ∃ start s, Booted start ∧ Reaches (cacheStep 256) Permitted start s ∧
    s.cache ≠ 0 ∧ CacheSound 256 s := by
  obtain ⟨pages, ready, full, idle, limit⟩ := full_map_boots
  have counted : pagesUp (orderSize 0) = 1 := by
    rw [order_size_page]
    unfold pagesUp ulong pageSize
    decide
  have taken := (prefix_alloc (orderSize 0) full idle (by rw [counted]; decide)
    (by rw [counted, limit]; decide)).1
  have booted : Booted (bootState pages) := ⟨⟨_, _, ready⟩, rfl, rfl, rfl, rfl⟩
  have page : (pgtableAllocCache (bootState pages)).1 = 0x5ec000 := by
    change BitVec.ofNat 32 (allocMemAllocator pages.mem (orderSize 0) 0).1 = 0x5ec000
    rw [taken, page_size_eq]
    rfl
  have nonnull : (pgtableAllocCache (bootState pages)).1 ≠ 0 := by
    rw [page]
    decide
  have first : Reaches (cacheStep 256) Permitted (bootState pages) _ :=
    reaches_snoc .refl .alloc trivial rfl
  have run := reaches_snoc first (.free (pgtableAllocCache (bootState pages)).1)
    (by
      change _ ∈ if _ then _ else _
      rw [if_neg nonnull]
      exact List.mem_cons_self) rfl
  refine ⟨_, _, booted, run, ?_, cache_sound booted run⟩
  exact nonnull

end MirOs.PgtableCache
