import MirOs.VmallocTables
import MirOs.BootMemory
import Mathlib.Data.List.Nodup

/-!
# What vmalloc maps

Every page that `vmalloc` has taken from the page allocator has one owner: an entry of the
window, the cache of `pte_free`, or a page table. Setting up and tearing down the tables of a
region keeps this, so what a call maps is mapped nowhere else.
-/

namespace MirOs.VmallocTables

open MirOs.MachineWord MirOs.PageAllocModel MirOs.PageAllocEffect MirOs.PageBlocks
open MirOs.BootMemory MirOs.Vmalloc MirOs.PageWalk MirOs.Reachability

set_option autoImplicit false

/-! ## Entries -/

section Entries

variable {s : VmState} {slot index value page : Nat}

theorem entry_of_none (absent : s.initPgdir (page / 1024) = none) : s.entry page = 0 := by
  unfold VmState.entry
  rw [absent]

theorem entry_congr {t : VmState} (tables : t.initPgdir = s.initPgdir) (page : Nat) :
    t.entry page = s.entry page := by
  unfold VmState.entry
  rw [tables]

theorem entry_set_self {table : PageTable} (present : s.initPgdir slot = some table)
    (inside : index < 1024) : (s.setEntry slot index value).entry (slot * 1024 + index) = value := by
  have slotEq : (slot * 1024 + index) / 1024 = slot := by omega
  have indexEq : (slot * 1024 + index) % 1024 = index := by omega
  unfold VmState.entry VmState.setEntry
  dsimp only
  rw [slotEq, indexEq, Function.update_self, present]
  exact Function.update_self _ _ _

theorem entry_set_other (other : page ≠ slot * 1024 + index) :
    (s.setEntry slot index value).entry page = s.entry page := by
  unfold VmState.entry VmState.setEntry
  dsimp only
  by_cases sameSlot : page / 1024 = slot
  · rw [sameSlot, Function.update_self]
    cases s.initPgdir slot with
    | none => rfl
    | some table => exact Function.update_of_ne (by omega) _ _
  · rw [Function.update_of_ne sameSlot]

theorem entry_set_table {addr : Nat} (absent : s.initPgdir slot = none) :
    (s.setTable slot ⟨addr, fun _ => 0⟩).entry page = s.entry page := by
  unfold VmState.entry VmState.setTable
  dsimp only
  by_cases sameSlot : page / 1024 = slot
  · rw [sameSlot, Function.update_self, absent]
  · rw [Function.update_of_ne sameSlot]

theorem set_entry_tables (other : Nat) :
    ((s.setEntry slot index value).initPgdir other).map PageTable.page =
      (s.initPgdir other).map PageTable.page := by
  unfold VmState.setEntry
  dsimp only
  by_cases same : other = slot
  · subst same
    rw [Function.update_self]
    cases s.initPgdir other <;> rfl
  · rw [Function.update_of_ne same]

end Entries

/-! ## Owners -/

/-- The directory slot at which the window starts. -/
def windowSlot : Nat := 976

theorem window_start : vmallocStartAddr = windowSlot * 1024 * 4096 := by
  rw [vmalloc_start_addr_eq]
  unfold windowSlot
  rfl

/-- What a page taken from the allocator can be. -/
inductive Owner where
  | mapped (page : Nat)
  | cached
  | table (slot : Nat)

def Owns (s : VmState) : Owner → Nat → Prop
  | .mapped page, addr => windowSlot * 1024 ≤ page ∧ s.entry page ≠ 0 ∧ frame (s.entry page) = addr
  | .cached, addr => addr ∈ s.pteCache
  | .table slot, addr => windowSlot ≤ slot ∧ (s.initPgdir slot).map PageTable.page = some addr

structure Held (s : VmState) (addr : Nat) : Prop where
  aligned : addr % 4096 = 0
  live : Block.mk addr (orderSize 0) ∈ s.pages.live

structure VmInv (s : VmState) : Prop where
  blocks : BlockInv s.pages
  held : ∀ owner addr, Owns s owner addr → Held s addr
  single : ∀ owner other addr, Owns s owner addr → Owns s other addr → owner = other
  stack : s.pteCache.Nodup

/-- A page taken from the allocator that has no owner yet. -/
structure Spare (s : VmState) (addr : Nat) : Prop where
  held : Held s addr
  free : ∀ owner, ¬ Owns s owner addr

/-- A request of one page is not merged into the tail of the last allocation. -/
def UnmergedPage (mem : MemAlloc) : Prop :=
  ∀ start ∈ contiguousScan mem (pagesUp (orderSize 0)), merges mem 0 start = false

theorem idle_unmerged {mem : MemAlloc} (idle : mem.lastOffset = 0) : UnmergedPage mem := by
  intro start _
  exact merges_idle idle 0 start

def Unmerged (s : VmState) : Prop := UnmergedPage s.pages.mem

section Pages

variable {s : VmState} {addr : Nat}

theorem order_size_page : orderSize 0 = 4096 := by
  rw [order_size_zero]
  exact page_size_eq

/-- Held pages of different addresses are different blocks, so one can be given up. -/
theorem held_erase {kept : Nat} (held : Held s kept) (other : kept ≠ addr) :
    Block.mk kept (orderSize 0) ∈ s.pages.live.erase ⟨addr, orderSize 0⟩ := by
  apply List.mem_erase_of_ne _ |>.mpr held.live
  intro same
  exact other (congrArg Block.addr same)

/-- A request that is not merged is refused, or it starts at a page and a request of whole
pages leaves no merge position. -/
theorem unmerged_alloc {mem : MemAlloc} {size align : Nat}
    (unmerged : ∀ start ∈ contiguousScan mem (pagesUp size), merges mem align start = false)
    (whole : size % pageSize = 0) :
    let result := allocMemAllocator mem size align
    result = (0, mem) ∨ (result.2.lastOffset = 0 ∧
      (result.1 = 0 ∨ ∃ start, result.1 = ulong (mem.memStart + physAddr start))) := by
  unfold allocMemAllocator
  dsimp only
  split_ifs
  · exact Or.inl rfl
  · exact Or.inl rfl
  unfold rawAllocMemAllocator
  cases scanned : contiguousScan mem (pagesUp size) with
  | none => exact Or.inl rfl
  | some start =>
      right
      dsimp only
      rw [unmerged start scanned, if_neg Bool.false_ne_true]
      unfold reserveRest
      split_ifs
      · refine ⟨(op_mem_allocator_region _ _ _ _).2.2.trans whole, ?_⟩
        dsimp only
        split_ifs
        · exact Or.inl rfl
        · exact Or.inr ⟨start, rfl⟩
      · exact ⟨whole, Or.inr ⟨start, rfl⟩⟩

theorem phys_addr_aligned {base : Nat} (zero : base = 0) (start : Nat) :
    ulong (base + physAddr start) % 4096 = 0 := by
  subst zero
  unfold physAddr ulong pageSize
  omega

/-- A page request that is not merged is answered by a whole page that nothing held has a
byte of. -/
theorem unmerged_page {pages : PageState} (inv : BlockInv pages) (unmerged : UnmergedPage pages.mem) :
    let result := getFreePages pages.mem 0
    BlockInv { mem := result.2, live := granted pages.live result.1 (orderSize 0) } ∧
      UnmergedPage result.2 ∧ result.1 % 4096 = 0 ∧
      (result.1 ≠ 0 → ∀ block ∈ pages.live, (Block.mk result.1 (orderSize 0)).Apart block) := by
  have effect := alloc_effect inv.placed (order_size_lt 0) (page_in_range pages.mem)
  have whole : orderSize 0 % pageSize = 0 := by rw [order_size_zero, Nat.mod_self]
  have outcome := unmerged_alloc unmerged whole
  have keeps := alloc_keeps inv effect
  unfold getFreePages
  dsimp only at outcome ⊢
  generalize allocMemAllocator pages.mem (orderSize 0) 0 = result at *
  have apart : result.1 ≠ 0 → ∀ block ∈ pages.live, (Block.mk result.1 (orderSize 0)).Apart block :=
    fun nonnull block member byte inside =>
      (new_block_unused inv effect nonnull inside).2 block member
  rcases outcome with rfl | ⟨idle, null | ⟨start, starts⟩⟩
  · exact ⟨keeps, unmerged, rfl, apart⟩
  · refine ⟨keeps, idle_unmerged idle, ?_, apart⟩
    rw [null]
  · refine ⟨keeps, idle_unmerged idle, ?_, apart⟩
    rw [starts]
    exact phys_addr_aligned inv.placed.base start

theorem owns_congr {t : VmState} (tables : t.initPgdir = s.initPgdir)
    (cache : t.pteCache = s.pteCache) (owner : Owner) : Owns t owner addr ↔ Owns s owner addr := by
  cases owner with
  | mapped page =>
      unfold Owns VmState.entry
      rw [tables]
  | cached =>
      unfold Owns
      rw [cache]
  | table slot =>
      unfold Owns
      rw [tables]

theorem owners_kept {t : VmState} (inv : VmInv s) (pages : t.pages = s.pages)
    (before : ∀ owner addr, Owns t owner addr → Owns s owner addr) (stack : t.pteCache.Nodup) :
    VmInv t := by
  refine ⟨pages ▸ inv.blocks, ?_, ?_, stack⟩
  · intro owner addr owned
    obtain ⟨aligned, live⟩ := inv.held owner addr (before owner addr owned)
    exact ⟨aligned, pages ▸ live⟩
  · intro owner other addr first second
    exact inv.single owner other addr (before owner addr first) (before other addr second)

/-- A spare page may be given one owner. -/
theorem owner_added {t : VmState} {new : Owner} (inv : VmInv s) (spare : Spare s addr)
    (pages : t.pages = s.pages)
    (before : ∀ owner other, Owns t owner other → Owns s owner other ∨ (owner = new ∧ other = addr))
    (stack : t.pteCache.Nodup) : VmInv t := by
  refine ⟨pages ▸ inv.blocks, ?_, ?_, stack⟩
  · intro owner other owned
    rcases before owner other owned with old | ⟨_, rfl⟩
    · obtain ⟨aligned, live⟩ := inv.held owner other old
      exact ⟨aligned, pages ▸ live⟩
    · exact ⟨spare.held.aligned, pages ▸ spare.held.live⟩
  · intro owner other page first second
    rcases before owner page first with oldFirst | ⟨rfl, rfl⟩
    · rcases before other page second with oldSecond | ⟨_, rfl⟩
      · exact inv.single owner other page oldFirst oldSecond
      · exact absurd oldFirst (spare.free owner)
    · rcases before other page second with oldSecond | ⟨rfl, _⟩
      · exact absurd oldSecond (spare.free other)
      · rfl

theorem granted_kept {live : List Block} {block : Block} (member : block ∈ live) (size : Nat) :
    block ∈ granted live addr size := by
  unfold granted
  split_ifs
  · exact member
  · exact List.mem_cons_of_mem _ member

theorem granted_new (nonnull : addr ≠ 0) (live : List Block) (size : Nat) :
    Block.mk addr size ∈ granted live addr size := by
  unfold granted
  rw [if_neg nonnull]
  exact List.mem_cons_self

theorem page_contains : (Block.mk addr (orderSize 0)).Contains addr := by
  rw [order_size_page]
  exact ⟨Nat.le_refl _, Nat.lt_add_of_pos_right (Nat.succ_pos _)⟩

/-- A page was taken: it has no owner, and the tables are as they were. -/
structure Taken (s t : VmState) (addr : Nat) : Prop where
  inv : VmInv t
  unmerged : Unmerged t
  spare : addr ≠ 0 → Spare t addr
  tables : t.initPgdir = s.initPgdir
  regions : t.regions = s.regions

theorem get_free_page_taken (inv : VmInv s) (unmerged : Unmerged s) :
    Taken s (getFreePage s).2 (getFreePage s).1 := by
  obtain ⟨blocks, stays, aligned, apart⟩ := unmerged_page inv.blocks unmerged
  have owns := fun addr => @owns_congr s addr (getFreePage s).2 rfl rfl
  have kept : ∀ owner addr, Owns s owner addr → Held (getFreePage s).2 addr := by
    intro owner addr owned
    obtain ⟨whole, live⟩ := inv.held owner addr owned
    exact ⟨whole, granted_kept live _⟩
  refine ⟨⟨blocks, ?_, ?_, inv.stack⟩, stays, ?_, rfl, rfl⟩
  · intro owner addr owned
    exact kept owner addr ((owns addr owner).mp owned)
  · intro owner other addr first second
    exact inv.single owner other addr ((owns addr owner).mp first) ((owns addr other).mp second)
  · intro nonnull
    refine ⟨⟨aligned, granted_new nonnull _ _⟩, ?_⟩
    intro owner owned
    have live := (inv.held owner _ ((owns _ owner).mp owned)).live
    exact apart nonnull _ live _ page_contains page_contains

theorem pte_alloc_page_taken (inv : VmInv s) (unmerged : Unmerged s) :
    Taken s (pteAllocPage s).2 (pteAllocPage s).1 := by
  unfold pteAllocPage
  cases cache : s.pteCache with
  | nil => exact get_free_page_taken inv unmerged
  | cons page rest =>
      have cached : Owns s .cached page := by
        show page ∈ s.pteCache
        rw [cache]
        exact List.mem_cons_self
      have stack := inv.stack
      rw [cache] at stack
      obtain ⟨fresh, restStack⟩ := List.nodup_cons.mp stack
      have before : ∀ owner addr, Owns { s with pteCache := rest } owner addr →
          Owns s owner addr ∧ addr ≠ page := by
        intro owner addr owned
        cases owner with
        | mapped entry =>
            refine ⟨owned, ?_⟩
            rintro rfl
            exact Owner.noConfusion (inv.single (.mapped entry) .cached _ owned cached)
        | cached =>
            refine ⟨?_, ?_⟩
            · show addr ∈ s.pteCache
              rw [cache]
              exact List.mem_cons_of_mem _ owned
            · rintro rfl
              exact fresh owned
        | table slot =>
            refine ⟨owned, ?_⟩
            rintro rfl
            exact Owner.noConfusion (inv.single (.table slot) .cached _ owned cached)
      refine ⟨owners_kept inv rfl (fun owner addr owned => (before owner addr owned).1) restStack,
        unmerged, ?_, rfl, rfl⟩
      intro _
      obtain ⟨aligned, live⟩ := inv.held _ _ cached
      exact ⟨⟨aligned, live⟩, fun owner owned => (before owner page owned).2 rfl⟩

/-- The protection bits lie below the frame. -/
theorem frame_user (aligned : addr % 4096 = 0) :
    addr ||| pageUser ≠ 0 ∧ frame (addr ||| pageUser) = addr := by
  have value : addr ||| pageUser = addr + pageUser := by
    obtain ⟨number, rfl⟩ : ∃ number, addr = 2 ^ 12 * number := ⟨addr / 4096, by omega⟩
    exact (Nat.two_pow_add_eq_or_of_lt (by decide) number).symm
  rw [value]
  unfold frame pageUser
  exact ⟨by omega, by omega⟩

/-- A spare page becomes the page of an entry that was empty. -/
theorem set_entry_inv {slot index : Nat} (inv : VmInv s) (spare : Spare s addr)
    {table : PageTable} (present : s.initPgdir slot = some table) (inside : index < 1024) :
    VmInv (s.setEntry slot index (addr ||| pageUser)) ∧
      (s.setEntry slot index (addr ||| pageUser)).entry (slot * 1024 + index) ≠ 0 := by
  have self := @entry_set_self s slot index (addr ||| pageUser) table present inside
  obtain ⟨nonzero, frameEq⟩ := frame_user spare.held.aligned
  -- only the new entry owns something it did not own before
  have before : ∀ owner other, Owns (s.setEntry slot index (addr ||| pageUser)) owner other →
      Owns s owner other ∨ (owner = .mapped (slot * 1024 + index) ∧ other = addr) := by
    intro owner other owned
    cases owner with
    | mapped page =>
        by_cases here : page = slot * 1024 + index
        · right
          obtain ⟨_, _, isFrame⟩ := owned
          rw [here, self, frameEq] at isFrame
          exact ⟨congrArg Owner.mapped here, isFrame.symm⟩
        · left
          have same := @entry_set_other s slot index (addr ||| pageUser) page here
          obtain ⟨window, mapped, isFrame⟩ := owned
          rw [same] at mapped isFrame
          exact ⟨window, mapped, isFrame⟩
    | cached => exact Or.inl owned
    | table other =>
        left
        obtain ⟨window, isPage⟩ := owned
        rw [set_entry_tables] at isPage
        exact ⟨window, isPage⟩
  refine ⟨owner_added inv spare rfl before inv.stack, ?_⟩
  rw [self]
  exact nonzero

/-- A spare page becomes the table of a slot that had none. -/
theorem set_table_inv {slot : Nat} (inv : VmInv s) (spare : Spare s addr)
    (absent : s.initPgdir slot = none) : VmInv (s.setTable slot ⟨addr, fun _ => 0⟩) := by
  refine @owner_added s addr _ (.table slot) inv spare rfl ?_ inv.stack
  intro owner other owned
  cases owner with
  | mapped page =>
      obtain ⟨window, mapped, isFrame⟩ := owned
      rw [entry_set_table absent] at mapped isFrame
      exact Or.inl ⟨window, mapped, isFrame⟩
  | cached => exact Or.inl owned
  | table taken =>
      obtain ⟨window, isPage⟩ := owned
      by_cases same : taken = slot
      · right
        subst same
        unfold VmState.setTable at isPage
        dsimp only at isPage
        rw [Function.update_self] at isPage
        exact ⟨rfl, (Option.some.inj isPage).symm⟩
      · left
        unfold VmState.setTable at isPage
        dsimp only at isPage
        rw [Function.update_of_ne same] at isPage
        exact ⟨window, isPage⟩

/-- Clearing an entry of the window leaves its page without an owner. -/
theorem clear_entry_inv {slot index : Nat} (inv : VmInv s) (window : windowSlot ≤ slot)
    (inside : index < 1024) (mapped : s.entry (slot * 1024 + index) ≠ 0) :
    VmInv (s.setEntry slot index 0) ∧
      Spare (s.setEntry slot index 0) (frame (s.entry (slot * 1024 + index))) ∧
      (s.setEntry slot index 0).entry (slot * 1024 + index) = 0 := by
  have self : (s.setEntry slot index 0).entry (slot * 1024 + index) = 0 := by
    cases present : s.initPgdir slot with
    | none =>
        have absent : s.initPgdir ((slot * 1024 + index) / 1024) = none := by
          rw [show (slot * 1024 + index) / 1024 = slot by omega]
          exact present
        exact absurd (entry_of_none absent) mapped
    | some table => exact entry_set_self present inside
  have owned : Owns s (.mapped (slot * 1024 + index)) (frame (s.entry (slot * 1024 + index))) :=
    ⟨by unfold windowSlot at *; omega, mapped, rfl⟩
  have before : ∀ owner addr, Owns (s.setEntry slot index 0) owner addr →
      Owns s owner addr ∧ owner ≠ .mapped (slot * 1024 + index) := by
    intro owner addr now
    cases owner with
    | mapped page =>
        obtain ⟨inWindow, nonzero, isFrame⟩ := now
        have other : page ≠ slot * 1024 + index := by
          rintro rfl
          exact nonzero self
        rw [entry_set_other other] at nonzero isFrame
        exact ⟨⟨inWindow, nonzero, isFrame⟩, fun same => other (Owner.mapped.inj same)⟩
    | cached => exact ⟨now, Owner.noConfusion⟩
    | table taken =>
        obtain ⟨inWindow, isPage⟩ := now
        rw [set_entry_tables] at isPage
        exact ⟨⟨inWindow, isPage⟩, Owner.noConfusion⟩
  refine ⟨owners_kept inv rfl (fun owner addr now => (before owner addr now).1) inv.stack, ?_, self⟩
  obtain ⟨aligned, live⟩ := inv.held _ _ owned
  refine ⟨⟨aligned, live⟩, ?_⟩
  intro owner now
  obtain ⟨old, other⟩ := before owner _ now
  exact other (inv.single owner _ _ old owned)

/-- A spare page goes back to the cache, or to the allocator when the cache is full. -/
theorem pte_free_cache_inv (inv : VmInv s) (spare : Spare s addr) :
    VmInv (pteFreeCache s addr) := by
  unfold pteFreeCache
  split_ifs with room
  · have stack : (addr :: s.pteCache).Nodup := List.nodup_cons.mpr ⟨spare.free .cached, inv.stack⟩
    refine @owner_added s addr _ .cached inv spare rfl ?_ stack
    intro owner other owned
    cases owner with
    | mapped page => exact Or.inl owned
    | cached =>
        rcases List.mem_cons.mp owned with rfl | old
        · exact Or.inr ⟨rfl, rfl⟩
        · exact Or.inl old
    | table slot => exact Or.inl owned
  · dsimp only
    have page := order_size_page
    have freeable : (Block.mk addr (orderSize 0)).freeable s.pages.live = true := by
      simp only [Block.freeable, Bool.and_eq_true, decide_eq_true_eq]
      have aligned := spare.held.aligned
      rw [← page_size_eq] at aligned
      refine ⟨⟨spare.held.live, aligned⟩, ?_⟩
      rw [order_size_zero, Nat.mod_self]
    refine ⟨free_pages_keeps inv.blocks freeable rfl, ?_, ?_, inv.stack⟩
    · intro owner kept owned
      have old : Owns s owner kept := (owns_congr rfl rfl owner).mp owned
      have held := inv.held owner kept old
      have other : kept ≠ addr := by
        rintro rfl
        exact spare.free owner old
      refine ⟨held.aligned, ?_⟩
      show _ ∈ (released _ _ _).live
      unfold released
      dsimp only
      split_ifs
      · exact held.live
      · exact held_erase held other
    · intro owner other kept first second
      exact inv.single owner other kept ((owns_congr rfl rfl owner).mp first)
        ((owns_congr rfl rfl other).mp second)

theorem pte_free_cache_fields (s : VmState) (addr : Nat) :
    (pteFreeCache s addr).initPgdir = s.initPgdir ∧ (pteFreeCache s addr).regions = s.regions := by
  unfold pteFreeCache
  split_ifs <;> exact ⟨rfl, rfl⟩

theorem set_entry_present (slot index value other : Nat) :
    ((s.setEntry slot index value).initPgdir other).isSome = (s.initPgdir other).isSome := by
  have same := congrArg Option.isSome (@set_entry_tables s slot index value other)
  rw [Option.isSome_map, Option.isSome_map] at same
  exact same

theorem free_cache_set_entry (slot index : Nat) :
    (pteFreeCache s addr).setEntry slot index 0 = pteFreeCache (s.setEntry slot index 0) addr := by
  have same : (s.setEntry slot index 0).pteCache = s.pteCache := rfl
  unfold pteFreeCache
  rw [same]
  split_ifs <;> rfl

/-- What `pte_free` does: the entry is empty behind it and no other has changed. -/
structure Cleared (s t : VmState) (page : Nat) : Prop where
  inv : VmInv t
  empty : t.entry page = 0
  others : ∀ other, other ≠ page → t.entry other = s.entry other
  tables : ∀ slot, (t.initPgdir slot).isSome = (s.initPgdir slot).isSome
  regions : t.regions = s.regions

theorem pte_free_cleared {slot index : Nat} (inv : VmInv s) (window : windowSlot ≤ slot)
    (inside : index < 1024) : Cleared s (pteFree slot index s) (slot * 1024 + index) := by
  unfold pteFree
  dsimp only
  by_cases empty : s.entry (slot * 1024 + index) = 0
  · rw [if_pos empty]
    exact ⟨inv, empty, fun _ _ => rfl, fun _ => rfl, rfl⟩
  rw [if_neg empty, free_cache_set_entry]
  obtain ⟨cleared, spare, zero⟩ := clear_entry_inv inv window inside empty
  obtain ⟨tables, regions⟩ := pte_free_cache_fields (s.setEntry slot index 0)
    (frame (s.entry (slot * 1024 + index)))
  have entries := entry_congr tables
  refine ⟨pte_free_cache_inv cleared spare, (entries _).trans zero, ?_, ?_, regions⟩
  · intro other different
    rw [entries, entry_set_other different]
  · intro other
    rw [tables, set_entry_present]

/-- What the body of `setup_pte` does to an empty entry of a table that is there. -/
structure SetUp (s t : VmState) (page : Nat) : Prop where
  inv : VmInv t
  unmerged : Unmerged t
  mapped : t.entry page ≠ 0
  others : ∀ other, other ≠ page → t.entry other = s.entry other
  tables : ∀ slot, (t.initPgdir slot).isSome = (s.initPgdir slot).isSome
  regions : t.regions = s.regions

theorem setup_entry_spec {slot index : Nat} (inv : VmInv s) (unmerged : Unmerged s)
    (inside : index < 1024) (present : (s.initPgdir slot).isSome)
    (empty : s.entry (slot * 1024 + index) = 0) :
    let result := setupEntry slot index s
    (result.1 < 0 → VmInv result.2 ∧ (∀ page, result.2.entry page = s.entry page) ∧
      result.2.regions = s.regions) ∧
    (0 ≤ result.1 → SetUp s result.2 (slot * 1024 + index)) := by
  have taken := pte_alloc_page_taken inv unmerged
  unfold setupEntry
  dsimp only
  generalize pteAllocPage s = page at taken ⊢
  have entries := entry_congr taken.tables
  by_cases null : page.1 = 0
  · rw [if_pos null]
    refine ⟨fun _ => ⟨taken.inv, entries, taken.regions⟩, fun nonneg => ?_⟩
    exact absurd nonneg (by simp)
  · rw [if_neg null]
    refine ⟨fun negative => absurd negative (by simp), fun _ => ?_⟩
    have untouched : pteFree slot index page.2 = page.2 := by
      unfold pteFree
      dsimp only
      rw [entries, if_pos empty]
    dsimp only
    rw [untouched]
    rw [← taken.tables] at present
    obtain ⟨table, isTable⟩ := Option.isSome_iff_exists.mp present
    obtain ⟨kept, mapped⟩ := set_entry_inv taken.inv (taken.spare null) isTable inside
    refine ⟨kept, taken.unmerged, mapped, ?_, ?_, taken.regions⟩
    · intro other different
      rw [entry_set_other different, entries]
    · intro other
      rw [set_entry_present, taken.tables]

/-- `pte_alloc` on a table that is there changes nothing; else it makes an empty one. -/
theorem pte_alloc_spec (slot : Nat) (inv : VmInv s) (unmerged : Unmerged s) :
    let result := pteAlloc slot s
    VmInv result.2 ∧ Unmerged result.2 ∧ (∀ page, result.2.entry page = s.entry page) ∧
      result.2.regions = s.regions ∧ (0 ≤ result.1 → (result.2.initPgdir slot).isSome) := by
  unfold pteAlloc
  cases present : s.initPgdir slot with
  | some table =>
      refine ⟨inv, unmerged, fun _ => rfl, rfl, fun _ => ?_⟩
      rw [present]
      rfl
  | none =>
      have taken := get_free_page_taken inv unmerged
      dsimp only
      generalize getFreePage s = page at taken ⊢
      have entries := entry_congr taken.tables
      by_cases null : page.1 = 0
      · rw [if_pos null]
        exact ⟨taken.inv, taken.unmerged, entries, taken.regions,
          fun nonneg => absurd nonneg (by simp)⟩
      · rw [if_neg null]
        have absent : page.2.initPgdir slot = none := by
          rw [taken.tables]
          exact present
        refine ⟨set_table_inv taken.inv (taken.spare null) absent, taken.unmerged, ?_, taken.regions,
          fun _ => ?_⟩
        · intro other
          exact (entry_set_table absent).trans (entries other)
        · unfold VmState.setTable
          dsimp only
          rw [Function.update_self]
          rfl

end Pages

end MirOs.VmallocTables
