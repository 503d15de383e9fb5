import MirOs.BootMemory
import MirOs.BitmapCover
import Mathlib.Data.Nat.Count

/-!
# Which pages the boot leaves clear

The bitmap after `init_mm` in closed form: a page is open if it lies behind the
kernel image and the bitmap and no entry of the copied memory map reserves it, and
`paging_init` takes the first 972 open pages. Against the memory map of the BIOS the
clear pages are RAM unless one of them is a hole or met by an entry that
`reserve_e820` passes over.
-/

namespace MirOs.BootMemory

open MirOs.MachineWord MirOs.FirstFit MirOs.PageAllocModel MirOs.PageAllocEffect
open MirOs.PageBlocks MirOs.PageAccounting MirOs.BitmapCover

set_option autoImplicit false

/-! ## The reservations -/

/-- The pages `reserve_mem_allocator` reserves in a memory of `limit` pages. -/
def reserves (limit addr size page : Nat) : Bool :=
  decide (¬ ulong (addr + size) < addr ∧ pagesUp (addr + size) ≤ limit ∧
    pagesUp addr ≤ page ∧ page < pagesUp (addr + size))

/-- The bytes of an entry that `reserve_e820` reserves. -/
def reservedSize (entry : E820Entry) : Nat :=
  if entry.size.toNat < pageSize then pageSize else entry.size.toNat

def reservedBy (limit : Nat) (entry : E820Entry) (page : Nat) : Bool :=
  decide (entry.type ≠ e820Ram ∧ (entry.addr + entry.size).toNat < ulong (limit * pageSize)) &&
    reserves limit (ulong entry.addr.toNat) (ulong (reservedSize entry)) page

/-- Before `paging_init`: the allocator is idle, its counter exact and its bits known. -/
structure Marked (limit : Nat) (marked : Nat → Bool) (mem : MemAlloc) : Prop where
  base : mem.memStart = 0
  endPfn : mem.endPfn = limit
  maxPfn : mem.maxPfn = limit
  idle : mem.lastOffset = 0
  accounted : Accounted mem
  bits : ∀ page, page < limit → mem.bitmap page = marked page

theorem reserve_marked {limit : Nat} {marked : Nat → Bool} {mem : MemAlloc}
    (known : Marked limit marked mem) (addr size : Nat) :
    Marked limit (fun page => marked page || reserves limit addr size page)
      (reserveMemAllocator mem addr size).2 := by
  unfold reserveMemAllocator
  rw [known.base, known.endPfn]
  dsimp only
  rw [Nat.sub_zero, if_neg (Nat.not_lt_zero addr)]
  have refused : (∀ page, reserves limit addr size page = false) →
      Marked limit (fun page => marked page || reserves limit addr size page) mem := by
    intro none_
    refine ⟨known.base, known.endPfn, known.maxPfn, known.idle, known.accounted, ?_⟩
    intro page below
    rw [none_ page, Bool.or_false]
    exact known.bits page below
  split_ifs with wraps outside
  · apply refused
    intro page
    unfold reserves
    rw [decide_eq_false_iff_not]
    rintro ⟨noWrap, _⟩
    exact noWrap wraps
  · apply refused
    intro page
    unfold reserves
    rw [decide_eq_false_iff_not]
    rintro ⟨_, inside, first, last⟩
    omega
  · have ordered : pagesUp addr ≤ pagesUp (addr + size) := by omega
    have inside : pagesUp (addr + size) ≤ mem.endPfn := by
      rw [known.endPfn]
      omega
    obtain ⟨region, _, offset⟩ :=
      op_mem_allocator_region mem (pagesUp addr) (pagesUp (addr + size)) .reserve
    refine ⟨region.memStart.trans known.base, region.endPfn.trans known.endPfn,
      region.maxPfn.trans known.maxPfn, offset.trans known.idle,
      op_mem_allocator_accounted known.accounted _ _ _, ?_⟩
    intro page below
    rw [op_mem_allocator_bitmap mem _ _ .reserve ordered inside, known.bits page below]
    unfold reserves
    rw [known.endPfn] at inside
    by_cases here : pagesUp addr ≤ page ∧ page < pagesUp (addr + size)
    · simp [here, wraps, inside]
    · rw [if_neg here, decide_eq_false (fun all => here ⟨all.2.2.1, all.2.2.2⟩), Bool.or_false]

theorem reserve_e820_marked {limit : Nat} (map : List E820Entry) {marked : Nat → Bool}
    {mem : MemAlloc} (known : Marked limit marked mem) :
    Marked limit (fun page => marked page || map.any fun entry => reservedBy limit entry page)
      (reserveE820 mem map) := by
  unfold reserveE820
  induction map generalizing marked mem with
  | nil => simpa using known
  | cons entry rest ih =>
      rw [List.foldl_cons]
      have first : Marked limit (fun page => marked page || reservedBy limit entry page)
          (reserveE820Entry mem entry) := by
        unfold reserveE820Entry reservedBy
        rw [known.maxPfn]
        by_cases taken : entry.type ≠ e820Ram ∧
            (entry.addr + entry.size).toNat < ulong (limit * pageSize)
        · rw [if_pos taken, decide_eq_true taken]
          simp only [Bool.true_and]
          exact reserve_marked known _ _
        · rw [if_neg taken, decide_eq_false taken]
          simpa using known
      have later := ih first
      simpa [Bool.or_assoc] using later

/-- Neither the kernel nor the bitmap nor an entry of the map reserves the page. -/
def openPage (bios : BiosMap) (page : Nat) : Bool :=
  let map := copyE820 bios
  let limit := maxPfnOf map
  decide (512 + acceptedPages limit 512 ≤ page) && map.all fun entry => !reservedBy limit entry page

theorem special_pages_marked {bios : BiosMap} {mem : MemAlloc}
    (ready : Initialised (maxPfnOf (copyE820 bios)) 512 mem) :
    Marked (maxPfnOf (copyE820 bios)) (fun page => !openPage bios page)
      (reserveSpecialPages mem (copyE820 bios)) := by
  have mapInside := ready.mapInside
  have known : Marked (maxPfnOf (copyE820 bios)) mem.bitmap mem :=
    ⟨ready.base, ready.endPfn, ready.maxPfn, ready.idle, ready.accounted, fun _ _ => rfl⟩
  have special := reserve_marked (reserve_marked (reserve_e820_marked (copyE820 bios) known)
    0 0x100000) kernelStart (bssEnd - kernelStart)
  refine ⟨special.base, special.endPfn, special.maxPfn, special.idle, special.accounted, ?_⟩
  intro page below
  have bits := special.bits page below
  unfold reserveSpecialPages
  dsimp only
  rw [bits, initialised_bits ready below]
  unfold openPage
  dsimp only
  rw [Bool.not_and, List.not_all_eq_any_not]
  simp only [Bool.not_not]
  generalize maxPfnOf (copyE820 bios) = limit at *
  have low : reserves limit 0 0x100000 page = decide (page < 256) := by
    unfold reserves pagesUp ulong pageSize
    rw [decide_eq_decide]
    omega
  have kernel : reserves limit kernelStart (bssEnd - kernelStart) page =
      decide (256 ≤ page ∧ page < 512) := by
    unfold reserves pagesUp ulong pageSize kernelStart bssEnd
    rw [decide_eq_decide]
    omega
  rw [low, kernel]
  cases (copyE820 bios).any fun entry => reservedBy limit entry page with
  | true => simp
  | false =>
      rw [Bool.or_false, Bool.or_false, ← decide_not, ← Bool.decide_or, ← Bool.decide_or,
        decide_eq_decide]
      omega

/-! ## The page tables -/

/-- Open pages but the first ones. -/
def afterTables (open_ : Nat → Bool) (tables page : Nat) : Bool :=
  open_ page && decide (tables ≤ Nat.count (fun page => open_ page = true) page)

/-- Before the first page table all open pages are left. -/
theorem special_pages_open {bios : BiosMap} {mem : MemAlloc}
    (ready : Initialised (maxPfnOf (copyE820 bios)) 512 mem) :
    Marked (maxPfnOf (copyE820 bios)) (fun page => !afterTables (openPage bios) 0 page)
      (reserveSpecialPages mem (copyE820 bios)) := by
  have none_ : (fun page => !openPage bios page) =
      fun page => !afterTables (openPage bios) 0 page := by
    funext page
    simp [afterTables]
  rw [← none_]
  exact special_pages_marked ready

theorem after_tables_next (open_ : Nat → Bool) {first tables : Nat} (isOpen : open_ first = true)
    (count : Nat.count (fun page => open_ page = true) first = tables) (page : Nat) :
    afterTables open_ (tables + 1) page =
      (afterTables open_ tables page && decide (page ≠ first)) := by
  unfold afterTables
  cases here : open_ page with
  | false => rfl
  | true =>
      simp only [Bool.true_and]
      rw [← Bool.decide_and, decide_eq_decide]
      constructor
      · intro more
        refine ⟨by omega, ?_⟩
        rintro rfl
        omega
      · rintro ⟨enough, other⟩
        have different : Nat.count (fun page => open_ page = true) page ≠ tables := by
          intro same
          exact other (Nat.count_injective here isOpen (same.trans count.symm))
        omega

/-- Among the pages counted there is one with every smaller count. -/
theorem exists_count {P : Nat → Prop} [DecidablePred P] {count page : Nat}
    (below : count < Nat.count P page) : ∃ earlier < page, P earlier ∧ Nat.count P earlier = count := by
  induction page with
  | zero => simp at below
  | succ page ih =>
      rw [Nat.count_succ] at below
      by_cases earlier : count < Nat.count P page
      · obtain ⟨found, before, holds⟩ := ih earlier
        exact ⟨found, by omega, holds⟩
      · split_ifs at below with holds
        · exact ⟨page, by omega, holds, by omega⟩
        · omega

theorem marked_placed {limit : Nat} {marked : Nat → Bool} {mem : MemAlloc}
    (known : Marked limit marked mem) (bound : limit ≤ maxPfnLimit) : Placed mem := by
  refine ⟨known.base, known.endPfn.trans_le bound, ?_, fun live => absurd known.idle live⟩
  rw [known.idle]
  exact page_size_positive

/-- A page is taken exactly if one is clear, and then the first clear one. -/
theorem take_page {limit : Nat} {marked : Nat → Bool} {mem : MemAlloc}
    (known : Marked limit marked mem) (bound : limit ≤ maxPfnLimit) {first : Nat}
    (inside : first < limit) (clear : marked first = false)
    (earlier : ∀ page < first, marked page = true) :
    (getFreePages mem 0).1 = first * pageSize ∧
      Marked limit (fun page => marked page || decide (page = first)) (getFreePages mem 0).2 := by
  have page : orderSize 0 = pageSize := order_size_zero
  have run : FreeRun mem.bitmap mem.endPfn first (pagesUp (orderSize 0)) := by
    rw [page, pages_up_page]
    refine ⟨by rw [known.endPfn]; omega, ?_⟩
    intro cell lower upper
    obtain rfl : cell = first := by omega
    rw [known.bits cell inside, clear]
  have none_ : NoEarlierRun mem first (pagesUp (orderSize 0)) := by
    intro candidate before
    refine ⟨candidate, Nat.le_refl _, by rw [page, pages_up_page]; omega,
      by rw [known.endPfn]; omega, ?_⟩
    rw [known.bits candidate (by omega)]
    exact earlier candidate before
  obtain ⟨addr, memEq⟩ := alloc_first_fit (marked_placed known bound) known.accounted
    (by rw [page, pages_up_page]; decide) known.idle run none_
  unfold getFreePages
  refine ⟨addr, ?_⟩
  rw [memEq, page, pages_up_page]
  have fresh : Marked limit marked (freshAllocation mem pageSize 1 first).2.2 :=
    ⟨known.base, known.endPfn, known.maxPfn, Nat.mod_self _,
      accounted_moved known.accounted rfl rfl rfl, known.bits⟩
  obtain ⟨region, _, offset⟩ := op_mem_allocator_region
    (freshAllocation mem pageSize 1 first).2.2 first (first + 1) .reserve
  have ordered : first + 1 ≤ (freshAllocation mem pageSize 1 first).2.2.endPfn := by
    rw [fresh.endPfn]
    omega
  refine ⟨region.memStart.trans fresh.base, region.endPfn.trans fresh.endPfn,
    region.maxPfn.trans fresh.maxPfn, offset.trans fresh.idle,
    op_mem_allocator_accounted fresh.accounted _ _ _, ?_⟩
  intro other below
  rw [op_mem_allocator_bitmap _ _ _ .reserve (Nat.le_succ _) ordered, fresh.bits other below]
  by_cases same : other = first
  · subst same
    simp
  · rw [if_neg (by omega)]
    simp [same]

theorem taken_clear {mem : MemAlloc} (placed : Placed mem) (idle : mem.lastOffset = 0)
    (served : (getFreePages mem 0).1 ≠ 0) : ∃ page < mem.endPfn, mem.bitmap page = false := by
  have effect := alloc_effect placed (order_size_lt 0) (page_in_range mem)
  unfold getFreePages at served
  generalize allocMemAllocator mem (orderSize 0) 0 = result at *
  obtain ⟨addr, after⟩ := result
  dsimp only at effect served
  cases effect with
  | refused => exact absurd rfl served
  | lost => exact absurd rfl served
  | fresh start pages _ counted run =>
      have room := run.1
      exact ⟨start, by omega, run.2 start (Nat.le_refl _) (by omega)⟩
  | within _ _ _ live => exact absurd idle live
  | spill _ _ _ _ live => exact absurd idle live

theorem clear_first {limit tables : Nat} {open_ : Nat → Bool}
    (some_ : ∃ page, page < limit ∧ afterTables open_ tables page = true) :
    ∃ first < limit, afterTables open_ tables first = true ∧ open_ first = true ∧
      Nat.count (fun page => open_ page = true) first = tables ∧
      ∀ page < first, afterTables open_ tables page = false := by
  have found := Nat.find_spec some_
  have least : ∀ page < Nat.find some_, afterTables open_ tables page = false := by
    intro page before
    have clear := Nat.find_min some_ before
    rw [not_and, Bool.not_eq_true] at clear
    exact clear (by omega)
  generalize Nat.find some_ = first at *
  obtain ⟨inside, clear⟩ := found
  obtain ⟨isOpen, enough⟩ := Bool.and_eq_true_iff.mp clear
  rw [decide_eq_true_eq] at enough
  refine ⟨first, inside, clear, isOpen, ?_, least⟩
  by_contra other
  obtain ⟨earlier, before, holds, count⟩ :=
    @exists_count (fun page => open_ page = true) _ tables first (by omega)
  have marked := least earlier before
  unfold afterTables at marked
  simp [holds, count] at marked

theorem tables_taken {limit tables : Nat} {open_ : Nat → Bool} (bound : limit ≤ maxPfnLimit)
    {mem : MemAlloc} (known : Marked limit (fun page => !afterTables open_ tables page) mem)
    {first : Nat} (inside : first < limit) (clear : afterTables open_ tables first = true)
    (isOpen : open_ first = true) (count : Nat.count (fun page => open_ page = true) first = tables)
    (least : ∀ page < first, afterTables open_ tables page = false) :
    (getFreePages mem 0).1 = first * pageSize ∧
      Marked limit (fun page => !afterTables open_ (tables + 1) page) (getFreePages mem 0).2 := by
  obtain ⟨addr, taken⟩ := take_page known bound inside (by simp [clear]) (by simpa using least)
  have same : (fun page => !afterTables open_ (tables + 1) page) =
      fun page => !afterTables open_ tables page || decide (page = first) := by
    funext page
    rw [after_tables_next open_ isOpen count, Bool.not_and]
    simp
  rw [same]
  exact ⟨addr, taken⟩

theorem paging_init_marked {limit : Nat} {open_ : Nat → Bool} (bound : limit ≤ maxPfnLimit)
    (count : Nat) {tables : Nat} {before after : PageState}
    (known : Marked limit (fun page => !afterTables open_ tables page) before.mem)
    (ready : pagingInit count before = some after) :
    Marked limit (fun page => !afterTables open_ (tables + count) page) after.mem := by
  induction count generalizing tables before with
  | zero =>
      obtain rfl := Option.some.inj ready
      exact known
  | succ count ih =>
      unfold pagingInit at ready
      dsimp only at ready
      split_ifs at ready with refused
      obtain ⟨page, below, clear⟩ := taken_clear (marked_placed known bound) known.idle refused
      rw [known.endPfn] at below
      rw [known.bits page below, Bool.not_eq_false'] at clear
      obtain ⟨first, inside, clear, isOpen, counted, least⟩ := clear_first ⟨page, below, clear⟩
      have taken := (tables_taken bound known inside clear isOpen counted least).2
      have rest := @ih (tables + 1) _ taken ready
      rwa [Nat.add_right_comm, Nat.add_assoc] at rest

/-- With enough open pages every table is found. -/
theorem paging_init_ready {limit : Nat} {open_ : Nat → Bool} (bound : limit ≤ maxPfnLimit)
    (null : open_ 0 = false) (count : Nat) {tables : Nat} {before : PageState}
    (known : Marked limit (fun page => !afterTables open_ tables page) before.mem)
    (enough : tables + count ≤ Nat.count (fun page => open_ page = true) limit) :
    ∃ after, pagingInit count before = some after := by
  induction count generalizing tables before with
  | zero => exact ⟨before, rfl⟩
  | succ count ih =>
      obtain ⟨page, below, holds, counted⟩ := @exists_count (fun page => open_ page = true)
        _ tables limit (by omega)
      obtain ⟨first, inside, clear, isOpen, firstCount, least⟩ :=
        @clear_first limit tables open_ ⟨page, below, by simp [afterTables, holds, counted]⟩
      obtain ⟨addr, taken⟩ := tables_taken bound known inside clear isOpen firstCount least
      have nonnull : first * pageSize ≠ 0 := by
        refine Nat.mul_ne_zero ?_ (Nat.pos_iff_ne_zero.mp page_size_positive)
        rintro rfl
        rw [null] at isOpen
        cases isOpen
      unfold pagingInit
      dsimp only
      rw [if_neg (by rw [addr]; exact nonnull)]
      exact @ih (tables + 1) _ taken (by omega)

/-- The bitmap `init_mm` leaves. -/
theorem init_mm_bits {ram : Nat → Bool} {bios : BiosMap} {start : PageState}
    (booted : initMm ram bios = some start) :
    Marked (maxPfnOf (copyE820 bios))
      (fun page => !afterTables (openPage bios) missingTables page) start.mem := by
  unfold initMm at booted
  dsimp only at booted
  cases ready : initMemAllocator ram (maxPfnOf (copyE820 bios)) 0 (maxPfnOf (copyE820 bios))
      (pagesUp bssEnd) 0 with
  | none =>
      rw [ready] at booted
      cases booted
  | some mem =>
      rw [ready] at booted
      rw [bss_end_pages] at ready
      have special := special_pages_open (init_mem_allocator_spec ready)
      have paged := @paging_init_marked _ (openPage bios) (max_pfn_of_le _) missingTables 0
        { mem := reserveSpecialPages mem (copyE820 bios), live := [] } start special booted
      rwa [Nat.zero_add] at paged

theorem init_mm_ready (ram : Nat → Bool) (bios : BiosMap) (inside : 512 < maxPfnOf (copyE820 bios))
    (enough : missingTables ≤
      Nat.count (fun page => openPage bios page = true) (maxPfnOf (copyE820 bios))) :
    ∃ start, initMm ram bios = some start := by
  obtain ⟨mem, ready⟩ := init_mem_allocator_ready ram (maxPfnOf (copyE820 bios)) 512
    (by decide) inside
  have special := special_pages_open (init_mem_allocator_spec ready)
  have null : openPage bios 0 = false := by simp [openPage]
  obtain ⟨start, paged⟩ := @paging_init_ready _ (openPage bios) (max_pfn_of_le _) null
    missingTables 0 { mem := reserveSpecialPages mem (copyE820 bios), live := [] } special
    (by omega)
  refine ⟨start, ?_⟩
  unfold initMm
  dsimp only
  rw [bss_end_pages, ready]
  exact paged

/-! ## Against the memory map -/

def E820Entry.Holds (entry : E820Entry) (byte : Nat) : Prop :=
  entry.addr.toNat ≤ byte ∧ byte < entry.addr.toNat + entry.size.toNat

/-- An entry of RAM holds the whole page. -/
def InRam (bios : BiosMap) (page : Nat) : Prop :=
  ∃ entry ∈ bios.entries, entry.type = e820Ram ∧ ∀ byte, pageOf byte = page → entry.Holds byte

def Meets (entry : E820Entry) (page : Nat) : Prop :=
  ∃ byte, pageOf byte = page ∧ entry.Holds byte

/-- The ways in which `reserve_e820` misses a page that an entry meets: the entry did
not fit into `e820map`, its end is not below the 32-bit `max_pfn << PAGE_SHIFT`, the
page is its first one and begins before it, or its rounded end lies past `max_pfn`. -/
def PassedOver (bios : BiosMap) (entry : E820Entry) (page : Nat) : Prop :=
  entry ∉ copyE820 bios ∨
    ulong (maxPfnOf (copyE820 bios) * pageSize) ≤ (entry.addr + entry.size).toNat ∨
    page * pageSize < entry.addr.toNat ∨
    maxPfnOf (copyE820 bios) < pagesUp (entry.addr.toNat + reservedSize entry)

theorem reserved_when_met {bios : BiosMap} {entry : E820Entry} {page : Nat}
    (wraps : entry.addr.toNat + entry.size.toNat < 2 ^ 64) (other : entry.type ≠ e820Ram)
    (meets : Meets entry page) (taken : ¬ PassedOver bios entry page) :
    openPage bios page = false := by
  unfold PassedOver at taken
  simp only [not_or, not_not, Nat.not_le, Nat.not_lt] at taken
  obtain ⟨copied, below, aligned, fits⟩ := taken
  have bound : maxPfnOf (copyE820 bios) ≤ 2 ^ 20 := max_pfn_of_le _
  have finish : (entry.addr + entry.size).toNat = entry.addr.toNat + entry.size.toNat := by
    rw [BitVec.toNat_add]
    exact Nat.mod_eq_of_lt wraps
  have reserved : reservedBy (maxPfnOf (copyE820 bios)) entry page = true := by
    obtain ⟨byte, here, low, high⟩ := meets
    unfold reservedBy
    rw [Bool.and_eq_true_iff, decide_eq_true_eq]
    refine ⟨⟨other, below⟩, ?_⟩
    rw [finish] at below
    generalize maxPfnOf (copyE820 bios) = limit at *
    have sizes : reservedSize entry = entry.size.toNat ∨ reservedSize entry = 4096 := by
      unfold reservedSize pageSize
      split_ifs
      · exact Or.inr rfl
      · exact Or.inl rfl
    have atLeast : entry.size.toNat ≤ reservedSize entry := by
      unfold reservedSize
      split_ifs <;> omega
    generalize reservedSize entry = size at *
    generalize entry.addr.toNat = addr at *
    generalize entry.size.toNat = length at *
    unfold pageOf at here
    unfold pageSize at here aligned
    unfold ulong pageSize at below
    unfold reserves
    rw [decide_eq_true_eq]
    have small : limit < 2 ^ 20 := by
      by_contra large
      obtain rfl : limit = 2 ^ 20 := by omega
      simp at below
    have first : ulong addr = addr := ulong_of_lt (by omega)
    have whole : ulong size = size := ulong_of_lt (by omega)
    have sum : ulong (addr + size) = addr + size := ulong_of_lt (by omega)
    rw [first, whole, sum]
    refine ⟨by omega, fits, ?_, ?_⟩
    · unfold pagesUp ulong pageSize
      omega
    · unfold pagesUp ulong pageSize
      omega
  unfold openPage
  dsimp only
  rw [Bool.and_eq_false_iff]
  right
  rw [List.all_eq_false]
  exact ⟨entry, copied, by simp [reserved]⟩

/-- The clear pages below `max_pfn` are RAM and nothing else exactly if no open page
behind the page tables is a hole or met by an entry that `reserve_e820` passes over. -/
theorem only_ram_clear_iff {ram : Nat → Bool} {bios : BiosMap} {start : PageState}
    (wraps : ∀ entry ∈ bios.entries, entry.addr.toNat + entry.size.toNat < 2 ^ 64)
    (booted : initMm ram bios = some start) :
    (∀ page < start.mem.maxPfn, start.mem.bitmap page = false →
        InRam bios page ∧ ∀ entry ∈ bios.entries, entry.type ≠ e820Ram → ¬ Meets entry page) ↔
      ∀ page < maxPfnOf (copyE820 bios), afterTables (openPage bios) missingTables page = true →
        InRam bios page ∧ ∀ entry ∈ bios.entries, entry.type ≠ e820Ram → Meets entry page →
          ¬ PassedOver bios entry page := by
  have known := init_mm_bits booted
  rw [known.maxPfn]
  constructor
  · intro property page below behind
    have clear : start.mem.bitmap page = false := by
      rw [known.bits page below, behind]
      rfl
    obtain ⟨inRam, unmet⟩ := property page below clear
    exact ⟨inRam, fun entry member other meets _ => unmet entry member other meets⟩
  · intro condition page below clear
    rw [known.bits page below, Bool.not_eq_false'] at clear
    obtain ⟨inRam, taken⟩ := condition page below clear
    refine ⟨inRam, ?_⟩
    intro entry member other meets
    have reserved := reserved_when_met (wraps entry member) other meets
      (taken entry member other meets)
    unfold afterTables at clear
    rw [reserved] at clear
    cases clear

/-! ## Two machines -/

/-- If no entry is taken, every page behind the bitmap is open. -/
theorem open_untaken {bios : BiosMap} (untaken : ∀ entry ∈ copyE820 bios, entry.type = e820Ram ∨
      ulong (maxPfnOf (copyE820 bios) * pageSize) ≤ (entry.addr + entry.size).toNat) (page : Nat) :
    openPage bios page = decide (512 + acceptedPages (maxPfnOf (copyE820 bios)) 512 ≤ page) := by
  unfold openPage
  dsimp only
  have free : ((copyE820 bios).all fun entry =>
      !reservedBy (maxPfnOf (copyE820 bios)) entry page) = true := by
    rw [List.all_eq_true]
    intro entry member
    have skipped : ¬ (entry.type ≠ e820Ram ∧ (entry.addr + entry.size).toNat <
        ulong (maxPfnOf (copyE820 bios) * pageSize)) := by
      rintro ⟨other, below⟩
      rcases untaken entry member with same | above
      · exact other same
      · omega
    unfold reservedBy
    rw [decide_eq_false skipped]
    rfl
  rw [free, Bool.and_true]

theorem count_behind {open_ : Nat → Bool} {first : Nat}
    (behind : ∀ page, open_ page = decide (first ≤ page)) (page : Nat) :
    Nat.count (fun page => open_ page = true) page = page - first := by
  induction page with
  | zero => simp
  | succ page ih =>
      rw [Nat.count_succ, ih, behind page]
      simp only [decide_eq_true_eq]
      split_ifs <;> omega

/-- RAM up to 16 MB and a reserved range far above it. -/
def plainMap : BiosMap where
  entries := [{ addr := 0#64, size := 0x1000000#64, type := e820Ram },
    { addr := 0xF0000000#64, size := 0x10000#64, type := e820Reserved }]
  nonempty := by decide
  bound := by decide

theorem plain_map_max_pfn : maxPfnOf (copyE820 plainMap) = 4096 := by
  decide +kernel

theorem plain_map_behind (page : Nat) : openPage plainMap page = decide (513 ≤ page) := by
  have untaken : ∀ entry ∈ copyE820 plainMap, entry.type = e820Ram ∨
      ulong (4096 * pageSize) ≤ (entry.addr + entry.size).toNat := by
    decide +kernel
  have accepted : 512 + acceptedPages 4096 512 = 513 := by decide +kernel
  rw [open_untaken (by rw [plain_map_max_pfn]; exact untaken), plain_map_max_pfn, accepted]

theorem only_ram_clear_plain :
    ∃ start, initMm (fun _ => true) plainMap = some start ∧ start.mem.maxPfn = 4096 ∧
      ∀ page < start.mem.maxPfn, start.mem.bitmap page = false → InRam plainMap page ∧
        ∀ entry ∈ plainMap.entries, entry.type ≠ e820Ram → ¬ Meets entry page := by
  obtain ⟨start, booted⟩ := init_mm_ready (fun _ => true) plainMap
    (by rw [plain_map_max_pfn]; decide)
    (by rw [count_behind plain_map_behind, plain_map_max_pfn]; decide)
  refine ⟨start, booted, (init_mm_bits booted).maxPfn.trans plain_map_max_pfn,
    (only_ram_clear_iff (by decide) booted).mpr ?_⟩
  rw [plain_map_max_pfn]
  intro page below _
  constructor
  · refine ⟨_, List.mem_cons_self .., rfl, ?_⟩
    intro byte here
    unfold pageOf pageSize at here
    refine ⟨Nat.zero_le _, ?_⟩
    change byte < 0 + 0x1000000
    omega
  · intro entry member other meets
    simp only [plainMap, List.mem_cons, List.not_mem_nil, or_false] at member
    rcases member with rfl | rfl
    · exact absurd rfl other
    · obtain ⟨byte, here, low, _⟩ := meets
      unfold pageOf pageSize at here
      change 0xF0000000 ≤ byte at low
      omega

/-- RAM up to 16 MB and from 32 MB to 64 MB. -/
def holeMap : BiosMap where
  entries := [{ addr := 0x100000#64, size := 0xF00000#64, type := e820Ram },
    { addr := 0x2000000#64, size := 0x2000000#64, type := e820Ram }]
  nonempty := by decide
  bound := by decide

theorem copy_hole_map : copyE820 holeMap = holeMap.entries := by
  decide

theorem hole_map_max_pfn : maxPfnOf holeMap.entries = 16384 := by
  decide +kernel

/-- Page 5000 lies between the two parts of the RAM and is clear after the boot. -/
theorem hole_page_clear :
    ∃ start, initMm (fun _ => false) holeMap = some start ∧ 5000 < start.mem.maxPfn ∧
      start.mem.bitmap 5000 = false ∧ ¬ InRam holeMap 5000 := by
  have limit : maxPfnOf (copyE820 holeMap) = 16384 := by rw [copy_hole_map, hole_map_max_pfn]
  have untaken : ∀ entry ∈ copyE820 holeMap, entry.type = e820Ram ∨
      ulong (maxPfnOf (copyE820 holeMap) * pageSize) ≤ (entry.addr + entry.size).toNat := by
    rw [copy_hole_map]
    intro entry member
    left
    revert entry
    decide
  have behind : ∀ page, openPage holeMap page = decide (513 ≤ page) := by
    intro page
    have accepted : 512 + acceptedPages 16384 512 = 513 := by decide +kernel
    rw [open_untaken untaken, limit, accepted]
  obtain ⟨start, booted⟩ := init_mm_ready (fun _ => false) holeMap (by rw [limit]; decide)
    (by rw [count_behind behind, limit]; decide)
  have known := init_mm_bits booted
  rw [limit] at known
  refine ⟨start, booted, by rw [known.maxPfn]; decide, ?_, ?_⟩
  · rw [known.bits 5000 (by decide)]
    unfold afterTables
    rw [count_behind behind, behind]
    decide
  · rintro ⟨entry, member, _, holds⟩
    obtain ⟨low, high⟩ := holds (5000 * 4096) (by unfold pageOf pageSize; decide)
    simp only [holeMap, List.mem_cons, List.not_mem_nil, or_false] at member
    rcases member with rfl | rfl
    · exact absurd high (by decide)
    · exact absurd low (by decide)

end MirOs.BootMemory
