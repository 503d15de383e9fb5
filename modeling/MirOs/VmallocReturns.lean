import MirOs.VmallocFrames

/-!
# What the walks take and give back

The walk of `free_pgd` gives back the frame of every entry it clears; the walk of `setup_pgd`
takes one frame for every entry and one for every table that was missing, up to the page at
which it fails. The frames that it took from the bitmap are counted: that tells when it is
the last frame of 4 GB that is taken.
-/

namespace MirOs.VmallocTables

open MirOs.MachineWord MirOs.FirstFit MirOs.PageAllocModel MirOs.PageAllocEffect
open MirOs.PageBlocks MirOs.PageAccounting MirOs.BootMemory MirOs.Vmalloc MirOs.PageWalk
open MirOs.Reachability

set_option autoImplicit false

/-! ## Giving back -/

/-- When the walk from `first` comes to the page the cache is full, and the frame of the page
is the one that the page allocator refuses. -/
def Lost (s : VmState) (first page : Nat) : Prop :=
  frame (s.entry page) = topFrame ∧ pteCacheMax ≤ s.pteCache.length + (page - first)

section Giving

variable {s : VmState} {first last : Nat}

/-- The pages before `page` are mapped, as far as the walk from `first` has come. -/
def MappedTo (s : VmState) (first page : Nat) : Prop :=
  ∀ before, first ≤ before → before < page → s.entry before ≠ 0

/-- The frames of the pages before `page` are given back. -/
structure Returning (s t : VmState) (first last page : Nat) : Prop where
  pool : Pool t
  stacked : t.pteCache.length ≤ s.pteCache.length + (page - first)
  filled : MappedTo s first page →
    t.pteCache.length = min (s.pteCache.length + (page - first)) pteCacheMax
  kept : ∀ addr, Available s addr → Available t addr
  back : ∀ before, first ≤ before → before < page → s.entry before ≠ 0 → ¬ Lost s first before →
    Available t (frame (s.entry before))
  gone : ∀ before, first ≤ before → before < page → MappedTo s first (before + 1) →
    Lost s first before → ¬ Available t (frame (s.entry before))
  tables : ∀ slot, (t.initPgdir slot).map PageTable.page = (s.initPgdir slot).map PageTable.page
  ahead : ∀ behind, page ≤ behind → behind < last → t.entry behind = s.entry behind

theorem pte_free_tables (slot index other : Nat) :
    ((pteFree slot index s).initPgdir other).map PageTable.page =
      (s.initPgdir other).map PageTable.page := by
  unfold pteFree
  dsimp only
  split_ifs
  · rfl
  · rw [set_entry_tables, (pte_free_cache_fields s _).1]

/-- Pages without an entry have nothing to give back. -/
theorem returning_empty {t : VmState} {page next : Nat} (returning : Returning s t first last page)
    (lower : first ≤ page) (ordered : page < next) (inside : next ≤ last)
    (empty : ∀ behind, page ≤ behind → behind < next → t.entry behind = 0) :
    Returning s t first last next := by
  have unset : ∀ behind, page ≤ behind → behind < next → s.entry behind = 0 := by
    intro behind low high
    rw [← returning.ahead behind low (by omega)]
    exact empty behind low high
  refine ⟨returning.pool, ?_, ?_, returning.kept, ?_, ?_, returning.tables, ?_⟩
  · have stacked := returning.stacked
    omega
  · intro mapped
    exact absurd (unset page (Nat.le_refl _) ordered) (mapped page lower ordered)
  · intro before low high mapped found
    by_cases earlier : before < page
    · exact returning.back before low earlier mapped found
    · exact absurd (unset before (by omega) high) mapped
  · intro before low high mapped lost
    by_cases earlier : before < page
    · exact returning.gone before low earlier mapped lost
    · exact absurd (unset before (by omega) high) (mapped before low (Nat.lt_succ_self _))
  · intro behind low high
    exact returning.ahead behind (by omega) high

/-- Different pages of the window have different frames. -/
theorem same_frame (inv : VmInv s) {page other : Nat} (inPage : windowSlot * 1024 ≤ page)
    (inOther : windowSlot * 1024 ≤ other) (mapped : s.entry page ≠ 0) (there : s.entry other ≠ 0)
    (same : frame (s.entry page) = frame (s.entry other)) : page = other :=
  Owner.mapped.inj (inv.single (.mapped page) (.mapped other) _ ⟨inPage, mapped, rfl⟩
    ⟨inOther, there, same.symm⟩)

/-- One round of `free_pte` on an entry that is set. -/
theorem returning_visit {t : VmState} {page : Nat} (inv : VmInv s)
    (clearing : Clearing s t first last page) (returning : Returning s t first last page)
    (window : windowSlot * 1024 ≤ first) (lower : first ≤ page) (upper : page < last)
    (mapped : t.entry page ≠ 0) :
    Returning s (pteFree (page / 1024) (page % 1024) t) first last (page + 1) := by
  have inWindow : windowSlot ≤ page / 1024 := by
    unfold windowSlot at *
    omega
  have index := Nat.mod_lt page (by decide : 0 < 1024)
  have cleared := pte_free_cleared clearing.outside.inv inWindow index
  rw [← page_split page] at mapped
  have given := pte_free_back clearing.outside.inv returning.pool inWindow index mapped
  have here := returning.ahead page (Nat.le_refl _) upper
  rw [page_split, here] at given mapped
  rw [page_split] at cleared
  have length := given.length
  have stacked := returning.stacked
  refine ⟨given.pool, by omega, ?_, fun addr old => given.kept addr (returning.kept addr old),
    ?_, ?_, ?_, ?_⟩
  · intro all
    have filled := returning.filled fun before low high => all before low (by omega)
    omega
  · intro before low high wasMapped found
    by_cases earlier : before < page
    · exact given.kept _ (returning.back before low earlier wasMapped found)
    obtain rfl : before = page := by omega
    rw [given.back]
    by_cases top : frame (s.entry before) = topFrame
    · right
      have room : ¬ pteCacheMax ≤ s.pteCache.length + (before - first) :=
        fun full => found ⟨top, full⟩
      omega
    · exact Or.inl top
  · intro before low high all lost there
    by_cases earlier : before < page
    · rcases given.only _ there with old | same
      · exact returning.gone before low earlier all lost old
      · have pages := same_frame inv (Nat.le_trans window low) (Nat.le_trans window lower)
          (all before low (Nat.lt_succ_self _)) mapped same
        exact absurd pages (Nat.ne_of_lt earlier)
    obtain rfl : before = page := by omega
    have filled := returning.filled fun other below above => all other below (by omega)
    obtain ⟨top, full⟩ := lost
    rcases given.back.mp there with other | room
    · exact other top
    · omega
  · intro slot
    rw [pte_free_tables, returning.tables]
  · intro behind low high
    rw [cleared.others behind (by omega)]
    exact returning.ahead behind (by omega) high

theorem return_rule (inv : VmInv s) (last : Nat) (window : windowSlot * 1024 ≤ first) :
    WalkRule pgdNone pmdPresent freeEntry first last
      (fun page t => Clearing s t first last page ∧ Returning s t first last page)
      (fun page t => Clearing s t first last page ∧ Returning s t first last page)
      (fun _ => False) where
  skipped := by
    rintro page t lower upper ⟨clearing, returning⟩ absent
    refine ⟨(free_rule s last window).skipped page t lower upper clearing absent, ?_⟩
    refine returning_empty returning lower (by omega) (Nat.min_le_right _ _) ?_
    intro behind low high
    apply entry_of_none
    have slotEq : behind / 1024 = page / 1024 := by omega
    rw [slotEq]
    exact Option.isNone_iff_eq_none.mp absent
  enters := by
    rintro page t lower upper ⟨clearing, returning⟩ present
    unfold pmdPresent
    unfold pgdNone at present
    rw [present]
    exact ⟨fun negative => absurd negative (by simp), fun _ => ⟨clearing, returning⟩⟩
  visits := by
    rintro page t lower upper ⟨clearing, returning⟩
    obtain ⟨never, still⟩ := (free_rule s last window).visits page t lower upper clearing
    refine ⟨never, fun success => ?_⟩
    obtain ⟨next, _⟩ := still success
    have given : Returning s (freeEntry (page / 1024) (page % 1024) t).2 first last (page + 1) := by
      unfold freeEntry
      dsimp only
      by_cases mapped : t.entry page = 0
      · rw [pte_free_empty (by rw [page_split]; exact mapped)]
        refine returning_empty returning lower (Nat.lt_succ_self _) upper ?_
        intro behind low high
        obtain rfl : behind = page := by omega
        exact mapped
      · exact returning_visit inv clearing returning window lower upper mapped
    exact ⟨⟨next, given⟩, fun _ => ⟨next, given⟩⟩

/-- `free_pgd` empties the range and gives back what it mapped. -/
theorem free_pgd_returns (inv : VmInv s) (pool : Pool s) (window : windowSlot * 1024 ≤ first)
    (ordered : first < last) (top : last * 4096 + 4194304 ≤ 2 ^ 32) :
    ∃ err t, freePgd (first * 4096) ((last - first) * 4096) s = some (err, t) ∧
      Clearing s t first last last ∧ Returning s t first last last := by
  have room := pool.room
  have start : Clearing s s first last first ∧ Returning s s first last first :=
    ⟨⟨⟨inv, fun _ _ => rfl, rfl⟩, fun _ lower upper => absurd upper (Nat.not_lt.mpr lower)⟩,
      ⟨pool, Nat.le_add_right _ _, fun _ => by omega, fun _ old => old,
        fun _ lower upper => absurd upper (Nat.not_lt.mpr lower),
        fun _ lower upper => absurd upper (Nat.not_lt.mpr lower), fun _ => rfl, fun _ _ _ => rfl⟩⟩
  obtain ⟨⟨err, t⟩, ends, outcome⟩ := walk_pgd_rule (return_rule inv last window) ordered top start
  rcases outcome with ⟨_, impossible⟩ | ⟨_, clearing, returning⟩
  · exact impossible.elim
  · exact ⟨err, t, ends, clearing, returning⟩

end Giving

/-! ## Taking -/

/-- The tables that are missing for the slots from `low` up to `high`. -/
def absentTables (s : VmState) (low high : Nat) : Nat :=
  (List.range' low (high - low)).countP fun slot => (s.initPgdir slot).isNone

/-- The walk from `first` takes the last frame of 4 GB for the page: the frame is free, and
the tables and pages up to this one use up the cache and all free frames. -/
def TakesTop (s : VmState) (first page : Nat) : Prop :=
  FreeFrame s.pages.mem topFrame ∧
    absentTables s (first / 1024) (page / 1024 + 1) + (page - first) + 1 =
      freeFrames s + s.pteCache.length

section Taking

variable {s : VmState} {first last : Nat}

theorem absent_tables_next (s : VmState) {low high : Nat} (ordered : low ≤ high) :
    absentTables s low (high + 1) =
      absentTables s low high + if (s.initPgdir high).isNone then 1 else 0 := by
  have length : high + 1 - low = high - low + 1 := by omega
  have end_ : low + (high - low) = high := by omega
  unfold absentTables
  rw [length, List.range'_1_concat, List.countP_append, end_, List.countP_singleton]

/-- The pages before `page` have taken a frame each. -/
structure Drawing (s t : VmState) (first last page : Nat) : Prop where
  pool : Pool t
  cache : t.pteCache = s.pteCache.drop (page - first)
  kept : ∀ addr, Available s addr → Available t addr ∨
    (∃ before, first ≤ before ∧ before < page ∧ t.entry before ≠ 0 ∧
      frame (t.entry before) = addr) ∨
    (∃ slot, first / 1024 ≤ slot ∧ slot ≤ (last - 1) / 1024 ∧ s.initPgdir slot = none ∧
      (t.initPgdir slot).map PageTable.page = some addr)
  older : ∀ addr, FreeFrame t.pages.mem addr → FreeFrame s.pages.mem addr
  tables : ∀ slot, (s.initPgdir slot).isSome →
    (t.initPgdir slot).map PageTable.page = (s.initPgdir slot).map PageTable.page
  vacant : ∀ behind, page ≤ behind → behind < last → t.entry behind = 0
  top : ∀ before, first ≤ before → before < page → frame (t.entry before) = topFrame →
    pteCacheMax ≤ before - first → TakesTop s first before

/-- The tables below `slots` are there, and the free frames used up so far are counted. -/
structure Counted (s t : VmState) (first page slots : Nat) : Prop where
  low : first / 1024 ≤ slots
  present : ∀ slot, (t.initPgdir slot).isSome ↔
    (s.initPgdir slot).isSome ∨ (first / 1024 ≤ slot ∧ slot < slots)
  count : freeFrames t + absentTables s (first / 1024) slots +
    (page - first - s.pteCache.length) = freeFrames s

theorem drawing_tables {t : VmState} {page slot : Nat} (drawing : Drawing s t first last page)
    (absent : t.initPgdir slot = none) : s.initPgdir slot = none := by
  cases present : s.initPgdir slot with
  | none => rfl
  | some table =>
      have same := drawing.tables slot (by rw [present]; rfl)
      rw [absent, present] at same
      cases same

/-- A page request that is refused. -/
theorem drawing_refused {t u : VmState} {page : Nat} (drawing : Drawing s t first last page)
    (pool : Pool u) (tables : u.initPgdir = t.initPgdir)
    (cache : u.pteCache = t.pteCache)
    (kept : ∀ addr, Available t addr → Available u addr)
    (older : ∀ addr, FreeFrame u.pages.mem addr → FreeFrame t.pages.mem addr) :
    Drawing s u first last page := by
  have entries := entry_congr tables
  refine ⟨pool, cache.trans drawing.cache, ?_, fun addr free => drawing.older addr (older addr free),
    ?_, ?_, ?_⟩
  · intro addr old
    rcases drawing.kept addr old with available | ⟨before, low, high, mapped, isFrame⟩ | table
    · exact Or.inl (kept addr available)
    · rw [← entries] at mapped isFrame
      exact Or.inr (Or.inl ⟨before, low, high, mapped, isFrame⟩)
    · rw [← tables] at table
      exact Or.inr (Or.inr table)
  · rw [tables]
    exact drawing.tables
  · intro behind low high
    rw [entries]
    exact drawing.vacant behind low high
  · intro before low high isTop
    rw [entries] at isTop
    exact drawing.top before low high isTop

/-- A table for a slot that had none takes a free frame. -/
theorem drawing_table {t u : VmState} {addr page : Nat} (drawing : Drawing s t first last page)
    (lower : first ≤ page) (upper : page < last) (absent : t.initPgdir (page / 1024) = none)
    (fetched : Fetched t u addr) (tables : u.initPgdir = t.initPgdir) :
    Drawing s (u.setTable (page / 1024) ⟨addr, fun _ => 0⟩) first last page := by
  have missing : u.initPgdir (page / 1024) = none := by
    rw [tables]
    exact absent
  have entries : ∀ other,
      (u.setTable (page / 1024) ⟨addr, fun _ => 0⟩).entry other = t.entry other :=
    fun other => (entry_set_table missing).trans (entry_congr tables other)
  have others : ∀ slot, slot ≠ page / 1024 →
      (u.setTable (page / 1024) ⟨addr, fun _ => 0⟩).initPgdir slot = t.initPgdir slot := by
    intro slot other
    rw [← tables]
    exact Function.update_of_ne other _ _
  refine ⟨⟨fetched.pool.ram, fetched.pool.room⟩, fetched.cache.trans drawing.cache, ?_,
    fun other free => drawing.older other (fetched.older other free), ?_, ?_, ?_⟩
  · intro other old
    rcases drawing.kept other old with available | ⟨before, low, high, mapped, isFrame⟩ |
      ⟨slot, low, high, new, isPage⟩
    · rcases fetched.kept other available with still | ⟨_, rfl⟩
      · exact Or.inl still
      · refine Or.inr (Or.inr ⟨page / 1024, by omega, by omega, drawing_tables drawing absent, ?_⟩)
        unfold VmState.setTable
        dsimp only
        rw [Function.update_self]
        rfl
    · rw [← entries] at mapped isFrame
      exact Or.inr (Or.inl ⟨before, low, high, mapped, isFrame⟩)
    · have different : slot ≠ page / 1024 := by
        rintro rfl
        rw [absent] at isPage
        cases isPage
      rw [← others slot different] at isPage
      exact Or.inr (Or.inr ⟨slot, low, high, new, isPage⟩)
  · intro slot present
    have different : slot ≠ page / 1024 := by
      rintro rfl
      rw [drawing_tables drawing absent] at present
      exact Bool.noConfusion present
    rw [others slot different]
    exact drawing.tables slot present
  · intro behind low high
    rw [entries]
    exact drawing.vacant behind low high
  · intro before low high isTop
    rw [entries] at isTop
    exact drawing.top before low high isTop

theorem counted_enter {t : VmState} {page slots : Nat} (counted : Counted s t first page slots)
    (near : page / 1024 ≤ slots ∧ slots ≤ page / 1024 + 1) (present : (t.initPgdir (page / 1024)).isSome) : Counted s t first page (page / 1024 + 1) := by
  by_cases done : slots = page / 1024 + 1
  · rw [← done]
    exact counted
  obtain rfl : slots = page / 1024 := by omega
  have old : (s.initPgdir (page / 1024)).isSome := by
    rcases (counted.present _).mp present with old | ⟨_, impossible⟩
    · exact old
    · exact absurd impossible (Nat.lt_irrefl _)
  have low := counted.low
  refine ⟨by omega, ?_, ?_⟩
  · intro slot
    rw [counted.present]
    constructor
    · rintro (there | ⟨above, below⟩)
      · exact Or.inl there
      · exact Or.inr ⟨above, by omega⟩
    · rintro (there | ⟨above, below⟩)
      · exact Or.inl there
      · by_cases here : slot = page / 1024
        · rw [here]
          exact Or.inl old
        · exact Or.inr ⟨above, by omega⟩
  · have count := counted.count
    have isNone : (s.initPgdir (page / 1024)).isNone = false := by
      rw [← Option.not_isSome, old]
      rfl
    rw [absent_tables_next s low, isNone, if_neg Bool.false_ne_true]
    exact count

theorem counted_table {t u : VmState} {addr page slots : Nat}
    (counted : Counted s t first page slots) (drawing : Drawing s t first last page)
    (lower : first ≤ page) (near : page / 1024 ≤ slots ∧ slots ≤ page / 1024 + 1)
    (absent : t.initPgdir (page / 1024) = none) (fetched : Fetched t u addr) (nonnull : addr ≠ 0)
    (tables : u.initPgdir = t.initPgdir) :
    Counted s (u.setTable (page / 1024) ⟨addr, fun _ => 0⟩) first page (page / 1024 + 1) := by
  have low := counted.low
  have slotsEq : slots = page / 1024 := by
    by_contra other
    have there := (counted.present (page / 1024)).mpr (Or.inr ⟨by omega, by omega⟩)
    rw [absent] at there
    exact Bool.noConfusion there
  subst slotsEq
  refine ⟨by omega, ?_, ?_⟩
  · intro slot
    by_cases here : slot = page / 1024
    · rw [here]
      unfold VmState.setTable
      dsimp only
      rw [Function.update_self]
      exact ⟨fun _ => Or.inr ⟨low, Nat.lt_succ_self _⟩, fun _ => rfl⟩
    · have same : (u.setTable (page / 1024) ⟨addr, fun _ => 0⟩).initPgdir slot =
          t.initPgdir slot := by
        rw [← tables]
        exact Function.update_of_ne here _ _
      rw [same, counted.present]
      have below : slot < page / 1024 ↔ slot < page / 1024 + 1 := by omega
      rw [below]
  · have count := counted.count
    have one := fetched.count nonnull
    have isNone : (s.initPgdir (page / 1024)).isNone = true := by
      rw [drawing_tables drawing absent]
      rfl
    have same : freeFrames (u.setTable (page / 1024) ⟨addr, fun _ => 0⟩) = freeFrames u := rfl
    rw [absent_tables_next s low, isNone, if_pos rfl, same]
    omega

/-- A page is taken for an empty entry of a table that is there. -/
theorem drawing_page {t u : VmState} {addr page : Nat} {table : PageTable}
    (drawing : Drawing s t first last page)
    (counted : Counted s t first page (page / 1024 + 1)) (room : s.pteCache.length ≤ pteCacheMax)
    (lower : first ≤ page) (present : u.initPgdir (page / 1024) = some table)
    (data : DataPage t u addr) (aligned : addr % 4096 = 0)
    (tables : u.initPgdir = t.initPgdir) :
    Drawing s (u.setEntry (page / 1024) (page % 1024) (addr ||| pageUser)) first last
      (page + 1) := by
  obtain ⟨nonzero, isAddr⟩ := frame_user aligned
  have index := Nat.mod_lt page (by decide : 0 < 1024)
  have self := @entry_set_self u _ _ (addr ||| pageUser) table present index
  rw [page_split] at self
  have others : ∀ other, other ≠ page →
      (u.setEntry (page / 1024) (page % 1024) (addr ||| pageUser)).entry other =
        t.entry other := by
    intro other different
    rw [entry_set_other (by rw [page_split]; exact different), entry_congr tables]
  have length := congrArg List.length drawing.cache
  rw [List.length_drop] at length
  refine ⟨⟨data.pool.ram, data.pool.room⟩, ?_, ?_,
    fun other free => drawing.older other (data.older other free), ?_, ?_, ?_⟩
  · show u.pteCache = _
    have next : page + 1 - first = page - first + 1 := by omega
    rw [data.cache, drawing.cache, List.drop_drop, next]
  · intro other old
    rcases drawing.kept other old with available | ⟨before, low, high, mapped, isFrame⟩ |
      ⟨slot, low, high, new, isPage⟩
    · rcases data.kept other available with still | ⟨_, rfl⟩
      · exact Or.inl still
      · refine Or.inr (Or.inl ⟨page, lower, Nat.lt_succ_self _, ?_, ?_⟩)
        · rw [self]
          exact nonzero
        · rw [self]
          exact isAddr
    · rw [← others before (Nat.ne_of_lt high)] at mapped isFrame
      exact Or.inr (Or.inl ⟨before, low, Nat.lt_succ_of_lt high, mapped, isFrame⟩)
    · rw [← tables, ← set_entry_tables] at isPage
      exact Or.inr (Or.inr ⟨slot, low, high, new, isPage⟩)
  · intro slot there
    rw [set_entry_tables, tables]
    exact drawing.tables slot there
  · intro behind low high
    rw [others behind (by omega)]
    exact drawing.vacant behind (by omega) high
  · intro before low high isTop far
    by_cases earlier : before < page
    · rw [others before (Nat.ne_of_lt earlier)] at isTop
      exact drawing.top before low earlier isTop far
    obtain rfl : before = page := by omega
    rw [self, isAddr] at isTop
    -- the cache is used up, so this is the lowest free frame and no other is left
    have used : t.pteCache = [] := List.length_eq_zero_iff.mp (by omega)
    obtain ⟨free, single⟩ := data.last isTop used
    have count := counted.count
    exact ⟨drawing.older _ free, by omega⟩

theorem counted_page {t u : VmState} {addr page : Nat}
    (drawing : Drawing s t first last page)
    (counted : Counted s t first page (page / 1024 + 1)) (lower : first ≤ page)
    (data : DataPage t u addr) (nonnull : addr ≠ 0) (tables : u.initPgdir = t.initPgdir) :
    Counted s (u.setEntry (page / 1024) (page % 1024) (addr ||| pageUser)) first (page + 1)
      (page / 1024 + 1) := by
  refine ⟨counted.low, ?_, ?_⟩
  · intro slot
    rw [set_entry_present, tables]
    exact counted.present slot
  · have count := counted.count
    have one := data.count nonnull
    have length := congrArg List.length drawing.cache
    rw [List.length_drop] at length
    have same : freeFrames (u.setEntry (page / 1024) (page % 1024) (addr ||| pageUser)) =
      freeFrames u := rfl
    rw [same]
    omega

/-- Between two pages of the walk. -/
structure Underway (s t : VmState) (first last page slots : Nat) : Prop where
  mapping : Mapping s t first last page
  drawing : Drawing s t first last page
  counted : Counted s t first page slots

theorem draw_rule (room : s.pteCache.length ≤ pteCacheMax) :
    WalkRule (fun _ _ => false) pteAlloc setupEntry first last
      (fun page t => ∃ slots, (page / 1024 ≤ slots ∧ slots ≤ page / 1024 + 1) ∧
        Underway s t first last page slots)
      (fun page t => Underway s t first last page (page / 1024 + 1) ∧
        (t.initPgdir (page / 1024)).isSome)
      (fun t => Outside s t first last ∧ ∃ page < last, Drawing s t first last page) where
  skipped := fun _ _ _ _ _ skipped => Bool.noConfusion skipped
  enters := by
    rintro page t lower upper ⟨slots, near, mapping, drawing, counted⟩ _
    obtain ⟨refused, done⟩ := (setup_rule s first last).enters page t lower upper mapping rfl
    cases there : t.initPgdir (page / 1024) with
    | some table =>
        have same : pteAlloc (page / 1024) t = (0, t) := by
          unfold pteAlloc
          rw [there]
        rw [same] at done ⊢
        refine ⟨fun negative => absurd negative (by simp), fun success => ?_⟩
        obtain ⟨still, present⟩ := done success
        exact ⟨⟨still, drawing, counted_enter counted near present⟩, present⟩
    | none =>
        have fetched := get_free_page_fetched mapping.outside.inv mapping.unmerged drawing.pool
        have tables : (getFreePage t).2.initPgdir = t.initPgdir := rfl
        have result : pteAlloc (page / 1024) t =
            if (getFreePage t).1 = 0 then (-1, (getFreePage t).2)
            else (0, (getFreePage t).2.setTable (page / 1024) ⟨(getFreePage t).1, fun _ => 0⟩) := by
          unfold pteAlloc
          rw [there]
        rw [result] at refused done ⊢
        generalize getFreePage t = taken at *
        by_cases null : taken.1 = 0
        · rw [if_pos null] at refused ⊢
          refine ⟨fun negative => ⟨refused negative, page, upper, ?_⟩,
            fun success => absurd success (by simp)⟩
          refine drawing_refused drawing fetched.pool tables fetched.cache ?_ fetched.older
          intro addr available
          exact (fetched.kept addr available).resolve_right fun new => new.1 null
        · rw [if_neg null] at done ⊢
          refine ⟨fun negative => absurd negative (by simp), fun success => ?_⟩
          obtain ⟨still, present⟩ := done success
          exact ⟨⟨still, drawing_table drawing lower upper there fetched tables,
            counted_table counted drawing lower near there fetched null tables⟩, present⟩
  visits := by
    rintro page t lower upper ⟨⟨mapping, drawing, counted⟩, present⟩
    obtain ⟨refused, done⟩ :=
      (setup_rule s first last).visits page t lower upper ⟨mapping, present⟩
    have data := pte_alloc_page_data mapping.outside.inv mapping.unmerged drawing.pool
    have taken := pte_alloc_page_taken mapping.outside.inv mapping.unmerged
    have tables := pte_alloc_page_tables t
    have empty : t.entry (page / 1024 * 1024 + page % 1024) = 0 := by
      rw [page_split]
      exact drawing.vacant page (Nat.le_refl _) upper
    rw [setup_entry_empty empty] at refused done ⊢
    generalize pteAllocPage t = got at *
    by_cases null : got.1 = 0
    · rw [if_pos null] at refused ⊢
      refine ⟨fun negative => ⟨refused negative, page, upper, ?_⟩,
        fun success => absurd success (by simp)⟩
      have used := data.null null
      have cache : got.2.pteCache = t.pteCache := by
        rw [data.cache, used]
        rfl
      refine drawing_refused drawing data.pool tables cache ?_ data.older
      intro addr available
      exact (data.kept addr available).resolve_right fun new => new.1 null
    · rw [if_neg null] at done ⊢
      refine ⟨fun negative => absurd negative (by simp), fun success => ?_⟩
      obtain ⟨still, inTable⟩ := done success
      rw [← tables] at present
      obtain ⟨table, isTable⟩ := Option.isSome_iff_exists.mp present
      have next := drawing_page drawing counted room lower isTable data
        (taken.spare null).held.aligned tables
      have more := counted_page drawing counted lower data null tables
      refine ⟨⟨page / 1024 + 1, by omega, still, next, more⟩, fun same => ?_⟩
      have slotEq : (page + 1) / 1024 = page / 1024 := by omega
      obtain ⟨_, sameTable⟩ := inTable same
      refine ⟨⟨still, next, ?_⟩, sameTable⟩
      rw [slotEq]
      exact more

/-- `setup_pgd` maps the range, or fails at some page of it. -/
theorem setup_pgd_draws (inv : VmInv s) (unmerged : Unmerged s) (pool : Pool s)
    (ordered : first < last) (top : last * 4096 + 4194304 ≤ 2 ^ 32)
    (vacant : ∀ page, first ≤ page → page < last → s.entry page = 0) :
    ∃ err t, setupPgd (first * 4096) ((last - first) * 4096) s = some (err, t) ∧
      Outside s t first last ∧
      ∃ page, Drawing s t first last page ∧ (err < 0 → page < last) := by
  have start : Underway s s first last first (first / 1024) := by
    refine ⟨⟨⟨inv, fun _ _ => rfl, rfl⟩, unmerged, fun _ lower upper => absurd upper (Nat.not_lt.mpr lower),
      vacant⟩, ⟨pool, ?_, fun _ old => Or.inl old, fun _ old => old, fun _ _ => rfl, vacant,
        fun _ lower upper => absurd upper (Nat.not_lt.mpr lower)⟩, Nat.le_refl _, ?_, ?_⟩
    · rw [Nat.sub_self]
      rfl
    · intro slot
      refine ⟨Or.inl, ?_⟩
      rintro (there | ⟨above, below⟩)
      · exact there
      · exact absurd above (Nat.not_le.mpr below)
    · unfold absentTables
      rw [Nat.sub_self, Nat.sub_self, Nat.zero_sub]
      rfl
  obtain ⟨⟨err, t⟩, ends, outcome⟩ := walk_pgd_rule (draw_rule pool.room) ordered top
    ⟨_, ⟨Nat.le_refl _, Nat.le_succ _⟩, start⟩
  refine ⟨err, t, ends, ?_⟩
  rcases outcome with ⟨_, outside, page, upper, drawing⟩ | ⟨zero, _, _, mapping, drawing, _⟩
  · exact ⟨outside, page, drawing, fun _ => upper⟩
  · have never : ¬ err < 0 := Int.not_lt.mpr (Int.le_of_eq zero.symm)
    exact ⟨mapping.outside, last, drawing, fun negative => absurd negative never⟩

end Taking

end MirOs.VmallocTables
