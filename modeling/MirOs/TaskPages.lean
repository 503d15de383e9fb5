import MirOs.PidTable
import MirOs.PageBlocks
import MirOs.SlabGeometry

/-!
# The pages of task structures

A task structure and its stack take `THREAD_SIZE` bytes, which `create_task_name` gets
from the page allocator with the order that `get_order` computes. A creation that fails
later and the reaper of an exited task give the block back with order 1, which is half of
it. The ledger of a run keeps the blocks that were given back.
-/

namespace MirOs.TaskPages

set_option autoImplicit false

open MirOs.PageAllocModel MirOs.PageAllocEffect MirOs.ProcessModel
open MirOs.FirstFit (FreeRun)

/-- `THREAD_SIZE`. -/
def threadSize : Nat := 16384

/-- The order of the source's call `get_order(THREAD_SIZE)`. -/
def threadOrder : Int := (SlabGeometry.getOrder threadSize).getD 0

/-- The order `create_task_name` and `task_reaper` free with. -/
def freeOrder : Int := 1

/-- The allocator and the tasks, which are addresses; `returned` are the blocks that a failed
creation or a reaper gave back. -/
structure PageSystem where
  mem : MemAlloc
  procs : Processes Nat
  alive : List Nat
  unreaped : List Nat
  returned : List Nat

inductive PageEvent where
  | create (current : Nat) (copied : Bool)
  | exit (task : Nat)
  | reap (task : Nat)

/-- `create_task_name` past the test of `max_tasks`. -/
def createWithPages (maxThreads : Int) (m : PageSystem) (current : Nat) (copied : Bool) :
    PageSystem :=
  let area := getFreePages m.mem threadOrder
  if area.1 = 0 then { m with mem := area.2 }
  else
    match createTaskName maxThreads m.procs current (some area.1) copied with
    | (true, procs) =>
        { m with
          mem := area.2
          procs := procs
          alive := m.alive ++ [area.1] }
    | (false, procs) =>
        { m with
          mem := (freePages area.2 area.1 freeOrder).2
          procs := procs
          returned := area.1 :: m.returned }

def pageStep (init : Nat) (maxThreads : Int) (m : PageSystem) : PageEvent → Option PageSystem
  | .create current copied =>
      if current ∈ m.alive then
        if maxThreads ≤ m.procs.maxTasks then some m
        else some (createWithPages maxThreads m current copied)
      else none
  | .exit task =>
      if task ∈ m.alive then
        match exitTask init m.procs task with
        | (true, procs) =>
            some { m with
              procs := procs
              alive := m.alive.erase task
              unreaped := m.unreaped ++ [task] }
        | (false, procs) => some { m with procs := procs }
      else none
  | .reap task =>
      if task ∈ m.unreaped then
        some { m with
          mem := (freePages m.mem task freeOrder).2
          unreaped := m.unreaped.erase task
          returned := task :: m.returned }
      else none

/-- A page of the block of a task. -/
def InBlock (task page : Nat) : Prop :=
  task ≤ page * pageSize ∧ page * pageSize < task + threadSize

/-- A page that a free with order 1 leaves of the block. -/
def InRest (task page : Nat) : Prop :=
  task + orderSize freeOrder ≤ page * pageSize ∧ page * pageSize < task + threadSize

/-- Tasks whose structure is in allocated memory; `init` is part of the kernel. -/
def Held (init : Nat) (m : PageSystem) (task : Nat) : Prop :=
  task ∈ m.alive ∧ task ≠ init ∨ task ∈ m.unreaped

/-- The allocator and the tasks at the start: only `init` lives, its page and the null page are
reserved, and no allocation waits to be merged. -/
structure Booted (init : Nat) (m : PageSystem) : Prop where
  placed : Placed m.mem
  whole : m.mem.lastOffset = 0
  null : m.mem.bitmap 0 = true
  kernel : m.mem.bitmap (init / pageSize) = true
  pid : (m.procs.tasks init).pid = 1
  alive : m.alive = [init]
  unreaped : m.unreaped = []
  returned : m.returned = []

/-- The bits that the run has set are those of the tasks alive or waiting for their reaper. -/
def Conserved (init : Nat) (start m : PageSystem) : Prop :=
  ∀ page, m.mem.bitmap page = true ↔
    start.mem.bitmap page = true ∨ ∃ task, Held init m task ∧ InBlock task page

structure PageInv (init : Nat) (start m : PageSystem) : Prop where
  placed : Placed m.mem
  whole : m.mem.lastOffset = 0
  null : start.mem.bitmap 0 = true
  kernel : start.mem.bitmap (init / pageSize) = true
  pid : (m.procs.tasks init).pid = 1
  nodup : (m.alive ++ m.unreaped).Nodup
  member : init ∈ m.alive
  bits : ∀ page, m.mem.bitmap page = true ↔
    start.mem.bitmap page = true ∨ (∃ task, Held init m task ∧ InBlock task page) ∨
      ∃ task ∈ m.returned, InRest task page
  aligned : ∀ task, Held init m task ∨ task ∈ m.returned →
    task % pageSize = 0 ∧ task + threadSize ≤ m.mem.endPfn * pageSize ∧ task ≠ 0
  own : ∀ task page, Held init m task → InBlock task page → start.mem.bitmap page = false
  apart : ∀ task other page, Held init m task → Held init m other → InBlock task page →
    InBlock other page → task = other
  rest_own : ∀ task page, task ∈ m.returned → InRest task page → start.mem.bitmap page = false
  rest_apart : ∀ task other page, Held init m task → other ∈ m.returned → InBlock task page →
    ¬ InRest other page

theorem boot_inv {init : Nat} {start : PageSystem} (booted : Booted init start) :
    PageInv init start start := by
  have none_held : ∀ task, ¬ Held init start task := by
    rintro task (⟨alive, other⟩ | waiting)
    · rw [booted.alive, List.mem_singleton] at alive
      exact other alive
    · rw [booted.unreaped] at waiting
      cases waiting
  have none_returned : ∀ task, task ∉ start.returned := by
    rw [booted.returned]
    exact fun _ => List.not_mem_nil
  refine ⟨booted.placed, booted.whole, booted.null, booted.kernel, booted.pid, ?_, ?_, ?_, ?_, ?_,
    ?_, ?_, ?_⟩
  · rw [booted.alive, booted.unreaped]
    simp
  · rw [booted.alive]
    simp
  · intro page
    simp [none_held, none_returned]
  · rintro task (held | returned)
    · exact absurd held (none_held task)
    · exact absurd returned (none_returned task)
  · intro task page held
    exact absurd held (none_held task)
  · intro task other page held
    exact absurd held (none_held task)
  · intro task page returned
    exact absurd returned (none_returned task)
  · intro task other page held
    exact absurd held (none_held task)

/-! ## The allocator at whole pages -/

theorem thread_order_eq : threadOrder = 2 := by decide +kernel

theorem thread_order_size : orderSize threadOrder = threadSize := by
  rw [thread_order_eq]
  decide +kernel

theorem free_order_size : orderSize freeOrder = 8192 := by decide +kernel

theorem thread_pages : pagesUp threadSize = 4 := by decide +kernel

theorem in_block_iff (start page : Nat) :
    InBlock (start * pageSize) page ↔ start ≤ page ∧ page < start + 4 := by
  unfold InBlock threadSize
  rw [page_size_eq]
  omega

/-- Without a position to merge at, only the region matters. -/
theorem placed_whole {mem after : MemAlloc} (placed : Placed mem) (region : SameRegion mem after)
    (whole : after.lastOffset = 0) : Placed after where
  base := region.memStart.trans placed.base
  limit := by
    rw [region.endPfn]
    exact placed.limit
  offset := by
    rw [whole]
    exact page_size_positive
  position := fun live => absurd whole live

/-- What a successful allocation of a block does. -/
structure Allocated (mem after : MemAlloc) (start : Nat) : Prop where
  run : FreeRun mem.bitmap mem.endPfn start 4
  region : SameRegion mem after
  bits : after.bitmap = setRange mem.bitmap start (start + 4)
  whole : after.lastOffset = 0

theorem raw_thread_pages {mem : MemAlloc} (placed : Placed mem) (whole : mem.lastOffset = 0) :
    rawAllocMemAllocator mem threadSize 0 = (0, mem) ∨
      ∃ start, (rawAllocMemAllocator mem threadSize 0).1 = start * pageSize ∧
        Allocated mem (rawAllocMemAllocator mem threadSize 0).2 start := by
  unfold rawAllocMemAllocator
  rw [thread_pages]
  cases found : contiguousScan mem 4 with
  | none => exact .inl rfl
  | some start =>
      right
      have run := contiguous_scan_sound (by decide) found
      have apart : merges mem 0 start = false := by simp [merges, whole]
      have small : start + 4 ≤ 2 ^ 20 := Nat.le_trans run.1 placed.limit
      have addr : MachineWord.ulong (mem.memStart + physAddr start) = start * pageSize := by
        have fits : MachineWord.ulong (start * pageSize) = start * pageSize := by
          apply MachineWord.ulong_of_lt
          rw [page_size_eq]
          omega
        unfold physAddr
        rw [placed.base, Nat.zero_add, fits, fits]
      have region := op_mem_allocator_region (freshAllocation mem threadSize 4 start).2.2 start
        (start + 4) .reserve
      dsimp only
      rw [apart, if_neg Bool.false_ne_true]
      have accepted := reserve_rest_accepted (freshAllocation mem threadSize 4 start).2.2
        (freshAllocation mem threadSize 4 start).1 (Nat.succ_ne_zero 3) placed.limit run.1
      have pages : (freshAllocation mem threadSize 4 start).2.1 = 4 := rfl
      rw [pages, accepted]
      refine ⟨start, addr, run, ⟨region.1.endPfn, region.1.memStart, region.1.maxPfn⟩, ?_, ?_⟩
      · exact reserve_bits _ start (start + 4) (Nat.le_add_right _ _) run.1
      · rw [region.2.2]
        show threadSize % pageSize = 0
        rw [page_size_eq]
        rfl

theorem get_thread_pages {mem : MemAlloc} (placed : Placed mem) (whole : mem.lastOffset = 0) :
    getFreePages mem threadOrder = (0, mem) ∨
      ∃ start, (getFreePages mem threadOrder).1 = start * pageSize ∧
        Allocated mem (getFreePages mem threadOrder).2 start := by
  unfold getFreePages allocMemAllocator
  rw [thread_order_size]
  dsimp only
  split_ifs
  · exact .inl rfl
  · exact .inl rfl
  · exact raw_thread_pages placed whole

/-- A free with order 1 clears the first half of the block. -/
theorem free_thread_pages {mem : MemAlloc} (placed : Placed mem) {task : Nat}
    (aligned : task % pageSize = 0) (inside : task + threadSize ≤ mem.endPfn * pageSize)
    (nonnull : task ≠ 0) :
    SameRegion mem (freePages mem task freeOrder).2 ∧
      (freePages mem task freeOrder).2.lastOffset = 0 ∧
      ∀ page, (freePages mem task freeOrder).2.bitmap page =
        if task ≤ page * pageSize ∧ page * pageSize < task + 8192 then false
        else mem.bitmap page := by
  have limit : mem.endPfn ≤ 2 ^ 20 := placed.limit
  rw [page_size_eq] at aligned inside
  unfold threadSize at inside
  have effect := PageBlocks.free_effect mem placed.base task 8192 (by omega) (by omega) nonnull
  have accepted : (freeMemAllocator mem task 8192).1 ≠ -1 := by
    have ordered : pagesUp task ≤ pagesUp (task + 8192) ∧ pagesUp (task + 8192) ≤ mem.endPfn := by
      unfold pagesUp MachineWord.ulong pageSize
      omega
    have sum : MachineWord.ulong (task + 8192) = task + 8192 :=
      MachineWord.ulong_of_lt (by omega)
    unfold freeMemAllocator
    rw [sum, placed.base, page_size_eq, Nat.sub_zero, if_neg (by omega), if_neg (by omega),
      if_neg (by omega)]
    dsimp only
    rw [if_neg (by omega)]
    have positive := op_mem_allocator_accepts mem _ _ .clear ordered.1 ordered.2
    intro refused
    rw [refused] at positive
    exact absurd positive (by decide)
  have freed : freePages mem task freeOrder = freeMemAllocator mem task 8192 := by
    unfold freePages
    rw [free_order_size, if_neg (by simp [freeOrder, nonnull])]
  rw [freed]
  rcases effect with ⟨refused, _⟩ | ⟨_, region, _, offset, bits⟩
  · exact absurd refused accepted
  · exact ⟨region, offset, bits⟩

/-! ## Steps -/

theorem create_pid {maxThreads : Int} {s : Processes Nat} {current next : Nat} {copied : Bool}
    (other : Nat) (apart : other ≠ next) :
    ((createTaskName maxThreads s current (some next) copied).2.tasks other).pid =
      (s.tasks other).pid := by
  have copy : ((copyTask s current next).tasks other).pid = (s.tasks other).pid := by
    simp [copyTask, copyLinks, Processes.modify, apart]
  have linked : ∀ r : Processes Nat, ((setLinks r next).tasks other).pid = (r.tasks other).pid :=
    fun r => ((PidTable.same_link_tree _ next).task other).1
  unfold createTaskName
  split
  · rfl
  · dsimp only
    split
    · simpa [Processes.modify, apart] using copy
    · split
      · rw [linked]
        simpa [Processes.modify, apart] using copy
      · simpa [Processes.modify, apart] using copy

theorem exit_pid (init : Nat) (s : Processes Nat) (task other : Nat) :
    ((exitTask init s task).2.tasks other).pid = (s.tasks other).pid := by
  unfold exitTask
  split
  · rfl
  · have left := ((PidTable.same_leave_children init s task).task other).1
    exact ((PidTable.same_unlink_tree _ task).task other).1.trans left

/-- A block that was allocated belongs to nobody else. -/
theorem grant_inv {init : Nat} {start m m' : PageSystem} {first : Nat} (inv : PageInv init start m)
    (allocated : Allocated m.mem m'.mem first) (nonnull : first * pageSize ≠ 0)
    (returned : m'.returned = m.returned)
    (held : ∀ task, Held init m' task ↔ Held init m task ∨ task = first * pageSize)
    (nodup : (m'.alive ++ m'.unreaped).Nodup) (member : init ∈ m'.alive)
    (pid : (m'.procs.tasks init).pid = 1) : PageInv init start m' := by
  have clear : ∀ page, InBlock (first * pageSize) page → m.mem.bitmap page = false := by
    intro page inside
    rw [in_block_iff] at inside
    exact allocated.run.2 page inside.1 inside.2
  have unowned : ∀ page, InBlock (first * pageSize) page → start.mem.bitmap page = false ∧
      (∀ task, Held init m task → ¬ InBlock task page) ∧
      ∀ task ∈ m.returned, ¬ InRest task page := by
    intro page inside
    have free := clear page inside
    have bits := (inv.bits page).not.mp (by simp [free])
    rw [not_or, not_or] at bits
    refine ⟨by simpa using bits.1, ?_, ?_⟩
    · intro task holds block
      exact bits.2.1 ⟨task, holds, block⟩
    · intro task gone rest
      exact bits.2.2 ⟨task, gone, rest⟩
  refine ⟨?_, allocated.whole, inv.null, inv.kernel, pid, nodup, member, ?_, ?_, ?_, ?_, ?_, ?_⟩
  · exact placed_whole inv.placed allocated.region allocated.whole
  · intro page
    have iff := in_block_iff first page
    rw [allocated.bits, returned]
    unfold setRange
    by_cases inside : first ≤ page ∧ page < first + 4
    · rw [if_pos inside]
      simp only [true_iff]
      right
      left
      exact ⟨first * pageSize, (held _).mpr (.inr rfl), iff.mpr inside⟩
    · rw [if_neg inside, inv.bits]
      have outside : ¬ InBlock (first * pageSize) page := fun block => inside (iff.mp block)
      constructor
      · rintro (initial | ⟨task, holds, block⟩ | rest)
        · exact .inl initial
        · exact .inr (.inl ⟨task, (held task).mpr (.inl holds), block⟩)
        · exact .inr (.inr rest)
      · rintro (initial | ⟨task, holds, block⟩ | rest)
        · exact .inl initial
        · rcases (held task).mp holds with old | rfl
          · exact .inr (.inl ⟨task, old, block⟩)
          · exact absurd block outside
        · exact .inr (.inr rest)
  · rintro task (holds | gone)
    · rw [allocated.region.endPfn]
      rcases (held task).mp holds with old | rfl
      · exact inv.aligned task (.inl old)
      · refine ⟨Nat.mul_mod_left _ _, ?_, nonnull⟩
        have fits := allocated.run.1
        unfold threadSize
        rw [page_size_eq]
        omega
    · rw [allocated.region.endPfn]
      rw [returned] at gone
      exact inv.aligned task (.inr gone)
  · intro task page holds block
    rcases (held task).mp holds with old | rfl
    · exact inv.own task page old block
    · exact (unowned page block).1
  · intro task other page holds also block otherBlock
    rcases (held task).mp holds with old | rfl
    · rcases (held other).mp also with otherOld | rfl
      · exact inv.apart task other page old otherOld block otherBlock
      · exact absurd block ((unowned page otherBlock).2.1 task old)
    · rcases (held other).mp also with otherOld | rfl
      · exact absurd otherBlock ((unowned page block).2.1 other otherOld)
      · rfl
  · intro task page gone rest
    rw [returned] at gone
    exact inv.rest_own task page gone rest
  · intro task other page holds gone block
    rw [returned] at gone
    rcases (held task).mp holds with old | rfl
    · exact inv.rest_apart task other page old gone block
    · exact (unowned page block).2.2 other gone

/-- The rest of a block is its second half. -/
theorem in_rest_iff (task page : Nat) : InRest task page ↔
    InBlock task page ∧ ¬ (task ≤ page * pageSize ∧ page * pageSize < task + 8192) := by
  unfold InRest InBlock threadSize
  rw [free_order_size]
  omega

theorem held_released {init task : Nat} {m m' : PageSystem} (nodup : (m.alive ++ m.unreaped).Nodup)
    (waiting : task ∈ m.unreaped) (alive : m'.alive = m.alive)
    (unreaped : m'.unreaped = m.unreaped.erase task) (other : Nat) :
    Held init m' other ↔ Held init m other ∧ other ≠ task := by
  obtain ⟨_, nodupWaiting, disjoint⟩ := List.nodup_append.mp nodup
  unfold Held
  rw [alive, unreaped, nodupWaiting.mem_erase_iff]
  constructor
  · rintro (⟨living, notInit⟩ | ⟨apart, rest⟩)
    · refine ⟨.inl ⟨living, notInit⟩, ?_⟩
      rintro rfl
      exact disjoint other living other waiting rfl
    · exact ⟨.inr rest, apart⟩
  · rintro ⟨living | rest, apart⟩
    · exact .inl living
    · exact .inr ⟨apart, rest⟩

/-- A block given back with order 1 leaves its second half behind. -/
theorem release_inv {init : Nat} {start m : PageSystem} {task : Nat} (inv : PageInv init start m)
    (waiting : task ∈ m.unreaped) :
    PageInv init start { m with
      mem := (freePages m.mem task freeOrder).2
      unreaped := m.unreaped.erase task
      returned := task :: m.returned } := by
  have holds : Held init m task := .inr waiting
  obtain ⟨aligned, inside, nonnull⟩ := inv.aligned task (.inl holds)
  obtain ⟨region, whole, bits⟩ := free_thread_pages inv.placed aligned inside nonnull
  have remaining : ∀ other, Held init { m with
      mem := (freePages m.mem task freeOrder).2
      unreaped := m.unreaped.erase task
      returned := task :: m.returned } other ↔ Held init m other ∧ other ≠ task :=
    held_released inv.nodup waiting rfl rfl
  have cleared : ∀ page, task ≤ page * pageSize ∧ page * pageSize < task + 8192 →
      InBlock task page := by
    intro page range
    unfold InBlock threadSize
    omega
  refine ⟨?_, whole, inv.null, inv.kernel, inv.pid, ?_, inv.member, ?_, ?_, ?_, ?_, ?_, ?_⟩
  · exact placed_whole inv.placed region whole
  · exact inv.nodup.sublist (List.Sublist.append_left List.erase_sublist _)
  · intro page
    rw [bits]
    by_cases range : task ≤ page * pageSize ∧ page * pageSize < task + 8192
    · -- a page of the first half: clear, and nobody else's
      rw [if_pos range]
      have block := cleared page range
      constructor
      · intro set
        cases set
      · rintro (initial | ⟨other, held, otherBlock⟩ | ⟨other, gone, rest⟩)
        · rw [inv.own task page holds block] at initial
          cases initial
        · obtain ⟨old, apart⟩ := (remaining other).mp held
          exact absurd (inv.apart other task page old holds otherBlock block) apart
        · rcases List.mem_cons.mp gone with rfl | gone
          · exact absurd range ((in_rest_iff _ page).mp rest).2
          · exact absurd rest (inv.rest_apart task other page holds gone block)
    · rw [if_neg range, inv.bits]
      constructor
      · rintro (initial | ⟨other, held, block⟩ | ⟨other, gone, rest⟩)
        · exact .inl initial
        · by_cases same : other = task
          · subst same
            exact .inr (.inr ⟨other, List.mem_cons_self .., (in_rest_iff _ page).mpr ⟨block, range⟩⟩)
          · exact .inr (.inl ⟨other, (remaining other).mpr ⟨held, same⟩, block⟩)
        · exact .inr (.inr ⟨other, List.mem_cons_of_mem _ gone, rest⟩)
      · rintro (initial | ⟨other, held, block⟩ | ⟨other, gone, rest⟩)
        · exact .inl initial
        · exact .inr (.inl ⟨other, ((remaining other).mp held).1, block⟩)
        · rcases List.mem_cons.mp gone with rfl | gone
          · exact .inr (.inl ⟨other, holds, ((in_rest_iff _ page).mp rest).1⟩)
          · exact .inr (.inr ⟨other, gone, rest⟩)
  · rintro other (held | gone)
    · rw [region.endPfn]
      exact inv.aligned other (.inl ((remaining other).mp held).1)
    · rw [region.endPfn]
      rcases List.mem_cons.mp gone with rfl | gone
      · exact ⟨aligned, inside, nonnull⟩
      · exact inv.aligned other (.inr gone)
  · intro other page held block
    exact inv.own other page ((remaining other).mp held).1 block
  · intro other third page held also block thirdBlock
    exact inv.apart other third page ((remaining other).mp held).1 ((remaining third).mp also).1 block
      thirdBlock
  · intro other page gone rest
    rcases List.mem_cons.mp gone with rfl | gone
    · exact inv.own other page holds ((in_rest_iff _ page).mp rest).1
    · exact inv.rest_own other page gone rest
  · intro other third page held gone block rest
    obtain ⟨old, apart⟩ := (remaining other).mp held
    rcases List.mem_cons.mp gone with rfl | gone
    · exact apart (inv.apart other third page old holds block ((in_rest_iff _ page).mp rest).1)
    · exact inv.rest_apart other third page old gone block rest

/-- The accounting only reads which tasks are held. -/
theorem inv_congr {init : Nat} {start m m' : PageSystem} (inv : PageInv init start m)
    (mem : m'.mem = m.mem) (returned : m'.returned = m.returned)
    (held : ∀ task, Held init m' task ↔ Held init m task)
    (nodup : (m'.alive ++ m'.unreaped).Nodup) (member : init ∈ m'.alive)
    (pid : (m'.procs.tasks init).pid = 1) : PageInv init start m' := by
  refine ⟨mem ▸ inv.placed, mem ▸ inv.whole, inv.null, inv.kernel, pid, nodup, member, ?_, ?_, ?_,
    ?_, ?_, ?_⟩
  · intro page
    rw [mem, inv.bits, returned]
    simp only [held]
  · intro task
    rw [mem, returned, held]
    exact inv.aligned task
  · intro task page holds
    exact inv.own task page ((held task).mp holds)
  · intro task other page holds also
    exact inv.apart task other page ((held task).mp holds) ((held other).mp also)
  · intro task page gone
    rw [returned] at gone
    exact inv.rest_own task page gone
  · intro task other page holds gone
    rw [returned] at gone
    exact inv.rest_apart task other page ((held task).mp holds) gone

/-- The block that the allocator answers is no task and not the one of `init`. -/
theorem block_fresh {init : Nat} {start m : PageSystem} {after : MemAlloc} {first : Nat}
    (inv : PageInv init start m) (allocated : Allocated m.mem after first) :
    first * pageSize ≠ init ∧ ¬ Held init m (first * pageSize) := by
  have block : InBlock (first * pageSize) first := (in_block_iff first first).mpr (by omega)
  have clear : m.mem.bitmap first = false := allocated.run.2 first (by omega) (by omega)
  constructor
  · rintro rfl
    have kernel := inv.kernel
    rw [Nat.mul_div_cancel _ page_size_positive] at kernel
    rw [(inv.bits first).mpr (.inl kernel)] at clear
    cases clear
  · intro holds
    rw [(inv.bits first).mpr (.inr (.inl ⟨_, holds, block⟩))] at clear
    cases clear

theorem held_alive {init new : Nat} {m m' : PageSystem} (notInit : new ≠ init)
    (alive : m'.alive = m.alive ++ [new]) (unreaped : m'.unreaped = m.unreaped) (task : Nat) :
    Held init m' task ↔ Held init m task ∨ task = new := by
  unfold Held
  rw [alive, unreaped, List.mem_append, List.mem_singleton]
  constructor
  · rintro (⟨old | rfl, other⟩ | waiting)
    · exact .inl (.inl ⟨old, other⟩)
    · exact .inr rfl
    · exact .inl (.inr waiting)
  · rintro ((⟨old, other⟩ | waiting) | rfl)
    · exact .inl ⟨.inl old, other⟩
    · exact .inr waiting
    · exact .inl ⟨.inr rfl, notInit⟩

theorem held_unreaped {init new : Nat} {m m' : PageSystem} (alive : m'.alive = m.alive)
    (unreaped : m'.unreaped = new :: m.unreaped) (task : Nat) :
    Held init m' task ↔ Held init m task ∨ task = new := by
  unfold Held
  rw [alive, unreaped, List.mem_cons]
  constructor
  · rintro (old | rfl | waiting)
    · exact .inl (.inl old)
    · exact .inr rfl
    · exact .inl (.inr waiting)
  · rintro ((old | waiting) | rfl)
    · exact .inl old
    · exact .inr (.inr waiting)
    · exact .inr (.inl rfl)

theorem create_inv {init : Nat} {maxThreads : Int} {start m : PageSystem} {current : Nat}
    {copied : Bool} (inv : PageInv init start m) :
    PageInv init start (createWithPages maxThreads m current copied) := by
  unfold createWithPages
  dsimp only
  rcases get_thread_pages inv.placed inv.whole with refused | ⟨first, addr, allocated⟩
  · rw [refused, if_pos rfl]
    exact inv
  · obtain ⟨notInit, unheld⟩ := block_fresh inv allocated
    have member : init ∈ m.alive := inv.member
    have outside : first * pageSize ∉ m.alive ++ m.unreaped := by
      intro listed
      rcases List.mem_append.mp listed with alive | waiting
      · exact unheld (.inl ⟨alive, notInit⟩)
      · exact unheld (.inr waiting)
    rw [addr]
    split
    · next null =>
        -- the null page is reserved, so no block starts there
        have zero : first = 0 := by
          rcases Nat.mul_eq_zero.mp null with zero | size
          · exact zero
          · rw [page_size_eq] at size
            cases size
        have clear : m.mem.bitmap 0 = false := by
          have run := allocated.run.2 0
          rw [zero] at run
          exact run (Nat.le_refl 0) (by decide)
        rw [(inv.bits 0).mpr (.inl inv.null)] at clear
        cases clear
    · next nonnull =>
        have pid : ∀ done procs, createTaskName maxThreads m.procs current
            (some (first * pageSize)) copied = (done, procs) → (procs.tasks init).pid = 1 := by
          intro done procs result
          have kept := @create_pid maxThreads m.procs current _ copied init (Ne.symm notInit)
          rw [result] at kept
          exact kept.trans inv.pid
        split
        · next procs created =>
            apply grant_inv inv allocated nonnull
            · rfl
            · exact held_alive notInit rfl rfl
            · dsimp only
              rw [List.append_assoc, List.singleton_append, List.nodup_middle]
              exact List.nodup_cons.mpr ⟨outside, inv.nodup⟩
            · exact List.mem_append_left _ member
            · exact pid true procs created
        · next procs failed =>
            -- as if the task had been created, exited and reaped at once
            have granted : PageInv init start { m with
                mem := (getFreePages m.mem threadOrder).2
                procs := procs
                unreaped := first * pageSize :: m.unreaped } := by
              apply grant_inv inv allocated nonnull
              · rfl
              · exact held_unreaped rfl rfl
              · dsimp only
                rw [List.nodup_middle]
                exact List.nodup_cons.mpr ⟨outside, inv.nodup⟩
              · exact member
              · exact pid false procs failed
            have released := release_inv granted (List.mem_cons_self ..)
            dsimp only at released
            rw [List.erase_cons_head] at released
            exact released

theorem exit_inv {init : Nat} {start m : PageSystem} {task : Nat} {procs : Processes Nat}
    (inv : PageInv init start m) (alive : task ∈ m.alive)
    (exited : exitTask init m.procs task = (true, procs)) :
    PageInv init start { m with
      procs := procs
      alive := m.alive.erase task
      unreaped := m.unreaped ++ [task] } := by
  have notInit : task ≠ init := by
    rintro rfl
    unfold exitTask at exited
    rw [if_pos inv.pid] at exited
    cases exited
  have nodupParts := List.nodup_append.mp inv.nodup
  have remaining : ∀ other, other ∈ m.alive.erase task ↔ other ≠ task ∧ other ∈ m.alive :=
    fun other => nodupParts.1.mem_erase_iff
  apply inv_congr inv
  · rfl
  · rfl
  · intro other
    unfold Held
    dsimp only
    rw [remaining, List.mem_append, List.mem_singleton]
    constructor
    · rintro (⟨⟨_, old⟩, apart⟩ | waiting | rfl)
      · exact .inl ⟨old, apart⟩
      · exact .inr waiting
      · exact .inl ⟨alive, notInit⟩
    · rintro (⟨old, apart⟩ | waiting)
      · by_cases same : other = task
        · exact .inr (.inr same)
        · exact .inl ⟨⟨same, old⟩, apart⟩
      · exact .inr (.inl waiting)
  · have perm : (m.alive.erase task ++ (m.unreaped ++ [task])).Perm (m.alive ++ m.unreaped) := by
      rw [← List.append_assoc]
      apply (List.perm_append_singleton task _).trans
      rw [← List.cons_append]
      exact List.Perm.append_right _ (List.perm_cons_erase alive).symm
    exact perm.nodup_iff.mpr inv.nodup
  · exact (remaining init).mpr ⟨notInit.symm, inv.member⟩
  · have kept := exit_pid init m.procs task init
    rw [exited] at kept
    exact kept.trans inv.pid

theorem page_step_inv {init : Nat} {maxThreads : Int} {start : PageSystem} (before : PageSystem)
    (event : PageEvent) (after : PageSystem) (inv : PageInv init start before)
    (stepped : pageStep init maxThreads before event = some after) : PageInv init start after := by
  cases event with
  | create current copied =>
      simp only [pageStep] at stepped
      split_ifs at stepped
      · cases stepped
        exact inv
      · cases stepped
        exact create_inv inv
  | exit task =>
      simp only [pageStep] at stepped
      split_ifs at stepped with alive
      split at stepped
      · next procs exited =>
          cases stepped
          exact exit_inv inv alive exited
      · next procs refused =>
          cases stepped
          have kept := exit_pid init before.procs task init
          rw [refused] at kept
          apply inv_congr inv
          · rfl
          · rfl
          · exact fun _ => Iff.rfl
          · exact inv.nodup
          · exact inv.member
          · exact kept.trans inv.pid
  | reap task =>
      simp only [pageStep] at stepped
      split_ifs at stepped with waiting
      cases stepped
      exact release_inv inv waiting

/-- A page of the second half of a block. -/
theorem rest_page {task : Nat} (aligned : task % pageSize = 0) :
    InRest task (task / pageSize + 2) := by
  unfold InRest threadSize
  rw [free_order_size]
  rw [page_size_eq] at aligned ⊢
  omega

/-- In every run the pages set by it are those of the tasks alive or waiting for their reaper
exactly when no creation failed after its block was allocated and no task was reaped. -/
theorem task_pages_conserved (init : Nat) (maxThreads : Int) (start m : PageSystem)
    (booted : Booted init start)
    (run : Reachability.Reaches (pageStep init maxThreads) (fun _ _ => True) start m) :
    Conserved init start m ↔ m.returned = [] := by
  have inv : PageInv init start m := by
    apply Reachability.reaches_invariant (boot_inv booted) _ run
    intro before event after inv _ stepped
    exact page_step_inv before event after inv stepped
  constructor
  · intro conserved
    cases returned : m.returned with
    | nil => rfl
    | cons task others =>
        have gone : task ∈ m.returned := by simp [returned]
        have rest := rest_page (inv.aligned task (.inr gone)).1
        have set := (inv.bits _).mpr (.inr (.inr ⟨task, gone, rest⟩))
        rcases (conserved _).mp set with initial | ⟨other, held, block⟩
        · rw [inv.rest_own task _ gone rest] at initial
          cases initial
        · exact absurd rest (inv.rest_apart other task _ held gone block)
  · intro none_returned page
    rw [inv.bits, none_returned]
    simp

/-- Sixteen pages, the first one reserved and holding `init` at address 100. -/
def smallStart : PageSystem where
  mem :=
    { start := 0
      endPfn := 16
      bitmap := fun page => page == 0
      memStart := 0
      lastPos := 0
      lastOffset := 0
      memStats := ⟨15, 1, 16, 1⟩
      maxPfn := 16 }
  procs := bootProcs 100 (fun _ => initTask) ⟨fun _ => none, fun _ => none⟩
    ⟨fun _ => none, fun _ => none, fun _ => none⟩
  alive := [100]
  unreaped := []
  returned := []

theorem small_booted : Booted 100 smallStart where
  placed := ⟨rfl, by decide +kernel, page_size_positive, fun live => absurd rfl live⟩
  whole := rfl
  null := rfl
  kernel := by decide +kernel
  pid := by decide +kernel
  alive := rfl
  unreaped := rfl
  returned := rfl

theorem task_pages_conserved_living : ∃ m,
    Reachability.Reaches (pageStep 100 10) (fun _ _ => True) smallStart m ∧
      m.unreaped = [4096] ∧ Conserved 100 smallStart m := by
  have outcome : (([.create 100 true, .exit 4096] : List PageEvent).foldlM (pageStep 100 10)
      smallStart).map (fun m => (m.unreaped, m.returned)) = some ([4096], []) := by
    decide +kernel
  obtain ⟨m, finished, result⟩ := Option.map_eq_some_iff.mp outcome
  rw [Prod.mk.injEq] at result
  have run := Reachability.reaches_events _ (fun _ _ _ => trivial) finished
  exact ⟨m, run, result.1, (task_pages_conserved 100 10 smallStart m small_booted run).mpr result.2⟩

/-- A task is created, exits and is reaped, and two of its four pages stay allocated. -/
theorem reaper_keeps_half : ∃ m, Booted 100 smallStart ∧
    Reachability.Reaches (pageStep 100 10) (fun _ _ => True) smallStart m ∧
      ¬ Conserved 100 smallStart m := by
  have outcome : (([.create 100 true, .exit 4096, .reap 4096] : List PageEvent).foldlM
      (pageStep 100 10) smallStart).map (fun m => (m.alive, m.unreaped, m.mem.bitmap 3)) =
      some ([100], [], true) := by
    decide +kernel
  obtain ⟨m, finished, result⟩ := Option.map_eq_some_iff.mp outcome
  rw [Prod.mk.injEq, Prod.mk.injEq] at result
  refine ⟨m, small_booted, Reachability.reaches_events _ (fun _ _ _ => trivial) finished, ?_⟩
  intro conserved
  rcases (conserved 3).mp result.2.2 with initial | ⟨task, ⟨alive, other⟩ | waiting, _⟩
  · cases initial
  · rw [result.1, List.mem_singleton] at alive
    exact other alive
  · rw [result.2.1] at waiting
    cases waiting

end MirOs.TaskPages
