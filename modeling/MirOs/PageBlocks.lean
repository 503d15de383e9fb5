import MirOs.PageAllocEffect
import MirOs.Reachability
import Mathlib.Data.List.Perm.Basic

/-!
# Live blocks of the page allocator

The allocator runs under clients that allocate, reserve and free. A state keeps
the blocks the clients hold. `BlockInv` says that held blocks share no byte,
that every byte of a held block lies in a reserved page, and that the tail
behind the merge position is free to be handed out.
-/

namespace MirOs.PageBlocks

open MirOs.MachineWord MirOs.FirstFit MirOs.PageAllocModel MirOs.PageAllocEffect
open MirOs.Reachability

set_option autoImplicit false

structure Block where
  addr : Nat
  size : Nat
  deriving DecidableEq, Repr

def Block.Contains (block : Block) (byte : Nat) : Prop :=
  block.addr ≤ byte ∧ byte < block.addr + block.size

/-- Two blocks without a common byte. -/
def Block.Apart (first second : Block) : Prop :=
  ∀ byte, first.Contains byte → ¬ second.Contains byte

theorem Block.apart_symm {first second : Block} (apart : first.Apart second) :
    second.Apart first :=
  fun byte inSecond inFirst => apart byte inFirst inSecond

def pageOf (byte : Nat) : Nat := byte / pageSize

theorem page_of_range {start pages byte : Nat} (lower : start * pageSize ≤ byte)
    (upper : byte < (start + pages) * pageSize) :
    start ≤ pageOf byte ∧ pageOf byte < start + pages := by
  unfold pageOf
  unfold pageSize at lower upper ⊢
  omega

structure PageState where
  mem : MemAlloc
  live : List Block

inductive PageEvent where
  | alloc (size align : BitVec 32)
  | getFreePages (order : Int)
  | reserve (addr size : BitVec 32)
  | free (block : Block)
  | freePages (block : Block) (order : Int)

def granted (live : List Block) (addr size : Nat) : List Block :=
  if addr = 0 then live else ⟨addr, size⟩ :: live

/-- Clients free only blocks they hold that are page aligned and whole pages. -/
def Block.freeable (block : Block) (live : List Block) : Bool :=
  decide (block ∈ live) && decide (block.addr % pageSize = 0) &&
    decide (block.size % pageSize = 0)

/-- State after a free: a refused free leaves the block with its holder. -/
def released (state : PageState) (block : Block) (result : Int × MemAlloc) : PageState :=
  { mem := result.2, live := if result.1 < 0 then state.live else state.live.erase block }

def pageStep (state : PageState) : PageEvent → Option PageState
  | .alloc size align =>
      let result := allocMemAllocator state.mem size.toNat align.toNat
      some { mem := result.2, live := granted state.live result.1 size.toNat }
  | .getFreePages order =>
      let result := getFreePages state.mem order
      some { mem := result.2, live := granted state.live result.1 (orderSize order) }
  | .reserve addr size =>
      some { state with mem := (reserveMemAllocator state.mem addr.toNat size.toNat).2 }
  | .free block =>
      if block.freeable state.live then
        some (released state block (freeMemAllocator state.mem block.addr block.size))
      else none
  | .freePages block order =>
      if block.freeable state.live && decide (orderSize order = block.size) then
        some (released state block (freePages state.mem block.addr order))
      else none

/-- No request of `2^31` bytes or more is taken in the merging branch. -/
def requestsInRange (state : PageState) : PageEvent → Prop
  | .alloc size align => MergeInRange state.mem size.toNat align.toNat
  | .getFreePages order => MergeInRange state.mem (orderSize order) 0
  | _ => True

/-- Held blocks share no byte and lie in reserved pages. -/
structure BlocksSafe (state : PageState) : Prop where
  apart : state.live.Pairwise Block.Apart
  marked : ∀ block ∈ state.live, ∀ byte, block.Contains byte →
    state.mem.bitmap (pageOf byte) = true

/-- The bytes behind the merge position are unused as long as the next page is
clear: only then can a request be merged. -/
def TailFree (mem : MemAlloc) (live : List Block) : Prop :=
  mem.lastOffset ≠ 0 → mem.lastPos < mem.endPfn → mem.bitmap (mem.lastPos + 1) = false →
    mem.bitmap mem.lastPos = true ∧
      ∀ block ∈ live, ∀ byte, block.Contains byte → pageOf byte = mem.lastPos →
        byte < mem.lastPos * pageSize + mem.lastOffset

structure BlockInv (state : PageState) : Prop where
  placed : Placed state.mem
  safe : BlocksSafe state
  null : ∀ block ∈ state.live, block.addr ≠ 0
  bound : ∀ block ∈ state.live, block.addr < 2 ^ 32 ∧ block.addr + block.size ≤ 2 ^ 32
  tail : TailFree state.mem state.live

/-! ## What a free and a reservation do -/

/-- A free is refused, or it clears the pages that start inside the range and
drops the merge position. -/
theorem free_effect (mem : MemAlloc) (base : mem.memStart = 0) (addr size : Nat)
    (addrBound : addr < 2 ^ 32) (sizeBound : size < 2 ^ 32) (nonnull : addr ≠ 0) :
    let result := freeMemAllocator mem addr size
    (result.1 = -1 ∧ result.2 = mem) ∨
      (0 ≤ result.1 ∧ SameRegion mem result.2 ∧ result.2.lastPos = 0 ∧
        result.2.lastOffset = 0 ∧
        ∀ index, result.2.bitmap index =
          if addr ≤ index * pageSize ∧ index * pageSize < addr + size then false
          else mem.bitmap index) := by
  unfold freeMemAllocator
  rw [base]
  dsimp only
  split_ifs with wraps below small outside
  · exact Or.inl ⟨rfl, rfl⟩
  · exact Or.inl ⟨rfl, rfl⟩
  · exact Or.inl ⟨rfl, rfl⟩
  · exact Or.inl ⟨rfl, rfl⟩
  · right
    rw [Nat.sub_zero] at outside ⊢
    have ordered : pagesUp addr ≤ pagesUp (addr + size) := by omega
    have inside : pagesUp (addr + size) ≤ mem.endPfn := by omega
    have region := op_mem_allocator_region mem (pagesUp addr) (pagesUp (addr + size)) .clear
    refine ⟨op_mem_allocator_accepts mem _ _ .clear ordered inside,
      ⟨region.1.endPfn, region.1.memStart, region.1.maxPfn⟩, rfl, rfl, ?_⟩
    intro index
    have bits := op_mem_allocator_bitmap mem _ _ .clear ordered inside index
    have range : (pagesUp addr ≤ index ∧ index < pagesUp (addr + size)) ↔
        (addr ≤ index * pageSize ∧ index * pageSize < addr + size) := by
      clear bits region inside outside below base
      unfold pagesUp ulong pageSize at *
      omega
    simp only [range] at bits
    exact bits

/-- A reservation only sets bits. -/
theorem reserve_effect (mem : MemAlloc) (addr size : Nat) :
    let after := (reserveMemAllocator mem addr size).2
    SameRegion mem after ∧ after.lastPos = mem.lastPos ∧ after.lastOffset = mem.lastOffset ∧
      ∀ index, mem.bitmap index = true → after.bitmap index = true := by
  unfold reserveMemAllocator
  dsimp only
  split_ifs with wraps below outside
  · exact ⟨⟨rfl, rfl, rfl⟩, rfl, rfl, fun _ marked => marked⟩
  · exact ⟨⟨rfl, rfl, rfl⟩, rfl, rfl, fun _ marked => marked⟩
  · exact ⟨⟨rfl, rfl, rfl⟩, rfl, rfl, fun _ marked => marked⟩
  · generalize pagesUp (addr - mem.memStart) = sidx at *
    generalize pagesUp (addr - mem.memStart + size) = eidx at *
    have region := op_mem_allocator_region mem sidx eidx .reserve
    refine ⟨region.1, region.2.1, region.2.2, ?_⟩
    intro index marked
    rw [op_mem_allocator_bitmap mem sidx eidx .reserve (by omega) (by omega)]
    split_ifs
    · rfl
    · exact marked

/-! ## The bytes of a new block -/

section Geometry

variable {mem after : MemAlloc} {size addr : Nat}

theorem block_bytes_bound {start pages : Nat} (inside : start + pages ≤ maxPfnLimit)
    (first : addr < (start + pages) * pageSize)
    (ends : addr + size ≤ (start + pages) * pageSize) :
    addr < 2 ^ 32 ∧ addr + size ≤ 2 ^ 32 := by
  unfold maxPfnLimit at inside
  unfold pageSize at first ends
  omega

theorem fresh_end (start : Nat) {pages : Nat} (counted : pages ≠ 0) (lower : size ≤ pages * pageSize) :
    start * pageSize < (start + pages) * pageSize ∧
      start * pageSize + size ≤ (start + pages) * pageSize := by
  unfold pageSize at *
  omega

theorem within_end (position : Nat) {offset : Nat} (fits : offset + size < pageSize) :
    position * pageSize + offset < (position + 1) * pageSize ∧
      position * pageSize + offset + size ≤ (position + 1) * pageSize := by
  unfold pageSize at *
  omega

theorem spill_end (position : Nat) {offset pages : Nat} (inside : offset < pageSize)
    (fits : offset + size ≤ (pages + 1) * pageSize) :
    position * pageSize + offset < (position + 1 + pages) * pageSize ∧
      position * pageSize + offset + size ≤ (position + 1 + pages) * pageSize := by
  unfold pageSize at *
  omega

theorem effect_bound (placed : Placed mem) (effect : AllocEffect mem size addr after)
    (nonnull : addr ≠ 0) : addr < 2 ^ 32 ∧ addr + size ≤ 2 ^ 32 := by
  cases effect with
  | refused => exact absurd rfl nonnull
  | lost => exact absurd rfl nonnull
  | fresh start pages after counted run lower =>
      obtain ⟨first, ends⟩ := fresh_end start counted lower
      exact block_bytes_bound (Nat.le_trans run.1 placed.limit) first ends
  | within offset after here live tail fits =>
      obtain ⟨first, ends⟩ := within_end mem.lastPos fits
      exact block_bytes_bound (Nat.le_trans here placed.limit) first ends
  | spill offset pages after here live tail inside open_ run lower =>
      obtain ⟨first, ends⟩ := spill_end mem.lastPos inside lower
      exact block_bytes_bound (Nat.le_trans run.1 placed.limit) first ends

theorem within_page {position offset byte : Nat} (fits : offset + size ≤ pageSize)
    (lower : position * pageSize + offset ≤ byte)
    (upper : byte < position * pageSize + offset + size) : pageOf byte = position := by
  unfold pageOf
  unfold pageSize at *
  omega

theorem spill_page {position offset pages byte : Nat} (inside : offset < pageSize)
    (lower : position * pageSize + offset ≤ byte)
    (upper : byte < position * pageSize + offset + size)
    (fits : offset + size ≤ (pages + 1) * pageSize) :
    pageOf byte = position ∨ (position + 1 ≤ pageOf byte ∧ pageOf byte < position + 1 + pages) := by
  unfold pageOf
  unfold pageSize at *
  omega

structure TailByte (mem : MemAlloc) (byte : Nat) : Prop where
  live : mem.lastOffset ≠ 0
  here : mem.lastPos < mem.endPfn
  open_ : mem.bitmap (mem.lastPos + 1) = false
  page : pageOf byte = mem.lastPos
  behind : mem.lastPos * pageSize + mem.lastOffset ≤ byte

/-- Every byte of a new block comes from a page that was clear and is reserved
now, or from the tail behind the merge position. -/
theorem effect_bytes (effect : AllocEffect mem size addr after) (nonnull : addr ≠ 0) {byte : Nat}
    (inside : (Block.mk addr size).Contains byte) :
    pageOf byte < mem.endPfn ∧
      ((mem.bitmap (pageOf byte) = false ∧ after.bitmap (pageOf byte) = true) ∨
        TailByte mem byte) := by
  obtain ⟨lower, upper⟩ := inside
  dsimp only at lower upper
  cases effect with
  | refused => exact absurd rfl nonnull
  | lost => exact absurd rfl nonnull
  | fresh start pages after counted run covers _ region bits =>
      have ends := (fresh_end start counted covers).2
      obtain ⟨low, high⟩ := page_of_range lower (Nat.lt_of_lt_of_le upper ends)
      rw [bits]
      exact ⟨Nat.lt_of_lt_of_le high run.1,
        Or.inl ⟨run.2 _ low high, set_range_inside low high⟩⟩
  | within offset after here live tail fits open_ region bits =>
      have page := within_page (Nat.le_of_lt fits) lower upper
      exact ⟨page.trans_lt here, Or.inr ⟨live, here, open_, page, by omega⟩⟩
  | spill offset pages after here live tail offsetInside open_ run covers _ region bits =>
      rcases spill_page offsetInside lower upper covers with page | ⟨low, high⟩
      · exact ⟨page.trans_lt here, Or.inr ⟨live, here, open_, page, by omega⟩⟩
      · rw [bits]
        exact ⟨Nat.lt_of_lt_of_le high run.1,
          Or.inl ⟨run.2 _ low high, set_range_inside low high⟩⟩

end Geometry

/-! ## What an allocation keeps -/

section Alloc

variable {state : PageState} {size addr : Nat} {after : MemAlloc}

theorem clear_page_unused (inv : BlockInv state) {byte : Nat}
    (clear : state.mem.bitmap (pageOf byte) = false) :
    ∀ block ∈ state.live, ¬ block.Contains byte := by
  intro block held inside
  have marked := inv.safe.marked block held byte inside
  rw [clear] at marked
  exact Bool.noConfusion marked

theorem tail_byte_unused (inv : BlockInv state) {byte : Nat} (tail : TailByte state.mem byte) :
    state.mem.bitmap (pageOf byte) = true ∧ ∀ block ∈ state.live, ¬ block.Contains byte := by
  obtain ⟨set, below⟩ := inv.tail tail.live tail.here tail.open_
  have behind := tail.behind
  refine ⟨by rw [tail.page]; exact set, ?_⟩
  intro block held inside
  have early := below block held byte inside tail.page
  omega

theorem new_block_unused (inv : BlockInv state) (effect : AllocEffect state.mem size addr after)
    (nonnull : addr ≠ 0) {byte : Nat} (inside : (Block.mk addr size).Contains byte) :
    after.bitmap (pageOf byte) = true ∧ ∀ block ∈ state.live, ¬ block.Contains byte := by
  rcases (effect_bytes effect nonnull inside).2 with ⟨clear, set⟩ | tail
  · exact ⟨set, clear_page_unused inv clear⟩
  · obtain ⟨set, unused⟩ := tail_byte_unused inv tail
    exact ⟨effect_keeps_bits effect _ set, unused⟩

theorem tail_free_granted {live : List Block}
    (tail : TailFree after (⟨addr, size⟩ :: live)) : TailFree after (granted live addr size) := by
  unfold granted
  split_ifs
  · intro active here open_
    obtain ⟨set, below⟩ := tail active here open_
    exact ⟨set, fun block held => below block (List.mem_cons_of_mem _ held)⟩
  · exact tail

theorem fresh_last (start : Nat) {pages : Nat} (lower : size ≤ pages * pageSize)
    (upper : pages * pageSize < size + pageSize) (partial_ : size % pageSize ≠ 0) :
    start * pageSize + size = (start + pages - 1) * pageSize + size % pageSize := by
  unfold pageSize at *
  omega

theorem tail_free_fresh (inv : BlockInv state) {start pages : Nat} (counted : pages ≠ 0)
    (run : FreeRun state.mem.bitmap state.mem.endPfn start pages)
    (lower : size ≤ pages * pageSize) (upper : pages * pageSize < size + pageSize)
    (bits : after.bitmap = setRange state.mem.bitmap start (start + pages))
    (position : after.lastPos = start + pages - 1)
    (offset : after.lastOffset = size % pageSize) :
    TailFree after (⟨start * pageSize, size⟩ :: state.live) := by
  intro live _ _
  rw [offset] at live
  have last := fresh_last start lower upper live
  rw [bits, position, offset]
  refine ⟨set_range_inside (by omega) (by omega), ?_⟩
  intro block held byte inside page
  rcases List.mem_cons.mp held with rfl | older
  · rw [← last]
    exact inside.2
  · have clear : state.mem.bitmap (pageOf byte) = false := by
      rw [page]
      exact run.2 _ (by omega) (by omega)
    exact absurd inside (clear_page_unused inv clear block older)

/-- A merge position that stays in its page moves behind the new block. -/
theorem tail_free_moved (inv : BlockInv state) {offset : Nat}
    (live : state.mem.lastOffset ≠ 0) (here : state.mem.lastPos < state.mem.endPfn)
    (open_ : state.mem.bitmap (state.mem.lastPos + 1) = false)
    (tail : state.mem.lastOffset ≤ offset)
    (keeps : ∀ index, state.mem.bitmap index = true → after.bitmap index = true)
    (position : after.lastPos = state.mem.lastPos)
    (next : after.lastOffset = offset + size) :
    TailFree after (⟨state.mem.lastPos * pageSize + offset, size⟩ :: state.live) := by
  obtain ⟨set, below⟩ := inv.tail live here open_
  intro _ _ _
  rw [position, next]
  refine ⟨keeps _ set, ?_⟩
  intro block held byte inside page
  rcases List.mem_cons.mp held with rfl | older
  · have upper : byte < state.mem.lastPos * pageSize + offset + size := inside.2
    omega
  · have early := below block older byte inside page
    omega

theorem spill_offset_same {offset : Nat} (fits : offset + size ≤ (0 + 1) * pageSize)
    (live : (offset + size) % pageSize ≠ 0) : (offset + size) % pageSize = offset + size := by
  unfold pageSize at *
  omega

theorem tail_free_after (inv : BlockInv state) (effect : AllocEffect state.mem size addr after) :
    TailFree after (granted state.live addr size) := by
  have keeps := effect_keeps_bits effect
  cases effect with
  | refused => exact inv.tail
  | lost after region bits position offset =>
      intro _ here
      have limit : state.mem.endPfn ≤ 2 ^ 20 := inv.placed.limit
      have far := position.1
      rw [region.endPfn] at here
      omega
  | fresh start pages after counted run lower upper region bits position offset =>
      exact tail_free_granted
        (tail_free_fresh inv counted run lower upper bits position offset)
  | within offset after here live tail fits open_ region bits position next =>
      exact tail_free_granted (tail_free_moved inv live here open_ tail keeps position next)
  | spill offset pages after here live tail inside open_ run lower _ region bits position next =>
      apply tail_free_granted
      -- After a spill into new pages the page behind the merge position is reserved.
      by_cases exactFit : pages = 0
      · subst exactFit
        rw [if_pos rfl] at position
        by_cases full : (offset + size) % pageSize = 0
        · intro stays
          rw [next, full] at stays
          exact absurd rfl stays
        · rw [spill_offset_same lower full] at next
          exact tail_free_moved inv live here open_ tail keeps position next
      · intro _ _ clear
        rw [bits, position, if_neg exactFit, set_range_inside (by omega) (by omega)] at clear
        exact Bool.noConfusion clear

theorem mem_granted {live : List Block} {block : Block} (held : block ∈ granted live addr size) :
    block ∈ live ∨ (addr ≠ 0 ∧ block = ⟨addr, size⟩) := by
  unfold granted at held
  split_ifs at held with isNull
  · exact Or.inl held
  · rcases List.mem_cons.mp held with rfl | older
    · exact Or.inr ⟨isNull, rfl⟩
    · exact Or.inl older

/-- Every outcome of an allocation keeps the invariant. -/
theorem alloc_keeps (inv : BlockInv state) (effect : AllocEffect state.mem size addr after) :
    BlockInv { mem := after, live := granted state.live addr size } := by
  refine ⟨effect_placed inv.placed effect, ⟨?_, ?_⟩, ?_, ?_, tail_free_after inv effect⟩
  · unfold granted
    split_ifs with isNull
    · exact inv.safe.apart
    · exact List.Pairwise.cons (fun block held byte inNew =>
        (new_block_unused inv effect isNull inNew).2 block held) inv.safe.apart
  · intro block held byte inside
    rcases mem_granted held with older | ⟨nonnull, rfl⟩
    · exact effect_keeps_bits effect _ (inv.safe.marked block older byte inside)
    · exact (new_block_unused inv effect nonnull inside).1
  · intro block held
    rcases mem_granted held with older | ⟨nonnull, rfl⟩
    · exact inv.null block older
    · exact nonnull
  · intro block held
    rcases mem_granted held with older | ⟨nonnull, rfl⟩
    · exact inv.bound block older
    · exact effect_bound inv.placed effect nonnull

end Alloc

/-! ## Frees, reservations and whole runs -/

theorem released_page {block : Block} {byte : Nat}
    (aligned : block.addr % pageSize = 0) (whole : block.size % pageSize = 0)
    (lower : block.addr ≤ pageOf byte * pageSize)
    (upper : pageOf byte * pageSize < block.addr + block.size) : block.Contains byte := by
  unfold Block.Contains
  unfold pageOf at lower upper
  unfold pageSize at *
  omega

theorem free_keeps {state : PageState} (inv : BlockInv state) {block : Block}
    (freeable : block.freeable state.live = true) :
    BlockInv (released state block (freeMemAllocator state.mem block.addr block.size)) := by
  simp only [Block.freeable, Bool.and_eq_true, decide_eq_true_eq] at freeable
  obtain ⟨⟨held, aligned⟩, whole⟩ := freeable
  have bound := inv.bound block held
  have nonnull := inv.null block held
  have others : (block :: state.live.erase block).Pairwise Block.Apart :=
    (List.perm_cons_erase held).pairwise inv.safe.apart (fun apart => Block.apart_symm apart)
  have sub : ∀ other ∈ state.live.erase block, other ∈ state.live :=
    fun other => List.mem_of_mem_erase
  rcases free_effect state.mem inv.placed.base block.addr block.size
    (by omega) (by omega) nonnull with ⟨refused, same⟩ | ⟨accepted, region, pos, offset, bits⟩
  · unfold released
    rw [refused, same]
    exact inv
  · unfold released
    rw [if_neg (Int.not_lt.mpr accepted)]
    refine ⟨⟨region.memStart.trans inv.placed.base, ?_, ?_, ?_⟩,
      ⟨(List.pairwise_cons.mp others).2, ?_⟩, fun other kept => inv.null other (sub other kept),
      fun other kept => inv.bound other (sub other kept), ?_⟩
    · rw [region.endPfn]
      exact inv.placed.limit
    · rw [offset]
      exact page_size_positive
    · intro live
      exact absurd offset live
    · intro other kept byte inside
      rw [bits, if_neg]
      · exact inv.safe.marked other (sub other kept) byte inside
      · rintro ⟨lower, upper⟩
        exact (List.pairwise_cons.mp others).1 other kept byte
          (released_page aligned whole lower upper) inside
    · intro live
      exact absurd offset live

theorem free_pages_keeps {state : PageState} (inv : BlockInv state) {block : Block} {order : Int}
    (freeable : block.freeable state.live = true) (whole : orderSize order = block.size) :
    BlockInv (released state block (freePages state.mem block.addr order)) := by
  unfold freePages
  split_ifs with bad
  · exact inv
  · rw [whole]
    exact free_keeps inv freeable

theorem reserve_keeps {state : PageState} (inv : BlockInv state) (addr size : Nat) :
    BlockInv { state with mem := (reserveMemAllocator state.mem addr size).2 } := by
  obtain ⟨region, pos, offset, keeps⟩ := reserve_effect state.mem addr size
  generalize (reserveMemAllocator state.mem addr size).2 = after at *
  refine ⟨⟨region.memStart.trans inv.placed.base, ?_, ?_, ?_⟩, ⟨inv.safe.apart, ?_⟩, inv.null,
    inv.bound, ?_⟩
  · rw [region.endPfn]
    exact inv.placed.limit
  · rw [offset]
    exact inv.placed.offset
  · rw [offset, pos, region.endPfn]
    exact inv.placed.position
  · intro block held byte inside
    exact keeps _ (inv.safe.marked block held byte inside)
  · intro live here open_
    rw [offset] at live ⊢
    rw [pos] at open_ here ⊢
    rw [region.endPfn] at here
    have wasOpen : state.mem.bitmap (state.mem.lastPos + 1) = false := by
      cases before : state.mem.bitmap (state.mem.lastPos + 1) with
      | false => rfl
      | true =>
          rw [keeps _ before] at open_
          exact Bool.noConfusion open_
    obtain ⟨set, below⟩ := inv.tail live here wasOpen
    exact ⟨keeps _ set, below⟩

theorem order_size_lt (order : Int) : orderSize order < 2 ^ 32 := by
  unfold orderSize
  exact ulong_lt _

theorem page_step_inv {before after : PageState} {event : PageEvent} (inv : BlockInv before)
    (inRange : requestsInRange before event) (stepped : pageStep before event = some after) :
    BlockInv after := by
  cases event with
  | alloc size align =>
      obtain rfl := Option.some.inj stepped
      exact alloc_keeps inv (alloc_effect inv.placed size.isLt inRange)
  | getFreePages order =>
      obtain rfl := Option.some.inj stepped
      exact alloc_keeps inv (alloc_effect inv.placed (order_size_lt order) inRange)
  | reserve addr size =>
      obtain rfl := Option.some.inj stepped
      exact reserve_keeps inv addr.toNat size.toNat
  | free block =>
      simp only [pageStep] at stepped
      split_ifs at stepped with freeable
      obtain rfl := Option.some.inj stepped
      exact free_keeps inv freeable
  | freePages block order =>
      simp only [pageStep] at stepped
      split_ifs at stepped with freeable
      obtain rfl := Option.some.inj stepped
      simp only [Bool.and_eq_true, decide_eq_true_eq] at freeable
      exact free_pages_keeps inv freeable.1 freeable.2

theorem page_run_inv {start finish : PageState} (inv : BlockInv start)
    (run : Reaches pageStep requestsInRange start finish) : BlockInv finish :=
  reaches_invariant inv (fun _ _ _ held inRange stepped => page_step_inv held inRange stepped) run

end MirOs.PageBlocks
