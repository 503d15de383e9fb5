import MirOs.PageCounts

/-!
# Alignment of what the allocator returns

A request that is not merged starts on a page. A merged request starts at the
offset the last request left, and that offset is brought to a multiple of
`SMP_CACHE_ALIGN` and not of the alignment asked for. An allocation is aligned
exactly when it is not merged or that rounded offset is aligned already.
-/

namespace MirOs.PageAlign

open MirOs.MachineWord MirOs.PageAllocModel MirOs.PageAllocEffect MirOs.PageAccounting
open MirOs.PageCounts

set_option autoImplicit false

/-- `last_offset` moved up to a cache line. -/
def roundedOffset (mem : MemAlloc) : Nat :=
  ulongOfInt (alignVal (wrapInt mem.lastOffset) smpCacheAlign)

/-- The request is merged into the tail of the last allocated page. -/
def TakenFromTail (mem : MemAlloc) (size align : Nat) : Prop :=
  ∃ start, contiguousScan mem (pagesUp size) = some start ∧ merges mem align start = true

/-! ## The offset of a merged request -/

theorem ulong_of_wrap_int (value : Nat) : ulongOfInt (wrapInt value) = value % 2 ^ 32 := by
  unfold ulongOfInt wrapInt
  omega

theorem rounded_offset_eq (mem : MemAlloc) :
    roundedOffset mem = (mem.lastOffset % 2 ^ 32 + 31) % 2 ^ 32 / 32 * 32 := by
  have word : (BitVec.ofInt 32 (wrapInt mem.lastOffset)).toNat = mem.lastOffset % 2 ^ 32 := by
    have value := ulong_of_wrap_int mem.lastOffset
    unfold ulongOfInt at value
    rw [BitVec.toNat_ofInt]
    exact_mod_cast value
  have sum : (BitVec.ofInt 32 (wrapInt mem.lastOffset) + BitVec.ofInt 32 smpCacheAlign -
      1).toNat = (mem.lastOffset % 2 ^ 32 + 31) % 2 ^ 32 := by
    have line : (BitVec.ofInt 32 (smpCacheAlign : Int)).toNat = 32 := by decide
    have one : (1 : BitVec 32).toNat = 1 := by decide
    rw [BitVec.toNat_sub, BitVec.toNat_add, word, line, one]
    omega
  have mask : BitVec.ofInt 32 (smpCacheAlign : Int) - 1 = BitVec.ofNat 32 (2 ^ 5 - 1) := by decide
  have masked := and_not_low_bits
    (BitVec.ofInt 32 (wrapInt mem.lastOffset) + BitVec.ofInt 32 smpCacheAlign - 1) 5 (by omega)
  unfold roundedOffset alignVal ulongOfInt
  rw [mask, BitVec.toInt_eq_toNat_cond]
  rw [sum] at masked
  split_ifs <;> omega

theorem two_pow_dvd_of_le {shift exponent value : Nat} (small : shift ≤ exponent)
    (whole : 2 ^ exponent ∣ value) : 2 ^ shift ∣ value :=
  Nat.dvd_trans (Nat.pow_dvd_pow 2 small) whole

/-- The test `offset & (align - 1)` is the remainder by the alignment. -/
theorem low_bits_zero {shift value : Nat} (small : shift < 12) :
    value &&& ulong (2 ^ shift + 2 ^ 32 - 1) = 0 ↔ 2 ^ shift ∣ value := by
  have width : 2 ^ shift < 2 ^ 12 := Nat.pow_lt_pow_right (by omega) small
  have positive : 0 < 2 ^ shift := Nat.two_pow_pos shift
  have mask : ulong (2 ^ shift + 2 ^ 32 - 1) = 2 ^ shift - 1 := by
    unfold ulong
    omega
  rw [mask, Nat.and_two_pow_sub_one_eq_mod, Nat.dvd_iff_mod_eq_zero]

/-- An offset that is a multiple of the alignment stays one on a cache line. -/
theorem rounded_offset_whole {mem : MemAlloc} {shift : Nat}
    (whole : 2 ^ shift ∣ mem.lastOffset % 2 ^ 32) : 2 ^ shift ∣ roundedOffset mem := by
  rw [rounded_offset_eq]
  by_cases fine : shift ≤ 5
  · exact two_pow_dvd_of_le fine ⟨_, Nat.mul_comm _ _⟩
  · have line : 32 ∣ mem.lastOffset % 2 ^ 32 := @two_pow_dvd_of_le 5 shift _ (by omega) whole
    have same : (mem.lastOffset % 2 ^ 32 + 31) % 2 ^ 32 / 32 * 32 = mem.lastOffset % 2 ^ 32 := by
      omega
    rw [same]
    exact whole

theorem merge_offset_aligned {mem : MemAlloc} {shift : Nat} (small : shift < 12) :
    2 ^ shift ∣ ulongOfInt (mergeOffset mem (2 ^ shift)) ↔ 2 ^ shift ∣ roundedOffset mem := by
  unfold mergeOffset
  dsimp only
  by_cases misses : ulongOfInt (wrapInt mem.lastOffset) &&& ulong (2 ^ shift + 2 ^ 32 - 1) ≠ 0
  · rw [if_pos misses]
    rfl
  · rw [if_neg misses]
    have whole := (low_bits_zero small).mp (not_not.mp misses)
    rw [ulong_of_wrap_int] at whole ⊢
    exact ⟨fun _ => rounded_offset_whole whole, fun _ => whole⟩

/-- Without an alignment the offset is rounded to a cache line. -/
theorem merge_offset_unaligned (mem : MemAlloc) :
    ulongOfInt (mergeOffset mem 0) = roundedOffset mem := by
  have mask : ulong (0 + 2 ^ 32 - 1) = 2 ^ 32 - 1 := by
    unfold ulong
    rfl
  unfold mergeOffset
  dsimp only
  rw [mask, Nat.and_two_pow_sub_one_eq_mod, ulong_of_wrap_int]
  by_cases idle : mem.lastOffset % 2 ^ 32 % 2 ^ 32 = 0
  · rw [if_neg (not_not.mpr idle), ulong_of_wrap_int, rounded_offset_eq]
    omega
  · rw [if_pos idle]
    rfl

/-! ## The address returned -/

theorem dvd_mod_word {divisor value : Nat} (whole : divisor ∣ 2 ^ 32) :
    divisor ∣ ulong value ↔ divisor ∣ value := by
  unfold ulong
  exact Nat.dvd_mod_iff whole

theorem page_dvd_word : pageSize ∣ 2 ^ 32 := by
  unfold pageSize
  decide

theorem page_dvd_phys_addr (pfn : Nat) : pageSize ∣ physAddr pfn := by
  unfold physAddr
  exact (dvd_mod_word page_dvd_word).mpr (Nat.dvd_mul_left _ _)

section Address

variable {mem : MemAlloc} {align size divisor : Nat}

theorem merged_addr_aligned (base : pageSize ∣ mem.memStart) (divides : divisor ∣ pageSize) :
    divisor ∣ (mergeAllocation mem size align).1 ↔
      divisor ∣ ulongOfInt (mergeOffset mem align) := by
  have addr : (mergeAllocation mem size align).1 =
      ulong (mem.memStart + physAddr mem.lastPos + ulongOfInt (mergeOffset mem align)) := by
    by_cases room : wrapInt size < wrapInt (pageSize - mergeOffset mem align)
    · simp only [mergeAllocation, if_pos room]
    · simp only [mergeAllocation, if_neg room]
  have page : divisor ∣ mem.memStart + physAddr mem.lastPos :=
    Nat.dvd_add (Nat.dvd_trans divides base) (Nat.dvd_trans divides (page_dvd_phys_addr _))
  rw [addr, dvd_mod_word (Nat.dvd_trans divides page_dvd_word)]
  exact Nat.dvd_add_right page

theorem fresh_addr_aligned (base : pageSize ∣ mem.memStart) (divides : divisor ∣ pageSize)
    (pages start : Nat) : divisor ∣ (freshAllocation mem size pages start).1 := by
  unfold freshAllocation
  rw [dvd_mod_word (Nat.dvd_trans divides page_dvd_word)]
  exact Nat.dvd_add (Nat.dvd_trans divides base) (Nat.dvd_trans divides (page_dvd_phys_addr _))

theorem reserve_rest_addr (start addr pages : Nat) (success : (reserveRest start addr pages mem).1 ≠ 0) :
    (reserveRest start addr pages mem).1 = addr := by
  unfold reserveRest at success ⊢
  by_cases none_ : pages ≠ 0
  · rw [if_pos none_] at success ⊢
    dsimp only at success ⊢
    split_ifs at success ⊢
    · exact absurd rfl success
    · rfl
  · rw [if_neg none_]

/-- A request that succeeds is aligned unless it is merged at an offset that is not. -/
theorem alloc_aligned_iff (base : pageSize ∣ mem.memStart) (divides : divisor ∣ pageSize)
    (success : (allocMemAllocator mem size align).1 ≠ 0) :
    divisor ∣ (allocMemAllocator mem size align).1 ↔
      (TakenFromTail mem size align → divisor ∣ ulongOfInt (mergeOffset mem align)) := by
  unfold allocMemAllocator at success ⊢
  dsimp only at success ⊢
  split_ifs at success ⊢
  · exact absurd rfl success
  · exact absurd rfl success
  unfold rawAllocMemAllocator TakenFromTail at *
  cases found : contiguousScan mem (pagesUp size) with
  | none =>
      rw [found] at success
      exact absurd rfl success
  | some start =>
      rw [found] at success
      dsimp only at success ⊢
      rw [reserve_rest_addr _ _ _ success]
      by_cases merged : merges mem align start = true
      · rw [if_pos merged, merged_addr_aligned base divides]
        constructor
        · intro whole _
          exact whole
        · intro conditional
          exact conditional ⟨start, rfl, merged⟩
      · rw [if_neg merged]
        constructor
        · rintro _ ⟨other, same, taken⟩
          obtain rfl := Option.some.inj same
          exact absurd taken merged
        · intro _
          exact fresh_addr_aligned base divides _ _

end Address

/-! ## Runs -/

theorem calls_base {ram : Nat → Bool} {limit mapStart memStart : Nat} {mem : MemAlloc}
    (ready : initMemAllocator ram limit 0 limit mapStart memStart = some mem)
    (history : List PageCall) : pageSize ∣ (history.foldl call mem).memStart := by
  have start : pageSize ∣ mem.memStart := by
    unfold initMemAllocator at ready
    split_ifs at ready
    all_goals
      obtain rfl := Option.some.inj ready
      rw [(op_mem_allocator_region _ _ _ _).1.memStart]
      exact page_dvd_phys_addr memStart
  clear ready
  induction history generalizing mem with
  | nil => exact start
  | cons request rest ih =>
      apply ih
      rw [← call_with_clamps]
      refine @call_with_kept (fun mem => pageSize ∣ mem.memStart) _ _ ?_ ?_ start request
      · intro before sidx eidx op holds
        rw [op_with_clamps, (op_mem_allocator_region before sidx eidx op).1.memStart]
        exact holds
      · intro before lastPos lastOffset holds
        exact holds

theorem two_pow_dvd_page {shift : Nat} (small : shift < 12) : 2 ^ shift ∣ pageSize := by
  have page : pageSize = 2 ^ 12 := by
    unfold pageSize
    rfl
  rw [page]
  exact Nat.pow_dvd_pow 2 (Nat.le_of_lt small)

/-- After any history a request that succeeds is aligned to the power of two it
names, and pages are aligned to a page, exactly when it is not merged into the
tail of the last page or the rounded offset is aligned in that way. -/
theorem allocation_aligned_iff {ram : Nat → Bool} {limit mapStart memStart : Nat} {mem : MemAlloc}
    (ready : initMemAllocator ram limit 0 limit mapStart memStart = some mem)
    (history : List PageCall) :
    let now := history.foldl call mem
    (∀ (size : BitVec 32) (shift : Nat), shift < 12 →
      (allocMemAllocator now size.toNat (2 ^ shift)).1 ≠ 0 →
      (2 ^ shift ∣ (allocMemAllocator now size.toNat (2 ^ shift)).1 ↔
        (TakenFromTail now size.toNat (2 ^ shift) → 2 ^ shift ∣ roundedOffset now))) ∧
    ∀ order : Int, (getFreePages now order).1 ≠ 0 →
      (pageSize ∣ (getFreePages now order).1 ↔
        (TakenFromTail now (orderSize order) 0 → pageSize ∣ roundedOffset now)) := by
  have base := calls_base ready history
  refine ⟨?_, ?_⟩
  · intro size shift small success
    rw [alloc_aligned_iff base (two_pow_dvd_page small) success, merge_offset_aligned small]
  · intro order success
    unfold getFreePages at success ⊢
    rw [alloc_aligned_iff base (Nat.dvd_refl _) success, merge_offset_unaligned]

/-- Alignments up to a cache line are always honoured. -/
theorem cache_line_alignment {ram : Nat → Bool} {limit mapStart memStart : Nat} {mem : MemAlloc}
    (ready : initMemAllocator ram limit 0 limit mapStart memStart = some mem)
    (history : List PageCall) (size : BitVec 32) {shift : Nat} (fine : shift ≤ 5)
    (success : (allocMemAllocator (history.foldl call mem) size.toNat (2 ^ shift)).1 ≠ 0) :
    2 ^ shift ∣ (allocMemAllocator (history.foldl call mem) size.toNat (2 ^ shift)).1 := by
  have small : shift < 12 := by omega
  rw [alloc_aligned_iff (calls_base ready history) (two_pow_dvd_page small) success,
    merge_offset_aligned small, rounded_offset_eq]
  intro _
  exact two_pow_dvd_of_le fine ⟨_, Nat.mul_comm _ _⟩

/-- The first megabyte is reserved and 100 bytes are taken behind it. -/
def smallBlockFirst : List PageCall := [.reserve 0 0x100000, .alloc 100 64]

theorem small_block_results :
    ∃ mem, initMemAllocator (fun _ => false) 4096 0 4096 512 0 = some mem ∧
      (allocMemAllocator (smallBlockFirst.foldl call mem) 100 (2 ^ 8)).1 = 0x100080 ∧
      (getFreePages (smallBlockFirst.foldl call mem) 0).1 = 0x100080 := by
  obtain ⟨mem, ready⟩ := init_mem_allocator_ready (fun _ => false) 4096 512 (by decide) (by decide)
  have returned : (initMemAllocator (fun _ => false) 4096 0 4096 512 0).map (fun mem =>
      let now := smallBlockFirst.foldl call mem
      ((allocMemAllocator now 100 (2 ^ 8)).1, (getFreePages now 0).1)) =
      some (0x100080, 0x100080) := by
    decide +kernel
  rw [ready] at returned
  have results := Prod.ext_iff.mp (Option.some.inj returned)
  exact ⟨mem, ready, results⟩

theorem allocation_aligned_second_block :
    ∃ mem, initMemAllocator (fun _ => false) 4096 0 4096 512 0 = some mem ∧
      let now := smallBlockFirst.foldl call mem
      (2 ^ 8 ∣ (allocMemAllocator now 100 (2 ^ 8)).1 ↔
        (TakenFromTail now 100 (2 ^ 8) → 2 ^ 8 ∣ roundedOffset now)) ∧
      (pageSize ∣ (getFreePages now 0).1 ↔
        (TakenFromTail now (orderSize 0) 0 → pageSize ∣ roundedOffset now)) := by
  obtain ⟨mem, ready, block, pages⟩ := small_block_results
  obtain ⟨blocks, areas⟩ := allocation_aligned_iff ready smallBlockFirst
  have granted : (allocMemAllocator (smallBlockFirst.foldl call mem)
      (100 : BitVec 32).toNat (2 ^ 8)).1 ≠ 0 :=
    block.trans_ne (by decide)
  have taken : (getFreePages (smallBlockFirst.foldl call mem) 0).1 ≠ 0 := pages.trans_ne (by decide)
  exact ⟨mem, ready, blocks 100 8 (by decide) granted, areas 0 taken⟩

theorem pages_inside_a_page :
    ¬ ∀ mem, initMemAllocator (fun _ => false) 4096 0 4096 512 0 = some mem →
      (∀ (size : BitVec 32) (shift : Nat), shift < 12 →
        (allocMemAllocator (smallBlockFirst.foldl call mem) size.toNat (2 ^ shift)).1 ≠ 0 →
        2 ^ shift ∣ (allocMemAllocator (smallBlockFirst.foldl call mem) size.toNat (2 ^ shift)).1) ∧
      ∀ order : Int, (getFreePages (smallBlockFirst.foldl call mem) order).1 ≠ 0 →
        pageSize ∣ (getFreePages (smallBlockFirst.foldl call mem) order).1 := by
  intro always
  obtain ⟨mem, ready, _, pages⟩ := small_block_results
  have aligned := (always mem ready).2 0 (by rw [pages]; decide)
  rw [pages] at aligned
  unfold pageSize at aligned
  exact absurd aligned (by decide)

end MirOs.PageAlign
