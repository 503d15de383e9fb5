import MirOs.StringMachine

/-!
# `memcpy` and `memmove`

Both copy with repeated instructions: `memcpy` words and then the bytes that are left, `memmove`
bytes, from the end if the destination lies behind the source. What they leave is compared with a
move, which reads all bytes of the source before the first store.
-/

namespace MirOs.StringMoves

set_option autoImplicit false

open MirOs.ByteMemory MirOs.StringMachine

def memcpyText (bytes : BitVec 32) : List Instr :=
  [.cld, .repMovsl, .movi (bytes % 4) .ecx, .repMovsb]

def memmoveUpText : List Instr := [.std, .repMovsb, .cld]

def memmoveDownText : List Instr := [.cld, .repMovsb]

/-- The memory behind the routine. -/
def myMemcpy (fuel : Nat) (m : Machine) (dst src : Address) (bytes : BitVec 32) : Option Memory :=
  (run (memcpyText bytes) fuel { m with pc := 0, esi := src, edi := dst, ecx := bytes / 4 }).map
    Machine.memory

def myMemmove (fuel : Nat) (m : Machine) (dst src : Address) (bytes : BitVec 32) : Option Memory :=
  if src < dst then
    (run memmoveUpText fuel
      { m with pc := 0, esi := src + bytes - 1, edi := dst + bytes - 1, ecx := bytes }).map
      Machine.memory
  else
    (run memmoveDownText fuel { m with pc := 0, esi := src, edi := dst, ecx := bytes }).map
      Machine.memory

/-- All bytes at once. -/
def move (memory : Memory) (dst src : Address) (count : Nat) : Memory := fun x =>
  if InRange dst count x then memory (src + (x - dst)) else memory x

section Moves

variable (memory : Memory) {dst src : Address}

theorem in_range_at (base : Address) (count : Nat) {p : Nat} (small : p < 2 ^ 32) :
    InRange base count (base + BitVec.ofNat 32 p) ↔ p < count := by
  have place : base + BitVec.ofNat 32 p - base = BitVec.ofNat 32 p := by
    rw [BitVec.add_comm, BitVec.add_sub_cancel]
  unfold InRange
  rw [place, BitVec.toNat_ofNat, Nat.mod_eq_of_lt small]

theorem move_inside {count p : Nat} (small : p < 2 ^ 32) (inside : p < count) :
    move memory dst src count (dst + BitVec.ofNat 32 p) = memory (src + BitVec.ofNat 32 p) := by
  have place : dst + BitVec.ofNat 32 p - dst = BitVec.ofNat 32 p := by
    rw [BitVec.add_comm, BitVec.add_sub_cancel]
  unfold move
  rw [if_pos ((in_range_at dst count small).mpr inside), place]

theorem move_outside {count : Nat} {x : Address} (outside : ¬ InRange dst count x) :
    move memory dst src count x = memory x := if_neg outside

theorem move_none : move memory dst src 0 = memory := by
  funext x
  exact if_neg (Nat.not_lt_zero _)

/-- Two memories that agree at every distance from an address. -/
theorem memory_ext {first second : Memory} (a : Address)
    (same : ∀ p, p < 2 ^ 32 → first (a + BitVec.ofNat 32 p) = second (a + BitVec.ofNat 32 p)) :
    first = second := by
  funext x
  have place : a + BitVec.ofNat 32 (x - a).toNat = x := by
    rw [BitVec.ofNat_toNat, BitVec.setWidth_eq, BitVec.add_comm, BitVec.sub_add_cancel]
  rw [← place]
  exact same _ (x - a).isLt

theorem move_one : Function.update memory dst (memory src) = move memory dst src 1 := by
  refine memory_ext dst (fun p small => ?_)
  by_cases first : p < 1
  · obtain rfl : p = 0 := by omega
    rw [move_inside memory small first, BitVec.add_zero, BitVec.add_zero, Function.update_self]
  · have other : dst + BitVec.ofNat 32 p ≠ dst := by bv_omega
    rw [move_outside memory (fun inside => first ((in_range_at dst 1 small).mp inside)),
      Function.update_of_ne other]

/-- An address of the source is not among the first bytes of the destination. -/
theorem source_unread {first total p : Nat} (inside : first ≤ p) (below : p < total)
    (low : dst.toNat + total ≤ 2 ^ 32) (high : src.toNat + total ≤ 2 ^ 32)
    (order : dst.toNat ≤ src.toNat ∨ src.toNat + total ≤ dst.toNat) :
    ¬ InRange dst first (src + BitVec.ofNat 32 p) := by
  unfold InRange
  rw [BitVec.toNat_sub, BitVec.toNat_add, BitVec.toNat_ofNat]
  omega

/-- Nor is one among the last ones, if it lies in front of them. -/
theorem source_unread_last {first second p : Nat} (inside : p < first)
    (low : dst.toNat + (first + second) ≤ 2 ^ 32) (order : src.toNat ≤ dst.toNat) :
    ¬ InRange (dst + BitVec.ofNat 32 first) second (src + BitVec.ofNat 32 p) := by
  unfold InRange
  rw [BitVec.toNat_sub, BitVec.toNat_add, BitVec.toNat_add, BitVec.toNat_ofNat, BitVec.toNat_ofNat]
  omega

theorem later_outside {first second p : Nat} (inside : p < first) (room : first + second ≤ 2 ^ 32) :
    ¬ InRange (dst + BitVec.ofNat 32 first) second (dst + BitVec.ofNat 32 p) := by
  unfold InRange
  bv_omega

/-- From the beginning on, in two parts. -/
theorem move_append {first second : Nat} (low : dst.toNat + (first + second) ≤ 2 ^ 32)
    (high : src.toNat + (first + second) ≤ 2 ^ 32)
    (order : dst.toNat ≤ src.toNat ∨ src.toNat + (first + second) ≤ dst.toNat) :
    move (move memory dst src first) (dst + BitVec.ofNat 32 first) (src + BitVec.ofNat 32 first)
        second = move memory dst src (first + second) := by
  refine memory_ext dst (fun p small => ?_)
  by_cases earlier : p < first
  · rw [move_outside _ (later_outside earlier (by omega)), move_inside memory small earlier,
      move_inside memory small (by omega)]
  · obtain ⟨q, rfl⟩ := Nat.exists_eq_add_of_le (Nat.not_lt.mp earlier)
    rw [BitVec.ofNat_add, ← BitVec.add_assoc]
    by_cases later : q < second
    · rw [move_inside _ (by omega) later, BitVec.add_assoc, BitVec.add_assoc, ← BitVec.ofNat_add,
        move_inside memory small (by omega),
        move_outside memory (source_unread (by omega) (by omega) low high order)]
    · have beyond : ¬ InRange (dst + BitVec.ofNat 32 first) second
          (dst + BitVec.ofNat 32 first + BitVec.ofNat 32 q) :=
        fun inside => later ((in_range_at _ second (by omega)).mp inside)
      have whole : ¬ InRange dst (first + second) (dst + BitVec.ofNat 32 (first + q)) := by
        rw [in_range_at dst (first + second) small]
        omega
      rw [move_outside _ beyond, BitVec.add_assoc, ← BitVec.ofNat_add,
        move_outside memory (fun inside => earlier ((in_range_at dst first small).mp inside)),
        move_outside memory whole]

/-- From the end on. -/
theorem move_prepend {first second : Nat} (low : dst.toNat + (first + second) ≤ 2 ^ 32)
    (order : src.toNat ≤ dst.toNat) :
    move (move memory (dst + BitVec.ofNat 32 first) (src + BitVec.ofNat 32 first) second) dst src
        first = move memory dst src (first + second) := by
  refine memory_ext dst (fun p small => ?_)
  by_cases earlier : p < first
  · rw [move_inside _ small earlier, move_inside memory small (by omega),
      move_outside memory (source_unread_last earlier low order)]
  · obtain ⟨q, rfl⟩ := Nat.exists_eq_add_of_le (Nat.not_lt.mp earlier)
    rw [move_outside _ (fun inside => earlier ((in_range_at dst first small).mp inside))]
    by_cases later : q < second
    · rw [move_inside memory small (by omega), BitVec.ofNat_add, ← BitVec.add_assoc,
        move_inside memory (by omega) later, BitVec.add_assoc]
    · have whole : ¬ InRange dst (first + second) (dst + BitVec.ofNat 32 (first + q)) := by
        rw [in_range_at dst (first + second) small]
        omega
      have part : ¬ InRange (dst + BitVec.ofNat 32 first) second
          (dst + BitVec.ofNat 32 (first + q)) := by
        rw [BitVec.ofNat_add, ← BitVec.add_assoc, in_range_at _ second (by omega)]
        exact later
      rw [move_outside memory part, move_outside memory whole]

end Moves

/-! ## Repeated instructions -/

section Repeated

variable {pc : Nat} {eax ecx edx src dst : BitVec 32} {zero sign less : Bool} {memory : Memory}

/-- A move of one unit goes on behind it. -/
theorem bounds_next {unit count : Nat} (low : dst.toNat + (unit + count) ≤ 2 ^ 32)
    (high : src.toNat + (unit + count) ≤ 2 ^ 32) (small : unit < 2 ^ 32)
    (order : dst.toNat ≤ src.toNat ∨ src.toNat + (unit + count) ≤ dst.toNat) :
    (dst + BitVec.ofNat 32 unit).toNat + count ≤ 2 ^ 32 ∧
      (src + BitVec.ofNat 32 unit).toNat + count ≤ 2 ^ 32 ∧
      ((dst + BitVec.ofNat 32 unit).toNat ≤ (src + BitVec.ofNat 32 unit).toNat ∨
        (src + BitVec.ofNat 32 unit).toNat + count ≤ (dst + BitVec.ofNat 32 unit).toNat) := by
  rw [BitVec.toNat_add, BitVec.toNat_add, BitVec.toNat_ofNat]
  omega

theorem bytes_up {count : Nat} (low : dst.toNat + count ≤ 2 ^ 32) (high : src.toNat + count ≤ 2 ^ 32)
    (order : dst.toNat ≤ src.toNat ∨ src.toNat + count ≤ dst.toNat) :
    times movs never count ⟨pc, eax, ecx, edx, src, dst, zero, sign, less, false, memory⟩ =
      ⟨pc, eax, ecx - BitVec.ofNat 32 count, edx, src + BitVec.ofNat 32 count,
        dst + BitVec.ofNat 32 count, zero, sign, less, false, move memory dst src count⟩ := by
  induction count generalizing ecx src dst memory with
  | zero =>
      rw [move_none]
      simp [times]
  | succ count ih =>
      rw [Nat.add_comm count 1] at low high order ⊢
      obtain ⟨low', high', order'⟩ := bounds_next low high (by decide) order
      have round : times movs never (1 + count)
          ⟨pc, eax, ecx, edx, src, dst, zero, sign, less, false, memory⟩ =
          times movs never count ⟨pc, eax, ecx - 1, edx, src + BitVec.ofNat 32 1,
            dst + BitVec.ofNat 32 1, zero, sign, less, false,
            Function.update memory dst (memory src)⟩ := by
        rw [Nat.add_comm]
        rfl
      rw [round, ih low' high' order', move_one, move_append memory low high order]
      congr 1 <;> bv_omega

theorem bytes_down {count : Nat} (low : dst.toNat + count ≤ 2 ^ 32) (order : src.toNat ≤ dst.toNat) :
    ∃ ecx' esi' edi', times movs never count
        ⟨pc, eax, ecx, edx, src + BitVec.ofNat 32 count - 1, dst + BitVec.ofNat 32 count - 1, zero,
          sign, less, true, memory⟩ =
      ⟨pc, eax, ecx', edx, esi', edi', zero, sign, less, true, move memory dst src count⟩ := by
  induction count generalizing ecx memory with
  | zero =>
      rw [move_none]
      exact ⟨_, _, _, rfl⟩
  | succ count ih =>
      have source : src + BitVec.ofNat 32 (count + 1) - 1 = src + BitVec.ofNat 32 count := by bv_omega
      have target : dst + BitVec.ofNat 32 (count + 1) - 1 = dst + BitVec.ofNat 32 count := by bv_omega
      obtain ⟨ecx', esi', edi', rest⟩ := @ih (ecx - 1) (Function.update memory
        (dst + BitVec.ofNat 32 count) (memory (src + BitVec.ofNat 32 count))) (by omega)
      rw [move_one, move_prepend memory low order] at rest
      refine ⟨ecx', esi', edi', ?_⟩
      rw [source, target, ← rest, ← move_one]
      rfl

/-! ## Words -/

theorem word_byte (a : Address) {k : Nat} (small : k < 4) :
    (word memory a).extractLsb' (8 * k) 8 = memory (a + BitVec.ofNat 32 k) := by
  unfold word
  obtain rfl | rfl | rfl | rfl : k = 0 ∨ k = 1 ∨ k = 2 ∨ k = 3 := by omega
  · rw [BitVec.add_zero]
    exact BitVec.extractLsb'_append_eq_right
  · refine (BitVec.extractLsb'_append_eq_of_le (by decide)).trans ?_
    exact BitVec.extractLsb'_append_eq_right
  · refine (BitVec.extractLsb'_append_eq_of_le (by decide)).trans ?_
    refine (BitVec.extractLsb'_append_eq_of_le (by decide)).trans ?_
    exact BitVec.extractLsb'_append_eq_right
  · refine (BitVec.extractLsb'_append_eq_of_le (by decide)).trans ?_
    refine (BitVec.extractLsb'_append_eq_of_le (by decide)).trans ?_
    refine (BitVec.extractLsb'_append_eq_of_le (by decide)).trans ?_
    exact BitVec.extractLsb'_eq_self

theorem word_move : setWord memory dst (word memory src) = move memory dst src 4 := by
  refine memory_ext dst (fun p small => ?_)
  by_cases inside : p < 4
  · have place : (dst + BitVec.ofNat 32 p - dst).toNat = p := by
      rw [BitVec.add_comm, BitVec.add_sub_cancel, BitVec.toNat_ofNat, Nat.mod_eq_of_lt small]
    unfold setWord
    rw [if_pos ((in_range_at dst 4 small).mpr inside), place, word_byte src inside,
      move_inside memory small inside]
  · have outside : ¬ InRange dst 4 (dst + BitVec.ofNat 32 p) :=
      fun within => inside ((in_range_at dst 4 small).mp within)
    rw [set_word_other outside, move_outside memory outside]

theorem words_up {count : Nat} (low : dst.toNat + 4 * count ≤ 2 ^ 32)
    (high : src.toNat + 4 * count ≤ 2 ^ 32)
    (order : dst.toNat ≤ src.toNat ∨ src.toNat + 4 * count ≤ dst.toNat) :
    times movsWord never count ⟨pc, eax, ecx, edx, src, dst, zero, sign, less, false, memory⟩ =
      ⟨pc, eax, ecx - BitVec.ofNat 32 count, edx, src + BitVec.ofNat 32 (4 * count),
        dst + BitVec.ofNat 32 (4 * count), zero, sign, less, false,
        move memory dst src (4 * count)⟩ := by
  induction count generalizing ecx src dst memory with
  | zero =>
      rw [move_none]
      simp [times]
  | succ count ih =>
      have total : 4 * (count + 1) = 4 + 4 * count := by omega
      rw [total] at low high order ⊢
      obtain ⟨low', high', order'⟩ := bounds_next low high (by decide) order
      have round : times movsWord never (count + 1)
          ⟨pc, eax, ecx, edx, src, dst, zero, sign, less, false, memory⟩ =
          times movsWord never count ⟨pc, eax, ecx - 1, edx, src + BitVec.ofNat 32 4,
            dst + BitVec.ofNat 32 4, zero, sign, less, false,
            setWord memory dst (word memory src)⟩ := rfl
      rw [round, ih low' high' order', word_move, move_append memory low high order]
      congr 1 <;> bv_omega

end Repeated

/-! ## The routines -/

theorem ended (program : List Instr) {m : Machine} (last : program.length ≤ m.pc) :
    step program m = none := by
  unfold step
  rw [List.getElem?_eq_none last]
  rfl

theorem of_nat_to_nat (bytes : BitVec 32) : BitVec.ofNat 32 bytes.toNat = bytes := by
  rw [BitVec.ofNat_toNat, BitVec.setWidth_eq]

theorem memmove_up (m : Machine) {dst src bytes : BitVec 32}
    (low : dst.toNat + bytes.toNat ≤ 2 ^ 32) (order : src.toNat ≤ dst.toNat) :
    ∃ after, Runs memmoveUpText
        { m with pc := 0, esi := src + bytes - 1, edi := dst + bytes - 1, ecx := bytes } after ∧
      after.pc = 3 ∧ after.memory = move m.memory dst src bytes.toNat := by
  obtain ⟨ecx', esi', edi', moved⟩ := @bytes_down 1 m.eax bytes m.edx src dst m.zero m.sign
    m.less m.memory bytes.toNat low order
  rw [of_nat_to_nat] at moved
  have runs : Runs memmoveUpText
      { m with pc := 0, esi := src + bytes - 1, edi := dst + bytes - 1, ecx := bytes }
      ⟨3, m.eax, ecx', m.edx, esi', edi', m.zero, m.sign, m.less, false,
        move m.memory dst src bytes.toNat⟩ := by
    refine runs_step .std rfl ?_
    refine runs_to .repMovsb rfl (congrArg Machine.next moved) ?_
    exact runs_step .cld rfl .refl
  exact ⟨_, runs, rfl, rfl⟩

theorem memmove_down (m : Machine) {dst src bytes : BitVec 32}
    (low : dst.toNat + bytes.toNat ≤ 2 ^ 32) (high : src.toNat + bytes.toNat ≤ 2 ^ 32)
    (order : dst.toNat ≤ src.toNat) :
    ∃ after, Runs memmoveDownText { m with pc := 0, esi := src, edi := dst, ecx := bytes } after ∧
      after.pc = 2 ∧ after.memory = move m.memory dst src bytes.toNat := by
  have moved := @bytes_up 1 m.eax bytes m.edx src dst m.zero m.sign m.less m.memory bytes.toNat low high
    (.inl order)
  have runs : Runs memmoveDownText { m with pc := 0, esi := src, edi := dst, ecx := bytes }
      ⟨2, m.eax, bytes - BitVec.ofNat 32 bytes.toNat, m.edx, src + BitVec.ofNat 32 bytes.toNat,
        dst + BitVec.ofNat 32 bytes.toNat, m.zero, m.sign, m.less, false,
        move m.memory dst src bytes.toNat⟩ := by
    refine runs_step .cld rfl ?_
    exact runs_to .repMovsb rfl (congrArg Machine.next moved) .refl
  exact ⟨_, runs, rfl, rfl⟩

/-- `memmove` moves the bytes, however source and destination overlap. -/
theorem memmove_eq (m : Machine) {dst src bytes : BitVec 32}
    (low : dst.toNat + bytes.toNat ≤ 2 ^ 32) (high : src.toNat + bytes.toNat ≤ 2 ^ 32) :
    ∃ steps, ∀ fuel, steps ≤ fuel →
      myMemmove fuel m dst src bytes = some (move m.memory dst src bytes.toNat) := by
  unfold myMemmove
  by_cases behind : src < dst
  · obtain ⟨after, runs, pc, moved⟩ := memmove_up m low (Nat.le_of_lt behind)
    obtain ⟨steps, enough⟩ := run_of_runs runs (ended _ (by rw [pc]; decide))
    refine ⟨steps, fun fuel more => ?_⟩
    rw [if_pos behind, enough fuel more, Option.map_some, moved]
  · obtain ⟨after, runs, pc, moved⟩ := memmove_down m low high (Nat.le_of_not_lt behind)
    obtain ⟨steps, enough⟩ := run_of_runs runs (ended _ (by rw [pc]; decide))
    refine ⟨steps, fun fuel more => ?_⟩
    rw [if_neg behind, enough fuel more, Option.map_some, moved]

def zeroMachine : Machine := ⟨0, 0, 0, 0, 0, 0, false, false, false, true, fun _ => 0⟩

/-- Five bytes, three bytes further. -/
theorem memmove_eq_ahead : ∃ steps, ∀ fuel, steps ≤ fuel →
    myMemmove fuel zeroMachine 0x1003 0x1000 5 = some (move (fun _ => 0) 0x1003 0x1000 5) :=
  memmove_eq zeroMachine (by decide) (by decide)

/-- `memcpy` does, if the destination does not begin within the source. -/
theorem memcpy_eq (m : Machine) {dst src bytes : BitVec 32}
    (low : dst.toNat + bytes.toNat ≤ 2 ^ 32) (high : src.toNat + bytes.toNat ≤ 2 ^ 32)
    (order : dst.toNat ≤ src.toNat ∨ src.toNat + bytes.toNat ≤ dst.toNat) :
    ∃ steps, ∀ fuel, steps ≤ fuel →
      myMemcpy fuel m dst src bytes = some (move m.memory dst src bytes.toNat) := by
  have words : (bytes / 4).toNat = bytes.toNat / 4 := by simp
  have left : (bytes % 4).toNat = bytes.toNat % 4 := by simp
  have total : 4 * (bytes / 4).toNat + (bytes % 4).toNat = bytes.toNat := by omega
  rw [← total] at low high order
  have whole : 4 * (bytes / 4).toNat < 2 ^ 32 := by omega
  obtain ⟨low', high', order'⟩ := bounds_next low high whole order
  have first := @words_up 1 m.eax (bytes / 4) m.edx src dst m.zero m.sign m.less m.memory
    (bytes / 4).toNat (by omega) (by omega) (by omega)
  have second := @bytes_up 3 m.eax (bytes % 4) m.edx (src + BitVec.ofNat 32 (4 * (bytes / 4).toNat))
    (dst + BitVec.ofNat 32 (4 * (bytes / 4).toNat)) m.zero m.sign m.less
    (move m.memory dst src (4 * (bytes / 4).toNat)) (bytes % 4).toNat low' high' order'
  rw [move_append m.memory low high order, total] at second
  have runs : Runs (memcpyText bytes) { m with pc := 0, esi := src, edi := dst, ecx := bytes / 4 }
      ⟨4, m.eax, bytes % 4 - BitVec.ofNat 32 (bytes % 4).toNat, m.edx,
        src + BitVec.ofNat 32 (4 * (bytes / 4).toNat) + BitVec.ofNat 32 (bytes % 4).toNat,
        dst + BitVec.ofNat 32 (4 * (bytes / 4).toNat) + BitVec.ofNat 32 (bytes % 4).toNat, m.zero,
        m.sign, m.less, false, move m.memory dst src bytes.toNat⟩ := by
    refine runs_step .cld rfl ?_
    refine runs_to .repMovsl rfl (congrArg Machine.next first) ?_
    refine runs_step (.movi (bytes % 4) .ecx) rfl ?_
    exact runs_to .repMovsb rfl (congrArg Machine.next second) .refl
  obtain ⟨steps, enough⟩ := run_of_runs runs (ended _ (Nat.le_refl 4))
  refine ⟨steps, fun fuel more => ?_⟩
  unfold myMemcpy
  rw [enough fuel more]
  rfl

/-- Five words and three bytes to the address below. -/
theorem memcpy_eq_below : ∃ steps, ∀ fuel, steps ≤ fuel →
    myMemcpy fuel zeroMachine 0xfff 0x1000 23 = some (move (fun _ => 0) 0xfff 0x1000 23) :=
  memcpy_eq zeroMachine (by decide) (by decide) (.inl (by decide))

end MirOs.StringMoves
