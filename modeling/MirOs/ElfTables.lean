import MirOs.ElfModule

/-!
# The tables of a module while it is loaded

A valid object file keeps its header, its section header table and the sections that take room in
the file apart. Then `relocate_base` changes the addresses in the table and nothing else, and the
loops over the sections see the table it leaves as long as nothing else writes there.
-/

namespace MirOs.ElfTables

set_option autoImplicit false

open MirOs.ByteMemory MirOs.ElfModule

/-! ## Parts of the file -/

/-- A part of the file, from an offset on. -/
structure Span where
  start : Nat
  len : Nat

def Span.Holds (s : Span) (k : Nat) : Prop := s.start ≤ k ∧ k < s.start + s.len

def Span.Apart (s t : Span) : Prop := ∀ k, ¬ (s.Holds k ∧ t.Holds k)

theorem Span.apart_iff {s t : Span} :
    s.Apart t ↔ s.len = 0 ∨ t.len = 0 ∨ s.start + s.len ≤ t.start ∨ t.start + t.len ≤ s.start := by
  unfold Apart Holds
  constructor
  · intro apart
    have first := apart s.start
    have second := apart t.start
    omega
  · intro cases_ k
    omega

instance (s t : Span) : Decidable (s.Apart t) := decidable_of_iff _ Span.apart_iff.symm

def headerSpan : Span := ⟨0, 52⟩

def tableSpan (hdr : Address) (file : Memory) : Span :=
  ⟨(ehdrAt file hdr).shoff.toNat, 40 * (ehdrAt file hdr).shnum⟩

def sectionsOf (hdr : Address) (file : Memory) : Address := hdr + (ehdrAt file hdr).shoff

/-- Section header `i` of the file. -/
def sectionOf (hdr : Address) (file : Memory) (i : Nat) : Shdr :=
  shdrAt file (sectionAt (sectionsOf hdr file) i)

def sectionSpan (hdr : Address) (file : Memory) (i : Nat) : Span :=
  ⟨(sectionOf hdr file i).offset.toNat, (sectionOf hdr file i).size.toNat⟩

/-- An object file of so many bytes. Sections of type `SHT_NOBITS` take no room in it. -/
structure ValidFile (hdr : Address) (size : Nat) (file : Memory) : Prop where
  short : size < 2 ^ 32
  behind : 52 ≤ (tableSpan hdr file).start
  table : (tableSpan hdr file).start + (tableSpan hdr file).len ≤ size
  inside : ∀ i, i < (ehdrAt file hdr).shnum → (sectionOf hdr file i).type ≠ shtNobits →
    (sectionSpan hdr file i).start + (sectionSpan hdr file i).len ≤ size
  headers : ∀ i, i < (ehdrAt file hdr).shnum → (sectionOf hdr file i).type ≠ shtNobits →
    (sectionSpan hdr file i).Apart headerSpan ∧
      (sectionSpan hdr file i).Apart (tableSpan hdr file)
  sections : ∀ i j, i < (ehdrAt file hdr).shnum → j < (ehdrAt file hdr).shnum → i ≠ j →
    (sectionOf hdr file i).type ≠ shtNobits → (sectionOf hdr file j).type ≠ shtNobits →
    (sectionSpan hdr file i).Apart (sectionSpan hdr file j)

/-! ## Rules for the loops -/

theorem range_rule {α : Type*} {Inv : Nat → α → Prop} {f : α → Nat → α} {n : Nat} {a : α}
    (start : Inv 0 a) (step : ∀ i a, i < n → Inv i a → Inv (i + 1) (f a i)) :
    Inv n ((List.range n).foldl f a) := by
  induction n with
  | zero => exact start
  | succ n ih =>
      rw [List.range_succ, List.foldl_append]
      refine step n _ (Nat.lt_succ_self n) (ih ?_)
      intro i a below inv
      exact step i a (Nat.lt_succ_of_lt below) inv

theorem range_option_rule {α : Type*} {Inv : Nat → α → Prop} {f : α → Nat → Option α} {n : Nat}
    {a b : α} (start : Inv 0 a)
    (step : ∀ i a b, i < n → Inv i a → f a i = some b → Inv (i + 1) b)
    (done : (List.range n).foldlM f a = some b) : Inv n b := by
  induction n generalizing b with
  | zero =>
      cases done
      exact start
  | succ n ih =>
      rw [List.range_succ, List.foldlM_append] at done
      obtain ⟨c, before, last⟩ := Option.bind_eq_some_iff.mp done
      have inv := ih (fun i a b below => step i a b (Nat.lt_succ_of_lt below)) before
      refine step n c b (Nat.lt_succ_self n) inv ?_
      simpa using last

theorem section_loop_rule {hdr : Address} {body : Nat → Memory → Memory}
    {Inv : Nat → Memory → Prop} {n : Nat}
    (count : ∀ i mem, Inv i mem → (ehdrAt mem hdr).shnum = n)
    (step : ∀ i mem, i < n → Inv i mem → Inv (i + 1) (body i mem)) {rounds i : Nat} {mem : Memory}
    (inv : Inv i mem) (before : i ≤ n) (enough : n ≤ i + rounds) :
    Inv n (sectionLoop hdr body rounds i mem) := by
  induction rounds generalizing i mem with
  | zero =>
      obtain rfl : i = n := by omega
      exact inv
  | succ rounds ih =>
      rw [sectionLoop, count i mem inv]
      split
      · next more => exact ih (step i mem more inv) more (by omega)
      · next last =>
          obtain rfl : i = n := by omega
          exact inv

/-- A loop over the sections that leaves `e_shnum` as it is. -/
theorem each_section_rule {hdr : Address} {body : Nat → Memory → Memory}
    {Inv : Nat → Memory → Prop} {n : Nat} {mem : Memory} (start : Inv 0 mem)
    (count : ∀ i mem, Inv i mem → (ehdrAt mem hdr).shnum = n)
    (step : ∀ i mem, i < n → Inv i mem → Inv (i + 1) (body i mem)) :
    Inv n (eachSection hdr body mem) := by
  refine section_loop_rule count step start (Nat.zero_le n) ?_
  rw [← count 0 mem start]
  have bound := (half mem (hdr + 48)).isLt
  exact Nat.le_of_lt (by simpa [ehdrAt] using bound)

/-! ## Reading the tables -/

section Reading

variable {hdr : Address} {file mem : Memory}

theorem ehdr_congr (same : ∀ x, position hdr x < 52 → mem x = file x) :
    ehdrAt mem hdr = ehdrAt file hdr := by
  have field : ∀ k, k + 2 ≤ 52 → half mem (address hdr k) = half file (address hdr k) := by
    intro k small
    refine half_address_congr (by omega) fun x _ upper => same x (by omega)
  have shoff : word mem (address hdr 32) = word file (address hdr 32) :=
    word_address_congr (by decide) fun x _ upper => same x (by omega)
  have shnum := field 48 (by decide)
  have shstrndx := field 50 (by decide)
  unfold ehdrAt
  simp only [Ehdr.mk.injEq]
  exact ⟨shoff, congrArg BitVec.toNat shnum, congrArg BitVec.toNat shstrndx⟩

theorem sections_address (hdr : Address) (file : Memory) :
    sectionsOf hdr file = address hdr (tableSpan hdr file).start := by
  unfold sectionsOf address tableSpan
  rw [BitVec.ofNat_toNat, BitVec.setWidth_eq]

theorem section_address (hdr : Address) (file : Memory) (i : Nat) :
    sectionAt (sectionsOf hdr file) i = address hdr ((tableSpan hdr file).start + 40 * i) := by
  rw [sections_address]
  exact address_add hdr _ _

/-- The fields of a section header but its address. -/
theorem shdr_congr {k : Nat} (short : k + 40 ≤ 2 ^ 32)
    (same : ∀ x, k ≤ position hdr x → position hdr x < k + 40 →
      ¬ (k + 12 ≤ position hdr x ∧ position hdr x < k + 16) → mem x = file x) :
    shdrAt mem (address hdr k) =
      { shdrAt file (address hdr k) with addr := word mem (address hdr (k + 12)) } := by
  have field : ∀ n, n + 4 ≤ 40 → n + 4 ≤ 12 ∨ 16 ≤ n →
      word mem (address hdr k + BitVec.ofNat 32 n) = word file (address hdr k + BitVec.ofNat 32 n) := by
    intro n inside other
    rw [address_add]
    refine word_address_congr (by omega) fun x lower upper => same x (by omega) (by omega) (by omega)
  have type := field 4 (by decide) (by decide)
  have flags := field 8 (by decide) (by decide)
  have offset := field 16 (by decide) (by decide)
  have size := field 20 (by decide) (by decide)
  have link := field 24 (by decide) (by decide)
  have info := field 28 (by decide) (by decide)
  unfold shdrAt
  rw [← address_add]
  simp only [Shdr.mk.injEq]
  exact ⟨type, flags, rfl, offset, size, link, info⟩

theorem shdr_same {k : Nat} (short : k + 40 ≤ 2 ^ 32)
    (same : ∀ x, k ≤ position hdr x → position hdr x < k + 40 → mem x = file x) :
    shdrAt mem (address hdr k) = shdrAt file (address hdr k) := by
  have addr : word mem (address hdr (k + 12)) = word file (address hdr (k + 12)) :=
    word_address_congr (by omega) fun x lower upper => same x (by omega) (by omega)
  rw [shdr_congr short fun x lower upper _ => same x lower upper, addr, ← address_add]
  rfl

end Reading

/-! ## Addresses of the sections -/

/-- The state of the tables behind `relocate_base`. -/
structure Placed (hdr : Address) (file mem : Memory) : Prop where
  header : ehdrAt mem hdr = ehdrAt file hdr
  sections : ∀ i, i < (ehdrAt file hdr).shnum →
    shdrAt mem (sectionAt (sectionsOf hdr file) i) =
      { sectionOf hdr file i with addr := hdr + (sectionOf hdr file i).offset }

section Placing

variable {hdr : Address} {size : Nat} {file mem other : Memory}

/-- Stores outside the header and the table leave them as they are. -/
theorem placed_congr (valid : ValidFile hdr size file) (placed : Placed hdr file mem)
    (same : ∀ x, headerSpan.Holds (position hdr x) ∨ (tableSpan hdr file).Holds (position hdr x) →
      other x = mem x) : Placed hdr file other := by
  have short := valid.short
  have table := valid.table
  unfold Span.Holds headerSpan at same
  dsimp only [tableSpan] at same table
  constructor
  · rw [← placed.header]
    exact ehdr_congr fun x below => same x (Or.inl (by omega))
  · intro i below
    rw [← placed.sections i below, section_address]
    refine shdr_same (by dsimp only [tableSpan]; omega) fun x lower upper => same x (Or.inr ?_)
    dsimp only [tableSpan] at lower upper
    omega

/-- Where the address of section `j` is stored. -/
def addrField (hdr : Address) (file : Memory) (j : Nat) : Address :=
  address hdr ((tableSpan hdr file).start + 40 * j + 12)

theorem addr_field_iff (valid : ValidFile hdr size file) {j : Nat}
    (below : j < (ehdrAt file hdr).shnum) {x : Address} :
    InRange (addrField hdr file j) 4 x ↔
      (tableSpan hdr file).start + 40 * j + 12 ≤ position hdr x ∧
        position hdr x < (tableSpan hdr file).start + 40 * j + 16 := by
  have short := valid.short
  have table := valid.table
  dsimp only [tableSpan] at table ⊢
  exact in_range_address_iff (by dsimp only [tableSpan]; omega)

/-- The table behind the first `i` rounds of `relocate_base`. -/
structure PlacedTo (hdr : Address) (file : Memory) (i : Nat) (mem : Memory) : Prop where
  within : i ≤ (ehdrAt file hdr).shnum
  others : ∀ x, (∀ j, j < i → ¬ InRange (addrField hdr file j) 4 x) → mem x = file x
  addrs : ∀ j, j < i → word mem (addrField hdr file j) = hdr + (sectionOf hdr file j).offset

theorem placed_to_header (valid : ValidFile hdr size file) {i : Nat}
    (placed : PlacedTo hdr file i mem) : ehdrAt mem hdr = ehdrAt file hdr := by
  have behind := valid.behind
  refine ehdr_congr fun x below => placed.others x fun j earlier inside => ?_
  have bounds := (addr_field_iff valid (Nat.lt_of_lt_of_le earlier placed.within)).mp inside
  omega

/-- A section header that is read before or after its address is stored. -/
theorem placed_to_section (valid : ValidFile hdr size file) {i k : Nat}
    (placed : PlacedTo hdr file i mem) (below : k < (ehdrAt file hdr).shnum) :
    shdrAt mem (sectionAt (sectionsOf hdr file) k) =
      { sectionOf hdr file k with addr := word mem (addrField hdr file k) } := by
  have short := valid.short
  have table := valid.table
  have room : (tableSpan hdr file).start + 40 * k + 40 ≤ 2 ^ 32 := by
    dsimp only [tableSpan] at table ⊢
    omega
  unfold sectionOf addrField
  rw [section_address]
  refine shdr_congr room fun x lower upper other => placed.others x fun j earlier inside => ?_
  have bounds := (addr_field_iff valid (Nat.lt_of_lt_of_le earlier placed.within)).mp inside
  omega

theorem placed_to_step (valid : ValidFile hdr size file) {i : Nat}
    (below : i < (ehdrAt file hdr).shnum) (placed : PlacedTo hdr file i mem) :
    PlacedTo hdr file (i + 1) (setWord mem (sectionAt (sectionsOf hdr file) i + 12)
      (hdr + (shdrAt mem (sectionAt (sectionsOf hdr file) i)).offset)) := by
  have field : sectionAt (sectionsOf hdr file) i + 12 = addrField hdr file i := by
    rw [section_address]
    exact address_add hdr _ 12
  have read : (shdrAt mem (sectionAt (sectionsOf hdr file) i)).offset =
      (sectionOf hdr file i).offset := by
    rw [placed_to_section valid placed below]
  rw [field, read]
  refine ⟨below, ?_, ?_⟩
  · intro x outside
    rw [set_word_other (outside i (Nat.lt_succ_self i))]
    exact placed.others x fun j earlier => outside j (Nat.lt_succ_of_lt earlier)
  · intro j earlier
    rcases Nat.lt_succ_iff_lt_or_eq.mp earlier with before | rfl
    · rw [← placed.addrs j before]
      refine word_congr fun x inside => set_word_other fun here => ?_
      have first := (addr_field_iff valid (Nat.lt_trans before below)).mp inside
      have second := (addr_field_iff valid below).mp here
      omega
    · exact word_set_self

theorem relocate_base_spec (valid : ValidFile hdr size file) :
    Placed hdr file (relocateBase hdr hdr file) ∧
      ∀ x, ¬ (tableSpan hdr file).Holds (position hdr x) → relocateBase hdr hdr file x = file x := by
  have all : PlacedTo hdr file (ehdrAt file hdr).shnum (relocateBase hdr hdr file) := by
    refine each_section_rule ⟨Nat.zero_le _, fun _ _ => rfl, fun j none => absurd none (Nat.not_lt_zero j)⟩
      ?_ ?_
    · intro i mem placed
      rw [placed_to_header valid placed]
    · intro i mem below placed
      exact placed_to_step valid below placed
  refine ⟨⟨placed_to_header valid all, ?_⟩, ?_⟩
  · intro i below
    rw [placed_to_section valid all below, all.addrs i below]
  · intro x outside
    refine all.others x fun j below inside => outside ?_
    have bounds := (addr_field_iff valid below).mp inside
    unfold Span.Holds
    dsimp only [tableSpan] at bounds ⊢
    omega

/-! ## Symbols -/

/-- The symbol table is a section of the file. -/
theorem tables_of_spec (placed : Placed hdr file mem) {t : Tables}
    (found : tablesOf hdr mem = some t) :
    t.sections = sectionsOf hdr file ∧ ∃ i, i < (ehdrAt file hdr).shnum ∧
      (sectionOf hdr file i).type = shtSymtab ∧ t.symbols = hdr + (sectionOf hdr file i).offset ∧
        t.symbolCnt = (sectionOf hdr file i).size.toNat / 16 := by
  obtain ⟨⟨symbols, symbolCnt⟩, search, rfl⟩ := Option.map_eq_some_iff.mp found
  unfold findSymtab at search
  rw [placed.header] at search
  refine ⟨by rw [placed.header]; rfl, ?_⟩
  let Inv : Nat → Option (Address × Nat) → Prop := fun n found =>
    ∀ symbols symbolCnt, found = some (symbols, symbolCnt) →
      ∃ i, i < n ∧ (sectionOf hdr file i).type = shtSymtab ∧
        symbols = hdr + (sectionOf hdr file i).offset ∧
        symbolCnt = (sectionOf hdr file i).size.toNat / 16
  have start : Inv 0 none := by
    intro symbols symbolCnt none_
    cases none_
  refine @range_rule _ Inv _ _ _ start ?_ symbols symbolCnt search
  intro i found below inv symbols symbolCnt some_
  have header := placed.sections i below
  unfold sectionsOf at header
  rw [header] at some_
  dsimp only at some_
  split at some_
  · next table =>
      cases some_
      exact ⟨i, Nat.lt_succ_self i, table, rfl, rfl⟩
  · obtain ⟨j, earlier, rest⟩ := inv symbols symbolCnt some_
    exact ⟨j, Nat.lt_succ_of_lt earlier, rest⟩

/-- `st_value` of symbol `i`. -/
def valueField (t : Tables) (i : Nat) : Address := symbolAt t.symbols i + 4

/-- The lookups store in the values of the symbols only. -/
theorem resolve_frame {linkage : Linkage} {grants : Grants} {t : Tables}
    (resolved : resolve linkage grants t mem = some other) {x : Address}
    (outside : ∀ i, i < t.symbolCnt → ¬ InRange (valueField t i) 4 x) : other x = mem x := by
  refine @range_option_rule Memory (fun _ m => m x = mem x) _ _ _ _ rfl ?_ resolved
  intro i m m' below same step
  unfold resolveSymbol at step
  dsimp only at step
  split at step
  · cases step
    exact same
  · split at step
    · cases step
    · split at step
      · cases step
        rw [← same]
        exact set_word_other (outside i below)
      · cases step

theorem value_field_iff (valid : ValidFile hdr size file) {t : Tables} {k i : Nat}
    (below : k < (ehdrAt file hdr).shnum) (table : (sectionOf hdr file k).type = shtSymtab)
    (symbols : t.symbols = hdr + (sectionOf hdr file k).offset)
    (count : t.symbolCnt = (sectionOf hdr file k).size.toNat / 16) (member : i < t.symbolCnt)
    {x : Address} : InRange (valueField t i) 4 x ↔
      (sectionSpan hdr file k).start + 16 * i + 4 ≤ position hdr x ∧
        position hdr x < (sectionSpan hdr file k).start + 16 * i + 8 := by
  have short := valid.short
  have inside := valid.inside k below (by rw [table]; decide)
  have field : valueField t i = address hdr ((sectionSpan hdr file k).start + 16 * i + 4) := by
    unfold valueField symbolAt sectionSpan
    rw [symbols, ← address_add, ← address_add]
    unfold address
    rw [BitVec.ofNat_toNat, BitVec.setWidth_eq]
    rfl
  rw [field]
  dsimp only [sectionSpan] at inside ⊢
  exact in_range_address_iff (by omega)

theorem resolve_placed (valid : ValidFile hdr size file) (placed : Placed hdr file mem)
    {linkage : Linkage} {grants : Grants} {t : Tables} (found : tablesOf hdr mem = some t)
    (resolved : resolve linkage grants t mem = some other) : Placed hdr file other := by
  obtain ⟨-, k, below, table, symbols, count⟩ := tables_of_spec placed found
  have apart := valid.headers k below (by rw [table]; decide)
  refine placed_congr valid placed fun x tables => resolve_frame resolved fun i member inside => ?_
  have bounds := (value_field_iff valid below table symbols count member).mp inside
  have here : (sectionSpan hdr file k).Holds (position hdr x) := by
    unfold Span.Holds
    dsimp only [sectionSpan] at bounds ⊢
    omega
  exact tables.elim (fun header => apart.1 _ ⟨here, header⟩) (fun table => apart.2 _ ⟨here, table⟩)

/-! ## Cleared sections -/

/-- A byte of section `i`, which is cleared. -/
def Cleared (hdr : Address) (file : Memory) (i : Nat) (x : Address) : Prop :=
  ((sectionOf hdr file i).alloc ∧ (sectionOf hdr file i).type = shtNobits) ∧
    InRange (hdr + (sectionOf hdr file i).offset) (sectionOf hdr file i).size.toNat x

/-- The cleared sections leave the header and the section headers alone. -/
def SparesHeaders (hdr : Address) (file : Memory) : Prop :=
  ∀ i, i < (ehdrAt file hdr).shnum → ∀ x, Cleared hdr file i x →
    ¬ headerSpan.Holds (position hdr x) ∧ ¬ (tableSpan hdr file).Holds (position hdr x)

structure ClearedTo (hdr : Address) (file before : Memory) (i : Nat) (mem : Memory) : Prop where
  placed : Placed hdr file mem
  others : ∀ x, (∀ j, j < i → ¬ Cleared hdr file j x) → mem x = before x
  zeros : ∀ j, j < i → ∀ x, Cleared hdr file j x → mem x = 0

/-- The loop clears these sections and nothing else. -/
theorem zero_bss_spec (valid : ValidFile hdr size file) (placed : Placed hdr file mem)
    (spared : SparesHeaders hdr file) {t : Tables} (sections : t.sections = sectionsOf hdr file) :
    ClearedTo hdr file mem (ehdrAt file hdr).shnum (zeroBss hdr t mem) := by
  unfold zeroBss
  rw [sections]
  refine each_section_rule ⟨placed, fun _ _ => rfl, fun j none => absurd none (Nat.not_lt_zero j)⟩
    (fun i m inv => by rw [inv.placed.header]) ?_
  intro i m below inv
  unfold zeroSection
  rw [inv.placed.sections i below]
  dsimp only
  split
  · next clears =>
      have same : ∀ x, ¬ Cleared hdr file i x →
          fill m (hdr + (sectionOf hdr file i).offset) 0 (sectionOf hdr file i).size.toNat x = m x :=
        fun x outside => fill_other fun inside => outside ⟨clears, inside⟩
      refine ⟨?_, ?_, ?_⟩
      · refine placed_congr valid inv.placed fun x tables => same x fun here => ?_
        exact tables.elim (spared i below x here).1 (spared i below x here).2
      · intro x silent
        rw [same x (silent i (Nat.lt_succ_self i))]
        exact inv.others x fun j earlier => silent j (Nat.lt_succ_of_lt earlier)
      · intro j earlier x here
        rcases Nat.lt_succ_iff_lt_or_eq.mp earlier with before | rfl
        · have zero := inv.zeros j before x here
          unfold fill
          rw [zero, ite_self]
        · exact if_pos here.2
  · next keeps =>
      refine ⟨inv.placed, ?_, ?_⟩
      · intro x silent
        exact inv.others x fun j earlier => silent j (Nat.lt_succ_of_lt earlier)
      · intro j earlier x here
        rcases Nat.lt_succ_iff_lt_or_eq.mp earlier with before | rfl
        · exact inv.zeros j before x here
        · exact absurd here.1 keeps

end Placing

/-- Whether or not the label has a type. -/
theorem small_module_valid {info : Nat} (label : info = 0 ∨ info = 1) :
    ValidFile 0x1000 smallModuleSize (smallModuleAt 60 info) where
  short := by decide
  behind := by rcases label with rfl | rfl <;> decide +kernel
  table := by rcases label with rfl | rfl <;> decide +kernel
  inside := by rcases label with rfl | rfl <;> decide +kernel
  headers := by rcases label with rfl | rfl <;> decide +kernel
  sections := by
    have apart : ∀ i, i < (ehdrAt (smallModuleAt 60 info) 0x1000).shnum →
        ∀ j, j < (ehdrAt (smallModuleAt 60 info) 0x1000).shnum →
          (i ≠ j ∧ (sectionOf 0x1000 (smallModuleAt 60 info) i).type ≠ shtNobits ∧
            (sectionOf 0x1000 (smallModuleAt 60 info) j).type ≠ shtNobits) →
          (sectionSpan 0x1000 (smallModuleAt 60 info) i).Apart
            (sectionSpan 0x1000 (smallModuleAt 60 info) j) := by
      rcases label with rfl | rfl <;> decide +kernel
    intro i j below inside other bits bits'
    exact apart i below j inside ⟨other, bits, bits'⟩

end MirOs.ElfTables
