import MirOs.MachineWord

/-!
# Walks over two-level page tables

Three nested do-while loops visit the pages of an address range: directory slots of 4 MB,
a middle level folded into the directory, and pages of 4 KB. Each loop masks the address and
cuts the range at its own size, on 32-bit words. The rule says that a walk over whole pages
visits each page of the range once, in order, up to the first refusal.
-/

namespace MirOs.PageWalk

open MirOs.MachineWord

set_option autoImplicit false

section Walk

variable {State : Type*} (skip : Nat → State → Bool) (enter : Nat → State → Int × State)
  (visit : Nat → Nat → State → Int × State)

/-- The loop over page entries: a directory slot, the entry in its table, and what is left. -/
def pteLoop (slot : Nat) : Nat → Nat → Nat → Nat → State → Int × State
  | 0, _, _, _, s => (0, s)
  | fuel + 1, index, addr, finish, s =>
      let visited := visit slot index s
      if visited.1 < 0 then visited
      else if addr + 4096 < finish then
        pteLoop slot fuel (index + 1) (addr + 4096) finish visited.2
      else (0, visited.2)

/-- The pages of one table, from the entry of `addr` on. -/
def walkPte (slot addr size : Nat) (s : State) : Int × State :=
  let index := addr / 4096 % 1024
  let addr := addr % 4194304
  let finish := min (ulong (addr + size)) (4194304)
  pteLoop visit slot 1024 index addr finish s

def pmdLoop : Nat → Nat → Nat → Nat → State → Int × State
  | 0, _, _, _, s => (0, s)
  | fuel + 1, slot, addr, finish, s =>
      let entered := enter slot s
      if entered.1 < 0 then entered
      else
        let walked := walkPte visit slot addr (ulong (finish + 2 ^ 32 - addr)) entered.2
        if walked.1 < 0 then walked
        else
          let addr := ulong (addr + 4194304) / 4194304 * 4194304
          if addr < finish then pmdLoop fuel (slot + 1) addr finish walked.2
          else (0, walked.2)

def walkPmd (slot addr size : Nat) (s : State) : Int × State :=
  let addr := addr % 4194304
  let finish := min (ulong (addr + size)) (4194304)
  pmdLoop enter visit 1024 slot addr finish s

/-- `none` is a walk that does not end: behind the last slot the address starts again at 0. -/
def pgdLoop : Nat → Nat → Nat → Nat → State → Option (Int × State)
  | 0, _, _, _, _ => none
  | fuel + 1, slot, addr, finish, s =>
      let walked := if skip slot s then (0, s)
        else walkPmd enter visit slot addr (ulong (finish + 2 ^ 32 - addr)) s
      if walked.1 < 0 then some walked
      else
        let addr := ulong (addr + 4194304) / 4194304 * 4194304
        if addr < finish then pgdLoop fuel (slot + 1) addr finish walked.2
        else some (0, walked.2)

def walkPgd (addr size : Nat) (s : State) : Option (Int × State) :=
  pgdLoop skip enter visit 1024 (addr / 4194304 % 1024) addr (ulong (addr + size)) s

end Walk

section Rule

variable {State : Type*} {skip : Nat → State → Bool} {enter : Nat → State → Int × State}
  {visit : Nat → Nat → State → Int × State}

/-- What a walk over the pages from `first` to `last` keeps: `pending page` before a page,
`entered page` once its table is there, and `refused` behind a refusal. -/
structure WalkRule (skip : Nat → State → Bool) (enter : Nat → State → Int × State)
    (visit : Nat → Nat → State → Int × State) (first last : Nat)
    (pending entered : Nat → State → Prop) (refused : State → Prop) : Prop where
  skipped : ∀ page s, first ≤ page → page < last → pending page s →
    skip (page / 1024) s = true → pending (min ((page / 1024 + 1) * 1024) last) s
  enters : ∀ page s, first ≤ page → page < last → pending page s →
    skip (page / 1024) s = false →
    ((enter (page / 1024) s).1 < 0 → refused (enter (page / 1024) s).2) ∧
    (0 ≤ (enter (page / 1024) s).1 → entered page (enter (page / 1024) s).2)
  visits : ∀ page s, first ≤ page → page < last → entered page s →
    ((visit (page / 1024) (page % 1024) s).1 < 0 →
      refused (visit (page / 1024) (page % 1024) s).2) ∧
    (0 ≤ (visit (page / 1024) (page % 1024) s).1 →
      pending (page + 1) (visit (page / 1024) (page % 1024) s).2 ∧
      ((page + 1) % 1024 ≠ 0 → entered (page + 1) (visit (page / 1024) (page % 1024) s).2))

/-- The outcome of a part of a walk that was to reach `last`. -/
def Outcome (pending : Nat → State → Prop) (refused : State → Prop) (last : Nat)
    (result : Int × State) : Prop :=
  (result.1 < 0 ∧ refused result.2) ∨ (result.1 = 0 ∧ pending last result.2)

variable {first last : Nat} {pending entered : Nat → State → Prop} {refused : State → Prop}

/-- The pages of one slot, by induction on how many are left. -/
theorem pte_loop_rule (rule : WalkRule skip enter visit first last pending entered refused)
    (slot fuel : Nat) {index stop : Nat} {s : State} (ordered : index < stop) (inside : stop ≤ 1024)
    (enough : stop ≤ index + fuel) (lower : first ≤ slot * 1024 + index)
    (upper : slot * 1024 + stop ≤ last) (start : entered (slot * 1024 + index) s) :
    Outcome pending refused (slot * 1024 + stop)
      (pteLoop visit slot fuel index (index * 4096) (stop * 4096) s) := by
  induction fuel generalizing index s with
  | zero => omega
  | succ fuel ih =>
      have slotEq : (slot * 1024 + index) / 1024 = slot := by omega
      have indexEq : (slot * 1024 + index) % 1024 = index := by omega
      have step := rule.visits (slot * 1024 + index) s lower (by omega) start
      rw [slotEq, indexEq, Nat.add_assoc] at step
      unfold pteLoop
      dsimp only
      generalize visit slot index s = visited at *
      by_cases stopped : visited.1 < 0
      · rw [if_pos stopped]
        exact Or.inl ⟨stopped, step.1 stopped⟩
      rw [if_neg stopped]
      obtain ⟨next, still⟩ := step.2 (Int.not_lt.mp stopped)
      have nextAddr : index * 4096 + 4096 = (index + 1) * 4096 := by omega
      rw [nextAddr]
      by_cases more : index + 1 < stop
      · rw [if_pos (by omega)]
        have follows := still (by omega)
        exact ih more (by omega) (by omega) follows
      · rw [if_neg (by omega)]
        obtain rfl : stop = index + 1 := by omega
        exact Or.inr ⟨rfl, next⟩

/-- A round of the middle level behind which the range is used up is its last. -/
theorem pmd_loop_once {fuel slot addr finish : Nat} {s : State} (some_ : 0 < fuel)
    (ends : finish ≤ ulong (addr + 4194304) / 4194304 * 4194304) :
    pmdLoop enter visit fuel slot addr finish s =
      if (enter slot s).1 < 0 then enter slot s
      else
        let walked := walkPte visit slot addr (ulong (finish + 2 ^ 32 - addr)) (enter slot s).2
        if walked.1 < 0 then walked else (0, walked.2) := by
  cases fuel with
  | zero => exact absurd some_ (Nat.lt_irrefl 0)
  | succ fuel =>
      unfold pmdLoop
      dsimp only
      rw [if_neg (Nat.not_lt.mpr ends)]

theorem walk_pte_eq {slot index stop : Nat} {s : State} (ordered : index < stop)
    (inside : stop ≤ 1024) :
    walkPte visit slot (index * 4096) ((stop - index) * 4096) s =
      pteLoop visit slot 1024 index (index * 4096) (stop * 4096) s := by
  have indexEq : index * 4096 / 4096 % 1024 = index := by omega
  have inTable : index * 4096 % 4194304 = index * 4096 := by omega
  have finishEq : min (ulong (index * 4096 + (stop - index) * 4096)) (4194304) =
      stop * 4096 := by
    rw [ulong_of_lt (by omega)]
    omega
  unfold walkPte
  dsimp only
  rw [indexEq, inTable, finishEq]

theorem table_end {stop : Nat} (index : Nat) (inside : stop ≤ 1024) :
    stop * 4096 ≤ (index * 4096 + 4194304) / 4194304 * 4194304 := by
  omega

/-- The part of a range of pages that lies in the table of its first page. -/
theorem table_part {page last : Nat} (upper : page < last) :
    ∃ index stop, page = page / 1024 * 1024 + index ∧ index < stop ∧ stop ≤ 1024 ∧
      page / 1024 * 1024 + stop ≤ last ∧
      min ((page / 1024 + 1) * 1024) last = page / 1024 * 1024 + stop ∧
      page * 4096 % 4194304 = index * 4096 ∧
      min (index * 4096 + (last - page) * 4096) 4194304 = stop * 4096 :=
  ⟨page % 1024, min (last - page / 1024 * 1024) 1024, by omega, by omega, by omega, by omega,
    by omega, by omega, by omega⟩

/-- The middle level has one entry: its loop ends after one round. -/
theorem walk_pmd_rule (rule : WalkRule skip enter visit first last pending entered refused)
    {page : Nat} {s : State} (lower : first ≤ page) (upper : page < last)
    (top : last * 4096 + 4194304 ≤ 2 ^ 32) (start : pending page s)
    (taken : skip (page / 1024) s = false) :
    Outcome pending refused (min ((page / 1024 + 1) * 1024) last)
      (walkPmd enter visit (page / 1024) (page * 4096) ((last - page) * 4096) s) := by
  have opened := rule.enters page s lower upper start taken
  obtain ⟨index, stop, split, before, inTable, inRange, ending, addrEq, finishEq⟩ :=
    table_part upper
  have sum : ulong (index * 4096 + (last - page) * 4096) = index * 4096 + (last - page) * 4096 :=
    ulong_of_lt (by omega)
  rw [← sum] at finishEq
  have restEq : ulong (stop * 4096 + 2 ^ 32 - index * 4096) = (stop - index) * 4096 := by
    unfold ulong
    omega
  have ends : stop * 4096 ≤ ulong (index * 4096 + 4194304) / 4194304 * 4194304 := by
    rw [ulong_of_lt (by omega)]
    exact table_end index inTable
  generalize page / 1024 = slot at *
  rw [ending]
  unfold walkPmd
  dsimp only
  rw [addrEq, finishEq, pmd_loop_once (by decide) ends, restEq]
  generalize enter slot s = result at opened ⊢
  by_cases stopped : result.1 < 0
  · rw [if_pos stopped]
    exact Or.inl ⟨stopped, opened.1 stopped⟩
  rw [if_neg stopped]
  have here := opened.2 (Int.not_lt.mp stopped)
  rw [split] at here
  have inner := pte_loop_rule rule slot 1024 before inTable (by omega) (split ▸ lower) inRange here
  rw [← walk_pte_eq before inTable] at inner
  dsimp only
  generalize walkPte visit slot (index * 4096) ((stop - index) * 4096) result.2 = walked
    at inner ⊢
  by_cases left : walked.1 < 0
  · rw [if_pos left]
    rcases inner with ended | ⟨zero, _⟩
    · exact Or.inl ended
    · omega
  · rw [if_neg left]
    rcases inner with ⟨negative, _⟩ | ⟨_, reached⟩
    · omega
    · exact Or.inr ⟨rfl, reached⟩

/-- The directory slots, by induction on how many rounds are left. -/
theorem pgd_loop_rule (rule : WalkRule skip enter visit first last pending entered refused)
    (fuel : Nat) {page : Nat} {s : State} (lower : first ≤ page) (upper : page < last)
    (top : last * 4096 + 4194304 ≤ 2 ^ 32) (enough : 1024 ≤ page / 1024 + fuel)
    (start : pending page s) :
    ∃ result, pgdLoop skip enter visit fuel (page / 1024) (page * 4096) (last * 4096) s =
        some result ∧ Outcome pending refused last result := by
  induction fuel generalizing page s with
  | zero => omega
  | succ fuel ih =>
      have restEq : ulong (last * 4096 + 2 ^ 32 - page * 4096) = (last - page) * 4096 := by
        unfold ulong
        omega
      have slot : Outcome pending refused (min ((page / 1024 + 1) * 1024) last)
          (if skip (page / 1024) s then (0, s)
            else walkPmd enter visit (page / 1024) (page * 4096) ((last - page) * 4096) s) := by
        cases taken : skip (page / 1024) s with
        | true =>
            rw [if_pos rfl]
            exact Or.inr ⟨rfl, rule.skipped page s lower upper start taken⟩
        | false =>
            rw [if_neg Bool.false_ne_true]
            exact walk_pmd_rule rule lower upper top start taken
      have nextAddr : ulong (page * 4096 + 4194304) / 4194304 * 4194304 =
          (page / 1024 + 1) * 1024 * 4096 := by
        rw [ulong_of_lt (by omega)]
        omega
      unfold pgdLoop
      dsimp only
      rw [restEq, nextAddr]
      generalize (if skip (page / 1024) s then (0, s)
        else walkPmd enter visit (page / 1024) (page * 4096) ((last - page) * 4096) s) = walked
        at slot ⊢
      rcases slot with ⟨negative, isRefused⟩ | ⟨zero, reached⟩
      · rw [if_pos negative]
        exact ⟨walked, rfl, Or.inl ⟨negative, isRefused⟩⟩
      rw [if_neg (by omega)]
      by_cases more : (page / 1024 + 1) * 1024 < last
      · rw [if_pos (Nat.mul_lt_mul_of_pos_right more (by decide))]
        rw [min_eq_left (Nat.le_of_lt more)] at reached
        have slotEq : (page / 1024 + 1) * 1024 / 1024 = page / 1024 + 1 := by omega
        have later := ih (by omega) more (by omega) reached
        rw [slotEq] at later
        exact later
      · rw [if_neg (Nat.not_lt.mpr (Nat.mul_le_mul_right _ (Nat.le_of_not_lt more)))]
        rw [min_eq_right (Nat.le_of_not_lt more)] at reached
        exact ⟨(0, walked.2), rfl, Or.inr ⟨rfl, reached⟩⟩

/-- A walk over whole pages below the last 4 MB ends, and either a page is refused or all
are visited. -/
theorem walk_pgd_rule (rule : WalkRule skip enter visit first last pending entered refused)
    {s : State} (ordered : first < last) (top : last * 4096 + 4194304 ≤ 2 ^ 32)
    (start : pending first s) :
    ∃ result, walkPgd skip enter visit (first * 4096) ((last - first) * 4096) s = some result ∧
      Outcome pending refused last result := by
  have slotEq : first * 4096 / 4194304 % 1024 = first / 1024 := by omega
  have finishEq : ulong (first * 4096 + (last - first) * 4096) = last * 4096 := by
    rw [ulong_of_lt (by omega)]
    omega
  unfold walkPgd
  rw [slotEq, finishEq]
  exact pgd_loop_rule rule 1024 (Nat.le_refl _) ordered top (Nat.le_add_left _ _) start

end Rule

end MirOs.PageWalk
