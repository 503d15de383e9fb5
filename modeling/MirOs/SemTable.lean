import MirOs.MachineWord
import MirOs.Reachability
import Mathlib.Algebra.BigOperators.Group.Finset.Basic
import Mathlib.Algebra.Order.BigOperators.Group.Finset

/-!
# The table of semaphore arrays

The table `sem_ipc` of `ipc/sem.c` with `semget` and the removal of an array. The
arrays are named by the slab objects that hold them; an object that was freed is
not handed out again, so a name says which allocation is meant. The argument
`nsems` is an `int` that only an upper bound is checked for.
-/

namespace MirOs.SemTable

set_option autoImplicit false

open MirOs.MachineWord

abbrev CInt := BitVec 32

def maxSemIds : Nat := 256
def maxSemPerIds : Int := 256
def maxSemTotal : Int := 65536
def ipcPrivate : CInt := 0

structure SemArray where
  key : CInt
  nsems : Int
  id : Nat
  val : Nat → BitVec 32

structure IpcId (A : Type*) where
  ctrlBlocks : Option A
  inUse : Bool

structure Ipc (A : Type*) where
  ipcId : Nat → IpcId A
  inUse : Int
  arrays : A → Option SemArray

variable {A : Type*} [DecidableEq A]

/-- The first slot that is not in use. -/
def ipcGetId (ipc : Ipc A) : Option Nat :=
  (List.range maxSemIds).find? fun i => (ipc.ipcId i).inUse = false

def ipcGetArray (ipc : Ipc A) (id : Int) : Option A :=
  if id < 0 ∨ id ≥ maxSemIds then none else (ipc.ipcId id.toNat).ctrlBlocks

def keyAt (ipc : Ipc A) (i : Nat) : Option CInt :=
  ((ipc.ipcId i).ctrlBlocks.bind ipc.arrays).map SemArray.key

def ipcArray (ipc : Ipc A) (key : CInt) : Option A :=
  ((List.range maxSemIds).find? fun i => keyAt ipc i = some key).bind fun i =>
    (ipc.ipcId i).ctrlBlocks

/-- The table with a new array in the slot. -/
def Ipc.insert (ipc : Ipc A) (a : A) (i : Nat) (key : CInt) (nsems : Int) : Ipc A where
  ipcId := Function.update ipc.ipcId i { ctrlBlocks := some a, inUse := true }
  inUse := wrapInt (ipc.inUse + nsems)
  arrays := Function.update ipc.arrays a
    (some { key := key, nsems := nsems, id := i, val := fun _ => 0 })

/-- The slab allocator offers an object, or null. -/
def ipcAllocArray (ipc : Ipc A) (key : CInt) (nsems : Int) (slab : Option A) :
    Option (A × Ipc A) :=
  if nsems > maxSemPerIds then none
  else if wrapInt (nsems + ipc.inUse) > maxSemTotal then none
  else
    match slab.filter fun a => (ipc.arrays a).isNone with
    | none => none
    | some a =>
        match ipcGetId ipc with
        | none => none
        | some i => some (a, ipc.insert a i key nsems)

/-- The id, or -1. -/
def semgetLock (ipc : Ipc A) (key : CInt) (nsems : Int) (creat : Bool) (slab : Option A) :
    Int × Ipc A :=
  if key = ipcPrivate ∧ creat = false then (-1, ipc)
  else
    let found := if key ≠ ipcPrivate then ipcArray ipc key else none
    if found.isSome ∧ creat = true then (-1, ipc)
    else
      let result := if creat = true then ipcAllocArray ipc key nsems slab
        else found.map fun a => (a, ipc)
      match result with
      | none => (-1, ipc)
      | some (a, ipc') =>
          match ipc'.arrays a with
          | none => (-1, ipc')
          | some array => if array.nsems ≠ nsems then (-1, ipc') else (array.id, ipc')

/-- The part of `free_array` that touches the table. -/
def freeSlot (ipc : Ipc A) (id : Nat) (array : SemArray) : Ipc A :=
  let left := wrapInt (ipc.inUse - array.nsems)
  { ipc with
    ipcId := Function.update ipc.ipcId id { ctrlBlocks := none, inUse := false }
    inUse := if left < 0 then 0 else left }

/-- `semctl(id,sem_num,IPC_RMID)`. -/
def semctlRmid (ipc : Ipc A) (id semNum : Int) : Int × Ipc A :=
  match ipcGetArray ipc id with
  | none => (-1, ipc)
  | some a =>
      match ipc.arrays a with
      | none => (-1, ipc)
      | some array => if semNum ≥ array.nsems then (-1, ipc) else (0, freeSlot ipc id.toNat array)

/-! ## Accounting -/

def slotSems (ipc : Ipc A) (i : Nat) : Int :=
  ((((ipc.ipcId i).ctrlBlocks.bind ipc.arrays).map SemArray.nsems).getD 0)

structure TableInv (ipc : Ipc A) : Prop where
  flag : ∀ i < maxSemIds, (ipc.ipcId i).inUse = true ↔ (ipc.ipcId i).ctrlBlocks ≠ none
  stored : ∀ i < maxSemIds, ∀ a, (ipc.ipcId i).ctrlBlocks = some a →
    ∃ array, ipc.arrays a = some array ∧ array.id = i ∧ 1 ≤ array.nsems ∧
      array.nsems ≤ maxSemPerIds
  keys : ∀ i < maxSemIds, ∀ j < maxSemIds, ∀ key, keyAt ipc i = some key →
    keyAt ipc j = some key → key ≠ ipcPrivate → i = j
  total : ipc.inUse = ∑ i ∈ Finset.range maxSemIds, slotSems ipc i
  bound : 0 ≤ ipc.inUse ∧ ipc.inUse ≤ maxSemTotal

/-- `ipc_init`: every slot empty. -/
def ipcInit (arrays : A → Option SemArray) : Ipc A where
  ipcId := fun _ => { ctrlBlocks := none, inUse := false }
  inUse := 0
  arrays := arrays

omit [DecidableEq A] in
theorem init_inv (arrays : A → Option SemArray) : TableInv (ipcInit arrays) := by
  refine ⟨?_, ?_, ?_, ?_, ?_⟩
  · simp [ipcInit]
  · simp [ipcInit]
  · simp [ipcInit, keyAt]
  · simp [ipcInit, slotSems]
  · simp [ipcInit, maxSemTotal]

/-! ## Adding and removing an array -/

omit [DecidableEq A] in
theorem get_id_spec {ipc : Ipc A} {i : Nat} (found : ipcGetId ipc = some i) :
    i < maxSemIds ∧ (ipc.ipcId i).inUse = false := by
  have member := List.mem_of_find?_eq_some found
  have test := List.find?_some found
  exact ⟨List.mem_range.mp member, by simpa using test⟩

omit [DecidableEq A] in
theorem array_absent {ipc : Ipc A} {key : CInt}
    (absent : ipcArray ipc key = none) : ∀ i < maxSemIds, keyAt ipc i ≠ some key := by
  intro i bound here
  unfold ipcArray at absent
  cases found : (List.range maxSemIds).find? fun i => keyAt ipc i = some key with
  | none =>
      have test := List.find?_eq_none.mp found i (List.mem_range.mpr bound)
      simp [here] at test
  | some j =>
      have test := List.find?_some found
      rw [found, Option.bind_some] at absent
      simp [keyAt, absent] at test

section Insert

variable {ipc : Ipc A} {a : A} {i : Nat} {key : CInt} {nsems : Int}

theorem insert_elsewhere (inv : TableInv ipc) (fresh : ipc.arrays a = none) {j : Nat}
    (bound : j < maxSemIds) (other : j ≠ i) :
    ((ipc.insert a i key nsems).ipcId j).ctrlBlocks.bind (ipc.insert a i key nsems).arrays =
      (ipc.ipcId j).ctrlBlocks.bind ipc.arrays := by
  have slot : (ipc.insert a i key nsems).ipcId j = ipc.ipcId j := by
    simp [Ipc.insert, other]
  rw [slot]
  cases ctrl : (ipc.ipcId j).ctrlBlocks with
  | none => rfl
  | some b =>
      obtain ⟨array, held, _⟩ := inv.stored j bound b ctrl
      have apart : b ≠ a := by
        rintro rfl
        rw [fresh] at held
        cases held
      simp [Ipc.insert, apart]

theorem insert_here :
    ((ipc.insert a i key nsems).ipcId i).ctrlBlocks.bind (ipc.insert a i key nsems).arrays =
      some { key := key, nsems := nsems, id := i, val := fun _ => 0 } := by
  simp [Ipc.insert]

theorem insert_total (inv : TableInv ipc) (fresh : ipc.arrays a = none) (bound : i < maxSemIds)
    (free : (ipc.ipcId i).inUse = false) :
    ∑ j ∈ Finset.range maxSemIds, slotSems (ipc.insert a i key nsems) j =
      ∑ j ∈ Finset.range maxSemIds, slotSems ipc j + nsems := by
  have member : i ∈ Finset.range maxSemIds := Finset.mem_range.mpr bound
  have empty : slotSems ipc i = 0 := by
    have null : (ipc.ipcId i).ctrlBlocks = none := by
      by_contra linked
      rw [(inv.flag i bound).mpr linked] at free
      cases free
    simp [slotSems, null]
  have new : slotSems (ipc.insert a i key nsems) i = nsems := by
    simp [slotSems, insert_here]
  rw [← Finset.add_sum_erase _ _ member, ← Finset.add_sum_erase _ (slotSems ipc) member, empty,
    new, Int.zero_add, Int.add_comm]
  congr 1
  apply Finset.sum_congr rfl
  intro j inside
  obtain ⟨other, inRange⟩ := Finset.mem_erase.mp inside
  simp only [slotSems, insert_elsewhere inv fresh (Finset.mem_range.mp inRange) other]

theorem insert_inv (inv : TableInv ipc) (fresh : ipc.arrays a = none) (bound : i < maxSemIds)
    (free : (ipc.ipcId i).inUse = false) (positive : 1 ≤ nsems) (small : nsems ≤ maxSemPerIds)
    (room : wrapInt (nsems + ipc.inUse) ≤ maxSemTotal)
    (unused : key ≠ ipcPrivate → ∀ j < maxSemIds, keyAt ipc j ≠ some key) :
    TableInv (ipc.insert a i key nsems) := by
  have count : wrapInt (ipc.inUse + nsems) = ipc.inUse + nsems := by
    have range := inv.bound
    unfold maxSemTotal at range
    unfold maxSemPerIds at small
    exact wrap_int_of_range (by omega) (by omega)
  rw [Int.add_comm, count] at room
  have keyElsewhere : ∀ j < maxSemIds, j ≠ i →
      keyAt (ipc.insert a i key nsems) j = keyAt ipc j := by
    intro j inRange other
    simp only [keyAt, insert_elsewhere inv fresh inRange other]
  have keyHere : keyAt (ipc.insert a i key nsems) i = some key := by
    simp [keyAt, insert_here]
  refine ⟨?_, ?_, ?_, ?_, ?_⟩
  · intro j inRange
    by_cases same : j = i
    · simp [Ipc.insert, same]
    · simpa [Ipc.insert, same] using inv.flag j inRange
  · intro j inRange b ctrl
    by_cases same : j = i
    · simp only [Ipc.insert, same, Function.update_self, Option.some.injEq] at ctrl
      refine ⟨{ key := key, nsems := nsems, id := i, val := fun _ => 0 }, ?_, same.symm, positive,
        small⟩
      simp [Ipc.insert, ctrl]
    · have before : (ipc.ipcId j).ctrlBlocks = some b := by
        simpa [Ipc.insert, same] using ctrl
      obtain ⟨array, held, rest⟩ := inv.stored j inRange b before
      have apart : b ≠ a := by
        rintro rfl
        rw [fresh] at held
        cases held
      exact ⟨array, by simpa [Ipc.insert, apart] using held, rest⟩
  · intro j jBound k kBound other keyJ keyK public_
    by_cases sameJ : j = i
    · by_cases sameK : k = i
      · exact sameJ.trans sameK.symm
      · rw [sameJ, keyHere, Option.some.injEq] at keyJ
        rw [keyElsewhere k kBound sameK, ← keyJ] at keyK
        exact absurd keyK (unused (keyJ ▸ public_) k kBound)
    · rw [keyElsewhere j jBound sameJ] at keyJ
      by_cases sameK : k = i
      · rw [sameK, keyHere, Option.some.injEq] at keyK
        rw [← keyK] at keyJ
        exact absurd keyJ (unused (keyK ▸ public_) j jBound)
      · rw [keyElsewhere k kBound sameK] at keyK
        exact inv.keys j jBound k kBound other keyJ keyK public_
  · rw [insert_total inv fresh bound free, ← inv.total]
    exact count
  · have range := inv.bound
    change 0 ≤ wrapInt (ipc.inUse + nsems) ∧ wrapInt (ipc.inUse + nsems) ≤ maxSemTotal
    rw [count]
    exact ⟨by omega, room⟩

end Insert

section Free

variable {ipc : Ipc A} {i : Nat} {a : A} {array : SemArray}

omit [DecidableEq A] in
theorem slot_sems_nonneg (inv : TableInv ipc) {j : Nat} (bound : j < maxSemIds) :
    0 ≤ slotSems ipc j := by
  unfold slotSems
  cases ctrl : (ipc.ipcId j).ctrlBlocks with
  | none => simp
  | some b =>
      obtain ⟨held, eq, _, positive, _⟩ := inv.stored j bound b ctrl
      simp [eq]
      omega

omit [DecidableEq A] in
theorem free_elsewhere {j : Nat} (other : j ≠ i) :
    (freeSlot ipc i array).ipcId j = ipc.ipcId j := by
  simp [freeSlot, other]

omit [DecidableEq A] in
theorem free_total (inv : TableInv ipc) (bound : i < maxSemIds)
    (ctrl : (ipc.ipcId i).ctrlBlocks = some a) (held : ipc.arrays a = some array) :
    ∑ j ∈ Finset.range maxSemIds, slotSems (freeSlot ipc i array) j = ipc.inUse - array.nsems ∧
      array.nsems ≤ ipc.inUse := by
  have member : i ∈ Finset.range maxSemIds := Finset.mem_range.mpr bound
  have here : slotSems ipc i = array.nsems := by
    simp [slotSems, ctrl, held]
  have gone : slotSems (freeSlot ipc i array) i = 0 := by
    simp [slotSems, freeSlot]
  have others : ∑ j ∈ (Finset.range maxSemIds).erase i, slotSems (freeSlot ipc i array) j =
      ∑ j ∈ (Finset.range maxSemIds).erase i, slotSems ipc j := by
    apply Finset.sum_congr rfl
    intro j inside
    simp only [slotSems, free_elsewhere (Finset.mem_erase.mp inside).1]
    rfl
  have split := Finset.add_sum_erase _ (slotSems ipc) member
  rw [← inv.total, here] at split
  have nonneg : 0 ≤ ∑ j ∈ (Finset.range maxSemIds).erase i, slotSems ipc j := by
    apply Finset.sum_nonneg
    intro j inside
    exact slot_sems_nonneg inv (Finset.mem_range.mp (Finset.mem_erase.mp inside).2)
  refine ⟨?_, by omega⟩
  rw [← Finset.add_sum_erase _ _ member, gone, others]
  omega

omit [DecidableEq A] in
theorem free_inv (inv : TableInv ipc) (bound : i < maxSemIds)
    (ctrl : (ipc.ipcId i).ctrlBlocks = some a) (held : ipc.arrays a = some array) :
    TableInv (freeSlot ipc i array) := by
  obtain ⟨total, enough⟩ := free_total inv bound ctrl held
  obtain ⟨_, sameArray, _, positive, _⟩ := inv.stored i bound a ctrl
  rw [held, Option.some.injEq] at sameArray
  subst sameArray
  have range := inv.bound
  have count : (freeSlot ipc i array).inUse = ipc.inUse - array.nsems := by
    have exact_ : wrapInt (ipc.inUse - array.nsems) = ipc.inUse - array.nsems := by
      unfold maxSemTotal at range
      exact wrap_int_of_range (by omega) (by omega)
    unfold freeSlot
    dsimp only
    rw [exact_, if_neg (by omega)]
  have keyElsewhere : ∀ j, j ≠ i → keyAt (freeSlot ipc i array) j = keyAt ipc j := by
    intro j other
    simp only [keyAt, free_elsewhere other]
    rfl
  have keyHere : keyAt (freeSlot ipc i array) i = none := by
    simp [keyAt, freeSlot]
  refine ⟨?_, ?_, ?_, ?_, ?_⟩
  · intro j inRange
    by_cases same : j = i
    · simp [freeSlot, same]
    · rw [free_elsewhere same]
      exact inv.flag j inRange
  · intro j inRange b ctrlJ
    by_cases same : j = i
    · simp [freeSlot, same] at ctrlJ
    · rw [free_elsewhere same] at ctrlJ
      exact inv.stored j inRange b ctrlJ
  · intro j jBound k kBound key keyJ keyK public_
    have notJ : j ≠ i := by
      rintro rfl
      rw [keyHere] at keyJ
      cases keyJ
    have notK : k ≠ i := by
      rintro rfl
      rw [keyHere] at keyK
      cases keyK
    rw [keyElsewhere j notJ] at keyJ
    rw [keyElsewhere k notK] at keyK
    exact inv.keys j jBound k kBound key keyJ keyK public_
  · rw [count, total]
  · rw [count]
    exact ⟨by omega, by omega⟩

end Free

/-! ## Runs -/

inductive TableEvent (A : Type*) where
  | semget (key : CInt) (nsems : Int) (creat : Bool) (slab : Option A)
  | rmid (id semNum : Int)

def tableCall (ipc : Ipc A) : TableEvent A → Int × Ipc A
  | .semget key nsems creat slab => semgetLock ipc key nsems creat slab
  | .rmid id semNum => semctlRmid ipc id semNum

def tableStep (ipc : Ipc A) (event : TableEvent A) : Option (Ipc A) := some (tableCall ipc event).2

/-- No array is created with fewer than one semaphore. -/
def CreatesSome : TableEvent A → Prop
  | .semget _ nsems creat _ => creat = true → 1 ≤ nsems
  | .rmid _ _ => True

theorem alloc_spec {ipc ipc' : Ipc A} {key : CInt} {nsems : Int} {slab : Option A} {a : A}
    (made : ipcAllocArray ipc key nsems slab = some (a, ipc')) :
    ∃ i, ipc' = ipc.insert a i key nsems ∧ nsems ≤ maxSemPerIds ∧
      wrapInt (nsems + ipc.inUse) ≤ maxSemTotal ∧ ipc.arrays a = none ∧ i < maxSemIds ∧
      (ipc.ipcId i).inUse = false := by
  unfold ipcAllocArray at made
  split at made
  · cases made
  · split at made
    · cases made
    · next small room =>
        split at made
        · cases made
        · next offered given =>
            split at made
            · cases made
            · next i found =>
                cases made
                obtain ⟨bound, free⟩ := get_id_spec found
                simp only [Option.filter_eq_some_iff, Option.isNone_iff_eq_none] at given
                exact ⟨i, rfl, by omega, by omega, given.2, bound, free⟩

/-- A `semget` leaves the table alone or adds an array under an unused key. -/
theorem semget_spec (ipc : Ipc A) (key : CInt) (nsems : Int) (creat : Bool) (slab : Option A) :
    (semgetLock ipc key nsems creat slab).2 = ipc ∨
      ∃ a i, creat = true ∧ ipcAllocArray ipc key nsems slab = some (a, ipc.insert a i key nsems) ∧
        (key ≠ ipcPrivate → ipcArray ipc key = none) ∧
        semgetLock ipc key nsems creat slab = ((i : Int), ipc.insert a i key nsems) := by
  unfold semgetLock
  generalize known : (if key ≠ ipcPrivate then ipcArray ipc key else none) = found
  dsimp only
  by_cases refused : key = ipcPrivate ∧ creat = false
  · rw [if_pos refused]
    exact Or.inl rfl
  · rw [if_neg refused]
    by_cases exists_ : found.isSome ∧ creat = true
    · rw [if_pos exists_]
      exact Or.inl rfl
    · rw [if_neg exists_]
      cases creat with
      | false =>
          left
          cases found with
          | none => rfl
          | some a =>
              simp only [Bool.false_eq_true, if_false, Option.map_some]
              split
              · rfl
              · split <;> rfl
      | true =>
          rw [if_pos rfl]
          cases made : ipcAllocArray ipc key nsems slab with
          | none => exact Or.inl rfl
          | some result =>
              obtain ⟨a, ipc'⟩ := result
              obtain ⟨i, rfl, _⟩ := alloc_spec made
              right
              refine ⟨a, i, rfl, rfl, ?_, by simp [Ipc.insert]⟩
              intro public_
              rw [if_pos public_] at known
              rw [known]
              simpa using exists_

theorem semget_inv {ipc : Ipc A} (inv : TableInv ipc) (key : CInt) (nsems : Int) (creat : Bool)
    (slab : Option A) (some_ : creat = true → 1 ≤ nsems) :
    TableInv (semgetLock ipc key nsems creat slab).2 := by
  rcases semget_spec ipc key nsems creat slab with same | ⟨a, i, created, made, unused, eq⟩
  · rw [same]
    exact inv
  · rw [eq]
    obtain ⟨j, sameTable, small, room, fresh, bound, free⟩ := alloc_spec made
    rw [sameTable]
    exact insert_inv inv fresh bound free (some_ created) small room
      fun public_ => array_absent (unused public_)

omit [DecidableEq A] in
theorem semctl_rmid_inv {ipc : Ipc A} (inv : TableInv ipc) (id semNum : Int) :
    TableInv (semctlRmid ipc id semNum).2 := by
  unfold semctlRmid
  split
  · exact inv
  · next a found =>
      split
      · exact inv
      · next array held =>
          split
          · exact inv
          · unfold ipcGetArray at found
            split at found
            · cases found
            · exact free_inv inv (by omega) found held

/-- In every run that creates no array of fewer than one semaphore the table and its
counts agree, and a failed `semget` changes nothing. -/
theorem table_accounted (arrays : A → Option SemArray) (ipc : Ipc A)
    (run : Reachability.Reaches tableStep (fun _ event => CreatesSome event) (ipcInit arrays) ipc) :
    TableInv ipc ∧ ∀ key nsems creat slab, (semgetLock ipc key nsems creat slab).1 < 0 →
      (semgetLock ipc key nsems creat slab).2 = ipc := by
  refine ⟨?_, ?_⟩
  · apply Reachability.reaches_invariant (init_inv arrays) _ run
    rintro before event after inv allowed stepped
    cases stepped
    cases event with
    | semget key nsems creat slab => exact semget_inv inv key nsems creat slab allowed
    | rmid id semNum => exact semctl_rmid_inv inv id semNum
  · intro key nsems creat slab failed
    rcases semget_spec ipc key nsems creat slab with same | ⟨a, i, _, _, _, eq⟩
    · exact same
    · rw [eq] at failed
      omega

theorem table_accounted_private :
    ∃ ipc : Ipc Nat, Reachability.Reaches tableStep (fun _ event => CreatesSome event)
        (ipcInit fun _ => none) ipc ∧ ipc.inUse = 3 ∧ TableInv ipc ∧
      ∀ key nsems creat slab, (semgetLock ipc key nsems creat slab).1 < 0 →
        (semgetLock ipc key nsems creat slab).2 = ipc := by
  have run : Reachability.Reaches tableStep (fun _ event => CreatesSome event)
      (ipcInit fun _ => none) (semgetLock (ipcInit fun _ => none) ipcPrivate 3 true (some 7)).2 :=
    Reachability.reaches_snoc .refl (.semget ipcPrivate 3 true (some 7)) (fun _ => by decide) rfl
  refine ⟨_, run, by decide +kernel, table_accounted _ _ run⟩

/-- `semget(IPC_PRIVATE,-1,IPC_CREAT)` is served and takes the count below zero. -/
theorem negative_array_accepted :
    ¬ ∀ ipc : Ipc Nat, Reachability.Reaches tableStep (fun _ _ => True) (ipcInit fun _ => none) ipc →
      TableInv ipc := by
  intro always
  have run : Reachability.Reaches tableStep (fun _ _ => True) (ipcInit fun _ => none)
      (semgetLock (ipcInit fun _ => none) ipcPrivate (-1) true (some 7)).2 :=
    Reachability.reaches_snoc .refl (.semget ipcPrivate (-1) true (some 7)) trivial rfl
  have count : (semgetLock (ipcInit fun _ => none) ipcPrivate (-1) true (some 7)).2.inUse = -1 := by
    decide +kernel
  have bound := (always _ run).bound.1
  rw [count] at bound
  exact absurd bound (by decide)

end MirOs.SemTable
