import MirOs.SemIndex

/-!
# Accesses inside the arrays

A run whose calls pass no negative semaphore number touches entries of the arrays
only. The queued lists keep the bounds of the array they were checked against; the
one try that uses another array is the retry of a sleeper whose id was given away.
-/

namespace MirOs.SemIndex

set_option autoImplicit false

open MirOs.SemTable MirOs.Reachability
open MirOs.SemOps (maxSemVal undoRefused)

variable {A P : Type*}

/-- The entry lies in the array. -/
def Inside (ipc : Ipc A) (entry : A × Int) : Prop :=
  ∃ array, ipc.arrays entry.1 = some array ∧ 0 ≤ entry.2 ∧ entry.2 < array.nsems

/-- Every operation names an entry of the array. -/
def InRange (ipc : Ipc A) (a : A) (sops : List Sembuf) : Prop :=
  ∀ op ∈ sops, Inside ipc (a, op.semNum)

structure WaiterIn (ipc : Ipc A) (w : Waiter A) : Prop where
  values : InRange ipc w.array w.sops
  undo : ∀ b, w.semUndo = some b → InRange ipc b w.sops

structure IndexInv (s : Sem A P) : Prop where
  inside : ∀ entry ∈ s.touched, Inside s.ipc entry
  waiting : ∀ p w, (s.tasks p).waiting = some w → WaiterIn s.ipc w
  undo : ∀ p b id, b ∈ (s.tasks p).undoProcess → (s.tasks p).undoId b = some id →
    ipcGetArray s.ipc id = some b
  slots : ∀ i < maxSemIds, (s.ipc.ipcId i).ctrlBlocks ≠ none → (s.ipc.ipcId i).inUse = true

/-! ## One list -/

theorem perform_from_reached (undo : Bool) (counts : Counts) (done sops : List Sembuf) :
    ∀ op ∈ (performFrom undo counts done sops).2.2, op ∈ done ∨ op ∈ sops := by
  induction sops generalizing counts done with
  | nil =>
      intro op member
      exact Or.inl member
  | cons first rest ih =>
      have head : ∀ op ∈ first :: done, op ∈ done ∨ op ∈ first :: rest := by
        intro op member
        rcases List.mem_cons.mp member with rfl | earlier
        · exact Or.inr (List.mem_cons_self ..)
        · exact Or.inl earlier
      intro op member
      dsimp only [performFrom] at member
      split_ifs at member
      · exact head op member
      · exact head op member
      · exact head op member
      · rcases ih _ _ op member with taken | later
        · exact head op taken
        · exact Or.inr (List.mem_cons_of_mem _ later)

theorem entries_inside {ipc : Ipc A} {a : A} {semUndo : Option A} {sops ops : List Sembuf}
    (part : ∀ op ∈ ops, op ∈ sops) (values : InRange ipc a sops)
    (undo : ∀ b, semUndo = some b → InRange ipc b sops) :
    ∀ entry ∈ entries a semUndo ops, Inside ipc entry := by
  intro entry member
  unfold entries at member
  rcases List.mem_append.mp member with value | count
  · obtain ⟨op, reached, rfl⟩ := List.mem_map.mp value
    exact values op (part op reached)
  · obtain ⟨b, held, inner⟩ := List.mem_flatMap.mp count
    obtain ⟨op, reached, rfl⟩ := List.mem_map.mp inner
    exact undo b (by simpa using held) op (part op (List.mem_filter.mp reached).1)

variable [DecidableEq A] [DecidableEq P]

/-! ## Tasks -/

/-- The table and the undo structures are as before. -/
structure Kept (s s' : Sem A P) : Prop where
  ipc : s'.ipc = s.ipc
  undoProcess : ∀ p, (s'.tasks p).undoProcess = (s.tasks p).undoProcess
  undoId : ∀ p, (s'.tasks p).undoId = (s.tasks p).undoId

omit [DecidableEq A] [DecidableEq P] in
theorem kept_trans {s₁ s₂ s₃ : Sem A P} (first : Kept s₁ s₂) (second : Kept s₂ s₃) :
    Kept s₁ s₃ :=
  ⟨second.ipc.trans first.ipc, fun p => (second.undoProcess p).trans (first.undoProcess p),
    fun p => (second.undoId p).trans (first.undoId p)⟩

section Tasks

variable {s : Sem A P} {p : P} {a : A}

omit [DecidableEq A] in
theorem set_task_inv (inv : IndexInv s) {task : Task A}
    (waiting : ∀ w, task.waiting = some w → WaiterIn s.ipc w)
    (undo : ∀ b id, b ∈ task.undoProcess → task.undoId b = some id →
      ipcGetArray s.ipc id = some b) : IndexInv (s.setTask p task) := by
  refine ⟨inv.inside, ?_, ?_, inv.slots⟩
  · intro q w held
    by_cases same : q = p
    · subst same
      simp only [Sem.setTask, Function.update_self] at held
      exact waiting w held
    · simp only [Sem.setTask, Function.update_of_ne same] at held
      exact inv.waiting q w held
  · intro q b id member named
    by_cases same : q = p
    · subst same
      simp only [Sem.setTask, Function.update_self] at member named
      exact undo b id member named
    · simp only [Sem.setTask, Function.update_of_ne same] at member named
      exact inv.undo q b id member named

omit [DecidableEq A] in
theorem set_task_kept {task : Task A} (undoProcess : task.undoProcess = (s.tasks p).undoProcess)
    (undoId : task.undoId = (s.tasks p).undoId) : Kept s (s.setTask p task) := by
  refine ⟨rfl, ?_, ?_⟩
  · intro q
    by_cases same : q = p
    · subst same
      simpa [Sem.setTask] using undoProcess
    · simp [Sem.setTask, Function.update_of_ne same]
  · intro q
    by_cases same : q = p
    · subst same
      simpa [Sem.setTask] using undoId
    · simp [Sem.setTask, Function.update_of_ne same]

omit [DecidableEq A] in
theorem set_status_inv (inv : IndexInv s) (status : Int) : IndexInv (s.setStatus p status) := by
  refine set_task_inv inv ?_ (inv.undo p)
  intro w held
  obtain ⟨before, here, rfl⟩ := Option.map_eq_some_iff.mp held
  obtain ⟨values, undo⟩ := inv.waiting p before here
  exact ⟨values, undo⟩

omit [DecidableEq A] in
theorem wake_inv (inv : IndexInv s) : IndexInv (s.wake p) :=
  set_task_inv inv (inv.waiting p) (inv.undo p)

omit [DecidableEq A] in
theorem leave_inv (inv : IndexInv s) : IndexInv (s.leave p) := by
  refine set_task_inv inv ?_ (inv.undo p)
  intro w held
  cases held

omit [DecidableEq A] in
theorem sleep_inv (inv : IndexInv s) {w : Waiter A} (fine : WaiterIn s.ipc w) :
    IndexInv (s.sleep p w) := by
  refine set_task_inv inv ?_ (inv.undo p)
  intro later held
  obtain rfl := Option.some.inj held
  exact ⟨fine.values, fine.undo⟩

theorem unqueue_inv (inv : IndexInv s) : IndexInv (s.unqueue p a) :=
  ⟨inv.inside, inv.waiting, inv.undo, inv.slots⟩

omit [DecidableEq P] in
theorem enqueue_inv (inv : IndexInv s) : IndexInv (s.enqueue p a) :=
  ⟨inv.inside, inv.waiting, inv.undo, inv.slots⟩

omit [DecidableEq P] in
theorem set_val_inv (inv : IndexInv s) (val : Int → BitVec 32) : IndexInv (s.setVal a val) :=
  ⟨inv.inside, inv.waiting, inv.undo, inv.slots⟩

omit [DecidableEq A] [DecidableEq P] in
theorem touch_inv (inv : IndexInv s) {new : List (A × Int)}
    (inside : ∀ entry ∈ new, Inside s.ipc entry) : IndexInv (s.touch new) := by
  refine ⟨?_, inv.waiting, inv.undo, inv.slots⟩
  intro entry member
  rcases List.mem_append.mp member with fresh | old
  · exact inside entry fresh
  · exact inv.inside entry old

theorem set_undo_kept (semUndo : Option A) (undo : Int → BitVec 16) :
    Kept s (s.setUndo p semUndo undo) := by
  cases semUndo with
  | none => exact ⟨rfl, fun _ => rfl, fun _ => rfl⟩
  | some b => exact set_task_kept rfl rfl

theorem set_undo_inv (inv : IndexInv s) (semUndo : Option A) (undo : Int → BitVec 16) :
    IndexInv (s.setUndo p semUndo undo) := by
  cases semUndo with
  | none => exact inv
  | some b => exact set_task_inv inv (inv.waiting p) (inv.undo p)

/-! ## One try and the poll -/

theorem attempt_kept (undo : Bool) (w : Waiter A) : Kept s (attempt undo s p w a).2 := by
  have stored : Kept s (s.setVal a
      (performSemop undo { val := s.val a
                           undo := (w.semUndo.map (s.tasks p).undo).getD fun _ => 0 }
        w.sops).2.1.val) := ⟨rfl, fun _ => rfl, fun _ => rfl⟩
  have counted := kept_trans stored (set_undo_kept (p := p) w.semUndo
    (performSemop undo { val := s.val a
                         undo := (w.semUndo.map (s.tasks p).undo).getD fun _ => 0 }
      w.sops).2.1.undo)
  exact ⟨counted.ipc, counted.undoProcess, counted.undoId⟩

theorem attempt_inv (inv : IndexInv s) (undo : Bool) {w : Waiter A}
    (values : InRange s.ipc a w.sops) (counts : ∀ b, w.semUndo = some b → InRange s.ipc b w.sops) :
    IndexInv (attempt undo s p w a).2 := by
  unfold attempt
  dsimp only
  refine touch_inv (set_undo_inv (set_val_inv inv _) _ _) ?_
  rw [(set_undo_kept _ _).ipc]
  refine entries_inside ?_ values counts
  intro op reached
  rcases perform_from_reached _ _ _ _ op reached with nothing | member
  · cases nothing
  · exact member

theorem visit_kept : Kept s (visit s a p).2 := by
  unfold visit
  cases (s.tasks p).waiting with
  | none => exact ⟨rfl, fun _ => rfl, fun _ => rfl⟩
  | some w =>
      have tried := attempt_kept (s := s) (p := p) (a := w.array) w.decrement w
      have marked := kept_trans tried
        (set_task_kept (s := (attempt w.decrement s p w w.array).2) (p := p) rfl rfl :
          Kept _ ((attempt w.decrement s p w w.array).2.setStatus p
            (attempt w.decrement s p w w.array).1))
      have woken := kept_trans marked (set_task_kept (p := p) rfl rfl : Kept _ (Sem.wake _ p))
      dsimp only
      split_ifs
      · exact ⟨rfl, fun _ => rfl, fun _ => rfl⟩
      · exact woken
      · exact ⟨woken.ipc, woken.undoProcess, woken.undoId⟩
      · exact marked

theorem visit_inv (inv : IndexInv s) : IndexInv (visit s a p).2 := by
  unfold visit
  cases held : (s.tasks p).waiting with
  | none => exact inv
  | some w =>
      obtain ⟨values, counts⟩ := inv.waiting p w held
      have tried := attempt_inv (p := p) inv w.decrement values counts
      dsimp only
      split_ifs
      · exact inv
      · exact wake_inv (set_status_inv tried _)
      · exact unqueue_inv (wake_inv (set_status_inv tried _))
      · exact set_status_inv tried _

end Tasks

theorem poll_from_kept (a : A) (queue : List P) (s : Sem A P) : Kept s (pollFrom a queue s) := by
  induction queue generalizing s with
  | nil => exact ⟨rfl, fun _ => rfl, fun _ => rfl⟩
  | cons p rest ih =>
      unfold pollFrom
      dsimp only
      split_ifs
      · exact visit_kept
      · exact kept_trans visit_kept (ih _)

theorem poll_from_inv (a : A) (queue : List P) {s : Sem A P} (inv : IndexInv s) :
    IndexInv (pollFrom a queue s) := by
  induction queue generalizing s with
  | nil => exact inv
  | cons p rest ih =>
      unfold pollFrom
      dsimp only
      split_ifs
      · exact visit_inv inv
      · exact ih (visit_inv inv)

theorem poll_queue_inv {s : Sem A P} (inv : IndexInv s) (a : A) : IndexInv (pollQueue s a) :=
  poll_from_inv a _ inv

/-! ## The table -/

omit [DecidableEq A] [DecidableEq P] in
theorem ipc_inv {s : Sem A P} (inv : IndexInv s) {ipc : Ipc A}
    (arrays : ∀ a array, s.ipc.arrays a = some array → ipc.arrays a = some array)
    (ids : ∀ p b id, b ∈ (s.tasks p).undoProcess → (s.tasks p).undoId b = some id →
      ipcGetArray s.ipc id = some b → ipcGetArray ipc id = some b)
    (slots : ∀ i < maxSemIds, (ipc.ipcId i).ctrlBlocks ≠ none → (ipc.ipcId i).inUse = true) :
    IndexInv { s with ipc := ipc } := by
  have inside : ∀ entry, Inside s.ipc entry → Inside ipc entry := by
    rintro entry ⟨array, held, bounds⟩
    exact ⟨array, arrays _ array held, bounds⟩
  refine ⟨fun entry member => inside entry (inv.inside entry member), ?_, ?_, slots⟩
  · intro p w held
    obtain ⟨values, undo⟩ := inv.waiting p w held
    exact ⟨fun op member => inside _ (values op member),
      fun b semUndo op member => inside _ (undo b semUndo op member)⟩
  · intro p b id member named
    exact ids p b id member named (inv.undo p b id member named)

omit [DecidableEq A] in
theorem get_array_slot {ipc : Ipc A} {id : Int} {a : A} (found : ipcGetArray ipc id = some a) :
    0 ≤ id ∧ id < maxSemIds ∧ (ipc.ipcId id.toNat).ctrlBlocks = some a := by
  unfold ipcGetArray at found
  split at found
  · cases found
  · exact ⟨by omega, by omega, found⟩

omit [DecidableEq P] in
theorem semget_inv_index {s : Sem A P} (inv : IndexInv s) (key : CInt) (nsems : Int)
    (creat : Bool) (slab : Option A) : IndexInv (semget s key nsems creat slab).2 := by
  have table : IndexInv { s with ipc := (semgetLock s.ipc key nsems creat slab).2 } := by
    rcases semget_spec s.ipc key nsems creat slab with same | ⟨a, i, _, made, _, eq⟩
    · rw [same]
      exact inv
    rw [eq]
    obtain ⟨j, insert, _, _, fresh, bound, free⟩ := alloc_spec made
    rw [insert]
    refine ipc_inv inv ?_ ?_ ?_
    · intro b array held
      have other : b ≠ a := by
        rintro rfl
        rw [fresh] at held
        cases held
      simp [Ipc.insert, other, held]
    · intro p b id _ _ found
      obtain ⟨low, high, slot⟩ := get_array_slot found
      have other : (id : Int).toNat ≠ j := by
        intro here
        rw [here] at slot
        have busy := inv.slots j bound (by rw [slot]; simp)
        rw [free] at busy
        cases busy
      unfold ipcGetArray
      rw [if_neg (by omega)]
      simp only [Ipc.insert, Function.update_of_ne other]
      exact slot
    · intro k below occupied
      by_cases here : k = j
      · simp [Ipc.insert, here]
      · simp only [Ipc.insert, Function.update_of_ne here] at occupied ⊢
        exact inv.slots k below occupied
  unfold semget
  dsimp only
  cases slab with
  | none => exact table
  | some a =>
      dsimp only
      split_ifs
      · exact ⟨table.inside, table.waiting, table.undo, table.slots⟩
      · exact table

/-! ## The removal of an array -/

omit [DecidableEq A] in
theorem wake_all_inv (queue : List P) {s : Sem A P} (inv : IndexInv s) :
    IndexInv (queue.foldl (fun s p => (s.setStatus p (-1)).wake p) s) := by
  induction queue generalizing s with
  | nil => exact inv
  | cons p rest ih => exact ih (wake_inv (set_status_inv inv _))

omit [DecidableEq A] in
theorem wake_all_kept (queue : List P) (s : Sem A P) :
    Kept s (queue.foldl (fun s p => (s.setStatus p (-1)).wake p) s) := by
  induction queue generalizing s with
  | nil => exact ⟨rfl, fun _ => rfl, fun _ => rfl⟩
  | cons p rest ih =>
      have first : Kept s (s.setStatus p (-1)) := set_task_kept rfl rfl
      have second : Kept (s.setStatus p (-1)) ((s.setStatus p (-1)).wake p) :=
        set_task_kept rfl rfl
      exact kept_trans (kept_trans first second) (ih _)

theorem free_array_inv {s : Sem A P} (inv : IndexInv s) {id : Int} {a : A} {array : SemArray}
    (found : ipcGetArray s.ipc id = some a) : IndexInv (freeArray s id.toNat a array) := by
  have woken := wake_all_inv (s.queue a) inv
  have kept := wake_all_kept (s.queue a) s
  unfold freeArray
  dsimp only
  generalize (s.queue a).foldl (fun s p => (s.setStatus p (-1)).wake p) s = s₁ at *
  obtain ⟨low, high, slot⟩ := get_array_slot found
  have invalid : IndexInv (Sem.invalidate { s₁ with queue := Function.update s₁.queue a [] } a) := by
    refine ⟨woken.inside, woken.waiting, ?_, woken.slots⟩
    intro p b id member named
    simp only [Sem.invalidate] at member named
    split_ifs at named
    exact woken.undo p b id member named
  refine ipc_inv invalid (fun _ _ held => held) ?_ ?_
  · intro p b other member named there
    obtain ⟨lowOther, highOther, slotOther⟩ := get_array_slot there
    have apart : other ≠ id.toNat := by
      rintro rfl
      have same : some b = some a := by
        rw [← slotOther, ← slot, ← kept.ipc]
        rfl
      simp only [Sem.invalidate] at member named
      rw [if_pos ⟨Option.some.inj same, member⟩] at named
      cases named
    unfold ipcGetArray
    rw [if_neg (by omega)]
    simp only [freeSlot, Int.toNat_natCast, Function.update_of_ne apart] at slotOther ⊢
    exact slotOther
  · intro k below occupied
    by_cases here : k = id.toNat
    · simp [freeSlot, here] at occupied
    · simp only [freeSlot, Function.update_of_ne here] at occupied ⊢
      exact woken.slots k below occupied

/-! ## The calls -/

/-- `semctl` comes to the entry or to the array: the array is live, the number below
its end, the command known and its argument accepted. -/
def SemctlPasses (s : Sem A P) (id semNum : Int) (cmd : SemCmd) : Prop :=
  (∃ a array, ipcGetArray s.ipc id = some a ∧ s.ipc.arrays a = some array ∧
    semNum < array.nsems) ∧
  match cmd with
  | .setval none => False
  | .setval (some value) => value.toInt ≤ maxSemVal
  | .other => False
  | _ => True

/-- The checks of `semop_lock` accept the list. -/
def SemopPasses (s : Sem A P) (id : Int) (sops : List Sembuf) : Prop :=
  ∃ a array, ipcGetArray s.ipc id = some a ∧ s.ipc.arrays a = some array ∧
    sopsValid array sops = true

/-- No accepted call names a negative semaphore, and a sleeper that is to try again
finds an array under its id that holds the semaphores of its list. -/
def IndicesChecked (s : Sem A P) : SemEvent A P → Prop
  | .semctl _ id semNum cmd => SemctlPasses s id semNum cmd → 0 ≤ semNum
  | .semop _ id sops _ => SemopPasses s id sops → ∀ op ∈ sops, 0 ≤ op.semNum
  | .resume p => ∀ w a, (s.tasks p).waiting = some w → (s.tasks p).reapMe = false →
      w.status = 0 → ipcGetArray s.ipc w.id = some a → InRange s.ipc a w.sops
  | _ => True

theorem semctl_inv {s : Sem A P} (inv : IndexInv s) (id semNum : Int) (cmd : SemCmd)
    (checked : SemctlPasses s id semNum cmd → 0 ≤ semNum) :
    IndexInv (semctl s id semNum cmd).2 := by
  unfold semctl
  cases found : ipcGetArray s.ipc id with
  | none => exact inv
  | some a =>
      dsimp only
      cases held : s.ipc.arrays a with
      | none => exact inv
      | some array =>
          dsimp only
          split_ifs with refused
          · exact inv
          have inside : SemctlPasses s id semNum cmd → Inside s.ipc (a, semNum) :=
            fun passes => ⟨array, held, checked passes, by dsimp only; omega⟩
          have live : ∃ a array, ipcGetArray s.ipc id = some a ∧ s.ipc.arrays a = some array ∧
              semNum < array.nsems := ⟨a, array, found, held, by omega⟩
          cases cmd with
          | getval =>
              refine touch_inv inv ?_
              intro entry member
              rw [List.mem_singleton.mp member]
              exact inside ⟨live, trivial⟩
          | setval arg =>
              cases arg with
              | none => exact inv
              | some value =>
                  unfold semctlBody
                  dsimp only
                  split_ifs with large
                  · exact inv
                  refine poll_queue_inv (touch_inv (set_val_inv inv _) ?_) a
                  intro entry member
                  rw [List.mem_singleton.mp member]
                  exact inside ⟨live, by dsimp only; omega⟩
          | info => exact inv
          | rmid => exact free_array_inv inv found
          | other => exact inv

omit [DecidableEq A] in
theorem find_undo_part (undoId : A → Option Nat) (id : Int) (undos : List A) :
    (∀ b ∈ (findUndo undoId id undos).2, b ∈ undos) ∧
      ∀ b, (findUndo undoId id undos).1 = some b →
        b ∈ undos ∧ (undoId b).map Int.ofNat = some id := by
  induction undos with
  | nil =>
      refine ⟨fun b member => member, ?_⟩
      intro b held
      cases held
  | cons first rest ih =>
      unfold findUndo
      split_ifs with here
      · refine ⟨fun b member => member, ?_⟩
        intro b held
        obtain rfl := Option.some.inj held
        exact ⟨List.mem_cons_self .., here⟩
      · exact ⟨fun b member => List.mem_cons_of_mem _ (ih.1 b member),
          fun b held => ⟨List.mem_cons_of_mem _ (ih.2 b held).1, (ih.2 b held).2⟩⟩
      · refine ⟨?_, fun b held => ⟨List.mem_cons_of_mem _ (ih.2 b held).1, (ih.2 b held).2⟩⟩
        intro b member
        rcases List.mem_cons.mp member with rfl | later
        · exact List.mem_cons_self ..
        · exact List.mem_cons_of_mem _ (ih.1 b later)

/-- The undo structure of a call is the one of its array. -/
theorem acquire_undo_inv {s : Sem A P} (inv : IndexInv s) (p : P) {id : Int} {a : A}
    (found : ipcGetArray s.ipc id = some a) (slab : Bool) :
    IndexInv (acquireUndo s p id a slab).2 ∧ (acquireUndo s p id a slab).2.ipc = s.ipc ∧
      ∀ b, (acquireUndo s p id a slab).1 = some b → b = a := by
  obtain ⟨part, hit⟩ := find_undo_part (s.tasks p).undoId id (s.tasks p).undoProcess
  have fewer : ∀ b other, b ∈ (findUndo (s.tasks p).undoId id (s.tasks p).undoProcess).2 →
      (s.tasks p).undoId b = some other → ipcGetArray s.ipc other = some b :=
    fun b other member named => inv.undo p b other (part b member) named
  unfold acquireUndo
  dsimp only
  cases search : (findUndo (s.tasks p).undoId id (s.tasks p).undoProcess).1 with
  | some b =>
      refine ⟨set_task_inv inv (inv.waiting p) fewer, rfl, ?_⟩
      intro c same
      obtain rfl := Option.some.inj same
      obtain ⟨member, named⟩ := hit b search
      obtain ⟨other, idOf, rfl⟩ := Option.map_eq_some_iff.mp named
      have there := inv.undo p b other member idOf
      exact Option.some.inj (there.symm.trans found)
  | none =>
      dsimp only
      split_ifs
      · refine ⟨set_task_inv inv (inv.waiting p) ?_, rfl, ?_⟩
        · intro b other member named
          by_cases same : b = a
          · subst same
            simp only [Function.update_self] at named
            obtain rfl := Option.some.inj named
            have low := (get_array_slot found).1
            rw [Int.toNat_of_nonneg low]
            exact found
          · simp only [Function.update_of_ne same] at named
            exact fewer b other ((List.mem_cons.mp member).resolve_left same) named
        · intro b same
          exact (Option.some.inj same).symm
      · refine ⟨set_task_inv inv (inv.waiting p) fewer, rfl, ?_⟩
        intro b same
        cases same

/-- A list that enters names entries of its array and works on the array's undo
counts. -/
theorem semop_entry_inv {s : Sem A P} (inv : IndexInv s) (p : P) (id : Int)
    (sops : List Sembuf) (slab : Bool)
    (checked : SemopPasses s id sops → ∀ op ∈ sops, 0 ≤ op.semNum) :
    match semopEntry s p id sops slab with
    | .refused s' => IndexInv s'
    | .ready w s' => IndexInv s' ∧ WaiterIn s'.ipc w := by
  unfold semopEntry
  cases found : ipcGetArray s.ipc id with
  | none => exact inv
  | some a =>
      dsimp only
      cases held : s.ipc.arrays a with
      | none => exact inv
      | some array =>
          dsimp only
          by_cases invalid : sopsValid array sops = false
          · rw [if_pos invalid]
            exact inv
          rw [if_neg invalid]
          have valid : sopsValid array sops = true := by simpa using invalid
          have nonneg := checked ⟨a, array, found, held, valid⟩
          have values : InRange s.ipc a sops := by
            intro op member
            have bounds := List.all_eq_true.mp valid op member
            simp only [Bool.and_eq_true, decide_eq_true_eq] at bounds
            exact ⟨array, held, nonneg op member, bounds.1.1⟩
          have acquired : ∀ result : Option A × Sem A P,
              result = (if sops.any Sembuf.semUndo = true then acquireUndo s p id a slab
                else (none, s)) →
              IndexInv result.2 ∧ result.2.ipc = s.ipc ∧ ∀ b, result.1 = some b → b = a := by
            rintro result rfl
            split_ifs
            · exact acquire_undo_inv inv p found slab
            · refine ⟨inv, rfl, ?_⟩
              intro b same
              cases same
          generalize resultEq : (if sops.any Sembuf.semUndo = true then acquireUndo s p id a slab
            else (none, s)) = result
          obtain ⟨after, same, own⟩ := acquired result resultEq.symm
          by_cases noUndo : sops.any Sembuf.semUndo = true ∧ result.1 = none
          · rw [if_pos noUndo]
            exact after
          · rw [if_neg noUndo]
            dsimp only
            rw [same]
            refine ⟨after, values, ?_⟩
            intro b semUndo
            rw [own b semUndo]
            exact values

theorem semop_inv {s : Sem A P} (inv : IndexInv s) (p : P) (id : Int) (sops : List Sembuf)
    (slab : Bool) (checked : SemopPasses s id sops → ∀ op ∈ sops, 0 ≤ op.semNum) :
    IndexInv (semop s p id sops slab).2 := by
  have entered := semop_entry_inv inv p id sops slab checked
  unfold semop
  cases entry : semopEntry s p id sops slab with
  | refused s' =>
      rw [entry] at entered
      exact entered
  | ready w s' =>
      rw [entry] at entered
      obtain ⟨inv', fine⟩ := entered
      have tried := attempt_inv (p := p) inv' false fine.values fine.undo
      dsimp only
      split_ifs
      · exact tried
      · refine sleep_inv (enqueue_inv tried) ?_
        change WaiterIn (attempt false s' p w w.array).2.ipc w
        rw [(attempt_kept false w).ipc]
        exact fine

theorem resume_inv {s : Sem A P} (inv : IndexInv s) (p : P) {w : Waiter A}
    (held : (s.tasks p).waiting = some w)
    (checked : ∀ a, (s.tasks p).reapMe = false → w.status = 0 →
      ipcGetArray s.ipc w.id = some a → InRange s.ipc a w.sops) :
    IndexInv (resume s p w).2 := by
  have polled : ∀ (s : Sem A P) (a : A), IndexInv s →
      IndexInv (if w.alter then pollQueue (s.leave p) a else s.leave p) := by
    intro s a inv
    split_ifs
    · exact poll_queue_inv (leave_inv inv) a
    · exact leave_inv inv
  have fine := inv.waiting p w held
  unfold resume
  dsimp only
  cases found : ipcGetArray s.ipc w.id with
  | none => exact leave_inv inv
  | some a =>
      dsimp only
      by_cases dying : (s.tasks p).reapMe = true
      · rw [if_pos dying]
        exact polled _ a (unqueue_inv inv)
      rw [if_neg dying]
      by_cases retry : w.status = 0
      · rw [if_pos retry]
        have tried := attempt_inv (p := p) inv false
          (checked a (by simpa using dying) retry found) fine.undo
        by_cases done : (attempt false s p w a).1 ≤ 0
        · rw [if_pos done]
          exact polled _ a (unqueue_inv tried)
        · rw [if_neg done]
          refine sleep_inv tried ?_
          rw [(attempt_kept false w).ipc]
          exact fine
      · rw [if_neg retry]
        by_cases ended : w.status < 0
        · rw [if_pos ended]
          exact polled s a inv
        · rw [if_neg ended]
          exact sleep_inv inv fine

omit [DecidableEq A] in
theorem all_entries_inside {ipc : Ipc A} {a : A} {array : SemArray}
    (held : ipc.arrays a = some array) :
    ∀ entry ∈ allEntries a array.nsems, Inside ipc entry := by
  intro entry member
  obtain ⟨i, below, rfl⟩ := List.mem_map.mp member
  have bound := List.mem_range.mp below
  exact ⟨array, held, by dsimp only; omega, by dsimp only; omega⟩

theorem exit_undo_inv {s : Sem A P} (inv : IndexInv s) (p : P) {b : A}
    (member : b ∈ (s.tasks p).undoProcess) :
    IndexInv (exitUndo p s b) ∧ Kept s (exitUndo p s b) := by
  have idle : IndexInv s ∧ Kept s s := ⟨inv, rfl, fun _ => rfl, fun _ => rfl⟩
  unfold exitUndo
  cases named : (s.tasks p).undoId b with
  | none => exact idle
  | some id =>
      dsimp only
      cases found : ipcGetArray s.ipc id with
      | none => exact idle
      | some a =>
          dsimp only
          cases held : s.ipc.arrays a with
          | none => exact idle
          | some array =>
              have own : b = a := Option.some.inj ((inv.undo p b id member named).symm.trans found)
              subst own
              refine ⟨poll_queue_inv (touch_inv (set_val_inv inv _) ?_) b, ?_⟩
              · intro entry touched
                rcases List.mem_append.mp touched with value | count
                · exact all_entries_inside held entry value
                · exact all_entries_inside held entry count
              · have polled := poll_from_kept b (s.queue b)
                  ((s.setVal b (adjusted array.nsems (s.val b) ((s.tasks p).undo b))).touch
                    (allEntries b array.nsems ++ allEntries b array.nsems))
                exact ⟨polled.ipc, polled.undoProcess, polled.undoId⟩

theorem sem_exit_inv {s : Sem A P} (inv : IndexInv s) (p : P) : IndexInv (semExit s p) := by
  have loop : ∀ (undos : List A) (s : Sem A P), IndexInv s →
      (∀ b ∈ undos, b ∈ (s.tasks p).undoProcess) → IndexInv (undos.foldl (exitUndo p) s) := by
    intro undos
    induction undos with
    | nil =>
        intro s inv _
        exact inv
    | cons b rest ih =>
        intro s inv listed
        obtain ⟨after, kept⟩ := exit_undo_inv inv p (listed b (List.mem_cons_self ..))
        refine ih _ after ?_
        intro c later
        rw [kept.undoProcess]
        exact listed c (List.mem_cons_of_mem _ later)
  have undone := loop _ s inv (fun b member => member)
  unfold semExit
  refine set_task_inv undone (undone.waiting p) ?_
  intro b id member
  cases member

/-! ## Runs -/

omit [DecidableEq A] [DecidableEq P] in
theorem call_cases {s s' : Sem A P} {p : P} {reply : Reply} {result : Reply × Sem A P}
    (stepped : call s p result = some (reply, s')) :
    (reply = .returned (-1) ∧ s' = s) ∨ result = (reply, s') := by
  unfold call at stepped
  split_ifs at stepped
  · cases stepped
    exact Or.inl ⟨rfl, rfl⟩
  · exact Or.inr (Option.some.inj stepped)

theorem sem_step_inv {s s' : Sem A P} (inv : IndexInv s) {event : SemEvent A P} {reply : Reply}
    (checked : IndicesChecked s event) (stepped : semStep s event = some (reply, s')) :
    IndexInv s' := by
  have called : ∀ {p : P} {result : Reply × Sem A P}, IndexInv result.2 →
      call s p result = some (reply, s') → IndexInv s' := by
    intro p result after stepped
    rcases call_cases stepped with ⟨_, rfl⟩ | rfl
    · exact inv
    · exact after
  cases event with
  | semget p key nsems creat slab => exact called (semget_inv_index inv key nsems creat slab) stepped
  | semctl p id semNum cmd => exact called (semctl_inv inv id semNum cmd checked) stepped
  | semop p id sops slab => exact called (semop_inv inv p id sops slab checked) stepped
  | resume p =>
      unfold semStep at stepped
      dsimp only at stepped
      cases held : (s.tasks p).waiting with
      | none =>
          rw [held] at stepped
          cases stepped
      | some w =>
          rw [held] at stepped
          dsimp only at stepped
          split_ifs at stepped
          have after := resume_inv inv p held (fun a => checked w a held)
          rw [Option.some.inj stepped] at after
          exact after
  | exit p =>
      unfold semStep at stepped
      dsimp only at stepped
      split_ifs at stepped
      cases stepped
      exact sem_exit_inv inv p
  | kill p =>
      unfold semStep at stepped
      dsimp only at stepped
      split_ifs at stepped
      cases stepped
      exact set_task_inv inv (inv.waiting p) (inv.undo p)

/-- The call names a live array and, in it, an entry that is not there. -/
def NamesOutside (s : Sem A P) : SemEvent A P → Prop
  | .semctl _ id semNum _ => ∃ a array, ipcGetArray s.ipc id = some a ∧
      s.ipc.arrays a = some array ∧ (semNum < 0 ∨ array.nsems ≤ semNum)
  | .semop _ id sops _ => ∃ a array, ipcGetArray s.ipc id = some a ∧
      s.ipc.arrays a = some array ∧ ∃ op ∈ sops, op.semNum < 0 ∨ array.nsems ≤ op.semNum
  | _ => False

theorem semctl_outside {s : Sem A P} {id semNum : Int} {cmd : SemCmd} {a : A} {array : SemArray}
    (found : ipcGetArray s.ipc id = some a) (held : s.ipc.arrays a = some array)
    (outside : semNum < 0 ∨ array.nsems ≤ semNum)
    (checked : SemctlPasses s id semNum cmd → 0 ≤ semNum) :
    semctl s id semNum cmd = (.returned (-1), s) := by
  unfold semctl
  rw [found]
  dsimp only
  rw [held]
  dsimp only
  by_cases refused : semNum ≥ array.nsems
  · rw [if_pos refused]
  rw [if_neg refused]
  have negative : ¬ 0 ≤ semNum := by omega
  have live : ∃ a array, ipcGetArray s.ipc id = some a ∧ s.ipc.arrays a = some array ∧
      semNum < array.nsems := ⟨a, array, found, held, by omega⟩
  cases cmd with
  | getval => exact absurd (checked ⟨live, trivial⟩) negative
  | setval arg =>
      cases arg with
      | none => rfl
      | some value =>
          unfold semctlBody
          dsimp only
          split_ifs with large
          · rfl
          · exact absurd (checked ⟨live, by dsimp only; omega⟩) negative
  | info => exact absurd (checked ⟨live, trivial⟩) negative
  | rmid => exact absurd (checked ⟨live, trivial⟩) negative
  | other => rfl

theorem semop_outside {s : Sem A P} {p : P} {id : Int} {sops : List Sembuf} {slab : Bool} {a : A}
    {array : SemArray} (found : ipcGetArray s.ipc id = some a)
    (held : s.ipc.arrays a = some array) {op : Sembuf} (member : op ∈ sops)
    (outside : op.semNum < 0 ∨ array.nsems ≤ op.semNum)
    (checked : SemopPasses s id sops → ∀ op ∈ sops, 0 ≤ op.semNum) :
    semop s p id sops slab = (.returned (-1), s) := by
  have invalid : sopsValid array sops = false := by
    by_contra accepted
    have valid : sopsValid array sops = true := by simpa using accepted
    have nonneg := checked ⟨a, array, found, held, valid⟩ op member
    have bounds := List.all_eq_true.mp valid op member
    simp only [Bool.and_eq_true, decide_eq_true_eq] at bounds
    omega
  unfold semop semopEntry
  simp only [found, held, invalid, if_true]

omit [DecidableEq A] [DecidableEq P] in
theorem initial_inv : IndexInv (initial : Sem A P) := by
  refine ⟨?_, ?_, ?_, ?_⟩
  · intro entry member
    cases member
  · intro p w held
    cases held
  · intro p b id member
    cases member
  · intro i _ occupied
    exact absurd rfl occupied

def indexStep (s : Sem A P) (event : SemEvent A P) : Option (Sem A P) :=
  (semStep s event).map Prod.snd

/-- In a run whose accepted calls name no negative semaphore and whose retries find
an array large enough, only entries of the arrays are read or written, and a call
that names another entry fails with -1 and changes no value and no undo count. -/
theorem accesses_in_bounds {s : Sem A P} (run : Reaches indexStep IndicesChecked initial s) :
    (∀ entry ∈ s.touched, Inside s.ipc entry) ∧
      ∀ event reply s', IndicesChecked s event → semStep s event = some (reply, s') →
        NamesOutside s event →
        reply = .returned (-1) ∧ s'.val = s.val ∧ ∀ p, (s'.tasks p).undo = (s.tasks p).undo := by
  have inv : IndexInv s := by
    refine reaches_invariant initial_inv ?_ run
    intro before event after inv checked stepped
    obtain ⟨⟨reply, s'⟩, whole, rfl⟩ := Option.map_eq_some_iff.mp stepped
    exact sem_step_inv inv checked whole
  refine ⟨inv.inside, ?_⟩
  intro event reply s' checked stepped outside
  have failed : ∀ {p : P} {result : Reply × Sem A P}, result = (.returned (-1), s) →
      call s p result = some (reply, s') →
      reply = .returned (-1) ∧ s'.val = s.val ∧ ∀ p, (s'.tasks p).undo = (s.tasks p).undo := by
    intro p result same stepped
    rcases call_cases stepped with ⟨rfl, rfl⟩ | other
    · exact ⟨rfl, rfl, fun _ => rfl⟩
    · rw [same] at other
      cases other
      exact ⟨rfl, rfl, fun _ => rfl⟩
  cases event with
  | semctl p id semNum cmd =>
      obtain ⟨a, array, found, held, far⟩ := outside
      exact failed (semctl_outside found held far checked) stepped
  | semop p id sops slab =>
      obtain ⟨a, array, found, held, op, member, far⟩ := outside
      exact failed (semop_outside found held member far checked) stepped
  | semget => exact outside.elim
  | resume => exact outside.elim
  | exit => exact outside.elim
  | kill => exact outside.elim

/-- One semaphore is created, raised and read. -/
def readBack : List (SemEvent Nat Nat) :=
  [.semget 0 ipcPrivate 1 true (some 0), .semop 0 0 [⟨0, 1, true, false⟩] true,
    .semctl 0 0 0 .getval]

theorem checked_of_nonneg (s : Sem Nat Nat) : ∀ event ∈ readBack, IndicesChecked s event := by
  intro event member
  simp only [readBack, List.mem_cons, List.not_mem_nil, or_false] at member
  rcases member with rfl | rfl | rfl
  · trivial
  · intro _ op here
    rw [List.mem_singleton.mp here]
  · intro _
    exact Int.le_refl 0

theorem accesses_in_bounds_read_back :
    ∃ s : Sem Nat Nat, Reaches indexStep IndicesChecked initial s ∧
      s.touched = [(0, 0), (0, 0), (0, 0)] ∧
      (∀ entry ∈ s.touched, Inside s.ipc entry) ∧
      ∀ event reply s', IndicesChecked s event → semStep s event = some (reply, s') →
        NamesOutside s event →
        reply = .returned (-1) ∧ s'.val = s.val ∧ ∀ p, (s'.tasks p).undo = (s.tasks p).undo := by
  have ran : ((readBack.foldlM indexStep initial).map Sem.touched) =
      some [(0, 0), (0, 0), (0, 0)] := by
    decide +kernel
  obtain ⟨s, finished, touched⟩ := Option.map_eq_some_iff.mp ran
  have run : Reaches indexStep IndicesChecked initial s :=
    reaches_events readBack (fun event member s => checked_of_nonneg s event member) finished
  exact ⟨s, run, touched, accesses_in_bounds run⟩

/-- `semctl(id,-1,IPC_SETVAL)` is served and writes in front of the array. -/
theorem negative_entry_written :
    ¬ ∀ s : Sem Nat Nat, Reaches indexStep (fun _ _ => True) initial s →
      ∀ entry ∈ s.touched, Inside s.ipc entry := by
  intro always
  have ran : (([.semget 0 ipcPrivate 1 true (some 0), .semctl 0 0 (-1) (.setval (some 5))] :
      List (SemEvent Nat Nat)).foldlM indexStep initial).map Sem.touched = some [(0, -1)] := by
    decide +kernel
  obtain ⟨s, finished, touched⟩ := Option.map_eq_some_iff.mp ran
  have run : Reaches indexStep (fun _ _ => True) initial s :=
    reaches_events _ (fun _ _ _ => trivial) finished
  obtain ⟨_, _, low, _⟩ := always s run (0, -1) (by rw [touched]; exact List.mem_singleton.mpr rfl)
  exact absurd low (by decide)

/-- A sleeper waits for zero on the second of two semaphores; it is woken to try
again, but the array is removed and its id given to an array of one semaphore. -/
def idGivenAway : List (SemEvent Nat Nat) :=
  [.semget 0 ipcPrivate 2 true (some 0), .semop 0 0 [⟨1, 1, false, false⟩] true,
    .semop 1 0 [⟨1, 0, false, false⟩] true, .semctl 0 0 1 (.setval (some 0)),
    .semctl 0 0 0 .rmid, .semget 0 ipcPrivate 1 true (some 1), .resume 1]

/-- Without the condition on retries no negative number is needed. -/
theorem retry_outside_new_array :
    ((idGivenAway.foldlM indexStep initial).map fun s =>
      decide ((1, 1) ∈ s.touched) &&
        decide ((s.ipc.arrays 1).map SemArray.nsems = some 1)) = some true := by
  decide +kernel

end MirOs.SemIndex
