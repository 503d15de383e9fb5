import MirOs.SemLedger

/-!
# The undo counts

A process has one undo structure for each live array it has used with `SEM_UNDO`; the
structure is found by the id of the array and loses its id with it. Its counts are
compared with the ledger of the calls that have returned 0.
-/

namespace MirOs.SemUndo

set_option autoImplicit false

open MirOs.SemTable MirOs.SemOps MirOs.SemModel MirOs.SemQueue MirOs.SemWait MirOs.SemLedger
open MirOs.PprevChain (Queues)

variable {A P : Type*} [DecidableEq A] [DecidableEq P]

/-- The count in the structure of the process for the array, 0 without a structure. -/
def undoCount (s : Sem A P) (p : P) (a : A) (i : Nat) : Int :=
  if a ∈ (s.tasks p).undoProcess then ((s.tasks p).undo a i).toInt else 0

structure UndoInv (l : Logged A P) : Prop where
  ids : ∀ p b id, b ∈ (l.sem.tasks p).undoProcess → (l.sem.tasks p).undoId b = some id →
    ipcGetArray l.sem.ipc id = some b
  live : ∀ p b, b ∈ (l.sem.tasks p).undoProcess → Live l.sem.ipc b →
    (l.sem.tasks p).undoId b ≠ none
  known : ∀ p b, b ∈ (l.sem.tasks p).undoProcess → l.sem.ipc.arrays b ≠ none
  logged : ∀ call ∈ l.log, l.sem.ipc.arrays call.array ≠ none
  owned : ∀ p w b, (l.sem.tasks p).waiting = some w → w.semUndo = some b →
    b = w.array ∧ l.sem.ipc.arrays b ≠ none ∧
      (Live l.sem.ipc b → b ∈ (l.sem.tasks p).undoProcess)
  plain : ∀ p w, (l.sem.tasks p).waiting = some w → w.semUndo = none →
    w.sops.any Sembuf.semUndo = false
  counts : ∀ p a i, (l.sem.tasks p).exited = false → Live l.sem.ipc a →
    undoCount l.sem p a i = -undoTotal l.log p a i

/-! ## What leaves the structures alone -/

structure KeepsUndo (s s' : Sem A P) : Prop where
  slots : s'.ipc.ipcId = s.ipc.ipcId
  ids : ∀ a, (s'.ipc.arrays a).map SemArray.id = (s.ipc.arrays a).map SemArray.id
  process : ∀ p, (s'.tasks p).undoProcess = (s.tasks p).undoProcess
  undoId : ∀ p, (s'.tasks p).undoId = (s.tasks p).undoId
  undo : ∀ p, (s'.tasks p).undo = (s.tasks p).undo
  exited : ∀ p, (s'.tasks p).exited = (s.tasks p).exited
  waiting : ∀ p, (s'.tasks p).waiting = none ∨
    (s'.tasks p).waiting.map strip = (s.tasks p).waiting.map strip

omit [DecidableEq A] [DecidableEq P] in
theorem KeepsUndo.refl (s : Sem A P) : KeepsUndo s s :=
  ⟨rfl, fun _ => rfl, fun _ => rfl, fun _ => rfl, fun _ => rfl, fun _ => rfl, fun _ => .inr rfl⟩

omit [DecidableEq A] [DecidableEq P] in
theorem KeepsUndo.trans {s s' s'' : Sem A P} (first : KeepsUndo s s')
    (second : KeepsUndo s' s'') : KeepsUndo s s'' where
  slots := second.slots.trans first.slots
  ids := fun a => (second.ids a).trans (first.ids a)
  process := fun p => (second.process p).trans (first.process p)
  undoId := fun p => (second.undoId p).trans (first.undoId p)
  undo := fun p => (second.undo p).trans (first.undo p)
  exited := fun p => (second.exited p).trans (first.exited p)
  waiting := by
    intro p
    rcases second.waiting p with gone | same
    · exact .inl gone
    · rcases first.waiting p with gone | same'
      · rw [gone, Option.map_none, Option.map_eq_none_iff] at same
        exact .inl same
      · exact .inr (same.trans same')

omit [DecidableEq A] [DecidableEq P] in
theorem arrays_none_iff {s s' : Sem A P} (keeps : KeepsUndo s s') (a : A) :
    s'.ipc.arrays a = none ↔ s.ipc.arrays a = none := by
  rw [← Option.map_eq_none_iff, keeps.ids a, Option.map_eq_none_iff]

theorem undo_keep {l : Logged A P} {s' : Sem A P} (inv : UndoInv l)
    (keeps : KeepsUndo l.sem s') : UndoInv ⟨s', l.log⟩ := by
  have held : ∀ p w, (s'.tasks p).waiting = some w →
      ∃ w', (l.sem.tasks p).waiting = some w' ∧ strip w' = strip w := by
    intro p w waiting
    rcases keeps.waiting p with gone | same
    · rw [gone] at waiting
      cases waiting
    · rw [waiting, Option.map_some, eq_comm, Option.map_eq_some_iff] at same
      exact same
  refine ⟨?_, ?_, ?_, ?_, ?_, ?_, ?_⟩
  · intro p b id
    dsimp only
    rw [keeps.process, keeps.undoId, get_congr keeps.slots]
    exact inv.ids p b id
  · intro p b
    dsimp only
    rw [keeps.process, keeps.undoId, live_congr keeps.slots]
    exact inv.live p b
  · intro p b
    dsimp only
    rw [keeps.process, ne_eq, arrays_none_iff keeps]
    exact inv.known p b
  · intro call
    dsimp only
    rw [ne_eq, arrays_none_iff keeps]
    exact inv.logged call
  · intro p w b waiting given
    obtain ⟨w', waiting', same⟩ := held p w waiting
    have given' : w'.semUndo = some b := by
      change (strip w').semUndo = some b
      rw [same]
      exact given
    obtain ⟨target, stored, member⟩ := inv.owned p w' b waiting' given'
    dsimp only
    rw [keeps.process, live_congr keeps.slots, ne_eq, arrays_none_iff keeps]
    refine ⟨?_, stored, member⟩
    change b = (strip w).array
    rw [← same]
    exact target
  · intro p w waiting none_
    obtain ⟨w', waiting', same⟩ := held p w waiting
    have none' : w'.semUndo = none := by
      change (strip w').semUndo = none
      rw [same]
      exact none_
    have plain := inv.plain p w' waiting' none'
    change (strip w).sops.any Sembuf.semUndo = false
    rw [← same]
    exact plain
  · intro p a i
    dsimp only
    rw [keeps.exited, live_congr keeps.slots]
    unfold undoCount
    rw [keeps.process, keeps.undo]
    exact inv.counts p a i

omit [DecidableEq P] in
theorem set_vals_keeps (s : Sem A P) (a : A) (val : Nat → BitVec 32) :
    KeepsUndo s (s.setVals a val) :=
  ⟨rfl, (set_vals_agree s a val).ids, fun _ => rfl, fun _ => rfl, fun _ => rfl, fun _ => rfl,
    fun _ => .inr rfl⟩

omit [DecidableEq A] in
/-- A change of one task that keeps its structures. -/
theorem set_task_keeps (s : Sem A P) (p : P) (waiting : Option (Waiter A)) (asleep reapMe : Bool)
    (same : waiting = none ∨ waiting.map strip = (s.tasks p).waiting.map strip) :
    KeepsUndo s (s.setTask p { s.tasks p with
      waiting := waiting
      asleep := asleep
      reapMe := reapMe }) := by
  refine ⟨rfl, fun _ => rfl, ?_, ?_, ?_, ?_, ?_⟩
  all_goals
    intro q
    by_cases here : q = p
    · subst here
      simp [same]
    · simp [Sem.setTask, here]

omit [DecidableEq A] in
theorem set_status_keeps (s : Sem A P) (p : P) (status : Int) :
    KeepsUndo s (s.setStatus p status) := by
  apply set_task_keeps
  right
  have same := set_status_strip s p p status
  simpa [Sem.setStatus] using same

omit [DecidableEq A] in
theorem wake_keeps (s : Sem A P) (p : P) : KeepsUndo s (s.wake p) := by
  apply set_task_keeps
  exact .inr rfl

section Polling

variable [Fintype P]

theorem queue_del_keeps (s : Sem A P) (p : P) (a : A) : KeepsUndo s (s.queueDel p a) :=
  ⟨rfl, fun _ => rfl, fun _ => rfl, fun _ => rfl, fun _ => rfl, fun _ => rfl, fun _ => .inr rfl⟩

theorem visit_keeps {s : Sem A P} {a : A} {p : P}
    (left : ∀ w, (s.tasks p).waiting = some w → LeftToSleeper s p w) :
    KeepsUndo s (visit s a p).2 := by
  have marked := set_status_keeps s p
  rcases visit_cases s a p with ⟨eq, _⟩ | ⟨w, waiting, tried, cases⟩
  · rw [eq]
    exact .refl s
  · rcases cases with ⟨_, _, eq⟩ | ⟨goes, held, _⟩ | ⟨_, eq⟩ | ⟨_, eq⟩
    · rw [eq]
      exact (marked 0).trans (wake_keeps _ p)
    · have decrement := left w waiting tried goes
      rw [held] at decrement
      cases decrement
    · rw [eq]
      exact ((marked (-1)).trans (wake_keeps _ p)).trans (queue_del_keeps _ p a)
    · rw [eq]
      exact marked 1

theorem poll_keeps {s : Sem A P} {a : A}
    (tries : Tries LeftToSleeper a (walkFuel P) (s.queues.head a) s) :
    KeepsUndo s (pollQueue s a) := by
  apply poll_rule (fun t => KeepsUndo s t) _ _ _ s tries (.refl s)
  intro t p keeps left
  exact keeps.trans (visit_keeps left)

/-- The rounds of `sem_exit_lock` change values and wake sleepers. -/
theorem exit_rounds_keeps {s : Sem A P} (p : P) (meets : PollsMeet LeftToSleeper s (.exit p))
    (structures rest : List A) (split : (s.tasks p).undoProcess = structures ++ rest) :
    KeepsUndo s (structures.foldl (exitUndo p) s) := by
  induction structures using List.reverseRecOn generalizing rest with
  | nil => exact .refl s
  | append_singleton done b ih =>
      have splitB : (s.tasks p).undoProcess = done ++ b :: rest := by simpa using split
      have before := ih (b :: rest) splitB
      rw [List.foldl_append, List.foldl_cons, List.foldl_nil]
      generalize reached : done.foldl (exitUndo p) s = middle at before ⊢
      unfold exitUndo
      split
      · exact before
      · next a changed change =>
          have tries := meets changed a (Polls.exit splitB (by rw [reached, change]))
          obtain ⟨id, array, _, _, _, rfl⟩ := exit_change_spec change
          exact (before.trans (set_vals_keeps middle a _)).trans (poll_keeps tries)

end Polling

/-! ## Finding and allocating a structure -/

omit [DecidableEq A] in
theorem find_undo_spec (undoId : A → Option Nat) (id : Int) (structures : List A) :
    (∀ b, (findUndo undoId id structures).1 = some b →
        b ∈ (findUndo undoId id structures).2 ∧ (undoId b).map Int.ofNat = some id) ∧
      ((findUndo undoId id structures).1 = none →
        ∀ b ∈ structures, (undoId b).map Int.ofNat ≠ some id) ∧
      (∀ b ∈ (findUndo undoId id structures).2, b ∈ structures) ∧
      ∀ b ∈ structures, undoId b ≠ none → b ∈ (findUndo undoId id structures).2 := by
  induction structures with
  | nil => simp [findUndo]
  | cons c rest ih =>
      obtain ⟨found, missed, smaller, kept⟩ := ih
      unfold findUndo
      split
      · next here =>
          refine ⟨?_, ?_, fun b member => member, fun b member _ => member⟩
          · rintro b ⟨⟩
            exact ⟨List.mem_cons_self, here⟩
          · intro none_
            cases none_
      · next other =>
          dsimp only
          split
          · next dead =>
              refine ⟨found, ?_, ?_, ?_⟩
              · intro none_ b member
                rcases List.mem_cons.mp member with rfl | member
                · exact other
                · exact missed none_ b member
              · intro b member
                exact List.mem_cons_of_mem c (smaller b member)
              · intro b member alive
                rcases List.mem_cons.mp member with rfl | member
                · exact absurd dead alive
                · exact kept b member alive
          · refine ⟨?_, ?_, ?_, ?_⟩
            · intro b eq
              exact ⟨List.mem_cons_of_mem c (found b eq).1, (found b eq).2⟩
            · intro none_ b member
              rcases List.mem_cons.mp member with rfl | member
              · exact other
              · exact missed none_ b member
            · intro b member
              rcases List.mem_cons.mp member with rfl | member
              · exact List.mem_cons_self
              · exact List.mem_cons_of_mem c (smaller b member)
            · intro b member alive
              rcases List.mem_cons.mp member with rfl | member
              · exact List.mem_cons_self
              · exact List.mem_cons_of_mem c (kept b member alive)

omit [DecidableEq A] in
/-- A live array is found under one id. -/
theorem get_unique {ipc : Ipc A} (slots : SlotInv ipc) {a : A} {i j : Int}
    (first : ipcGetArray ipc i = some a) (second : ipcGetArray ipc j = some a) : i = j := by
  unfold ipcGetArray at first second
  split at first
  · cases first
  · next rangeI =>
      split at second
      · cases second
      · next rangeJ =>
          obtain ⟨array, held, idI⟩ := slots.stored i.toNat (by omega) a first
          obtain ⟨array', held', idJ⟩ := slots.stored j.toNat (by omega) a second
          rw [held, Option.some.injEq] at held'
          rw [← held', idI] at idJ
          omega

omit [DecidableEq A] in
theorem live_stored {ipc : Ipc A} (slots : SlotInv ipc) {a : A} (live : Live ipc a) :
    ipc.arrays a ≠ none := by
  obtain ⟨i, bound, slot⟩ := live
  obtain ⟨array, held, _⟩ := slots.stored i bound a slot
  rw [held]
  exact Option.some_ne_none array

/-- The structures of one process are replaced, the live ones keeping their counts. -/
theorem undo_replace {l : Logged A P} (inv : UndoInv l) (p : P) (task : SemModel.Task A)
    (waiting : task.waiting = (l.sem.tasks p).waiting)
    (exited : task.exited = (l.sem.tasks p).exited)
    (ids : ∀ b id, b ∈ task.undoProcess → task.undoId b = some id →
      ipcGetArray l.sem.ipc id = some b)
    (live : ∀ b, b ∈ task.undoProcess → Live l.sem.ipc b → task.undoId b ≠ none)
    (known : ∀ b, b ∈ task.undoProcess → l.sem.ipc.arrays b ≠ none)
    (members : ∀ b, Live l.sem.ipc b → b ∈ (l.sem.tasks p).undoProcess → b ∈ task.undoProcess)
    (counts : ∀ b, Live l.sem.ipc b → ∀ i,
      (if b ∈ task.undoProcess then (task.undo b i).toInt else 0) = undoCount l.sem p b i) :
    UndoInv ⟨l.sem.setTask p task, l.log⟩ := by
  refine ⟨?_, ?_, ?_, inv.logged, ?_, ?_, ?_⟩
  · intro q b id
    by_cases here : q = p
    · subst here
      rw [set_task_self]
      exact ids b id
    · rw [set_task_of_ne _ _ _ here]
      exact inv.ids q b id
  · intro q b
    by_cases here : q = p
    · subst here
      rw [set_task_self]
      exact live b
    · rw [set_task_of_ne _ _ _ here]
      exact inv.live q b
  · intro q b
    by_cases here : q = p
    · subst here
      rw [set_task_self]
      exact known b
    · rw [set_task_of_ne _ _ _ here]
      exact inv.known q b
  · intro q w b
    by_cases here : q = p
    · subst here
      rw [set_task_self, waiting]
      intro held given
      obtain ⟨target, stored, member⟩ := inv.owned q w b held given
      exact ⟨target, stored, fun alive => members b alive (member alive)⟩
    · rw [set_task_of_ne _ _ _ here]
      exact inv.owned q w b
  · intro q w
    by_cases here : q = p
    · subst here
      rw [set_task_self, waiting]
      exact inv.plain q w
    · rw [set_task_of_ne _ _ _ here]
      exact inv.plain q w
  · intro q a i
    by_cases here : q = p
    · subst here
      unfold undoCount
      rw [set_task_self, exited]
      intro alive liveA
      rw [counts a liveA i]
      exact inv.counts q a i alive liveA
    · unfold undoCount
      rw [set_task_of_ne _ _ _ here]
      exact inv.counts q a i

theorem undo_count_replaced (s : Sem A P) (p : P) (task : SemModel.Task A) {b : A} {i : Nat}
    (counts : (if b ∈ task.undoProcess then (task.undo b i).toInt else 0) = undoCount s p b i)
    (q : P) : undoCount (s.setTask p task) q b i = undoCount s q b i := by
  by_cases here : q = p
  · subst here
    unfold undoCount at counts ⊢
    rw [set_task_self]
    exact counts
  · unfold undoCount
    rw [set_task_of_ne _ _ _ here]

/-- The scan for a structure drops only structures of arrays that are gone. -/
theorem scan_live {l : Logged A P} (inv : UndoInv l) (p : P) (id : Int) {b : A}
    (alive : Live l.sem.ipc b) :
    b ∈ (findUndo (l.sem.tasks p).undoId id (l.sem.tasks p).undoProcess).2 ↔
      b ∈ (l.sem.tasks p).undoProcess := by
  obtain ⟨_, _, smaller, kept⟩ :=
    find_undo_spec (l.sem.tasks p).undoId id (l.sem.tasks p).undoProcess
  exact ⟨smaller b, fun member => kept b member (inv.live p b member alive)⟩

theorem undo_scanned {l : Logged A P} (inv : UndoInv l) (p : P) (id : Int) :
    UndoInv ⟨l.sem.setTask p { l.sem.tasks p with
      undoProcess := (findUndo (l.sem.tasks p).undoId id (l.sem.tasks p).undoProcess).2 },
      l.log⟩ := by
  obtain ⟨_, _, smaller, _⟩ :=
    find_undo_spec (l.sem.tasks p).undoId id (l.sem.tasks p).undoProcess
  apply undo_replace inv p
  · rfl
  · rfl
  · exact fun b id member => inv.ids p b id (smaller b member)
  · exact fun b member => inv.live p b (smaller b member)
  · exact fun b member => inv.known p b (smaller b member)
  · exact fun b alive => (scan_live inv p id alive).mpr
  · intro b alive i
    simp only [scan_live inv p id alive, undoCount]

theorem scan_missed {l : Logged A P} (inv : UndoInv l) (slots : SlotInv l.sem.ipc) (p : P)
    {id : Int} {a : A} (found : ipcGetArray l.sem.ipc id = some a)
    (missed : (findUndo (l.sem.tasks p).undoId id (l.sem.tasks p).undoProcess).1 = none) :
    a ∉ (l.sem.tasks p).undoProcess := by
  obtain ⟨_, absent, _, _⟩ :=
    find_undo_spec (l.sem.tasks p).undoId id (l.sem.tasks p).undoProcess
  intro member
  obtain ⟨j, idJ⟩ := Option.ne_none_iff_exists'.mp (inv.live p a member (live_of_get found))
  have sameId := get_unique slots (inv.ids p a j member idJ) found
  apply absent missed a member
  rw [idJ, ← sameId]
  rfl

/-- A new structure for an array that the process has none for. -/
theorem undo_allocated {l : Logged A P} (inv : UndoInv l) (slots : SlotInv l.sem.ipc) (p : P)
    {id : Int} {a : A} (found : ipcGetArray l.sem.ipc id = some a)
    (absent : a ∉ (l.sem.tasks p).undoProcess) :
    UndoInv ⟨l.sem.setTask p { l.sem.tasks p with
      undoProcess := a :: (findUndo (l.sem.tasks p).undoId id (l.sem.tasks p).undoProcess).2
      undoId := Function.update (l.sem.tasks p).undoId a (some id.toNat)
      undo := Function.update (l.sem.tasks p).undo a fun _ => 0 }, l.log⟩ := by
  obtain ⟨_, _, smaller, _⟩ :=
    find_undo_spec (l.sem.tasks p).undoId id (l.sem.tasks p).undoProcess
  have nonneg : 0 ≤ id := by
    unfold ipcGetArray at found
    split at found
    · cases found
    · omega
  apply undo_replace inv p
  · rfl
  · rfl
  · intro b j member owner
    by_cases here : b = a
    · subst here
      simp only [Function.update_self, Option.some.injEq] at owner
      rw [← owner, Int.toNat_of_nonneg nonneg]
      exact found
    · simp only [Function.update_of_ne here] at owner
      have inside := List.mem_of_ne_of_mem here member
      exact inv.ids p b j (smaller b inside) owner
  · intro b member alive
    by_cases here : b = a
    · simp [here]
    · have inside := List.mem_of_ne_of_mem here member
      simp only [Function.update_of_ne here]
      exact inv.live p b (smaller b inside) alive
  · intro b member
    rcases List.mem_cons.mp member with rfl | inside
    · exact live_stored slots (live_of_get found)
    · exact inv.known p b (smaller b inside)
  · intro b alive member
    exact List.mem_cons_of_mem a ((scan_live inv p id alive).mpr member)
  · intro b alive i
    by_cases here : b = a
    · simp [undoCount, here, absent]
    · simp [undoCount, here, scan_live inv p id alive]

/-- After `allocate_undo` or the scan before it, the structure in hand is that of the
array. -/
theorem undo_acquire {l : Logged A P} (inv : UndoInv l) (slots : SlotInv l.sem.ipc) (p : P)
    {id : Int} {a : A} (found : ipcGetArray l.sem.ipc id = some a) (slab : Bool) :
    UndoInv ⟨(acquireUndo l.sem p id a slab).2, l.log⟩ ∧
      (∀ b, (acquireUndo l.sem p id a slab).1 = some b → b = a ∧
        a ∈ ((acquireUndo l.sem p id a slab).2.tasks p).undoProcess) ∧
      ∀ q b i, Live l.sem.ipc b →
        undoCount (acquireUndo l.sem p id a slab).2 q b i = undoCount l.sem q b i := by
  obtain ⟨foundSpec, _, smaller, _⟩ :=
    find_undo_spec (l.sem.tasks p).undoId id (l.sem.tasks p).undoProcess
  have countScanned : ∀ q b i, Live l.sem.ipc b →
      undoCount (l.sem.setTask p { l.sem.tasks p with
        undoProcess := (findUndo (l.sem.tasks p).undoId id (l.sem.tasks p).undoProcess).2 })
        q b i = undoCount l.sem q b i := by
    intro q b i alive
    apply undo_count_replaced
    simp only [scan_live inv p id alive, undoCount]
  unfold acquireUndo
  dsimp only
  split
  · next b eq =>
      obtain ⟨member, owner⟩ := foundSpec b eq
      refine ⟨undo_scanned inv p id, ?_, countScanned⟩
      intro c same
      cases same
      obtain ⟨j, idJ, sameId⟩ := Option.map_eq_some_iff.mp owner
      have getB := inv.ids p b j (smaller b member) idJ
      have sameInt : (j : Int) = id := sameId
      rw [sameInt, found, Option.some.injEq] at getB
      subst getB
      exact ⟨rfl, by rw [set_task_self]; exact member⟩
  · next missed =>
      split
      · have absent := scan_missed inv slots p found missed
        refine ⟨undo_allocated inv slots p found absent, ?_, ?_⟩
        · intro b same
          cases same
          exact ⟨rfl, by rw [set_task_self]; exact List.mem_cons_self⟩
        · intro q b i alive
          apply undo_count_replaced
          by_cases here : b = a
          · simp [undoCount, here, absent]
          · simp [undoCount, here, scan_live inv p id alive]
      · refine ⟨undo_scanned inv p id, ?_, countScanned⟩
        intro b same
        cases same

/-! ## Lists that go through -/

/-- A call without `SEM_UNDO` operations is of no account here. -/
theorem undo_log_plain {l : Logged A P} (inv : UndoInv l) (call : Done A P)
    (stored : l.sem.ipc.arrays call.array ≠ none) (plain : ∀ i, undoSum call.sops i = 0) :
    UndoInv ⟨l.sem, call :: l.log⟩ := by
  refine ⟨inv.ids, inv.live, inv.known, ?_, inv.owned, inv.plain, ?_⟩
  · intro other member
    rcases List.mem_cons.mp member with rfl | member
    · exact stored
    · exact inv.logged other member
  · intro p a i alive live
    rw [undo_total_cons, plain i]
    simpa using inv.counts p a i alive live

theorem undo_applied {l : Logged A P} (inv : UndoInv l) {p : P} {w : Waiter A}
    (stored : l.sem.ipc.arrays w.array ≠ none)
    (owned : ∀ b, w.semUndo = some b →
      b = w.array ∧ w.array ∈ (l.sem.tasks p).undoProcess)
    (plain : w.semUndo = none → w.sops.any Sembuf.semUndo = false)
    (goes : tryStatus l.sem p w w.array = 0)
    (steps : UndoSteps (fun i => ((l.sem.counts p w w.array).undo i).toInt) w.sops) :
    UndoInv ⟨applied l.sem p w w.array, ⟨p, w.array, w.sops⟩ :: l.log⟩ := by
  cases given : w.semUndo with
  | none =>
      have kept : UndoInv ⟨applied l.sem p w w.array, l.log⟩ := by
        apply undo_keep inv
        unfold applied
        rw [given]
        exact set_vals_keeps l.sem w.array _
      apply undo_log_plain kept
      · have ids := (applied_agree l.sem p w w.array).ids w.array
        rw [ne_eq, ← Option.map_eq_none_iff, ids, Option.map_eq_none_iff]
        exact stored
      · exact undo_sum_none (plain given)
  | some b =>
      obtain ⟨rfl, member⟩ := owned b given
      have agree := applied_agree l.sem p w w.array
      have after := perform_undo steps goes
      have tasks : ∀ q, ∃ counts, (applied l.sem p w w.array).tasks q =
          { l.sem.tasks q with undo := counts } := fun q => set_undo_tasks _ p _ _ q
      have self : ((applied l.sem p w w.array).tasks p).undo =
          Function.update (l.sem.tasks p).undo w.array
            (applyAll (l.sem.counts p w w.array) w.sops).undo := by
        simp [applied, given, Sem.setUndo, Sem.setVals]
      have others : ∀ q, q ≠ p → (applied l.sem p w w.array).tasks q = l.sem.tasks q := by
        intro q other
        simp [applied, given, Sem.setUndo, Sem.setVals, Sem.setTask, other]
      have storedIff : ∀ c, (applied l.sem p w w.array).ipc.arrays c = none ↔
          l.sem.ipc.arrays c = none := by
        intro c
        rw [← Option.map_eq_none_iff, agree.ids, Option.map_eq_none_iff]
      refine ⟨?_, ?_, ?_, ?_, ?_, ?_, ?_⟩
      · intro q c id
        obtain ⟨counts, eq⟩ := tasks q
        dsimp only
        rw [eq, get_congr agree.slots]
        exact inv.ids q c id
      · intro q c
        obtain ⟨counts, eq⟩ := tasks q
        dsimp only
        rw [eq, live_congr agree.slots]
        exact inv.live q c
      · intro q c
        obtain ⟨counts, eq⟩ := tasks q
        dsimp only
        rw [eq, ne_eq, storedIff]
        exact inv.known q c
      · intro call inside
        dsimp only
        rw [ne_eq, storedIff]
        rcases List.mem_cons.mp inside with rfl | inside
        · exact stored
        · exact inv.logged call inside
      · intro q w' c
        obtain ⟨counts, eq⟩ := tasks q
        dsimp only
        rw [eq, live_congr agree.slots, ne_eq, storedIff]
        exact inv.owned q w' c
      · intro q w'
        obtain ⟨counts, eq⟩ := tasks q
        dsimp only
        rw [eq]
        exact inv.plain q w'
      · intro q c i
        obtain ⟨counts, eq⟩ := tasks q
        have process : ((applied l.sem p w w.array).tasks q).undoProcess =
            (l.sem.tasks q).undoProcess := by rw [eq]
        have exited : ((applied l.sem p w w.array).tasks q).exited =
            (l.sem.tasks q).exited := by rw [eq]
        dsimp only
        rw [live_congr agree.slots, exited, undo_total_cons]
        intro running liveC
        have before := inv.counts q c i running liveC
        dsimp only
        by_cases here : p = q ∧ w.array = c
        · obtain ⟨rfl, rfl⟩ := here
          rw [if_pos ⟨rfl, rfl⟩]
          unfold undoCount at before ⊢
          rw [process, if_pos member, self, Function.update_self, after i]
          rw [if_pos member] at before
          have read : (l.sem.counts p w w.array).undo i = (l.sem.tasks p).undo w.array i := by
            simp [Sem.counts, given]
          rw [read, before]
          omega
        · rw [if_neg here, zero_add, ← before]
          unfold undoCount
          rw [process]
          by_cases sameProcess : q = p
          · subst sameProcess
            have other : c ≠ w.array := fun same => here ⟨rfl, same.symm⟩
            rw [self, Function.update_of_ne other]
          · rw [others q sameProcess]

/-! ## Arrays come and go -/

theorem undo_semget {l : Logged A P} (inv : UndoInv l) (slots : SlotInv l.sem.ipc) (key : CInt)
    (nsems : Int) (creat : Bool) (slab : Option A) :
    UndoInv ⟨(semget l.sem key nsems creat slab).2, l.log⟩ := by
  rcases semget_cases l.sem key nsems creat slab with same | ⟨a, i, fresh, bound, free, made⟩
  · rw [same]
    exact inv
  · rw [made]
    have newborn : ¬ Live l.sem.ipc a := by
      intro live
      exact live_stored slots live fresh
    have notOwned : ∀ p, a ∉ (l.sem.tasks p).undoProcess := by
      intro p member
      exact inv.known p a member fresh
    have stored : ∀ b, l.sem.ipc.arrays b ≠ none →
        (l.sem.ipc.insert a i key nsems).arrays b ≠ none := by
      intro b held
      by_cases here : b = a
      · simp [Ipc.insert, here]
      · simpa [Ipc.insert, here] using held
    have liveBefore : ∀ b, Live (l.sem.ipc.insert a i key nsems) b → b ≠ a → Live l.sem.ipc b :=
      fun b live other => insert_live live other
    refine ⟨?_, ?_, ?_, ?_, ?_, inv.plain, ?_⟩
    · intro p b id member owner
      exact insert_get slots bound free (inv.ids p b id member owner)
    · intro p b member live
      have other : b ≠ a := by
        rintro rfl
        exact notOwned p member
      exact inv.live p b member (liveBefore b live other)
    · intro p b member
      exact stored b (inv.known p b member)
    · intro call member
      exact stored _ (inv.logged call member)
    · intro p w b waiting given
      obtain ⟨target, held, member⟩ := inv.owned p w b waiting given
      refine ⟨target, stored b held, fun live => member (liveBefore b live ?_)⟩
      rintro rfl
      exact held fresh
    · intro p b j running live
      by_cases here : b = a
      · subst here
        have unlogged : undoTotal l.log p b j = 0 := by
          unfold undoTotal
          rw [List.filter_eq_nil_iff.mpr]
          · rfl
          · intro call member
            have held := inv.logged call member
            simp only [decide_eq_true_eq, not_and]
            intro _ same
            rw [same] at held
            exact held fresh
        rw [unlogged]
        simp [undoCount, notOwned p]
      · exact inv.counts p b j running (liveBefore b live here)

omit [DecidableEq A] in
theorem free_from_keeps (fuel : Nat) (cursor : Option P) (s : Sem A P) :
    KeepsUndo s (freeFrom fuel cursor s) := by
  induction fuel generalizing cursor s with
  | zero => exact .refl s
  | succ fuel ih =>
      cases cursor with
      | none => exact .refl s
      | some p =>
          simp only [freeFrom]
          refine KeepsUndo.trans ?_ (ih _ _)
          refine (set_status_keeps s p (-1)).trans (KeepsUndo.trans ?_ (wake_keeps _ p))
          exact ⟨rfl, fun _ => rfl, fun _ => rfl, fun _ => rfl, fun _ => rfl, fun _ => rfl,
            fun _ => .inr rfl⟩

theorem undo_free [Fintype P] {l : Logged A P} (inv : UndoInv l) (slots : SlotInv l.sem.ipc)
    {a : A} {id : Int} (found : ipcGetArray l.sem.ipc id = some a) (array : SemArray) :
    UndoInv ⟨freeArray l.sem id.toNat a array, l.log⟩ := by
  have keeps := free_from_keeps (walkFuel P) (l.sem.queues.head a) l.sem
  have woken := undo_keep inv keeps
  have slotsWoken := slot_inv_congr keeps.slots keeps.ids slots
  have foundWoken : ipcGetArray (freeFrom (walkFuel P) (l.sem.queues.head a) l.sem).ipc id =
      some a := by rw [get_congr keeps.slots, found]
  unfold freeArray
  generalize freeFrom (walkFuel P) (l.sem.queues.head a) l.sem = s at woken slotsWoken foundWoken
  have liveBefore : ∀ b, Live (freeSlot s.ipc id.toNat array) b → Live s.ipc b ∧ b ≠ a :=
    fun b => free_slot_live slotsWoken foundWoken array
  refine ⟨?_, ?_, woken.known, woken.logged, ?_, woken.plain, ?_⟩
  · intro p b j member owner
    simp only [Sem.invalidate] at member owner
    split at owner
    · cases owner
    · next kept =>
        have other : b ≠ a := fun same => kept ⟨same, member⟩
        exact free_slot_get foundWoken array other (woken.ids p b j member owner)
  · intro p b member live
    obtain ⟨before, other⟩ := liveBefore b live
    simp only [Sem.invalidate] at member ⊢
    rw [if_neg fun same => other same.1]
    exact woken.live p b member before
  · intro p w b waiting given
    obtain ⟨target, stored, member⟩ := woken.owned p w b waiting given
    exact ⟨target, stored, fun live => member (liveBefore b live).1⟩
  · intro p b i running live
    exact woken.counts p b i running (liveBefore b live).1

/-! ## Runs -/

section Runs

variable [Fintype P]

/-- Polls leave the lists they find able to go through to their sleepers, no try of a
list takes an undo count past its range by more than one, and no sleeper of a list with
`SEM_UNDO` is killed after it was asked to retry. -/
def UndoGuarded (s : Sem A P) (event : SemEvent A P) : Prop :=
  PollsMeet LeftToSleeper s event ∧
    match event with
    | .semop p id sops slab => ∀ w s', semopEntry s p id sops slab = .ready w s' →
        UndoSteps (fun i => ((s'.counts p w w.array).undo i).toInt) w.sops
    | .resume p => ∀ w, (s.tasks p).waiting = some w → w.status = 0 →
        ((s.tasks p).reapMe = true → w.sops.any Sembuf.semUndo = false) ∧
          UndoSteps (fun i => ((s.counts p w w.array).undo i).toInt) w.sops
    | _ => True

omit [Fintype P] in
theorem undo_entry {l : Logged A P} (inv : UndoInv l) (slots : SlotInv l.sem.ipc) {p : P}
    {id : Int} {sops : List Sembuf} {slab : Bool} {w : Waiter A} {s' : Sem A P}
    (entry : semopEntry l.sem p id sops slab = .ready w s') :
    UndoInv ⟨s', l.log⟩ ∧ (∀ b, w.semUndo = some b →
        b = w.array ∧ w.array ∈ (s'.tasks p).undoProcess) ∧
      (w.semUndo = none → w.sops.any Sembuf.semUndo = false) ∧
      ∀ q b i, Live l.sem.ipc b → undoCount s' q b i = undoCount l.sem q b i := by
  obtain ⟨_, found, _, _, _, sameOps, _, _, _, acquired, needed⟩ := entry_ready entry
  have plain : w.semUndo = none → w.sops.any Sembuf.semUndo = false := by
    intro none_
    rw [sameOps]
    cases marked : sops.any Sembuf.semUndo with
    | false => rfl
    | true => exact absurd none_ (needed marked)
  split at acquired
  · obtain ⟨kept, given, counts⟩ := undo_acquire inv slots p found slab
    rw [← acquired] at kept given counts
    exact ⟨kept, given, plain, counts⟩
  · obtain ⟨noUndo, same⟩ := Prod.mk.inj acquired
    rw [same]
    refine ⟨inv, ?_, plain, fun _ _ _ _ => rfl⟩
    intro b given
    rw [noUndo] at given
    cases given

omit [DecidableEq A] [Fintype P] in
theorem leave_keeps (s : Sem A P) (p : P) : KeepsUndo s (s.leave p) := by
  apply set_task_keeps
  exact .inl rfl

theorem undo_semop {l : Logged A P} {s' : Sem A P} (inv : UndoInv l) (slots : SlotInv l.sem.ipc)
    {p : P} {id : Int} {sops : List Sembuf} {slab : Bool} {reply : Reply A} (guarded : UndoGuarded l.sem (.semop p id sops slab))
    (eq : semop l.sem p id sops slab = (reply, s')) :
    UndoInv ⟨s', (finished l.sem reply (.semop p id sops slab)).toList ++ l.log⟩ := by
  rcases semop_cases l.sem p id sops slab with ⟨array, t, entry, eq'⟩ | ⟨w, t, entry, tried⟩
  · rw [eq'] at eq
    obtain ⟨rfl, rfl⟩ := Prod.mk.inj eq
    rcases entry_refused entry with rfl | ⟨a, found, _, failed⟩
    · exact inv
    · have kept := (undo_acquire inv slots p found slab).1
      rw [failed] at kept
      exact kept
  · obtain ⟨entered, owned, plain, _⟩ := undo_entry inv slots entry
    have agree := (entry_agree l.sem p id sops slab).2 w t entry
    obtain ⟨_, found, held, _, _, sameOps, _⟩ := entry_ready entry
    have stored : t.ipc.arrays w.array ≠ none := by
      rw [ne_eq, ← Option.map_eq_none_iff, agree.ids, Option.map_eq_none_iff, held]
      simp
    rcases tried with ⟨goes, eq'⟩ | ⟨_, eq'⟩ | ⟨_, eq'⟩
    · rw [eq'] at eq
      obtain ⟨rfl, rfl⟩ := Prod.mk.inj eq
      have served := undo_applied entered stored owned plain goes (guarded.2 w t entry)
      rw [sameOps] at served
      exact served
    · rw [eq'] at eq
      obtain ⟨rfl, rfl⟩ := Prod.mk.inj eq
      exact entered
    · rw [eq'] at eq
      obtain ⟨rfl, rfl⟩ := Prod.mk.inj eq
      -- the new waiter is the only one whose list is not yet known
      have tasks : ∀ q, ((t.enqueue p w.array).sleep p w).tasks q =
          if q = p then { t.tasks q with
            waiting := some { w with status := -1 }
            asleep := true } else t.tasks q := by
        intro q
        by_cases here : q = p
        · simp [Sem.sleep, Sem.enqueue, here]
        · simp [Sem.sleep, Sem.enqueue, Sem.setTask, here]
      have fields : ∀ q, (((t.enqueue p w.array).sleep p w).tasks q).undoProcess =
            (t.tasks q).undoProcess ∧
          (((t.enqueue p w.array).sleep p w).tasks q).undoId = (t.tasks q).undoId ∧
          (((t.enqueue p w.array).sleep p w).tasks q).undo = (t.tasks q).undo ∧
          (((t.enqueue p w.array).sleep p w).tasks q).exited = (t.tasks q).exited := by
        intro q
        rw [tasks q]
        split <;> exact ⟨rfl, rfl, rfl, rfl⟩
      refine ⟨?_, ?_, ?_, entered.logged, ?_, ?_, ?_⟩
      · intro q b j
        dsimp only
        rw [(fields q).1, (fields q).2.1]
        exact entered.ids q b j
      · intro q b
        dsimp only
        rw [(fields q).1, (fields q).2.1]
        exact entered.live q b
      · intro q b
        dsimp only
        rw [(fields q).1]
        exact entered.known q b
      · intro q w' b waiting given
        dsimp only at waiting ⊢
        rw [(fields q).1]
        rw [tasks q] at waiting
        split at waiting
        · next here =>
            subst here
            rw [Option.some.injEq] at waiting
            subst waiting
            obtain ⟨target, member⟩ := owned b given
            subst target
            exact ⟨rfl, stored, fun _ => member⟩
        · exact entered.owned q w' b waiting given
      · intro q w' waiting none_
        dsimp only at waiting
        rw [tasks q] at waiting
        split at waiting
        · rw [Option.some.injEq] at waiting
          subst waiting
          exact plain none_
        · exact entered.plain q w' waiting none_
      · intro q b i
        dsimp only
        unfold undoCount
        rw [(fields q).1, (fields q).2.2.1, (fields q).2.2.2]
        exact entered.counts q b i

theorem undo_left {l : Logged A P} {s' : Sem A P} (good : Good l.sem) (inv : UndoInv l) {p : P}
    {w : Waiter A} (waiting : (l.sem.tasks p).waiting = some w)
    (guarded : UndoGuarded l.sem (.resume p)) {ret : Int} {a : A}
    (left : wakeup l.sem p w = .left ret a s') :
    UndoInv ⟨s', (if ret = 0 then [⟨p, a, w.sops⟩] else []) ++ l.log⟩ := by
  obtain ⟨⟨nodes, queues⟩, waits⟩ := good
  rcases wakeup_cases l.sem p w with ⟨_, round⟩ | ⟨c, found, ⟨reaped, round⟩ | ⟨spared, cases⟩⟩
  · rw [round] at left
    cases left
  · rw [round] at left
    cases left
    have stored := live_stored queues.slots (live_of_get found)
    have logged : UndoInv ⟨l.sem, (if w.status = 0 then [⟨p, a, w.sops⟩] else []) ++ l.log⟩ := by
      split
      · next zero =>
          apply undo_log_plain inv ⟨p, a, w.sops⟩ stored
          exact undo_sum_none ((guarded.2 w waiting zero).1 reaped)
      · exact inv
    by_cases linked : l.sem.queues.pprev p ≠ none
    · rw [if_pos linked]
      exact undo_keep logged (queue_del_keeps l.sem p a)
    · rw [if_neg linked]
      exact logged
  · rcases cases with ⟨zero, goes, round⟩ | ⟨_, _, round⟩ | ⟨_, _, round⟩ | ⟨negative, round⟩ |
      ⟨_, round⟩
    · rw [round] at left
      cases left
      obtain ⟨live, found', _⟩ := waiter_place queues waiting (linked_of_zero waits waiting zero)
      rw [found, Option.some.injEq] at found'
      subst found'
      rw [if_pos rfl]
      have served : UndoInv ⟨applied l.sem p w w.array, ⟨p, w.array, w.sops⟩ :: l.log⟩ := by
        apply undo_applied inv (live_stored queues.slots live) _ (inv.plain p w waiting) goes
          (guarded.2 w waiting zero).2
        intro b given
        obtain ⟨target, _, member⟩ := inv.owned p w b waiting given
        rw [target] at member
        exact ⟨target, member live⟩
      exact undo_keep served (queue_del_keeps _ p w.array)
    · rw [round] at left
      cases left
      rw [if_neg (by decide)]
      exact undo_keep inv (queue_del_keeps _ p a)
    · rw [round] at left
      cases left
    · rw [round] at left
      cases left
      rw [if_neg (by omega)]
      exact inv
    · rw [round] at left
      cases left

omit [Fintype P] in
theorem undo_exited {l : Logged A P} (inv : UndoInv l) {p : P}
    (outside : (l.sem.tasks p).waiting = none) :
    UndoInv ⟨l.sem.setTask p { l.sem.tasks p with undoProcess := [], exited := true },
      l.log⟩ := by
  have others : ∀ q, q ≠ p →
      (l.sem.setTask p { l.sem.tasks p with undoProcess := [], exited := true }).tasks q =
        l.sem.tasks q := fun q => set_task_of_ne _ _ _
  refine ⟨?_, ?_, ?_, inv.logged, ?_, ?_, ?_⟩
  · intro q b id
    by_cases same : q = p
    · simp [same]
    · dsimp only
      rw [others q same]
      exact inv.ids q b id
  · intro q b
    by_cases same : q = p
    · simp [same]
    · dsimp only
      rw [others q same]
      exact inv.live q b
  · intro q b
    by_cases same : q = p
    · simp [same]
    · dsimp only
      rw [others q same]
      exact inv.known q b
  · intro q w b
    by_cases same : q = p
    · simp [same, outside]
    · dsimp only
      rw [others q same]
      exact inv.owned q w b
  · intro q w
    by_cases same : q = p
    · simp [same, outside]
    · dsimp only
      rw [others q same]
      exact inv.plain q w
  · intro q a i
    by_cases same : q = p
    · simp [same]
    · dsimp only
      unfold undoCount
      rw [others q same]
      exact inv.counts q a i

theorem undo_step {l l' : Logged A P} {event : SemEvent A P} (good : Good l.sem)
    (inv : UndoInv l) (guarded : UndoGuarded l.sem event)
    (stepped : loggedStep l event = some l') : UndoInv l' := by
  obtain ⟨reply, taken, log⟩ := logged_step stepped
  obtain ⟨s', log'⟩ := l'
  dsimp only at taken log
  subst log
  obtain ⟨nodes, queues⟩ := good.1
  cases event with
  | semget p key nsems creat slab =>
      obtain ⟨_, _, ⟨_, _, rfl⟩ | ⟨_, eq⟩⟩ := call_step taken
      · exact inv
      · have kept := undo_semget inv queues.slots key nsems creat slab
        rw [eq] at kept
        exact kept
  | setval p id num arg =>
      obtain ⟨_, _, ⟨_, _, rfl⟩ | ⟨_, eq⟩⟩ := call_step taken
      · exact inv
      · have result : (setval l.sem id num arg).2 = s' := congrArg Prod.snd eq
        rcases setval_cases l.sem id num arg with same | ⟨array, a, changed, change, polled⟩
        · rw [← result, same]
          exact inv
        · rw [← result, polled]
          have tries := guarded.1 _ _ (Polls.setval change)
          obtain ⟨held, value, _, _, _, _, _, rfl⟩ := setval_change_spec change
          exact undo_keep inv ((set_vals_keeps l.sem a _).trans (poll_keeps tries))
  | rmid p id semNum =>
      obtain ⟨_, _, ⟨_, _, rfl⟩ | ⟨_, eq⟩⟩ := call_step taken
      · exact inv
      · have result : (rmid l.sem id semNum).2 = s' := congrArg Prod.snd eq
        rcases rmid_cases l.sem id semNum with same | ⟨a, array, found, _, freed⟩
        · rw [← result, same]
          exact inv
        · rw [← result, freed]
          exact undo_free inv queues.slots found array
  | semop p id sops slab =>
      obtain ⟨outside, _, ⟨_, rfl, rfl⟩ | ⟨_, eq⟩⟩ := call_step taken
      · exact inv
      · exact undo_semop inv queues.slots guarded eq
  | resume p =>
      obtain ⟨w, waiting, awake, result⟩ := resume_step taken
      rcases resume_cases result with ⟨_, rfl, rfl⟩ | ⟨ret, a, left, round, rfl, rfl⟩ |
        ⟨_, rfl, rfl⟩
      · have unlogged : succeeded (.returned w.status none : Reply A) = none := by
          simp [succeeded]
        simp only [finished, unlogged, Option.bind_none, Option.toList_none, List.nil_append]
        exact undo_keep inv (leave_keeps l.sem p)
      · have logged : (finished l.sem (.returned ret (some a)) (.resume p)).toList =
            if ret = 0 then [⟨p, a, w.sops⟩] else [] := by
          by_cases zero : ret = 0
          · simp [finished, succeeded, zero, waiting]
          · simp [finished, succeeded, zero]
        rw [logged]
        have gone := undo_keep (undo_left good inv waiting guarded round) (leave_keeps left p)
        cases alter : w.alter with
        | true =>
            have tries := guarded.1 _ _ (Polls.resume waiting round alter)
            exact undo_keep gone (poll_keeps tries)
        | false => exact gone
      · simp only [finished, succeeded, Option.bind_none, Option.toList_none, List.nil_append]
        apply undo_keep inv
        apply set_task_keeps
        right
        rw [waiting]
        rfl
  | exit p =>
      obtain ⟨outside, _, rfl, rfl⟩ := exit_step taken
      have rounds := undo_keep inv
        (exit_rounds_keeps p guarded.1 (l.sem.tasks p).undoProcess [] (by simp))
      have still := (exit_rounds_waiting p (l.sem.tasks p).undoProcess l.sem p).mpr outside
      exact undo_exited rounds still
  | kill p =>
      obtain ⟨rfl, rfl⟩ := kill_step taken
      apply undo_keep inv
      apply set_task_keeps
      exact .inr rfl

omit [Fintype P] in
theorem semop_exited {s s' : Sem A P} {p : P} {id : Int} {sops : List Sembuf} {slab : Bool}
    {reply : Reply A} (eq : semop s p id sops slab = (reply, s')) (q : P) :
    (s'.tasks q).exited = (s.tasks q).exited := by
  have acquired : ∀ a, (((acquireUndo s p id a slab).2).tasks q).exited = (s.tasks q).exited := by
    intro a
    unfold acquireUndo
    dsimp only
    by_cases here : q = p
    · subst here
      split
      · simp
      · split <;> simp
    · split
      · rw [set_task_of_ne _ _ _ here]
      · split <;> rw [set_task_of_ne _ _ _ here]
  rcases semop_cases s p id sops slab with ⟨array, t, entry, eq'⟩ | ⟨w, t, entry, tried⟩
  · rw [eq'] at eq
    obtain ⟨rfl, rfl⟩ := Prod.mk.inj eq
    rcases entry_refused entry with rfl | ⟨a, _, _, failed⟩
    · rfl
    · have kept := acquired a
      rwa [failed] at kept
  · obtain ⟨_, _, _, _, _, _, _, _, _, given, _⟩ := entry_ready entry
    have entered : (t.tasks q).exited = (s.tasks q).exited := by
      split at given
      · have kept := acquired w.array
        rwa [← given] at kept
      · rw [(Prod.mk.inj given).2]
    rcases tried with ⟨_, eq'⟩ | ⟨_, eq'⟩ | ⟨_, eq'⟩
    · rw [eq'] at eq
      obtain ⟨rfl, rfl⟩ := Prod.mk.inj eq
      obtain ⟨counts, same⟩ := set_undo_tasks
        (t.setVals w.array (applyAll (t.counts p w w.array) w.sops).val) p w.semUndo
        (applyAll (t.counts p w w.array) w.sops).undo q
      unfold applied
      rw [same]
      exact entered
    · rw [eq'] at eq
      obtain ⟨rfl, rfl⟩ := Prod.mk.inj eq
      exact entered
    · rw [eq'] at eq
      obtain ⟨rfl, rfl⟩ := Prod.mk.inj eq
      rw [← entered]
      by_cases here : q = p
      · simp [Sem.sleep, Sem.enqueue, here]
      · simp [Sem.sleep, Sem.enqueue, Sem.setTask, here]

/-- A call that would take the count of the ledger out of its range. -/
theorem undo_out_of_range {l : Logged A P} (good : Good l.sem) (inv : UndoInv l) {p : P}
    (running : (l.sem.tasks p).exited = false) {a : A} {id : Int} {sops : List Sembuf}
    {slab : Bool} (found : ipcGetArray l.sem.ipc id = some a) {i : Nat}
    (guarded : UndoGuarded l.sem (.semop p id sops slab))
    (outside : ¬ (-maxSemUndoVal - 1 ≤ -(undoTotal l.log p a i + undoSum sops i) ∧
      -(undoTotal l.log p a i + undoSum sops i) ≤ maxSemUndoVal)) {reply : Reply A}
    {s' : Sem A P} (stepped : semStep l.sem (.semop p id sops slab) = some (reply, s')) :
    succeeded reply = none ∧ (∀ b, s'.vals b = l.sem.vals b) ∧
      ∀ q b j, Live l.sem.ipc b → undoCount s' q b j = undoCount l.sem q b j := by
  obtain ⟨⟨nodes, queues⟩, _⟩ := good
  obtain ⟨notWaiting, _, ⟨_, rfl, rfl⟩ | ⟨_, eq⟩⟩ := call_step stepped
  · exact ⟨rfl, fun _ => rfl, fun _ _ _ _ => rfl⟩
  · rcases semop_cases l.sem p id sops slab with ⟨array, t, entry, eq'⟩ | ⟨w, t, entry, tried⟩
    · rw [eq'] at eq
      obtain ⟨rfl, rfl⟩ := Prod.mk.inj eq
      refine ⟨rfl, entry_vals (.inl ⟨array, entry⟩), ?_⟩
      intro q b j live
      rcases entry_refused entry with rfl | ⟨c, foundC, _, failed⟩
      · rfl
      · have counts := (undo_acquire inv queues.slots p foundC slab).2.2 q b j live
        rwa [failed] at counts
    · have vals := entry_vals (.inr ⟨w, entry⟩)
      obtain ⟨_, _, _, counts⟩ := undo_entry inv queues.slots entry
      obtain ⟨_, foundW, _⟩ := entry_ready entry
      have target : w.array = a := by
        rw [found, Option.some.injEq] at foundW
        exact foundW.symm
      rcases tried with ⟨_, eq'⟩ | ⟨_, eq'⟩ | ⟨_, eq'⟩
      · rw [eq'] at eq
        obtain ⟨rfl, rfl⟩ := Prod.mk.inj eq
        exfalso
        -- the ledger after the call is exact, and the count in it fits sixteen bits
        have served := undo_semop inv queues.slots guarded eq'
        have agree := ((entry_agree l.sem p id sops slab).2 w t entry).trans
          (applied_agree t p w w.array)
        have live := (live_congr agree.slots a).mpr (live_of_get found)
        have stillRunning : ((applied t p w w.array).tasks p).exited = false := by
          rw [semop_exited eq' p]
          exact running
        have exact_ := served.counts p a i stillRunning live
        have logged : (finished l.sem (.returned 0 (some w.array))
            (.semop p id sops slab)).toList ++ l.log = ⟨p, w.array, sops⟩ :: l.log := rfl
        dsimp only at exact_
        rw [logged, undo_total_cons, if_pos ⟨rfl, target⟩] at exact_
        dsimp only at exact_
        have low : -maxSemUndoVal - 1 ≤ undoCount (applied t p w w.array) p a i ∧
            undoCount (applied t p w w.array) p a i ≤ maxSemUndoVal := by
          unfold undoCount maxSemUndoVal
          split
          · have lower := (((applied t p w w.array).tasks p).undo a i).le_toInt
            have upper := (((applied t p w w.array).tasks p).undo a i).toInt_lt
            norm_num at lower upper
            omega
          · omega
        rw [exact_, Int.add_comm (undoSum sops i)] at low
        exact outside low
      · rw [eq'] at eq
        obtain ⟨rfl, rfl⟩ := Prod.mk.inj eq
        exact ⟨rfl, vals, counts⟩
      · rw [eq'] at eq
        obtain ⟨rfl, rfl⟩ := Prod.mk.inj eq
        refine ⟨rfl, vals, ?_⟩
        intro q b j live
        rw [← counts q b j live]
        unfold undoCount
        by_cases here : q = p
        · simp [Sem.sleep, Sem.enqueue, here]
        · simp [Sem.sleep, Sem.enqueue, Sem.setTask, here]

/-- The round of `sem_exit_lock` for the structure of a live array. -/
theorem undo_exit {l : Logged A P} (good : Good l.sem) (inv : UndoInv l) {p : P}
    (running : (l.sem.tasks p).exited = false) {a : A} (live : Live l.sem.ipc a)
    (guarded : UndoGuarded l.sem (.exit p)) {done rest : List A}
    (split : (l.sem.tasks p).undoProcess = done ++ a :: rest)
    (outside : (l.sem.tasks p).waiting = none) :
    ∃ array changed, (done.foldl (exitUndo p) l.sem).ipc.arrays a = some array ∧
      exitChange (done.foldl (exitUndo p) l.sem) p a = some (a, changed) ∧
      ∀ i : Nat, (i : Int) < array.nsems →
        0 ≤ (array.val i).toInt - undoTotal l.log p a i →
        (array.val i).toInt - undoTotal l.log p a i ≤ 2147483647 →
        (changed.vals a i).toInt = (array.val i).toInt - undoTotal l.log p a i := by
  obtain ⟨⟨nodes, queues⟩, _⟩ := good
  have member : a ∈ (l.sem.tasks p).undoProcess := by simp [split]
  have keeps := exit_rounds_keeps p guarded.1 done (a :: rest) split
  have idle := exit_rounds_idle outside p done
  obtain ⟨id, owner⟩ := Option.ne_none_iff_exists'.mp (inv.live p a member live)
  have found := inv.ids p a id member owner
  generalize done.foldl (exitUndo p) l.sem = middle at keeps idle ⊢
  have foundMiddle : ipcGetArray middle.ipc id = some a := by
    rw [get_congr keeps.slots, found]
  have stored : middle.ipc.arrays a ≠ none := by
    rw [ne_eq, arrays_none_iff keeps]
    exact live_stored queues.slots live
  obtain ⟨array, held⟩ := Option.ne_none_iff_exists'.mp stored
  refine ⟨array, middle.setVals a (adjusted array ((l.sem.tasks p).undo a)), held, ?_, ?_⟩
  · simp [exitChange, idle, owner, foundMiddle, held]
  · intro i inside low high
    have count := inv.counts p a i running live
    unfold undoCount at count
    rw [if_pos member] at count
    rw [set_vals_vals middle a _ held]
    unfold adjusted
    rw [if_pos inside]
    have sum : (array.val i + ((l.sem.tasks p).undo a i).signExtend 32).toInt =
        (array.val i).toInt + ((l.sem.tasks p).undo a i).toInt :=
      adjust_exact (by omega) (by omega)
    unfold adjustVal
    dsimp only
    rw [if_neg (by omega), sum, count]
    omega

omit [Fintype P] in
/-- An amount of one cannot take a count past its range by more than one. -/
theorem undo_steps_one (undo : Nat → BitVec 16) (num : Nat) :
    UndoSteps (fun i => (undo i).toInt) [⟨num, 1, true, false⟩] := by
  have lower := (undo num).le_toInt
  have upper := (undo num).toInt_lt
  norm_num at lower upper
  refine ⟨?_, trivial⟩
  intro _
  dsimp only
  unfold maxSemUndoVal
  omega

end Runs

end MirOs.SemUndo
