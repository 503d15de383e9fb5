import MirOs.ProcessModel
import Mathlib.Order.Interval.Finset.Nat

/-!
# Pids and the pid hash table

Every live task is on `task_list` and in the hash chain of its pid, the pids are distinct
and positive, and `lookup_pid` finds exactly the live tasks, over every sequence of
creations, exits and reaps.
-/

namespace MirOs.PidTable

set_option autoImplicit false

open MirOs.DList (Ring)
open MirOs.PprevChain (Table Chain)
open MirOs.ProcessModel

variable {T : Type*}

/-- A pid of a task: a positive `short`. -/
def PidRange (pid : Nat) : Prop := 1 ≤ pid ∧ pid ≤ maxPid

structure PidInv (s : Processes T) (alive : List T) : Prop where
  ring : Ring s.taskList none (alive.map some)
  distinct : (alive.map fun t => (s.tasks t).pid).Nodup
  range : ∀ t ∈ alive, PidRange (s.tasks t).pid.toNat
  hashed : ∃ buckets : BitVec 32 → List T, Table s.hashTable (fun _ => True) buckets ∧
    ∀ t key, t ∈ buckets key ↔ t ∈ alive ∧ pidHashFn (s.tasks t).pid = key
  search : ∀ t ∈ alive, (s.tasks t).hashSearch = true
  last : PidRange s.lastPid.toNat

theorem inv_nodup {s : Processes T} {alive : List T} (inv : PidInv s alive) : alive.Nodup :=
  (List.nodup_cons.mp inv.ring.nodup).2.of_map _

theorem inv_length {s : Processes T} {alive : List T} (inv : PidInv s alive) :
    alive.length < walkFuel := by
  have numbers : (alive.map fun t => (s.tasks t).pid.toNat).Nodup := by
    have mapped := inv.distinct.map (fun _ _ => BitVec.eq_of_toNat_eq)
    rwa [List.map_map] at mapped
  have inside : (alive.map fun t => (s.tasks t).pid.toNat).toFinset ⊆ Finset.Icc 1 maxPid := by
    intro pid member
    rw [List.mem_toFinset, List.mem_map] at member
    obtain ⟨t, alive, rfl⟩ := member
    exact Finset.mem_Icc.mpr (inv.range t alive)
  have bound := Finset.card_le_card inside
  rw [List.toFinset_card_of_nodup numbers, List.length_map, Nat.card_Icc] at bound
  unfold walkFuel
  omega

/-- The invariant reads the links of the live tasks, their pids and the last pid. -/
theorem inv_congr {s s' : Processes T} {alive : List T} (inv : PidInv s alive)
    (links : ∀ node ∈ none :: alive.map some, s'.taskList.next node = s.taskList.next node ∧
      s'.taskList.prev node = s.taskList.prev node)
    (heads : s'.hashTable.head = s.hashTable.head)
    (chains : ∀ t ∈ alive, s'.hashTable.next t = s.hashTable.next t ∧
      s'.hashTable.pprev t = s.hashTable.pprev t)
    (tasks : ∀ t ∈ alive, (s'.tasks t).pid = (s.tasks t).pid ∧
      (s'.tasks t).hashSearch = (s.tasks t).hashSearch)
    (last : PidRange s'.lastPid.toNat) : PidInv s' alive where
  ring := DList.ring_congr links inv.ring
  distinct := by
    have same : (alive.map fun t => (s'.tasks t).pid) = alive.map fun t => (s.tasks t).pid := by
      apply List.map_congr_left
      intro t member
      exact (tasks t member).1
    rw [same]
    exact inv.distinct
  range := by
    intro t member
    rw [(tasks t member).1]
    exact inv.range t member
  hashed := by
    obtain ⟨buckets, table, members⟩ := inv.hashed
    refine ⟨buckets, ⟨?_, table.apart⟩, ?_⟩
    · intro key live
      apply PprevChain.chain_congr _ _ _ (table.chain key live)
      · rw [heads]
      · intro t member
        exact (chains t ((members t key).mp member).1).1
      · intro t member
        exact (chains t ((members t key).mp member).1).2
    · intro t key
      rw [members]
      apply and_congr_right
      intro member
      rw [(tasks t member).1]
  search := by
    intro t member
    rw [(tasks t member).2]
    exact inv.search t member
  last := last

variable [DecidableEq T]

/-! ## Operations that leave the pids alone -/

/-- Only the tree and `ppid` differ. -/
structure SamePids (s s' : Processes T) : Prop where
  taskList : s'.taskList = s.taskList
  hashTable : s'.hashTable = s.hashTable
  lastPid : s'.lastPid = s.lastPid
  task : ∀ t, (s'.tasks t).pid = (s.tasks t).pid ∧ (s'.tasks t).hashSearch = (s.tasks t).hashSearch

omit [DecidableEq T] in
theorem same_refl (s : Processes T) : SamePids s s := ⟨rfl, rfl, rfl, fun _ => ⟨rfl, rfl⟩⟩

omit [DecidableEq T] in
theorem SamePids.trans {s s' s'' : Processes T} (first : SamePids s s') (second : SamePids s' s'') :
    SamePids s s'' where
  taskList := second.taskList.trans first.taskList
  hashTable := second.hashTable.trans first.hashTable
  lastPid := second.lastPid.trans first.lastPid
  task := fun t =>
    ⟨(second.task t).1.trans (first.task t).1, (second.task t).2.trans (first.task t).2⟩

theorem same_modify (s : Processes T) (t : T) {change : TaskStruct T → TaskStruct T}
    (pid : ∀ task, (change task).pid = task.pid)
    (search : ∀ task, (change task).hashSearch = task.hashSearch) :
    SamePids s (s.modify t change) where
  taskList := rfl
  hashTable := rfl
  lastPid := rfl
  task := by
    intro other
    unfold Processes.modify
    dsimp only
    by_cases same : other = t
    · subst same
      rw [Function.update_self]
      exact ⟨pid _, search _⟩
    · rw [Function.update_of_ne same]
      exact ⟨rfl, rfl⟩

theorem same_set_c (s : Processes T) (t value : Option T) : SamePids s (s.setCPtr t value) := by
  unfold Processes.setCPtr
  split
  · exact same_refl s
  · apply same_modify
    · intro task
      rfl
    · intro task
      rfl

theorem same_set_o (s : Processes T) (t value : Option T) : SamePids s (s.setOSptr t value) := by
  unfold Processes.setOSptr
  split
  · exact same_refl s
  · apply same_modify
    · intro task
      rfl
    · intro task
      rfl

theorem same_set_y (s : Processes T) (t value : Option T) : SamePids s (s.setYSptr t value) := by
  unfold Processes.setYSptr
  split
  · exact same_refl s
  · apply same_modify
    · intro task
      rfl
    · intro task
      rfl

theorem same_link_tree (s : Processes T) (t : T) : SamePids s (linkTree s t) := by
  unfold linkTree
  split
  · exact same_refl s
  · apply SamePids.trans _ (same_set_c _ _ _)
    apply SamePids.trans _ (same_set_y _ _ _)
    apply SamePids.trans _ (same_set_o _ _ _)
    apply SamePids.trans _ (same_set_y _ _ _)
    apply SamePids.trans _ (same_set_o _ _ _)
    exact same_set_c _ _ _

theorem same_unlink_tree (s : Processes T) (t : T) : SamePids s (unlinkTree s t) := by
  unfold unlinkTree
  split
  · exact same_refl s
  · apply SamePids.trans _ (same_set_o _ _ _)
    apply SamePids.trans _ (same_set_y _ _ _)
    apply SamePids.trans _ (same_set_c _ _ _)
    apply SamePids.trans _ (same_set_o _ _ _)
    apply SamePids.trans _ (same_set_y _ _ _)
    split
    · exact same_set_c _ _ _
    · exact same_refl s

theorem same_adopt (init : T) (s : Processes T) (task child : T) :
    SamePids s (adopt init s task child) := by
  apply (same_unlink_tree s child).trans
  apply SamePids.trans _ (same_link_tree _ child)
  apply same_modify
  · intro task
    rfl
  · intro task
    rfl

theorem same_adopt_children (init : T) (fuel : Nat) (s : Processes T) (task : T) :
    SamePids s (adoptChildren init fuel s task) := by
  induction fuel generalizing s with
  | zero => exact same_refl s
  | succ fuel ih =>
      unfold adoptChildren
      split
      · exact same_refl s
      · exact (same_adopt init s task _).trans (ih _)

theorem same_restore_parents (fuel : Nat) (s : Processes T) (child : Option T) :
    SamePids s (restoreParents fuel s child) := by
  induction fuel generalizing s child with
  | zero => exact same_refl s
  | succ fuel ih =>
      cases child with
      | none => exact same_refl s
      | some child =>
          apply SamePids.trans _ (ih _ _)
          apply same_modify
          · intro task
            rfl
          · intro task
            rfl

theorem same_leave_children (init : T) (s : Processes T) (task : T) :
    SamePids s (leaveChildren init s task) := by
  unfold leaveChildren
  split
  · exact same_refl s
  · split
    · exact same_adopt_children init walkFuel s task
    · split
      · exact same_restore_parents walkFuel s _
      · exact same_refl s

omit [DecidableEq T] in
theorem inv_same {s s' : Processes T} {alive : List T} (inv : PidInv s alive)
    (same : SamePids s s') : PidInv s' alive := by
  apply inv_congr inv
  · intro node _
    rw [same.taskList]
    exact ⟨rfl, rfl⟩
  · rw [same.hashTable]
  · intro t _
    rw [same.hashTable]
    exact ⟨rfl, rfl⟩
  · intro t _
    exact same.task t
  · rw [same.lastPid]
    exact inv.last

omit [DecidableEq T] in
theorem inv_max_tasks {s : Processes T} {alive : List T} (inv : PidInv s alive) (count : Int) :
    PidInv { s with maxTasks := count } alive :=
  ⟨inv.ring, inv.distinct, inv.range, inv.hashed, inv.search, inv.last⟩

/-! ## Finding a pid -/

/-- `++last_pid` in the range of pids, going round after the last one. -/
theorem bump_val {last : BitVec 16} (range : PidRange last.toNat) :
    (bumpPid last).toNat = last.toNat % maxPid + 1 := by
  obtain ⟨lower, upper⟩ := range
  unfold maxPid at *
  unfold bumpPid
  by_cases top : last.toNat = 32767
  · have eq : last = 32767#16 := BitVec.eq_of_toNat_eq top
    subst eq
    rfl
  · have sum : (last + 1).toNat = last.toNat + 1 := by
      rw [BitVec.toNat_add]
      simp only [BitVec.ofNat_eq_ofNat, BitVec.toNat_ofNat]
      omega
    have positive : ¬ (last + 1).toInt < 0 := by
      rw [BitVec.toInt_eq_toNat_cond, sum]
      split <;> omega
    rw [if_neg positive, sum, Nat.mod_eq_of_lt (by omega)]

theorem bump_range {last : BitVec 16} (range : PidRange last.toNat) :
    PidRange (bumpPid last).toNat := by
  rw [PidRange, bump_val range]
  have below := Nat.mod_lt last.toNat (show 0 < maxPid by decide)
  omega

theorem bump_iterate {last : BitVec 16} (range : PidRange last.toNat) (n : Nat) :
    (bumpPid^[n] last).toNat = (last.toNat - 1 + n) % maxPid + 1 := by
  have positive : 0 < maxPid := by decide
  induction n generalizing last with
  | zero =>
      obtain ⟨lower, upper⟩ := range
      have small : last.toNat - 1 < maxPid := by omega
      rw [Function.iterate_zero, id, Nat.add_zero (last.toNat - 1), Nat.mod_eq_of_lt small]
      omega
  | succ n ih =>
      rw [Function.iterate_succ_apply, ih (bump_range range), bump_val range]
      obtain ⟨lower, upper⟩ := range
      have shift : last.toNat - 1 + (n + 1) = last.toNat + n := by omega
      rw [shift, Nat.add_sub_cancel, Nat.mod_add_mod]

theorem scan_found {taken : BitVec 32 → Bool} {oldPid pid last' : BitVec 16} (fuel : Nat)
    (last : BitVec 16) (range : PidRange last.toNat)
    (found : scanPids taken oldPid fuel last = (some pid, last')) :
    last' = pid ∧ taken (pid.signExtend 32) = false ∧ PidRange pid.toNat := by
  induction fuel generalizing last with
  | zero => cases found
  | succ fuel ih =>
      unfold scanPids at found
      split at found
      · split at found
        · cases found
        · exact ih (bumpPid last) (bump_range range) found
      · next free =>
          cases found
          exact ⟨rfl, by simpa using free, range⟩

theorem scan_last {taken : BitVec 32 → Bool} {oldPid : BitVec 16} (fuel : Nat) (last : BitVec 16)
    (old : PidRange oldPid.toNat) (range : PidRange last.toNat) :
    PidRange (scanPids taken oldPid fuel last).2.toNat := by
  induction fuel generalizing last with
  | zero => exact range
  | succ fuel ih =>
      unfold scanPids
      split
      · split
        · exact old
        · exact ih (bumpPid last) (bump_range range)
      · exact range

/-- A scan that fails has seen the pids up to the one it started from. -/
theorem scan_missed {taken : BitVec 32 → Bool} {oldPid : BitVec 16} (fuel : Nat) (last : BitVec 16)
    (missed : (scanPids taken oldPid fuel last).1 = none) (n : Nat) (inside : n < fuel)
    (before : ∀ i, 1 ≤ i → i ≤ n → bumpPid^[i] last ≠ oldPid) :
    taken ((bumpPid^[n] last).signExtend 32) = true := by
  induction fuel generalizing last n with
  | zero => omega
  | succ fuel ih =>
      unfold scanPids at missed
      split at missed
      · next busy =>
          cases n with
          | zero => exact busy
          | succ n =>
              have next : bumpPid last ≠ oldPid := before 1 (Nat.le_refl _) (by omega)
              rw [if_neg next] at missed
              apply ih (bumpPid last) missed n (by omega)
              intro i lower upper
              exact before (i + 1) (by omega) (by omega)
      · cases missed

theorem sign_extend_val {pid : BitVec 16} (range : PidRange pid.toNat) :
    (pid.signExtend 32).toNat = pid.toNat := by
  have upper := range.2
  unfold maxPid at upper
  have clear : pid.msb = false := by
    rw [BitVec.msb_eq_decide]
    simp only [decide_eq_false_iff_not, not_le]
    omega
  rw [BitVec.signExtend_eq_setWidth_of_msb_false clear, BitVec.toNat_setWidth]
  omega

/-- `get_pid` fails only when every pid is taken. -/
theorem get_pid_none {s : Processes T} (last : PidRange s.lastPid.toNat)
    (missed : (getPid s).1 = none) (pid : BitVec 32) (range : PidRange pid.toNat) :
    pidTaken s pid = true := by
  have old := bump_range last
  obtain ⟨oldLower, oldUpper⟩ := old
  obtain ⟨lower, upper⟩ := range
  have apart : ∀ i, 1 ≤ i → i < maxPid → bumpPid^[i] (bumpPid s.lastPid) ≠ bumpPid s.lastPid := by
    intro i least most same
    have value := bump_iterate (bump_range last) i
    rw [same] at value
    generalize (bumpPid s.lastPid).toNat = p at *
    unfold maxPid at *
    omega
  -- the distance of the pid from the one the scan starts at
  let n := (pid.toNat + maxPid - (bumpPid s.lastPid).toNat) % maxPid
  have inside : n < maxPid := Nat.mod_lt _ (by decide)
  have busy := scan_missed maxPid (bumpPid s.lastPid) missed n inside (by
    intro i least most
    exact apart i least (by omega))
  have reached : (bumpPid^[n] (bumpPid s.lastPid)).toNat = pid.toNat := by
    rw [bump_iterate (bump_range last)]
    simp only [n]
    generalize (bumpPid s.lastPid).toNat = p at *
    unfold maxPid at *
    omega
  have same : (bumpPid^[n] (bumpPid s.lastPid)).signExtend 32 = pid := by
    apply BitVec.eq_of_toNat_eq
    rw [sign_extend_val, reached]
    rw [reached]
    exact ⟨lower, upper⟩
  rwa [same] at busy

theorem pid_taken_iff {s : Processes T} {alive : List T} (inv : PidInv s alive) (pid : BitVec 32) :
    pidTaken s pid = true ↔ ∃ t ∈ alive, (s.tasks t).pid = pid := by
  unfold pidTaken
  rw [DList.ring_find inv.ring _ _ (by rw [List.length_map]; exact inv_length inv),
    List.find?_isSome]
  simp

/-! ## Creation -/

/-- A structure that is not live can be written over. -/
theorem inv_copy {s : Processes T} {alive : List T} (inv : PidInv s alive) (current : T) {next : T}
    (fresh : next ∉ alive) : PidInv (copyTask s current next) alive := by
  apply inv_congr inv
  · intro node member
    have other : node ≠ some next := by
      rintro rfl
      exact fresh (by simpa using member)
    simp [copyTask, copyLinks, Processes.modify, DList.listHeadInit, other]
  · rfl
  · intro t member
    have other : t ≠ next := fun same => fresh (same ▸ member)
    simp [copyTask, copyLinks, Processes.modify, other]
  · intro t member
    have other : t ≠ next := fun same => fresh (same ▸ member)
    simp [copyTask, copyLinks, Processes.modify, other]
  · exact inv.last

theorem inv_pid {s : Processes T} {alive : List T} (inv : PidInv s alive) {next : T}
    (fresh : next ∉ alive) (pid : BitVec 32) {last : BitVec 16} (range : PidRange last.toNat) :
    PidInv { s.modify next fun task => { task with pid := pid } with lastPid := last } alive := by
  apply inv_congr inv
  · intro node _
    exact ⟨rfl, rfl⟩
  · rfl
  · intro t _
    exact ⟨rfl, rfl⟩
  · intro t member
    have other : t ≠ next := fun same => fresh (same ▸ member)
    simp [Processes.modify, other]
  · exact range

theorem hash_bound (pid : BitVec 32) : (pidHashFn pid).toNat < pidHashSize := by
  unfold pidHashFn pidHashSize
  rw [BitVec.toNat_and]
  have mask := @Nat.and_le_right ((pid.sshiftRight 8) ^^^ pid).toNat 1023
  exact Nat.lt_succ_of_le mask

theorem inv_set_links {s : Processes T} {alive : List T} (inv : PidInv s alive) {next : T}
    (fresh : next ∉ alive) (unused : ∀ t ∈ alive, (s.tasks t).pid ≠ (s.tasks next).pid)
    (range : PidRange (s.tasks next).pid.toNat) (search : (s.tasks next).hashSearch = true) :
    PidInv (setLinks s next) (alive ++ [next]) := by
  unfold setLinks
  apply inv_max_tasks
  apply inv_same _ (same_link_tree _ next)
  rw [if_neg (Nat.not_le.mpr (hash_bound _))]
  obtain ⟨buckets, table, members⟩ := inv.hashed
  have unhashed : ∀ key, next ∉ buckets key := by
    intro key member
    exact fresh ((members next key).mp member).1
  refine ⟨?_, ?_, ?_, ⟨_, PprevChain.table_add_hash table trivial (fun key _ => unhashed key), ?_⟩,
    ?_, inv.last⟩
  · rw [List.map_append]
    apply DList.ring_list_add_tail inv.ring
    simpa using fresh
  · rw [List.map_append, List.map_singleton]
    apply List.Nodup.append inv.distinct (List.nodup_singleton _)
    intro pid old new
    rw [List.mem_map] at old
    obtain ⟨t, member, rfl⟩ := old
    rw [List.mem_singleton] at new
    exact unused t member new
  · intro t member
    rw [List.mem_append, List.mem_singleton] at member
    rcases member with old | rfl
    · exact inv.range t old
    · exact range
  · intro t key
    dsimp only
    rw [List.mem_append, List.mem_singleton]
    by_cases same : key = pidHashFn (s.tasks next).pid
    · subst same
      rw [Function.update_self, List.mem_cons, members]
      constructor
      · rintro (rfl | ⟨old, hash⟩)
        · exact ⟨.inr rfl, rfl⟩
        · exact ⟨.inl old, hash⟩
      · rintro ⟨old | rfl, hash⟩
        · exact .inr ⟨old, hash⟩
        · exact .inl rfl
    · rw [Function.update_of_ne same, members]
      constructor
      · rintro ⟨old, hash⟩
        exact ⟨.inl old, hash⟩
      · rintro ⟨old | rfl, hash⟩
        · exact ⟨old, hash⟩
        · exact absurd hash.symm same
  · intro t member
    rw [List.mem_append, List.mem_singleton] at member
    rcases member with old | rfl
    · exact inv.search t old
    · exact search

theorem inv_create {maxThreads : Int} {s s' : Processes T} {alive : List T} {current : T}
    {block : Option T} {copied done : Bool} (inv : PidInv s alive)
    (fresh : ∀ next ∈ block, next ∉ alive)
    (created : createTaskName maxThreads s current block copied = (done, s')) :
    PidInv s' (if done then alive ++ block.toList else alive) := by
  unfold createTaskName at created
  split at created
  · cases created
    exact inv
  · split at created
    · cases created
      exact inv
    · next next =>
        have unlisted := fresh next rfl
        have copy := inv_copy inv current unlisted
        have lastRange : PidRange (getPid (copyTask s current next)).2.toNat :=
          scan_last maxPid _ (bump_range copy.last) (bump_range copy.last)
        dsimp only at created
        split at created
        · next last missed =>
            cases created
            rw [missed] at lastRange
            exact inv_pid copy unlisted _ lastRange
        · next pid last found =>
            obtain ⟨rfl, free, range⟩ :=
              scan_found maxPid _ (bump_range copy.last) found
            have named := inv_pid copy unlisted (last.signExtend 32) range
            split at created
            · cases created
              apply inv_set_links named unlisted
              · intro t member same
                have other : t ≠ next := fun eq => unlisted (eq ▸ member)
                have taken : pidTaken (copyTask s current next) (last.signExtend 32) = true := by
                  rw [pid_taken_iff copy]
                  refine ⟨t, member, ?_⟩
                  simpa [Processes.modify, other] using same
                rw [free] at taken
                cases taken
              · simp only [Processes.modify, Function.update_self]
                rw [sign_extend_val range]
                exact range
              · simp [Processes.modify, copyTask]
            · cases created
              exact named

/-! ## Exit -/

theorem inv_remove_links {s : Processes T} {alive : List T} (inv : PidInv s alive) {t : T}
    (member : t ∈ alive) : PidInv (removeLinks s t) (alive.erase t) := by
  unfold removeLinks
  apply inv_max_tasks
  apply inv_same _ (same_unlink_tree _ t)
  have nodup := inv_nodup inv
  have remaining : ∀ u, u ∈ alive.erase t ↔ u ≠ t ∧ u ∈ alive := fun u => nodup.mem_erase_iff
  obtain ⟨buckets, table, members⟩ := inv.hashed
  have hashed : t ∈ buckets (pidHashFn (s.tasks t).pid) := (members t _).mpr ⟨member, rfl⟩
  have once : ∀ key, (buckets key).Nodup := fun key => (table.chain key trivial).nodup
  refine ⟨?_, ?_, ?_, ⟨_, PprevChain.table_del_hash table trivial hashed, ?_⟩, ?_, inv.last⟩
  · exact DList.ring_list_del_erase inv.ring member
  · exact inv.distinct.sublist (List.erase_sublist.map _)
  · intro u inside
    exact inv.range u ((remaining u).mp inside).2
  · intro u key
    dsimp only
    rw [remaining]
    by_cases same : key = pidHashFn (s.tasks t).pid
    · subst same
      rw [Function.update_self, (once _).mem_erase_iff, members, and_assoc]
    · rw [Function.update_of_ne same, members]
      constructor
      · rintro ⟨old, hash⟩
        refine ⟨⟨?_, old⟩, hash⟩
        rintro rfl
        exact same hash.symm
      · rintro ⟨⟨_, old⟩, hash⟩
        exact ⟨old, hash⟩
  · intro u inside
    exact inv.search u ((remaining u).mp inside).2

theorem inv_exit {init : T} {s s' : Processes T} {alive : List T} {task : T} {done : Bool}
    (inv : PidInv s alive) (member : task ∈ alive) (exited : exitTask init s task = (done, s')) :
    PidInv s' (if done then alive.erase task else alive) := by
  unfold exitTask at exited
  split at exited
  · cases exited
    exact inv
  · cases exited
    exact inv_remove_links (inv_same inv (same_leave_children init s task)) member

/-! ## Runs -/

theorem inv_step (init : T) (maxThreads : Int) (before : System T) (event : Event T)
    (after : System T) (inv : PidInv before.procs before.alive)
    (stepped : systemStep init maxThreads before event = some after) :
    PidInv after.procs after.alive := by
  cases event with
  | create current block copied =>
      unfold systemStep at stepped
      dsimp only at stepped
      split at stepped
      · next allowed =>
          have fresh : ∀ next ∈ block, next ∉ before.alive := fun next member =>
            (allowed.2 next member).1
          split at stepped
          · next procs created =>
              cases stepped
              exact inv_create inv fresh created
          · next procs failed =>
              cases stepped
              exact inv_create inv fresh failed
      · cases stepped
  | exit task =>
      unfold systemStep at stepped
      dsimp only at stepped
      split at stepped
      · next member =>
          split at stepped
          · next procs exited =>
              cases stepped
              exact inv_exit inv member exited
          · next procs refused =>
              cases stepped
              exact inv_exit inv member refused
      · cases stepped
  | reap task =>
      unfold systemStep at stepped
      dsimp only at stepped
      split at stepped
      · cases stepped
        exact inv
      · cases stepped

theorem inv_boot (init : T) (tasks : T → TaskStruct T) (links : DList.Links (Option T))
    (chains : PprevChain.Chains (BitVec 32) T) :
    PidInv (boot init tasks links chains).procs (boot init tasks links chains).alive := by
  have one : PidRange 1 := ⟨Nat.le_refl 1, by decide⟩
  show PidInv (setLinks _ init) ([] ++ [init])
  apply inv_set_links
  · refine ⟨?_, List.nodup_nil, by simp, ⟨fun _ => [], ⟨?_, by simp⟩, by simp⟩, by simp, ?_⟩
    · apply DList.ring_congr _ (DList.ring_head_init links none)
      intro node member
      rw [List.mem_singleton.mp member]
      apply DList.head_init_frame
      exact Option.some_ne_none init ∘ Eq.symm
    · intro key _
      exact ⟨trivial, rfl, List.nodup_nil⟩
    · exact one
  · exact List.not_mem_nil
  · intro t member
    cases member
  · simp only [Function.update_self]
    exact one
  · simp only [Function.update_self]
    rfl

theorem run_inv {init : T} {maxThreads : Int} {tasks : T → TaskStruct T}
    {links : DList.Links (Option T)} {chains : PprevChain.Chains (BitVec 32) T} {m : System T}
    (run : Reachability.Reaches (systemStep init maxThreads) (fun _ _ => True)
      (boot init tasks links chains) m) : PidInv m.procs m.alive := by
  have inv : (fun m : System T => PidInv m.procs m.alive) m := by
    apply Reachability.reaches_invariant _ _ run
    · exact inv_boot init tasks links chains
    · intro before event after inv _ stepped
      exact inv_step init maxThreads before event after inv stepped
  exact inv

omit [DecidableEq T] in
theorem lookup_eq {s : Processes T} {alive : List T} (inv : PidInv s alive) (pid : BitVec 32)
    (t : T) : lookupPid s pid = some t ↔ t ∈ alive ∧ (s.tasks t).pid = pid := by
  obtain ⟨buckets, table, members⟩ := inv.hashed
  have chain := table.chain (pidHashFn pid) trivial
  have short : (buckets (pidHashFn pid)).length < walkFuel := by
    apply Nat.lt_of_le_of_lt _ (inv_length inv)
    apply (List.subperm_of_subset chain.nodup _).length_le
    intro u member
    exact ((members u _).mp member).1
  unfold lookupPid
  dsimp only
  rw [if_neg (Nat.not_le.mpr (hash_bound pid)), PprevChain.chain_search chain _ _ short]
  constructor
  · intro found
    have member := (members t _).mp (List.mem_of_find?_eq_some found)
    have test := List.find?_some found
    simp only [Bool.and_eq_true, beq_iff_eq] at test
    exact ⟨member.1, test.2⟩
  · rintro ⟨member, rfl⟩
    have bucket : t ∈ buckets (pidHashFn (s.tasks t).pid) := (members t _).mpr ⟨member, rfl⟩
    have some_found : (List.find? (fun u => (s.tasks u).hashSearch &&
        ((s.tasks u).pid == (s.tasks t).pid)) (buckets (pidHashFn (s.tasks t).pid))).isSome := by
      rw [List.find?_isSome]
      exact ⟨t, bucket, by simp [inv.search t member]⟩
    obtain ⟨u, found⟩ := Option.isSome_iff_exists.mp some_found
    have listed := ((members u _).mp (List.mem_of_find?_eq_some found)).1
    have test := List.find?_some found
    simp only [Bool.and_eq_true, beq_iff_eq] at test
    rw [found, List.inj_on_of_nodup_map inv.distinct listed member test.2]

/-- In every run the tasks on `task_list` have distinct pids in 1..32767, the hash table holds
exactly these tasks, each in the chain of its pid, and `lookup_pid` answers the task on the
list with the pid, or nothing when there is none. -/
theorem pid_table_agrees (init : T) (maxThreads : Int) (tasks : T → TaskStruct T)
    (links : DList.Links (Option T)) (chains : PprevChain.Chains (BitVec 32) T) (m : System T)
    (run : Reachability.Reaches (systemStep init maxThreads) (fun _ _ => True)
      (boot init tasks links chains) m) :
    Ring m.procs.taskList none (m.alive.map some) ∧
    (m.alive.map fun t => (m.procs.tasks t).pid).Nodup ∧
    (∀ t ∈ m.alive, 1 ≤ (m.procs.tasks t).pid.toNat ∧ (m.procs.tasks t).pid.toNat ≤ maxPid) ∧
    (∀ key, ∃ bucket, Chain m.procs.hashTable key bucket ∧
      ∀ t, t ∈ bucket ↔ t ∈ m.alive ∧ pidHashFn (m.procs.tasks t).pid = key) ∧
    (∀ pid t, lookupPid m.procs pid = some t ↔ t ∈ m.alive ∧ (m.procs.tasks t).pid = pid) ∧
    (∀ pid, lookupPid m.procs pid = none ↔ ∀ t ∈ m.alive, (m.procs.tasks t).pid ≠ pid) := by
  have inv := run_inv run
  obtain ⟨buckets, table, members⟩ := inv.hashed
  refine ⟨inv.ring, inv.distinct, inv.range, ?_, lookup_eq inv, ?_⟩
  · intro key
    exact ⟨buckets key, table.chain key trivial, fun t => members t key⟩
  · intro pid
    rw [Option.eq_none_iff_forall_ne_some]
    constructor
    · intro missing t member same
      exact missing t ((lookup_eq inv pid t).mpr ⟨member, same⟩)
    · intro absent t found
      obtain ⟨member, same⟩ := (lookup_eq inv pid t).mp found
      exact absent t member same

/-- Memory for two tasks: `init` and one more. -/
def bootTwo : System (Fin 2) :=
  boot 0 (fun _ => initTask) ⟨fun _ => none, fun _ => none⟩
    ⟨fun _ => none, fun _ => none, fun _ => none⟩

theorem pid_table_agrees_child : ∃ m,
    Reachability.Reaches (systemStep 0 10) (fun _ _ => True) bootTwo m ∧
      lookupPid m.procs 2 = some 1 := by
  have outcome : (([.create 0 (some 1) true] : List (Event (Fin 2))).foldlM (systemStep 0 10)
      bootTwo).map (fun m => (m.alive, (m.procs.tasks 1).pid)) = some ([0, 1], 2) := by
    decide +kernel
  obtain ⟨m, finished, result⟩ := Option.map_eq_some_iff.mp outcome
  rw [Prod.mk.injEq] at result
  have run := Reachability.reaches_events _ (fun _ _ _ => trivial) finished
  refine ⟨m, run, ?_⟩
  apply ((pid_table_agrees 0 10 _ _ _ m run).2.2.2.2.1 2 1).mpr
  rw [result.1]
  exact ⟨by simp, result.2⟩

end MirOs.PidTable
