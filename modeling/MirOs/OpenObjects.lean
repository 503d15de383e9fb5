import MirOs.OpenCalls
import Mathlib.Data.Finset.Card

/-!
# Objects of open files

An open takes an object of the file cache and a buffer for the name, and the table may be
replaced by a larger one. A close gives back the file object, the end of the task also the
table, and neither the name. What the counters of the caches keep is the buffers of the names.
-/

namespace MirOs.OpenObjects

open MirOs.FileTable MirOs.DescriptorTable MirOs.OpenCalls
open MirOs.VfsModel hiding vfsOpen

set_option autoImplicit false

/-- One object of a cache. -/
def single (c : Cache) : Counters := fun d => if d = c then 1 else 0

theorem inc_apply (n : Counters) (c d : Cache) : n.inc c d = n d + single c d := by
  unfold Counters.inc single
  by_cases same : d = c
  · rw [same, Function.update_self, if_pos rfl]
  · rw [Function.update_of_ne same, if_neg same, Int.add_zero]

theorem dec_apply (n : Counters) (c d : Cache) : n.dec c d = n d - single c d := by
  unfold Counters.dec single
  by_cases same : d = c
  · rw [same, Function.update_self, if_pos rfl]
  · rw [Function.update_of_ne same, if_neg same, Int.sub_zero]

section Table

variable {F : Type*} {f g : FilesStruct F} {a : Allocation F} {fd : Nat}

/-- The arrays that a table of this size keeps in the caches. -/
def arrays (fdSize : Nat) : Counters := fun c =>
  if fdSize = 32 then 0 else single (tableCache fdSize) c + single (mapCache fdSize) c

def storage (f : FilesStruct F) : Counters := arrays f.fdSize

/-- The file objects of the table. -/
def fileObjects (f : FilesStruct F) : Counters := fun c => (opened f).card * single .file c

theorem grow_fds_used (inv : TableInv f) (n : Counters) (done : growFds f a = some g) (c : Cache) :
    growFdsUsed f a n c = n c - storage f c + storage g c := by
  have first := inv.first
  have fits := inv.fits
  obtain ⟨room, shape⟩ := grow_effect done
  have size : g.fdSize = f.fdSize + 32 := by rw [shape]
  have larger : ¬ f.fdSize + 32 = 32 := by omega
  have limit : ¬ maxOpenFds < f.fdSize + 32 := Nat.not_lt.mpr room
  unfold growFds at done
  rw [if_neg limit] at done
  split at done
  · next table =>
    obtain ⟨h, map, -⟩ := Option.map_eq_some_iff.mp done
    unfold growFdsUsed
    rw [if_neg limit, if_pos table, map]
    unfold storage arrays growFileMapUsed
    dsimp only
    rw [size, if_neg larger]
    split
    · simp only [inc_apply]
      omega
    · simp only [inc_apply, dec_apply]
      omega
  · cases done

theorem get_free_fd_used (inv : TableInv f) (n : Counters)
    (took : getFreeFd f a = (some fd, g)) (c : Cache) :
    getFreeFdUsed f a n c = n c - storage f c + storage g c := by
  unfold getFreeFd at took
  unfold getFreeFdUsed
  dsimp only at took
  split at took
  · next outside =>
    split at took
    · cases took
    · next limit =>
      split at took
      · next edge =>
        rw [if_pos ⟨outside, Nat.lt_of_not_le limit, edge⟩]
        split at took
        · cases took
        · next h done =>
          cases took
          exact grow_fds_used inv n done c
      · next edge =>
        cases took
        rw [if_neg fun all => edge all.2.2]
        exact (Int.sub_add_cancel _ _).symm
  · next inside =>
    cases took
    rw [if_neg fun all => inside all.1]
    exact (Int.sub_add_cancel _ _).symm

theorem get_file_used (inv : TableInv f) (n : Counters) {file : F}
    (granted : a.file = some file) (got : getFile f a = (some fd, install g fd file)) (c : Cache) :
    getFileUsed f a n c = n c - storage f c + storage (install g fd file) c + single .file c := by
  have took := get_free_fd_took inv a
  unfold getFile at got
  unfold getFileUsed
  generalize chosen : getFreeFd f a = result at took got
  cases took with
  | failed unavailable => cases got
  | took available fd' g' given =>
      dsimp only at got ⊢
      rw [given.drop, granted] at got
      rw [given.vacant, granted]
      have size : (install g fd file).fdSize = g'.fdSize := by
        rw [← (Prod.mk.inj got).2]
      have same : storage (install g fd file) c = storage g' c := by
        unfold storage
        rw [size]
      have used := get_free_fd_used inv n chosen c
      simp only [Option.join_some, Option.isSome_none, Option.isSome_some, Bool.false_eq_true,
        if_false, if_true]
      rw [inc_apply, used, same]

/-- The end of a task gives back the files and the arrays of its table. -/
theorem release_files_struct_used (f : FilesStruct F) (n : Counters) (c : Cache) :
    releaseFilesStructUsed f n c = n c - fileObjects f c - storage f c := by
  have files : ∀ last,
      ((List.range last).foldl (fun n fd =>
        if (f.fileP[fd]?).join.isSome then n.dec .file else n) n : Counters) c =
      n c - ((Finset.range last).filter fun fd => (f.fileP[fd]?).join.isSome).card *
        single .file c := by
    intro last
    induction last with
    | zero => simp
    | succ last ih =>
        rw [List.range_succ, List.foldl_append, List.foldl_cons, List.foldl_nil,
          Finset.range_add_one, Finset.filter_insert]
        split
        · rw [dec_apply, ih, Finset.card_insert_of_notMem (by simp)]
          push_cast
          rw [Int.add_mul]
          omega
        · exact ih
  unfold releaseFilesStructUsed
  have all := files f.freeFd
  unfold storage arrays
  split
  · rw [all, Int.sub_zero]
    rfl
  · rw [dec_apply, dec_apply, all]
    unfold fileObjects opened
    omega

end Table

/-! ## Runs of opens and closes -/

variable {A D I F P : Type*} [DecidableEq A] [DecidableEq F] [DecidableEq P]

/-- Successful opens one after the other, none of which makes a vnode, with the descriptors
that they answer. -/
inductive OpensCached (discs : Discs D I) (pid : P) : Kernel A D I F P →
    List (OpenCall A D I F) → List Nat → Kernel A D I F P → Prop
  | done (k : Kernel A D I F P) : OpensCached discs pid k [] [] k
  | next {k middle after : Kernel A D I F P} {call : OpenCall A D I F} {fd : Nat}
      {calls : List (OpenCall A D I F)} {fds : List Nat}
      (first : vfsOpen discs k pid call = some (some fd, middle)) (cached : middle.vfs = k.vfs)
      (rest : OpensCached discs pid middle calls fds after) :
      OpensCached discs pid k (call :: calls) (fd :: fds) after

def closeAll (pid : P) : Kernel A D I F P → List Nat → Option (Kernel A D I F P)
  | k, [] => some k
  | k, fd :: fds => (vfsClose k pid fd).bind fun closed => closeAll pid closed.2 fds

/-- The objects in use; a vnode is in use while it is in the chains. -/
def active (k : Kernel A D I F P) : Counters
  | .vnode => k.vfs.hashed.length
  | c => k.nrUsed c

/-- What a run of opens leaves: the descriptors, and names that nothing refers to but them. -/
structure Holding (pid : P) (k : Kernel A D I F P) (t : Process F) (fds : List Nat)
    (names : List Nat) (after : Kernel A D I F P) (files : FilesStruct F) : Prop where
  here : after.tasks pid = some { t with files := files }
  tables : TablesInv after
  vfs : after.vfs = k.vfs
  nodup : fds.Nodup
  fresh : ∀ fd ∈ fds, fd ∉ opened t.files
  opened_eq : opened files = opened t.files ∪ fds.toFinset
  named : names.length = fds.length
  counters : ∀ c, after.nrUsed c - storage files c = k.nrUsed c - storage t.files c +
    fds.length * single .file c + (names.map sizeCache).count c

section Runs

variable {discs : Discs D I} {pid : P} {k after : Kernel A D I F P} {t : Process F}

theorem open_holding {call : OpenCall A D I F} {fd : Nat} (tables : TablesInv k)
    (here : k.tasks pid = some t) (done : vfsOpen discs k pid call = some (some fd, after))
    (cached : after.vfs = k.vfs) : ∃ name files, Holding pid k t [fd] [name] after files := by
  have inv := tables pid t here
  have kept := open_tables tables done
  unfold vfsOpen at done
  rw [here] at done
  dsimp only at done
  split at done
  · cases done
  · cases done
  · next output s found =>
    have ended := @open_output_ended A D I F P _ _ _ discs { k with vfs := s } pid t
      call.answers output inv
    rw [done] at ended
    cases ended with
    | opened available file granted named fd g given got s' =>
      refine ⟨output.length + 1, install g fd file, ?_⟩
      have used := get_file_used inv k.nrUsed granted got
      exact
        { here := Function.update_self _ _ _
          tables := kept
          vfs := cached
          nodup := List.nodup_singleton fd
          fresh := by
            intro other member
            rw [List.mem_singleton.mp member]
            exact given_unopened inv given
          opened_eq := by
            rw [install_opened inv given, Finset.insert_eq, Finset.union_comm]
            rfl
          named := rfl
          counters := by
            intro c
            have file_used := used c
            have count : ([sizeCache (output.length + 1)].count c : Int) =
                single (sizeCache (output.length + 1)) c := by
              unfold single
              rw [List.count_singleton]
              by_cases same : c = sizeCache (output.length + 1)
              · simp [same]
              · simp [same, Ne.symm same]
            change (getFileUsed t.files call.answers.file k.nrUsed).inc
              (sizeCache (output.length + 1)) c - storage (install g fd file) c = _
            rw [inc_apply, List.map_singleton, count, file_used]
            simp only [List.length_singleton]
            omega }

omit [DecidableEq A] [DecidableEq F] [DecidableEq P] in
theorem Holding.trans {middle after : Kernel A D I F P} {files last : FilesStruct F}
    {fds more names others : List Nat} (first : Holding pid k t fds names middle files)
    (rest : Holding pid middle { t with files := files } more others after last) :
    Holding pid k t (fds ++ more) (names ++ others) after last where
  here := rest.here
  tables := rest.tables
  vfs := rest.vfs.trans first.vfs
  nodup := by
    apply List.nodup_append.mpr
    refine ⟨first.nodup, rest.nodup, ?_⟩
    rintro fd before _ member rfl
    have fresh := rest.fresh fd member
    dsimp only at fresh
    rw [first.opened_eq, Finset.mem_union, not_or, List.mem_toFinset] at fresh
    exact fresh.2 before
  fresh := by
    intro fd member
    rcases List.mem_append.mp member with before | later
    · exact first.fresh fd before
    · have fresh := rest.fresh fd later
      dsimp only at fresh
      rw [first.opened_eq, Finset.mem_union, not_or] at fresh
      exact fresh.1
  opened_eq := by
    rw [rest.opened_eq, List.toFinset_append, ← Finset.union_assoc]
    dsimp only
    rw [first.opened_eq]
  named := by
    rw [List.length_append, List.length_append, first.named, rest.named]
  counters := by
    intro c
    have before := first.counters c
    have later := rest.counters c
    dsimp only at later
    rw [later, before, List.length_append, List.map_append, List.count_append]
    push_cast
    rw [Int.add_mul]
    omega

theorem opens_holding {calls : List (OpenCall A D I F)} {fds : List Nat} (tables : TablesInv k)
    (here : k.tasks pid = some t) (opens : OpensCached discs pid k calls fds after) :
    ∃ names files, names.length = calls.length ∧ Holding pid k t fds names after files := by
  induction opens generalizing t with
  | done k =>
      refine ⟨[], t.files, rfl, ?_⟩
      exact
        { here := here
          tables := tables
          vfs := rfl
          nodup := List.nodup_nil
          fresh := by simp
          opened_eq := by simp
          named := rfl
          counters := by simp }
  | next first cached rest ih =>
      obtain ⟨name, files, one⟩ := open_holding tables here first cached
      obtain ⟨names, last, length, more⟩ := ih one.tables one.here
      refine ⟨name :: names, last, by rw [List.length_cons, List.length_cons, length], ?_⟩
      exact one.trans more

omit [DecidableEq A] in
/-- Open descriptors are all closed, and give their file objects back. -/
theorem closes_effect {closes : List Nat} (tables : TablesInv k) (here : k.tasks pid = some t)
    (nodup : closes.Nodup) (all : ∀ fd ∈ closes, fd ∈ opened t.files) :
    ∃ after files, closeAll pid k closes = some after ∧
      after.tasks pid = some { t with files := files } ∧ after.vfs = k.vfs ∧
      storage files = storage t.files ∧
      ∀ c, after.nrUsed c = k.nrUsed c - closes.length * single .file c := by
  induction closes generalizing k t with
  | nil => exact ⟨k, t.files, rfl, here, rfl, rfl, by simp⟩
  | cons fd closes ih =>
      have inv := tables pid t here
      have member := all fd List.mem_cons_self
      have cases := release_cases inv fd
      have table := release_table inv fd
      generalize released : releaseFile t.files fd = result at cases table
      cases cases with
      | refused closed => exact absurd rfl (closed fd member)
      | vacated i same file there =>
          have it : i = fd := by omega
          subst it
          have closed : vfsClose k pid i = some (true,
              k.commit pid t (vacate t.files i file) (k.nrUsed.dec .file)) := by
            unfold vfsClose releaseFileUsed
            rw [here, Option.map_some, released]
            rfl
          have kept : TablesInv (k.commit pid t (vacate t.files i file) (k.nrUsed.dec .file)) :=
            @tables_update _ _ _ _ _ _ k pid ⟨t.cwd, _⟩ _ tables table rfl
          have others : ∀ fd ∈ closes, fd ∈ opened (vacate t.files i file) := by
            intro fd later
            rw [vacate_opened inv there, Finset.mem_erase]
            refine ⟨?_, all fd (List.mem_cons_of_mem _ later)⟩
            rintro rfl
            exact (List.nodup_cons.mp nodup).1 later
          obtain ⟨after, files, done, task, vfs, arrays, counters⟩ :=
            @ih _ ⟨t.cwd, vacate t.files i file⟩ kept (Function.update_self _ _ _)
              (List.nodup_cons.mp nodup).2 others
          refine ⟨after, files, ?_, task, vfs, arrays, ?_⟩
          · unfold closeAll
            rw [closed]
            exact done
          · intro c
            have count := counters c
            change after.nrUsed c = k.nrUsed.dec .file c - _ at count
            rw [count, dec_apply, List.length_cons]
            push_cast
            rw [Int.add_mul]
            omega

omit [DecidableEq A] [DecidableEq F] in
theorem exit_effect (here : k.tasks pid = some t) :
    ∃ last, exitTask k pid = some last ∧ last.vfs = k.vfs ∧
      ∀ c, last.nrUsed c = k.nrUsed c - fileObjects t.files c - storage t.files c := by
  unfold exitTask
  rw [here]
  exact ⟨_, rfl, rfl, release_files_struct_used t.files k.nrUsed⟩

/-- After the closes every cache counts as before the opens, the arrays of the table aside. -/
def ClosesReturn (pid : P) (k : Kernel A D I F P) (t : Process F) (after : Kernel A D I F P)
    (closes : List Nat) : Prop :=
  ∃ last files, closeAll pid after closes = some last ∧
    last.tasks pid = some { t with files := files } ∧
    ∀ c, active last c - storage files c = active k c - storage t.files c

/-- After the end of the task every cache counts as before the opens, less what the table had
then. -/
def ExitReturns (pid : P) (k : Kernel A D I F P) (t : Process F) (after : Kernel A D I F P) :
    Prop :=
  ∃ last, exitTask after pid = some last ∧
    ∀ c, active last c = active k c - storage t.files c - fileObjects t.files c

omit [DecidableEq A] [DecidableEq F] [DecidableEq P] in
theorem active_add {last : Kernel A D I F P} {change : Counters} (vfs : last.vfs = k.vfs)
    (counters : ∀ c, last.nrUsed c = k.nrUsed c + change c) (none_ : change .vnode = 0) (c : Cache) :
    active last c = active k c + change c := by
  cases c with
  | vnode =>
      unfold active
      rw [vfs, none_, Int.add_zero]
  | file => exact counters .file
  | size index => exact counters (.size index)

theorem count_names_zero_iff {names : List Nat} :
    (∀ c, ((names.map sizeCache).count c : Int) = 0) ↔ names = [] := by
  constructor
  · intro zero
    cases names with
    | nil => rfl
    | cons name names =>
        have count := zero (sizeCache name)
        rw [List.map_cons, List.count_cons_self] at count
        omega
  · rintro rfl c
    rfl

omit [DecidableEq F] in
theorem size_caches_only (names : List Nat) (files : FilesStruct F) :
    (names.map sizeCache).count .vnode = 0 ∧ storage files .vnode = 0 ∧
      single .file .vnode = 0 := by
  refine ⟨?_, ?_, rfl⟩
  · apply List.count_eq_zero.mpr
    intro member
    obtain ⟨name, -, same⟩ := List.mem_map.mp member
    cases same
  · unfold storage arrays
    split
    · rfl
    · rfl

omit [DecidableEq A] [DecidableEq F] [DecidableEq P] in
theorem Holding.file_objects {fds names : List Nat} {files : FilesStruct F}
    (holding : Holding pid k t fds names after files) (c : Cache) :
    fileObjects files c = fileObjects t.files c + fds.length * single .file c := by
  have disjoint : Disjoint (opened t.files) fds.toFinset := by
    rw [Finset.disjoint_right]
    intro fd member
    exact holding.fresh fd (List.mem_toFinset.mp member)
  unfold fileObjects
  rw [holding.opened_eq, Finset.card_union_of_disjoint disjoint,
    List.toFinset_card_of_nodup holding.nodup]
  push_cast
  rw [Int.add_mul]

omit [DecidableEq A] in
/-- The closes leave the names, and the table as large as the opens made it. -/
theorem Holding.closes_active {fds names closes : List Nat} {files : FilesStruct F}
    (holding : Holding pid k t fds names after files) (order : closes.Perm fds) :
    ∃ last closed, closeAll pid after closes = some last ∧
      last.tasks pid = some { t with files := closed } ∧
      ∀ c, active last c = active k c +
        (storage closed c - storage t.files c + (names.map sizeCache).count c) := by
  have member : ∀ fd ∈ closes, fd ∈ opened files := by
    intro fd member
    rw [holding.opened_eq, Finset.mem_union, List.mem_toFinset]
    exact Or.inr (order.mem_iff.mp member)
  obtain ⟨last, closed, done, task, vfs, arrays, counters⟩ :=
    closes_effect holding.tables holding.here (order.nodup_iff.mpr holding.nodup) member
  dsimp only at arrays task
  refine ⟨last, closed, done, task, ?_⟩
  apply active_add (vfs.trans holding.vfs)
  · intro c
    have opened_count := holding.counters c
    rw [counters c, order.length_eq, arrays]
    omega
  · obtain ⟨count, -, -⟩ := size_caches_only names closed
    rw [(size_caches_only names closed).2.1, (size_caches_only names t.files).2.1, count]
    rfl

omit [DecidableEq A] [DecidableEq F] in
/-- The end of the task leaves the names. -/
theorem Holding.exit_active {fds names : List Nat} {files : FilesStruct F}
    (holding : Holding pid k t fds names after files) :
    ∃ last, exitTask after pid = some last ∧
      ∀ c, active last c = active k c +
        ((names.map sizeCache).count c - storage t.files c - fileObjects t.files c) := by
  obtain ⟨last, done, vfs, counters⟩ := exit_effect holding.here
  refine ⟨last, done, ?_⟩
  apply active_add (vfs.trans holding.vfs)
  · intro c
    have opened_count := holding.counters c
    have released := counters c
    dsimp only at released
    rw [holding.file_objects c] at released
    omega
  · obtain ⟨count, array, single_⟩ := size_caches_only names t.files
    unfold fileObjects
    rw [count, array, single_]
    simp

/-- Of what successful opens of cached paths take, the closes in any order and the end of the
task give back all exactly if there was no open: every name stays. -/
theorem objects_return_iff {calls : List (OpenCall A D I F)} {fds : List Nat}
    (running : Running discs k) (here : k.tasks pid = some t)
    (opens : OpensCached discs pid k calls fds after) :
    (∀ closes, closes.Perm fds → (ClosesReturn pid k t after closes ↔ calls = [])) ∧
      (ExitReturns pid k t after ↔ calls = []) := by
  have tables := running_tables running
  obtain ⟨names, files, length, holding⟩ := opens_holding tables here opens
  have none_ : names = [] ↔ calls = [] := by
    rw [← List.length_eq_zero_iff, length, List.length_eq_zero_iff]
  rw [← none_, ← count_names_zero_iff]
  constructor
  · intro closes order
    obtain ⟨last, closed, done, task, total⟩ := holding.closes_active order
    constructor
    · rintro ⟨last', files', done', task', return_⟩ c
      rw [done] at done'
      cases done'
      rw [task] at task'
      cases task'
      have count := return_ c
      rw [total c] at count
      omega
    · intro zero
      refine ⟨last, closed, done, task, ?_⟩
      intro c
      rw [total c, zero c]
      omega
  · obtain ⟨last, done, total⟩ := holding.exit_active
    constructor
    · rintro ⟨last', done', return_⟩ c
      rw [done] at done'
      cases done'
      have count := return_ c
      rw [total c] at count
      omega
    · intro zero
      refine ⟨last, done, ?_⟩
      intro c
      rw [total c, zero c]
      omega

end Runs

/-! ## One open -/

theorem one_file_opened : ∃ after, vfsOpen oneFile oneFileBoot () (openOneFile true) =
    some (some 3, after) ∧ after.vfs = oneFileBoot.vfs := by
  have opened : (vfsOpen oneFile oneFileBoot () (openOneFile true)).map
      (fun result => (result.1, result.2.vfs)) = some (some 3, oneFileVfs) := by rfl
  obtain ⟨⟨answer, after⟩, done, same⟩ := Option.map_eq_some_iff.mp opened
  obtain ⟨rfl, vfs⟩ := Prod.mk.inj same
  exact ⟨after, done, vfs⟩

/-- One open and one close leave a name behind. -/
theorem objects_return_one_file : ∃ after,
    OpensCached oneFile () oneFileBoot [openOneFile true] [3] after ∧
      ¬ ClosesReturn () oneFileBoot ⟨rootName, initFilesStruct⟩ after [3] ∧
      ¬ ExitReturns () oneFileBoot ⟨rootName, initFilesStruct⟩ after := by
  obtain ⟨after, done, cached⟩ := one_file_opened
  have opens : OpensCached oneFile () oneFileBoot [openOneFile true] [3] after :=
    .next done cached (.done after)
  have running : Running oneFile oneFileBoot := ⟨oneFileVfs, fun _ => 0, (), .refl⟩
  obtain ⟨closes, exit⟩ := @objects_return_iff Nat Unit Unit Nat Unit _ _ _ oneFile () oneFileBoot
    after ⟨rootName, initFilesStruct⟩ _ _ running rfl opens
  refine ⟨after, opens, ?_, ?_⟩
  · intro return_
    exact absurd ((closes [3] (List.Perm.refl _)).mp return_) (List.cons_ne_nil _ _)
  · intro return_
    exact absurd (exit.mp return_) (List.cons_ne_nil _ _)

/-- The cache of 32 bytes keeps an object that no descriptor refers to. -/
theorem closed_file_keeps_name :
    ((vfsOpen oneFile oneFileBoot () (openOneFile true)).bind fun opened =>
      (vfsClose opened.2 () 3).map fun closed =>
        (opened.1, closed.1, active closed.2 (sizeCache 1), active closed.2 .file)) =
      some (some 3, true, 1, 0) ∧ active oneFileBoot (sizeCache 1) = 0 := by
  constructor
  · rfl
  · rfl

end MirOs.OpenObjects
