import MirOs.PathNames
import MirOs.DirectorySearch
import Mathlib.Data.List.Find

/-!
# Vnodes without a directory entry

`vnode_find` makes a vnode for every component that is not cached, with what `vfs_stat` leaves
in one `stat` of its own. `vfs_stat` drops the answer of `namestat`, so a component that is no
entry of its directory gets a vnode as well, with the numbers of the component before it or
with what the stack held. The directory of a component is that of the vnode above it, on the
device of the mountpoint; `namestat` is the function of the file system, `none` for -1.
-/

namespace MirOs.PhantomVnodes

open MirOs.VfsModel hiding vnodeFind findWalk

set_option autoImplicit false

/-- The answer of a file system for a device, a directory and a name; the numbers of a file
are of type `I`. -/
abbrev Namestat (D I : Type*) := D → I → Bool → Name → Option I

variable {A D I : Type*} [DecidableEq A] (namestat : Namestat D I) (slab : Slab A D I)

/-- What the call leaves in `ss`. -/
def vfsStat (cmp : Mountpoint A D) (pnode : Vnode A D I) (file : Name) (ss : I) : I :=
  (namestat cmp.dev pnode.ino pnode.ismounted file).getD ss

/-- The loop of `vnode_find`; `tmpstat` is one variable for all rounds. -/
def findWalk (mp : Mountpoint A D) (s : Vfs A D I) (tmpstat : I) (absPath : Name) (parent : A) :
    List Name → Option (Option A × Vfs A D I)
  | [] => some (some parent, s)
  | component :: rest =>
      if component = [] then findWalk mp s tmpstat absPath parent rest
      else
        let absPath := extendPath absPath component
        match vnodeLookup s absPath with
        | some v => findWalk mp s tmpstat absPath v rest
        | none =>
            match s.memory parent with
            | none => none
            | some pnode =>
                let tmpstat := vfsStat namestat mp pnode component tmpstat
                match vnodeCreate s slab absPath tmpstat (some parent) mp.dev false with
                | none => some (none, s)
                | some (v, s) => findWalk mp s tmpstat absPath v rest

/-- `tmpstat` is not initialised. -/
def vnodeFind (s : Vfs A D I) (tmpstat : I) (filename : Name) :
    Option (Option A × Vfs A D I) :=
  let str := trimFileSeparator filename
  match getMount s str with
  | none => some (none, s)
  | some mp =>
      findWalk namestat slab mp s tmpstat (absPrefix mp.path) mp.v
        (components (str.drop mp.path.length))

/-! ## What a call may do -/

/-- A vnode of this name was added between two states. -/
def Added (s t : Vfs A D I) (name : Name) (w : A) (node : Vnode A D I) : Prop :=
  s.memory w = none ∧ t.memory w = some node ∧ node.absName = name

/-- Along the vnodes of a path: a component that is no entry of its directory makes the answer
null and adds no vnode; a vnode that was added carries the numbers of its entry. -/
def HonestWalk (s t : Vfs A D I) (answer : Option A) (mp : Mountpoint A D) (absPath : Name)
    (parent : A) : List Name → Prop
  | [] => True
  | component :: rest =>
      if component = [] then HonestWalk s t answer mp absPath parent rest
      else
        (∀ dir, t.memory parent = some dir →
          (namestat mp.dev dir.ino dir.ismounted component = none →
            answer = none ∧ ∀ w node, ¬ Added s t (extendPath absPath component) w node) ∧
          ∀ w node, Added s t (extendPath absPath component) w node →
            namestat mp.dev dir.ino dir.ismounted component = some node.ino) ∧
        ∀ v, vnodeLookup t (extendPath absPath component) = some v →
          HonestWalk s t answer mp (extendPath absPath component) v rest

def NoPhantoms (s t : Vfs A D I) (answer : Option A) (filename : Name) : Prop :=
  ∀ mp, getMount s (trimFileSeparator filename) = some mp →
    HonestWalk namestat s t answer mp (absPrefix mp.path) mp.v
      (components ((trimFileSeparator filename).drop mp.path.length))

/-- Below these components a vnode is needed and there is no memory for it. -/
def RunsOut (mp : Mountpoint A D) (s : Vfs A D I) (absPath : Name) (parent : A) :
    List Name → Prop
  | [] => False
  | component :: rest =>
      if component = [] then RunsOut mp s absPath parent rest
      else
        match vnodeLookup s (extendPath absPath component) with
        | some v => RunsOut mp s (extendPath absPath component) v rest
        | none =>
            ∃ dir, s.memory parent = some dir ∧
              ((∀ ino, vnodeCreate s slab (extendPath absPath component) ino (some parent) mp.dev
                false = none) ∨
              ∃ ino v t, namestat mp.dev dir.ino dir.ismounted component = some ino ∧
                vnodeCreate s slab (extendPath absPath component) ino (some parent) mp.dev
                  false = some (v, t) ∧ RunsOut mp t (extendPath absPath component) v rest)

/-- The components are entries of their directories: those that are not cached as far as there
is memory for their vnodes, and the cached ones unless memory runs out behind them. -/
def Present (mp : Mountpoint A D) (s : Vfs A D I) (absPath : Name) (parent : A) :
    List Name → Prop
  | [] => True
  | component :: rest =>
      if component = [] then Present mp s absPath parent rest
      else
        match vnodeLookup s (extendPath absPath component) with
        | some v =>
            (∀ dir, s.memory parent = some dir →
              namestat mp.dev dir.ino dir.ismounted component = none →
                RunsOut namestat slab mp s (extendPath absPath component) v rest) ∧
            Present mp s (extendPath absPath component) v rest
        | none =>
            (∀ ino, vnodeCreate s slab (extendPath absPath component) ino (some parent) mp.dev
              false = none) ∨
            ∃ dir ino v t, s.memory parent = some dir ∧
              namestat mp.dev dir.ino dir.ismounted component = some ino ∧
              vnodeCreate s slab (extendPath absPath component) ino (some parent) mp.dev
                false = some (v, t) ∧ Present mp t (extendPath absPath component) v rest

def PathPresent (s : Vfs A D I) (filename : Name) : Prop :=
  ∀ mp, getMount s (trimFileSeparator filename) = some mp →
    Present namestat slab mp s (absPrefix mp.path) mp.v
      (components ((trimFileSeparator filename).drop mp.path.length))

/-! ## Names along the walk -/

/-- The names of the walk fit `MAX_PATH`, up to the last character. -/
def Fits (absPath : Name) (rest : List Name) : Prop :=
  absPath.length + (rest.map fun component => component.length + 1).sum ≤ maxPath + 1

theorem fits_skip {absPath : Name} {rest : List Name} (fits : Fits absPath ([] :: rest)) :
    Fits absPath rest := by
  unfold Fits at fits ⊢
  rw [List.map_cons, List.sum_cons] at fits
  omega

theorem fits_next {absPath component : Name} {rest : List Name}
    (fits : Fits absPath (component :: rest)) (given : component ≠ []) :
    absPath.length < (extendPath absPath component).length ∧
      Fits (extendPath absPath component) rest := by
  have positive := List.length_pos_of_ne_nil given
  unfold Fits at fits ⊢
  rw [List.map_cons, List.sum_cons] at fits
  unfold extendPath
  simp only [List.length_take, List.length_append, List.length_cons]
  omega

theorem components_sum (path : Name) :
    ((components path).map fun component => component.length + 1).sum = path.length + 1 := by
  induction path with
  | nil => simp [components]
  | cons c rest ih =>
      rw [components_cons, List.length_cons]
      split
      · rw [List.map_cons, List.sum_cons, ih, List.length_nil]
        omega
      · cases split : components rest with
        | nil => exact absurd split (List.splitOn_ne_nil '/' rest)
        | cons first more =>
            rw [split, List.map_cons, List.sum_cons] at ih
            rw [List.modifyHead_cons, List.map_cons, List.sum_cons, List.length_cons]
            omega

omit [DecidableEq A] in
theorem path_fits {s : Vfs A D I} {filename : Name} {mp : Mountpoint A D}
    (selected : getMount s (trimFileSeparator filename) = some mp) :
    Fits (absPrefix mp.path) (components ((trimFileSeparator filename).drop mp.path.length)) := by
  have isPrefix : mp.path <+: trimFileSeparator filename := by
    have holds := List.find?_some selected
    simpa using holds
  have short : (trimFileSeparator filename).length ≤ maxPath := by
    have bound := (trim_rounds_length maxPath filename).1
    unfold trimFileSeparator
    split
    · decide
    · next eq =>
      rw [eq] at bound
      exact bound
  have before : (absPrefix mp.path).length ≤ mp.path.length := by
    unfold absPrefix
    split
    · exact Nat.zero_le _
    · exact Nat.le_refl _
  have long := isPrefix.length_le
  unfold Fits
  rw [components_sum, List.length_drop]
  omega

/-! ## Growth of the cache -/

section Growth

variable {s t : Vfs A D I} {w : A} {node : Vnode A D I}

theorem created_lookup (created : Created s t w node) {name : Name}
    (other : node.absName ≠ name.take maxPath) : vnodeLookup t name = vnodeLookup s name := by
  have same : ∀ x, ((t.memory x).any fun node => node.absName = name.take maxPath) =
      (s.memory x).any fun node => node.absName = name.take maxPath := by
    intro x
    rw [created.memory]
    split
    · next it =>
      rw [it, created.fresh]
      simpa using other
    · cases s.memory x with
      | none => rfl
      | some old =>
          simp only [Option.map_some, Option.any_some]
          split <;> rfl
  have new : ((t.memory w).any fun node => node.absName = name.take maxPath) = false := by
    rw [created.new]
    simpa using other
  unfold vnodeLookup
  rw [created.hashed, List.find?_cons_of_neg (by rw [new]; exact Bool.false_ne_true)]
  exact List.find?_congr fun x _ => same x

theorem created_found (created : Created s t w node) {name : Name}
    (named : node.absName = name.take maxPath) : vnodeLookup t name = some w := by
  unfold vnodeLookup
  rw [created.hashed, List.find?_cons_of_pos]
  rw [created.new]
  simpa using named

/-- What may happen to the cache behind a name of this length. -/
structure Later (s t : Vfs A D I) (bound : Nat) : Prop where
  keeps : ∀ x old, s.memory x = some old → ∃ kept, t.memory x = some kept ∧ kept.core = old.core
  young : ∀ x new, s.memory x = none → t.memory x = some new → bound < new.absName.length
  lookup : ∀ name : Name, name.length ≤ bound → vnodeLookup t name = vnodeLookup s name

omit [DecidableEq A] in
theorem Later.refl (s : Vfs A D I) (bound : Nat) : Later s s bound where
  keeps := fun _ old held => ⟨old, held, rfl⟩
  young := by
    intro x new missing held
    rw [missing] at held
    cases held
  lookup := fun _ _ => rfl

omit [DecidableEq A] in
theorem Later.mono {bound lower : Nat} (later : Later s t bound) (le : lower ≤ bound) :
    Later s t lower where
  keeps := later.keeps
  young := fun x new missing held => Nat.lt_of_le_of_lt le (later.young x new missing held)
  lookup := fun name short => later.lookup name (short.trans le)

theorem Later.head {middle : Vfs A D I} {bound : Nat} (created : Created s middle w node)
    (longer : bound < node.absName.length)
    (later : Later middle t node.absName.length) : Later s t bound where
  keeps := by
    intro x old held
    obtain ⟨-, kept, heldKept, core, -⟩ := created.keeps held
    obtain ⟨last, heldLast, coreLast⟩ := later.keeps x kept heldKept
    exact ⟨last, heldLast, coreLast.trans core⟩
  young := by
    intro x new missing held
    by_cases same : x = w
    · obtain ⟨last, heldLast, core⟩ := later.keeps w node created.new
      rw [same, heldLast] at held
      cases held
      rw [core_name core]
      exact longer
    · have still : middle.memory x = none := by
        rw [created.memory, if_neg same, missing]
        rfl
      exact Nat.lt_trans longer (later.young x new still held)
  lookup := by
    intro name bounded
    rw [later.lookup name (by omega)]
    apply created_lookup created
    intro same
    have length := congrArg List.length same
    rw [List.length_take] at length
    omega

end Growth

/-! ## The walk -/

section Walk

variable {namestat} {slab} {mp : Mountpoint A D} {s t : Vfs A D I} {absPath component : Name}
  {parent : A} {rest : List Name} {tmpstat : I} {answer : Option A}

/-- Memory for a vnode does not depend on what goes into it. -/
theorem create_none_congr {ino other : I} {name : Name} {dev : D}
    (refused : vnodeCreate s slab name ino (some parent) dev false = none) :
    vnodeCreate s slab name other (some parent) dev false = none := by
  unfold vnodeCreate at refused ⊢
  split at refused
  · rfl
  · next v offered =>
    rw [Option.map_eq_none_iff] at refused ⊢
    unfold linkVnode at refused ⊢
    rw [Option.map_eq_none_iff] at refused ⊢
    exact refused

/-- One round of the walk for a component. -/
inductive Round (namestat : Namestat D I) (slab : Slab A D I) (mp : Mountpoint A D)
    (s : Vfs A D I) (tmpstat : I) (absPath component : Name) (parent : A) (pnode : Vnode A D I)
    (rest : List Name) (answer : Option A) (t : Vfs A D I) : Prop
  | cached (v : A) (found : vnodeLookup s (extendPath absPath component) = some v)
      (walked : findWalk namestat slab mp s tmpstat (extendPath absPath component) v rest =
        some (answer, t))
  | refused (missing : vnodeLookup s (extendPath absPath component) = none)
      (refused : ∀ ino, vnodeCreate s slab (extendPath absPath component) ino (some parent)
        mp.dev false = none) (null : answer = none) (same : t = s)
  | added (missing : vnodeLookup s (extendPath absPath component) = none) (v : A)
      (middle : Vfs A D I) (created : vnodeCreate s slab (extendPath absPath component)
        (vfsStat namestat mp pnode component tmpstat) (some parent) mp.dev false =
          some (v, middle))
      (walked : findWalk namestat slab mp middle (vfsStat namestat mp pnode component tmpstat)
        (extendPath absPath component) v rest = some (answer, t))

theorem walk_round {pnode : Vnode A D I} (given : component ≠ [])
    (held : s.memory parent = some pnode)
    (walked : findWalk namestat slab mp s tmpstat absPath parent (component :: rest) =
      some (answer, t)) :
    Round namestat slab mp s tmpstat absPath component parent pnode rest answer t := by
  unfold findWalk at walked
  rw [if_neg given] at walked
  dsimp only at walked
  split at walked
  · next v found => exact .cached v found walked
  · next missing =>
    rw [held] at walked
    dsimp only at walked
    split at walked
    · next refused =>
      cases walked
      exact .refused missing (fun _ => create_none_congr refused) rfl rfl
    · next v middle created => exact .added missing v middle created walked

/-- The name of a vnode that the walk makes. -/
theorem walk_created {v : A} {middle : Vfs A D I} {ino : I}
    (created : vnodeCreate s slab (extendPath absPath component) ino (some parent) mp.dev false =
      some (v, middle)) :
    ∃ node, Created s middle v node ∧ node.absName = extendPath absPath component ∧
      node.ino = ino :=
  ⟨_, create_spec created, extend_path_take absPath component, rfl⟩

theorem walk_later {pnode : Vnode A D I} (fits : Fits absPath rest)
    (held : s.memory parent = some pnode)
    (walked : findWalk namestat slab mp s tmpstat absPath parent rest = some (answer, t)) :
    Later s t absPath.length := by
  induction rest generalizing s tmpstat absPath parent pnode with
  | nil =>
      cases walked
      exact Later.refl _ _
  | cons component rest ih =>
      by_cases given : component = []
      · subst given
        unfold findWalk at walked
        rw [if_pos rfl] at walked
        exact ih (fits_skip fits) held walked
      obtain ⟨longer, next⟩ := fits_next fits given
      cases walk_round given held walked with
      | cached v found walked =>
          obtain ⟨node, heldNext, -⟩ := lookup_name found
          exact (ih next heldNext walked).mono (Nat.le_of_lt longer)
      | refused missing refused null same =>
          rw [same]
          exact Later.refl s _
      | added missing v middle created walked =>
          obtain ⟨node, new, named, -⟩ := walk_created created
          have later := ih next new.new walked
          rw [← named] at longer later
          exact Later.head new longer later

theorem walk_returns {pnode : Vnode A D I} (held : s.memory parent = some pnode) :
    ∃ answer t, findWalk namestat slab mp s tmpstat absPath parent rest = some (answer, t) := by
  induction rest generalizing s tmpstat absPath parent pnode with
  | nil => exact ⟨_, _, rfl⟩
  | cons component rest ih =>
      unfold findWalk
      split
      · exact ih held
      · dsimp only
        split
        · next v found =>
          obtain ⟨node, heldNext, -⟩ := lookup_name found
          exact ih heldNext
        · rw [held]
          dsimp only
          split
          · exact ⟨_, _, rfl⟩
          · next v middle created => exact ih (create_spec created).new

/-- What the walk has to be told about the state before the call. -/
structure Since (s0 s : Vfs A D I) (bound : Nat) : Prop where
  before : ∀ x, s.memory x = none → s0.memory x = none
  young : ∀ x node, s0.memory x = none → s.memory x = some node → node.absName.length ≤ bound

omit [DecidableEq A] in
theorem Since.mono {s0 : Vfs A D I} {bound upper : Nat} (since : Since s0 s bound)
    (le : bound ≤ upper) : Since s0 s upper where
  before := since.before
  young := fun x node missing held => (since.young x node missing held).trans le

theorem Since.snoc {s0 middle : Vfs A D I} {bound : Nat} {v : A} {node : Vnode A D I}
    (since : Since s0 s bound) (created : Created s middle v node)
    (longer : bound ≤ node.absName.length) : Since s0 middle node.absName.length where
  before := by
    intro x missing
    apply since.before
    cases held : s.memory x with
    | none => rfl
    | some old =>
        obtain ⟨-, kept, still, -⟩ := created.keeps held
        rw [still] at missing
        cases missing
  young := by
    intro x new missing held
    rcases created.cases held with ⟨rfl, rfl⟩ | ⟨old, -, heldOld, core, -⟩
    · exact Nat.le_refl _
    · rw [core_name core]
      exact (since.young x old missing heldOld).trans longer

omit [DecidableEq A] in
/-- A vnode that is there when the walk comes to a longer name was not added under it. -/
theorem not_added {s0 : Vfs A D I} {bound : Nat} {name : Name} (since : Since s0 s bound)
    (longer : bound < name.length) (later : Later s t name.length) (w : A) (node : Vnode A D I) :
    ¬ Added s0 t name w node := by
  rintro ⟨missing, held, rfl⟩
  cases there : s.memory w with
  | none => exact Nat.lt_irrefl _ (later.young w node there held)
  | some old =>
      obtain ⟨kept, heldKept, core⟩ := later.keeps w old there
      rw [held] at heldKept
      cases heldKept
      have short := since.young w old missing there
      rw [core_name core] at longer
      omega

/-- Under the name of a component only the vnode of its round is added. -/
theorem added_unique {s0 middle : Vfs A D I} {bound : Nat} {name : Name} {v w : A}
    {node other : Vnode A D I} (since : Since s0 s bound) (new : Created s middle v node)
    (longer : bound < name.length) (later : Later middle t name.length)
    (added : Added s0 t name w other) : w = v := by
  by_contra different
  obtain ⟨missing, held, nameOther⟩ := added
  cases there : middle.memory w with
  | none =>
      have long := later.young w other there held
      rw [nameOther] at long
      exact Nat.lt_irrefl _ long
  | some early =>
      rcases new.cases there with ⟨same, -⟩ | ⟨older, -, heldOlder, core, -⟩
      · exact different same
      · have short := since.young w older missing heldOlder
        obtain ⟨last, heldLast, coreLast⟩ := later.keeps w early there
        rw [held] at heldLast
        cases heldLast
        rw [← core_name core, ← core_name coreLast, nameOther] at short
        omega

/-- What the walk from the state `s` of a call that began in `s0` says of the components from
here on. -/
structure Agrees (namestat : Namestat D I) (slab : Slab A D I) (mp : Mountpoint A D)
    (s0 s t : Vfs A D I) (answer : Option A) (absPath : Name) (parent : A) (rest : List Name) :
    Prop where
  honest : HonestWalk namestat s0 t answer mp absPath parent rest ↔
    Present namestat slab mp s absPath parent rest
  null : Present namestat slab mp s absPath parent rest →
    (answer = none ↔ RunsOut namestat slab mp s absPath parent rest)

section Rounds

variable {s0 middle : Vfs A D I} {v : A} {dir pnode : Vnode A D I}

omit [DecidableEq A] in
/-- The directory of a component is asked the same before and behind the walk. -/
theorem same_directory {bound : Nat} (later : Later s t bound) (held : s.memory parent = some pnode)
    (heldDir : t.memory parent = some dir) :
    namestat mp.dev dir.ino dir.ismounted component =
      namestat mp.dev pnode.ino pnode.ismounted component := by
  obtain ⟨kept, heldKept, core⟩ := later.keeps parent pnode held
  rw [heldDir] at heldKept
  cases heldKept
  have ino : dir.core.ino = pnode.core.ino := congrArg Vnode.ino core
  change dir.ino = pnode.ino at ino
  rw [ino, core_mounted core]

theorem agrees_cached (given : component ≠ []) (held : s.memory parent = some pnode)
    (heldDir : t.memory parent = some dir)
    (same : namestat mp.dev dir.ino dir.ismounted component =
      namestat mp.dev pnode.ino pnode.ismounted component)
    (found : vnodeLookup s (extendPath absPath component) = some v)
    (front : vnodeLookup t (extendPath absPath component) = some v)
    (noneAdded : ∀ w node, ¬ Added s0 t (extendPath absPath component) w node)
    (below : Agrees namestat slab mp s0 s t answer (extendPath absPath component) v rest) :
    Agrees namestat slab mp s0 s t answer absPath parent (component :: rest) := by
  obtain ⟨honest, null⟩ := below
  constructor
  all_goals rw [Present, if_neg given, found]; dsimp only
  · rw [HonestWalk, if_neg given]
    constructor
    · rintro ⟨entry, further⟩
      have present := honest.mp (further v front)
      refine ⟨?_, present⟩
      intro dir' heldDir' missing
      rw [held] at heldDir'
      cases heldDir'
      rw [← same] at missing
      exact (null present).mp ((entry dir heldDir).1 missing).1
    · rintro ⟨entry, present⟩
      constructor
      · intro dir' heldDir'
        rw [heldDir] at heldDir'
        cases heldDir'
        refine ⟨?_, fun w new added => absurd added (noneAdded w new)⟩
        intro missing
        rw [same] at missing
        exact ⟨(null present).mpr (entry pnode held missing), noneAdded⟩
      · intro v' front'
        rw [front] at front'
        cases front'
        exact honest.mpr present
  · rw [RunsOut, if_neg given, found]
    exact fun present => null present.2

theorem agrees_refused (given : component ≠ []) (held : s.memory parent = some pnode)
    (missing : vnodeLookup s (extendPath absPath component) = none)
    (refused : ∀ ino, vnodeCreate s slab (extendPath absPath component) ino (some parent)
      mp.dev false = none)
    (noneAdded : ∀ w node, ¬ Added s0 s (extendPath absPath component) w node) :
    Agrees namestat slab mp s0 s s none absPath parent (component :: rest) := by
  constructor
  all_goals rw [Present, if_neg given, missing]; dsimp only
  · rw [HonestWalk, if_neg given]
    refine iff_of_true ⟨?_, ?_⟩ (Or.inl refused)
    · intro dir' _
      exact ⟨fun _ => ⟨rfl, noneAdded⟩, fun w new added => absurd added (noneAdded w new)⟩
    · intro v' front
      rw [missing] at front
      cases front
  · rw [RunsOut, if_neg given, missing]
    exact fun _ => iff_of_true rfl ⟨pnode, held, Or.inl refused⟩

/-- A vnode was made for a component that is no entry. -/
theorem agrees_phantom {ino : I} {kept : Vnode A D I} (given : component ≠ [])
    (held : s.memory parent = some pnode) (heldDir : t.memory parent = some dir)
    (same : namestat mp.dev dir.ino dir.ismounted component =
      namestat mp.dev pnode.ino pnode.ismounted component)
    (missing : vnodeLookup s (extendPath absPath component) = none)
    (created : vnodeCreate s slab (extendPath absPath component) ino (some parent) mp.dev false =
      some (v, middle))
    (noEntry : namestat mp.dev pnode.ino pnode.ismounted component = none)
    (added : Added s0 t (extendPath absPath component) v kept) :
    Agrees namestat slab mp s0 s t answer absPath parent (component :: rest) := by
  have absent : ¬ Present namestat slab mp s absPath parent (component :: rest) := by
    rw [Present, if_neg given, missing]
    rintro (refused | ⟨dir', ino', v', middle', heldDir', entry', -⟩)
    · rw [refused] at created
      cases created
    · rw [held] at heldDir'
      cases heldDir'
      rw [noEntry] at entry'
      cases entry'
  refine ⟨iff_of_false ?_ absent, fun present => absurd present absent⟩
  rw [HonestWalk, if_neg given]
  rintro ⟨honestEntry, -⟩
  exact ((honestEntry dir heldDir).1 (same.trans noEntry)).2 v kept added

/-- A vnode was made for an entry. -/
theorem agrees_entry {st : I} {kept : Vnode A D I} (given : component ≠ [])
    (held : s.memory parent = some pnode) (heldDir : t.memory parent = some dir)
    (same : namestat mp.dev dir.ino dir.ismounted component =
      namestat mp.dev pnode.ino pnode.ismounted component)
    (missing : vnodeLookup s (extendPath absPath component) = none)
    (created : vnodeCreate s slab (extendPath absPath component) st (some parent) mp.dev false =
      some (v, middle))
    (entry : namestat mp.dev pnode.ino pnode.ismounted component = some st)
    (front : vnodeLookup t (extendPath absPath component) = some v)
    (heldKept : t.memory v = some kept) (numbers : kept.ino = st)
    (unique : ∀ w node, Added s0 t (extendPath absPath component) w node → w = v)
    (below : Agrees namestat slab mp s0 middle t answer (extendPath absPath component) v rest) :
    Agrees namestat slab mp s0 s t answer absPath parent (component :: rest) := by
  obtain ⟨honest, null⟩ := below
  have granted : ¬ ∀ ino, vnodeCreate s slab (extendPath absPath component) ino (some parent)
      mp.dev false = none := by
    intro refused
    rw [refused] at created
    cases created
  -- what `Present` and `RunsOut` may name is what the walk has made
  have only : ∀ dir' ino' v' middle', s.memory parent = some dir' →
      namestat mp.dev dir'.ino dir'.ismounted component = some ino' →
      vnodeCreate s slab (extendPath absPath component) ino' (some parent) mp.dev
        false = some (v', middle') → v' = v ∧ middle' = middle := by
    intro dir' ino' v' middle' heldDir' entry' created'
    rw [held] at heldDir'
    cases heldDir'
    rw [entry] at entry'
    cases entry'
    rw [created] at created'
    cases created'
    exact ⟨rfl, rfl⟩
  constructor
  all_goals rw [Present, if_neg given, missing]; dsimp only
  · rw [HonestWalk, if_neg given]
    constructor
    · rintro ⟨-, further⟩
      exact Or.inr ⟨pnode, st, v, middle, held, entry, created, honest.mp (further v front)⟩
    · rintro (refused | ⟨dir', ino', v', middle', heldDir', entry', created', present⟩)
      · exact absurd refused granted
      obtain ⟨rfl, rfl⟩ := only dir' ino' v' middle' heldDir' entry' created'
      constructor
      · intro dir' heldDir'
        rw [heldDir] at heldDir'
        cases heldDir'
        rw [same, entry]
        refine ⟨fun missing => absurd missing (Option.some_ne_none _), ?_⟩
        intro w other added
        obtain rfl := unique w other added
        have heldOther := added.2.1
        rw [heldKept] at heldOther
        cases heldOther
        rw [numbers]
      · intro v'' front'
        rw [front] at front'
        cases front'
        exact honest.mpr present
  · rw [RunsOut, if_neg given, missing]
    dsimp only
    rintro (refused | ⟨dir', ino', v', middle', heldDir', entry', created', present⟩)
    · exact absurd refused granted
    obtain ⟨rfl, rfl⟩ := only dir' ino' v' middle' heldDir' entry' created'
    rw [null present]
    constructor
    · intro out
      exact ⟨pnode, held, Or.inr ⟨st, v', middle', entry, created, out⟩⟩
    · rintro ⟨dir'', heldDir'', refused | ⟨ino'', v'', middle'', entry'', created'', out⟩⟩
      · exact absurd refused granted
      · obtain ⟨rfl, rfl⟩ := only dir'' ino'' v'' middle'' heldDir'' entry'' created''
        exact out

end Rounds

theorem walk_agrees {s0 : Vfs A D I} {pnode : Vnode A D I} (fits : Fits absPath rest)
    (held : s.memory parent = some pnode) (since : Since s0 s absPath.length)
    (walked : findWalk namestat slab mp s tmpstat absPath parent rest = some (answer, t)) :
    Agrees namestat slab mp s0 s t answer absPath parent rest := by
  induction rest generalizing s tmpstat absPath parent pnode with
  | nil =>
      cases walked
      exact ⟨Iff.rfl, fun _ => iff_of_false (Option.some_ne_none _) id⟩
  | cons component rest ih =>
      by_cases given : component = []
      · subst given
        unfold findWalk at walked
        rw [if_pos rfl] at walked
        obtain ⟨honest, null⟩ := ih (fits_skip fits) held since walked
        constructor
        · rw [HonestWalk, Present, if_pos rfl, if_pos rfl]
          exact honest
        · rw [Present, RunsOut, if_pos rfl, if_pos rfl]
          exact null
      obtain ⟨longer, next⟩ := fits_next fits given
      have whole := walk_later fits held walked
      obtain ⟨dir, heldDir, -⟩ := whole.keeps parent pnode held
      have same := @same_directory _ _ _ namestat mp s t component parent dir pnode _ whole held
        heldDir
      cases walk_round given held walked with
      | cached v found walked =>
          obtain ⟨node, heldNext, -⟩ := lookup_name found
          have later := walk_later next heldNext walked
          have front := (later.lookup _ (Nat.le_refl _)).trans found
          exact agrees_cached given held heldDir same found front (not_added since longer later)
            (ih next heldNext (since.mono (Nat.le_of_lt longer)) walked)
      | refused missing refused null unchanged =>
          subst unchanged null
          exact agrees_refused given held missing refused
            (not_added since longer (Later.refl t _))
      | added missing v middle created walked =>
          obtain ⟨node, new, named, ino⟩ := walk_created created
          have later := walk_later next new.new walked
          have sinceNext := since.snoc new (by rw [named]; exact Nat.le_of_lt longer)
          rw [named] at sinceNext
          have below := ih next new.new sinceNext walked
          obtain ⟨kept, heldKept, core⟩ := later.keeps v node new.new
          have keptName : kept.absName = extendPath absPath component := by
            rw [core_name core, named]
          have added : Added s0 t (extendPath absPath component) v kept :=
            ⟨since.before v new.fresh, heldKept, keptName⟩
          have front : vnodeLookup t (extendPath absPath component) = some v := by
            rw [later.lookup _ (Nat.le_refl _)]
            apply created_found new
            rw [named, extend_path_take]
          cases entry : namestat mp.dev pnode.ino pnode.ismounted component with
          | none => exact agrees_phantom given held heldDir same missing created entry added
          | some st =>
              have stat : vfsStat namestat mp pnode component tmpstat = st := by
                unfold vfsStat
                rw [entry]
                rfl
              rw [stat] at created ino
              have inoKept : kept.core.ino = node.core.ino := congrArg Vnode.ino core
              change kept.ino = node.ino at inoKept
              exact agrees_entry given held heldDir same missing created entry front heldKept
                (inoKept.trans ino) (fun w other again => added_unique since new longer later again)
                below

end Walk

/-- Every mountpoint has a vnode. -/
def MountsAlive (s : Vfs A D I) : Prop := ∀ mp ∈ s.mounts, (s.memory mp.v).isSome

/-- `vnode_find` makes no phantoms exactly if the components that it looks for are entries of
their directories. -/
theorem no_phantoms_iff {s : Vfs A D I} (alive : MountsAlive s) (tmpstat : I) (filename : Name) :
    ∃ answer t, vnodeFind namestat slab s tmpstat filename = some (answer, t) ∧
      (NoPhantoms namestat s t answer filename ↔ PathPresent namestat slab s filename) := by
  unfold vnodeFind NoPhantoms PathPresent
  dsimp only
  cases selected : getMount s (trimFileSeparator filename) with
  | none =>
      refine ⟨none, s, rfl, iff_of_true ?_ ?_⟩
      · intro mp other
        cases other
      · intro mp other
        cases other
  | some mp =>
      have member : mp ∈ s.mounts := List.mem_of_find?_eq_some selected
      obtain ⟨pnode, held⟩ := Option.isSome_iff_exists.mp (alive mp member)
      obtain ⟨answer, t, walked⟩ := @walk_returns A D I _ namestat slab mp s (absPrefix mp.path)
        mp.v (components ((trimFileSeparator filename).drop mp.path.length)) tmpstat pnode held
      have since : Since s s (absPrefix mp.path).length := by
        refine ⟨fun _ missing => missing, ?_⟩
        intro x node missing there
        rw [missing] at there
        cases there
      have honest := (walk_agrees (path_fits selected) held since walked).honest
      refine ⟨answer, t, walked, ?_⟩
      constructor
      · intro all other same
        cases same
        exact honest.mp (all mp rfl)
      · intro present other same
        cases same
        exact honest.mpr (present mp rfl)

/-! ## The floppy -/

open MirOs.BufferCache (CInt)
open MirOs.BlockData (Disks)
open MirOs.FatTable (FatMemory bootMemory)
open MirOs.DirectorySearch (vfatNamestat fullSectors)

structure Stat where
  ino : CInt
  size : Nat
  deriving DecidableEq

/-- `vfat_namestat` as long as it ends within so many sectors. -/
def fatNamestat (disks : Disks) (fat : FatMemory) (rounds : Nat) : Namestat CInt Stat :=
  fun dev dir inroot name =>
    let bytes := name.map fun c => UInt8.ofNat c.toNat
    ((vfatNamestat disks fat (fun _ => 0) ⟨some dev, dir.ino, inroot⟩ bytes dev rounds).bind
      Prod.fst).map fun entry => ⟨BitVec.ofNat 32 entry.cluster, entry.size⟩

/-- Only the root, whose directory begins at sector 20, has a vnode. -/
def rootOnly : Vfs Nat CInt Stat where
  memory v := if v = 0 then some ⟨rootName, 0, ⟨20, 0⟩, true, none, []⟩ else none
  hashed := [0]
  mounts := [⟨rootName, 0, 0⟩]

/-- The next free address. -/
def oneMore : Slab Nat CInt Stat := fun _ => some 1

theorem no_phantoms_root_only : ∃ answer t,
    vnodeFind (fatNamestat fullSectors bootMemory 1) oneMore rootOnly ⟨7, 7⟩ ['/', 'a'] =
      some (answer, t) ∧
    NoPhantoms (fatNamestat fullSectors bootMemory 1) rootOnly t answer ['/', 'a'] := by
  have alive : MountsAlive rootOnly := by
    intro mp member
    rw [List.mem_singleton.mp member]
    rfl
  obtain ⟨answer, t, done, honest⟩ := @no_phantoms_iff _ _ _ _
    (fatNamestat fullSectors bootMemory 1) oneMore _ alive ⟨7, 7⟩ ['/', 'a']
  refine ⟨answer, t, done, honest.mpr ?_⟩
  intro mp selected
  have root : mp = ⟨rootName, 0, 0⟩ :=
    List.mem_singleton.mp (List.mem_of_find?_eq_some selected)
  have rest : components ((trimFileSeparator ['/', 'a']).drop mp.path.length) = [['a']] := by
    rw [root]
    decide +kernel
  have missing : vnodeLookup rootOnly (extendPath (absPrefix mp.path) ['a']) = none := by
    rw [root]
    decide +kernel
  have entry : fatNamestat fullSectors bootMemory 1 mp.dev ⟨20, 0⟩ true ['a'] =
      some ⟨0, 0⟩ := by
    rw [root]
    decide +kernel
  rw [rest, Present, if_neg (List.cons_ne_nil _ _), missing]
  rw [root] at entry ⊢
  exact Or.inr ⟨_, _, 1, _, rfl, entry, rfl, trivial⟩

/-- The root has no entry, and the file gets a vnode with what was on the stack. -/
theorem phantom_made :
    fatNamestat (fun _ _ => List.replicate 512 0) bootMemory 1 0 ⟨20, 0⟩ true ['a'] = none ∧
      (vnodeFind (fatNamestat (fun _ _ => List.replicate 512 0) bootMemory 1) oneMore rootOnly
        ⟨7, 7⟩ ['/', 'a']).map (fun found =>
          (found.1, (found.2.memory 1).map fun node => (node.absName, node.ino))) =
        some (some 1, some (['/', 'a'], ⟨7, 7⟩)) := by
  constructor
  · decide +kernel
  · decide +kernel

end MirOs.PhantomVnodes
