import Mathlib.Data.List.Infix
import Mathlib.Logic.Function.Basic

/-!
# The virtual file system

A model of `fs/vfs.c`, of `parse_path` and `cd` in `fat_commands.c` and of the part of
`vfat_lookup_dentry` that reaches back into the vnodes. The vnodes live in a partial
memory; a function that follows a pointer to a vnode that was freed, or that gets
no memory, has no result. The mount table and the hash chains are lists with the
newest entry first, and a child list is a list. What the discs hold is a parameter.
-/

namespace MirOs.VfsModel

set_option autoImplicit false

abbrev Name := List Char

def maxPath : Nat := 255

/-- `FILE_SEPARATOR_STR`. -/
def rootName : Name := ['/']

/-- The rounds of `trim_file_separator`; a run of separators takes one round. -/
def trimRounds : Nat → Name → Name
  | 0, _ => []
  | _ + 1, [] => []
  | max + 1, c :: input =>
      if c = '/' then
        match input.dropWhile (· = '/') with
        | [] => []
        | d :: rest => '/' :: trimRounds max (d :: rest)
      else c :: trimRounds max input

def trimFileSeparator (input : Name) : Name :=
  match trimRounds maxPath input with
  | [] => rootName
  | c :: output => c :: output

/-- The pieces that the loops cut off with `strchr`, the empty ones included. -/
def components (path : Name) : List Name := path.splitOn '/'

def isSpace (c : Char) : Bool := c = ' ' || ('\t' ≤ c && c ≤ '\r')

structure Vnode (A D I : Type*) where
  absName : Name
  dev : D
  ino : I
  ismounted : Bool
  parent : Option A
  children : List A

structure Mountpoint (A D : Type*) where
  path : Name
  dev : D
  v : A
deriving DecidableEq

/-- What the discs and the tables of devices and file systems answer: the root inode
that `read_superblock` finds, the inode that `namestat` leaves for a name, and
whether the entry that `lookup_dentry` finds is a directory. -/
structure Discs (D I : Type*) where
  getFs : Name → Bool
  getDev : Int → Option D
  rootInode : D → I
  namestat : D → I → Bool → Name → I
  entry : D → I → Bool → Name → Option Bool

structure Vfs (A D I : Type*) where
  memory : A → Option (Vnode A D I)
  hashed : List A
  mounts : List (Mountpoint A D)

/-- The vnode that the slab allocator offers for the vnodes in use. -/
abbrev Slab (A D I : Type*) := (A → Option (Vnode A D I)) → Option A

variable {A D I : Type*} [DecidableEq A]

/-! ## Vnodes -/

/-- The hash chain of a name is searched from the newest vnode on. -/
def vnodeLookup (s : Vfs A D I) (absName : Name) : Option A :=
  s.hashed.find? fun v => (s.memory v).any fun node => node.absName = absName.take maxPath

def Vfs.setNode (s : Vfs A D I) (v : A) (node : Option (Vnode A D I)) : Vfs A D I :=
  { s with memory := Function.update s.memory v node }

/-- `list_add_tail` to the children of a vnode. -/
def addChild (s : Vfs A D I) (p v : A) : Option (Vfs A D I) :=
  (s.memory p).map fun node => s.setNode p (some { node with children := node.children ++ [v] })

def dropChild (s : Vfs A D I) (p v : A) : Vfs A D I :=
  s.setNode p ((s.memory p).map fun node => { node with children := node.children.erase v })

def linkVnode (s : Vfs A D I) (v : A) (node : Vnode A D I) : Option (Vfs A D I) :=
  let parented : Option (Vfs A D I) := match node.parent with
    | none => some s
    | some p => addChild s p v
  parented.map fun s => { s.setNode v (some node) with hashed := v :: s.hashed }

def vnodeCreate (s : Vfs A D I) (slab : Slab A D I) (absName : Name) (ino : I)
    (pnode : Option A) (dev : D) (ismounted : Bool) : Option (A × Vfs A D I) :=
  match (slab s.memory).filter fun v => (s.memory v).isNone with
  | none => none
  | some v =>
      let node : Vnode A D I :=
        { absName := absName.take maxPath
          dev := dev
          ino := ino
          ismounted := ismounted
          parent := pnode
          children := [] }
      (linkVnode s v node).map fun s => (v, s)

def unlinkVnode (s : Vfs A D I) (v : A) (node : Vnode A D I) : Vfs A D I :=
  let s := match node.parent with
    | none => s
    | some p => dropChild s p v
  { s with hashed := s.hashed.erase v }

def vnodeDelete (s : Vfs A D I) (v : A) : Option (Vfs A D I) :=
  (s.memory v).map fun node => (unlinkVnode s v node).setNode v none

/-- The children are read off before the first of them is deleted, as the loop of
the source saves `next`. -/
def vnodeDeleteAll : Nat → Vfs A D I → A → Option (Vfs A D I)
  | 0, _, _ => none
  | depth + 1, s, v =>
      match s.memory v with
      | none => none
      | some node =>
          (node.children.foldlM (vnodeDeleteAll depth) s).bind fun s => vnodeDelete s v

/-- Absolute names get longer from parent to child, and fit `MAX_PATH`. -/
def treeDepth : Nat := maxPath + 1

/-! ## The mount table -/

def ismp (s : Vfs A D I) (path : Name) : Option (Mountpoint A D) :=
  s.mounts.find? fun mp => mp.path = path

/-- The `strncmp` over the length of the mountpoint's path is a prefix test. -/
def getMount (s : Vfs A D I) (path : Name) : Option (Mountpoint A D) :=
  s.mounts.find? fun mp => mp.path.isPrefixOf path

/-! ## Walking a path -/

variable (discs : Discs D I) (slab : Slab A D I)

/-- `abs_path` for a vnode name: the root contributes nothing. -/
def absPrefix (name : Name) : Name := if name = rootName then [] else name

/-- `strncat` of a separator and a component. -/
def extendPath (absPath component : Name) : Name := (absPath ++ '/' :: component).take maxPath

/-- The loop of `vnode_find` below a mountpoint. -/
def findWalk (mp : Mountpoint A D) (s : Vfs A D I) (absPath : Name) (v : A) :
    List Name → Option (A × Vfs A D I)
  | [] => some (v, s)
  | component :: rest =>
      if component = [] then findWalk mp s absPath v rest
      else
        let absPath := extendPath absPath component
        match vnodeLookup s absPath with
        | some w => findWalk mp s absPath w rest
        | none =>
            match s.memory v with
            | none => none
            | some parent =>
                let ino := discs.namestat mp.dev parent.ino parent.ismounted component
                match vnodeCreate s slab absPath ino (some v) mp.dev false with
                | none => none
                | some (w, s) => findWalk mp s absPath w rest

/-- Without a mountpoint `vnode_find` answers a null pointer. -/
def vnodeFind (s : Vfs A D I) (filename : Name) : Option (Option A × Vfs A D I) :=
  let str := trimFileSeparator filename
  match getMount s str with
  | none => some (none, s)
  | some mp =>
      (findWalk discs slab mp s (absPrefix mp.path) mp.v
        (components (str.drop mp.path.length))).map fun (v, s) => (some v, s)

/-- The file system finds an entry in the directory and then its vnode by name; the
byte before `abs_name` is never a separator, so one is always put in. The answer is
whether the entry is a directory. -/
def vfsLookupDentry (s : Vfs A D I) (v : A) (name : Name) :
    Option (Option Bool × Vfs A D I) :=
  match s.memory v with
  | none => none
  | some node =>
      match discs.entry node.dev node.ino node.ismounted name with
      | none => some (none, s)
      | some directory =>
          (vnodeFind discs slab s (node.absName ++ '/' :: name)).map fun (_, s) =>
            (some directory, s)

/-- The loop of `parse_path`. A null answer is an error of the path. -/
def parseWalk (s : Vfs A D I) (absPath : Name) (traverse : A) :
    List Name → Option (Option A × Vfs A D I)
  | [] => some (some traverse, s)
  | component :: rest =>
      if component = [] ∨ component = ['.'] then parseWalk s absPath traverse rest
      else if component = ['.', '.'] then
        match s.memory traverse with
        | none => none
        | some node =>
            match node.parent with
            | none => some (none, s)
            | some p =>
                match s.memory p with
                | none => none
                | some parent => parseWalk s parent.absName p rest
      else
        let absPath := extendPath absPath component
        match vfsLookupDentry discs slab s traverse component with
        | none => none
        | some (some true, s) =>
            match vnodeFind discs slab s absPath with
            | none => none
            | some (none, s) => some (none, s)
            | some (some v, s) => parseWalk s absPath v rest
        | some (_, s) => some (none, s)

/-- `parse_path` with the callers' test for directories; the name is the result. -/
def parsePath (s : Vfs A D I) (cwd path : Name) : Option (Option (Name × A) × Vfs A D I) :=
  let args := path.dropWhile isSpace
  if args = [] then some (none, s)
  else
    match vnodeLookup s cwd with
    | none => some (none, s)
    | some vnode =>
        let output := trimFileSeparator args
        let start : Option (A × Name) :=
          if output.head? = some '/' then
            (getMount s output).map fun mp => (mp.v, output.drop mp.path.length)
          else some (vnode, output)
        match start with
        | none => some (none, s)
        | some (traverse, ptr) =>
            match s.memory traverse with
            | none => none
            | some node =>
                match parseWalk discs slab s (absPrefix node.absName) traverse
                    (components ptr) with
                | none => none
                | some (none, s) => some (none, s)
                | some (some v, s) =>
                    (s.memory v).map fun found => (some (found.absName, v), s)

/-! ## Mounting -/

/-- The path of `vfs_mount` as `parse_path` resolves it, with its vnode; the root is
taken as it is. -/
def mountTarget (s : Vfs A D I) (cwd pathname : Name) :
    Option (Option (Name × Option A) × Vfs A D I) :=
  if pathname = rootName then some (some (rootName, none), s)
  else
    (parsePath discs slab s cwd pathname).map fun (found, s) =>
      (found.map fun (output, v) => (output, some v), s)

/-- The vnode that a mount at `output` deletes, and the parent of the one it creates.
A path that is a mountpoint already keeps its vnodes. -/
def mountPlace (s : Vfs A D I) (output : Name) (v : Option A) : Option (Option A × Option A) :=
  match ismp s output with
  | some mp => (s.memory mp.v).map fun node => (none, node.parent)
  | none =>
      match v with
      | none => some (none, none)
      | some v => (s.memory v).map fun node => (some v, node.parent)

/-- `vnode_delete_all` of the vnode, if there is one. -/
def deletePlace (s : Vfs A D I) : Option A → Option (Vfs A D I)
  | none => some s
  | some v => vnodeDeleteAll treeDepth s v

/-- The result is `true` when `vfs_mount` returns 0. The table of the source holds the
new entry before its vnode is there, but nothing reads the table in between. -/
def vfsMount (s : Vfs A D I) (cwd pathname fsname : Name) (dev : Int) :
    Option (Bool × Vfs A D I) :=
  match mountTarget discs slab s cwd pathname with
  | none => none
  | some (none, s) => some (false, s)
  | some (some (output, v), s) =>
      match mountPlace s output v with
      | none => none
      | some (doomed, parent) =>
          if discs.getFs fsname = false then some (false, s)
          else
            match discs.getDev dev with
            | none => some (false, s)
            | some device =>
                match deletePlace s doomed with
                | none => none
                | some s =>
                    match vnodeCreate s slab output (discs.rootInode device) parent device true with
                    | none => none
                    | some (v, s) =>
                        let mp : Mountpoint A D := { path := output, dev := device, v := v }
                        some (true, { s with mounts := mp :: s.mounts })

/-- The mountpoint that `vfs_umount` takes down: not one whose path occurs in the
caller's working directory. -/
def umountTarget (s : Vfs A D I) (cwd pathname : Name) : Option (Mountpoint A D) :=
  if pathname <:+: cwd then none else ismp s pathname

def vfsUmount (s : Vfs A D I) (cwd pathname : Name) : Option (Bool × Vfs A D I) :=
  match umountTarget s cwd pathname with
  | none => some (false, s)
  | some mp =>
      match s.memory mp.v with
      | none => none
      | some node =>
          if node.ismounted = false then some (false, s)
          else
            (vnodeDeleteAll treeDepth s mp.v).map fun s =>
              (true, { s with mounts := s.mounts.eraseP fun mp => mp.path = pathname })

/-! ## Files and processes -/

/-- The directory and the last component of a path that `traverse_path` opens. A null
answer is an error. -/
def traverseStart (s : Vfs A D I) (cwd path : Name) :
    Option (Option (A × Name) × Vfs A D I) :=
  match vnodeLookup s cwd with
  | none => some (none, s)
  | some vnode =>
      if path.getLast? = some '/' then some (none, s)
      else
        let input := trimFileSeparator path
        let last := (components input).getLastD []
        let before := input.take (input.length - last.length - 1)
        if last = [] ∨ last = ['.'] ∨ last = ['.', '.'] then some (none, s)
        else if last = input then some (some (vnode, input), s)
        else if before ≠ [] then
          (parsePath discs slab s cwd before).map fun (found, s) =>
            (found.map fun (_, v) => (v, last), s)
        else
          match getMount s input with
          | none => some (none, s)
          | some mp =>
              let str := input.drop mp.path.length
              if str = [] then some (none, s) else some (some (mp.v, str), s)

/-- The absolute name of a file to open; directories are refused. -/
def traversePath (s : Vfs A D I) (cwd path : Name) : Option (Option Name × Vfs A D I) :=
  match traverseStart discs slab s cwd path with
  | none => none
  | some (none, s) => some (none, s)
  | some (some (vnode, output), s) =>
      match vfsLookupDentry discs slab s vnode output with
      | none => none
      | some (some false, s) =>
          (s.memory vnode).map fun node => (some (node.absName ++ '/' :: output), s)
      | some (_, s) => some (none, s)

/-- The vnode of the file that `vfs_open` opens. A vnode that is not found is a null
pointer that the source follows. -/
def vfsOpen (s : Vfs A D I) (cwd file : Name) (mode : Int) : Option (Option A × Vfs A D I) :=
  if mode ≠ 0 ∧ mode ≠ 2 then some (none, s)
  else
    match traversePath discs slab s cwd file with
    | none => none
    | some (none, s) => some (none, s)
    | some (some output, s) =>
        match vnodeFind discs slab s output with
        | none => none
        | some (none, _) => none
        | some (some v, s) => some (some v, s)

/-- A process: its working directory and, for each open descriptor, the vnode of the file. -/
structure Proc (A : Type*) where
  cwd : Name
  files : Nat → Option A

structure World (A D I P : Type*) where
  vfs : Vfs A D I
  procs : P → Option (Proc A)

/-- The calls, each made by a process. A descriptor that `get_file` hands out is unused;
a new process has its parent's working directory and no open file. -/
inductive VfsEvent (A D I P : Type*) where
  | find (path : Name) (slab : Slab A D I)
  | parse (pid : P) (path : Name) (slab : Slab A D I)
  | mount (pid : P) (pathname fsname : Name) (dev : Int) (slab : Slab A D I)
  | umount (pid : P) (pathname : Name)
  | open (pid : P) (file : Name) (mode : Int) (fd : Nat) (slab : Slab A D I)
  | close (pid : P) (fd : Nat)
  | cd (pid : P) (path : Name) (slab : Slab A D I)
  | fork (pid child : P)
  | exit (pid : P)

variable {P : Type*} [DecidableEq P]

def World.setProc (w : World A D I P) (pid : P) (proc : Option (Proc A)) : World A D I P :=
  { w with procs := Function.update w.procs pid proc }

def World.setVfs (w : World A D I P) (s : Vfs A D I) : World A D I P :=
  { w with vfs := s }

/-- A call by a process that is not there, a descriptor or a process that is in use, a
freed vnode and a failed allocation have no step. -/
def vfsStep (w : World A D I P) : VfsEvent A D I P → Option (World A D I P)
  | .find path slab => (vnodeFind discs slab w.vfs path).map fun (_, s) => w.setVfs s
  | .parse pid path slab =>
      (w.procs pid).bind fun proc =>
        (parsePath discs slab w.vfs proc.cwd path).map fun (_, s) => w.setVfs s
  | .mount pid pathname fsname dev slab =>
      (w.procs pid).bind fun proc =>
        (vfsMount discs slab w.vfs proc.cwd pathname fsname dev).map fun (_, s) => w.setVfs s
  | .umount pid pathname =>
      (w.procs pid).bind fun proc =>
        (vfsUmount w.vfs proc.cwd pathname).map fun (_, s) => w.setVfs s
  | .open pid file mode fd slab =>
      (w.procs pid).bind fun proc =>
        if (proc.files fd).isSome then none
        else
          (vfsOpen discs slab w.vfs proc.cwd file mode).map fun (v, s) =>
            (w.setVfs s).setProc pid (some { proc with
              files := Function.update proc.files fd v })
  | .close pid fd =>
      (w.procs pid).map fun proc =>
        w.setProc pid (some { proc with files := Function.update proc.files fd none })
  | .cd pid path slab =>
      (w.procs pid).bind fun proc =>
        (parsePath discs slab w.vfs proc.cwd path).map fun (found, s) =>
          (w.setVfs s).setProc pid (some { proc with
            cwd := (found.map Prod.fst).getD proc.cwd })
  | .fork pid child =>
      if (w.procs child).isSome then none
      else
        (w.procs pid).map fun proc =>
          w.setProc child (some { cwd := proc.cwd, files := fun _ => none })
  | .exit pid => (w.procs pid).map fun _ => w.setProc pid none

end MirOs.VfsModel
