import MirOs.PprevChain
import MirOs.Reachability

/-!
# Hash tables

The functions of `myhash.h` over the chains of one table. The table is allocated by the first node
that is added. Nodes are removed through their back pointers, without their key.
-/

namespace MirOs.HashChains

set_option autoImplicit false

open MirOs.PprevChain (Chains Chain Table Slot)
open MirOs.Reachability

variable {N : Type*}

/-- `hash_table_size` and `hash_table`. -/
structure HashTable (N : Type*) where
  size : Nat
  allocated : Bool
  chains : Chains Nat N

/-- `HASH_TABLE`. -/
def defaultSize : Nat := 101

/-- `granted` is the answer of `ALLOC_MEM`. -/
def initHash (t : HashTable N) (size : Nat) (granted : Bool) : Int × HashTable N :=
  let t := if size ≠ 0 then { t with size := size } else t
  if granted then
    (0, { t with allocated := true, chains := { t.chains with head := fun _ => none } })
  else (-1, t)

def addHash [DecidableEq N] (t : HashTable N) (granted : Bool) (node : N) (key : Nat) :
    Int × HashTable N :=
  if t.size ≤ key then (-1, t)
  else
    let init := if t.allocated then (0, t) else initHash t 0 granted
    if init.1 < 0 then (-1, init.2)
    else (0, { init.2 with chains := PprevChain.addHash init.2.chains node key })

def delHash [DecidableEq N] (t : HashTable N) (node : N) : HashTable N :=
  { t with chains := PprevChain.delHash t.chains node }

/-- `search_hash` of at most so many rounds; a node passes the test if its `hash_search` is set and
answers 1. -/
def searchHash (t : HashTable N) (key : Nat) (test : N → Bool) (rounds : Nat) : Option N :=
  if t.size ≤ key then none
  else if !t.allocated then none
  else PprevChain.searchFrom t.chains test rounds (t.chains.head key)

/-! ## Runs -/

/-- A table with the nodes that were added and not removed since, the newest first, each with its
key. -/
structure HashState (N : Type*) where
  table : HashTable N
  live : List (N × Nat)

inductive HashEvent (N : Type*) where
  | add (granted : Bool) (node : N) (key : Nat)
  | del (node : N)

def hashStep [DecidableEq N] (s : HashState N) : HashEvent N → Option (HashState N)
  | .add granted node key =>
      let result := addHash s.table granted node key
      some { table := result.2, live := if result.1 < 0 then s.live else (node, key) :: s.live }
  | .del node =>
      some { table := delHash s.table node, live := s.live.filter fun e => decide (e.1 ≠ node) }

def Linked (s : HashState N) (node : N) : Prop := node ∈ s.live.map Prod.fst

/-- Nodes are added while they are in no chain, and removed while they are in one. -/
def Proper (s : HashState N) : HashEvent N → Prop
  | .add _ node _ => ¬ Linked s node
  | .del node => Linked s node

instance [DecidableEq N] (s : HashState N) (event : HashEvent N) : Decidable (Proper s event) := by
  cases event <;> unfold Proper Linked <;> infer_instance

/-- The live nodes under a key, the last one first. -/
def bucket (live : List (N × Nat)) (key : Nat) : List N :=
  (live.filter fun e => decide (e.2 = key)).map Prod.fst

/-! ## Buckets -/

section Buckets

variable {live : List (N × Nat)} {key : Nat} {node : N}

theorem mem_bucket_iff : node ∈ bucket live key ↔ (node, key) ∈ live := by
  unfold bucket
  rw [List.mem_map]
  constructor
  · rintro ⟨e, member, rfl⟩
    obtain ⟨inside, same⟩ := List.mem_filter.mp member
    have keyed : e.2 = key := of_decide_eq_true same
    rw [← keyed]
    exact inside
  · intro inside
    exact ⟨(node, key), List.mem_filter.mpr ⟨inside, decide_eq_true rfl⟩, rfl⟩

theorem bucket_length_le (live : List (N × Nat)) (key : Nat) :
    (bucket live key).length ≤ live.length := by
  unfold bucket
  rw [List.length_map]
  exact List.length_filter_le _ _

theorem bucket_cons (node : N) (key : Nat) (live : List (N × Nat)) :
    bucket ((node, key) :: live) = Function.update (bucket live) key (node :: bucket live key) := by
  funext other
  by_cases same : other = key
  · subst same
    rw [Function.update_self]
    unfold bucket
    rw [List.filter_cons, if_pos (decide_eq_true rfl), List.map_cons]
  · rw [Function.update_of_ne same]
    unfold bucket
    rw [List.filter_cons_of_neg]
    simpa using Ne.symm same

theorem bucket_find (test : N → Bool) : (bucket live key).find? test =
    (live.find? fun e => decide (e.2 = key) && test e.1).map Prod.fst := by
  unfold bucket
  rw [List.find?_map, List.find?_filter]
  congr 2
  funext e
  rw [Bool.decide_and, Bool.decide_coe, Bool.decide_coe]
  rfl

variable [DecidableEq N]

/-- A node with one key is taken out of its bucket. -/
theorem bucket_without (distinct : (live.map Prod.fst).Nodup) (member : (node, key) ∈ live) :
    bucket (live.filter fun e => decide (e.1 ≠ node)) =
      Function.update (bucket live) key ((bucket live key).erase node) := by
  have single : ∀ other, (node, other) ∈ live → other = key := by
    intro other inside
    exact congrArg Prod.snd (List.inj_on_of_nodup_map distinct inside member rfl)
  have bare : ∀ other, bucket (live.filter fun e => decide (e.1 ≠ node)) other =
      (bucket live other).filter fun x => decide (x ≠ node) := by
    intro other
    unfold bucket
    rw [List.filter_comm, List.filter_map]
    rfl
  funext other
  rw [bare]
  by_cases same : other = key
  · subst same
    have once : (bucket live other).Nodup := by
      unfold bucket
      exact distinct.sublist (List.filter_sublist.map Prod.fst)
    rw [Function.update_self, once.erase_eq_filter]
    simp [bne, beq_eq_decide]
  · rw [Function.update_of_ne same, List.filter_eq_self]
    intro x inside
    refine decide_eq_true fun here => same ?_
    rw [here] at inside
    exact single other (mem_bucket_iff.mp inside)

end Buckets

/-! ## The chains over runs -/

/-- Before the table is allocated there is no chain. -/
structure HashInv (s : HashState N) : Prop where
  chains : s.table.allocated = true → Table s.table.chains (· < s.table.size) (bucket s.live)
  absent : s.table.allocated = false → s.live = []
  distinct : (s.live.map Prod.fst).Nodup
  keys : ∀ e ∈ s.live, e.2 < s.table.size

/-- No node is linked, and a table that is there is cleared. -/
structure Unlinked (s : HashState N) : Prop where
  live : s.live = []
  heads : s.table.allocated = true → ∀ key, s.table.chains.head key = none

/-- The table before its first node. -/
def noTable : HashState N where
  table := ⟨defaultSize, false, ⟨fun _ => none, fun _ => none, fun _ => none⟩⟩
  live := []

theorem no_table_unlinked : Unlinked (noTable : HashState N) := ⟨rfl, fun _ _ => rfl⟩

section Runs

variable [DecidableEq N] {s : HashState N} {node : N} {key : Nat}

omit [DecidableEq N] in
theorem cleared_table {t : HashTable N} (heads : ∀ key, t.chains.head key = none) :
    Table t.chains (· < t.size) (bucket []) :=
  ⟨fun key _ => ⟨trivial, heads key, List.nodup_nil⟩,
    fun _ _ _ _ _ _ member => absurd member List.not_mem_nil⟩

omit [DecidableEq N] in
theorem unlinked_inv (unlinked : Unlinked s) : HashInv s := by
  obtain ⟨live, heads⟩ := unlinked
  refine ⟨fun allocated => ?_, fun _ => live, ?_, ?_⟩
  · rw [live]
    exact cleared_table (heads allocated)
  · rw [live]
    exact List.nodup_nil
  · rw [live]
    exact fun _ member => absurd member List.not_mem_nil

omit [DecidableEq N] in
theorem allocated_of_live (inv : HashInv s) {e : N × Nat} (member : e ∈ s.live) :
    s.table.allocated = true := by
  cases allocated : s.table.allocated with
  | true => rfl
  | false =>
      rw [inv.absent allocated] at member
      exact absurd member List.not_mem_nil

/-- `add_hash` refuses the node, or it links it into an allocated table. -/
theorem add_hash_cases (t : HashTable N) (granted : Bool) (node : N) (key : Nat) :
    addHash t granted node key = (-1, t) ∨ key < t.size ∧ ∃ chains : Chains Nat N,
      (t.allocated = true → chains = t.chains) ∧
      (t.allocated = false → ∀ other, chains.head other = none) ∧
      addHash t granted node key =
        (0, { t with allocated := true, chains := PprevChain.addHash chains node key }) := by
  unfold addHash
  by_cases outside : t.size ≤ key
  · rw [if_pos outside]
    exact Or.inl rfl
  rw [if_neg outside]
  cases allocated : t.allocated with
  | true =>
      refine Or.inr ⟨Nat.not_le.mp outside, t.chains, fun _ => rfl,
        fun absent => Bool.noConfusion absent, ?_⟩
      dsimp only
      rw [if_pos rfl, if_neg (Int.lt_irrefl 0), allocated]
  | false =>
      cases granted with
      | true =>
          refine Or.inr ⟨Nat.not_le.mp outside, { t.chains with head := fun _ => none },
            fun present => Bool.noConfusion present, fun _ _ => rfl, ?_⟩
          rfl
      | false => exact Or.inl rfl

theorem add_inv (inv : HashInv s) (fresh : ¬ Linked s node) {granted : Bool} {s' : HashState N}
    (stepped : hashStep s (.add granted node key) = some s') : HashInv s' := by
  obtain rfl := Option.some.inj stepped
  rcases add_hash_cases s.table granted node key with refused | ⟨inside, chains, same, cleared, linked⟩
  · rw [refused]
    exact inv
  rw [linked]
  have before : Table chains (· < s.table.size) (bucket s.live) := by
    cases allocated : s.table.allocated with
    | true =>
        rw [same allocated]
        exact inv.chains allocated
    | false =>
        rw [inv.absent allocated]
        exact @cleared_table N { s.table with chains := chains } (cleared allocated)
  have outside : ∀ other, other < s.table.size → node ∉ bucket s.live other := by
    intro other _ member
    exact fresh (List.mem_map_of_mem (mem_bucket_iff.mp member))
  refine ⟨fun _ => ?_, fun absent => Bool.noConfusion absent,
    List.nodup_cons.mpr ⟨fresh, inv.distinct⟩, ?_⟩
  · have after := PprevChain.table_add_hash before inside outside
    rw [← bucket_cons] at after
    exact after
  · intro e member
    rcases List.mem_cons.mp member with rfl | older
    · exact inside
    · exact inv.keys e older

theorem del_inv (inv : HashInv s) (linked : Linked s node) {s' : HashState N}
    (stepped : hashStep s (.del node) = some s') : HashInv s' := by
  obtain rfl := Option.some.inj stepped
  obtain ⟨⟨_, key⟩, member, rfl⟩ := List.mem_map.mp linked
  have allocated := allocated_of_live inv member
  refine ⟨fun _ => ?_, fun absent => ?_, ?_, ?_⟩
  · have after := PprevChain.table_del_hash (inv.chains allocated) (inv.keys _ member)
      (mem_bucket_iff.mpr member)
    rw [← bucket_without inv.distinct member] at after
    exact after
  · exact absurd (allocated.symm.trans absent) Bool.noConfusion
  · exact inv.distinct.sublist (List.filter_sublist.map Prod.fst)
  · exact fun e kept => inv.keys e (List.mem_of_mem_filter kept)

theorem hash_step_inv {s' : HashState N} {event : HashEvent N} (inv : HashInv s)
    (proper : Proper s event) (stepped : hashStep s event = some s') : HashInv s' := by
  cases event with
  | add granted node key => exact add_inv inv proper stepped
  | del node => exact del_inv inv proper stepped

omit [DecidableEq N] in
/-- Every back pointer is the address of a pointer to its node. -/
theorem path_back {chains : Chains Nat N} {slot : Slot Nat N} {nodes : List N}
    (path : PprevChain.Path chains slot nodes) (member : node ∈ nodes) :
    ∃ back, chains.pprev node = some back ∧ chains.load back = some node := by
  induction nodes generalizing slot with
  | nil => exact absurd member List.not_mem_nil
  | cons x xs ih =>
      obtain ⟨first, back, rest⟩ := path
      rcases List.mem_cons.mp member with rfl | later
      · exact ⟨slot, back, first⟩
      · exact ih rest later

/-- What the table is for: each bucket holds the live nodes of its key, the last one first, and a
search finds the last one that passes the test. -/
structure Indexed (s : HashState N) : Prop where
  chains : ∀ key, key < s.table.size → s.table.allocated = true →
    Chain s.table.chains key (bucket s.live key)
  absent : s.table.allocated = false → s.live = []
  back : ∀ e ∈ s.live, ∃ slot, s.table.chains.pprev e.1 = some slot ∧
    s.table.chains.load slot = some e.1
  search : ∀ key, key < s.table.size → ∀ test rounds, s.live.length < rounds →
    searchHash s.table key test rounds =
      (s.live.find? fun e => decide (e.2 = key) && test e.1).map Prod.fst

omit [DecidableEq N] in
theorem indexed_of_inv (inv : HashInv s) : Indexed s := by
  refine ⟨fun key inside allocated => (inv.chains allocated).chain key inside, inv.absent, ?_, ?_⟩
  · intro e member
    have chain := (inv.chains (allocated_of_live inv member)).chain e.2 (inv.keys e member)
    exact path_back chain.path (mem_bucket_iff.mpr member)
  · intro key inside test rounds enough
    unfold searchHash
    rw [if_neg (Nat.not_le.mpr inside), ← bucket_find]
    cases allocated : s.table.allocated with
    | true =>
        have short := Nat.lt_of_le_of_lt (bucket_length_le s.live key) enough
        exact PprevChain.chain_search ((inv.chains allocated).chain key inside) test rounds short
    | false =>
        rw [inv.absent allocated]
        rfl

/-- In every state of every run. -/
theorem hash_table_indexed {start s : HashState N} (unlinked : Unlinked start)
    (run : Reaches hashStep Proper start s) : Indexed s := by
  refine indexed_of_inv (reaches_invariant (unlinked_inv unlinked) ?_ run)
  intro before event after inv proper stepped
  exact hash_step_inv inv proper stepped

/-- Three nodes under one key, and the middle one removed. -/
theorem hash_table_indexed_three : ∃ s : HashState Nat, s.live = [(3, 5), (1, 5)] ∧ Indexed s := by
  have live : ([.add true 1 5, .add true 2 5, .add true 3 5, .del 2].foldlM
      (fun s event => if Proper s event then hashStep s event else none) noTable).map
      HashState.live = some [(3, 5), (1, 5)] := by
    decide
  obtain ⟨s, run, last⟩ := Option.map_eq_some_iff.mp live
  exact ⟨s, last, hash_table_indexed no_table_unlinked (reaches_checked _ run)⟩

end Runs

end MirOs.HashChains
