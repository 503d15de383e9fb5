import MirOs.DList

/-!
# Several lists in one memory

A family of intrusive lists, one for each head, whose nodes are distinct. A node is
on one list at most; it is added to a list, taken off its list, or moved.
-/

namespace MirOs.RingFamily

set_option autoImplicit false

open MirOs.DList

variable {K N : Type*}

inductive Ptr (K N : Type*) where
  | head (k : K)
  | node (n : N)
  deriving DecidableEq

structure Family (links : Links (Ptr K N)) (lists : K → List N) : Prop where
  rings : ∀ k, Ring links (.head k) ((lists k).map .node)
  apart : ∀ j k n, n ∈ lists j → n ∈ lists k → j = k

theorem node_mem {n : N} {nodes : List N} {k : K} :
    Ptr.node n ∈ Ptr.head k :: nodes.map .node ↔ n ∈ nodes := by
  simp

theorem Family.nodup {links : Links (Ptr K N)} {lists : K → List N} (family : Family links lists)
    (k : K) : (lists k).Nodup :=
  ((List.nodup_cons.mp (family.rings k).nodup).2).of_map _

/-- The nodes of one list are not on another one. -/
theorem Family.outside {links : Links (Ptr K N)} {lists : K → List N}
    (family : Family links lists) {j k : K} (other : j ≠ k) {ptr : Ptr K N}
    (member : ptr ∈ Ptr.head j :: (lists j).map .node) :
    ptr ∉ Ptr.head k :: (lists k).map .node := by
  cases ptr with
  | head i =>
      have same : i = j := by simpa using member
      simpa [same] using other
  | node n =>
      rw [node_mem] at member ⊢
      exact fun here => other (family.apart j k n member here)

theorem family_first {links : Links (Ptr K N)} {lists : K → List N} (family : Family links lists)
    {k : K} {n : N} {rest : List N} (first : lists k = n :: rest) :
    links.next (.head k) = some (.node n) := by
  have seg := (family.rings k).seg
  rw [first, List.map_cons] at seg
  exact seg.1

variable [DecidableEq K] [DecidableEq N]

theorem family_empty_iff {links : Links (Ptr K N)} {lists : K → List N}
    (family : Family links lists) (k : K) :
    listEmpty links (.head k) = true ↔ lists k = [] := by
  rw [ring_empty_iff (family.rings k), List.map_eq_nil_iff]

theorem family_add {links : Links (Ptr K N)} {lists : K → List N} (family : Family links lists)
    {n : N} (fresh : ∀ k, n ∉ lists k) (k : K) :
    Family (listAdd links (.node n) (.head k)) (Function.update lists k (n :: lists k)) := by
  constructor
  · intro j
    by_cases same : j = k
    · rw [same, Function.update_self, List.map_cons]
      apply ring_list_add (family.rings k)
      rw [node_mem]
      exact fresh k
    · rw [Function.update_of_ne same]
      apply ring_congr _ (family.rings j)
      intro ptr member
      apply list_add_frame (family.rings k) (family.outside same member)
      rintro rfl
      exact fresh j (node_mem.mp member)
  · intro i j m inI inJ
    have here : ∀ i, m ∈ Function.update lists k (n :: lists k) i →
        (m = n ∧ i = k) ∨ m ∈ lists i := by
      intro i member
      by_cases same : i = k
      · rw [same, Function.update_self, List.mem_cons] at member
        rcases member with rfl | member
        · exact Or.inl ⟨rfl, same⟩
        · exact Or.inr (same ▸ member)
      · rw [Function.update_of_ne same] at member
        exact Or.inr member
    rcases here i inI with ⟨rfl, rfl⟩ | oldI
    · rcases here j inJ with ⟨_, rfl⟩ | oldJ
      · rfl
      · exact absurd oldJ (fresh j)
    · rcases here j inJ with ⟨rfl, rfl⟩ | oldJ
      · exact absurd oldI (fresh i)
      · exact family.apart i j m oldI oldJ

/-- `list_head_init` of a node that is on no list. -/
theorem family_init_node {links : Links (Ptr K N)} {lists : K → List N}
    (family : Family links lists) {n : N} (fresh : ∀ k, n ∉ lists k) :
    Family (listHeadInit links (.node n)) lists := by
  refine ⟨fun k => ?_, family.apart⟩
  apply ring_congr _ (family.rings k)
  intro ptr member
  apply head_init_frame
  rintro rfl
  exact fresh k (node_mem.mp member)

theorem family_del {links : Links (Ptr K N)} {lists : K → List N} (family : Family links lists)
    {n : N} {k : K} (member : n ∈ lists k) :
    Family (listDel links (.node n)) (Function.update lists k ((lists k).erase n)) := by
  have subset : ∀ j, Function.update lists k ((lists k).erase n) j ⊆ lists j := by
    intro j m here
    by_cases same : j = k
    · rw [same, Function.update_self] at here
      exact same ▸ List.mem_of_mem_erase here
    · rwa [Function.update_of_ne same] at here
  constructor
  · intro j
    by_cases same : j = k
    · rw [same, Function.update_self]
      exact ring_list_del_erase (family.rings k) member
    · rw [Function.update_of_ne same]
      apply ring_congr _ (family.rings j)
      intro ptr here
      exact list_del_frame (family.rings k) (List.mem_map_of_mem member)
        (family.outside same here)
  · intro i j m inI inJ
    exact family.apart i j m (subset i inI) (subset j inJ)

/-- `list_del` and then `list_add` to another list. -/
theorem family_move {links : Links (Ptr K N)} {lists : K → List N} (family : Family links lists)
    {n : N} {j : K} (member : n ∈ lists j) (k : K) :
    ∃ moved, Family (listAdd (listDel links (.node n)) (.node n) (.head k)) moved ∧
      (∃ rest, moved k = n :: rest) ∧ ∀ i m, m ≠ n → (m ∈ moved i ↔ m ∈ lists i) := by
  have removed := family_del family member
  have gone : ∀ i, n ∉ Function.update lists j ((lists j).erase n) i := by
    intro i here
    by_cases same : i = j
    · rw [same, Function.update_self] at here
      exact (family.nodup j).not_mem_erase here
    · rw [Function.update_of_ne same] at here
      exact same (family.apart i j n here member)
  refine ⟨_, family_add removed gone k, ⟨_, Function.update_self ..⟩, ?_⟩
  intro i m other
  have kept : m ∈ Function.update lists j ((lists j).erase n) i ↔ m ∈ lists i := by
    by_cases same : i = j
    · rw [same, Function.update_self, List.mem_erase_of_ne other]
    · rw [Function.update_of_ne same]
  by_cases same : i = k
  · rw [same, Function.update_self, List.mem_cons, or_iff_right other, ← same, kept]
  · rw [Function.update_of_ne same, kept]

end MirOs.RingFamily
