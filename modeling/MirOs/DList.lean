import Mathlib.Tactic.Common
import Mathlib.Logic.Function.Basic
import Mathlib.Data.List.Nodup

/-!
# Intrusive doubly linked lists

The list operations of `dlist.h` on a memory of links. A null pointer is `none`,
and a write through a null pointer changes no node. A list is a ring through its
head; `Ring links head nodes` says that following `next` from the head visits
exactly `nodes` and comes back, with `prev` the inverse.
-/

namespace MirOs.DList

set_option autoImplicit false

variable {N : Type*}

structure Links (N : Type*) where
  next : N → Option N
  prev : N → Option N

/-- Links from `a` through `nodes` to `b`, both ways. -/
def Seg (links : Links N) : N → List N → N → Prop
  | a, [], b => links.next a = some b ∧ links.prev b = some a
  | a, x :: xs, b => links.next a = some x ∧ links.prev x = some a ∧ Seg links x xs b

structure Ring (links : Links N) (head : N) (nodes : List N) : Prop where
  seg : Seg links head nodes head
  nodup : (head :: nodes).Nodup

theorem seg_append (links : Links N) (a x b : N) (xs ys : List N) :
    Seg links a (xs ++ x :: ys) b ↔ Seg links a xs x ∧ Seg links x ys b := by
  induction xs generalizing a with
  | nil => simp [Seg, and_assoc]
  | cons z zs ih => simp [Seg, ih, and_assoc]

/-- A segment depends only on the `next` of its nodes but the last and on the
`prev` of its nodes but the first. -/
theorem seg_congr {links other : Links N} {a b : N} {nodes : List N}
    (next : ∀ node ∈ a :: nodes, other.next node = links.next node)
    (prev : ∀ node ∈ nodes ++ [b], other.prev node = links.prev node)
    (seg : Seg links a nodes b) : Seg other a nodes b := by
  induction nodes generalizing a with
  | nil =>
      obtain ⟨forward, backward⟩ := seg
      exact ⟨(next a (by simp)).trans forward, (prev b (by simp)).trans backward⟩
  | cons x xs ih =>
      obtain ⟨forward, backward, rest⟩ := seg
      refine ⟨(next a (by simp)).trans forward, (prev x (by simp)).trans backward, ?_⟩
      apply ih _ _ rest
      · intro node member
        exact next node (List.mem_cons_of_mem _ member)
      · intro node member
        exact prev node (List.mem_cons_of_mem _ member)

theorem seg_prev_mem {links : Links N} {a x : N} {xs : List N} (seg : Seg links a xs x) :
    ∃ before ∈ a :: xs, links.prev x = some before := by
  induction xs generalizing a with
  | nil => exact ⟨a, by simp, seg.2⟩
  | cons z zs ih =>
      obtain ⟨before, member, found⟩ := ih seg.2.2
      exact ⟨before, List.mem_cons_of_mem _ member, found⟩

theorem seg_next_mem {links : Links N} {x b : N} {ys : List N} (seg : Seg links x ys b) :
    ∃ after ∈ ys ++ [b], links.next x = some after := by
  cases ys with
  | nil => exact ⟨b, by simp, seg.1⟩
  | cons y ys => exact ⟨y, by simp, seg.1⟩

theorem ring_next_mem {links : Links N} {head node : N} {nodes : List N}
    (ring : Ring links head nodes) (member : node ∈ head :: nodes) :
    ∃ after ∈ head :: nodes, links.next node = some after := by
  rcases List.mem_cons.mp member with rfl | inside
  · obtain ⟨after, found, eq⟩ := seg_next_mem ring.seg
    exact ⟨after, by simpa [or_comm] using found, eq⟩
  · obtain ⟨xs, ys, rfl⟩ := List.append_of_mem inside
    obtain ⟨after, found, eq⟩ := seg_next_mem ((seg_append ..).mp ring.seg).2
    refine ⟨after, ?_, eq⟩
    rcases List.mem_append.mp found with inside | last
    · simp [inside]
    · simp [List.mem_singleton.mp last]

theorem ring_prev_mem {links : Links N} {head node : N} {nodes : List N}
    (ring : Ring links head nodes) (member : node ∈ head :: nodes) :
    ∃ before ∈ head :: nodes, links.prev node = some before := by
  rcases List.mem_cons.mp member with rfl | inside
  · obtain ⟨before, found, eq⟩ := seg_prev_mem ring.seg
    exact ⟨before, found, eq⟩
  · obtain ⟨xs, ys, rfl⟩ := List.append_of_mem inside
    obtain ⟨before, found, eq⟩ := seg_prev_mem ((seg_append ..).mp ring.seg).1
    refine ⟨before, ?_, eq⟩
    rcases List.mem_cons.mp found with same | inside
    · simp [same]
    · simp [inside]

/-- A ring whose nodes keep their links is kept. -/
theorem ring_congr {links other : Links N} {head : N} {nodes : List N}
    (same : ∀ node ∈ head :: nodes,
      other.next node = links.next node ∧ other.prev node = links.prev node)
    (ring : Ring links head nodes) : Ring other head nodes := by
  refine ⟨seg_congr (fun node member => (same node member).1) ?_ ring.seg, ring.nodup⟩
  intro node member
  refine (same node ?_).2
  simpa [or_comm] using member

variable [DecidableEq N]

def Links.setNext (links : Links N) (node : Option N) (value : Option N) : Links N :=
  match node with
  | none => links
  | some node => { links with next := Function.update links.next node value }

def Links.setPrev (links : Links N) (node : Option N) (value : Option N) : Links N :=
  match node with
  | none => links
  | some node => { links with prev := Function.update links.prev node value }

/-- `__list_add(element,a,b)`. -/
def insertBetween (links : Links N) (element : N) (a b : Option N) : Links N :=
  (((links.setNext (some element) b).setPrev (some element) a).setNext a (some element)).setPrev
    b (some element)

def listAddTail (links : Links N) (element head : N) : Links N :=
  insertBetween links element (links.prev head) (some head)

def listAdd (links : Links N) (element head : N) : Links N :=
  insertBetween links element (some head) (links.next head)

def listDel (links : Links N) (element : N) : Links N :=
  let before := links.prev element
  let after := links.next element
  let links := (links.setNext before after).setPrev after before
  (links.setNext (some element) none).setPrev (some element) none

def listHeadInit (links : Links N) (head : N) : Links N :=
  (links.setNext (some head) (some head)).setPrev (some head) (some head)

def listDelInit (links : Links N) (element : N) : Links N :=
  listHeadInit (listDel links element) element

/-- `LIST_EMPTY`. -/
def listEmpty (links : Links N) (head : N) : Bool := decide (links.next head = some head)

@[simp] theorem set_next_prev (links : Links N) (node value : Option N) :
    (links.setNext node value).prev = links.prev := by
  cases node <;> rfl

@[simp] theorem set_prev_next (links : Links N) (node value : Option N) :
    (links.setPrev node value).next = links.next := by
  cases node <;> rfl

@[simp] theorem set_next_next (links : Links N) (node : N) (value : Option N) :
    (links.setNext (some node) value).next = Function.update links.next node value := rfl

@[simp] theorem set_prev_prev (links : Links N) (node : N) (value : Option N) :
    (links.setPrev (some node) value).prev = Function.update links.prev node value := rfl

theorem ring_head_init (links : Links N) (head : N) : Ring (listHeadInit links head) head [] := by
  refine ⟨?_, by simp⟩
  simp [listHeadInit, Seg]

theorem ring_empty_iff {links : Links N} {head : N} {nodes : List N}
    (ring : Ring links head nodes) : listEmpty links head = true ↔ nodes = [] := by
  cases nodes with
  | nil => simp [listEmpty, ring.seg.1]
  | cons x xs =>
      have apart : x ≠ head := by
        intro same
        exact (List.nodup_cons.mp ring.nodup).1 (by simp [same])
      simp [listEmpty, ring.seg.1, apart]

/-! ## Adding a node -/

theorem insert_between_next (links : Links N) (element a : N) (b : Option N) :
    (insertBetween links element (some a) b).next =
      Function.update (Function.update links.next element b) a (some element) := by
  simp [insertBetween]

theorem insert_between_prev (links : Links N) (element b : N) (a : Option N) :
    (insertBetween links element a (some b)).prev =
      Function.update (Function.update links.prev element a) b (some element) := by
  cases a <;> simp [insertBetween, Links.setNext, Links.setPrev]

theorem ring_list_add {links : Links N} {head element : N} {nodes : List N}
    (ring : Ring links head nodes) (fresh : element ∉ head :: nodes) :
    Ring (listAdd links element head) head (element :: nodes) := by
  obtain ⟨seg, nodup⟩ := ring
  have apart : element ≠ head := by
    intro same
    exact fresh (by simp [same])
  refine ⟨?_, by simp_all [eq_comm]⟩
  cases nodes with
  | nil =>
      unfold listAdd
      rw [seg.1]
      simp [Seg, insert_between_next, insert_between_prev, apart]
  | cons x xs =>
      obtain ⟨forward, backward, rest⟩ := seg
      have distinct : element ≠ x := by
        intro same
        exact fresh (by simp [same])
      have headApart : x ≠ head := by
        intro same
        exact (List.nodup_cons.mp nodup).1 (by simp [same])
      unfold listAdd
      rw [forward]
      refine ⟨?_, ?_, ?_, ?_, ?_⟩
      · simp [insert_between_next]
      · simp [insert_between_prev, distinct]
      · simp [insert_between_next, apart]
      · simp [insert_between_prev]
      · apply seg_congr _ _ rest
        · intro node member
          have notHead : node ≠ head := fun same => (List.nodup_cons.mp nodup).1 (same ▸ member)
          have notElement : node ≠ element := by
            intro same
            exact fresh (List.mem_cons_of_mem _ (same ▸ member))
          simp [insert_between_next, notHead, notElement]
        · intro node member
          have notX : node ≠ x := by
            rcases List.mem_append.mp member with inside | last
            · have tail := (List.nodup_cons.mp (List.nodup_cons.mp nodup).2).1
              exact fun same => tail (same ▸ inside)
            · rw [List.mem_singleton] at last
              rw [last]
              exact headApart.symm
          have notElement : node ≠ element := by
            rcases List.mem_append.mp member with inside | last
            · intro same
              exact fresh (List.mem_cons_of_mem _ (List.mem_cons_of_mem _ (same ▸ inside)))
            · rw [List.mem_singleton] at last
              rw [last]
              exact apart.symm
          simp [insert_between_prev, notX, notElement]

theorem ring_list_add_tail {links : Links N} {head element : N} {nodes : List N}
    (ring : Ring links head nodes) (fresh : element ∉ head :: nodes) :
    Ring (listAddTail links element head) head (nodes ++ [element]) := by
  obtain ⟨seg, nodup⟩ := ring
  have apart : element ≠ head := by
    intro same
    exact fresh (by simp [same])
  have appended : (head :: (nodes ++ [element])).Nodup := by
    rw [← List.cons_append]
    refine List.Nodup.append nodup (by simp) ?_
    simpa using fresh
  refine ⟨?_, appended⟩
  rcases List.eq_nil_or_concat nodes with rfl | ⟨front, last, rfl⟩
  · unfold listAddTail
    rw [seg.2]
    simp [Seg, insert_between_next, insert_between_prev, apart]
  · rw [List.concat_eq_append] at *
    rw [seg_append] at seg
    obtain ⟨rest, forward, backward⟩ := seg
    have distinct : element ≠ last := by
      intro same
      exact fresh (by simp [same])
    have headApart : last ≠ head := by
      intro same
      exact (List.nodup_cons.mp nodup).1 (by simp [same])
    have lastFresh : last ∉ front := by
      have split := (List.nodup_append.mp (List.nodup_cons.mp nodup).2).2.2
      exact fun member => split last member last (by simp) rfl
    unfold listAddTail
    rw [backward, List.append_assoc, List.singleton_append, seg_append]
    refine ⟨?_, ?_, ?_, ?_, ?_⟩
    · apply seg_congr _ _ rest
      · intro node member
        have notLast : node ≠ last := by
          rcases List.mem_cons.mp member with rfl | inside
          · exact headApart.symm
          · exact fun same => lastFresh (same ▸ inside)
        have notElement : node ≠ element := by
          rintro rfl
          exact fresh (by
            rcases List.mem_cons.mp member with same | inside
            · simp [same]
            · simp [inside])
        simp [insert_between_next, notLast, notElement]
      · intro node member
        have notHead : node ≠ head := by
          rintro rfl
          exact (List.nodup_cons.mp nodup).1 member
        have notElement : node ≠ element := by
          rintro rfl
          exact fresh (List.mem_cons_of_mem _ member)
        simp [insert_between_prev, notHead, notElement]
    · simp [insert_between_next]
    · simp [insert_between_prev, apart]
    · simp [insert_between_next, distinct]
    · simp [insert_between_prev]

/-! ## Removing a node -/

theorem list_del_next {links : Links N} {element before : N}
    (linked : links.prev element = some before) :
    (listDel links element).next =
      Function.update (Function.update links.next before (links.next element)) element none := by
  simp [listDel, linked]

theorem list_del_prev {links : Links N} {element after : N}
    (linked : links.next element = some after) :
    (listDel links element).prev =
      Function.update (Function.update links.prev after (links.prev element)) element none := by
  simp [listDel, linked]

theorem seg_list_del {links : Links N} {a b x : N} {xs ys : List N}
    (seg : Seg links a (xs ++ x :: ys) b) (nodup : (a :: (xs ++ x :: ys)).Nodup)
    (outside : b ∉ xs ++ x :: ys) : Seg (listDel links x) a (xs ++ ys) b := by
  have whole := seg
  rw [seg_append] at whole
  obtain ⟨before, beforeMember, prevEq⟩ := seg_prev_mem whole.1
  obtain ⟨after, afterMember, nextEq⟩ := seg_next_mem whole.2
  have next := list_del_next prevEq
  have prev := list_del_prev nextEq
  rw [nextEq] at next
  rw [prevEq] at prev
  generalize listDel links x = other at *
  induction xs generalizing a with
  | nil =>
      obtain ⟨forward, backward, rest⟩ := seg
      obtain rfl : a = before := Option.some.inj (backward.symm.trans prevEq)
      have apart : a ≠ x := by
        intro same
        exact (List.nodup_cons.mp nodup).1 (by simp [same])
      cases ys with
      | nil =>
          obtain rfl : b = after := Option.some.inj (rest.1.symm.trans nextEq)
          have apartEnd : b ≠ x := by
            intro same
            exact outside (by simp [same])
          simp [Seg, next, prev, apart, apartEnd]
      | cons y ys =>
          obtain rfl : y = after := Option.some.inj (rest.1.symm.trans nextEq)
          obtain ⟨_, _, tail⟩ := rest
          have distinct : y ≠ x := by
            intro same
            have inner := (List.nodup_cons.mp (List.nodup_cons.mp nodup).2).1
            exact inner (by simp [same])
          refine ⟨by simp [next, apart], by simp [prev, distinct], ?_⟩
          apply seg_congr _ _ tail
          · intro node member
            have notA : node ≠ a := by
              rintro rfl
              exact (List.nodup_cons.mp nodup).1 (by simp [List.mem_cons.mp member])
            have notX : node ≠ x := by
              rintro rfl
              exact (List.nodup_cons.mp (List.nodup_cons.mp nodup).2).1 member
            simp [next, notA, notX]
          · intro node member
            have cases_ : node ∈ ys ∨ node = b := by simpa using member
            have notY : node ≠ y := by
              rintro rfl
              rcases cases_ with inside | rfl
              · exact (List.nodup_cons.mp (List.nodup_cons.mp
                  (List.nodup_cons.mp nodup).2).2).1 inside
              · exact outside (by simp)
            have notX : node ≠ x := by
              rintro rfl
              rcases cases_ with inside | rfl
              · exact (List.nodup_cons.mp (List.nodup_cons.mp nodup).2).1 (by simp [inside])
              · exact outside (by simp)
            simp [prev, notY, notX]
  | cons z zs ih =>
      obtain ⟨forward, backward, _⟩ := seg
      obtain ⟨first, inner⟩ := List.nodup_cons.mp nodup
      have restSplit : Seg links z zs x ∧ Seg links x ys b := ⟨whole.1.2.2, whole.2⟩
      have rest : Seg links z (zs ++ x :: ys) b := (seg_append ..).mpr restSplit
      obtain ⟨inside, insideMember, insideEq⟩ := seg_prev_mem restSplit.1
      obtain rfl : inside = before := Option.some.inj (insideEq.symm.trans prevEq)
      have notBefore : a ≠ inside := by
        rintro rfl
        exact first (by
          rcases List.mem_cons.mp insideMember with same | member
          · simp [same]
          · simp [member])
      have notX : a ≠ x := by
        rintro rfl
        exact first (by simp)
      have zNotX : z ≠ x := by
        rintro rfl
        exact (List.nodup_cons.mp inner).1 (by simp)
      have zNotAfter : z ≠ after := by
        rintro rfl
        have cases_ : z ∈ ys ∨ z = b := by simpa using afterMember
        rcases cases_ with member | rfl
        · exact (List.nodup_cons.mp inner).1 (by simp [member])
        · exact outside (by simp)
      refine ⟨?_, ?_, ?_⟩
      · simp [next, notBefore, notX, forward]
      · simp [prev, zNotAfter, zNotX, backward]
      · exact ih rest inner (fun member => outside (List.mem_cons_of_mem _ member)) restSplit
          insideMember

theorem ring_list_del {links : Links N} {head x : N} {xs ys : List N}
    (ring : Ring links head (xs ++ x :: ys)) : Ring (listDel links x) head (xs ++ ys) := by
  obtain ⟨seg, nodup⟩ := ring
  obtain ⟨outside, inner⟩ := List.nodup_cons.mp nodup
  refine ⟨seg_list_del seg nodup outside, ?_⟩
  rw [List.nodup_cons]
  refine ⟨fun member => outside ?_, ?_⟩
  · rcases List.mem_append.mp member with left | right
    · simp [left]
    · simp [right]
  · exact (List.nodup_middle.mp inner).of_cons

/-- Unlinking the node of an element of a list that is laid out as a ring. -/
theorem ring_list_del_erase {A : Type*} [DecidableEq A] {links : Links N} {head : N} {node : A → N}
    {list : List A} {x : A} (ring : Ring links head (list.map node)) (member : x ∈ list) :
    Ring (listDel links (node x)) head ((list.erase x).map node) := by
  have nodup : list.Nodup := (List.nodup_cons.mp ring.nodup).2.of_map _
  obtain ⟨xs, ys, split⟩ := List.append_of_mem member
  have outside : x ∉ xs := by
    rw [split] at nodup
    intro inside
    exact (List.nodup_append.mp nodup).2.2 x inside x List.mem_cons_self rfl
  rw [split, List.map_append, List.map_cons] at ring
  rw [split, List.erase_append_right _ outside, List.erase_cons_head, List.map_append]
  exact ring_list_del ring

theorem list_del_unlinked (links : Links N) (element : N) :
    (listDel links element).next element = none ∧ (listDel links element).prev element = none := by
  simp [listDel]

/-! ## What an operation leaves alone -/

/-- Nodes that are neither added nor on the list keep their links. -/
theorem list_add_frame {links : Links N} {head element node : N} {nodes : List N}
    (ring : Ring links head nodes) (outside : node ∉ head :: nodes) (other : node ≠ element) :
    (listAdd links element head).next node = links.next node ∧
      (listAdd links element head).prev node = links.prev node := by
  obtain ⟨after, member, eq⟩ := ring_next_mem ring (List.mem_cons_self ..)
  have notHead : node ≠ head := fun same => outside (by simp [same])
  have notAfter : node ≠ after := fun same => outside (same ▸ member)
  unfold listAdd
  rw [eq]
  simp [insert_between_next, insert_between_prev, notHead, notAfter, other]

theorem list_add_tail_frame {links : Links N} {head element node : N} {nodes : List N}
    (ring : Ring links head nodes) (outside : node ∉ head :: nodes) (other : node ≠ element) :
    (listAddTail links element head).next node = links.next node ∧
      (listAddTail links element head).prev node = links.prev node := by
  obtain ⟨before, member, eq⟩ := ring_prev_mem ring (List.mem_cons_self ..)
  have notHead : node ≠ head := fun same => outside (by simp [same])
  have notBefore : node ≠ before := fun same => outside (same ▸ member)
  unfold listAddTail
  rw [eq]
  simp [insert_between_next, insert_between_prev, notHead, notBefore, other]

theorem list_del_frame {links : Links N} {head element node : N} {nodes : List N}
    (ring : Ring links head nodes) (linked : element ∈ nodes) (outside : node ∉ head :: nodes) :
    (listDel links element).next node = links.next node ∧
      (listDel links element).prev node = links.prev node := by
  have member : element ∈ head :: nodes := List.mem_cons_of_mem _ linked
  obtain ⟨before, beforeMember, prevEq⟩ := ring_prev_mem ring member
  obtain ⟨after, afterMember, nextEq⟩ := ring_next_mem ring member
  have notBefore : node ≠ before := fun same => outside (same ▸ beforeMember)
  have notAfter : node ≠ after := fun same => outside (same ▸ afterMember)
  have notElement : node ≠ element := fun same => outside (same ▸ member)
  simp [list_del_next prevEq, list_del_prev nextEq, notBefore, notAfter, notElement]

/-! ## Moving a whole list to another head -/

omit [DecidableEq N] in
/-- Any node of a ring can be its head. -/
theorem ring_rotate {links : Links N} {a x : N} {xs : List N} :
    Ring links a (x :: xs) ↔ Ring links x (xs ++ [a]) := by
  have perm : (a :: x :: xs).Perm (x :: (xs ++ [a])) := by
    rw [← List.cons_append]
    exact (List.perm_append_singleton a (x :: xs)).symm
  constructor
  · rintro ⟨seg, nodup⟩
    refine ⟨?_, perm.nodup_iff.mp nodup⟩
    rw [seg_append]
    exact ⟨seg.2.2, seg.1, seg.2.1⟩
  · rintro ⟨seg, nodup⟩
    rw [seg_append] at seg
    exact ⟨⟨seg.2.1, seg.2.2, seg.1⟩, perm.nodup_iff.mpr nodup⟩

theorem head_init_frame (links : Links N) {head node : N} (other : node ≠ head) :
    (listHeadInit links head).next node = links.next node ∧
      (listHeadInit links head).prev node = links.prev node := by
  simp [listHeadInit, other]

/-- Without its head a list is a ring of its own. -/
theorem ring_leave {links : Links N} {head x : N} {xs : List N}
    (ring : Ring links head (x :: xs)) : Ring (listDelInit links head) x xs := by
  have alone := (List.nodup_cons.mp ring.nodup).1
  have removed : Ring (listDel links head) x (xs ++ []) := ring_list_del (ring_rotate.mp ring)
  rw [List.append_nil] at removed
  apply ring_congr _ removed
  intro node member
  apply head_init_frame
  rintro rfl
  exact alone member

/-- The head leaves its list and another node takes its place. -/
theorem ring_take_over {links : Links N} {head fresh x : N} {xs : List N}
    (ring : Ring links head (x :: xs)) (outside : fresh ∉ head :: x :: xs) :
    Ring (listAddTail (listDelInit links head) fresh x) fresh (x :: xs) ∧
      Ring (listAddTail (listDelInit links head) fresh x) head [] := by
  have alone := (List.nodup_cons.mp ring.nodup).1
  have left := ring_leave ring
  have freshList : fresh ∉ x :: xs := fun member => outside (List.mem_cons_of_mem _ member)
  constructor
  · rw [ring_rotate]
    exact ring_list_add_tail left freshList
  · apply ring_congr _ (ring_head_init (listDel links head) head)
    intro node member
    rw [List.mem_singleton.mp member]
    apply list_add_tail_frame left alone
    rintro rfl
    exact outside (List.mem_cons_self ..)

/-- Nodes outside the list keep their links when it is taken over. -/
theorem take_over_frame {links : Links N} {head fresh x node : N} {xs : List N}
    (ring : Ring links head (x :: xs)) (outside : node ∉ head :: x :: xs) (other : node ≠ fresh) :
    (listAddTail (listDelInit links head) fresh x).next node = links.next node ∧
      (listAddTail (listDelInit links head) fresh x).prev node = links.prev node := by
  have away : node ∉ x :: xs := fun member => outside (List.mem_cons_of_mem _ member)
  have apart : node ≠ head := by
    rintro rfl
    exact outside (List.mem_cons_self ..)
  have added := list_add_tail_frame (ring_leave ring) away other
  have initialised := head_init_frame (listDel links head) apart
  have deleted : (listDel links head).next node = links.next node ∧
      (listDel links head).prev node = links.prev node := by
    apply list_del_frame (ring_rotate.mp ring) (by simp)
    simpa [or_comm, or_left_comm] using outside
  exact ⟨added.1.trans (initialised.1.trans deleted.1), added.2.trans (initialised.2.trans deleted.2)⟩

omit [DecidableEq N] in
theorem ring_rotate_to {links : Links N} {head y : N} {xs ys : List N} :
    Ring links head (xs ++ y :: ys) ↔ Ring links y (ys ++ head :: xs) := by
  have nodes : (head :: (xs ++ y :: ys)).Perm (y :: (ys ++ head :: xs)) := by
    have swapped : ((head :: xs) ++ (y :: ys)).Perm ((y :: ys) ++ (head :: xs)) :=
      List.perm_append_comm
    exact swapped
  constructor
  · rintro ⟨seg, nodup⟩
    obtain ⟨front, back⟩ := (seg_append links head y head xs ys).mp seg
    exact ⟨(seg_append links y head y ys xs).mpr ⟨back, front⟩, nodes.nodup_iff.mp nodup⟩
  · rintro ⟨seg, nodup⟩
    obtain ⟨back, front⟩ := (seg_append links y head y ys xs).mp seg
    exact ⟨(seg_append links head y head xs ys).mpr ⟨front, back⟩, nodes.nodup_iff.mpr nodup⟩

/-- `list_add_tail` on a node of the list adds in front of this node. -/
theorem ring_insert_before {links : Links N} {head y element : N} {xs ys : List N}
    (ring : Ring links head (xs ++ y :: ys)) (fresh : element ∉ head :: (xs ++ y :: ys)) :
    Ring (listAddTail links element y) head (xs ++ element :: y :: ys) := by
  have turned := ring_list_add_tail (ring_rotate_to.mp ring) (by
    intro member
    apply fresh
    simp only [List.mem_cons, List.mem_append] at member ⊢
    tauto)
  have back := @ring_rotate_to N (listAddTail links element y) head y (xs ++ [element]) ys
  rw [List.append_assoc, List.cons_append] at turned
  simpa using back.mpr turned

omit [DecidableEq N] in
/-- What follows a node of the ring: the next node or the head. -/
theorem ring_next {links : Links N} {head x : N} {xs ys : List N}
    (ring : Ring links head (xs ++ x :: ys)) : links.next x = some (ys.headD head) := by
  obtain ⟨_, back⟩ := (seg_append links head x head xs ys).mp ring.seg
  cases ys with
  | nil => exact back.1
  | cons y rest => exact back.1

omit [DecidableEq N] in
theorem ring_first {links : Links N} {head : N} {nodes : List N} (ring : Ring links head nodes) :
    links.next head = some (nodes.headD head) := by
  cases nodes with
  | nil => exact ring.seg.1
  | cons x rest => exact ring.seg.1

/-! ## Walking a list -/

/-- `list_for_each` that stops at the first node that passes the test. -/
def findFrom (links : Links N) (head : N) (test : N → Bool) : Nat → Option N → Option N
  | 0, _ => none
  | _ + 1, none => none
  | fuel + 1, some node =>
      if node = head then none
      else if test node then some node
      else findFrom links head test fuel (links.next node)

theorem seg_find {links : Links N} {head a : N} {nodes : List N} (test : N → Bool) (fuel : Nat)
    (seg : Seg links a nodes head) (outside : head ∉ nodes) (enough : nodes.length < fuel) :
    findFrom links head test fuel (links.next a) = nodes.find? test := by
  induction nodes generalizing a fuel with
  | nil =>
      obtain ⟨fuel, rfl⟩ := Nat.exists_eq_succ_of_ne_zero (Nat.pos_iff_ne_zero.mp enough)
      rw [seg.1]
      simp [findFrom]
  | cons x xs ih =>
      obtain ⟨fuel, rfl⟩ : ∃ rest, fuel = rest + 1 := ⟨fuel - 1, by simp at enough; omega⟩
      obtain ⟨forward, _, rest⟩ := seg
      have apart : x ≠ head := by
        rintro rfl
        exact outside (by simp)
      have later := ih fuel rest (fun member => outside (List.mem_cons_of_mem _ member))
        (by simpa using enough)
      rw [forward, findFrom, if_neg apart, List.find?_cons, later]
      cases test x <;> rfl

theorem ring_find {links : Links N} {head : N} {nodes : List N} (ring : Ring links head nodes)
    (test : N → Bool) (fuel : Nat) (enough : nodes.length < fuel) :
    findFrom links head test fuel (links.next head) = nodes.find? test :=
  seg_find test fuel ring.seg (List.nodup_cons.mp ring.nodup).1 enough

end MirOs.DList
