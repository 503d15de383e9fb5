import MirOs.DList
import MirOs.StableOrder
import MirOs.Reachability
import Mathlib.Data.Fintype.Card

/-!
# The timer list

`kernel/timer.c` on the links of `dlist.h`. A round of the loop of `run_timer` ends
where it calls a handler; what the handler does are calls of their own, and the next
round goes on from the saved successor. Interrupts are off in between, so nothing but
the handler acts.
-/

namespace MirOs.TimerList

set_option autoImplicit false

open MirOs.DList MirOs.StableOrder MirOs.Reachability

def maxTimeout : BitVec 32 := ~~~0#32 >>> 1

/-- `struct timer_list` without its links; a null handler is zero, and `compare` tells
whether the pointer is set. -/
structure Timer where
  timeout : BitVec 32
  handler : BitVec 32
  arg : BitVec 32
  compare : Bool
  deriving DecidableEq, Repr

structure Call (N : Type*) where
  timer : N
  handler : BitVec 32
  arg : BitVec 32
  deriving DecidableEq, Repr

/-- `traverse` is the node the loop of a `run_timer` in progress is about to test, and
`calls` the handlers the last run has called. -/
structure Timers (N : Type*) where
  links : Links N
  timers : N → Timer
  jiffies : BitVec 32
  traverse : Option (Option N)
  inHandler : Bool
  calls : List (Call N)

variable {N : Type*} [DecidableEq N]

def timerCompare (a b : Timer) : Int := (a.timeout - b.timeout).toInt

/-- The loop of `list_sort_add`: the node to add in front of. -/
def sortPlace (s : Timers N) (head : N) (element : Timer) : Nat → Option N → Option N
  | 0, _ => none
  | _ + 1, none => none
  | fuel + 1, some tmp =>
      if tmp = head then some head
      else if (s.timers tmp).compare ∧ timerCompare element (s.timers tmp) < 0 then some tmp
      else sortPlace s head element fuel (s.links.next tmp)

def setTimer (s : Timers N) (timer : N) (value : Timer) : Timers N :=
  { s with timers := Function.update s.timers timer value }

variable [Fintype N]

def listSortAdd (s : Timers N) (head element : N) : Option (Timers N) :=
  (sortPlace s head (s.timers element) (Fintype.card N + 1) (s.links.next head)).map fun place =>
    { s with links := listAddTail s.links element place }

/-- `__add_timer`; nothing if its loop does not end. -/
def addTimer (s : Timers N) (head timer : N) : Option (Int × Timers N) :=
  if (s.timers timer).timeout > maxTimeout then some (-1, s)
  else if (s.timers timer).compare then (listSortAdd s head timer).map fun s => (0, s)
  else some (-1, s)

def setupTimer (s : Timers N) (head timer : N) (timeout handler arg : BitVec 32) :
    Option (Int × Timers N) :=
  addTimer (setTimer s timer { s.timers timer with
    timeout := timeout
    handler := handler
    arg := arg }) head timer

def delTimer (s : Timers N) (timer : N) : Timers N := { s with links := listDel s.links timer }

/-- One round of the loop of `run_timer`, up to the handler if it calls one. -/
def round (s : Timers N) (head : N) : Option (Timers N) :=
  match s.traverse with
  | none | some none => none
  | some (some traverse) =>
      if traverse = head then some { s with traverse := none, inHandler := false }
      else
        let timer := s.timers traverse
        let next := s.links.next traverse
        if timer.timeout ≤ s.jiffies then
          let s := delTimer s traverse
          if timer.handler ≠ 0 then
            some { s with
              traverse := some next
              inHandler := true
              calls := s.calls ++ [⟨traverse, timer.handler, timer.arg⟩] }
          else some { s with traverse := some next, inHandler := false }
        else some { s with traverse := some next, inHandler := false }

/-- `store` is anything that writes the memory of a timer: `init_timer`, the fields set
by hand, the timer freed and its memory used again. -/
inductive TimerEvent (N : Type*) where
  | store (timer : N) (value : Timer) (next prev : Option N)
  | setupTimer (timer : N) (timeout handler arg : BitVec 32)
  | addTimer (timer : N)
  | delTimer (timer : N)
  | runTimer (jiffies : BitVec 32)
  | round

/-- A run takes its rounds, and calls come from its handlers or between runs. -/
def ready (s : Timers N) : TimerEvent N → Bool
  | .runTimer _ => s.traverse.isNone
  | .round => s.traverse.isSome
  | _ => s.traverse.isNone || s.inHandler

def perform (head : N) (s : Timers N) : TimerEvent N → Option (Timers N)
  | .store timer value next prev =>
      some { setTimer s timer value with
        links := (s.links.setNext (some timer) next).setPrev (some timer) prev }
  | .setupTimer timer timeout handler arg =>
      (setupTimer s head timer timeout handler arg).map Prod.snd
  | .addTimer timer => (addTimer s head timer).map Prod.snd
  | .delTimer timer => some (delTimer s timer)
  | .runTimer jiffies =>
      some { s with
        jiffies := jiffies
        traverse := some (s.links.next head)
        inHandler := false
        calls := [] }
  | .round => round s head

def timerStep (head : N) (s : Timers N) (event : TimerEvent N) : Option (Timers N) :=
  if ready s event then perform head s event else none

/-- The list after `DECLARE_LIST_HEAD`, whatever is in memory. -/
def noTimers (head : N) (links : Links N) (timers : N → Timer) (jiffies : BitVec 32) : Timers N where
  links := listHeadInit links head
  timers := timers
  jiffies := jiffies
  traverse := none
  inHandler := false
  calls := []

def accepted (timer : Timer) : Bool := decide (timer.timeout ≤ maxTimeout) && timer.compare

/-! ## Sorted insertion -/

abbrev key (timers : N → Timer) (timer : N) : Nat := (timers timer).timeout.toNat

omit [DecidableEq N] [Fintype N] in
/-- Between timeouts that are in range the signed difference compares. -/
theorem compare_neg {a b : Timer} (first : a.timeout ≤ maxTimeout) (second : b.timeout ≤ maxTimeout) :
    timerCompare a b < 0 ↔ a.timeout.toNat < b.timeout.toNat := by
  have bound : maxTimeout.toNat = 2 ^ 31 - 1 := by decide
  rw [BitVec.le_def, bound] at first second
  unfold timerCompare
  rw [BitVec.toInt_sub, BitVec.toInt_eq_toNat_of_lt (by omega),
    BitVec.toInt_eq_toNat_of_lt (by omega), Int.bmod_eq_of_le (by omega) (by omega)]
  omega

omit [Fintype N] in
theorem sort_place_seg (s : Timers N) (head : N) (element : Timer) {a : N} {nodes : List N}
    (greater : N → Bool) (fuel : Nat) (seg : Seg s.links a nodes head) (outside : head ∉ nodes)
    (agree : ∀ tmp ∈ nodes, (s.timers tmp).compare = true ∧
      (timerCompare element (s.timers tmp) < 0 ↔ greater tmp = true))
    (enough : nodes.length < fuel) :
    sortPlace s head element fuel (s.links.next a) = some ((nodes.find? greater).getD head) := by
  induction nodes generalizing a fuel with
  | nil =>
      obtain ⟨fuel, rfl⟩ := Nat.exists_eq_succ_of_ne_zero (Nat.pos_iff_ne_zero.mp enough)
      rw [seg.1]
      simp [sortPlace]
  | cons x xs ih =>
      obtain ⟨fuel, rfl⟩ : ∃ rest, fuel = rest + 1 := ⟨fuel - 1, by simp at enough; omega⟩
      obtain ⟨forward, _, rest⟩ := seg
      have apart : x ≠ head := by
        rintro rfl
        exact outside (by simp)
      have later := ih fuel rest (fun member => outside (List.mem_cons_of_mem _ member))
        (fun tmp member => agree tmp (List.mem_cons_of_mem _ member)) (by simpa using enough)
      obtain ⟨compare, test⟩ := agree x (List.mem_cons_self ..)
      rw [forward, sortPlace, if_neg apart, List.find?_cons, later]
      cases here : greater x with
      | true => rw [if_pos ⟨compare, test.mpr here⟩]; rfl
      | false =>
          rw [if_neg]
          rintro ⟨_, less⟩
          rw [test, here] at less
          cases less

omit [Fintype N] in
/-- The list is sorted in where the first greater key is. -/
theorem ring_insert_sorted {links : Links N} {head element : N} {nodes : List N} (rank : N → Nat)
    (ring : Ring links head nodes) (fresh : element ∉ head :: nodes) :
    Ring (listAddTail links element
      ((nodes.find? fun tmp => rank element < rank tmp).getD head)) head
      (insertSorted rank element nodes) := by
  cases found : nodes.find? fun tmp => rank element < rank tmp with
  | none =>
      have all : ∀ tmp ∈ nodes, ¬ rank element < rank tmp := by
        simpa using List.find?_eq_none.mp found
      have inserted := insert_sorted_append rank element [] all
      rw [List.append_nil] at inserted
      rw [inserted]
      exact ring_list_add_tail ring fresh
  | some y =>
      obtain ⟨greater, xs, ys, rfl, all⟩ := List.find?_eq_some_iff_append.mp found
      rw [insert_sorted_append rank element (y :: ys) (by simpa using all),
        insert_sorted_before rank ys (by simpa using greater)]
      exact ring_insert_before ring fresh

theorem list_sort_add_ring {s : Timers N} {head element : N} {nodes : List N}
    (ring : Ring s.links head nodes) (fresh : element ∉ head :: nodes)
    (range : ∀ tmp ∈ nodes, accepted (s.timers tmp) = true)
    (small : (s.timers element).timeout ≤ maxTimeout) :
    ∃ links, listSortAdd s head element = some { s with links := links } ∧
      Ring links head (insertSorted (key s.timers) element nodes) := by
  obtain ⟨outside, inner⟩ := List.nodup_cons.mp ring.nodup
  have enough : nodes.length < Fintype.card N + 1 := by
    have fits := inner.length_le_card
    omega
  have agree : ∀ tmp ∈ nodes, (s.timers tmp).compare = true ∧
      (timerCompare (s.timers element) (s.timers tmp) < 0 ↔
        decide (key s.timers element < key s.timers tmp) = true) := by
    intro tmp member
    obtain ⟨low, compare⟩ := Bool.and_eq_true_iff.mp (range tmp member)
    rw [decide_eq_true_iff]
    exact ⟨compare, compare_neg small (of_decide_eq_true low)⟩
  unfold listSortAdd
  rw [sort_place_seg s head (s.timers element) _ _ ring.seg outside agree enough]
  exact ⟨_, rfl, ring_insert_sorted (key s.timers) ring fresh⟩

theorem add_timer_ring {s : Timers N} {head timer : N} {nodes : List N}
    (ring : Ring s.links head nodes) (fresh : timer ∉ head :: nodes)
    (range : ∀ tmp ∈ nodes, accepted (s.timers tmp) = true) :
    ∃ links, (addTimer s head timer).map Prod.snd = some { s with links := links } ∧
      Ring links head (if accepted (s.timers timer) then
        insertSorted (key s.timers) timer nodes else nodes) := by
  unfold addTimer accepted
  by_cases small : (s.timers timer).timeout ≤ maxTimeout
  · rw [if_neg (BitVec.not_lt.mpr small)]
    cases compare : (s.timers timer).compare with
    | true =>
        obtain ⟨links, added, ring'⟩ := list_sort_add_ring ring fresh range small
        refine ⟨links, ?_, ?_⟩
        · rw [if_pos rfl, added]
          rfl
        · simpa [small] using ring'
    | false => exact ⟨s.links, rfl, by simpa using ring⟩
  · rw [if_pos (BitVec.not_le.mp small)]
    exact ⟨s.links, rfl, by simpa [small] using ring⟩

end MirOs.TimerList
