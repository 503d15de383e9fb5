import MirOs.TimerList
import Mathlib.Data.Fintype.Option

/-!
# Runs of the timer list

The timers pending are kept in a book beside the list: added at the end when they are
accepted, struck out when they are deleted or expire. The list is the stable order of
the book by timeouts, and a run of the timers makes the calls the book expects of it.
-/

namespace MirOs.TimerList

set_option autoImplicit false

open MirOs.DList MirOs.StableOrder MirOs.Reachability

variable {N : Type*} [DecidableEq N] [Fintype N]

/-! ## What the list should hold -/

/-- The timers pending, in the order they were added; those a run in progress has yet
to expire; and the calls the last run has to make, in order. -/
structure Book (N : Type*) where
  pending : List N
  due : List N
  expected : List (Call N)

def callOf (timers : N → Timer) (timer : N) : Option (Call N) :=
  if (timers timer).handler = 0 then none
  else some { timer := timer, handler := (timers timer).handler, arg := (timers timer).arg }

def expired (timers : N → Timer) (jiffies : BitVec 32) (timer : N) : Bool :=
  decide ((timers timer).timeout.toNat ≤ jiffies.toNat)

/-- A run expires exactly the timers that are due, in the order of the list. -/
def bookStep (s : Timers N) (book : Book N) : TimerEvent N → Book N
  | .store .. => book
  | .setupTimer timer timeout .. =>
      if accepted { s.timers timer with timeout := timeout } then
        { book with pending := book.pending ++ [timer] }
      else book
  | .addTimer timer =>
      if accepted (s.timers timer) then { book with pending := book.pending ++ [timer] } else book
  | .delTimer timer => { book with pending := book.pending.erase timer }
  | .runTimer jiffies =>
      let due := (sortedBy (fun timer => (s.timers timer).timeout.toNat) book.pending).filter
        (expired s.timers jiffies)
      { pending := book.pending.filter fun timer => !expired s.timers jiffies timer
        due := due
        expected := due.filterMap (callOf s.timers) }
  | .round => { book with due := book.due.tail }

def trackedStep (head : N) (state : Timers N × Book N) (event : TimerEvent N) :
    Option (Timers N × Book N) :=
  (timerStep head state.1 event).map fun s => (s, bookStep state.1 state.2 event)

/-- Only timers that are not on the list are written and added, by a handler only to
expire later; only pending ones are deleted, and none by a handler. -/
def Careful (head : N) (state : Timers N × Book N) : TimerEvent N → Prop
  | .store timer .. => timer ∉ head :: (state.2.due ++ state.2.pending)
  | .setupTimer timer timeout .. => timer ∉ head :: (state.2.due ++ state.2.pending) ∧
      (state.1.inHandler = true → state.1.jiffies.toNat < timeout.toNat)
  | .addTimer timer => timer ∉ head :: (state.2.due ++ state.2.pending) ∧
      (state.1.inHandler = true → state.1.jiffies.toNat < (state.1.timers timer).timeout.toNat)
  | .delTimer timer => timer ∈ state.2.pending ∧ state.1.inHandler = false
  | .runTimer _ => True
  | .round => True

/-! ## The invariant -/

structure TimersOk (head : N) (s : Timers N) (book : Book N) (later : List N) : Prop where
  order : StablySorted (key s.timers) book.pending later
  ring : Ring s.links head (book.due ++ later)
  range : ∀ timer ∈ book.due ++ later, accepted (s.timers timer) = true
  overdue : ∀ timer ∈ book.due, key s.timers timer ≤ s.jiffies.toNat
  ahead : s.traverse ≠ none → ∀ timer ∈ later, s.jiffies.toNat < key s.timers timer
  idle : s.traverse = none → book.due = [] ∧ s.inHandler = false
  calls : s.calls ++ book.due.filterMap (callOf s.timers) = book.expected
  place : ∀ p, s.traverse = some p → ∃ front back, later = front ++ back ∧
    p = some ((book.due ++ back).headD head)

omit [DecidableEq N] [Fintype N] in
theorem ok_mem {head : N} {s : Timers N} {book : Book N} {later : List N}
    (ok : TimersOk head s book later) {timer : N} :
    timer ∈ head :: (book.due ++ book.pending) ↔ timer ∈ head :: (book.due ++ later) := by
  simp only [List.mem_cons, List.mem_append, stable_mem ok.order]

omit [DecidableEq N] [Fintype N] in
/-- What happens outside the list leaves it as it is. -/
theorem ok_outside {head : N} {s s' : Timers N} {book : Book N} {later : List N}
    (ok : TimersOk head s book later) (ring : Ring s'.links head (book.due ++ later))
    (timers : ∀ timer ∈ book.due ++ later, s'.timers timer = s.timers timer)
    (jiffies : s'.jiffies = s.jiffies) (traverse : s'.traverse = s.traverse)
    (inHandler : s'.inHandler = s.inHandler) (calls : s'.calls = s.calls) :
    TimersOk head s' book later := by
  have dueSame : ∀ timer ∈ book.due, s'.timers timer = s.timers timer :=
    fun timer member => timers timer (List.mem_append_left _ member)
  have laterSame : ∀ timer ∈ later, s'.timers timer = s.timers timer :=
    fun timer member => timers timer (List.mem_append_right _ member)
  refine ⟨?_, ring, ?_, ?_, ?_, ?_, ?_, ?_⟩
  · refine stable_congr ok.order ?_
    intro timer member
    unfold key
    rw [laterSame timer ((stable_mem ok.order).mpr member)]
  · intro timer member
    rw [timers timer member]
    exact ok.range timer member
  · intro timer member
    unfold key
    rw [dueSame timer member, jiffies]
    exact ok.overdue timer member
  · intro active timer member
    unfold key
    rw [laterSame timer member, jiffies]
    exact ok.ahead (traverse ▸ active) timer member
  · rw [traverse, inHandler]
    exact ok.idle
  · have same : book.due.filterMap (callOf s'.timers) = book.due.filterMap (callOf s.timers) := by
      refine List.filterMap_congr ?_
      intro timer member
      unfold callOf
      rw [dueSame timer member]
    rw [calls, same]
    exact ok.calls
  · rw [traverse]
    exact ok.place

omit [DecidableEq N] [Fintype N] in
/-- An insertion into the sorted list leaves the walk where it was. -/
theorem insert_keeps_place (rank : N → Nat) (timer head : N) (front back : List N) :
    ∃ front' back', insertSorted rank timer (front ++ back) = front' ++ back' ∧
      back'.headD head = back.headD head := by
  induction front with
  | nil =>
      cases back with
      | nil => exact ⟨[timer], [], rfl, rfl⟩
      | cons y ys =>
          by_cases before : rank timer < rank y
          · exact ⟨[timer], y :: ys, insert_sorted_before rank ys before, rfl⟩
          · refine ⟨[], y :: insertSorted rank timer ys, ?_, rfl⟩
            exact @insert_sorted_append N Nat _ rank timer [y] ys (by simpa using before)
  | cons x xs ih =>
      by_cases before : rank timer < rank x
      · exact ⟨timer :: x :: xs, back, insert_sorted_before rank (xs ++ back) before, rfl⟩
      · obtain ⟨front', back', split, head_⟩ := ih
        refine ⟨x :: front', back', ?_, head_⟩
        have skipped := @insert_sorted_append N Nat _ rank timer [x] (xs ++ back)
          (by simpa using before)
        rw [List.cons_append, List.cons_append, ← split]
        exact skipped

/-! ## The calls -/

theorem add_ok {head timer : N} {s : Timers N} {book : Book N} {later : List N}
    (ok : TimersOk head s book later) (fresh : timer ∉ head :: (book.due ++ book.pending))
    (allowed : s.traverse = none ∨ s.inHandler = true)
    (future : s.inHandler = true → s.jiffies.toNat < key s.timers timer) :
    ∃ s', (addTimer s head timer).map Prod.snd = some s' ∧ ∃ later', TimersOk head s'
      (if accepted (s.timers timer) then { book with pending := book.pending ++ [timer] }
        else book) later' := by
  have outside : timer ∉ head :: (book.due ++ later) := fun member => fresh ((ok_mem ok).mpr member)
  obtain ⟨links, added, ring⟩ := add_timer_ring ok.ring outside ok.range
  refine ⟨_, added, ?_⟩
  cases taken : accepted (s.timers timer) with
  | false =>
      rw [taken] at ring
      exact ⟨later, ok_outside ok ring (fun _ _ => rfl) rfl rfl rfl rfl⟩
  | true =>
      rw [taken, if_pos rfl] at ring
      rw [if_pos rfl]
      have skip : ∀ due ∈ book.due, ¬ key s.timers timer < key s.timers due := by
        intro due member
        have reached := ok.overdue due member
        rcases allowed with idle | inside
        · rw [(ok.idle idle).1] at member
          cases member
        · have beyond := future inside
          omega
      rw [insert_sorted_append _ _ _ skip] at ring
      have order := insert_sorted_stable ok.order timer
      have members : ∀ node, node ∈ insertSorted (key s.timers) timer later ↔
          node = timer ∨ node ∈ later := by
        intro node
        rw [stable_mem order, List.mem_append, List.mem_singleton, stable_mem ok.order, or_comm]
      refine ⟨_, order, ring, ?_, ok.overdue, ?_, ok.idle, ok.calls, ?_⟩
      · intro node member
        rcases List.mem_append.mp member with due | sorted
        · exact ok.range node (List.mem_append_left _ due)
        · rcases (members node).mp sorted with rfl | old
          · exact taken
          · exact ok.range node (List.mem_append_right _ old)
      · intro active node member
        rcases (members node).mp member with rfl | old
        · rcases allowed with idle | inside
          · exact absurd idle active
          · exact future inside
        · exact ok.ahead active node old
      · intro p walking
        obtain ⟨front, back, rfl, place⟩ := ok.place p walking
        obtain ⟨front', back', split, same⟩ :=
          insert_keeps_place (key s.timers) timer head front back
        refine ⟨front', back', split, ?_⟩
        rw [place]
        cases book.due with
        | nil => rw [List.nil_append, List.nil_append, same]
        | cons due rest => rfl

omit [Fintype N] in
theorem delete_ok {head timer : N} {s : Timers N} {book : Book N} {later : List N}
    (ok : TimersOk head s book later) (pending : timer ∈ book.pending)
    (idle : s.traverse = none) :
    TimersOk head (delTimer s timer) { book with pending := book.pending.erase timer }
      (later.filter (· ≠ timer)) := by
  obtain ⟨noDue, _⟩ := ok.idle idle
  have ring := ok.ring
  rw [noDue, List.nil_append] at ring
  have nodup := (List.nodup_cons.mp ring.nodup).2
  obtain ⟨xs, ys, split⟩ := List.append_of_mem ((stable_mem ok.order).mpr pending)
  have removed : later.filter (· ≠ timer) = xs ++ ys := by
    rw [split] at nodup ⊢
    have apart := (List.nodup_cons.mp (List.nodup_middle.mp nodup)).1
    rw [List.filter_append, List.filter_cons_of_neg (by simp)]
    congr 1
    · rw [List.filter_eq_self]
      intro node member
      have other : node ≠ timer := by
        rintro rfl
        exact apart (List.mem_append_left _ member)
      simpa using other
    · rw [List.filter_eq_self]
      intro node member
      have other : node ≠ timer := by
        rintro rfl
        exact apart (List.mem_append_right _ member)
      simpa using other
  have erased : book.pending.erase timer = book.pending.filter (· ≠ timer) := by
    rw [((stable_perm ok.order).nodup_iff.mp nodup).erase_eq_filter]
    refine List.filter_congr ?_
    intro node _
    by_cases same : node = timer <;> simp [same]
  have deleted : Ring (listDel s.links timer) head (xs ++ ys) := ring_list_del (split ▸ ring)
  refine ⟨?_, ?_, ?_, ok.overdue, ?_, ok.idle, ok.calls, ?_⟩
  · rw [erased]
    exact stable_filter ok.order _
  · rw [noDue, List.nil_append, removed]
    exact deleted
  · intro node member
    rw [noDue, List.nil_append] at member
    exact ok.range node (List.mem_append_right _ (List.mem_filter.mp member).1)
  · intro active
    exact absurd idle active
  · intro p walking
    rw [delTimer, idle] at walking
    cases walking

omit [Fintype N] in
theorem store_ok {head timer : N} {s : Timers N} {book : Book N} {later : List N}
    (ok : TimersOk head s book later) (fresh : timer ∉ head :: (book.due ++ book.pending))
    (value : Timer) (next prev : Option N) :
    TimersOk head { setTimer s timer value with
      links := (s.links.setNext (some timer) next).setPrev (some timer) prev } book later := by
  have outside : timer ∉ head :: (book.due ++ later) := fun member => fresh ((ok_mem ok).mpr member)
  have other : ∀ node ∈ head :: (book.due ++ later), node ≠ timer := by
    rintro node member rfl
    exact outside member
  refine ok_outside ok ?_ ?_ rfl rfl rfl rfl
  · refine ring_congr ?_ ok.ring
    intro node member
    simp [Links.setNext, Links.setPrev, other node member]
  · intro node member
    exact Function.update_of_ne (other node (List.mem_cons_of_mem _ member)) ..

omit [Fintype N] in
theorem run_timer_ok {head : N} {s : Timers N} {book : Book N} {later : List N}
    (ok : TimersOk head s book later) (idle : s.traverse = none) (jiffies : BitVec 32) :
    TimersOk head { s with
        jiffies := jiffies
        traverse := some (s.links.next head)
        inHandler := false
        calls := [] } (bookStep s book (.runTimer jiffies))
      (later.filter fun timer => !expired s.timers jiffies timer) := by
  have noDue := (ok.idle idle).1
  have ring := ok.ring
  rw [noDue, List.nil_append] at ring
  have list := stable_unique (sorted_by_stable (key s.timers) book.pending) ok.order
  have split : later = later.filter (expired s.timers jiffies) ++
      later.filter fun timer => !expired s.timers jiffies timer :=
    stable_split ok.order jiffies.toNat
  have due : (bookStep s book (.runTimer jiffies)).due = later.filter (expired s.timers jiffies) := by
    rw [← list]
    rfl
  refine ⟨stable_filter ok.order _, ?_, ?_, ?_, ?_, ?_, rfl, ?_⟩
  · rw [due, ← split]
    exact ring
  · intro timer member
    rw [due, ← split] at member
    exact ok.range timer (List.mem_append_right _ member)
  · intro timer member
    rw [due] at member
    exact of_decide_eq_true (List.mem_filter.mp member).2
  · intro _ timer member
    have beyond := (List.mem_filter.mp member).2
    unfold expired at beyond
    simpa using beyond
  · intro stopped
    cases stopped
  · intro p walking
    cases walking
    refine ⟨[], _, rfl, ?_⟩
    rw [due, ← split]
    exact ring_first ring

omit [Fintype N] in
/-- A timer that is due is taken off the list and its handler called. -/
theorem round_due {head timer : N} {s : Timers N} {book : Book N} {later rest : List N}
    (ok : TimersOk head s book later) (active : s.traverse ≠ none)
    (due : book.due = timer :: rest) :
    ∃ s', round s head = some s' ∧ s'.traverse ≠ none ∧
      TimersOk head s' { book with due := rest } later := by
  obtain ⟨p, walking⟩ := Option.ne_none_iff_exists'.mp active
  obtain ⟨front, back, split, rfl⟩ := ok.place p walking
  have ring := ok.ring
  rw [due, List.cons_append] at ring
  rw [due, List.cons_append, List.headD_cons] at walking
  have apart : timer ≠ head := by
    have outside := (List.nodup_cons.mp ring.nodup).1
    rintro rfl
    exact outside (List.mem_cons_self ..)
  have reached : (s.timers timer).timeout ≤ s.jiffies :=
    BitVec.le_def.mpr (ok.overdue timer (by simp [due]))
  have next : s.links.next timer = some ((rest ++ later).headD head) :=
    @ring_next N s.links head timer [] (rest ++ later) ring
  have deleted : Ring (listDel s.links timer) head (rest ++ later) :=
    @ring_list_del N _ s.links head timer [] (rest ++ later) ring
  have calls := ok.calls
  rw [due] at calls
  have taken : ∀ (inHandler : Bool) (made : List (Call N)),
      made = (callOf s.timers timer).toList →
      TimersOk head { delTimer s timer with
        traverse := some (s.links.next timer)
        inHandler := inHandler
        calls := s.calls ++ made } { book with due := rest } later := by
    intro inHandler made madeEq
    refine ⟨ok.order, deleted, ?_, ?_, ?_, ?_, ?_, ?_⟩
    · intro node member
      exact ok.range node (by rw [due]; exact List.mem_cons_of_mem _ member)
    · intro node member
      exact ok.overdue node (by rw [due]; exact List.mem_cons_of_mem _ member)
    · intro _
      exact ok.ahead active
    · intro stopped
      cases stopped
    · dsimp only [delTimer]
      rw [← calls, madeEq, List.append_assoc]
      congr 1
      rw [List.filterMap_cons]
      cases callOf s.timers timer <;> rfl
    · intro p moved
      cases moved
      exact ⟨[], later, rfl, next⟩
  unfold round
  rw [walking]
  dsimp only
  rw [if_neg apart, if_pos reached]
  by_cases null : (s.timers timer).handler = 0
  · refine ⟨_, by rw [if_neg (not_not.mpr null)], Option.some_ne_none _, ?_⟩
    have result := taken false [] (by simp [callOf, null])
    rw [List.append_nil] at result
    exact result
  · have made : callOf s.timers timer =
        some ⟨timer, (s.timers timer).handler, (s.timers timer).arg⟩ := by
      unfold callOf
      rw [if_neg null]
    exact ⟨_, if_pos null, Option.some_ne_none _, taken true [_] (by rw [made]; rfl)⟩

omit [Fintype N] in
/-- Behind the timers that are due a round only moves on. -/
theorem round_pass {head timer : N} {s : Timers N} {book : Book N} {front back : List N}
    (ok : TimersOk head s book (front ++ timer :: back)) (due : book.due = [])
    (walking : s.traverse = some (some timer)) :
    ∃ s', round s head = some s' ∧ s'.traverse = some (some (back.headD head)) ∧
      TimersOk head s' book (front ++ timer :: back) := by
  have ring := ok.ring
  rw [due, List.nil_append] at ring
  have member : timer ∈ front ++ timer :: back := by simp
  have apart : timer ≠ head := by
    have outside := (List.nodup_cons.mp ring.nodup).1
    rintro rfl
    exact outside member
  have active : s.traverse ≠ none := by
    rw [walking]
    exact Option.some_ne_none _
  have beyond : ¬ (s.timers timer).timeout ≤ s.jiffies := by
    have ahead := ok.ahead active timer member
    rw [BitVec.le_def]
    unfold key at ahead
    omega
  have next := ring_next ring
  unfold round
  rw [walking]
  dsimp only
  rw [if_neg apart, if_neg beyond, next]
  refine ⟨_, rfl, rfl, ?_⟩
  refine ⟨ok.order, ok.ring, ok.range, ok.overdue, fun _ => ok.ahead active, ?_, ok.calls, ?_⟩
  · intro stopped
    cases stopped
  · intro p moved
    cases moved
    exact ⟨front ++ [timer], back, by simp, by rw [due, List.nil_append]⟩

omit [Fintype N] in
theorem round_end {head : N} {s : Timers N} {book : Book N} {later : List N}
    (ok : TimersOk head s book later) (due : book.due = [])
    (walking : s.traverse = some (some head)) :
    ∃ s', round s head = some s' ∧ s'.traverse = none ∧ TimersOk head s' book later := by
  unfold round
  rw [walking]
  dsimp only
  rw [if_pos rfl]
  refine ⟨_, rfl, rfl, ?_⟩
  exact ⟨ok.order, ok.ring, ok.range, ok.overdue, fun active => absurd rfl active,
    fun _ => ⟨due, rfl⟩, ok.calls, fun p walking => by cases walking⟩

omit [Fintype N] in
theorem round_ok {head : N} {s : Timers N} {book : Book N} {later : List N}
    (ok : TimersOk head s book later) (active : s.traverse ≠ none) :
    ∃ s', round s head = some s' ∧
      TimersOk head s' { book with due := book.due.tail } later := by
  obtain ⟨p, walking⟩ := Option.ne_none_iff_exists'.mp active
  obtain ⟨front, back, rfl, rfl⟩ := ok.place p walking
  cases due : book.due with
  | cons timer rest =>
      obtain ⟨s', stepped, _, ok'⟩ := round_due ok active due
      exact ⟨s', stepped, ok'⟩
  | nil =>
      have same : { book with due := [].tail } = book := by
        rw [List.tail_nil, ← due]
      rw [same]
      rw [due, List.nil_append] at walking
      cases back with
      | nil =>
          obtain ⟨s', stepped, _, ok'⟩ := round_end ok due walking
          exact ⟨s', stepped, ok'⟩
      | cons timer back =>
          obtain ⟨s', stepped, _, ok'⟩ := round_pass ok due walking
          exact ⟨s', stepped, ok'⟩

/-- A call that is allowed and ready is carried out and keeps the invariant. -/
theorem tracked_step_ok {head : N} {s : Timers N} {book : Book N} {later : List N}
    (ok : TimersOk head s book later) {event : TimerEvent N}
    (careful : Careful head (s, book) event) (now : ready s event = true) :
    ∃ s', timerStep head s event = some s' ∧
      ∃ later', TimersOk head s' (bookStep s book event) later' := by
  unfold timerStep
  rw [if_pos now]
  cases event with
  | store timer value next prev => exact ⟨_, rfl, later, store_ok ok careful value next prev⟩
  | setupTimer timer timeout handler arg =>
      obtain ⟨fresh, future⟩ := careful
      have allowed : s.traverse = none ∨ s.inHandler = true := by simpa [ready] using now
      have stored := store_ok ok fresh { s.timers timer with
        timeout := timeout
        handler := handler
        arg := arg } (s.links.next timer) (s.links.prev timer)
      have links : (s.links.setNext (some timer) (s.links.next timer)).setPrev (some timer)
          (s.links.prev timer) = s.links := by
        simp [Links.setNext, Links.setPrev]
      rw [links] at stored
      have value : (setTimer s timer { s.timers timer with
          timeout := timeout
          handler := handler
          arg := arg }).timers timer = { s.timers timer with
          timeout := timeout
          handler := handler
          arg := arg } := Function.update_self ..
      have result := add_ok stored fresh allowed (by
        intro inside
        dsimp only [key]
        rw [value]
        exact future inside)
      obtain ⟨s', added, later', ok'⟩ := result
      refine ⟨s', added, later', ?_⟩
      dsimp only at ok'
      rw [value] at ok'
      exact ok'
  | addTimer timer =>
      obtain ⟨fresh, future⟩ := careful
      have allowed : s.traverse = none ∨ s.inHandler = true := by simpa [ready] using now
      exact add_ok ok fresh allowed future
  | delTimer timer =>
      obtain ⟨pending, outside⟩ := careful
      have allowed : s.traverse = none ∨ s.inHandler = true := by simpa [ready] using now
      have idle : s.traverse = none := by
        rcases allowed with idle | inside
        · exact idle
        · rw [outside] at inside
          cases inside
      exact ⟨_, rfl, _, delete_ok ok pending idle⟩
  | runTimer jiffies =>
      have idle : s.traverse = none := by simpa [ready] using now
      exact ⟨_, rfl, _, run_timer_ok ok idle jiffies⟩
  | round =>
      have active : s.traverse ≠ none := by
        intro idle
        simp [ready, idle] at now
      obtain ⟨s', stepped, ok'⟩ := round_ok ok active
      exact ⟨s', stepped, later, ok'⟩

omit [Fintype N] in
theorem no_timers_ok (head : N) (links : Links N) (timers : N → Timer) (jiffies : BitVec 32) :
    TimersOk head (noTimers head links timers jiffies) ⟨[], [], []⟩ [] := by
  refine ⟨stable_nil _, ring_head_init links head, ?_, ?_, ?_, fun _ => ⟨rfl, rfl⟩, rfl, ?_⟩
  · intro timer member
    cases member
  · intro timer member
    cases member
  · intro active
    exact absurd rfl active
  · intro p walking
    cases walking

/-- Without further handlers the loop comes to its end. -/
theorem rounds_end {head : N} {s : Timers N} {book : Book N} {later : List N}
    (ok : TimersOk head s book later) (active : s.traverse ≠ none) :
    ∃ s' book', Reaches (trackedStep head) (fun _ event => event = .round) (s, book) (s', book') ∧
      s'.traverse = none := by
  have step : ∀ {s s' : Timers N} (book : Book N), s.traverse ≠ none → round s head = some s' →
      GuardedStep (trackedStep head) (fun _ event => event = .round) (s, book)
        (s', bookStep s book .round) := by
    intro s s' book active stepped
    have now : ready s .round = true := by
      simpa [ready, Option.isSome_iff_ne_none] using active
    refine ⟨.round, rfl, ?_⟩
    unfold trackedStep timerStep
    rw [if_pos now]
    unfold perform
    rw [stepped]
    rfl
  -- first the walk behind the timers that are due, then those before it
  have passing : ∀ (back : List N) {s : Timers N} {book : Book N} (front : List N),
      TimersOk head s book (front ++ back) → book.due = [] →
      s.traverse = some (some (back.headD head)) →
      ∃ s' book', Reaches (trackedStep head) (fun _ event => event = .round) (s, book)
        (s', book') ∧ s'.traverse = none := by
    intro back
    induction back with
    | nil =>
        intro s book front ok due walking
        obtain ⟨s', stepped, idle, _⟩ := round_end ok due walking
        exact ⟨s', _, .single (step book (by simp [walking]) stepped), idle⟩
    | cons timer back ih =>
        intro s book front ok due walking
        obtain ⟨s', stepped, moved, ok'⟩ := round_pass ok due walking
        have same : bookStep s book .round = book := by
          unfold bookStep
          rw [due, List.tail_nil, ← due]
        have first := step book (by simp [walking]) stepped
        rw [same] at first
        obtain ⟨last, book', rest, idle⟩ :=
          ih (front ++ [timer]) (by simpa using ok') due moved
        exact ⟨last, book', .head first rest, idle⟩
  have expiring : ∀ (due : List N) {s : Timers N} {book : Book N} {later : List N},
      TimersOk head s book later → s.traverse ≠ none → book.due = due →
      ∃ s' book', Reaches (trackedStep head) (fun _ event => event = .round) (s, book)
        (s', book') ∧ s'.traverse = none := by
    intro due
    induction due with
    | nil =>
        intro s book later ok active due
        obtain ⟨p, walking⟩ := Option.ne_none_iff_exists'.mp active
        obtain ⟨front, back, rfl, rfl⟩ := ok.place p walking
        rw [due, List.nil_append] at walking
        exact passing back front ok due walking
    | cons timer rest ih =>
        intro s book later ok active due
        obtain ⟨s', stepped, still, ok'⟩ := round_due ok active due
        have same : bookStep s book .round = { book with due := rest } := by
          unfold bookStep
          rw [due, List.tail_cons]
        have first := step book active stepped
        rw [same] at first
        obtain ⟨last, book', later, idle⟩ := ih ok' still rfl
        exact ⟨last, book', .head first later, idle⟩
  exact expiring book.due ok active rfl

def Kept (head : N) (state : Timers N × Book N) : Prop :=
  ∃ later, TimersOk head state.1 state.2 later

/-- Between runs the list holds exactly the timers pending, sorted by timeout and for
equal timeouts in the order they were added, and the last run has made its calls; no
careful call is refused, and a run in progress can end. -/
theorem timers_in_order {head : N} {links : Links N} {timers : N → Timer} {jiffies : BitVec 32}
    {s : Timers N} {book : Book N}
    (run : Reaches (trackedStep head) (Careful head)
      (noTimers head links timers jiffies, ⟨[], [], []⟩) (s, book)) :
    (s.traverse = none → ∃ nodes, Ring s.links head nodes ∧
        nodes.Pairwise (fun a b => (s.timers a).timeout.toNat ≤ (s.timers b).timeout.toNat) ∧
        (∀ timeout : BitVec 32, nodes.filter (fun timer => (s.timers timer).timeout = timeout) =
          book.pending.filter fun timer => (s.timers timer).timeout = timeout) ∧
        (∀ timer, timer ∈ nodes ↔ timer ∈ book.pending) ∧ s.calls = book.expected) ∧
      (∀ event, Careful head (s, book) event → ready s event = true →
        ∃ next, trackedStep head (s, book) event = some next) ∧
      (s.traverse ≠ none → ∃ s' book', Reaches (trackedStep head) (fun _ event => event = .round)
        (s, book) (s', book') ∧ s'.traverse = none) := by
  have start : Kept head (noTimers head links timers jiffies, ⟨[], [], []⟩) :=
    ⟨[], no_timers_ok head links timers jiffies⟩
  have kept : ∀ before event after, Kept head before → Careful head before event →
      trackedStep head before event = some after → Kept head after := by
    rintro ⟨s, book⟩ event after ⟨later, ok⟩ careful stepped
    obtain ⟨s', performed, pair⟩ := Option.map_eq_some_iff.mp stepped
    have now : ready s event = true := by
      by_contra early
      unfold timerStep at performed
      rw [if_neg early] at performed
      cases performed
    obtain ⟨s'', again, later', ok'⟩ := tracked_step_ok ok careful now
    obtain rfl := Option.some.inj (performed.symm.trans again)
    rw [← pair]
    exact ⟨later', ok'⟩
  obtain ⟨later, ok⟩ := reaches_invariant start kept run
  refine ⟨?_, ?_, fun active => rounds_end ok active⟩
  · intro idle
    obtain ⟨due, _⟩ := ok.idle idle
    have ring := ok.ring
    have calls := ok.calls
    rw [due] at ring calls
    refine ⟨later, ring, ok.order.ascending, ?_, fun timer => stable_mem ok.order, ?_⟩
    · intro timeout
      have same := ok.order.stable timeout.toNat
      simpa [key, BitVec.toNat_inj] using same
    · simpa using calls
  · intro event careful now
    obtain ⟨s', performed, _⟩ := tracked_step_ok ok careful now
    exact ⟨_, by unfold trackedStep; rw [performed]; rfl⟩

instance (head : N) (state : Timers N × Book N) (event : TimerEvent N) :
    Decidable (Careful head state event) := by
  cases event <;> unfold Careful <;> infer_instance

/-- Timers that `init_timer` has set up, and the empty list with the head `none`. -/
def twoTimers : Timers (Option Bool) :=
  noTimers none ⟨fun _ => none, fun _ => none⟩ (fun _ => ⟨0, 0, 0, true⟩) 0

/-- Two timers of which one expires and is set up again by its handler. -/
def periodicRun : List (TimerEvent (Option Bool)) :=
  [.setupTimer (some false) 20 1 0, .setupTimer (some true) 10 2 7, .runTimer 10, .round,
    .setupTimer (some true) 30 2 8, .round, .round, .round]

theorem timers_in_order_periodic :
    ∃ s book, Reaches (trackedStep none) (Careful none) (twoTimers, ⟨[], [], []⟩) (s, book) ∧
      s.traverse = none ∧ book.pending = [some false, some true] ∧ s.calls = [⟨some true, 2, 7⟩] ∧
      (s.traverse = none → ∃ nodes, Ring s.links none nodes ∧
        nodes.Pairwise (fun a b => (s.timers a).timeout.toNat ≤ (s.timers b).timeout.toNat) ∧
        (∀ timeout : BitVec 32, nodes.filter (fun timer => (s.timers timer).timeout = timeout) =
          book.pending.filter fun timer => (s.timers timer).timeout = timeout) ∧
        (∀ timer, timer ∈ nodes ↔ timer ∈ book.pending) ∧ s.calls = book.expected) ∧
      (∀ event, Careful none (s, book) event → ready s event = true →
        ∃ next, trackedStep none (s, book) event = some next) ∧
      (s.traverse ≠ none → ∃ s' book', Reaches (trackedStep none) (fun _ event => event = .round)
        (s, book) (s', book') ∧ s'.traverse = none) := by
  have ran : (periodicRun.foldlM (fun state event =>
      if Careful none state event then trackedStep none state event else none)
      (twoTimers, ⟨[], [], []⟩)).map (fun state => (state.1.traverse, state.2.pending,
        state.1.calls)) = some (none, [some false, some true], [⟨some true, 2, 7⟩]) := by
    decide +kernel
  obtain ⟨⟨s, book⟩, finished, shown⟩ := Option.map_eq_some_iff.mp ran
  simp only [Prod.mk.injEq] at shown
  obtain ⟨idle, pending, calls⟩ := shown
  have run := reaches_checked _ finished
  exact ⟨s, book, run, idle, pending, calls, timers_in_order run⟩

/-- A timer that is set up while it is pending is linked to itself. -/
theorem pending_timer_set_up_again :
    ¬ ∀ s book, Reaches (trackedStep none) (fun _ event => ∃ timeout ≤ maxTimeout,
        event = .setupTimer (some true) timeout 1 0) (twoTimers, ⟨[], [], []⟩) (s, book) →
      s.traverse = none → ∃ nodes, Ring s.links none nodes := by
  intro always
  have ran : (([.setupTimer (some true) 10 1 0, .setupTimer (some true) 10 1 0] :
      List (TimerEvent (Option Bool))).foldlM (trackedStep none) (twoTimers, ⟨[], [], []⟩)).map
      (fun state => (state.1.traverse, state.1.links.next none,
        state.1.links.next (some true))) = some (none, some (some true), some (some true)) := by
    decide +kernel
  obtain ⟨⟨s, book⟩, finished, shown⟩ := Option.map_eq_some_iff.mp ran
  simp only [Prod.mk.injEq] at shown
  obtain ⟨idle, first, itself⟩ := shown
  have run : Reaches (trackedStep none) (fun _ event => ∃ timeout ≤ maxTimeout,
      event = .setupTimer (some true) timeout 1 0) (twoTimers, ⟨[], [], []⟩) (s, book) := by
    refine reaches_events _ ?_ finished
    intro event member _
    refine ⟨10, by decide, ?_⟩
    simpa using member
  obtain ⟨nodes, ring⟩ := always s book run idle
  have head := ring_first ring
  rw [first] at head
  cases nodes with
  | nil => cases head
  | cons node rest =>
      obtain rfl : some true = node := Option.some.inj head
      have next := @ring_next _ s.links none (some true) [] rest ring
      rw [itself] at next
      cases rest with
      | nil => cases next
      | cons other later =>
          obtain rfl : some true = other := Option.some.inj next
          have nodup := (List.nodup_cons.mp ring.nodup).2
          exact (List.nodup_cons.mp nodup).1 (List.mem_cons_self ..)

end MirOs.TimerList
