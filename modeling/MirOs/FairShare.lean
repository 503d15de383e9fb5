import MirOs.FirstMaximum
import Mathlib.Algebra.Order.BigOperators.Group.List
import Mathlib.Data.Nat.Cast.Basic
import Mathlib.Tactic.Ring

/-!
# Time slices that are recharged

Tasks of the same priority share a processor. The one with the most ticks left is chosen, the first
of them. If none are left for the last task of the queue, all counters are halved and a slice is added
before. A task of the queue waits for a bounded number of ticks: while it waits its counter only
grows, and there is a bound on what the other ones use up before it is the greatest.
-/

namespace MirOs.FairShare

set_option autoImplicit false

open MirOs.FirstMaximum (FirstMax)

variable {T : Type*} [DecidableEq T]

structure Share (T : Type*) where
  count : T → Nat
  current : T

/-- The queue, with its last task, and the priority. -/
structure Queue (T : Type*) where
  front : List T
  last : T
  slice : Nat

def Queue.tasks (queue : Queue T) : List T := queue.front ++ [queue.last]

/-- The choice of the next task. -/
structure Chooses (queue : Queue T) (before after : Share T) : Prop where
  first : FirstMax after.count queue.tasks after.current
  counts : (before.count queue.last ≠ 0 ∧ ∀ t ∈ queue.tasks, after.count t = before.count t) ∨
    (before.count queue.last = 0 ∧
      ∀ t ∈ queue.tasks, after.count t = before.count t / 2 + queue.slice)

/-- Nothing that matters has changed. -/
structure Stays (queue : Queue T) (before after : Share T) : Prop where
  current : after.current = before.current
  running : after.count before.current = before.count before.current
  counts : ∀ t ∈ queue.tasks, after.count t = before.count t

/-- The current task has used a tick. -/
structure Ticks (queue : Queue T) (before after : Share T) : Prop where
  current : after.current = before.current
  running : after.count before.current = before.count before.current - 1
  counts : ∀ t ∈ queue.tasks, t ≠ before.current → after.count t = before.count t

/-- All counters are within two slices, which is where recharging leads. -/
def Bounded (queue : Queue T) (share : Share T) : Prop :=
  (∀ t ∈ queue.tasks, share.count t ≤ 2 * queue.slice) ∧
    share.count share.current ≤ 2 * queue.slice

/-! ## The measure -/

/-- What is left to the other tasks of the queue, and to the current one if it has gone from it. -/
def left (queue : Queue T) (x : T) (share : Share T) : Nat :=
  ((queue.tasks.filter (· ≠ x)).map share.count).sum +
    if share.current ∈ queue.tasks then 0 else share.count share.current

/-- As much as `left` can be. -/
def most (queue : Queue T) : Nat := (queue.tasks.length + 1) * (2 * queue.slice)

/-- The counter of `x` is as great as those of tasks that run after each recharge can be, and the last
task waits behind it. -/
def Settled (queue : Queue T) (x : T) (share : Share T) : Prop :=
  2 * queue.slice - 1 ≤ share.count x ∧ 0 < share.count queue.last ∧
    share.count queue.last ≤ queue.slice ∧ share.current ≠ queue.last

instance (queue : Queue T) (x : T) (share : Share T) : Decidable (Settled queue x share) :=
  inferInstanceAs (Decidable (_ ∧ _ ∧ _ ∧ _))

/-- How often the counters can still be recharged. -/
def recharges (queue : Queue T) (x : T) (share : Share T) : Nat :=
  (2 * queue.slice - 1 - share.count x) + if Settled queue x share then 0 else 1

def work (queue : Queue T) (x : T) (share : Share T) : Nat :=
  recharges queue x share * (most queue + 2) + left queue x share

/-- A bound on the ticks until `x` is chosen. -/
def waiting (queue : Queue T) (x : T) (share : Share T) : Nat :=
  work queue x share + if share.count share.current = 0 then 1 else 0

variable {queue : Queue T} {x : T} {before after : Share T}

theorem left_le_most (bounded : Bounded queue before) : left queue x before ≤ most queue := by
  have others : ((queue.tasks.filter (· ≠ x)).map before.count).sum ≤
      queue.tasks.length * (2 * queue.slice) := by
    have each : ∀ n ∈ (queue.tasks.filter (· ≠ x)).map before.count, n ≤ 2 * queue.slice := by
      intro n member
      obtain ⟨t, inside, rfl⟩ := List.mem_map.mp member
      exact bounded.1 t (List.mem_of_mem_filter inside)
    have total := List.sum_le_card_nsmul _ _ each
    rw [List.length_map, nsmul_eq_mul, Nat.cast_id] at total
    exact total.trans (Nat.mul_le_mul_right _ (List.length_filter_le _ _))
  have current : (if before.current ∈ queue.tasks then 0 else before.count before.current) ≤
      2 * queue.slice := by
    split
    · exact Nat.zero_le _
    · exact bounded.2
  unfold left most
  rw [Nat.add_mul, Nat.one_mul]
  omega

/-- The number of ticks that a task can wait. -/
def limit (queue : Queue T) : Nat := 2 * queue.slice * (most queue + 2) + most queue + 1

theorem waiting_le (bounded : Bounded queue before) (positive : 0 < queue.slice) :
    waiting queue x before ≤ limit queue := by
  have few : recharges queue x before ≤ 2 * queue.slice := by
    unfold recharges
    split
    · omega
    · omega
  have more := Nat.mul_le_mul_right (most queue + 2) few
  have rest := @left_le_most T _ queue x before bounded
  unfold waiting work limit
  split
  · omega
  · omega

/-! ## Steps without a choice -/

theorem left_sum (counts : ∀ t ∈ queue.tasks, t ≠ x → after.count t = before.count t) :
    ((queue.tasks.filter (· ≠ x)).map after.count).sum =
      ((queue.tasks.filter (· ≠ x)).map before.count).sum := by
  congr 1
  apply List.map_congr_left
  intro t member
  obtain ⟨inside, other⟩ := List.mem_filter.mp member
  exact counts t inside (of_decide_eq_true other)

omit [DecidableEq T] in
theorem last_mem (queue : Queue T) : queue.last ∈ queue.tasks :=
  List.mem_append_right _ List.mem_cons_self

theorem stays_waiting (stays : Stays queue before after) (member : x ∈ queue.tasks) :
    waiting queue x after = waiting queue x before := by
  have rest : left queue x after = left queue x before := by
    unfold left
    rw [left_sum fun t inside _ => stays.counts t inside, stays.current, stays.running]
  have again : recharges queue x after = recharges queue x before := by
    have same : Settled queue x after ↔ Settled queue x before := by
      unfold Settled
      rw [stays.counts x member, stays.counts _ (last_mem queue), stays.current]
    unfold recharges
    simp only [stays.counts x member, same]
  unfold waiting work
  rw [rest, again, stays.current, stays.running]

theorem sum_map_filter_update {items : List T} (nodup : items.Nodup) {c : T} (member : c ∈ items)
    {f g : T → Nat} (here : g c = f c - 1) (apart : ∀ t ∈ items, t ≠ c → g t = f t) :
    (items.map g).sum + (if f c = 0 then 0 else 1) = (items.map f).sum := by
  induction items with
  | nil => exact absurd member List.not_mem_nil
  | cons t items ih =>
      rw [List.nodup_cons] at nodup
      rw [List.map_cons, List.map_cons, List.sum_cons, List.sum_cons]
      by_cases same : t = c
      · subst same
        have tail : items.map g = items.map f := by
          apply List.map_congr_left
          intro r inside
          exact apart r (List.mem_cons_of_mem _ inside) (fun equal => nodup.1 (equal ▸ inside))
        rw [tail, here]
        split
        · omega
        · omega
      · have inside : c ∈ items := (List.mem_cons.mp member).resolve_left (Ne.symm same)
        have rest := ih nodup.2 inside fun r later => apart r (List.mem_cons_of_mem _ later)
        rw [apart t List.mem_cons_self same]
        omega

/-- A tick is used up. -/
theorem ticks_left (ticks : Ticks queue before after) (nodup : queue.tasks.Nodup)
    (other : before.current ≠ x) :
    left queue x after + (if before.count before.current = 0 then 0 else 1) =
      left queue x before := by
  unfold left
  rw [ticks.current]
  by_cases queued : before.current ∈ queue.tasks
  · rw [if_pos queued, if_pos queued, Nat.add_zero, Nat.add_zero]
    refine sum_map_filter_update (nodup.filter _)
      (List.mem_filter.mpr ⟨queued, decide_eq_true other⟩) ticks.running fun t member apart => ?_
    exact ticks.counts t (List.mem_of_mem_filter member) apart
  · have sums : ((queue.tasks.filter (· ≠ x)).map after.count).sum =
        ((queue.tasks.filter (· ≠ x)).map before.count).sum :=
      left_sum fun t inside _ => ticks.counts t inside fun same => queued (same ▸ inside)
    rw [if_neg queued, if_neg queued, sums, ticks.running]
    split
    · omega
    · omega

theorem ticks_recharges (ticks : Ticks queue before after) (member : x ∈ queue.tasks)
    (other : before.current ≠ x) : recharges queue x after ≤ recharges queue x before := by
  have kept : after.count x = before.count x := ticks.counts x member other.symm
  unfold recharges
  rw [kept]
  by_cases settled : Settled queue x before
  · have same : after.count queue.last = before.count queue.last :=
      ticks.counts _ (last_mem queue) settled.2.2.2.symm
    have still : Settled queue x after := by
      unfold Settled at settled ⊢
      rw [kept, same, ticks.current]
      exact settled
    rw [if_pos settled, if_pos still]
  · rw [if_neg settled]
    split
    · omega
    · exact Nat.le_refl _

/-- Without a choice. -/
theorem ticks_work (ticks : Ticks queue before after) (nodup : queue.tasks.Nodup)
    (member : x ∈ queue.tasks) (other : before.current ≠ x) :
    work queue x after + (if before.count before.current = 0 then 0 else 1) ≤
      work queue x before := by
  have fewer := Nat.mul_le_mul_right (most queue + 2) (ticks_recharges ticks member other)
  have rest := ticks_left ticks nodup other
  unfold work
  omega

/-! ## Choices -/

omit [DecidableEq T] in
theorem chooses_bounded (chooses : Chooses queue before after) (bounded : Bounded queue before) :
    Bounded queue after := by
  have each : ∀ t ∈ queue.tasks, after.count t ≤ 2 * queue.slice := by
    intro t member
    have bound := bounded.1 t member
    rcases chooses.counts with ⟨_, same⟩ | ⟨_, recharged⟩
    · rw [same t member]
      exact bound
    · rw [recharged t member]
      omega
  exact ⟨each, each _ chooses.first.mem⟩

omit [DecidableEq T] in
/-- The one that is chosen has ticks left. -/
theorem chooses_some (chooses : Chooses queue before after) (positive : 0 < queue.slice) :
    after.count after.current ≠ 0 := by
  have best := chooses.first.bound (last_mem queue)
  rcases chooses.counts with ⟨some_, same⟩ | ⟨_, recharged⟩
  · rw [same _ (last_mem queue)] at best
    omega
  · rw [recharged _ (last_mem queue)] at best
    omega

theorem chooses_left (chooses : Chooses queue before after)
    (same : ∀ t ∈ queue.tasks, after.count t = before.count t) :
    left queue x after ≤ left queue x before := by
  unfold left
  rw [left_sum fun t inside _ => same t inside, if_pos chooses.first.mem]
  exact Nat.le_add_right _ _

omit [DecidableEq T] in
/-- A task that waits with so many ticks keeps the last one from being chosen. -/
theorem chooses_not_last (chooses : Chooses queue before after) (member : x ∈ queue.tasks)
    (enough : 2 * queue.slice - 1 ≤ after.count x) (few : after.count queue.last ≤ queue.slice)
    (large : 2 ≤ queue.slice) : after.current ≠ queue.last := by
  intro last
  have best := chooses.first.bound member
  rw [last] at best
  omega

theorem chooses_work (chooses : Chooses queue before after) (bounded : Bounded queue before)
    (member : x ∈ queue.tasks) (large : 2 ≤ queue.slice) :
    work queue x after ≤ work queue x before := by
  rcases chooses.counts with ⟨some_, same⟩ | ⟨none_, recharged⟩
  · have rest := @chooses_left T _ queue x before after chooses same
    have again : recharges queue x after ≤ recharges queue x before := by
      unfold recharges
      rw [same x member]
      by_cases settled : Settled queue x before
      · have still : Settled queue x after := by
          obtain ⟨enough, positive, few, _⟩ := settled
          unfold Settled
          rw [same x member, same _ (last_mem queue)]
          refine ⟨enough, positive, few, chooses_not_last chooses member ?_ ?_ large⟩
          · rw [same x member]
            exact enough
          · rw [same _ (last_mem queue)]
            exact few
        rw [if_pos settled, if_pos still]
      · rw [if_neg settled]
        split
        · omega
        · exact Nat.le_refl _
    have fewer := Nat.mul_le_mul_right (most queue + 2) again
    unfold work
    omega
  · have rest := @left_le_most T _ queue x after (chooses_bounded chooses bounded)
    have unsettled : ¬ Settled queue x before := fun settled => by
      have positive := settled.2.1
      omega
    have again : recharges queue x after + 1 ≤ recharges queue x before := by
      have grown := recharged x member
      have last := recharged _ (last_mem queue)
      unfold recharges
      rw [if_neg unsettled]
      by_cases enough : 2 * queue.slice - 1 ≤ before.count x
      · have settled : Settled queue x after := by
          have much : 2 * queue.slice - 1 ≤ after.count x := by omega
          have few : after.count queue.last ≤ queue.slice := by omega
          exact ⟨much, by omega, few, chooses_not_last chooses member much few large⟩
        rw [if_pos settled]
        omega
      · split
        · omega
        · omega
    have fewer := Nat.mul_le_mul_right (most queue + 2) again
    rw [Nat.add_mul, Nat.one_mul] at fewer
    unfold work
    omega

/-! ## Steps of the whole -/

/-- A step other than a tick. -/
inductive Calm (queue : Queue T) (before after : Share T) : Prop
  | stays (stays : Stays queue before after)
  | chooses (chooses : Chooses queue before after)

/-- A tick, with a choice behind it unless the current task has ticks left. -/
inductive Tick (queue : Queue T) (before after : Share T) : Prop
  | goesOn (ticks : Ticks queue before after) (some_ : after.count after.current ≠ 0)
  | chooses (middle : Share T) (ticks : Ticks queue before middle)
      (chooses : Chooses queue middle after)

omit [DecidableEq T] in
theorem ticks_bounded (ticks : Ticks queue before after) (bounded : Bounded queue before) :
    Bounded queue after := by
  have current : after.count before.current ≤ 2 * queue.slice := by
    have bound := bounded.2
    rw [ticks.running]
    omega
  refine ⟨fun t member => ?_, ?_⟩
  · by_cases here : t = before.current
    · rw [here]
      exact current
    · rw [ticks.counts t member here]
      exact bounded.1 t member
  · rw [ticks.current]
    exact current

omit [DecidableEq T] in
theorem calm_bounded (calm : Calm queue before after) (bounded : Bounded queue before) :
    Bounded queue after := by
  cases calm with
  | stays stays =>
      refine ⟨fun t member => ?_, ?_⟩
      · rw [stays.counts t member]
        exact bounded.1 t member
      · rw [stays.current, stays.running]
        exact bounded.2
  | chooses chooses => exact chooses_bounded chooses bounded

omit [DecidableEq T] in
theorem tick_bounded (tick : Tick queue before after) (bounded : Bounded queue before) :
    Bounded queue after := by
  cases tick with
  | goesOn ticks _ => exact ticks_bounded ticks bounded
  | chooses middle ticks chooses => exact chooses_bounded chooses (ticks_bounded ticks bounded)

theorem calm_waiting (calm : Calm queue before after) (bounded : Bounded queue before)
    (member : x ∈ queue.tasks) (large : 2 ≤ queue.slice) :
    waiting queue x after ≤ waiting queue x before := by
  cases calm with
  | stays stays => exact (stays_waiting stays member).le
  | chooses chooses =>
      have less := chooses_work chooses bounded member large
      unfold waiting
      rw [if_neg (chooses_some chooses (by omega))]
      omega

/-- With each tick the wait of a task that is not running gets shorter. -/
theorem tick_waiting (tick : Tick queue before after) (bounded : Bounded queue before)
    (nodup : queue.tasks.Nodup) (member : x ∈ queue.tasks) (large : 2 ≤ queue.slice)
    (other : before.current ≠ x) : waiting queue x after + 1 ≤ waiting queue x before := by
  cases tick with
  | goesOn ticks some_ =>
      have less := ticks_work ticks nodup member other
      rw [ticks.current, ticks.running] at some_
      unfold waiting
      rw [ticks.current, ticks.running, if_neg some_]
      split at less
      · omega
      · split
        · omega
        · omega
  | chooses middle ticks chooses =>
      have less := ticks_work ticks nodup member other
      have chosen := chooses_work chooses (ticks_bounded ticks bounded) member large
      unfold waiting
      rw [if_neg (chooses_some chooses (by omega))]
      split at less
      · next none_ =>
          rw [if_pos none_]
          omega
      · next some_ =>
          rw [if_neg some_]
          omega

/-! ## Runs -/

/-- A run of so many steps, `ticks` of them ticks. -/
theorem runs_choose {states : Nat → Share T} {isTick : Nat → Bool} {length : Nat}
    (nodup : queue.tasks.Nodup) (large : 2 ≤ queue.slice) (bounded : Bounded queue (states 0))
    (calm : ∀ k < length, isTick k = false → Calm queue (states k) (states (k + 1)))
    (tick : ∀ k < length, isTick k = true → Tick queue (states k) (states (k + 1)))
    (many : limit queue < (List.range length).countP isTick) (member : x ∈ queue.tasks) :
    ∃ k ≤ length, (states k).current = x := by
  by_contra never
  have other : ∀ k ≤ length, (states k).current ≠ x := fun k inside same => never ⟨k, inside, same⟩
  have passed : ∀ k ≤ length, Bounded queue (states k) ∧
      waiting queue x (states k) + (List.range k).countP isTick ≤ waiting queue x (states 0) := by
    intro k inside
    induction k with
    | zero => exact ⟨bounded, Nat.le_refl _⟩
    | succ k ih =>
        obtain ⟨bound, less⟩ := ih (Nat.le_of_succ_le inside)
        rw [List.range_succ, List.countP_append, List.countP_singleton]
        cases kind : isTick k with
        | false =>
            have step := calm k inside kind
            have shorter := calm_waiting step bound member large
            rw [if_neg Bool.false_ne_true]
            exact ⟨calm_bounded step bound, by omega⟩
        | true =>
            have step := tick k inside kind
            have shorter := tick_waiting step bound nodup member large
              (other k (Nat.le_of_succ_le inside))
            rw [if_pos rfl]
            exact ⟨tick_bounded step bound, by omega⟩
  have whole := (passed length (Nat.le_refl _)).2
  have most := @waiting_le T _ queue x (states 0) bounded (by omega)
  omega

end MirOs.FairShare
