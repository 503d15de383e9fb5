import MirOs.PidTable

/-!
# The scan of `get_pid`

`get_pid` on any task list, of any length and with any pids on it. The loops are given
so many rounds as parameters, and none of the results depends on them: the scan ends
after one turn through the positive values of a `short` at the latest.
-/

namespace MirOs.PidScan

set_option autoImplicit false

open MirOs.DList (Ring)
open MirOs.ProcessModel MirOs.PidTable

variable {T : Type*} [DecidableEq T]

/-- The inner loop, for a list walk of so many nodes. -/
def pidUsed (walk : Nat) (s : Processes T) (pid : BitVec 32) : Bool :=
  (DList.findFrom s.taskList none
    (fun node => node.any fun t => (s.tasks t).pid == pid) walk (s.taskList.next none)).isSome

/-- The outer loop for so many rounds: what `get_pid` returns, `none` being -1, and the value
it leaves in `last_pid`. There is no result while the loop has not ended. -/
def tryPids (used : BitVec 32 → Bool) (oldPid : BitVec 16) :
    Nat → BitVec 16 → Option (Option (BitVec 16) × BitVec 16)
  | 0, _ => none
  | rounds + 1, last =>
      if used (last.signExtend 32) then
        let last := bumpPid last
        if last ≠ oldPid then tryPids used oldPid rounds last else some (none, last)
      else some (some last, last)

def getPidWithin (walk rounds : Nat) (s : Processes T) :
    Option (Option (BitVec 16) × BitVec 16) :=
  let oldPid := bumpPid s.lastPid
  tryPids (pidUsed walk s) oldPid rounds oldPid

/-- The pid that comes so many places behind the one after the last. -/
def pidAfter (last place : Nat) : Nat := (last + place) % maxPid + 1

/-- Some task on the list has the pid. -/
def PidInUse (s : Processes T) (nodes : List T) (pid : Nat) : Prop :=
  ∃ t ∈ nodes, (s.tasks t).pid.toNat = pid

theorem pid_after_range (last place : Nat) : PidRange (pidAfter last place) := by
  have below := Nat.mod_lt (last + place) (show 0 < maxPid by decide)
  unfold pidAfter PidRange
  omega

/-- Every pid comes behind the last one, within one turn. -/
theorem pid_after_reaches {last pid : Nat} (start : PidRange last) (range : PidRange pid) :
    ∃ place < maxPid, pidAfter last place = pid := by
  obtain ⟨startLow, startHigh⟩ := start
  obtain ⟨low, high⟩ := range
  refine ⟨(pid + maxPid - 1 - last) % maxPid, Nat.mod_lt _ (by decide), ?_⟩
  unfold pidAfter maxPid at *
  omega

/-- The values that `last_pid` goes through. -/
theorem bumped_val {last : BitVec 16} (range : PidRange last.toNat) (place : Nat) :
    (bumpPid^[place] (bumpPid last)).toNat = pidAfter last.toNat place := by
  rw [bump_iterate (bump_range range), bump_val range, Nat.add_sub_cancel, Nat.mod_add_mod]
  rfl

theorem bumped_ne {last : BitVec 16} (range : PidRange last.toNat) {place : Nat}
    (moved : 0 < place) (inside : place < maxPid) :
    bumpPid^[place] (bumpPid last) ≠ bumpPid last := by
  intro same
  have value := congrArg BitVec.toNat same
  have first := bumped_val range 0
  rw [Function.iterate_zero, id] at first
  rw [bumped_val range, first] at value
  obtain ⟨low, high⟩ := range
  unfold pidAfter maxPid at *
  omega

theorem bumped_turn {last : BitVec 16} (range : PidRange last.toNat) :
    bumpPid^[maxPid] (bumpPid last) = bumpPid last := by
  apply BitVec.eq_of_toNat_eq
  have first := bumped_val range 0
  rw [Function.iterate_zero, id] at first
  rw [bumped_val range, first]
  unfold pidAfter
  rw [Nat.add_zero (last.toNat), Nat.add_mod_right]

/-- From any place on, with all the earlier ones in use, the scan ends at the first free
place or after the turn. -/
theorem try_ends {used : BitVec 32 → Bool} {last : BitVec 16} (range : PidRange last.toNat)
    (rounds place : Nat) (inside : place < maxPid) (enough : maxPid ≤ place + rounds)
    (busy : ∀ i < place, used ((bumpPid^[i] (bumpPid last)).signExtend 32) = true) :
    (∃ k < maxPid, (∀ i < k, used ((bumpPid^[i] (bumpPid last)).signExtend 32) = true) ∧
      used ((bumpPid^[k] (bumpPid last)).signExtend 32) = false ∧
      tryPids used (bumpPid last) rounds (bumpPid^[place] (bumpPid last)) =
        some (some (bumpPid^[k] (bumpPid last)), bumpPid^[k] (bumpPid last))) ∨
    ((∀ i < maxPid, used ((bumpPid^[i] (bumpPid last)).signExtend 32) = true) ∧
      tryPids used (bumpPid last) rounds (bumpPid^[place] (bumpPid last)) =
        some (none, bumpPid last)) := by
  induction rounds generalizing place with
  | zero => omega
  | succ rounds ih =>
      unfold tryPids
      by_cases here : used ((bumpPid^[place] (bumpPid last)).signExtend 32) = true
      · have longer : ∀ i < place + 1,
            used ((bumpPid^[i] (bumpPid last)).signExtend 32) = true := by
          intro i below
          by_cases earlier : i < place
          · exact busy i earlier
          · have same : i = place := by omega
            rw [same]
            exact here
        rw [if_pos here]
        dsimp only
        have next : bumpPid (bumpPid^[place] (bumpPid last)) =
            bumpPid^[place + 1] (bumpPid last) :=
          (Function.iterate_succ_apply' bumpPid place _).symm
        rw [next]
        by_cases turn : place + 1 = maxPid
        · right
          rw [turn] at longer
          rw [turn, bumped_turn range]
          exact ⟨longer, if_neg (fun differ => differ rfl)⟩
        · have short : place + 1 < maxPid := by omega
          rw [if_pos (bumped_ne range (Nat.succ_pos place) short)]
          exact ih (place + 1) short (by omega) longer
      · left
        rw [if_neg here]
        exact ⟨place, inside, busy, by simpa using here, rfl⟩

theorem pid_used_iff {s : Processes T} {nodes : List T}
    (ring : Ring s.taskList none (nodes.map some)) {walk : Nat} (enough : nodes.length < walk)
    {last : BitVec 16} (range : PidRange last.toNat) :
    pidUsed walk s (last.signExtend 32) = true ↔ PidInUse s nodes last.toNat := by
  unfold pidUsed
  rw [DList.ring_find ring _ _ (by rwa [List.length_map]), List.find?_isSome]
  have same : ∀ pid : BitVec 32, pid = last.signExtend 32 ↔ pid.toNat = last.toNat := by
    intro pid
    rw [← sign_extend_val range]
    exact BitVec.toNat_inj.symm
  constructor
  · rintro ⟨node, member, found⟩
    obtain ⟨t, listed, rfl⟩ := List.mem_map.mp member
    have pid : (s.tasks t).pid = last.signExtend 32 := by simpa using found
    exact ⟨t, listed, (same _).mp pid⟩
  · rintro ⟨t, listed, pid⟩
    have found := (same _).mpr pid
    exact ⟨some t, List.mem_map_of_mem listed, by simpa using found⟩

/-- What the model of task creation uses is this scan. -/
theorem get_pid_within {s : Processes T} (range : PidRange s.lastPid.toNat) :
    getPidWithin walkFuel maxPid s = some (getPid s) := by
  have agree : ∀ rounds last, ∀ result,
      tryPids (pidTaken s) (bumpPid s.lastPid) rounds last = some result →
      scanPids (pidTaken s) (bumpPid s.lastPid) rounds last = result := by
    intro rounds
    induction rounds with
    | zero => intro last result ended; cases ended
    | succ rounds ih =>
        intro last result ended
        unfold tryPids at ended
        unfold scanPids
        split at ended
        · next busy =>
            rw [if_pos busy]
            dsimp only at ended
            by_cases turn : bumpPid last = bumpPid s.lastPid
            · rw [if_neg (fun differ => differ turn)] at ended
              rw [if_pos turn, ← Option.some.inj ended, turn]
            · rw [if_pos turn] at ended
              rw [if_neg turn]
              exact ih _ _ ended
        · next free =>
            rw [if_neg free, ← Option.some.inj ended]
  have ends := @try_ends (pidTaken s) s.lastPid range maxPid 0 (by decide) (by decide) (by
    intro i below
    omega)
  rw [Function.iterate_zero, id] at ends
  have finished : ∃ result, getPidWithin walkFuel maxPid s = some result := by
    rcases ends with ⟨k, _, _, _, ended⟩ | ⟨_, ended⟩
    · exact ⟨_, ended⟩
    · exact ⟨_, ended⟩
  obtain ⟨result, ended⟩ := finished
  rw [ended]
  exact congrArg some (agree maxPid _ _ ended).symm

/-- On any task list and from any last pid, `get_pid` ends and returns the first pid behind
the last one that no task on the list has, or -1 exactly when all of 1..32767 are in use. -/
theorem get_pid_complete (s : Processes T) (nodes : List T)
    (ring : Ring s.taskList none (nodes.map some)) (range : PidRange s.lastPid.toNat) :
    ∃ (result : Option (BitVec 16)) (last : BitVec 16),
      (∀ walk rounds, nodes.length < walk → maxPid ≤ rounds →
        getPidWithin walk rounds s = some (result, last)) ∧
      (∀ pid, result = some pid → ∃ place < maxPid,
        pid.toNat = pidAfter s.lastPid.toNat place ∧ ¬ PidInUse s nodes pid.toNat ∧
        ∀ i < place, PidInUse s nodes (pidAfter s.lastPid.toNat i)) ∧
      (result = none ↔ ∀ pid, PidRange pid → PidInUse s nodes pid) := by
  have used : ∀ walk, nodes.length < walk → ∀ i,
      pidUsed walk s ((bumpPid^[i] (bumpPid s.lastPid)).signExtend 32) = true ↔
        PidInUse s nodes (pidAfter s.lastPid.toNat i) := by
    intro walk enough i
    have place := bumped_val range i
    rw [← place]
    apply pid_used_iff ring enough
    rw [place]
    exact pid_after_range _ _
  have ends := fun walk rounds (enough : maxPid ≤ 0 + rounds) =>
    @try_ends (pidUsed walk s) s.lastPid range rounds 0 (by decide) enough (by
      intro i below
      omega)
  by_cases full : ∀ i < maxPid, PidInUse s nodes (pidAfter s.lastPid.toNat i)
  · refine ⟨none, bumpPid s.lastPid, ?_, ?_, ?_⟩
    · intro walk rounds walked turned
      rcases ends walk rounds (by omega) with ⟨k, inside, _, free, _⟩ | ⟨_, ended⟩
      · rw [(used walk walked k).mpr (full k inside)] at free
        cases free
      · exact ended
    · intro pid found
      cases found
    · refine ⟨fun _ pid valid => ?_, fun _ => rfl⟩
      obtain ⟨place, inside, rfl⟩ := pid_after_reaches range valid
      exact full place inside
  · have some_free : ∃ i, i < maxPid ∧ ¬ PidInUse s nodes (pidAfter s.lastPid.toNat i) := by
      push Not at full
      exact full
    classical
    let first := Nat.find some_free
    obtain ⟨inside, free⟩ := Nat.find_spec some_free
    have busy : ∀ i < first, PidInUse s nodes (pidAfter s.lastPid.toNat i) := by
      intro i below
      have missed := Nat.find_min some_free below
      by_contra unused
      exact missed ⟨by omega, unused⟩
    refine ⟨some (bumpPid^[first] (bumpPid s.lastPid)), bumpPid^[first] (bumpPid s.lastPid),
      ?_, ?_, ?_⟩
    · intro walk rounds walked turned
      rcases ends walk rounds (by omega) with ⟨k, _, before, unused, ended⟩ | ⟨all, _⟩
      · have same : k = first := by
          rcases Nat.lt_trichotomy k first with less | same | more
          · rw [(used walk walked k).mpr (busy k less)] at unused
            cases unused
          · exact same
          · exact absurd ((used walk walked first).mp (before first more)) free
        rw [← same]
        exact ended
      · exact absurd ((used walk walked first).mp (all first inside)) free
    · intro pid found
      rw [← Option.some.inj found, bumped_val range]
      exact ⟨first, inside, rfl, free, busy⟩
    · constructor
      · intro missed
        cases missed
      · intro all
        exact absurd (all _ (pid_after_range _ _)) free

/-- Only `init` is on the list and the last pid was the greatest: the search goes round to 1,
which is in use. -/
theorem get_pid_complete_wraps :
    ∃ (result : Option (BitVec 16)) (last : BitVec 16),
      (∀ walk rounds, 1 < walk → maxPid ≤ rounds →
        getPidWithin walk rounds { bootTwo.procs with lastPid := 32767 } = some (result, last)) ∧
      result = some 2 := by
  have inv := inv_boot (0 : Fin 2) (fun _ => initTask) ⟨fun _ => none, fun _ => none⟩
    ⟨fun _ => none, fun _ => none, fun _ => none⟩
  have ring : Ring bootTwo.procs.taskList none (([0] : List (Fin 2)).map some) := inv.ring
  have one : (bootTwo.procs.tasks 0).pid.toNat = 1 := by decide +kernel
  have inUse : ∀ pid, PidInUse { bootTwo.procs with lastPid := 32767 } [0] pid ↔ pid = 1 := by
    intro pid
    simp [PidInUse, one, eq_comm]
  obtain ⟨result, last, ends, first, missed⟩ :=
    get_pid_complete { bootTwo.procs with lastPid := 32767 } [0] ring ⟨by decide, by decide⟩
  refine ⟨result, last, ends, ?_⟩
  cases result with
  | none =>
      have two := (inUse 2).mp (missed.mp rfl 2 ⟨by decide, by decide⟩)
      cases two
  | some pid =>
      obtain ⟨place, _, value, free, busy⟩ := first pid rfl
      rw [inUse] at free
      have second : place = 1 := by
        rcases Nat.lt_trichotomy place 1 with less | same | more
        · have zero : place = 0 := by omega
          subst zero
          exact absurd value free
        · exact same
        · have two := (inUse _).mp (busy 1 more)
          cases two
      subst second
      exact congrArg some (BitVec.eq_of_toNat_eq value)

end MirOs.PidScan
