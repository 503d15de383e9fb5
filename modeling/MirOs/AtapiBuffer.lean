import MirOs.AtapiDriver

/-!
# The buffer of a packet command

However many bytes a device offers, and however often a command starts again, the driver writes to
the blocks that were asked for and to nothing else.
-/

namespace MirOs.AtapiBuffer

set_option autoImplicit false

open MirOs.ByteMemory
open MirOs.PortSession
open MirOs.AtapiDriver

section Stores

variable {memory memory' : Memory} {a x : Address}

theorem store_other {bytes : List (BitVec 8)} (outside : ¬ InRange a bytes.length x) :
    store memory a bytes x = memory x := by
  unfold store
  have none_ : bytes[position a x]? = none := by
    rw [List.getElem?_eq_none_iff]
    exact Nat.le_of_not_lt outside
  rw [none_, Option.getD_none]

/-- A part of a range, and the range. -/
theorem in_range_part {offset count size : Nat} (room : offset + count ≤ size)
    (inside : InRange (a + BitVec.ofNat 32 offset) count x) : InRange a size x := by
  unfold InRange at *
  have place : (x - a).toNat = ((x - (a + BitVec.ofNat 32 offset)).toNat + offset) % 2 ^ 32 := by
    bv_omega
  have bound := Nat.mod_le ((x - (a + BitVec.ofNat 32 offset)).toNat + offset) (2 ^ 32)
  omega

theorem insw_other (port : Port) (memory : Memory) (data : Address) (count : Nat) :
    Ensures (ideInsw port memory data count)
      fun memory' => ∀ x, ¬ InRange data (2 * count) x → memory' x = memory x := by
  induction count generalizing memory data with
  | zero => exact ensures_pure fun _ _ => rfl
  | succ count ih =>
      refine ensures_after fun value => (ih _ _).weaken fun memory' kept x outside => ?_
      have room : 2 + 2 * count ≤ 2 * (count + 1) := by omega
      have later : ¬ InRange (data + 2) (2 * count) x :=
        fun inside => outside (in_range_part room inside)
      have here : ¬ InRange data 2 x := by
        intro inside
        unfold InRange at *
        omega
      rw [kept x later]
      exact store_other here

end Stores

/-- A transfer fills at most what it is told to. -/
theorem read_discard_other (base : Port) (memory : Memory) (buffer : Address) (soll : Nat) :
    Ensures (ideAtapiReadDiscard base memory buffer soll) fun result =>
      result.2 ≤ soll ∧ ∀ x, ¬ InRange buffer result.2 x → result.1 x = memory x := by
  unfold ideAtapiReadDiscard
  by_cases null : buffer = 0
  · rw [if_pos null]
    exact ensures_pure ⟨Nat.zero_le _, fun _ _ => rfl⟩
  · rw [if_neg null]
    refine ensures_after fun hicnt => ensures_after fun locnt => ?_
    refine (insw_other _ _ _ _).bind fun memory' kept => ensures_after fun _ => ensures_pure ?_
    refine ⟨Nat.min_le_left _ _, fun x outside => kept x fun inside => outside ?_⟩
    unfold InRange at *
    omega

/-! ## Counting blocks -/

section Counts

variable (d : IdeDevice) {bytes blocks : Nat}

theorem bytes_le_blocks : bytes ≤ blocksOf d bytes * d.bytesPerBlock := by
  unfold blocksOf
  have parts := Nat.div_add_mod bytes d.bytesPerBlock
  rw [Nat.add_mul, Nat.mul_comm (bytes / d.bytesPerBlock)]
  split
  · omega
  · have rest := Nat.mod_lt bytes d.positive
    omega

theorem blocks_le (few : bytes ≤ blocks * d.bytesPerBlock) : blocksOf d bytes ≤ blocks := by
  unfold blocksOf
  have whole : bytes / d.bytesPerBlock ≤ blocks := Nat.div_le_of_le_mul (Nat.mul_comm _ _ ▸ few)
  split
  · exact whole
  · next rest =>
      rcases Nat.lt_or_ge (bytes / d.bytesPerBlock) blocks with less | full
      · exact less
      · have parts := Nat.div_add_mod bytes d.bytesPerBlock
        have most : d.bytesPerBlock * blocks ≤ d.bytesPerBlock * (bytes / d.bytesPerBlock) :=
          Nat.mul_le_mul_left _ full
        rw [Nat.mul_comm] at few
        omega

theorem blocks_of_whole : blocksOf d (blocks * d.bytesPerBlock) = blocks := by
  unfold blocksOf
  rw [Nat.mul_mod_left, if_pos rfl, Nat.mul_div_cancel _ d.positive, Nat.add_zero]

end Counts

/-! ## The whole command -/

/-- What is left of a request fits behind what was written for it. -/
structure Within (d : IdeDevice) (asked r : Request) : Prop where
  others : ∀ x, ¬ InRange asked.buffer (asked.num * d.bytesPerBlock) x →
    r.memory x = asked.memory x
  place : ∃ offset, r.buffer = asked.buffer + BitVec.ofNat 32 offset ∧
    offset + r.num * d.bytesPerBlock ≤ asked.num * d.bytesPerBlock

section Phases

variable {d : IdeDevice} {asked r : Request}

theorem within_start : Within d asked asked where
  others := fun _ _ => rfl
  place := ⟨0, (BitVec.add_zero _).symm, by omega⟩

theorem data_phase_within (within : Within d asked r) :
    Ensures (dataPhase d r) (Within d asked) := by
  unfold dataPhase
  refine (read_discard_other _ _ _ _).bind fun result part => ensures_pure ?_
  obtain ⟨count, kept⟩ := part
  obtain ⟨offset, start, room⟩ := within.place
  have few : result.2 ≤ r.num * d.bytesPerBlock :=
    Nat.le_trans count (Nat.mul_le_mul_right _ (Nat.min_le_left _ _))
  have counted := blocks_le d few
  have covered : result.2 ≤ blocksOf d result.2 * d.bytesPerBlock := bytes_le_blocks d
  refine ⟨fun x outside => ?_, offset + result.2, ?_, ?_⟩
  · have apart : ¬ InRange r.buffer result.2 x := by
      intro inside
      rw [start] at inside
      exact outside (in_range_part (by omega) inside)
    exact (kept x apart).trans (within.others x outside)
  · change r.buffer + BitVec.ofNat 32 result.2 = _
    rw [start, BitVec.ofNat_add, BitVec.add_assoc]
  · change offset + result.2 + (r.num - blocksOf d result.2) * d.bytesPerBlock ≤ _
    rw [Nat.sub_mul]
    have left := Nat.mul_le_mul_right d.bytesPerBlock counted
    omega

theorem data_phases_within (fuel : Nat) (within : Within d asked r) :
    Ensures (dataPhases d fuel r) fun result =>
      Within d asked result.2 ∧ (result.1 = true → result.2.num = 0) := by
  induction fuel generalizing r with
  | zero => exact ensures_unfinished
  | succ fuel ih =>
      refine ensures_after fun now => ?_
      by_cases done : now = atapiPhDone
      · rw [if_pos done]
        exact ensures_pure ⟨within, of_decide_eq_true⟩
      · rw [if_neg done]
        by_cases other : now ≠ atapiPhDatain
        · rw [if_pos other]
          exact ensures_pure ⟨within, nofun⟩
        · rw [if_neg other]
          exact (data_phase_within within).bind fun r' within' => ih within'

theorem packet_within (fuel : Nat) (pkt : List (BitVec 8)) (within : Within d asked r) :
    Ensures (packet fuel d pkt r) fun result =>
      Within d asked result.2 ∧ (result.1 = true → result.2.num = 0) := by
  unfold packet
  refine ensures_after fun now => ?_
  by_cases other : now ≠ atapiPhCmdout
  · rw [if_pos other]
    exact ensures_pure ⟨within, nofun⟩
  · rw [if_neg other]
    exact ensures_after fun _ => data_phases_within fuel within

/-- What holds of a command that has come to its end. -/
structure Ended (d : IdeDevice) (asked : Request) (o : Outcome) : Prop where
  within : Within d asked o.request
  complete : o.err = 0 → o.request.num = 0
  failed : o.err = 0 ∨ o.err = 255 ∨ o.err = -1
  tries : o.tries < maxTries

theorem wait_result (port : Port) (mask bits : BitVec 8) (timeout : Nat) :
    Ensures (ideWait port mask bits timeout) fun err => err = 0 ∨ err = 255 := by
  refine ensures_after fun ready => ensures_pure ?_
  cases ready
  · exact .inr rfl
  · exact .inl rfl

theorem error_result (base : Port) (tries : Nat) :
    Ensures (ideAtapiError base tries) fun result =>
      (result.1 = 0 ∨ result.1 = -1) ∧ result.2 < maxTries := by
  refine ensures_after fun _ => ensures_after fun _ => ?_
  by_cases last : maxTries ≤ tries + 1
  · rw [if_pos last]
    exact ensures_pure ⟨.inr rfl, by decide⟩
  · rw [if_neg last]
    exact ensures_pure ⟨.inl rfl, Nat.lt_of_not_le last⟩

theorem attempts_within (pkt : List (BitVec 8)) (fuel : Nat) {tries : Nat} (few : tries < maxTries)
    (within : Within d asked r) : Ensures (attempts d pkt fuel tries r) (Ended d asked) := by
  induction fuel generalizing tries r with
  | zero => exact ensures_unfinished
  | succ fuel ih =>
      refine ensures_after fun _ => (wait_result _ _ _ _).bind fun err result => ?_
      by_cases timeout : err ≠ 0
      · rw [if_pos timeout]
        rcases result with rfl | rfl
        · exact absurd rfl timeout
        · exact ensures_pure ⟨within, nofun, .inr (.inl rfl), few⟩
      · rw [if_neg timeout]
        refine (packet_within fuel pkt within).bind fun result part => ?_
        obtain ⟨done, r'⟩ := result
        obtain ⟨within', counted⟩ := part
        cases done with
        | true => exact ensures_pure ⟨within', fun _ => counted rfl, .inl rfl, few⟩
        | false =>
            refine (error_result d.base tries).bind fun result part => ?_
            obtain ⟨err, tries'⟩ := result
            obtain ⟨value, fewer⟩ := part
            dsimp only at value fewer ⊢
            by_cases last : err ≠ 0
            · rw [if_pos last]
              have failed : err = -1 := value.resolve_left last
              exact ensures_pure ⟨within', fun zero => absurd zero last, .inr (.inr failed), fewer⟩
            · rw [if_neg last]
              exact ih fewer within'

/-- On every device, a command writes to the blocks that were asked for and to nothing else, and if
it returns zero then so many were counted. -/
theorem command_within (fuel : Nat) (d : IdeDevice) (pkt : List (BitVec 8)) (tries : Nat)
    (few : tries < maxTries) (asked : Request) :
    Ensures (ideAtapiCmd fuel d pkt tries asked) (Ended d asked) := by
  unfold ideAtapiCmd ideSelect
  refine Ensures.bind (ensures_after fun _ => wait_result _ _ _ _) fun err result => ?_
  by_cases timeout : err ≠ 0
  · rw [if_pos timeout]
    rcases result with rfl | rfl
    · exact absurd rfl timeout
    · exact ensures_pure ⟨within_start, nofun, .inr (.inl rfl), few⟩
  · rw [if_neg timeout]
    exact attempts_within pkt fuel few within_start

end Phases

theorem command_within_cdrom :
    Ensures (ideAtapiCmd 5 cdrom (readPacket 16 1) 2 ⟨fun _ => 0, 0x1000, 1⟩)
      (Ended cdrom ⟨fun _ => 0, 0x1000, 1⟩) :=
  command_within 5 cdrom (readPacket 16 1) 2 (by decide) ⟨fun _ => 0, 0x1000, 1⟩

end MirOs.AtapiBuffer
