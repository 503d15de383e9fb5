import MirOs.FloppyController

/-!
# What the floppy driver asks for

A request for a block becomes orders for that block only, however often the controller reports an
error, and whatever it answers, unless it does not take a byte.
-/

namespace MirOs.FloppyTransfers

set_option autoImplicit false

open MirOs.PortSession
open MirOs.FloppyDriver
open MirOs.FloppyController

/-! ## Bytes that the controller does not take -/

/-- In these accesses the driver gives up a byte. -/
def Lost (said : List Access) : Prop :=
  ∃ front rounds back, said = front ++ (busyRounds fdcMsr pause rounds ++ back) ∧
    rounds.length = 128 ∧ ∀ round ∈ rounds, (round.1 &&& 0xc0 == 0x80) = false

theorem Lost.append_right {said : List Access} (lost : Lost said) (more : List Access) :
    Lost (said ++ more) := by
  obtain ⟨front, rounds, back, rfl, count, busy⟩ := lost
  refine ⟨front, rounds, back ++ more, ?_, count, busy⟩
  rw [List.append_assoc, List.append_assoc]

theorem Lost.append_left {more : List Access} (lost : Lost more) (said : List Access) :
    Lost (said ++ more) := by
  obtain ⟨front, rounds, back, rfl, count, busy⟩ := lost
  refine ⟨said ++ front, rounds, back, ?_, count, busy⟩
  rw [List.append_assoc]

section Rules

variable {A B : Type} {first : Driver A} {next : A → Driver B}

/-- Unless a byte is given up, the accesses and the result have the property. -/
def Does (driver : Driver A) (P : List Access → A → Prop) : Prop :=
  Records driver fun said a => Lost said ∨ P said a

theorem does_pure {P : List Access → A → Prop} {a : A} (holds : P [] a) : Does (pure a) P :=
  records_pure (.inr holds)

theorem Does.bind {P : List Access → A → Prop} {R : A → List Access → B → Prop}
    {Q : List Access → B → Prop} (before : Does first P) (after : ∀ a, Does (next a) (R a))
    (both : ∀ said a more b, P said a → R a more b → Q (said ++ more) b) :
    Does (first >>= next) Q := by
  refine Records.bind before fun said a begun => (after a).weaken fun more b gone => ?_
  rcases begun with lost | holds
  · exact .inl (lost.append_right more)
  · rcases gone with lost | ends
    · exact .inl (lost.append_left said)
    · exact .inr (both said a more b holds ends)

theorem does_of_records {P Q : List Access → A → Prop} (records : Records first P)
    (same : ∀ said a, P said a → Q said a) : Does first Q :=
  records.weaken fun said a holds => .inr (same said a holds)

theorem Does.weaken {P Q : List Access → A → Prop} (does : Does first P)
    (weaker : ∀ said a, P said a → Q said a) : Does first Q :=
  Records.weaken does fun said a holds => holds.imp_right (weaker said a)

end Rules

/-! ## Bytes -/

theorem does_sendbyte (byte : BitVec 8) : Does (fdSendbyte byte) fun said _ => Sends said [byte] := by
  refine (records_when_ready (records_outb fdcData byte) 128).weaken fun said _ polled => ?_
  obtain ⟨rounds, busy, ⟨count, rfl, _⟩ | ⟨status, more, rfl, rfl⟩⟩ := polled
  · exact .inl ⟨[], rounds, [], (List.append_nil _).symm, count, busy⟩
  · exact .inr ((sends_busy fdcMsr pause rounds).append
      ((sends_read fdcMsr status).append (sends_byte byte)))

theorem does_sendbytes (bytes : List (BitVec 8)) :
    Does (fdSendbytes bytes) fun said _ => Sends said bytes := by
  induction bytes with
  | nil => exact does_pure sends_nil
  | cons byte bytes ih =>
      exact (does_sendbyte byte).bind (fun _ => ih) fun _ _ _ _ first rest => first.append rest

theorem records_getbyte : Records fdGetbyte fun said _ => Sends said [] := by
  have act : Records (do
      let byte ← inb fdcData
      pure (byte.setWidth 32)) fun said (_ : BitVec 32) => Sends said [] := by
    refine (records_inb fdcData).bind fun said value here => records_pure ?_
    subst here
    exact sends_read fdcData value
  refine (records_when_ready act fdGetbyteTmout).weaken fun said _ polled => ?_
  obtain ⟨rounds, _, ⟨_, rfl, _⟩ | ⟨status, more, rfl, nothing⟩⟩ := polled
  · exact sends_busy fdcMsr pause rounds
  · exact (sends_busy fdcMsr pause rounds).append ((sends_read fdcMsr status).append nothing)

theorem records_results (fdc : FdcStruct) (statsz room : Nat) :
    Records (readResults fdc statsz room) fun said _ => Sends said [] := by
  induction room generalizing fdc statsz with
  | zero => exact records_pure sends_nil
  | succ room ih =>
      refine (records_inb fdcMsr).bind fun said msr here => ?_
      subst here
      by_cases stop : msr &&& 0x10 = 0
      · rw [if_pos stop]
        exact records_pure (sends_read fdcMsr msr)
      · rw [if_neg stop]
        refine records_getbyte.bind fun said k nothing => ?_
        refine (ih _ _).weaken fun more _ later => ?_
        exact (sends_read fdcMsr msr).append (nothing.append later)

/-! ## Orders -/

/-- The orders for a block: so many transfers, and what goes with them. -/
structure Asked (transfer : Order) (track tries : Nat) (orders : List Order) : Prop where
  others : ∀ o ∈ orders, o = transfer ∨ o = .seek track ∨ o = .recalibrate ∨ o = .sense
  count : orders.count transfer = tries

section Orders

variable {cmd : Command} {block address length track : Nat}

theorem Asked.append {transfer : Order} {m n : Nat} {orders after : List Order}
    (first : Asked transfer track m orders) (second : Asked transfer track n after) :
    Asked transfer track (m + n) (orders ++ after) where
  others := fun o member => (List.mem_append.mp member).elim (first.others o) (second.others o)
  count := by rw [List.count_append, first.count, second.count]

/-- The accesses ask for so many transfers of the block. -/
def Asks (cmd : Command) (block address length track tries : Nat) (said : List Access) : Prop :=
  ∃ orders, Means said orders ∧ Asked (.transfer cmd block address length) track tries orders

theorem Asks.append {m n : Nat} {said more : List Access}
    (first : Asks cmd block address length track m said)
    (second : Asks cmd block address length track n more) :
    Asks cmd block address length track (m + n) (said ++ more) := by
  obtain ⟨orders, means, asked⟩ := first
  obtain ⟨after, means', asked'⟩ := second
  exact ⟨orders ++ after, means.append means', asked.append asked'⟩

theorem asks_nothing {said : List Access} (means : Means said []) :
    Asks cmd block address length track 0 said :=
  ⟨[], means, nofun, rfl⟩

theorem asks_sense {said : List Access} (means : Means said [.sense]) :
    Asks cmd block address length track 0 said :=
  ⟨_, means, by simp, by simp⟩

theorem asks_recalibrate {said : List Access} (means : Means said [.recalibrate]) :
    Asks cmd block address length track 0 said :=
  ⟨_, means, by simp, by simp⟩

theorem asks_seek {said : List Access} (means : Means said [.seek track]) :
    Asks cmd block address length track 0 said :=
  ⟨_, means, by simp, by simp⟩

theorem asks_transfer {said : List Access} (means : Means said [.transfer cmd block address length]) :
    Asks cmd block address length track 1 said :=
  ⟨_, means, by simp, by simp⟩

theorem does_waitfdc (fdc : FdcStruct) :
    Does (fdWaitfdc fdc true) fun said _ => Asks cmd block address length track 0 said := by
  have results : Does (readResults fdc 0 7) fun said _ => Sends said [] :=
    does_of_records (records_results fdc 0 7) fun _ _ holds => holds
  have byte : Does fdGetbyte fun said _ => Sends said [] :=
    does_of_records records_getbyte fun _ _ holds => holds
  refine results.bind (R := fun _ said _ => Sends said [cmdSensei]) (fun fdc => ?_)
    fun said _ more _ first rest => asks_sense (means_sense (first.append rest))
  refine (does_sendbyte cmdSensei).bind (R := fun _ said _ => Sends said []) (fun _ => ?_)
    fun _ _ _ _ first rest => first.append rest
  refine byte.bind (R := fun _ said _ => Sends said []) (fun sr0 => ?_)
    fun _ _ _ _ first rest => first.append rest
  exact byte.bind (R := fun _ said _ => said = []) (fun _ => does_pure rfl)
    fun _ _ _ _ first rest => rest ▸ first.append sends_nil

/-- Two steps ask for what each of them asks for. -/
theorem Does.asks {A B : Type} {first : Driver A} {next : A → Driver B} {m n : Nat}
    (before : Does first fun said _ => Asks cmd block address length track m said)
    (after : ∀ a, Does (next a) fun said _ => Asks cmd block address length track n said) :
    Does (first >>= next) fun said _ => Asks cmd block address length track (m + n) said :=
  before.bind after fun _ _ _ _ first rest => first.append rest

theorem does_register {port : Port} (other : port ≠ fdcData) (value : BitVec 8) :
    Does (outb port value) fun said _ => Asks cmd block address length track 0 said := by
  refine does_of_records (records_outb port value) ?_
  rintro said _ rfl
  exact asks_nothing (means_outb other value)

theorem does_motoron (fdc : FdcStruct) :
    Does (fdMotoron fdc) fun said _ => Asks cmd block address length track 0 said := by
  unfold fdMotoron
  by_cases on : fdc.motor
  · rw [if_pos on]
    exact does_pure (asks_nothing means_nil)
  · rw [if_neg on]
    exact (does_register (by decide) _).asks (n := 0) fun _ => does_pure (asks_nothing means_nil)

theorem does_recalibrate (fdc : FdcStruct) :
    Does (fdRecalibrate fdc) fun said _ => Asks cmd block address length track 0 said := by
  have command : Does (fdSendbytes [cmdRecal, 0]) fun said _ =>
      Asks cmd block address length track 0 said :=
    (does_sendbytes _).weaken fun _ _ sends => asks_recalibrate (means_recalibrate sends)
  exact (does_motoron fdc).asks fun fdc => command.asks fun _ => does_waitfdc fdc

theorem does_seek (small : track < 256) (fdc : FdcStruct) :
    Does (fdSeek fdc track) fun said _ => Asks cmd block address length track 0 said := by
  unfold fdSeek
  by_cases there : fdc.fdcTrack.toNat = track
  · rw [if_pos there]
    exact does_pure (asks_nothing means_nil)
  · rw [if_neg there]
    have command : Does (fdSendbytes [cmdSeek, 0, BitVec.ofNat 8 track]) fun said _ =>
        Asks cmd block address length track 0 said := by
      refine (does_sendbytes _).weaken fun _ _ sends => asks_seek ?_
      have means := means_seek sends
      rwa [small_byte small] at means
    refine (does_motoron fdc).asks (n := 0) fun fdc => command.asks (n := 0) fun _ => ?_
    exact (does_waitfdc fdc).asks (n := 0) fun _ => does_pure (asks_nothing means_nil)

theorem does_real_seek (small : track < 256) (fuel : Nat) (fdc : FdcStruct) :
    Does (realSeek track fuel fdc) fun said _ => Asks cmd block address length track 0 said := by
  induction fuel generalizing fdc with
  | zero => exact records_unfinished
  | succ fuel ih =>
      refine (does_seek small fdc).asks (n := 0) fun result => ?_
      obtain ⟨k, fdc⟩ := result
      cases k with
      | true => exact does_pure (asks_nothing means_nil)
      | false => exact ih fdc

theorem records_dma (physaddr : BitVec 32) (length : Nat) (cmd : Command) :
    Records (dmaXfer physaddr length cmd) fun said _ => said = dmaLog physaddr length cmd := by
  intro bus result run
  cases run
  refine ⟨_, ?_, rfl⟩
  cases cmd <;> simp [dmaLog, modeOf]

end Orders

/-! ## Requests -/

section Requests

variable {cmd : Command} {block length fuel : Nat} {tbaddr : BitVec 32}

/-- What a transfer of a block asks for. -/
abbrev AsksBlock (cmd : Command) (block : Nat) (tbaddr : BitVec 32) (length tries : Nat)
    (said : List Access) : Prop :=
  Asks cmd block tbaddr.toNat length (fdBlock2hts block).track tries said

theorem does_once (small : block < 2880) (low : tbaddr.toNat < 2 ^ 24) (some_ : 0 < length)
    (short : length ≤ 2 ^ 16) (fdc : FdcStruct) :
    Does (transferOnce fuel tbaddr length (fdBlock2hts block) cmd fdc)
      fun said _ => AsksBlock cmd block tbaddr length 1 said := by
  have tracks := (place_bounds small).2.1
  unfold dg144Tracks at tracks
  refine (does_real_seek (by omega) fuel fdc).asks (n := 1) fun fdc => ?_
  refine (does_register (by decide) 0).asks (n := 1) fun _ => ?_
  have dma : Does (dmaXfer tbaddr length cmd) fun said _ => said = dmaLog tbaddr length cmd :=
    does_of_records (records_dma tbaddr length cmd) fun _ _ same => same
  refine dma.bind (R := fun _ said _ => ∃ front back, said = front ++ back ∧
    Sends front (sectorCommand (fdBlock2hts block) cmd) ∧
      AsksBlock cmd block tbaddr length 0 back) (fun _ => ?_) ?_
  · exact (does_sendbytes _).bind (fun _ => does_waitfdc fdc) fun said _ more _ sends asks =>
      ⟨said, more, rfl, sends, asks⟩
  · rintro said _ more _ rfl ⟨front, back, rfl, sends, asks⟩
    rw [← List.append_assoc]
    exact (asks_transfer (means_transfer cmd small low some_ short sends)).append (n := 0) asks

theorem does_tries (small : block < 2880) (low : tbaddr.toNat < 2 ^ 24) (some_ : 0 < length)
    (short : length ≤ 2 ^ 16) (tries : Nat) (fdc : FdcStruct) :
    Does (transferTries fuel tbaddr length (fdBlock2hts block) cmd tries fdc) fun said result =>
      ∃ n, AsksBlock cmd block tbaddr length n said ∧ n ≤ tries ∧
        ((result.1 = true ∧ 0 < n ∧ result.2.status 0 &&& 0xc0 = 0) ∨
          (result.1 = false ∧ n = tries)) := by
  induction tries generalizing fdc with
  | zero => exact does_pure ⟨0, asks_nothing means_nil, Nat.le_refl 0, .inr ⟨rfl, rfl⟩⟩
  | succ tries ih =>
      refine (does_once small low some_ short fdc).bind (R := fun _ said result =>
        ∃ n, AsksBlock cmd block tbaddr length n said ∧ n ≤ tries ∧
          ((result.1 = true ∧ result.2.status 0 &&& 0xc0 = 0) ∨
            (result.1 = false ∧ n = tries))) (fun fdc => ?_) ?_
      · by_cases worked : fdc.status 0 &&& 0xc0 = 0
        · rw [if_pos worked]
          exact does_pure ⟨0, asks_nothing means_nil, Nat.zero_le _, .inl ⟨rfl, worked⟩⟩
        · rw [if_neg worked]
          have recalibrated : Does (fdRecalibrate fdc) fun said _ =>
              AsksBlock cmd block tbaddr length 0 said := does_recalibrate fdc
          refine recalibrated.bind (fun fdc => ih fdc) ?_
          rintro said _ more result again ⟨n, asks, most, ends⟩
          have all := again.append asks
          rw [Nat.zero_add] at all
          exact ⟨n, all, most, ends.imp (fun ends => ⟨ends.1, ends.2.2⟩) id⟩
      · rintro said _ more result first ⟨n, asks, most, ends⟩
        refine ⟨1 + n, first.append asks, by omega, ?_⟩
        rcases ends with ⟨worked, status⟩ | ⟨failed, all⟩
        · exact .inl ⟨worked, by omega, status⟩
        · exact .inr ⟨failed, by omega⟩

/-- One to three transfers of the block are asked for, and zero is returned just if the last status
says that it has worked; what is written is the start of the data. -/
def Served (cmd : Command) (block : Nat) (tbaddr : BitVec 32) (length : Nat) (data : List (BitVec 8))
    (said : List Access) (result : Transferred) : Prop :=
  ∃ tries, AsksBlock cmd block tbaddr length tries said ∧ 0 < tries ∧ tries ≤ 3 ∧
    ((result.err = 0 ∧ result.fdc.status 0 &&& 0xc0 = 0) ∨ (result.err = 1 ∧ tries = 3)) ∧
    (cmd = .write → result.data = data ∧ result.trackBuffer = data.take length)

/-- The drive before its first command. -/
def idle : FdcStruct := ⟨0, 0x5000, false, fun _ => 0, 0, 0, 0xff⟩

/-- A drive that seeks to the second track and then reads. -/
def willing : Bus where
  answers := [0x80, 0x80, 0x80, 0x80, 0x80, 0xd0, 0x20, 0xd0, 0x02] ++
    List.replicate 9 0x80 ++ [0x80, 0x80, 0xd0, 0x00, 0xd0, 0x02]
  accesses := []

end Requests

end MirOs.FloppyTransfers
