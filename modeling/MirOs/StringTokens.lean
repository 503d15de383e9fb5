import MirOs.StringSpan
import Mathlib.Data.List.TakeWhile

/-!
# `strtok`

`my_strtok` of `utils.c` on the routines of `string.h`. Called for a string and then for the rest of
it until there is none, it returns the parts between the bytes of `ct`, and each of them has become
a string of its own.
-/

namespace MirOs.StringTokens

set_option autoImplicit false

open MirOs.ByteMemory MirOs.StringMachine MirOs.StringSpan

/-- The memory, in a machine whose registers may hold anything, and `___strtok`. -/
structure Strtok where
  machine : Machine
  saved : Address

def myStrtok (fuel : Nat) (t : Strtok) (s ct : Address) : Option (Address × Strtok) :=
  let sbegin := if s ≠ 0 then s else t.saved
  if sbegin = 0 then some (0, t)
  else
    (myStrspn fuel t.machine sbegin ct).bind fun span =>
      let sbegin := sbegin + span
      if t.machine.memory sbegin = 0 then some (0, { t with saved := 0 })
      else
        (myStrpbrk fuel t.machine sbegin ct).map fun send =>
          if send ≠ 0 ∧ t.machine.memory send ≠ 0 then
            (sbegin, ⟨{ t.machine with memory := Function.update t.machine.memory send 0 },
              send + 1⟩)
          else (sbegin, { t with saved := send })

/-- So many calls, all but the first one with a null pointer. -/
def strtokCalls (fuel : Nat) (ct : Address) : Nat → Strtok → Address → Option (List Address × Strtok)
  | 0, t, _ => some ([], t)
  | count + 1, t, s =>
      (myStrtok fuel t s ct).bind fun first =>
        (strtokCalls fuel ct count first.2 0).map fun rest => (first.1 :: rest.1, rest.2)

/-- The longest parts without a byte of the set. -/
def tokens (set s : List (BitVec 8)) : List (List (BitVec 8)) :=
  (s.splitOnP fun c => decide (c ∈ set)).filter (· ≠ [])

/-! ## The tokens of a string -/

section Tokens

variable {set s : List (BitVec 8)}

theorem tokens_skip {lead : List (BitVec 8)} (inside : ∀ c ∈ lead, c ∈ set) :
    tokens set (lead ++ s) = tokens set s := by
  induction lead with
  | nil => rfl
  | cons d lead ih =>
      have drop : decide (d ∈ set) = true := by simpa using inside d List.mem_cons_self
      have split := List.splitOnP_append_cons (p := fun c => decide (c ∈ set)) [] (lead ++ s) drop
      rw [← ih (fun c member => inside c (List.mem_cons_of_mem d member))]
      unfold tokens
      rw [List.cons_append, ← List.nil_append (d :: _), split, List.filter_append]
      rfl

theorem tokens_first {token : List (BitVec 8)} {d : BitVec 8} (some_ : token ≠ [])
    (outside : ∀ c ∈ token, c ∉ set) (inside : d ∈ set) :
    tokens set (token ++ d :: s) = token :: tokens set s := by
  have kept : ∀ c ∈ token, decide (c ∈ set) = false :=
    fun c member => by simpa using outside c member
  have split := List.splitOnP_append_cons_of_forall_mem (p := fun c => decide (c ∈ set)) kept d
    (by simpa using inside) s
  unfold tokens
  rw [split, List.filter_cons_of_pos (by simpa using some_)]

theorem tokens_last {token : List (BitVec 8)} (some_ : token ≠ [])
    (outside : ∀ c ∈ token, c ∉ set) : tokens set token = [token] := by
  have kept : ∀ c ∈ token, decide (c ∈ set) = false :=
    fun c member => by simpa using outside c member
  have split := List.splitOnP_eq_singleton (p := fun c => decide (c ∈ set)) kept
  unfold tokens
  rw [split, List.filter_cons_of_pos (by simpa using some_)]
  rfl

end Tokens

/-! ## Parts of a string in memory -/

/-- Bytes, none of them zero. -/
def BytesAt (memory : Memory) : Address → List (BitVec 8) → Prop
  | _, [] => True
  | a, c :: s => memory a = c ∧ c ≠ 0 ∧ BytesAt memory (a + 1) s

section Parts

variable {memory : Memory} {s later : List (BitVec 8)} {a : Address}

theorem string_append : StringAt memory a (s ++ later) ↔
    BytesAt memory a s ∧ StringAt memory (a + BitVec.ofNat 32 s.length) later := by
  induction s generalizing a with
  | nil =>
      rw [List.nil_append, List.length_nil, BitVec.add_zero]
      exact ⟨fun text => ⟨trivial, text⟩, fun text => text.2⟩
  | cons c s ih =>
      have next : a + 1 + BitVec.ofNat 32 s.length = a + BitVec.ofNat 32 (c :: s).length := by
        rw [List.length_cons]
        bv_omega
      rw [List.cons_append, StringAt, ih, next, BytesAt]
      tauto

theorem string_ends : StringAt memory a s ↔
    BytesAt memory a s ∧ memory (a + BitVec.ofNat 32 s.length) = 0 := by
  have whole : StringAt memory a (s ++ []) ↔
      BytesAt memory a s ∧ StringAt memory (a + BitVec.ofNat 32 s.length) [] := string_append
  rw [List.append_nil] at whole
  exact whole

theorem bytes_congr {other : Memory}
    (same : ∀ i, i < s.length → other (a + BitVec.ofNat 32 i) = memory (a + BitVec.ofNat 32 i))
    (text : BytesAt memory a s) : BytesAt other a s := by
  induction s generalizing a with
  | nil => trivial
  | cons c s ih =>
      obtain ⟨here, some_, rest⟩ := text
      have first := same 0 (by simp)
      rw [BitVec.add_zero] at first
      refine ⟨first.trans here, some_, ih (fun i below => ?_) rest⟩
      have next := same (i + 1) (by simpa using below)
      have step : a + 1 + BitVec.ofNat 32 i = a + BitVec.ofNat 32 (i + 1) := by bv_omega
      rw [step]
      exact next

theorem string_congr {other : Memory}
    (same : ∀ i, i ≤ s.length → other (a + BitVec.ofNat 32 i) = memory (a + BitVec.ofNat 32 i))
    (text : StringAt memory a s) : StringAt other a s := by
  rw [string_ends] at text ⊢
  refine ⟨bytes_congr (fun i below => same i (Nat.le_of_lt below)) text.1, ?_⟩
  exact (same s.length (Nat.le_refl _)).trans text.2

end Parts

/-! ## One call -/

section Call

variable {t : Strtok} {arg ct b : Address} {set : List (BitVec 8)}

/-- The longest initial part of a string whose parts are known. -/
theorem take_lead {lead body : List (BitVec 8)} (inside : ∀ c ∈ lead, c ∈ set)
    (outside : ∀ c, body.head? = some c → c ∉ set) :
    (lead ++ body).takeWhile (fun c => decide (c ∈ set)) = lead := by
  rw [List.takeWhile_append_of_pos (fun c member => by simpa using inside c member)]
  cases body with
  | nil => simp
  | cons c body =>
      rw [List.takeWhile_cons_of_neg (by simpa using outside c rfl), List.append_nil]

/-- Only bytes of the set are left. -/
theorem strtok_none {s : List (BitVec 8)} (start : (if arg ≠ 0 then arg else t.saved) = b)
    (some_ : b ≠ 0) (text : StringAt t.machine.memory b s)
    (ends : StringAt t.machine.memory ct set) (room : set.length < 2 ^ 32 - 1)
    (inside : ∀ c ∈ s, c ∈ set) :
    ∃ steps, ∀ fuel, steps ≤ fuel → myStrtok fuel t arg ct = some (0, { t with saved := 0 }) := by
  obtain ⟨steps, span⟩ := strspn_eq t.machine text ends room
  have whole : (s ++ []).takeWhile (fun c => decide (c ∈ set)) = s := take_lead inside nofun
  rw [List.append_nil] at whole
  have stop : t.machine.memory (b + BitVec.ofNat 32 s.length) = 0 := (string_ends.mp text).2
  refine ⟨steps, fun fuel enough => ?_⟩
  unfold myStrtok
  dsimp only
  rw [start, if_neg some_, span fuel enough, whole, Option.bind_some, if_pos stop]

theorem strtok_token {lead token rest : List (BitVec 8)}
    (start : (if arg ≠ 0 then arg else t.saved) = b) (some_ : b ≠ 0)
    (text : StringAt t.machine.memory b (lead ++ (token ++ rest)))
    (ends : StringAt t.machine.memory ct set) (room : set.length < 2 ^ 32 - 1)
    (low : b.toNat + (lead ++ (token ++ rest)).length < 2 ^ 32)
    (inside : ∀ c ∈ lead, c ∈ set) (token_ : token ≠ []) (outside : ∀ c ∈ token, c ∉ set)
    (stops : ∀ d, rest.head? = some d → d ∈ set) :
    ∃ steps, ∀ fuel, steps ≤ fuel → myStrtok fuel t arg ct =
      some (b + BitVec.ofNat 32 lead.length,
        if rest = [] then { t with saved := 0 }
        else
          ⟨{ t.machine with
              memory := Function.update t.machine.memory
                (b + BitVec.ofNat 32 (lead.length + token.length)) 0 },
            b + BitVec.ofNat 32 (lead.length + token.length + 1)⟩) := by
  obtain ⟨c, token', rfl⟩ := List.exists_cons_of_ne_nil token_
  have head : ∀ c', (c :: token' ++ rest).head? = some c' → c' ∉ set := by
    intro c' first
    cases first
    exact outside c List.mem_cons_self
  obtain ⟨spanSteps, span⟩ := strspn_eq t.machine text ends room
  rw [take_lead inside head] at span
  have body := (string_append.mp text).2
  obtain ⟨here, plain, -⟩ := body
  have notEnd : t.machine.memory (b + BitVec.ofNat 32 lead.length) ≠ 0 := here ▸ plain
  obtain ⟨breakSteps, break_⟩ := strpbrk_eq t.machine (string_append.mp text).2 ends room
  have found : (c :: token' ++ rest).findIdx? (fun c => decide (c ∈ set)) =
      if rest = [] then none else some (c :: token').length := by
    have none_ : (c :: token').findIdx? (fun c => decide (c ∈ set)) = none := by
      rw [List.findIdx?_eq_none_iff]
      intro c' member
      simpa using outside c' member
    rw [List.findIdx?_append, none_, Option.none_or]
    cases rest with
    | nil => rfl
    | cons d after =>
        have stop : d ∈ set := stops d rfl
        rw [List.findIdx?_cons, decide_eq_true stop, if_pos rfl, if_neg (List.cons_ne_nil _ _)]
        simp
  rw [found] at break_
  refine ⟨max spanSteps breakSteps, fun fuel enough => ?_⟩
  have first := span fuel (by omega)
  have second := break_ fuel (by omega)
  unfold myStrtok
  dsimp only
  rw [start, if_neg some_, first, Option.bind_some, if_neg notEnd, second, Option.map_some]
  cases rest with
  | nil => rfl
  | cons d after =>
      have send : b + BitVec.ofNat 32 lead.length + BitVec.ofNat 32 (c :: token').length =
          b + BitVec.ofNat 32 (lead.length + (c :: token').length) := by
        rw [BitVec.add_assoc, ← BitVec.ofNat_add]
      have delimiter := (string_append.mp (string_append.mp text).2).2
      obtain ⟨there, plain', -⟩ := delimiter
      rw [send] at there
      have notNull : b + BitVec.ofNat 32 (lead.length + (c :: token').length) ≠ 0 := by
        rw [List.length_append, List.length_append] at low
        bv_omega
      have stored : t.machine.memory (b + BitVec.ofNat 32 (lead.length + (c :: token').length)) ≠ 0 :=
        there ▸ plain'
      simp only [List.cons_ne_nil, if_false, send]
      rw [if_pos ⟨notNull, stored⟩]
      congr 3
      bv_omega

end Call

/-! ## The cut behind a token -/

section Cut

variable {memory : Memory} {lead token after : List (BitVec 8)} {d : BitVec 8} {b : Address}

/-- Where the delimiter is, which is overwritten. -/
def cut (b : Address) (lead token : List (BitVec 8)) : Address :=
  b + BitVec.ofNat 32 (lead.length + token.length)

/-- Where the next call begins. -/
def behind (b : Address) (lead token : List (BitVec 8)) : Address :=
  b + BitVec.ofNat 32 (lead.length + token.length + 1)

theorem cut_behind (low : b.toNat + (lead ++ (token ++ d :: after)).length < 2 ^ 32) {i : Nat}
    (below : i ≤ after.length) : behind b lead token + BitVec.ofNat 32 i ≠ cut b lead token := by
  rw [List.length_append, List.length_append, List.length_cons] at low
  unfold behind cut
  bv_omega

/-- What follows the delimiter stays. -/
theorem cut_rest (low : b.toNat + (lead ++ (token ++ d :: after)).length < 2 ^ 32)
    (text : StringAt memory b (lead ++ (token ++ d :: after))) :
    StringAt (Function.update memory (cut b lead token) 0) (behind b lead token) after := by
  have rest := (string_append.mp (string_append.mp text).2).2.2.2
  have origin : b + BitVec.ofNat 32 lead.length + BitVec.ofNat 32 token.length + 1 =
      behind b lead token := by
    unfold behind
    bv_omega
  rw [origin] at rest
  exact string_congr (fun i below => Function.update_of_ne (cut_behind low below) ..) rest

/-- The token becomes a string, whatever the later calls write behind the cut. -/
theorem cut_token {final : Memory} (low : b.toNat + (lead ++ (token ++ d :: after)).length < 2 ^ 32)
    (text : StringAt memory b (lead ++ (token ++ d :: after)))
    (frame : ∀ x, ¬ InRange (behind b lead token) after.length x →
      final x = Function.update memory (cut b lead token) 0 x) :
    StringAt final (b + BitVec.ofNat 32 lead.length) token := by
  rw [List.length_append, List.length_append, List.length_cons] at low
  have stop : b + BitVec.ofNat 32 lead.length + BitVec.ofNat 32 token.length = cut b lead token := by
    unfold cut
    rw [BitVec.add_assoc, ← BitVec.ofNat_add]
  refine string_ends.mpr ⟨bytes_congr (fun i below => ?_) (string_append.mp
    (string_append.mp text).2).1, ?_⟩
  · have outside : ¬ InRange (behind b lead token) after.length
        (b + BitVec.ofNat 32 lead.length + BitVec.ofNat 32 i) := by
      unfold InRange behind
      bv_omega
    have other : b + BitVec.ofNat 32 lead.length + BitVec.ofNat 32 i ≠ cut b lead token := by
      unfold cut
      bv_omega
    rw [frame _ outside, Function.update_of_ne other]
  · have outside : ¬ InRange (behind b lead token) after.length (cut b lead token) := by
      unfold InRange behind cut
      bv_omega
    rw [stop, frame _ outside, Function.update_self]

/-- The delimiter and what follows it are bytes of the string. -/
theorem cut_frame {x : Address} (low : b.toNat + (lead ++ (token ++ d :: after)).length < 2 ^ 32)
    (outside : ¬ InRange b (lead ++ (token ++ d :: after)).length x) :
    ¬ InRange (behind b lead token) after.length x ∧ x ≠ cut b lead token := by
  rw [List.length_append, List.length_append, List.length_cons] at outside
  have total : b.toNat + (lead.length + (token.length + (after.length + 1))) < 2 ^ 32 := by
    rw [List.length_append, List.length_append, List.length_cons] at low
    exact low
  unfold InRange at outside
  constructor
  · unfold InRange behind
    bv_omega
  · unfold cut
    bv_omega

end Cut

/-! ## All calls -/

/-- A string is bytes of the set, or such bytes, a token, and what stops it. -/
theorem string_parts (set s : List (BitVec 8)) :
    (∀ c ∈ s, c ∈ set) ∨ ∃ lead token rest, s = lead ++ (token ++ rest) ∧ (∀ c ∈ lead, c ∈ set) ∧
      token ≠ [] ∧ (∀ c ∈ token, c ∉ set) ∧ ∀ d, rest.head? = some d → d ∈ set := by
  have whole := List.takeWhile_append_dropWhile (p := fun c => decide (c ∈ set)) (l := s)
  have lead : ∀ c ∈ s.takeWhile (fun c => decide (c ∈ set)), c ∈ set :=
    fun c member => by simpa using List.mem_takeWhile_imp member
  have first := List.head?_dropWhile_not (fun c => decide (c ∈ set)) s
  generalize s.dropWhile (fun c => decide (c ∈ set)) = body at whole first
  cases body with
  | nil =>
      left
      rw [List.append_nil] at whole
      rw [← whole]
      exact lead
  | cons c body =>
      right
      have split := List.takeWhile_append_dropWhile (p := fun c => decide (c ∉ set))
        (l := c :: body)
      have outside : c ∉ set := by simpa using first
      refine ⟨_, (c :: body).takeWhile fun c => decide (c ∉ set),
        (c :: body).dropWhile fun c => decide (c ∉ set), ?_, lead, ?_, ?_, ?_⟩
      · rw [split, whole]
      · rw [List.takeWhile_cons_of_pos (by simpa using outside)]
        exact List.cons_ne_nil _ _
      · exact fun c member => by simpa using List.mem_takeWhile_imp member
      · intro d stop
        have stops := List.head?_dropWhile_not (fun c => decide (c ∉ set)) (c :: body)
        rw [stop] at stops
        simpa using stops

/-- The calls of a string and of its rest, until a null pointer is returned: the pointers are those of
the tokens, which have become strings, and only bytes of the string are changed. -/
theorem strtok_tokens (set : List (BitVec 8)) (ct : Address) (room : set.length < 2 ^ 32 - 1)
    (s : List (BitVec 8)) (t : Strtok) (arg b : Address)
    (start : (if arg ≠ 0 then arg else t.saved) = b) (some_ : b ≠ 0)
    (low : b.toNat + s.length < 2 ^ 32) (text : StringAt t.machine.memory b s)
    (ends : StringAt t.machine.memory ct set)
    (apart : ∀ i, i ≤ set.length → ∀ j, j < s.length →
      ct + BitVec.ofNat 32 i ≠ b + BitVec.ofNat 32 j) :
    ∃ steps pointers after, (∀ fuel, steps ≤ fuel →
        strtokCalls fuel ct ((tokens set s).length + 1) t arg = some (pointers ++ [0], after)) ∧
      List.Forall₂ (StringAt after.machine.memory) pointers (tokens set s) ∧
      ∀ x, ¬ InRange b s.length x → after.machine.memory x = t.machine.memory x := by
  induction length : s.length using Nat.strong_induction_on generalizing s t arg b with
  | h n ih =>
  rcases string_parts set s with inside | ⟨lead, token, rest, rfl, inside, token_, outside, stops⟩
  · obtain ⟨steps, call⟩ := strtok_none start some_ text ends room inside
    have empty : tokens set s = [] := by
      have skipped : tokens set (s ++ []) = tokens set [] := tokens_skip inside
      rw [List.append_nil] at skipped
      rw [skipped]
      rfl
    refine ⟨steps, [], { t with saved := 0 }, fun fuel enough => ?_, ?_, fun _ _ => rfl⟩
    · rw [empty]
      unfold strtokCalls
      rw [call fuel enough]
      rfl
    · rw [empty]
      exact .nil
  · obtain ⟨steps, call⟩ := strtok_token start some_ text ends room low inside token_ outside stops
    have body := (string_append.mp text).2
    have skipped : tokens set (lead ++ (token ++ rest)) = tokens set (token ++ rest) :=
      tokens_skip inside
    cases rest with
    | nil =>
        have single : tokens set (lead ++ (token ++ [])) = [token] := by
          rw [skipped, List.append_nil]
          exact tokens_last token_ outside
        rw [List.append_nil] at body
        refine ⟨steps, [b + BitVec.ofNat 32 lead.length], { t with saved := 0 },
          fun fuel enough => ?_, ?_, fun _ _ => rfl⟩
        · rw [single]
          unfold strtokCalls
          rw [call fuel enough]
          rfl
        · rw [single]
          exact .cons body .nil
    | cons d after =>
        have more : tokens set (lead ++ (token ++ d :: after)) = token :: tokens set after :=
          skipped.trans (tokens_first token_ outside (stops d rfl))
        have total : (lead ++ (token ++ d :: after)).length =
            lead.length + token.length + 1 + after.length := by
          rw [List.length_append, List.length_append, List.length_cons]
          omega
        rw [if_neg (List.cons_ne_nil _ _)] at call
        have ends' : StringAt (Function.update t.machine.memory (cut b lead token) 0) ct set :=
          string_congr (fun i below => Function.update_of_ne (apart i below _ (by omega)) ..) ends
        have apart' : ∀ i, i ≤ set.length → ∀ j, j < after.length →
            ct + BitVec.ofNat 32 i ≠ behind b lead token + BitVec.ofNat 32 j := by
          intro i below j short
          have other := apart i below (lead.length + token.length + 1 + j) (by omega)
          rwa [BitVec.ofNat_add, ← BitVec.add_assoc] at other
        have some' : behind b lead token ≠ 0 := by
          unfold behind
          bv_omega
        have low' : (behind b lead token).toNat + after.length < 2 ^ 32 := by
          unfold behind
          bv_omega
        obtain ⟨laterSteps, pointers, final, calls, strings, frame⟩ := ih after.length (by omega)
          after ⟨{ t.machine with
            memory := Function.update t.machine.memory (cut b lead token) 0 }, behind b lead token⟩
          0 _ rfl some' low' (cut_rest low text) ends' apart' rfl
        refine ⟨max steps laterSteps, (b + BitVec.ofNat 32 lead.length) :: pointers, final,
          fun fuel enough => ?_, ?_, fun x outside => ?_⟩
        · rw [more, List.length_cons]
          unfold strtokCalls
          rw [call fuel (by omega), Option.bind_some]
          refine (congrArg _ (calls fuel (by omega))).trans ?_
          rfl
        · rw [more]
          exact .cons (cut_token low text frame) strings
        · rw [← length] at outside
          obtain ⟨beyond, other⟩ := cut_frame low outside
          exact (frame x beyond).trans (Function.update_of_ne other ..)

/-- `a b` and the delimiter. -/
def twoWords : Memory := fun x =>
  if x = 0x1000 then 97
  else if x = 0x1001 then 32
  else if x = 0x1002 then 98
  else if x = 0x2000 then 32
  else 0

def twoWordsMachine : Machine := ⟨0, 0, 0, 0, 0, 0, false, false, false, false, twoWords⟩

theorem strtok_tokens_two : ∃ steps pointers after, (∀ fuel, steps ≤ fuel →
      strtokCalls fuel 0x2000 3 ⟨twoWordsMachine, 0⟩ 0x1000 = some (pointers ++ [0], after)) ∧
    List.Forall₂ (StringAt after.machine.memory) pointers [[97], [98]] := by
  have text : StringAt twoWords 0x1000 [97, 32, 98] :=
    ⟨rfl, by decide, rfl, by decide, rfl, by decide, rfl⟩
  have ends : StringAt twoWords 0x2000 [32] := ⟨rfl, by decide, rfl⟩
  have apart : ∀ i, i ≤ [(32 : BitVec 8)].length → ∀ j, j < [(97 : BitVec 8), 32, 98].length →
      (0x2000 : Address) + BitVec.ofNat 32 i ≠ 0x1000 + BitVec.ofNat 32 j := by decide
  obtain ⟨steps, pointers, after, calls, strings, -⟩ := strtok_tokens [32] 0x2000 (by decide)
    [97, 32, 98] ⟨twoWordsMachine, 0⟩ 0x1000 0x1000 rfl (by decide) (by decide) text ends apart
  exact ⟨steps, pointers, after, calls, strings⟩

end MirOs.StringTokens
