import Zeos.Numerals

/-!
# `get_player_name`

The loop of `user.c` that samples the shared input byte. It closes the string only
behind the last possible character, so that a shorter name runs on into what the
array held before.
-/

namespace Zeos.Libc

set_option autoImplicit false

abbrev maxNameLength : Nat := 10

structure NameState where
  name : Buffer
  numChars : Nat
  lastChar : UInt8

/-- What the loop does with an input that is no dot. -/
def takeInput (s : NameState) (input : UInt8) : NameState :=
  if input ≠ 0 ∧ input ≠ s.lastChar then
    { name := Function.update s.name s.numChars input, numChars := s.numChars + 1, lastChar := input }
  else s

/-- The `while` loop on the samples of `*x`; without a result it waits for more of them. -/
def nameLoop : List UInt8 → NameState → Option NameState
  | [], s => if s.numChars < maxNameLength then none else some s
  | input :: samples, s =>
    if s.numChars < maxNameLength then
      if input = UInt8.ofNat '.'.toNat then some s else nameLoop samples (takeInput s input)
    else some s

def getPlayerName (name : Buffer) (samples : List UInt8) : Option Buffer :=
  (nameLoop samples ⟨Function.update name maxNameLength 0, 0, 0⟩).map NameState.name

/-- The samples that are no NUL and differ from the last one taken. -/
def freshChars : UInt8 → List UInt8 → List UInt8
  | _, [] => []
  | last, c :: samples =>
    if c ≠ 0 ∧ c ≠ last then c :: freshChars c samples else freshChars last samples

def beforeDot (samples : List UInt8) : List UInt8 :=
  samples.takeWhile fun c => c ≠ UInt8.ofNat '.'.toNat

def acceptedChars (samples : List UInt8) : List UInt8 :=
  (freshChars 0 (beforeDot samples)).take maxNameLength

theorem zero_notMem_freshChars (last : UInt8) (samples : List UInt8) : 0 ∉ freshChars last samples := by
  induction samples generalizing last with
  | nil => exact List.not_mem_nil
  | cons c samples ih =>
    unfold freshChars
    split
    · rename_i hc
      rw [List.mem_cons, not_or]
      exact ⟨hc.1.symm, ih c⟩
    · exact ih last

/-- What one run of the loop adds to the name. -/
structure Added (s s' : NameState) (new : List UInt8) : Prop where
  numChars : s'.numChars = s.numChars + new.length
  holds : Holds s'.name s.numChars new
  rest : ∀ j, j < s.numChars ∨ s.numChars + new.length ≤ j → s'.name j = s.name j

theorem Added.refl (s : NameState) : Added s s [] := by
  refine ⟨rfl, ?_, fun _ _ => rfl⟩
  intro j v hj
  cases hj

theorem Added.cons {s s' : NameState} {input : UInt8} {new : List UInt8}
    (h : Added ⟨Function.update s.name s.numChars input, s.numChars + 1, input⟩ s' new) :
    Added s s' (input :: new) := by
  have hnum : s'.numChars = s.numChars + 1 + new.length := h.numChars
  have hrest : ∀ j, j < s.numChars + 1 ∨ s.numChars + 1 + new.length ≤ j →
      s'.name j = Function.update s.name s.numChars input j := h.rest
  refine ⟨?_, ?_, ?_⟩
  · rw [hnum, List.length_cons]
    omega
  · intro j v hj
    cases j with
    | zero =>
      rw [Nat.add_zero, hrest _ (.inl (Nat.lt_succ_self _)), Function.update_self]
      exact Option.some.inj hj
    | succ j =>
      have hval : s'.name (s.numChars + 1 + j) = v := h.holds j v hj
      rw [← hval]
      congr 1
      omega
  · intro j hj
    rw [List.length_cons] at hj
    rw [hrest j (by omega), Function.update_of_ne (by omega)]

theorem take_of_full {n : Nat} (h : ¬ n < maxNameLength) (l : List UInt8) :
    l.take (maxNameLength - n) = [] := by
  rw [Nat.sub_eq_zero_of_le (not_lt.mp h), List.take_zero]

theorem nameLoop_added {samples : List UInt8} {s s' : NameState} (hs : s.numChars ≤ maxNameLength)
    (h : nameLoop samples s = some s') :
    Added s s' ((freshChars s.lastChar (beforeDot samples)).take (maxNameLength - s.numChars)) := by
  induction samples generalizing s with
  | nil =>
    unfold nameLoop at h
    split at h
    · cases h
    · rename_i hge
      cases h
      rw [take_of_full hge]
      exact .refl _
  | cons input samples ih =>
    unfold nameLoop at h
    split at h
    · rename_i hlt
      split at h
      · rename_i hdot
        cases h
        have hempty : beforeDot (input :: samples) = [] := by
          rw [beforeDot, List.takeWhile_cons, hdot]
          rfl
        rw [hempty, freshChars, List.take_nil]
        exact .refl _
      · rename_i hdot
        have hmore : beforeDot (input :: samples) = input :: beforeDot samples := by
          rw [beforeDot, List.takeWhile_cons, if_pos (by simpa using hdot)]
          rfl
        rw [hmore, freshChars]
        unfold takeInput at h
        split at h
        · rename_i hfresh
          rw [if_pos hfresh, show maxNameLength - s.numChars = maxNameLength - (s.numChars + 1) + 1 by omega,
            List.take_succ_cons]
          exact .cons (ih (Nat.succ_le_of_lt hlt) h)
        · rename_i hstale
          rw [if_neg hstale]
          exact ih hs h
    · rename_i hge
      cases h
      rw [take_of_full hge]
      exact .refl _

/-- The array holds the typed name exactly if the name has full length or the array
had a NUL where the name ends. -/
theorem playerName_iff (name name' : Buffer) (samples : List UInt8)
    (h : getPlayerName name samples = some name') :
    HoldsString name' (acceptedChars samples) ↔
      (acceptedChars samples).length = maxNameLength ∨ name (acceptedChars samples).length = 0 := by
  obtain ⟨s', hs', rfl⟩ := Option.map_eq_some_iff.mp h
  have hadd : Added ⟨Function.update name maxNameLength 0, 0, 0⟩ s' (acceptedChars samples) :=
    nameLoop_added (Nat.zero_le _) hs'
  have hlen : (acceptedChars samples).length ≤ maxNameLength := List.length_take_le ..
  have hzero : 0 ∉ acceptedChars samples := fun hm =>
    zero_notMem_freshChars 0 (beforeDot samples) (List.mem_of_mem_take hm)
  have hend := hadd.rest (acceptedChars samples).length (.inr (by rw [Nat.zero_add]))
  dsimp only at hend
  rcases Nat.lt_or_eq_of_le hlen with hlt | heq
  · rw [Function.update_of_ne (Nat.ne_of_lt hlt)] at hend
    constructor
    · rintro ⟨_, _, hnul⟩
      exact .inr (hend ▸ hnul)
    · intro hor
      exact ⟨hadd.holds, hzero, hend.trans (hor.resolve_left (Nat.ne_of_lt hlt))⟩
  · rw [heq, Function.update_self] at hend
    refine ⟨fun _ => .inl heq, fun _ => ⟨hadd.holds, hzero, ?_⟩⟩
    rw [heq]
    exact hend

def typedAb : List UInt8 := [0, 97, 97, 98, 46]

theorem playerName_iff_ab :
    ∃ name', getPlayerName (fun _ => 0) typedAb = some name' ∧ HoldsString name' [97, 98] := by
  have haccepted : acceptedChars typedAb = [97, 98] := by decide
  have hiff := playerName_iff (fun _ => 0) _ typedAb rfl
  rw [haccepted] at hiff
  exact ⟨_, rfl, hiff.mpr (.inr rfl)⟩

/-- The same after a player with ten letters. -/
theorem playerName_keeps_tail :
    ∃ name', getPlayerName (fun j => if j < 10 then 120 else 0) typedAb = some name' ∧
      acceptedChars typedAb = [97, 98] ∧ ¬ HoldsString name' [97, 98] := by
  refine ⟨_, rfl, by decide, ?_⟩
  rintro ⟨_, _, hnul⟩
  exact absurd hnul (by decide)

end Zeos.Libc
