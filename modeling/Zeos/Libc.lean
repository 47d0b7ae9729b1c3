import Zeos.Types
import Zeos.Lib.Loops
import Mathlib.Data.List.TakeWhile

/-!
# `libc.c`

The functions of the user library that compute something: numerals, strings, the random
numbers of the game and the time. A `char` array is the memory from its first
byte on. The static variable of the generator is passed along.
-/

namespace Zeos.Libc

open Loops
set_option autoImplicit false

abbrev Buffer := Nat → UInt8

/-- From index `i` on the buffer holds these bytes. -/
def Holds (b : Buffer) (i : Nat) (bytes : List UInt8) : Prop :=
  ∀ j v, bytes[j]? = some v → b (i + j) = v

/-- The C string in `b`: what comes before its first NUL. -/
def HoldsString (b : Buffer) (s : List UInt8) : Prop := Holds b 0 s ∧ 0 ∉ s ∧ b s.length = 0

theorem Holds.congr {b b' : Buffer} {i : Nat} {bytes : List UInt8} (h : Holds b i bytes)
    (he : ∀ j, i ≤ j → j < i + bytes.length → b' j = b j) : Holds b' i bytes := by
  intro j v hj
  have hlt := (List.getElem?_eq_some_iff.mp hj).1
  rw [he (i + j) (by omega) (by omega)]
  exact h j v hj

theorem HoldsString.unique {b : Buffer} {s s' : List UInt8} (h : HoldsString b s)
    (h' : HoldsString b s') : s = s' := by
  have hle : ∀ {s s' : List UInt8}, HoldsString b s → HoldsString b s' → s.length ≤ s'.length := by
    intro s s' h h'
    by_contra hlt
    have hval := h.1 s'.length (s.get ⟨s'.length, by omega⟩) (by simp)
    rw [Nat.zero_add, h'.2.2] at hval
    exact h.2.1 (hval ▸ List.get_mem s _)
  have hlen : s.length = s'.length := le_antisymm (hle h h') (hle h' h)
  apply List.ext_getElem hlen
  intro j hj hj'
  have hs := h.1 j s[j] (List.getElem?_eq_getElem hj)
  have hs' := h'.1 j s'[j] (List.getElem?_eq_getElem hj')
  rw [← hs, ← hs']

/-- The `while` loop of both conversions: the digits of `a` from index `i` on, the
last one first. It leaves the number of digits in `i`. -/
def writeDigits (base : Nat) (hbase : 1 < base) (digit : Int → UInt8) (a : Int) (i : Nat) (b : Buffer) :
    Nat × Buffer :=
  if _hpos : 0 < a then
    writeDigits base hbase digit (a.tdiv base) (i + 1) (Function.update b i (digit (a.tmod base)))
  else (i, b)
termination_by a.toNat
decreasing_by
  obtain ⟨n, rfl⟩ := Int.eq_ofNat_of_zero_le (Int.le_of_lt _hpos)
  have hdiv := Nat.div_lt_self (Int.natCast_pos.mp _hpos) hbase
  exact hdiv

def swapEnds (i i1 : Nat) (b : Buffer) : Buffer :=
  let c := b i1
  let b := Function.update b i1 (b (i - i1 - 1))
  Function.update b (i - i1 - 1) c

def writeNumeral (base : Nat) (hbase : 1 < base) (digit : Int → UInt8) (a : Int) (b : Buffer) : Buffer :=
  if a = 0 then Function.update (Function.update b 0 (UInt8.ofNat '0'.toNat)) 1 0
  else
    let (i, b) := writeDigits base hbase digit a 0 b
    Function.update (times (i / 2) (swapEnds i) b) i 0

def decaDigit (r : Int) : UInt8 := UInt8.ofNat (r + '0'.toNat).toNat

def itodeca (a : Int) (b : Buffer) : Buffer := writeNumeral 10 (by decide) decaDigit a b

def hexaDigit (r : Int) : UInt8 :=
  if r < 10 then UInt8.ofNat ('0'.toNat + r).toNat else UInt8.ofNat ('A'.toNat + r - 10).toNat

def itohexa (a : Int) (b : Buffer) : Buffer := writeNumeral 16 (by decide) hexaDigit a b

/-- The loop from index `i` on; without a result it leaves the source array, of which
`left` bytes are left. -/
def strcpyFrom (src : Buffer) : Nat → Nat → Buffer → Option Buffer
  | _, 0, _ => none
  | i, left + 1, dest =>
    let dest := Function.update dest i (src i)
    if src i = 0 then some dest else strcpyFrom src (i + 1) left dest

def strcpy (size : Nat) (dest src : Buffer) : Option Buffer := strcpyFrom src 0 size dest

theorem strcpyFrom_spec {src : Buffer} {t : List UInt8} {i left : Nat} (h : Holds src i t)
    (hend : src (i + t.length) = 0) (hzero : 0 ∉ t) (hlen : t.length < left) (dest : Buffer) :
    ∃ dest', strcpyFrom src i left dest = some dest' ∧ Holds dest' i t ∧ dest' (i + t.length) = 0 ∧
      ∀ j, j < i ∨ i + t.length < j → dest' j = dest j := by
  induction t generalizing i left dest with
  | nil =>
    obtain ⟨left, rfl⟩ := Nat.exists_eq_succ_of_ne_zero (Nat.ne_of_gt hlen)
    refine ⟨Function.update dest i (src i), if_pos hend, fun j v hj => (by cases hj), ?_, ?_⟩
    · rw [List.length_nil, Nat.add_zero] at hend ⊢
      rw [Function.update_self, hend]
    · intro j hj
      rw [List.length_nil, Nat.add_zero] at hj
      exact Function.update_of_ne (by omega) ..
  | cons c t ih =>
    have hleft : left ≠ 0 := Nat.ne_of_gt (Nat.lt_of_le_of_lt (Nat.zero_le _) hlen)
    obtain ⟨left, rfl⟩ := Nat.exists_eq_succ_of_ne_zero hleft
    have hc : src i = c := h 0 c rfl
    have hne : src i ≠ 0 := by
      rw [hc]
      exact (ne_of_mem_of_not_mem List.mem_cons_self hzero)
    have hrest : Holds src (i + 1) t := by
      intro j v hj
      rw [Nat.add_assoc, Nat.add_comm 1 j]
      exact h (j + 1) v hj
    rw [List.length_cons] at hend hlen ⊢
    obtain ⟨dest', hcopy, hholds, hnul, hframe⟩ := ih hrest
      (by rw [Nat.add_assoc, Nat.add_comm 1]; exact hend) (fun hm => hzero (List.mem_cons_of_mem c hm))
      (Nat.lt_of_succ_lt_succ hlen) (Function.update dest i (src i))
    refine ⟨dest', (if_neg hne).trans hcopy, ?_, ?_, ?_⟩
    · intro j v hj
      cases j with
      | zero =>
        rw [Nat.add_zero, hframe i (.inl (Nat.lt_succ_self i)), Function.update_self, hc]
        exact Option.some.inj hj
      | succ j =>
        rw [show i + (j + 1) = i + 1 + j by omega]
        exact hholds j v hj
    · rw [show i + (t.length + 1) = i + 1 + t.length by omega]
      exact hnul
    · intro j hj
      rw [hframe j (by omega), Function.update_of_ne (by omega)]

/-- A string that ends inside its array is copied with its NUL, and nothing else changes. -/
theorem strcpy_spec {src : Buffer} {t : List UInt8} {n : Nat} (h : HoldsString src t)
    (hlen : t.length < n) (dest : Buffer) :
    ∃ dest', strcpy n dest src = some dest' ∧ HoldsString dest' t ∧
      ∀ j, t.length < j → dest' j = dest j := by
  obtain ⟨dest', hcopy, hholds, hnul, hframe⟩ := strcpyFrom_spec h.1 (by rw [Nat.zero_add]; exact h.2.2)
    h.2.1 hlen dest
  rw [Nat.zero_add] at hnul
  exact ⟨dest', hcopy, ⟨hholds, h.2.1, hnul⟩, fun j hj => hframe j (.inr (by omega))⟩

def strlen : List UInt8 → Nat
  | [] => 0
  | c :: a => if c ≠ 0 then strlen a + 1 else 0

theorem take_strlen (a rest : List UInt8) :
    (a ++ 0 :: rest).take (strlen (a ++ 0 :: rest)) = a.takeWhile fun c => c ≠ 0 := by
  induction a with
  | nil => rfl
  | cons c a ih =>
    rw [List.cons_append, strlen]
    by_cases hc : c = 0
    · rw [if_neg (by simpa using hc), List.takeWhile_cons_of_neg (by simpa using hc)]
      rfl
    · rw [if_pos hc, List.takeWhile_cons_of_pos (by simpa using hc), List.take_succ_cons, ih]

theorem take_strlen_append {a : List UInt8} (h : 0 ∉ a) (rest : List UInt8) :
    (a ++ 0 :: rest).take (strlen (a ++ 0 :: rest)) = a := by
  rw [take_strlen, List.takeWhile_eq_self_iff]
  intro c hc
  simpa using ne_of_mem_of_not_mem hc h

abbrev multiplier : Nat := 1103515245
abbrev increment : Nat := 12345
/-- Too large for an `int`, so that the remainder is taken of a `long long`. -/
abbrev modulus : Nat := 2147483648

/-- The new value of `lcg_seed`, which is also the result. -/
def rand (lcgSeed : Nat) : Nat := uint32 (multiplier * lcgSeed + increment) % modulus

/-- The result and the new `lcg_seed`. -/
def randRange (min max lcgSeed : Nat) : Nat × Nat :=
  (uint32 (min + rand lcgSeed % uint32 (max - min + 1)), rand lcgSeed)

abbrev ticksPerSecond : Nat := 400
abbrev ticksPerMilisecond : Nat := 1000 / ticksPerSecond

/-- `sysenter_return`: what a wrapper returns, and `errno`. -/
def sysenterReturn (eax errno : Int) : Int × Int :=
  if 0 ≤ eax then (eax, errno) else (-1, int32 (-eax))

/-- `sys_gettime` returns `zeos_ticks`. -/
def gettime (zeosTicks : Int) : Int := (sysenterReturn zeosTicks 0).1

/-- The `while` loop of `sleep`. `zeosTicks j` is the counter at the `j`-th call of
`gettime`; the result is the call at which the loop ends. -/
def sleepLoop (zeosTicks : Nat → Int) (endTime : Nat) : Nat → Nat → Option Nat
  | 0, _ => none
  | fuel + 1, j =>
    if uint32 (gettime (zeosTicks j)) < endTime then sleepLoop zeosTicks endTime fuel (j + 1)
    else some j

def sleep (zeosTicks : Nat → Int) (ms fuel : Nat) : Option Nat :=
  let startTime := uint32 (gettime (zeosTicks 0))
  let endTime := uint32 (startTime + ms / ticksPerMilisecond)
  sleepLoop zeosTicks endTime fuel 1

end Zeos.Libc
