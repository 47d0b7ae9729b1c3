import Zeos.Libc
import Mathlib.Data.Nat.Digits.Lemmas

/-!
# Numerals

Both conversions write the digits of `Nat.digits` into the buffer, turn the
first half of it round against the second and close the string. What is left there
is the canonical numeral.
-/

namespace Zeos.Libc

open Loops
set_option autoImplicit false

section Loops
variable {base : Nat} {hbase : 1 < base} {digit : Int → UInt8}

variable (hbase digit) in
theorem writeDigits_spec (n i : Nat) (b : Buffer) :
    ∃ b', writeDigits base hbase digit n i b = (i + (Nat.digits base n).length, b') ∧
      Holds b' i ((Nat.digits base n).map fun d : Nat => digit d) ∧
      ∀ j, j < i ∨ i + (Nat.digits base n).length ≤ j → b' j = b j := by
  induction n using Nat.strong_induction_on generalizing i b with
  | _ n ih =>
    rw [writeDigits]
    by_cases hn : 0 < n
    · rw [dif_pos (Int.natCast_pos.mpr hn), Nat.digits_def' hbase hn]
      obtain ⟨b', hb', hholds, hrest⟩ :=
        ih (n / base) (Nat.div_lt_self hn hbase) (i + 1) (Function.update b i (digit ((n % base : Nat) : Int)))
      refine ⟨b', ?_, ?_, ?_⟩
      · rw [List.length_cons, ← Nat.add_assoc, Nat.add_right_comm]
        exact hb'
      · intro j v hj
        cases j with
        | zero =>
          rw [hrest (i + 0) (.inl (by omega)), Nat.add_zero, Function.update_self]
          exact Option.some.inj hj
        | succ j =>
          rw [show i + (j + 1) = i + 1 + j by omega]
          exact hholds j v hj
      · intro j hj
        rw [List.length_cons] at hj
        rw [hrest j (by omega), Function.update_of_ne (by omega)]
    · obtain rfl : n = 0 := by omega
      rw [dif_neg (by decide), Nat.digits_zero]
      refine ⟨b, rfl, ?_, fun _ _ => rfl⟩
      intro j v hj
      cases hj

/-- After `k` rounds the first and the last `k` bytes have changed places. -/
theorem swapEnds_times (n k : Nat) (hk : k ≤ n / 2) (b : Buffer) (j : Nat) :
    times k (swapEnds n) b j = if j < k ∨ (n - k ≤ j ∧ j < n) then b (n - 1 - j) else b j := by
  revert j
  refine times_preserves (n := k) (fun k (b' : Buffer) => ∀ j, b' j =
    if j < k ∨ (n - k ≤ j ∧ j < n) then b (n - 1 - j) else b j) ?_ ?_
  · intro k b' hlt h j
    have hself := h k
    have hother := h (n - k - 1)
    rw [if_neg (by omega)] at hself hother
    unfold swapEnds
    by_cases hlast : j = n - k - 1
    · subst hlast
      rw [Function.update_self, hself, if_pos (by omega)]
      congr 1
      omega
    · rw [Function.update_of_ne hlast]
      by_cases hfirst : j = k
      · subst hfirst
        rw [Function.update_self, hother, if_pos (by omega)]
        congr 1
        omega
      · rw [Function.update_of_ne hfirst, h j]
        congr 1
        apply propext
        omega
  · intro j
    rw [if_neg (by omega)]

theorem Holds.reversed {b : Buffer} {bytes : List UInt8} (h : Holds b 0 bytes) :
    Holds (times (bytes.length / 2) (swapEnds bytes.length) b) 0 bytes.reverse := by
  intro j v hj
  have hlt := (List.getElem?_eq_some_iff.mp hj).1
  rw [List.length_reverse] at hlt
  rw [List.getElem?_reverse hlt] at hj
  have hval := h _ v hj
  rw [Nat.zero_add] at hval ⊢
  rw [swapEnds_times _ _ le_rfl]
  split
  · exact hval
  · rw [← hval]
    congr 1
    omega

/-- The string of a conversion: the digits with the highest first, or a single zero. -/
def numeral (base : Nat) (digit : Int → UInt8) (n : Nat) : List UInt8 :=
  if n = 0 then [UInt8.ofNat '0'.toNat] else ((Nat.digits base n).map fun d : Nat => digit d).reverse

theorem writeNumeral_spec (hdigit : ∀ d : Nat, d < base → digit d ≠ 0) (n : Nat) (b : Buffer) :
    HoldsString (writeNumeral base hbase digit n b) (numeral base digit n) ∧
      ∀ j, (numeral base digit n).length < j → writeNumeral base hbase digit n b j = b j := by
  unfold writeNumeral numeral
  by_cases hn : n = 0
  · rw [if_pos (by omega), if_pos hn]
    refine ⟨⟨?_, by decide, Function.update_self ..⟩, ?_⟩
    · intro j v hj
      cases j with
      | zero =>
        rw [Function.update_of_ne (by decide), Nat.zero_add, Function.update_self]
        exact Option.some.inj hj
      | succ j => cases hj
    · intro j hj
      rw [List.length_singleton] at hj
      rw [Function.update_of_ne (by omega), Function.update_of_ne (by omega)]
  · obtain ⟨b', hb', hholds, hrest⟩ := writeDigits_spec hbase digit n 0 b
    rw [if_neg (by omega), if_neg hn, hb']
    have hlen : ((Nat.digits base n).map fun d : Nat => digit d).length = (Nat.digits base n).length :=
      List.length_map _
    have hrev := hholds.reversed
    rw [hlen] at hrev
    dsimp only
    rw [Nat.zero_add]
    refine ⟨⟨?_, ?_, ?_⟩, ?_⟩
    · apply hrev.congr
      intro j _ hj
      rw [List.length_reverse, hlen, Nat.zero_add] at hj
      exact Function.update_of_ne (by omega) _ _
    · rw [List.mem_reverse, List.mem_map]
      rintro ⟨d, hd, hzero⟩
      exact hdigit d (Nat.digits_lt_base hbase hd) hzero
    · rw [List.length_reverse, hlen, Function.update_self]
    · intro j hj
      rw [List.length_reverse, hlen] at hj
      rw [Function.update_of_ne (by omega), swapEnds_times _ _ le_rfl, if_neg (by omega)]
      exact hrest j (.inr (by omega))

theorem foldl_numeral {value : UInt8 → Nat} (hvalue : ∀ d : Nat, d < base → value (digit d) = d)
    (hbase : 1 < base) (hzero : value (UInt8.ofNat '0'.toNat) = 0) (n : Nat) :
    (numeral base digit n).foldl (fun v c => base * v + value c) 0 = n := by
  unfold numeral
  by_cases hn : n = 0
  · rw [if_pos hn, List.foldl_cons, hzero, hn]
    rfl
  · rw [if_neg hn, List.foldl_reverse, List.foldr_map]
    calc (Nat.digits base n).foldr (fun (d : Nat) v => base * v + value (digit d)) 0
        = (Nat.digits base n).foldr (fun d v => d + base * v) 0 := by
          apply List.foldr_ext
          intro d hd v
          rw [hvalue d (Nat.digits_lt_base hbase hd), Nat.add_comm]
      _ = n := by
          have hof := Nat.ofDigits_eq_foldr base (Nat.digits base n)
          rw [Nat.ofDigits_digits] at hof
          exact hof.symm

theorem length_numeral_le {k : Nat} (hbase : 1 < base) (hk : 0 < k) {n : Nat} (hn : n < base ^ k) :
    (numeral base digit n).length ≤ k := by
  unfold numeral
  split
  · exact hk
  · rw [List.length_reverse, List.length_map]
    exact (Nat.digits_length_le_iff hbase n).mpr hn

theorem numeral_ne_nil (n : Nat) : numeral base digit n ≠ [] := by
  intro hnil
  by_cases hn : n = 0
  · subst hn
    cases hnil
  · unfold numeral at hnil
    rw [if_neg hn, List.reverse_eq_nil_iff, List.map_eq_nil_iff] at hnil
    exact Nat.digits_ne_nil_iff_ne_zero.mpr hn hnil

theorem mem_numeral {P : UInt8 → Prop} (hbase : 1 < base) (hzero : P (UInt8.ofNat '0'.toNat))
    (hdigit : ∀ d : Nat, d < base → P (digit d)) {n : Nat} {c : UInt8} (h : c ∈ numeral base digit n) :
    P c := by
  unfold numeral at h
  split at h
  · rw [List.mem_singleton.mp h]
    exact hzero
  · obtain ⟨d, hd, rfl⟩ := List.mem_map.mp (List.mem_reverse.mp h)
    exact hdigit d (Nat.digits_lt_base hbase hd)

theorem numeral_head (hdigit : ∀ d : Nat, d < base → digit d = UInt8.ofNat '0'.toNat → d = 0)
    (hbase : 1 < base) {n : Nat} (h : (numeral base digit n).head? = some (UInt8.ofNat '0'.toNat)) :
    n = 0 := by
  by_contra hn
  unfold numeral at h
  rw [if_neg hn, List.head?_reverse, List.getLast?_map] at h
  have hne : Nat.digits base n ≠ [] := Nat.digits_ne_nil_iff_ne_zero.mpr hn
  rw [List.getLast?_eq_some_getLast hne] at h
  have hlast := hdigit _ (Nat.digits_lt_base hbase (List.getLast_mem hne)) (Option.some.inj h)
  exact Nat.getLast_digit_ne_zero base hn hlast

end Loops

def IsDecaDigit (c : UInt8) : Prop := '0'.toNat ≤ c.toNat ∧ c.toNat ≤ '9'.toNat

instance (c : UInt8) : Decidable (IsDecaDigit c) := inferInstanceAs (Decidable (_ ∧ _))

def decaValue (s : List UInt8) : Nat := s.foldl (fun v c => 10 * v + (c.toNat - '0'.toNat)) 0

theorem decaDigit_toNat {d : Nat} (hd : d < 10) : (decaDigit d).toNat = d + 48 := by
  change (UInt8.ofNat ((d : Int) + 48).toNat).toNat = _
  rw [UInt8.toNat_ofNat']
  omega

theorem mem_deca {n : Nat} {c : UInt8} (h : c ∈ numeral 10 decaDigit n) : IsDecaDigit c := by
  apply mem_numeral (by decide) (by decide) _ h
  intro d hd
  unfold IsDecaDigit
  rw [decaDigit_toNat hd]
  change 48 ≤ d + 48 ∧ d + 48 ≤ 57
  omega

theorem decaDigit_ne_zero (d : Nat) (hd : d < 10) : decaDigit d ≠ 0 := by
  intro he
  have hcode := decaDigit_toNat hd
  rw [he] at hcode
  change 0 = d + 48 at hcode
  omega

theorem eq_zero_of_decaDigit (d : Nat) (hd : d < 10) (he : decaDigit d = UInt8.ofNat '0'.toNat) : d = 0 := by
  have hcode := decaDigit_toNat hd
  rw [he] at hcode
  change 48 = d + 48 at hcode
  omega

theorem itodeca_holds (n : Nat) (b : Buffer) : HoldsString (itodeca n b) (numeral 10 decaDigit n) :=
  (writeNumeral_spec decaDigit_ne_zero n b).1

theorem decaValue_numeral (n : Nat) : decaValue (numeral 10 decaDigit n) = n := by
  refine foldl_numeral (fun d hd => ?_) (by decide) (by decide) n
  rw [decaDigit_toNat hd]
  exact Nat.add_sub_cancel d 48

/-- The string of `a` is made of digits, has no leading zero, ends within the first
eleven bytes and stands for `a`; so no other number has it. -/
theorem itodeca_canonical (a : Int) (h0 : 0 ≤ a) (hmax : a < 2147483648) (b : Buffer) :
    ∃ s, HoldsString (itodeca a b) s ∧ (∀ c ∈ s, IsDecaDigit c) ∧
      (s.head? = some (UInt8.ofNat '0'.toNat) → a = 0 ∧ s = [UInt8.ofNat '0'.toNat]) ∧ s ≠ [] ∧
      (∀ j, 11 ≤ j → itodeca a b j = b j) ∧ decaValue s = a ∧
      ∀ a' b', 0 ≤ a' → a' < 2147483648 → HoldsString (itodeca a' b') s → a' = a := by
  obtain ⟨n, rfl⟩ := Int.eq_ofNat_of_zero_le h0
  have hlen : (numeral 10 decaDigit n).length ≤ 10 :=
    length_numeral_le (by decide) (by decide) (by omega)
  refine ⟨numeral 10 decaDigit n, itodeca_holds n b, fun c => mem_deca, ?_, numeral_ne_nil n, ?_, ?_, ?_⟩
  · intro hhead
    have hn : n = 0 := numeral_head eq_zero_of_decaDigit (by decide) hhead
    subst hn
    exact ⟨rfl, rfl⟩
  · intro j hj
    exact (writeNumeral_spec decaDigit_ne_zero n b).2 j (by omega)
  · rw [decaValue_numeral]
  · intro a' b' h0' _ hs
    obtain ⟨n', rfl⟩ := Int.eq_ofNat_of_zero_le h0'
    have heq := (itodeca_holds n' b').unique hs
    rw [← decaValue_numeral n', ← decaValue_numeral n, heq]

theorem itodeca_canonical_max : ∃ s, HoldsString (itodeca 2147483647 fun _ => 0) s ∧
    decaValue s = (2147483647 : Int) := by
  obtain ⟨s, hs, _, _, _, _, hval, _⟩ :=
    itodeca_canonical 2147483647 (by decide) (by decide) fun _ => 0
  exact ⟨s, hs, hval⟩

def IsHexaDigit (c : UInt8) : Prop :=
  ('0'.toNat ≤ c.toNat ∧ c.toNat ≤ '9'.toNat) ∨ ('A'.toNat ≤ c.toNat ∧ c.toNat ≤ 'F'.toNat)

instance (c : UInt8) : Decidable (IsHexaDigit c) := inferInstanceAs (Decidable (_ ∨ _))

def hexaCode (c : UInt8) : Nat :=
  if c.toNat ≤ '9'.toNat then c.toNat - '0'.toNat else c.toNat - 'A'.toNat + 10

def hexaValue (s : List UInt8) : Nat := s.foldl (fun v c => 16 * v + hexaCode c) 0

/-- The string in `b` is the hexadecimal numeral of `v`. -/
def HexaNumeral (v : Nat) (b : Buffer) : Prop :=
  ∃ s, HoldsString b s ∧ (∀ c ∈ s, IsHexaDigit c) ∧
    (s.head? = some (UInt8.ofNat '0'.toNat) → s = [UInt8.ofNat '0'.toNat]) ∧ s ≠ [] ∧ hexaValue s = v

theorem hexaDigit_toNat {d : Nat} (hd : d < 16) :
    (hexaDigit d).toNat = if d < 10 then d + 48 else d + 55 := by
  unfold hexaDigit
  by_cases hlt : d < 10
  · rw [if_pos (by omega), if_pos hlt]
    change (UInt8.ofNat (48 + (d : Int)).toNat).toNat = _
    rw [UInt8.toNat_ofNat']
    omega
  · rw [if_neg (by omega), if_neg hlt]
    change (UInt8.ofNat (65 + (d : Int) - 10).toNat).toNat = _
    rw [UInt8.toNat_ofNat']
    omega

theorem hexaDigit_isHexaDigit (d : Nat) (hd : d < 16) : IsHexaDigit (hexaDigit d) := by
  unfold IsHexaDigit
  rw [hexaDigit_toNat hd]
  change (48 ≤ _ ∧ _ ≤ 57) ∨ (65 ≤ _ ∧ _ ≤ 70)
  split <;> omega

theorem hexaCode_hexaDigit (d : Nat) (hd : d < 16) : hexaCode (hexaDigit d) = d := by
  unfold hexaCode
  rw [hexaDigit_toNat hd]
  change (if _ ≤ 57 then _ - 48 else _ - 65 + 10) = d
  split <;> split <;> omega

theorem hexaDigit_ne_zero (d : Nat) (hd : d < 16) : hexaDigit d ≠ 0 := by
  intro he
  have hdigit := hexaDigit_isHexaDigit d hd
  rw [he] at hdigit
  exact absurd hdigit (by decide)

theorem eq_zero_of_hexaDigit (d : Nat) (hd : d < 16) (he : hexaDigit d = UInt8.ofNat '0'.toNat) : d = 0 := by
  rw [← hexaCode_hexaDigit d hd, he]
  decide

theorem itohexa_numeral (n : Nat) (b : Buffer) : HexaNumeral n (itohexa n b) := by
  refine ⟨numeral 16 hexaDigit n, (writeNumeral_spec hexaDigit_ne_zero n b).1, ?_, ?_, numeral_ne_nil n, ?_⟩
  · intro c hc
    exact mem_numeral (by decide) (by decide) hexaDigit_isHexaDigit hc
  · intro hhead
    have hn : n = 0 := numeral_head eq_zero_of_hexaDigit (by decide) hhead
    rw [hn]
    rfl
  · exact foldl_numeral hexaCode_hexaDigit (by decide) (by decide) n

/-- The loop over the digits does not start for a negative number. -/
theorem itohexa_negative {a : Int} (ha : a < 0) (b : Buffer) : HoldsString (itohexa a b) [] := by
  have hdigits : ∀ i b, writeDigits 16 (by decide) hexaDigit a i b = (i, b) := by
    intro i b
    rw [writeDigits, dif_neg (by omega)]
  unfold itohexa writeNumeral
  rw [if_neg (by omega), hdigits]
  refine ⟨?_, List.not_mem_nil, Function.update_self ..⟩
  intro j v hj
  cases hj

/-- Of the addresses only those below `2 ^ 31` are printed: the others are negative as an
`int`, and the string is empty. -/
theorem itohexa_canonical_iff (v : UInt32) (b : Buffer) :
    HexaNumeral v.toNat (itohexa (int32 v.toNat) b) ↔ v.toNat < 2147483648 := by
  have hv : v.toNat < 4294967296 := v.toNat_lt
  rcases Nat.lt_or_ge v.toNat 2147483648 with hlt | hge
  · rw [int32_of_range (by omega) (by omega)]
    exact iff_of_true (itohexa_numeral v.toNat b) hlt
  · have hneg : int32 v.toNat < 0 := by
      unfold int32
      omega
    refine iff_of_false ?_ (Nat.not_lt.mpr hge)
    rintro ⟨s, hs, _, _, hne, _⟩
    exact hne (hs.unique (itohexa_negative hneg b))

/-- A jump to the lowest of these addresses is reported without any. -/
theorem itohexa_prints_nothing :
    HoldsString (itohexa (int32 (0x80000000 : UInt32).toNat) fun _ => 0) [] ∧
      ¬ HexaNumeral (0x80000000 : UInt32).toNat (itohexa (int32 (0x80000000 : UInt32).toNat) fun _ => 0) := by
  have hempty := itohexa_negative (a := int32 (0x80000000 : UInt32).toNat) (by decide) fun _ => 0
  refine ⟨hempty, ?_⟩
  rintro ⟨s, hs, _, _, hne, _⟩
  exact hne (hs.unique hempty)

end Zeos.Libc
