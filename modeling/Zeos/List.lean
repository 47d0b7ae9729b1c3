import Zeos.Types
import Zeos.Lib.Loops
import Zeos.Lib.LinkedRings

/-!
# `list.c`

The list functions of the kernel, write by write, and what each does to the
rings of a heap. Following a null link is a fault.
-/

namespace Zeos

open LinkedRings Loops
set_option autoImplicit false

universe u v w
variable {ν : Type u} [DecidableEq ν]

def setNext (h : Heap ν) (x : ν) (v : Option ν) : Heap ν :=
  Function.update h x { h x with next := v }

def setPrev (h : Heap ν) (x : ν) (v : Option ν) : Heap ν :=
  Function.update h x { h x with prev := v }

@[simp] theorem setNext_next (h : Heap ν) (x : ν) (v : Option ν) (y : ν) :
    (setNext h x v y).next = if y = x then v else (h y).next := by
  by_cases hy : y = x
  · subst hy
    simp [setNext]
  · simp [setNext, hy]

@[simp] theorem setNext_prev (h : Heap ν) (x : ν) (v : Option ν) (y : ν) :
    (setNext h x v y).prev = (h y).prev := by
  by_cases hy : y = x
  · subst hy
    simp [setNext]
  · simp [setNext, hy]

@[simp] theorem setPrev_next (h : Heap ν) (x : ν) (v : Option ν) (y : ν) :
    (setPrev h x v y).next = (h y).next := by
  by_cases hy : y = x
  · subst hy
    simp [setPrev]
  · simp [setPrev, hy]

@[simp] theorem setPrev_prev (h : Heap ν) (x : ν) (v : Option ν) (y : ν) :
    (setPrev h x v y).prev = if y = x then v else (h y).prev := by
  by_cases hy : y = x
  · subst hy
    simp [setPrev]
  · simp [setPrev, hy]

omit [DecidableEq ν] in
theorem links_ext {h h' : Heap ν} {y : ν} (hn : (h' y).next = (h y).next)
    (hp : (h' y).prev = (h y).prev) : h' y = h y := by
  cases ha : h y
  cases hb : h' y
  simp_all

def deref {α : Type u} : Option α → Except Fault α
  | none => .error .nullLink
  | some x => .ok x

def initListHead (h : Heap ν) (list : ν) : Heap ν :=
  setPrev (setNext h list (some list)) list (some list)

/-- `__list_add` -/
def listAddBetween (h : Heap ν) (new : ν) (prev next : Option ν) : Except Fault (Heap ν) := do
  let n ← deref next
  let h := setPrev h n (some new)
  let h := setNext h new next
  let h := setPrev h new prev
  let p ← deref prev
  pure (setNext h p (some new))

def listAdd (h : Heap ν) (new head : ν) : Except Fault (Heap ν) :=
  listAddBetween h new (some head) (h head).next

def listAddTail (h : Heap ν) (new head : ν) : Except Fault (Heap ν) :=
  listAddBetween h new (h head).prev (some head)

/-- `__list_del` -/
def listDelBetween (h : Heap ν) (prev next : Option ν) : Except Fault (Heap ν) := do
  let n ← deref next
  let h := setPrev h n prev
  let p ← deref prev
  pure (setNext h p next)

def listDel (h : Heap ν) (entry : ν) : Except Fault (Heap ν) := do
  let h ← listDelBetween h (h entry).prev (h entry).next
  pure (setPrev (setNext h entry none) entry none)

def listEmpty (h : Heap ν) (head : ν) : Bool := (h head).next == some head

def listFirst (h : Heap ν) (head : ν) : Option ν := (h head).next

/-- The loop of `list_size`. It only reads, so a walk that is longer than the number
of nodes, which is the fuel, never ends. Fewer nodes than `2^29` fit in the address
space, and the `int` does not wrap. -/
def listSizeFrom (h : Heap ν) (head : ν) : Nat → Option ν → Int → Except Fault Int
  | 0, _, _ => .error .divergence
  | _ + 1, none, _ => .error .nullLink
  | fuel + 1, some pos, count =>
    if pos = head then pure count else listSizeFrom h head fuel (h pos).next (count + 1)

/-- A head is never null here. -/
def listSize (h : Heap ν) (fuel : Nat) (head : ν) : Except Fault Int :=
  if listEmpty h head then pure 0 else listSizeFrom h head fuel (h head).next 0

section Specs
variable {h : Heap ν} {head x : ν} {l l₁ l₂ : List ν}

theorem initListHead_spec (h : Heap ν) (a : ν) :
    Ring (initListHead h a) a [] ∧ ∀ y, y ≠ a → initListHead h a y = h y := by
  refine ⟨⟨?_, by simp⟩, ?_⟩
  · apply List.isChain_cons_cons.mpr
    exact ⟨⟨by simp [initListHead], by simp [initListHead]⟩, .singleton a⟩
  · intro y hy
    apply links_ext <;> simp [initListHead, hy]

/-- Both insertions write the same four links around the gap they fill. -/
theorem listAddBetween_spec (hr : Ring h head (l₁ ++ l₂)) (hx : x ∉ head :: (l₁ ++ l₂)) :
    ∃ h', listAddBetween h x (some (Ring.before head l₁)) (some (Ring.after head l₂)) = .ok h' ∧
      Ring h' head (l₁ ++ x :: l₂) ∧ ∀ y, y ∉ x :: head :: (l₁ ++ l₂) → h' y = h y := by
  have hu : Ring.before head l₁ ∈ head :: (l₁ ++ l₂) := by
    have := Ring.before_mem head l₁
    simp only [List.mem_cons, List.mem_append] at this ⊢
    tauto
  have hw : Ring.after head l₂ ∈ head :: (l₁ ++ l₂) := by
    have := Ring.after_mem head l₂
    simp only [List.mem_cons, List.mem_append, List.not_mem_nil, or_false] at this ⊢
    tauto
  have hux : Ring.before head l₁ ≠ x := fun he => hx (he ▸ hu)
  have hwx : Ring.after head l₂ ≠ x := fun he => hx (he ▸ hw)
  refine ⟨_, rfl, ?_, ?_⟩
  · apply hr.insert hx
    · intro y hyx hyu
      simp [hyx, hyu]
    · intro y hyx hyw
      simp [hyx, hyw]
    · exact ⟨by simp, by simp⟩
    · exact ⟨by simp [hux.symm], by simp [hwx]⟩
  · intro y hy
    simp only [List.mem_cons, not_or] at hy hu hw
    have hyu : y ≠ Ring.before head l₁ := by
      rintro rfl
      tauto
    have hyw : y ≠ Ring.after head l₂ := by
      rintro rfl
      tauto
    apply links_ext <;> simp [hy.1, hyu, hyw]

theorem listAdd_spec (hr : Ring h head l) (hx : x ∉ head :: l) :
    ∃ h', listAdd h x head = .ok h' ∧ Ring h' head (x :: l) ∧
      ∀ y, y ∉ x :: head :: l → h' y = h y := by
  have hr' : Ring h head ([] ++ l) := hr
  obtain ⟨h', hok, hs⟩ := listAddBetween_spec hr' hx
  refine ⟨h', ?_, hs⟩
  rw [listAdd, hr.next_head]
  exact hok

theorem listAddTail_spec (hr : Ring h head l) (hx : x ∉ head :: l) :
    ∃ h', listAddTail h x head = .ok h' ∧ Ring h' head (l ++ [x]) ∧
      ∀ y, y ∉ x :: head :: l → h' y = h y := by
  have hr' : Ring h head (l ++ []) := by simpa using hr
  have hx' : x ∉ head :: (l ++ []) := by simpa using hx
  obtain ⟨h', hok, hring, hframe⟩ := listAddBetween_spec hr' hx'
  refine ⟨h', ?_, hring, by simpa using hframe⟩
  rw [listAddTail, hr.prev_head]
  exact hok

theorem listDel_spec (hr : Ring h head (l₁ ++ x :: l₂)) :
    ∃ h', listDel h x = .ok h' ∧ Ring h' head (l₁ ++ l₂) ∧ h' x = ⟨none, none⟩ ∧
      ∀ y, y ∉ head :: (l₁ ++ x :: l₂) → h' y = h y := by
  obtain ⟨hu, hw⟩ := hr.neighbours
  have hperm : (head :: (l₁ ++ x :: l₂)).Perm (x :: head :: (l₁ ++ l₂)) :=
    (List.perm_middle.cons head).trans (List.Perm.swap x head _)
  have hx := (List.nodup_cons.mp (hperm.nodup_iff.mp hr.nodup)).1
  have hum : Ring.before head l₁ ∈ head :: (l₁ ++ l₂) := by
    have := Ring.before_mem head l₁
    simp only [List.mem_cons, List.mem_append] at this ⊢
    tauto
  have hwm : Ring.after head l₂ ∈ head :: (l₁ ++ l₂) := by
    have := Ring.after_mem head l₂
    simp only [List.mem_cons, List.mem_append, List.not_mem_nil, or_false] at this ⊢
    tauto
  have hux : Ring.before head l₁ ≠ x := fun he => hx (he ▸ hum)
  have hwx : Ring.after head l₂ ≠ x := fun he => hx (he ▸ hwm)
  have hprev : (h x).prev = some (Ring.before head l₁) := hu.2
  have hnext : (h x).next = some (Ring.after head l₂) := hw.1
  refine ⟨_, by simp only [listDel, listDelBetween, hprev, hnext]; rfl, ?_, ?_, ?_⟩
  · apply hr.remove
    · intro y hyx hyu
      simp [hyx, hyu]
    · intro y hyx hyw
      simp [hyx, hyw]
    · exact ⟨by simp [hux], by simp [hwx]⟩
  · simp [setNext, setPrev]
  · intro y hy
    have hyx : y ≠ x := by
      rintro rfl
      exact hy (by simp)
    have hyu : y ≠ Ring.before head l₁ := fun he => hy (hperm.mem_iff.mpr (by simp [he ▸ hum]))
    have hyw : y ≠ Ring.after head l₂ := fun he => hy (hperm.mem_iff.mpr (by simp [he ▸ hwm]))
    apply links_ext <;> simp [hyx, hyu, hyw]

theorem listDel_unlinked (hx : h x = ⟨none, none⟩) : listDel h x = .error .nullLink := by
  simp [listDel, listDelBetween, hx, deref]

theorem listEmpty_iff (hr : Ring h head l) : listEmpty h head = true ↔ l = [] := by
  simp [listEmpty, hr.next_head_eq_iff]

theorem listSizeFrom_chain {fuel : Nat} {x : ν} {count : Int}
    (hc : (x :: l ++ [head]).IsChain (Linked h)) (hl : head ∉ l) (hfuel : l.length < fuel) :
    listSizeFrom h head fuel (h x).next count = .ok (count + l.length) := by
  induction l generalizing x count fuel with
  | nil =>
    obtain ⟨⟨hn, _⟩, _⟩ := List.isChain_cons_cons.mp hc
    obtain ⟨fuel, rfl⟩ := Nat.exists_eq_add_one.mpr hfuel
    rw [hn, listSizeFrom, if_pos rfl]
    simp
  | cons a l ih =>
    obtain ⟨⟨hn, _⟩, htail⟩ := List.isChain_cons_cons.mp hc
    rw [List.length_cons] at hfuel ⊢
    rw [List.mem_cons, not_or] at hl
    obtain ⟨fuel, rfl⟩ := Nat.exists_eq_add_one.mpr (Nat.zero_lt_of_lt hfuel)
    rw [hn, listSizeFrom, if_neg (Ne.symm hl.1), ih htail hl.2 (by omega)]
    congr 1
    omega

theorem listSize_spec {fuel : Nat} (hr : Ring h head l) (hfuel : l.length < fuel) :
    listSize h fuel head = .ok l.length := by
  unfold listSize
  split
  · rename_i hempty
    rw [(listEmpty_iff hr).mp hempty]
    rfl
  · rw [listSizeFrom_chain hr.chain hr.head_notMem hfuel, Int.zero_add]

theorem listSize_unlinked {fuel : Nat} (hx : h x = ⟨none, none⟩) :
    listSize h (fuel + 1) x = .error .nullLink := by
  simp [listSize, listEmpty, listSizeFrom, hx]

omit [DecidableEq ν] in
theorem listFirst_cons (hr : Ring h head (x :: l)) : listFirst h head = some x := by
  simpa [listFirst] using hr.next_head

end Specs

section Partitions
variable {ι : Type v} [DecidableEq ι] {h : Heap ν} {head : ι → ν} {seq : ι → List ν} {i : ι} {x : ν}

omit [DecidableEq ν] in
/-- Both insertions add an unlinked node to one ring and touch no other node. -/
theorem partition_insert {h' : Heap ν} {l : List ν} (hp : Partition h head seq)
    (hx : Outside head seq x) (hring : Ring h' (head i) l) (hl : ∀ y, y ∈ l ↔ y = x ∨ y ∈ seq i)
    (hframe : ∀ y, y ∉ x :: head i :: seq i → h' y = h y) :
    Partition h' head (Function.update seq i l) ∧
      ∀ y, y ≠ x → y ∉ head i :: seq i → h' y = h y := by
  have hkept : ∀ y, y ≠ x → y ∉ head i :: seq i → h' y = h y := by
    intro y hyx hyi
    apply hframe
    rw [List.mem_cons, not_or]
    exact ⟨hyx, hyi⟩
  refine ⟨hp.replace hring ?_ ?_, hkept⟩
  · intro j hj y hy
    rcases (hl y).mp hy with rfl | hy
    · exact hx j
    · exact hp.apart i j (Ne.symm hj) y (List.mem_cons_of_mem _ hy)
  · intro y hyl hyi
    apply hkept y _ hyi
    intro hyx
    exact hyl ((hl y).mpr (.inl hyx))

theorem partition_listAdd (hp : Partition h head seq) (i : ι) (hx : Outside head seq x) :
    ∃ h', listAdd h x (head i) = .ok h' ∧ Partition h' head (Function.update seq i (x :: seq i)) ∧
      ∀ y, y ≠ x → y ∉ head i :: seq i → h' y = h y := by
  obtain ⟨h', hok, hring, hframe⟩ := listAdd_spec (hp.ring i) (hx i)
  exact ⟨h', hok, partition_insert hp hx hring (fun y => List.mem_cons) hframe⟩

theorem partition_listAddTail (hp : Partition h head seq) (i : ι) (hx : Outside head seq x) :
    ∃ h', listAddTail h x (head i) = .ok h' ∧
      Partition h' head (Function.update seq i (seq i ++ [x])) ∧
      ∀ y, y ≠ x → y ∉ head i :: seq i → h' y = h y := by
  obtain ⟨h', hok, hring, hframe⟩ := listAddTail_spec (hp.ring i) (hx i)
  have hl : ∀ y, y ∈ seq i ++ [x] ↔ y = x ∨ y ∈ seq i := by
    intro y
    rw [List.mem_append, List.mem_singleton, or_comm]
  exact ⟨h', hok, partition_insert hp hx hring hl hframe⟩

theorem partition_listDel (hp : Partition h head seq) (hx : x ∈ seq i) :
    ∃ h', listDel h x = .ok h' ∧ Partition h' head (Function.update seq i ((seq i).erase x)) ∧
      h' x = ⟨none, none⟩ ∧ ∀ y, y ∉ head i :: seq i → h' y = h y := by
  obtain ⟨l₁, l₂, hnot, hsplit, herase⟩ := List.exists_erase_eq hx
  have hring := hp.ring i
  rw [hsplit] at hring
  obtain ⟨h', hok, hring', hnull, hframe⟩ := listDel_spec hring
  rw [← herase] at hring'
  rw [← hsplit] at hframe
  refine ⟨h', hok, hp.replace hring' ?_ ?_, hnull, hframe⟩
  · intro j hj y hy
    exact hp.apart i j (Ne.symm hj) y (List.mem_cons_of_mem _ (List.mem_of_mem_erase hy))
  · intro y _ hy
    exact hframe y hy

/-- On every heap of disjoint rings the list functions do to the sequence of one head
what their comments say, and all other nodes keep their links. -/
theorem listFunctions_on_partition (hp : Partition h head seq) (i : ι) :
    (∀ x, Outside head seq x → ∃ h', listAdd h x (head i) = .ok h' ∧
      Partition h' head (Function.update seq i (x :: seq i)) ∧
      ∀ y, y ≠ x → y ∉ head i :: seq i → h' y = h y) ∧
    (∀ x, Outside head seq x → ∃ h', listAddTail h x (head i) = .ok h' ∧
      Partition h' head (Function.update seq i (seq i ++ [x])) ∧
      ∀ y, y ≠ x → y ∉ head i :: seq i → h' y = h y) ∧
    (∀ x ∈ seq i, ∃ h', listDel h x = .ok h' ∧
      Partition h' head (Function.update seq i ((seq i).erase x)) ∧ h' x = ⟨none, none⟩ ∧
      ∀ y, y ∉ head i :: seq i → h' y = h y) ∧
    (∀ x l, seq i = x :: l → listFirst h (head i) = some x) ∧
    (listEmpty h (head i) = true ↔ seq i = []) ∧
    (∀ fuel, (seq i).length < fuel → listSize h fuel (head i) = .ok (seq i).length) ∧
    ∀ a ∈ head i :: seq i, ∀ b ∈ head i :: seq i, (h a).next = some b ↔ (h b).prev = some a := by
  refine ⟨?_, ?_, ?_, ?_, ?_, ?_, ?_⟩
  · intro x hx
    exact partition_listAdd hp i hx
  · intro x hx
    exact partition_listAddTail hp i hx
  · intro x hx
    exact partition_listDel hp hx
  · intro x l hl
    have hring := hp.ring i
    rw [hl] at hring
    exact listFirst_cons hring
  · exact listEmpty_iff (hp.ring i)
  · intro fuel hfuel
    exact listSize_spec (hp.ring i) hfuel
  · intro a ha b hb
    exact (hp.ring i).next_eq_iff ha hb

/-- Head `0` with the entries `1` and `2`, the empty head `3`, and `4` unlinked. -/
def twoRings : Heap (Fin 5)
  | 0 => ⟨some 1, some 2⟩
  | 1 => ⟨some 2, some 0⟩
  | 2 => ⟨some 0, some 1⟩
  | 3 => ⟨some 3, some 3⟩
  | 4 => ⟨none, none⟩

def twoHeads (full : Bool) : Fin 5 := if full then 0 else 3

def twoEntries (full : Bool) : List (Fin 5) := if full then [1, 2] else []

theorem listFunctions_on_twoRings :
    Partition twoRings twoHeads twoEntries ∧ Outside twoHeads twoEntries 4 ∧
      (∃ h', listAdd twoRings 4 3 = .ok h' ∧
        Partition h' twoHeads (Function.update twoEntries false [4])) ∧
      (∃ h', listDel twoRings 1 = .ok h' ∧
        Partition h' twoHeads (Function.update twoEntries true [2])) ∧
      listSize twoRings 3 0 = .ok 2 := by
  have hp : Partition twoRings twoHeads twoEntries := ⟨by decide, by decide⟩
  have hx : Outside twoHeads twoEntries 4 := by
    unfold Outside
    decide
  obtain ⟨h₁, hok₁, hp₁, _⟩ := (listFunctions_on_partition hp false).1 4 hx
  obtain ⟨_, _, hdel, _, _, hsize, _⟩ := listFunctions_on_partition hp true
  obtain ⟨h₂, hok₂, hp₂, _⟩ := hdel 1 (by decide)
  exact ⟨hp, hx, ⟨h₁, hok₁, hp₁⟩, ⟨h₂, hok₂, hp₂⟩, hsize 3 (by decide)⟩

end Partitions

section Families
variable {ι : Type v} {κ : Type w} [DecidableEq ι] {L : Layout ν ι κ}
variable {h : Heap ν} {I : ι → Prop} {ls : ι → List κ} {i : ι} {k : κ}

theorem rings_listAddTail (hr : Rings L h I ls) (hi : I i) (hk : ∀ j, I j → k ∉ ls j) :
    ∃ h', listAddTail h (L.entry k) (L.head i) = .ok h' ∧
      Rings L h' I (Function.update ls i (ls i ++ [k])) ∧
      ∀ x, x ≠ L.entry k → Unlinked L I ls x → h' x = h x := by
  have hx := unlinked_iff_outside.mp (unlinked_entry (L := L) hk)
  obtain ⟨h', hok, hp, hframe⟩ := partition_listAddTail (rings_iff_partition.mp hr) ⟨i, hi⟩ hx
  refine ⟨h', hok, rings_update hi (by simpa using hp), ?_⟩
  intro x hxk hu
  exact hframe x hxk (unlinked_iff_outside.mp hu ⟨i, hi⟩)

theorem rings_listDel [DecidableEq κ] (hr : Rings L h I ls) (hi : I i) (hk : k ∈ ls i) :
    ∃ h', listDel h (L.entry k) = .ok h' ∧
      Rings L h' I (Function.update ls i ((ls i).erase k)) ∧ h' (L.entry k) = ⟨none, none⟩ ∧
      ∀ x, Unlinked L I ls x → h' x = h x := by
  obtain ⟨h', hok, hp, hnull, hframe⟩ :=
    partition_listDel (rings_iff_partition.mp hr) (i := ⟨i, hi⟩) (List.mem_map_of_mem hk)
  rw [← List.map_erase L.entry_inj] at hp
  refine ⟨h', hok, rings_update hi hp, hnull, ?_⟩
  intro x hu
  exact hframe x (unlinked_iff_outside.mp hu ⟨i, hi⟩)

theorem rings_move [DecidableEq κ] {j : ι} (hr : Rings L h I ls) (hi : I i) (hj : I j) (hij : j ≠ i)
    (hk : k ∈ ls i) :
    ∃ h₁ h₂, listDel h (L.entry k) = .ok h₁ ∧
      listAddTail h₁ (L.entry k) (L.head j) = .ok h₂ ∧
      Rings L h₂ I (Rings.moved ls i j k) ∧ ∀ x, Unlinked L I ls x → h₂ x = h x := by
  obtain ⟨h₁, hdel, hr₁, _, hframe₁⟩ := rings_listDel hr hi hk
  have hout : ∀ m, I m → k ∉ Function.update ls i ((ls i).erase k) m := by
    intro m hm hkm
    by_cases hmi : m = i
    · subst hmi
      rw [Function.update_self] at hkm
      exact (hr.nodup hm).not_mem_erase hkm
    · rw [Function.update_of_ne hmi] at hkm
      exact hmi (hr.eq_of_mem hm hi hkm hk)
  obtain ⟨h₂, hadd, hr₂, hframe₂⟩ := rings_listAddTail hr₁ hj hout
  rw [Function.update_of_ne hij] at hr₂
  refine ⟨h₁, h₂, hdel, hadd, hr₂, ?_⟩
  intro x hx
  have hx₁ : Unlinked L I (Function.update ls i ((ls i).erase k)) x := by
    intro m hm
    refine ⟨(hx m hm).1, ?_⟩
    intro e he
    by_cases hmi : m = i
    · subst hmi
      rw [Function.update_self] at he
      exact (hx m hm).2 e (List.mem_of_mem_erase he)
    · rw [Function.update_of_ne hmi] at he
      exact (hx m hm).2 e he
  rw [hframe₂ x ((hx i hi).2 k hk) hx₁, hframe₁ x hx]

omit [DecidableEq ι] in
theorem rings_listEmpty (hr : Rings L h I ls) (hi : I i) :
    listEmpty h (L.head i) = true ↔ ls i = [] := by
  rw [listEmpty_iff (hr.ring i hi), List.map_eq_nil_iff]

omit [DecidableEq ν] [DecidableEq ι] in
theorem rings_listFirst (hr : Rings L h I ls) (hi : I i) {l : List κ} (hl : ls i = k :: l) :
    listFirst h (L.head i) = some (L.entry k) := by
  have hring := hr.ring i hi
  rw [hl, List.map_cons] at hring
  exact listFirst_cons hring

end Families

end Zeos
