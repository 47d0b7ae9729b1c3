import Mathlib.Data.List.Chain
import Mathlib.Data.List.Nodup
import Mathlib.Logic.Function.Basic

/-!
# Circular doubly linked lists on a heap

A heap gives every node a `next` and a `prev` link, and a link may be null. A
ring is a head together with the sequence of its entries; consecutive nodes of
`head, entries, head` point at each other. Nothing here mentions how the links
are written: the insertion and removal rules speak about any two heaps that
differ in the right links, so that they apply to every order of the updates.
-/

namespace Zeos.LinkedRings

set_option autoImplicit false

universe u v w
variable {ν : Type u}

structure Links (ν : Type u) where
  next : Option ν
  prev : Option ν

abbrev Heap (ν : Type u) := ν → Links ν

def Linked (h : Heap ν) (a b : ν) : Prop :=
  (h a).next = some b ∧ (h b).prev = some a

/-- A chain survives every change of the heap that keeps the forward links of
all nodes but the last and the backward links of all nodes but the first. -/
theorem chain_congr {h h' : Heap ν} {l : List ν}
    (hn : ∀ x ∈ l.dropLast, (h' x).next = (h x).next)
    (hp : ∀ x ∈ l.tail, (h' x).prev = (h x).prev)
    (hl : l.IsChain (Linked h)) : l.IsChain (Linked h') := by
  induction l with
  | nil => exact .nil
  | cons a l ih =>
    cases l with
    | nil => exact .singleton a
    | cons b l =>
      obtain ⟨hab, htail⟩ := List.isChain_cons_cons.mp hl
      refine List.isChain_cons_cons.mpr ⟨⟨?_, ?_⟩, ?_⟩
      · rw [hn a (by simp)]
        exact hab.1
      · rw [hp b (by simp)]
        exact hab.2
      · apply ih _ _ htail
        · intro x hx
          exact hn x (List.mem_cons_of_mem a hx)
        · intro x hx
          exact hp x (List.mem_cons_of_mem b hx)

theorem chain_unique {h : Heap ν} {a e : ν} {l l' : List ν}
    (hl : (a :: l ++ [e]).IsChain (Linked h)) (hl' : (a :: l' ++ [e]).IsChain (Linked h))
    (he : e ∉ l) (he' : e ∉ l') : l = l' := by
  induction l generalizing a l' with
  | nil =>
    cases l' with
    | nil => rfl
    | cons b l' =>
      have hn := (List.isChain_cons_cons.mp hl).1.1
      have hn' := (List.isChain_cons_cons.mp hl').1.1
      rw [hn] at hn'
      cases hn'
      exact absurd List.mem_cons_self he'
  | cons b l ih =>
    obtain ⟨⟨hn, _⟩, htail⟩ := List.isChain_cons_cons.mp hl
    cases l' with
    | nil =>
      have hn' := (List.isChain_cons_cons.mp hl').1.1
      rw [hn] at hn'
      cases hn'
      exact absurd List.mem_cons_self he
    | cons c l' =>
      obtain ⟨⟨hn', _⟩, htail'⟩ := List.isChain_cons_cons.mp hl'
      rw [hn] at hn'
      cases hn'
      rw [ih htail htail' (fun hm => he (List.mem_cons_of_mem b hm))
        (fun hm => he' (List.mem_cons_of_mem b hm))]

/-- The entries `l` hang off `head` in this order. -/
structure Ring (h : Heap ν) (head : ν) (l : List ν) : Prop where
  chain : (head :: l ++ [head]).IsChain (Linked h)
  nodup : (head :: l).Nodup

instance [DecidableEq ν] (h : Heap ν) : DecidableRel (Linked h) :=
  fun a b => inferInstanceAs (Decidable ((h a).next = some b ∧ (h b).prev = some a))

instance [DecidableEq ν] (h : Heap ν) (head : ν) (l : List ν) : Decidable (Ring h head l) :=
  decidable_of_iff ((head :: l ++ [head]).IsChain (Linked h) ∧ (head :: l).Nodup)
    ⟨fun hr => ⟨hr.1, hr.2⟩, fun hr => ⟨hr.chain, hr.nodup⟩⟩

namespace Ring
variable {h h' : Heap ν} {head : ν} {l l' : List ν}

theorem congr (hr : Ring h head l) (he : ∀ x ∈ head :: l, h' x = h x) : Ring h' head l := by
  refine ⟨chain_congr ?_ ?_ hr.chain, hr.nodup⟩
  · intro x hx
    rw [List.dropLast_concat] at hx
    rw [he x hx]
  · intro x hx
    rw [he x]
    rw [List.cons_append, List.tail_cons] at hx
    rcases List.mem_append.mp hx with hx | hx
    · exact List.mem_cons_of_mem _ hx
    · exact List.mem_cons.mpr (.inl (List.mem_singleton.mp hx))

theorem head_notMem (hr : Ring h head l) : head ∉ l := (List.nodup_cons.mp hr.nodup).1

theorem entries_nodup (hr : Ring h head l) : l.Nodup := (List.nodup_cons.mp hr.nodup).2

theorem unique (hr : Ring h head l) (hr' : Ring h head l') : l = l' :=
  chain_unique hr.chain hr'.chain hr.head_notMem hr'.head_notMem

theorem linked_head (hr : Ring h head l) : Linked h head ((l ++ [head]).head (by simp)) := by
  have hc := hr.chain
  cases l with
  | nil => exact (List.isChain_cons_cons.mp hc).1
  | cons a l => exact (List.isChain_cons_cons.mp hc).1

theorem linked_last (hr : Ring h head l) : Linked h ((head :: l).getLast (by simp)) head := by
  have hc := List.isChain_append.mp hr.chain
  exact hc.2.2 _ (List.getLast?_eq_some_getLast (by simp)) head (by simp)

theorem next_head (hr : Ring h head l) : (h head).next = some ((l ++ [head]).head (by simp)) :=
  hr.linked_head.1

theorem prev_head (hr : Ring h head l) :
    (h head).prev = some ((head :: l).getLast (by simp)) :=
  hr.linked_last.2

theorem next_head_eq_iff (hr : Ring h head l) : (h head).next = some head ↔ l = [] := by
  rw [hr.next_head]
  cases l with
  | nil => simp
  | cons a l =>
    have hne : a ≠ head := fun he => hr.head_notMem (he ▸ List.mem_cons_self)
    simp [hne]

theorem rotate {l₁ l₂ : List ν} {x : ν} (hr : Ring h head (l₁ ++ x :: l₂)) :
    Ring h x (l₂ ++ head :: l₁) := by
  have hsplit : head :: (l₁ ++ x :: l₂) ++ [head] = (head :: l₁) ++ (x :: (l₂ ++ [head])) := by simp
  obtain ⟨hfirst, hlast, hjoin⟩ := List.isChain_append.mp (hsplit ▸ hr.chain)
  constructor
  · have hfront : (x :: (l₂ ++ head :: l₁)).IsChain (Linked h) := by
      have hover : ((x :: l₂) ++ [head] ++ l₁).IsChain (Linked h) :=
        List.IsChain.append_overlap hlast hfirst (List.cons_ne_nil head [])
      simpa using hover
    rw [List.isChain_append]
    refine ⟨hfront, .singleton x, ?_⟩
    intro a ha b hb
    obtain rfl : x = b := by simpa using hb
    apply hjoin a _ x rfl
    have hsame : (x :: (l₂ ++ head :: l₁)).getLast? = (head :: l₁).getLast? := by
      rw [← List.cons_append, List.getLast?_append_of_ne_nil _ (List.cons_ne_nil head l₁)]
    exact hsame ▸ ha
  · have hperm : (head :: (l₁ ++ x :: l₂)).Perm (x :: (l₂ ++ head :: l₁)) := by
      have hswap : ((head :: l₁) ++ (x :: l₂)).Perm ((x :: l₂) ++ (head :: l₁)) := List.perm_append_comm
      simpa using hswap
    exact hperm.nodup_iff.mp hr.nodup

theorem neighbours {l₁ l₂ : List ν} {x : ν} (hr : Ring h head (l₁ ++ x :: l₂)) :
    Linked h ((head :: l₁).getLast (by simp)) x ∧ Linked h x ((l₂ ++ [head]).head (by simp)) := by
  have hc := hr.chain
  have hsplit : head :: (l₁ ++ x :: l₂) ++ [head] = (head :: l₁) ++ (x :: (l₂ ++ [head])) := by simp
  rw [hsplit] at hc
  obtain ⟨_, hx, hb⟩ := List.isChain_append.mp hc
  constructor
  · exact hb _ (List.getLast?_eq_some_getLast (by simp)) x (by simp)
  · cases l₂ with
    | nil => exact (List.isChain_cons_cons.mp hx).1
    | cons a l₂ => exact (List.isChain_cons_cons.mp hx).1

def before (head : ν) (l₁ : List ν) : ν := (head :: l₁).getLast (by simp)

def after (head : ν) (l₂ : List ν) : ν := (l₂ ++ [head]).head (by simp)

theorem before_mem (head : ν) (l₁ : List ν) : before head l₁ ∈ head :: l₁ := List.getLast_mem _

theorem after_mem (head : ν) (l₂ : List ν) : after head l₂ ∈ l₂ ++ [head] := List.head_mem _

theorem before_notMem_dropLast {head : ν} {l₁ : List ν} (hd : (head :: l₁).Nodup) :
    before head l₁ ∉ (head :: l₁).dropLast := by
  rw [← List.dropLast_append_getLast (List.cons_ne_nil head l₁)] at hd
  have hdis := (List.nodup_append.mp hd).2.2
  intro hm
  exact hdis _ hm _ (List.mem_singleton.mpr rfl) rfl

theorem after_notMem_tail {head : ν} {l₂ : List ν} (hd : (l₂ ++ [head]).Nodup) :
    after head l₂ ∉ (l₂ ++ [head]).tail := by
  rw [← List.cons_head_tail (l := l₂ ++ [head]) (by simp)] at hd
  exact (List.nodup_cons.mp hd).1

/-- The two halves of a ring around a gap, in any heap that changed only at the
gap and at one further node. -/
theorem halves {l₁ l₂ : List ν} (hd : (head :: (l₁ ++ l₂)).Nodup)
    (hA : (head :: l₁).IsChain (Linked h)) (hB : (l₂ ++ [head]).IsChain (Linked h))
    (hn : ∀ y ∈ head :: (l₁ ++ l₂), y ≠ before head l₁ → (h' y).next = (h y).next)
    (hp : ∀ y ∈ head :: (l₁ ++ l₂), y ≠ after head l₂ → (h' y).prev = (h y).prev) :
    (head :: l₁).IsChain (Linked h') ∧ (l₂ ++ [head]).IsChain (Linked h') := by
  obtain ⟨hh, hl⟩ := List.nodup_cons.mp hd
  obtain ⟨hd₁, hd₂, hdis⟩ := List.nodup_append.mp hl
  simp only [List.mem_append, not_or] at hh
  have hdA : (head :: l₁).Nodup := List.nodup_cons.mpr ⟨hh.1, hd₁⟩
  have hdB : (l₂ ++ [head]).Nodup := by
    rw [List.nodup_append]
    refine ⟨hd₂, by simp, ?_⟩
    intro a ha b hb hab
    rw [List.mem_singleton.mp hb] at hab
    exact hh.2 (hab ▸ ha)
  constructor
  · apply chain_congr _ _ hA
    · intro y hy
      apply hn y
      · have := List.dropLast_subset _ hy
        simp only [List.mem_cons, List.mem_append] at this ⊢
        tauto
      · intro he
        exact before_notMem_dropLast hdA (he ▸ hy)
    · intro y hy
      rw [List.tail_cons] at hy
      apply hp y (by simp [hy])
      intro he
      have hm := after_mem head l₂
      rw [← he] at hm
      rcases List.mem_append.mp hm with hm | hm
      · exact hdis y hy y hm rfl
      · exact hh.1 (List.mem_singleton.mp hm ▸ hy)
  · apply chain_congr _ _ hB
    · intro y hy
      rw [List.dropLast_concat] at hy
      apply hn y (by simp [hy])
      intro he
      have hm := before_mem head l₁
      rw [← he] at hm
      rcases List.mem_cons.mp hm with hm | hm
      · exact hh.2 (hm ▸ hy)
      · exact hdis y hm y hy rfl
    · intro y hy
      apply hp y
      · have := List.mem_of_mem_tail hy
        simp only [List.mem_cons, List.mem_append, List.not_mem_nil, or_false] at this ⊢
        tauto
      · intro he
        exact after_notMem_tail hdB (he ▸ hy)

theorem insert {l₁ l₂ : List ν} {x : ν} (hr : Ring h head (l₁ ++ l₂)) (hx : x ∉ head :: (l₁ ++ l₂))
    (hn : ∀ y, y ≠ x → y ≠ before head l₁ → (h' y).next = (h y).next)
    (hp : ∀ y, y ≠ x → y ≠ after head l₂ → (h' y).prev = (h y).prev)
    (hu : Linked h' (before head l₁) x) (hw : Linked h' x (after head l₂)) :
    Ring h' head (l₁ ++ x :: l₂) := by
  have hne : ∀ y ∈ head :: (l₁ ++ l₂), y ≠ x := fun y hy he => hx (he ▸ hy)
  have hsplit : head :: (l₁ ++ l₂) ++ [head] = (head :: l₁) ++ (l₂ ++ [head]) := by simp
  have hc := hr.chain
  rw [hsplit] at hc
  obtain ⟨hA, hB, _⟩ := List.isChain_append.mp hc
  obtain ⟨hA', hB'⟩ := halves hr.nodup hA hB (fun y hy => hn y (hne y hy)) (fun y hy => hp y (hne y hy))
  refine ⟨?_, ?_⟩
  · have hgoal : head :: (l₁ ++ x :: l₂) ++ [head] = (head :: l₁) ++ x :: (l₂ ++ [head]) := by simp
    rw [hgoal]
    refine List.isChain_append.mpr ⟨hA', ?_, ?_⟩
    · rw [← List.cons_head_tail (l := l₂ ++ [head]) (by simp)] at hB' ⊢
      exact List.isChain_cons_cons.mpr ⟨hw, hB'⟩
    · intro a ha b hb
      rw [List.getLast?_eq_some_getLast (by simp)] at ha
      simp only [Option.mem_def, Option.some.injEq, List.head?_cons] at ha hb
      subst ha hb
      exact hu
  · have hperm : (head :: (l₁ ++ x :: l₂)).Perm (x :: head :: (l₁ ++ l₂)) := by
      exact (List.perm_middle.cons head).trans (List.Perm.swap x head _)
    exact hperm.nodup_iff.mpr (List.nodup_cons.mpr ⟨hx, hr.nodup⟩)

theorem remove {l₁ l₂ : List ν} {x : ν} (hr : Ring h head (l₁ ++ x :: l₂))
    (hn : ∀ y, y ≠ x → y ≠ before head l₁ → (h' y).next = (h y).next)
    (hp : ∀ y, y ≠ x → y ≠ after head l₂ → (h' y).prev = (h y).prev)
    (hu : Linked h' (before head l₁) (after head l₂)) :
    Ring h' head (l₁ ++ l₂) := by
  have hperm : (head :: (l₁ ++ x :: l₂)).Perm (x :: head :: (l₁ ++ l₂)) :=
    (List.perm_middle.cons head).trans (List.Perm.swap x head _)
  obtain ⟨hx, hd⟩ := List.nodup_cons.mp (hperm.nodup_iff.mp hr.nodup)
  have hne : ∀ y ∈ head :: (l₁ ++ l₂), y ≠ x := fun y hy he => hx (he ▸ hy)
  have hc := hr.chain
  have hsplit : head :: (l₁ ++ x :: l₂) ++ [head] = (head :: l₁) ++ x :: (l₂ ++ [head]) := by simp
  rw [hsplit] at hc
  obtain ⟨hA, hxB, _⟩ := List.isChain_append.mp hc
  have hB := hxB.tail
  rw [List.tail_cons] at hB
  obtain ⟨hA', hB'⟩ := halves hd hA hB (fun y hy => hn y (hne y hy)) (fun y hy => hp y (hne y hy))
  refine ⟨?_, hd⟩
  have hgoal : head :: (l₁ ++ l₂) ++ [head] = (head :: l₁) ++ (l₂ ++ [head]) := by simp
  rw [hgoal]
  refine List.isChain_append.mpr ⟨hA', hB', ?_⟩
  intro a ha b hb
  rw [List.getLast?_eq_some_getLast (by simp)] at ha
  rw [List.head?_eq_some_head (by simp)] at hb
  simp only [Option.mem_def, Option.some.injEq] at ha hb
  subst ha hb
  exact hu

theorem next_eq_iff (hr : Ring h head l) {a b : ν} (ha : a ∈ head :: l) (hb : b ∈ head :: l) :
    (h a).next = some b ↔ (h b).prev = some a := by
  -- seen from any of its nodes the ring is a ring again
  have hturn : ∀ x ∈ head :: l, ∃ l', Ring h x l' := by
    intro x hx
    rcases List.mem_cons.mp hx with rfl | hx
    · exact ⟨l, hr⟩
    · obtain ⟨l₁, l₂, hsplit⟩ := List.append_of_mem hx
      exact ⟨l₂ ++ head :: l₁, (hsplit ▸ hr).rotate⟩
  constructor
  · intro hn
    obtain ⟨l', hr'⟩ := hturn a ha
    have hl := hr'.linked_head
    rw [hl.1] at hn
    rw [← Option.some.inj hn]
    exact hl.2
  · intro hp
    obtain ⟨l', hr'⟩ := hturn b hb
    have hl := hr'.linked_last
    rw [hl.2] at hp
    rw [← Option.some.inj hp]
    exact hl.1

end Ring

section Partitions
variable {ι : Type v} {h h' : Heap ν} {head : ι → ν} {seq : ι → List ν}

/-- Disjoint rings on one heap. A node of none of them is unlinked, and its links may
be anything. -/
structure Partition (h : Heap ν) (head : ι → ν) (seq : ι → List ν) : Prop where
  ring : ∀ i, Ring h (head i) (seq i)
  apart : ∀ i j, i ≠ j → ∀ x ∈ head i :: seq i, x ∉ head j :: seq j

def Outside (head : ι → ν) (seq : ι → List ν) (x : ν) : Prop :=
  ∀ i, x ∉ head i :: seq i

theorem Partition.replace [DecidableEq ι] (hp : Partition h head seq) {i : ι} {l : List ν}
    (hring : Ring h' (head i) l) (hnew : ∀ j, j ≠ i → ∀ x ∈ l, x ∉ head j :: seq j)
    (hframe : ∀ x, x ∉ l → x ∉ head i :: seq i → h' x = h x) :
    Partition h' head (Function.update seq i l) := by
  have hout : ∀ j, j ≠ i → ∀ x ∈ head j :: seq j, x ∉ head i :: l := by
    intro j hj x hx hm
    rcases List.mem_cons.mp hm with rfl | hm
    · exact hp.apart i j (Ne.symm hj) _ List.mem_cons_self hx
    · exact hnew j hj x hm hx
  constructor
  · intro j
    by_cases hj : j = i
    · subst hj
      simpa using hring
    · rw [Function.update_of_ne hj]
      apply (hp.ring j).congr
      intro x hx
      apply hframe x
      · intro hm
        exact hnew j hj x hm hx
      · exact hp.apart j i hj x hx
  · intro a b hab x hxa hxb
    by_cases ha : a = i
    · subst ha
      rw [Function.update_self] at hxa
      rw [Function.update_of_ne (Ne.symm hab)] at hxb
      exact hout b (Ne.symm hab) x hxb hxa
    · rw [Function.update_of_ne ha] at hxa
      by_cases hb : b = i
      · subst hb
        rw [Function.update_self] at hxb
        exact hout a ha x hxa hxb
      · rw [Function.update_of_ne hb] at hxb
        exact hp.apart a b hab x hxa hxb

end Partitions

/-- Which nodes serve as ring heads and which as entries. -/
structure Layout (ν : Type u) (ι : Type v) (κ : Type w) where
  head : ι → ν
  entry : κ → ν
  head_inj : Function.Injective head
  entry_inj : Function.Injective entry
  head_ne_entry : ∀ i k, head i ≠ entry k

section Families
variable {ι : Type v} {κ : Type w} {L : Layout ν ι κ}
variable {h h' : Heap ν} {I J : ι → Prop} {ls : ι → List κ}

/-- The heads selected by `I` carry disjoint rings with the entries `ls`. -/
structure Rings (L : Layout ν ι κ) (h : Heap ν) (I : ι → Prop) (ls : ι → List κ) : Prop where
  ring : ∀ i, I i → Ring h (L.head i) ((ls i).map L.entry)
  disjoint : ∀ i j, I i → I j → i ≠ j → ∀ k ∈ ls i, k ∉ ls j

/-- A node that is neither a selected head nor an entry of one. -/
def Unlinked (L : Layout ν ι κ) (I : ι → Prop) (ls : ι → List κ) (x : ν) : Prop :=
  ∀ i, I i → x ≠ L.head i ∧ ∀ k ∈ ls i, x ≠ L.entry k

theorem unlinked_head {i : ι} (hi : ¬ I i) : Unlinked L I ls (L.head i) := by
  intro j hj
  refine ⟨?_, fun k _ => L.head_ne_entry i k⟩
  intro he
  exact hi (L.head_inj he ▸ hj)

theorem unlinked_entry {k : κ} (hk : ∀ i, I i → k ∉ ls i) : Unlinked L I ls (L.entry k) := by
  intro i hi
  refine ⟨(L.head_ne_entry i k).symm, ?_⟩
  intro m hm he
  exact hk i hi (L.entry_inj he ▸ hm)

theorem unlinked_iff_outside {x : ν} : Unlinked L I ls x ↔
    Outside (fun i : Subtype I => L.head i) (fun i => (ls i).map L.entry) x := by
  constructor
  · intro hu i hm
    rcases List.mem_cons.mp hm with he | hm
    · exact (hu i i.2).1 he
    · obtain ⟨k, hk, he⟩ := List.mem_map.mp hm
      exact (hu i i.2).2 k hk he.symm
  · intro ho i hi
    constructor
    · intro he
      exact ho ⟨i, hi⟩ (List.mem_cons.mpr (.inl he))
    · intro k hk he
      exact ho ⟨i, hi⟩ (List.mem_cons_of_mem _ (List.mem_map.mpr ⟨k, hk, he.symm⟩))

/-- The selected rings of a layout are disjoint as soon as their entries are, since no
head is an entry. -/
theorem rings_iff_partition : Rings L h I ls ↔
    Partition h (fun i : Subtype I => L.head i) (fun i => (ls i).map L.entry) := by
  constructor
  · intro hr
    refine ⟨fun i => hr.ring i i.2, ?_⟩
    intro i j hij x hi hj
    rcases List.mem_cons.mp hi with rfl | hi
    · rcases List.mem_cons.mp hj with he | hj
      · exact hij (Subtype.ext (L.head_inj he))
      · obtain ⟨k, _, he⟩ := List.mem_map.mp hj
        exact L.head_ne_entry i k he.symm
    · obtain ⟨k, hk, rfl⟩ := List.mem_map.mp hi
      rcases List.mem_cons.mp hj with he | hj
      · exact L.head_ne_entry j k he.symm
      · rw [List.mem_map_of_injective L.entry_inj] at hj
        exact hr.disjoint i j i.2 j.2 (fun he => hij (Subtype.ext he)) k hk hj
  · intro hp
    refine ⟨fun i hi => hp.ring ⟨i, hi⟩, ?_⟩
    intro i j hi hj hij k hki hkj
    apply hp.apart ⟨i, hi⟩ ⟨j, hj⟩ _ (L.entry k)
    · exact List.mem_cons_of_mem _ (List.mem_map_of_mem hki)
    · exact List.mem_cons_of_mem _ (List.mem_map_of_mem hkj)
    · intro he
      exact hij (congrArg Subtype.val he)

theorem rings_update [DecidableEq ι] {i : ι} (hi : I i) {l : List κ}
    (hp : Partition h (fun i : Subtype I => L.head i)
      (Function.update (fun i : Subtype I => (ls i).map L.entry) ⟨i, hi⟩ (l.map L.entry))) :
    Rings L h I (Function.update ls i l) := by
  rw [rings_iff_partition]
  convert hp using 1
  funext j
  by_cases hj : j = ⟨i, hi⟩
  · subst hj
    simp
  · have hji : (j : ι) ≠ i := fun he => hj (Subtype.ext he)
    rw [Function.update_of_ne hj, Function.update_of_ne hji]

namespace Rings

theorem nodup (hr : Rings L h I ls) {i : ι} (hi : I i) : (ls i).Nodup :=
  List.Nodup.of_map L.entry (hr.ring i hi).entries_nodup

theorem eq_of_mem (hr : Rings L h I ls) {i j : ι} (hi : I i) (hj : I j) {k : κ}
    (hki : k ∈ ls i) (hkj : k ∈ ls j) : i = j := by
  by_contra hne
  exact hr.disjoint i j hi hj hne k hki hkj

theorem unique {ls' : ι → List κ} (hr : Rings L h I ls) (hr' : Rings L h I ls') {i : ι} (hi : I i) :
    ls i = ls' i :=
  List.map_injective_iff.mpr L.entry_inj ((hr.ring i hi).unique (hr'.ring i hi))

theorem mono (hr : Rings L h I ls) (hJ : ∀ i, J i → I i) : Rings L h J ls :=
  ⟨fun i hi => hr.ring i (hJ i hi), fun i j hi hj => hr.disjoint i j (hJ i hi) (hJ j hj)⟩

theorem congr (hr : Rings L h I ls) (he : ∀ x, ¬ Unlinked L I ls x → h' x = h x) :
    Rings L h' I ls := by
  refine ⟨?_, hr.disjoint⟩
  intro i hi
  apply (hr.ring i hi).congr
  intro x hx
  apply he
  intro hu
  rcases List.mem_cons.mp hx with rfl | hx
  · exact (hu i hi).1 rfl
  · obtain ⟨k, hk, rfl⟩ := List.mem_map.mp hx
    exact (hu i hi).2 k hk rfl

theorem congrLists {ls' : ι → List κ} (hr : Rings L h I ls) (he : ∀ i, I i → ls' i = ls i) :
    Rings L h I ls' := by
  constructor
  · intro i hi
    rw [he i hi]
    exact hr.ring i hi
  · intro i j hi hj
    rw [he i hi, he j hj]
    exact hr.disjoint i j hi hj

theorem addHead [DecidableEq ι] (hr : Rings L h I ls) {i : ι} (hi : ¬ I i)
    (hring : Ring h' (L.head i) []) (hframe : ∀ x, x ≠ L.head i → h' x = h x) :
    Rings L h' (fun j => j = i ∨ I j) (Function.update ls i []) := by
  have hne : ∀ j, I j → j ≠ i := fun j hj he => hi (he ▸ hj)
  constructor
  · rintro j (rfl | hj)
    · simpa using hring
    · rw [Function.update_of_ne (hne j hj)]
      apply (hr.ring j hj).congr
      intro x hx
      apply hframe
      rintro rfl
      rcases List.mem_cons.mp hx with he | hx
      · exact hne j hj (L.head_inj he).symm
      · obtain ⟨k, _, he⟩ := List.mem_map.mp hx
        exact L.head_ne_entry i k he.symm
  · rintro a b (rfl | ha) (rfl | hb) hab k hka hkb
    · exact hab rfl
    · simp at hka
    · simp at hkb
    · rw [Function.update_of_ne (hne a ha)] at hka
      rw [Function.update_of_ne (hne b hb)] at hkb
      exact hr.disjoint a b ha hb hab k hka hkb

/-- The lists once the entry `k` has gone from ring `i` to the end of ring `j`. -/
def moved [DecidableEq ι] [DecidableEq κ] (ls : ι → List κ) (i j : ι) (k : κ) : ι → List κ :=
  Function.update (Function.update ls i ((ls i).erase k)) j (ls j ++ [k])

theorem mem_moved [DecidableEq ι] [DecidableEq κ] (hr : Rings L h I ls) {i j m : ι} {k e : κ}
    (hi : I i) (hm : I m) (hij : j ≠ i) (hk : k ∈ ls i) :
    e ∈ moved ls i j k m ↔ (e ∈ ls m ∧ e ≠ k) ∨ (m = j ∧ e = k) := by
  have hne : m ≠ i → e ∈ ls m → e ≠ k := by
    rintro hmi he rfl
    exact hmi (hr.eq_of_mem hm hi he hk)
  unfold moved
  by_cases hmj : m = j
  · subst hmj
    rw [Function.update_self, List.mem_append, List.mem_singleton]
    constructor
    · rintro (he | he)
      · exact .inl ⟨he, hne hij he⟩
      · exact .inr ⟨rfl, he⟩
    · rintro (he | he)
      · exact .inl he.1
      · exact .inr he.2
  · rw [Function.update_of_ne hmj]
    by_cases hmi : m = i
    · subst hmi
      rw [Function.update_self, (hr.nodup hm).mem_erase_iff]
      simp [hmj, and_comm]
    · rw [Function.update_of_ne hmi]
      constructor
      · exact fun he => .inl ⟨he, hne hmi he⟩
      · rintro (he | he)
        · exact he.1
        · exact absurd he.1 hmj

end Rings

end Families

end Zeos.LinkedRings
