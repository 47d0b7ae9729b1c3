import Mathlib.Data.List.Basic
import Mathlib.Data.List.Nodup
import Mathlib.Logic.Function.Basic
import Mathlib.Order.Basic

/-!
# Breadth-first search in a graph given by successor lists

The frontier keeps every vertex that has been discovered, in the order of discovery,
and the number of those that have been expanded. The invariant speaks about the
places in that order: parents come in the order of their children, and the parent of
a vertex is the first vertex that has it as a successor. Distances, shortest paths
and the choice among them follow.
-/

namespace Zeos.BreadthFirst

set_option autoImplicit false

universe u
variable {α : Type u}

inductive Walk (next : α → List α) (a : α) : ℕ → α → Prop where
  | nil : Walk next a 0 a
  | snoc {n : ℕ} {b c : α} : Walk next a n b → c ∈ next b → Walk next a (n + 1) c

def Reaches (next : α → List α) (a b : α) : Prop := ∃ n, Walk next a n b

/-- The shortest walk from `a` to `b` has `n` steps. -/
structure IsDist (next : α → List α) (a b : α) (n : ℕ) : Prop where
  walk : Walk next a n b
  least : ∀ m, Walk next a m b → n ≤ m

def Closer (next : α → List α) (a b p : α) : Prop :=
  p ∈ next a ∧ ∃ n, IsDist next a b (n + 1) ∧ IsDist next p b n

def FirstIn (P : α → Prop) (l : List α) (p : α) : Prop :=
  ∃ l₁ l₂, l = l₁ ++ p :: l₂ ∧ P p ∧ ∀ q ∈ l₁, ¬ P q

theorem FirstIn.unique {P : α → Prop} {l : List α} {p q : α} (hp : FirstIn P l p) (hq : FirstIn P l q) :
    p = q := by
  obtain ⟨l₁, l₂, rfl, hpP, hl⟩ := hp
  obtain ⟨m₁, m₂, heq, hqP, hm⟩ := hq
  induction l₁ generalizing m₁ with
  | nil =>
    cases m₁ with
    | nil => exact (List.cons.inj heq).1
    | cons x m₁ =>
      obtain rfl : p = x := (List.cons.inj heq).1
      exact absurd hpP (hm p List.mem_cons_self)
  | cons y l₁ ih =>
    cases m₁ with
    | nil =>
      obtain rfl : y = q := (List.cons.inj heq).1
      exact absurd hqP (hl y List.mem_cons_self)
    | cons x m₁ =>
      exact ih (fun z hz => hl z (List.mem_cons_of_mem y hz)) m₁ (List.cons.inj heq).2
        fun z hz => hm z (List.mem_cons_of_mem x hz)

section Walks
variable {next : α → List α} {a b c : α} {n : ℕ}

theorem Walk.cons (hab : b ∈ next a) (h : Walk next b n c) : Walk next a (n + 1) c := by
  induction h with
  | nil => exact .snoc .nil hab
  | snoc _ hc ih => exact .snoc ih hc

theorem IsDist.unique {m : ℕ} (h : IsDist next a b n) (h' : IsDist next a b m) : n = m :=
  Nat.le_antisymm (h.least m h'.walk) (h'.least n h.walk)

theorem Closer.isDist {p : α} (h : Closer next a b p) (hd : IsDist next a b (n + 1)) :
    IsDist next p b n := by
  obtain ⟨_, m, hm, hp⟩ := h
  have he := hm.unique hd
  rw [Nat.add_right_cancel he] at hp
  exact hp

theorem Closer.of_walk {p : α} (hp : p ∈ next a) (hd : IsDist next a b (n + 1))
    (hw : Walk next p n b) : Closer next a b p := by
  refine ⟨hp, n, hd, hw, ?_⟩
  intro m hm
  exact Nat.le_of_succ_le_succ (hd.least (m + 1) (.cons hp hm))

end Walks

structure Frontier (α : Type u) where
  order : List α
  front : ℕ
  parent : α → Option α

namespace Frontier

def initial (a : α) : Frontier α := ⟨[a], 0, fun _ => none⟩

variable [DecidableEq α]

def discover (b : α) (f : Frontier α) (c : α) : Frontier α :=
  if c ∈ f.order then f
  else { f with order := f.order ++ [c], parent := Function.update f.parent c (some b) }

def expand (next : α → List α) (f : Frontier α) (b : α) : Frontier α :=
  (next b).foldl (discover b) { f with front := f.front + 1 }

/-- The next vertex in the order is expanded, if there is one. -/
def advance (next : α → List α) (f : Frontier α) : Frontier α :=
  match f.order[f.front]? with
  | none => f
  | some b => f.expand next b

theorem advance_of_some {next : α → List α} {f : Frontier α} {b : α} (hb : f.order[f.front]? = some b) :
    f.advance next = f.expand next b := by
  rw [advance, hb]

theorem prefix_discover (b : α) (f : Frontier α) (c : α) : f.order <+: (discover b f c).order := by
  unfold discover
  split
  · exact List.prefix_rfl
  · exact List.prefix_append _ _

theorem foldl_discover (b : α) {l : List α} (hl : l.Nodup) (f : Frontier α) :
    l.foldl (discover b) f =
      { f with
        order := f.order ++ l.filter (· ∉ f.order)
        parent := fun c => if c ∈ l ∧ c ∉ f.order then some b else f.parent c } := by
  induction l generalizing f with
  | nil => simp
  | cons c l ih =>
    obtain ⟨hc, hl⟩ := List.nodup_cons.mp hl
    rw [List.foldl_cons, ih hl]
    unfold discover
    split
    · rename_i hold
      simp only [List.filter_cons, hold, not_true_eq_false, decide_false, Bool.false_eq_true, if_false]
      congr 1
      funext v
      by_cases hv : v = c
      · simp [hv, hold]
      · simp [hv]
    · rename_i hnew
      have hfilter : l.filter (· ∉ f.order ++ [c]) = l.filter (· ∉ f.order) := by
        apply List.filter_congr
        intro v hv
        have hne : v ≠ c := fun he => hc (he ▸ hv)
        simp [hne]
      simp only [List.filter_cons, hnew, not_false_eq_true, decide_true, if_true, hfilter,
        List.append_assoc, List.singleton_append]
      congr 1
      funext v
      by_cases hv : v = c
      · subst hv
        simp [hnew]
      · simp [hv]

end Frontier

/-- `par` gives the place of the parent of the vertex at each place but the first. -/
structure Layered (next : α → List α) (a : α) (f : Frontier α) (par : ℕ → ℕ) : Prop where
  nodup : f.order.Nodup
  start : f.order[0]? = some a
  front_le : f.front ≤ f.order.length
  closed : ∀ i b, i < f.front → f.order[i]? = some b → ∀ c ∈ next b, c ∈ f.order
  par_lt : ∀ j < f.order.length, 0 < j → par j < j ∧ par j < f.front
  child : ∀ j b c, 0 < j → f.order[j]? = some c → f.order[par j]? = some b →
    c ∈ next b ∧ f.parent c = some b
  earliest : ∀ j c, 0 < j → f.order[j]? = some c →
    ∀ i < par j, ∀ b, f.order[i]? = some b → c ∉ next b
  mono : ∀ i j, 0 < i → i ≤ j → j < f.order.length → par i ≤ par j
  unstarted : f.front = 0 → f.order = [a]
  neighbours : 0 < f.front → (a :: next a) <+: f.order

theorem Layered.initial (next : α → List α) (a : α) : Layered next a (.initial a) id where
  nodup := List.nodup_singleton a
  start := rfl
  front_le := Nat.zero_le _
  closed := fun i _ hi => absurd hi (Nat.not_lt_zero i)
  par_lt := fun j hj hpos => absurd hj (by simp [Frontier.initial]; omega)
  child := by
    intro j b c hpos hj
    rw [Frontier.initial, List.getElem?_eq_none (show 1 ≤ j from hpos)] at hj
    cases hj
  earliest := by
    intro j c hpos hj
    rw [Frontier.initial, List.getElem?_eq_none (show 1 ≤ j from hpos)] at hj
    cases hj
  mono := fun i j _ hij _ => hij
  unstarted := fun _ => rfl
  neighbours := fun h => absurd h (Nat.lt_irrefl 0)

section Expand
variable [DecidableEq α] {next : α → List α} {a b : α} {f : Frontier α} {par : ℕ → ℕ}

theorem expand_eq (hnext : (next b).Nodup) : f.expand next b =
    { order := f.order ++ (next b).filter (· ∉ f.order)
      front := f.front + 1
      parent := fun c => if c ∈ next b ∧ c ∉ f.order then some b else f.parent c } :=
  Frontier.foldl_discover b hnext _

/-- The places of the parents once the vertex at `front` is expanded. -/
def nextPar (f : Frontier α) (par : ℕ → ℕ) (j : ℕ) : ℕ := if j < f.order.length then par j else f.front

omit [DecidableEq α] in
theorem nextPar_of_lt {j : ℕ} (hj : j < f.order.length) : nextPar f par j = par j := if_pos hj

omit [DecidableEq α] in
theorem nextPar_of_le {j : ℕ} (hj : f.order.length ≤ j) : nextPar f par j = f.front :=
  if_neg (Nat.not_lt.mpr hj)

omit [DecidableEq α] in
theorem getElem?_order_append {i : ℕ} {c : α} (hi : f.order[i]? = some c) (l : List α) :
    (f.order ++ l)[i]? = some c := by
  rw [List.getElem?_append_left (List.getElem?_eq_some_iff.mp hi).1]
  exact hi

theorem expanded_cases {j : ℕ} {c : α} (hj : (f.order ++ (next b).filter (· ∉ f.order))[j]? = some c) :
    (j < f.order.length ∧ f.order[j]? = some c) ∨ (f.order.length ≤ j ∧ c ∈ next b ∧ c ∉ f.order) := by
  rcases Nat.lt_or_ge j f.order.length with hlt | hge
  · rw [List.getElem?_append_left hlt] at hj
    exact .inl ⟨hlt, hj⟩
  · rw [List.getElem?_append_right hge] at hj
    have hmem := List.mem_filter.mp (List.mem_of_getElem? hj)
    exact .inr ⟨hge, hmem.1, of_decide_eq_true hmem.2⟩

theorem Layered.closed_expanded (h : Layered next a f par) (hb : f.order[f.front]? = some b) {i : ℕ} {c : α}
    (hi : i < f.front + 1) (hc : f.order[i]? = some c) :
    ∀ d ∈ next c, d ∈ f.order ++ (next b).filter (· ∉ f.order) := by
  intro d hd
  rcases Nat.lt_succ_iff_lt_or_eq.mp hi with hlt | rfl
  · exact List.mem_append_left _ (h.closed i c hlt hc d hd)
  · rw [hb] at hc
    cases hc
    by_cases hold : d ∈ f.order
    · exact List.mem_append_left _ hold
    · exact List.mem_append_right _ (List.mem_filter.mpr ⟨hd, decide_eq_true hold⟩)

/-- The neighbours of the start follow it once it is expanded, which comes first. -/
theorem Layered.neighbours_expanded (h : Layered next a f par) (ha : a ∉ next a)
    (hb : f.order[f.front]? = some b) : (a :: next a) <+: f.order ++ (next b).filter (· ∉ f.order) := by
  rcases Nat.eq_zero_or_pos f.front with hzero | hpos
  · have horder := h.unstarted hzero
    rw [hzero, horder] at hb
    cases hb
    have hfilter : (next a).filter (· ∉ f.order) = next a := by
      apply List.filter_eq_self.mpr
      intro c hc
      apply decide_eq_true
      rw [horder, List.mem_singleton]
      rintro rfl
      exact ha hc
    rw [hfilter, horder]
    exact List.prefix_rfl
  · exact (h.neighbours hpos).trans (List.prefix_append _ _)

theorem Layered.expand (h : Layered next a f par) (hnext : (next b).Nodup) (ha : a ∉ next a)
    (hb : f.order[f.front]? = some b) : Layered next a (f.expand next b) (nextPar f par) := by
  rw [expand_eq hnext]
  have hfront : f.front < f.order.length := (List.getElem?_eq_some_iff.mp hb).1
  constructor
  case nodup =>
    apply h.nodup.append (hnext.filter _)
    intro c hc hc'
    exact of_decide_eq_true (List.mem_filter.mp hc').2 hc
  case start => exact getElem?_order_append h.start _
  case front_le =>
    rw [List.length_append]
    exact Nat.le_add_right_of_le hfront
  case closed =>
    intro i c hi hc
    change i < f.front + 1 at hi
    rcases expanded_cases hc with ⟨_, hci⟩ | ⟨hge, _⟩
    · exact h.closed_expanded hb hi hci
    · omega
  case par_lt =>
    intro j hj hpos
    rcases Nat.lt_or_ge j f.order.length with hlt | hge
    · rw [nextPar_of_lt hlt]
      have hpar := h.par_lt j hlt hpos
      exact ⟨hpar.1, Nat.lt_succ_of_lt hpar.2⟩
    · rw [nextPar_of_le hge]
      exact ⟨Nat.lt_of_lt_of_le hfront hge, Nat.lt_succ_self _⟩
  case child =>
    intro j d c hpos hc hd
    rcases expanded_cases hc with ⟨hlt, hcj⟩ | ⟨hge, hmem, hfresh⟩
    · rw [nextPar_of_lt hlt] at hd
      have hpar := h.par_lt j hlt hpos
      rw [List.getElem?_append_left (Nat.lt_trans hpar.1 hlt)] at hd
      obtain ⟨hin, hparent⟩ := h.child j d c hpos hcj hd
      exact ⟨hin, (if_neg (fun hc => hc.2 (List.mem_of_getElem? hcj))).trans hparent⟩
    · rw [nextPar_of_le hge, getElem?_order_append hb] at hd
      cases hd
      exact ⟨hmem, if_pos ⟨hmem, hfresh⟩⟩
  case earliest =>
    intro j c hpos hc i hi d hd
    rcases expanded_cases hc with ⟨hlt, hcj⟩ | ⟨hge, hmem, hfresh⟩
    · rw [nextPar_of_lt hlt] at hi
      have hpar := h.par_lt j hlt hpos
      rw [List.getElem?_append_left (Nat.lt_trans hi (Nat.lt_trans hpar.1 hlt))] at hd
      exact h.earliest j c hpos hcj i hi d hd
    · rw [nextPar_of_le hge] at hi
      rw [List.getElem?_append_left (Nat.lt_trans hi hfront)] at hd
      exact fun hcd => hfresh (h.closed i d hi hd c hcd)
  case mono =>
    intro i j hpos hij hj
    rcases Nat.lt_or_ge j f.order.length with hlt | hge
    · rw [nextPar_of_lt hlt, nextPar_of_lt (Nat.lt_of_le_of_lt hij hlt)]
      exact h.mono i j hpos hij hlt
    · rw [nextPar_of_le hge]
      rcases Nat.lt_or_ge i f.order.length with hilt | hige
      · rw [nextPar_of_lt hilt]
        exact Nat.le_of_lt (h.par_lt i hilt hpos).2
      · exact Nat.le_of_eq (nextPar_of_le hige)
  case unstarted => exact fun h0 => absurd h0 (Nat.succ_ne_zero _)
  case neighbours => exact fun _ => h.neighbours_expanded ha hb

end Expand

/-- The number of parents above a place. -/
def depth (par : ℕ → ℕ) (j : ℕ) : ℕ := if _hpar : par j < j then depth par (par j) + 1 else 0
termination_by j

/-- The ancestor whose parent is the start. -/
def first (par : ℕ → ℕ) (j : ℕ) : ℕ := if _hpar : 0 < par j ∧ par j < j then first par (par j) else j
termination_by j
decreasing_by exact _hpar.2

theorem depth_le_self (par : ℕ → ℕ) (j : ℕ) : depth par j ≤ j := by
  induction j using Nat.strongRecOn with
  | ind j ih =>
    rw [depth]
    split
    · rename_i hpar
      exact Nat.le_trans (Nat.succ_le_succ (ih (par j) hpar)) hpar
    · exact Nat.zero_le j

section NextPar
variable {f : Frontier α} {par : ℕ → ℕ} {j : ℕ}

theorem depth_nextPar_of_lt (hj : j < f.order.length) : depth (nextPar f par) j = depth par j := by
  induction j using Nat.strongRecOn with
  | ind j ih =>
    rw [depth, nextPar_of_lt hj]
    by_cases hpar : par j < j
    · rw [dif_pos hpar, ih (par j) hpar (Nat.lt_trans hpar hj)]
      conv_rhs => rw [depth, dif_pos hpar]
    · rw [dif_neg hpar, depth, dif_neg hpar]

theorem depth_nextPar_of_le (hfront : f.front < f.order.length) (hj : f.order.length ≤ j) :
    depth (nextPar f par) j = depth par f.front + 1 := by
  rw [depth, nextPar_of_le hj, dif_pos (Nat.lt_of_lt_of_le hfront hj), depth_nextPar_of_lt hfront]

end NextPar

namespace Layered
variable {next : α → List α} {a b c : α} {f : Frontier α} {par : ℕ → ℕ} {i j n : ℕ}

theorem depth_zero (par : ℕ → ℕ) : depth par 0 = 0 := by
  rw [depth, dif_neg (Nat.not_lt_zero _)]

theorem depth_eq (h : Layered next a f par) (hj : j < f.order.length) (hpos : 0 < j) :
    depth par j = depth par (par j) + 1 := by
  rw [depth, dif_pos (h.par_lt j hj hpos).1]

theorem lt_length (hj : f.order[j]? = some c) : j < f.order.length := (List.getElem?_eq_some_iff.mp hj).1

theorem eq_of_place (h : Layered next a f par) (hi : f.order[i]? = some c) (hj : f.order[j]? = some c) :
    i = j := (List.getElem?_inj (lt_length hi) h.nodup).mp (hi.trans hj.symm)

theorem exists_place (hj : j < f.order.length) : ∃ c, f.order[j]? = some c :=
  ⟨f.order[j], List.getElem?_eq_getElem hj⟩

theorem notMem_take_succ (hb : f.order[j]? = some b) (hc : c ∉ f.order.take j) (hne : b ≠ c) :
    c ∉ f.order.take (j + 1) := by
  rw [List.take_add_one, hb]
  intro hmem
  rcases List.mem_append.mp hmem with hmem | hmem
  · exact hc hmem
  · exact hne (List.mem_singleton.mp hmem).symm

theorem place_pos (h : Layered next a f par) (hj : f.order[j]? = some c) (hc : c ≠ a) : 0 < j := by
  rcases Nat.eq_zero_or_pos j with rfl | hpos
  · rw [h.start] at hj
    exact absurd (Option.some.inj hj).symm hc
  · exact hpos

theorem depth_mono (h : Layered next a f par) (hij : i ≤ j) (hj : j < f.order.length) :
    depth par i ≤ depth par j := by
  induction j using Nat.strongRecOn generalizing i with
  | ind j ih =>
    rcases Nat.eq_zero_or_pos i with rfl | hpos
    · rw [depth_zero]
      exact Nat.zero_le _
    · have hparj := h.par_lt j hj (Nat.lt_of_lt_of_le hpos hij)
      rw [h.depth_eq (Nat.lt_of_le_of_lt hij hj) hpos, h.depth_eq hj (Nat.lt_of_lt_of_le hpos hij)]
      exact Nat.succ_le_succ (ih (par j) hparj.1 (h.mono i j hpos hij hj) (Nat.lt_trans hparj.1 hj))

theorem depth_le (h : Layered next a f par) (hj : j < f.order.length) (hi : f.front ≤ i)
    (hlen : i < f.order.length) : depth par j ≤ depth par i + 1 := by
  rcases Nat.eq_zero_or_pos j with rfl | hpos
  · rw [depth_zero]
    exact Nat.zero_le _
  · rw [h.depth_eq hj hpos]
    have hpar := (h.par_lt j hj hpos).2
    exact Nat.succ_le_succ (h.depth_mono (Nat.le_of_lt (Nat.lt_of_lt_of_le hpar hi)) hlen)

theorem walk (h : Layered next a f par) (hj : f.order[j]? = some c) : Walk next a (depth par j) c := by
  induction j using Nat.strongRecOn generalizing c with
  | ind j ih =>
    rcases Nat.eq_zero_or_pos j with rfl | hpos
    · rw [h.start] at hj
      cases hj
      rw [depth_zero]
      exact .nil
    · have hlen := lt_length hj
      have hpar := (h.par_lt j hlen hpos).1
      obtain ⟨b, hb⟩ := exists_place (Nat.lt_trans hpar hlen)
      rw [h.depth_eq hlen hpos]
      exact .snoc (ih (par j) hpar hb) (h.child j b c hpos hj hb).1

/-- Whatever a walk leads to has been discovered at no greater depth, or nothing
deeper than the walk has been discovered yet. -/
theorem walk_cases (h : Layered next a f par) (hw : Walk next a n c) :
    (∃ j, f.order[j]? = some c ∧ depth par j ≤ n) ∨ ∀ j < f.order.length, depth par j ≤ n := by
  induction hw with
  | nil => exact .inl ⟨0, h.start, Nat.le_of_eq (depth_zero par)⟩
  | @snoc n b c _ hc ih =>
    rcases ih with ⟨i, hi, hdepth⟩ | hall
    · rcases Nat.lt_or_ge i f.front with hlt | hge
      · left
        obtain ⟨j, hj⟩ := List.getElem?_of_mem (h.closed i b hlt hi c hc)
        refine ⟨j, hj, ?_⟩
        rcases Nat.eq_zero_or_pos j with rfl | hpos
        · rw [depth_zero]
          exact Nat.zero_le _
        · -- the parent is the first vertex with this successor
          have hle : par j ≤ i := Nat.not_lt.mp fun hpar => h.earliest j c hpos hj i hpar b hi hc
          rw [h.depth_eq (lt_length hj) hpos]
          exact Nat.succ_le_succ (Nat.le_trans (h.depth_mono hle (lt_length hi)) hdepth)
      · right
        intro j hj
        exact Nat.le_trans (h.depth_le hj hge (lt_length hi)) (Nat.succ_le_succ hdepth)
    · exact .inr fun j hj => Nat.le_succ_of_le (hall j hj)

theorem isDist (h : Layered next a f par) (hj : f.order[j]? = some c) :
    IsDist next a c (depth par j) where
  walk := h.walk hj
  least := by
    intro m hm
    rcases h.walk_cases hm with ⟨i, hi, hle⟩ | hall
    · rw [h.eq_of_place hj hi]
      exact hle
    · exact hall j (lt_length hj)

theorem reaches (h : Layered next a f par) (hc : c ∈ f.order) : Reaches next a c := by
  obtain ⟨j, hj⟩ := List.getElem?_of_mem hc
  exact ⟨_, h.walk hj⟩

theorem mem_of_reaches (h : Layered next a f par) (hall : f.order.length ≤ f.front)
    (hc : Reaches next a c) : c ∈ f.order := by
  obtain ⟨n, hw⟩ := hc
  induction hw with
  | nil => exact List.mem_of_getElem? h.start
  | snoc _ hc ih =>
    obtain ⟨i, hi⟩ := List.getElem?_of_mem ih
    exact h.closed i _ (Nat.lt_of_lt_of_le (lt_length hi) hall) hi _ hc

theorem parent_eq_start_iff (h : Layered next a f par) (hb : f.order[par j]? = some b) :
    b = a ↔ par j = 0 := by
  constructor
  · rintro rfl
    exact h.eq_of_place hb h.start
  · intro hzero
    rw [hzero, h.start] at hb
    exact (Option.some.inj hb).symm

theorem first_of_zero (hzero : par j = 0) : first par j = j := by
  rw [first, dif_neg (fun hpar => absurd hpar.1 (by rw [hzero]; exact Nat.lt_irrefl 0))]

theorem first_of_pos (h : Layered next a f par) (hj : j < f.order.length) (hpos : 0 < j)
    (hpar : 0 < par j) : first par j = first par (par j) := by
  rw [first, dif_pos ⟨hpar, (h.par_lt j hj hpos).1⟩]

theorem parent_cases (h : Layered next a f par) (hj : f.order[j]? = some c) (hpos : 0 < j) :
    ∃ b, f.parent c = some b ∧ ((b = a ∧ first par j = j) ∨
      (b ≠ a ∧ 0 < par j ∧ par j < j ∧ f.order[par j]? = some b ∧ first par j = first par (par j))) := by
  have hlen := lt_length hj
  have hlt := (h.par_lt j hlen hpos).1
  obtain ⟨b, hb⟩ := exists_place (Nat.lt_trans hlt hlen)
  refine ⟨b, (h.child j b c hpos hj hb).2, ?_⟩
  rcases Nat.eq_zero_or_pos (par j) with hzero | hpar
  · exact .inl ⟨(h.parent_eq_start_iff hb).mpr hzero, first_of_zero hzero⟩
  · have hne : b ≠ a := fun he => Nat.ne_of_gt hpar ((h.parent_eq_start_iff hb).mp he)
    exact .inr ⟨hne, hpar, hlt, hb, h.first_of_pos hlen hpos hpar⟩

theorem first_spec (h : Layered next a f par) (hj : j < f.order.length) (hpos : 0 < j) :
    0 < first par j ∧ first par j ≤ j ∧ par (first par j) = 0 := by
  induction j using Nat.strongRecOn with
  | ind j ih =>
    have hlt := (h.par_lt j hj hpos).1
    rcases Nat.eq_zero_or_pos (par j) with hzero | hpar
    · rw [first_of_zero hzero]
      exact ⟨hpos, Nat.le_refl j, hzero⟩
    · rw [h.first_of_pos hj hpos hpar]
      obtain ⟨h1, h2, h3⟩ := ih (par j) hlt (Nat.lt_trans hlt hj) hpar
      exact ⟨h1, Nat.le_trans h2 (Nat.le_of_lt hlt), h3⟩

theorem par_pos_iff (h : Layered next a f par) (hj : j < f.order.length) (hpos : 0 < j) :
    0 < par j ↔ 1 < depth par j := by
  rw [h.depth_eq hj hpos]
  have hpar := (h.par_lt j hj hpos).1
  rcases Nat.eq_zero_or_pos (par j) with hzero | hppos
  · rw [hzero, depth_zero]
    omega
  · rw [h.depth_eq (Nat.lt_trans hpar hj) hppos]
    omega

/-- On one level the first steps come in the order of the vertices. -/
theorem first_mono (h : Layered next a f par) (hpos : 0 < i) (hij : i ≤ j) (hj : j < f.order.length)
    (hd : depth par i = depth par j) : first par i ≤ first par j := by
  induction j using Nat.strongRecOn generalizing i with
  | ind j ih =>
    have hi := Nat.lt_of_le_of_lt hij hj
    have hjpos := Nat.lt_of_lt_of_le hpos hij
    have hiff : 0 < par i ↔ 0 < par j := by rw [h.par_pos_iff hi hpos, h.par_pos_iff hj hjpos, hd]
    rcases Nat.eq_zero_or_pos (par j) with hzero | hparj
    · have hzero' : par i = 0 := Nat.eq_zero_of_not_pos fun hpar =>
        absurd (hiff.mp hpar) (by rw [hzero]; exact Nat.lt_irrefl 0)
      rw [first_of_zero hzero, first_of_zero hzero']
      exact hij
    · have hlt := (h.par_lt j hj hjpos).1
      rw [h.first_of_pos hi hpos (hiff.mpr hparj), h.first_of_pos hj hjpos hparj]
      apply ih (par j) hlt (hiff.mpr hparj) (h.mono i j hpos hij hj) (Nat.lt_trans hlt hj)
      rw [h.depth_eq hi hpos, h.depth_eq hj hjpos] at hd
      exact Nat.succ.inj hd

theorem first_walk (h : Layered next a f par) (hpos : 0 < j) (hj : f.order[j]? = some c)
    (hb : f.order[first par j]? = some b) (hd : depth par j = n + 1) : Walk next b n c := by
  induction n generalizing j c with
  | zero =>
    have hzero : par j = 0 := Nat.eq_zero_of_not_pos fun hpar =>
      absurd ((h.par_pos_iff (lt_length hj) hpos).mp hpar) (by omega)
    rw [first_of_zero hzero, hj] at hb
    cases hb
    exact .nil
  | succ n ih =>
    have hlen := lt_length hj
    have hpar : 0 < par j := (h.par_pos_iff hlen hpos).mpr (by omega)
    have hlt := (h.par_lt j hlen hpos).1
    rw [h.first_of_pos hlen hpos hpar] at hb
    rw [h.depth_eq hlen hpos] at hd
    obtain ⟨d, hd'⟩ := exists_place (Nat.lt_trans hlt hlen)
    exact .snoc (ih hpar hd' hb (Nat.succ.inj hd)) (h.child j d c hpos hj hd').1

theorem first_le (h : Layered next a f par) (hipos : 0 < i) (hi : f.order[i]? = some b)
    (hzero : par i = 0) (hw : Walk next b n c) (hpos : 0 < j) (hj : f.order[j]? = some c)
    (hd : depth par j = n + 1) : first par j ≤ i := by
  induction hw generalizing j with
  | nil =>
    rw [h.eq_of_place hj hi]
    exact Nat.le_of_eq (first_of_zero hzero)
  | @snoc n d c hw hc ih =>
    have hlen := lt_length hj
    have hstep : b ∈ next a := (h.child i a b hipos hi (hzero ▸ h.start)).1
    have hpar : 0 < par j := (h.par_pos_iff hlen hpos).mpr (by omega)
    rcases h.walk_cases (.cons hstep hw) with ⟨k, hk, hdk⟩ | hall
    · have hle : par j ≤ k := Nat.not_lt.mp fun hlt => h.earliest j c hpos hj k hlt d hk hc
      have hmono := h.depth_mono hle (lt_length hk)
      rw [h.depth_eq hlen hpos] at hd
      have hdk' : depth par k = n + 1 := by omega
      rw [h.first_of_pos hlen hpos hpar]
      calc first par (par j) ≤ first par k := h.first_mono hpar hle (lt_length hk) (by omega)
        _ ≤ i := ih (Nat.lt_of_lt_of_le hpar hle) hk hdk'
    · have hall := hall j hlen
      omega

/-- The first step of the path that is found is the first of all those neighbours
that are on a shortest path. -/
theorem first_closer (h : Layered next a f par) (hpos : 0 < j) (hj : f.order[j]? = some c)
    (hb : f.order[first par j]? = some b) :
    FirstIn (Closer next a c) (next a) b := by
  have hlen := lt_length hj
  obtain ⟨hfpos, hfle, hfzero⟩ := h.first_spec hlen hpos
  have hmem : b ∈ next a := (h.child _ a b hfpos hb (hfzero ▸ h.start)).1
  have hdist := h.isDist hj
  rw [h.depth_eq hlen hpos] at hdist
  obtain ⟨l₁, l₂, hsplit⟩ := List.append_of_mem hmem
  have hprefix := h.neighbours (Nat.lt_of_le_of_lt (Nat.zero_le _) (h.par_lt j hlen hpos).2)
  -- places in the list of neighbours are places in the order
  have hplace : ∀ {k : ℕ} {d : α}, (next a)[k]? = some d → f.order[k + 1]? = some d := by
    intro k d hk
    have hcons : (a :: next a)[k + 1]? = some d := hk
    obtain ⟨rest, hrest⟩ := hprefix
    rw [← hrest, List.getElem?_append_left (List.getElem?_eq_some_iff.mp hcons).1]
    exact hcons
  have hbplace : f.order[l₁.length + 1]? = some b := by
    apply hplace
    rw [hsplit, List.getElem?_append_right (Nat.le_refl _), Nat.sub_self]
    rfl
  have hindex : first par j = l₁.length + 1 := h.eq_of_place hb hbplace
  refine ⟨l₁, l₂, hsplit, .of_walk hmem hdist (h.first_walk hpos hj hb (h.depth_eq hlen hpos)), ?_⟩
  intro d hd hcloser
  obtain ⟨k, hk⟩ := List.getElem?_of_mem hd
  have hklt := (List.getElem?_eq_some_iff.mp hk).1
  have hkplace : f.order[k + 1]? = some d := by
    apply hplace
    rw [hsplit, List.getElem?_append_left hklt]
    exact hk
  have hkzero : par (k + 1) = 0 := by
    have hmono := h.mono (k + 1) (first par j) (Nat.succ_pos k) (by omega) (lt_length hb)
    omega
  have hle := h.first_le (Nat.succ_pos k) hkplace hkzero (hcloser.isDist hdist).walk hpos hj
    (h.depth_eq hlen hpos)
  omega

end Layered

end Zeos.BreadthFirst
