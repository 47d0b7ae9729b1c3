import Zeos.Processes
import Zeos.Memory

/-!
# The family tree

The `sons` rings of the live processes, and what `sys_exit` does to them. Its
loop over all PCBs does not skip the free ones, whose `parent` is the one they
had when they died and whose `bros` node has null links. The main result says
exactly when an exit survives that loop, and that it then moves all sons of the
exiting process to idle and leaves the other rings alone.
-/

namespace Zeos

open LinkedRings Loops Runs
set_option autoImplicit false

/-- `fam` gives the sons rings of all processes that are not in `freequeue`. -/
def SonsRings (s : Sched) (ls : Queue → List Slot) (fam : Slot → List Slot) : Prop :=
  Rings familyLayout s.family (fun p => p ∉ ls .freequeue) fam

/-- The tree is in order: each live process except idle and the first one is a
son of its parent, and whoever is in no ring has null links. -/
structure FamilyInv (s : Sched) (ls : Queue → List Slot) (fam : Slot → List Slot) : Prop where
  rings : SonsRings s ls fam
  mem : ∀ p, p ∉ ls .freequeue → ∀ t, t ∈ fam p ↔ t ∉ ls .freequeue ∧ (s.task t).parent = some p
  parent : ∀ t, t ∉ ls .freequeue → 1 < (s.task t).pid →
    ∃ p, p ∉ ls .freequeue ∧ (s.task t).parent = some p
  first : ∀ t, t ∉ ls .freequeue → (s.task t).pid ≤ 1 → (s.task t).parent = none
  irrefl : ∀ t, t ∉ ls .freequeue → (s.task t).parent ≠ some t
  unlinked : ∀ t, (∀ p, p ∉ ls .freequeue → t ∉ fam p) → s.family (.bros t) = ⟨none, none⟩

namespace FamilyInv
variable {s s' : Sched} {ls ls' : Queue → List Slot} {fam : Slot → List Slot}

theorem boot : FamilyInv bootState bootLists (fun _ => []) where
  rings := by
    constructor
    · intro p hp
      have hall : ∀ p, p ∉ bootLists .freequeue →
          List.IsChain (Linked bootState.family) [FNode.sons p, FNode.sons p] := by decide +kernel
      exact ⟨hall p hp, by simp⟩
    · intro p q _ _ _ t ht
      cases ht
  mem := by
    intro p _ t
    have hall : ∀ t, (bootState.task t).parent = none := by decide +kernel
    simp [hall t]
  parent := by decide +kernel
  first := by decide +kernel
  irrefl := by decide +kernel
  unlinked := by
    intro t _
    revert t
    have hall : ∀ t, (bootState.family (.bros t)).next = none ∧
        (bootState.family (.bros t)).prev = none := by decide +kernel
    intro t
    cases ht : bootState.family (.bros t)
    have := hall t
    rw [ht] at this
    simp_all

theorem congr (h : FamilyInv s ls fam) (hf : s'.family = s.family)
    (hfree : ls' .freequeue = ls .freequeue) (hpid : ∀ t, (s'.task t).pid = (s.task t).pid)
    (hparent : ∀ t, (s'.task t).parent = (s.task t).parent) : FamilyInv s' ls' fam := by
  constructor
  case rings =>
    unfold SonsRings
    rw [hfree, hf]
    exact h.rings
  case mem =>
    simp only [hfree, hparent]
    exact h.mem
  case parent =>
    simp only [hfree, hparent, hpid]
    exact h.parent
  case first =>
    simp only [hfree, hparent, hpid]
    exact h.first
  case irrefl =>
    simp only [hfree, hparent]
    exact h.irrefl
  case unlinked =>
    rw [hfree, hf]
    exact h.unlinked

theorem roles (h : FamilyInv s ls fam) (hr : SameRoles s s' ls ls') : FamilyInv s' ls' fam :=
  h.congr hr.family hr.free hr.pid hr.parent

theorem out_of_free (h : FamilyInv s ls fam) {t : Slot} (ht : t ∈ ls .freequeue) :
    ∀ p, p ∉ ls .freequeue → t ∉ fam p := by
  intro p hp hm
  exact ((h.mem p hp t).mp hm).1 ht

theorem parent_live (h : FamilyInv s ls fam) {t p : Slot} (ht : t ∉ ls .freequeue)
    (hp : (s.task t).parent = some p) : p ∉ ls .freequeue := by
  by_cases hpid : 1 < (s.task t).pid
  · obtain ⟨p', hp', he⟩ := h.parent t ht hpid
    rw [hp] at he
    exact Option.some.inj he ▸ hp'
  · rw [h.first t ht (by omega)] at hp
    cases hp

/-- The copied PCB brings the links of its parent with it, on nodes that are in no ring. -/
theorem forked_rings (h : FamilyInv s ls fam) {child : Slot} (hc : child ∈ ls .freequeue)
    (q : Heap QNode) : SonsRings (forked s child q) ls fam := by
  apply Rings.congr h.rings
  intro x hx
  have hs : x ≠ .sons child := by
    rintro rfl
    exact hx (unlinked_head (L := familyLayout) (by simpa using hc))
  have hb : x ≠ .bros child := by
    rintro rfl
    exact hx (unlinked_entry (L := familyLayout) (h.out_of_free hc))
  simp [forked, allocateDIR, copyTaskUnion, hs, hb]

def forkedFam (s : Sched) (fam : Slot → List Slot) (child : Slot) : Slot → List Slot :=
  Function.update (Function.update fam child []) s.current (fam s.current ++ [child])

theorem mem_forkedFam {child p t : Slot} (hcur : child ≠ s.current) :
    t ∈ forkedFam s fam child p ↔ (t ∈ fam p ∧ p ≠ child) ∨ (p = s.current ∧ t = child) := by
  unfold forkedFam
  by_cases hp : p = s.current
  · subst hp
    simp [hcur.symm]
  · rw [Function.update_of_ne hp]
    by_cases hpc : p = child
    · subst hpc
      simp [hp]
    · rw [Function.update_of_ne hpc]
      simp [hp, hpc]

theorem forkedFam_spec (h : FamilyInv s ls fam) {child : Slot} (hc : child ∈ ls .freequeue)
    (hcur : s.current ∉ ls .freequeue) (q : Heap QNode) :
    ∃ f, listAddTail (initListHead (forked s child q).family (.sons child)) (.bros child)
        (.sons s.current) = .ok f ∧
      Rings familyLayout f (fun p => p = child ∨ p ∉ ls .freequeue) (forkedFam s fam child) ∧
      ∀ t, t ≠ child → (∀ p, p ∉ ls .freequeue → t ∉ fam p) → f (.bros t) = s.family (.bros t) := by
  have hne : s.current ≠ child := fun he => hcur (he ▸ hc)
  obtain ⟨hring, hframe⟩ := initListHead_spec (forked s child q).family (.sons child)
  have hnew := Rings.addHead (h.forked_rings hc q) (i := child) (by simpa using hc) hring hframe
  have hout : ∀ p, (p = child ∨ p ∉ ls .freequeue) → child ∉ Function.update fam child [] p := by
    rintro p (rfl | hp)
    · simp
    · have hpc : p ≠ child := fun he => hp (he ▸ hc)
      rw [Function.update_of_ne hpc]
      exact h.out_of_free hc p hp
  obtain ⟨f, hok, hr, hkeep⟩ := rings_listAddTail hnew (.inr hcur) hout
  rw [Function.update_of_ne hne] at hr
  refine ⟨f, hok, hr, ?_⟩
  intro t ht hto
  have hu : Unlinked familyLayout (fun p => p = child ∨ p ∉ ls .freequeue)
      (Function.update fam child []) (.bros t) := by
    apply unlinked_entry (L := familyLayout)
    rintro p (rfl | hp)
    · simp
    · have hpc : p ≠ child := fun he => hp (he ▸ hc)
      rw [Function.update_of_ne hpc]
      exact hto p hp
  calc f (.bros t) = initListHead (forked s child q).family (.sons child) (.bros t) :=
        hkeep _ (fun he => ht (FNode.bros.inj he)) hu
    _ = (forked s child q).family (.bros t) := hframe _ (fun he => FNode.noConfusion he)
    _ = s.family (.bros t) := by simp [forked, allocateDIR, copyTaskUnion, ht]

theorem fork (h : FamilyInv s ls fam) (hr : Queues s.queues ls) {child : Slot} {rest : List Slot}
    (hfree : ls .freequeue = child :: rest) (hcur : s.current ∉ ls .freequeue)
    (hnext : 1 < s.nextPid) {q q' : Heap QNode} {f : Heap FNode}
    (hlink : listAddTail (initListHead (forked s child q).family (.sons child)) (.bros child)
      (.sons s.current) = .ok f) :
    FamilyInv (linkedChild (forked s child q) child q' f) (forkedLists ls child rest)
      (forkedFam s fam child) := by
  have hc : child ∈ ls .freequeue := by
    rw [hfree]
    exact List.mem_cons_self
  have hne : child ≠ s.current := fun he => hcur (he ▸ hc)
  have hlive : ∀ t, t ∉ forkedLists ls child rest .freequeue ↔ t = child ∨ t ∉ ls .freequeue := by
    intro t
    rw [mem_forked_free hr hfree]
    tauto
  have hchild : ∀ t, t = child →
      ((linkedChild (forked s child q) child q' f).task t).parent = some s.current ∧
      ((linkedChild (forked s child q) child q' f).task t).pid = s.nextPid := by
    rintro t rfl
    simp [linkedChild, childPcb]
  have hother : ∀ t, t ≠ child →
      (linkedChild (forked s child q) child q' f).task t = s.task t := by
    intro t ht
    rw [linkedChild_other q' f ht, forked_other q ht]
  obtain ⟨f', hok, hrings, hkeep⟩ := h.forkedFam_spec hc hcur q
  rw [hlink] at hok
  cases hok
  constructor
  case rings =>
    unfold SonsRings
    simp only [hlive]
    exact hrings
  case mem =>
    intro p hp t
    rw [mem_forkedFam hne, hlive]
    have hp' := (hlive p).mp hp
    by_cases ht : t = child
    · -- the child is nobody's son but its parent's
      rw [(hchild t ht).1, ht]
      constructor
      · rintro (⟨hm, hpc⟩ | ⟨rfl, _⟩)
        · exact absurd hm (h.out_of_free hc p (hp'.resolve_left hpc))
        · exact ⟨.inl rfl, rfl⟩
      · rintro ⟨_, he⟩
        exact .inr ⟨(Option.some.inj he).symm, rfl⟩
    · rw [hother t ht]
      constructor
      · rintro (⟨hm, hpc⟩ | ⟨_, he⟩)
        · obtain ⟨htl, htp⟩ := (h.mem p (hp'.resolve_left hpc) t).mp hm
          exact ⟨.inr htl, htp⟩
        · exact absurd he ht
      · rintro ⟨htl, htp⟩
        -- the parent is live, so it cannot be the PCB just taken
        have hp := h.parent_live (htl.resolve_left ht) htp
        exact .inl ⟨(h.mem p hp t).mpr ⟨htl.resolve_left ht, htp⟩, fun he => hp (he ▸ hc)⟩
  case parent =>
    intro t ht hpid
    by_cases htc : t = child
    · exact ⟨s.current, (hlive _).mpr (.inr hcur), (hchild t htc).1⟩
    · rw [hother t htc] at hpid ⊢
      obtain ⟨p, hp, he⟩ := h.parent t (((hlive t).mp ht).resolve_left htc) hpid
      exact ⟨p, (hlive p).mpr (.inr hp), he⟩
  case first =>
    intro t ht hpid
    by_cases htc : t = child
    · rw [(hchild t htc).2] at hpid
      omega
    · rw [hother t htc] at hpid ⊢
      exact h.first t (((hlive t).mp ht).resolve_left htc) hpid
  case irrefl =>
    intro t ht
    by_cases htc : t = child
    · rw [(hchild t htc).1, htc]
      exact fun he => hne (Option.some.inj he).symm
    · rw [hother t htc]
      exact h.irrefl t (((hlive t).mp ht).resolve_left htc)
  case unlinked =>
    intro t ht
    have htc : t ≠ child := by
      rintro rfl
      exact ht s.current ((hlive _).mpr (.inr hcur)) ((mem_forkedFam hne).mpr (.inr ⟨rfl, rfl⟩))
    have hto : ∀ p, p ∉ ls .freequeue → t ∉ fam p := by
      intro p hp hm
      have hpc : p ≠ child := fun he => hp (he ▸ hc)
      exact ht p ((hlive p).mpr (.inr hp)) ((mem_forkedFam hne).mpr (.inl ⟨hm, hpc⟩))
    change f (.bros t) = _
    rw [hkeep t htc hto]
    exact h.unlinked t hto

theorem unlink (h : FamilyInv s ls fam) (hcur : s.current ∉ ls .freequeue) (hpid : 1 ≤ s.pcb.pid) :
    ∃ f, (if s.pcb.pid ≠ 1 then listDel s.family (.bros s.current) else .ok s.family) = .ok f ∧
      Rings familyLayout f (fun p => p ∉ ls .freequeue) (fun p => (fam p).erase s.current) ∧
      ∀ t, (∀ p, p ∉ ls .freequeue → t ∉ (fam p).erase s.current) → f (.bros t) = ⟨none, none⟩ := by
  by_cases hone : s.pcb.pid = 1
  · have hout : ∀ p, p ∉ ls .freequeue → s.current ∉ fam p := by
      intro p hp hm
      have hnone := h.first s.current hcur (le_of_eq hone)
      rw [((h.mem p hp _).mp hm).2] at hnone
      cases hnone
    refine ⟨s.family, by simp [hone], ?_, ?_⟩
    · exact Rings.congrLists h.rings fun p hp => List.erase_of_not_mem (hout p hp)
    · intro t ht
      apply h.unlinked t
      intro p hp hm
      exact ht p hp (by rwa [List.erase_of_not_mem (hout p hp)])
  · obtain ⟨p, hp, hpar⟩ := h.parent s.current hcur (lt_of_le_of_ne hpid (Ne.symm hone))
    have hmem : s.current ∈ fam p := (h.mem p hp _).mpr ⟨hcur, hpar⟩
    obtain ⟨f, hok, hr, hnull, hframe⟩ := rings_listDel (L := familyLayout) h.rings hp hmem
    refine ⟨f, ?_, ?_, ?_⟩
    · rw [if_pos hone]
      exact hok
    · apply Rings.congrLists hr
      intro p' hp'
      by_cases he : p' = p
      · rw [he, Function.update_self]
      · rw [Function.update_of_ne he]
        apply List.erase_of_not_mem
        intro hm
        exact he (h.rings.eq_of_mem hp' hp hm hmem)
    · intro t ht
      by_cases htc : t = s.current
      · rw [htc]
        exact hnull
      · have hto : ∀ p, p ∉ ls .freequeue → t ∉ fam p := by
          intro p hp hm
          exact ht p hp ((List.mem_erase_of_ne htc).mpr hm)
        exact (hframe _ (unlinked_entry (L := familyLayout) hto)).trans (h.unlinked t hto)

end FamilyInv

/-- The loop of `sys_exit` after the PCBs `done`: `t` and `famt` are the process
table and the rings now, `s` and `fam` those before the loop. -/
structure Adopting (s : Sched) (free : List Slot) (fam : Slot → List Slot) (done : List Slot)
    (t : Sched) (famt : Slot → List Slot) : Prop where
  current : t.current = s.current
  idleTask : t.idleTask = s.idleTask
  parent : ∀ u, (t.task u).parent =
    if u ∈ done ∧ (s.task u).parent = some s.current then some s.idleTask else (s.task u).parent
  rings : Rings familyLayout t.family (fun p => p ∉ free) famt
  live : ∀ p, p ∉ free → ∀ u ∈ famt p, u ∉ free
  idle : famt s.idleTask =
    fam s.idleTask ++ done.filter fun u => (s.task u).parent = some s.current
  sons : ∀ u, u ∈ famt s.current ↔ u ∈ fam s.current ∧ u ∉ done
  others : ∀ p, p ≠ s.idleTask → p ≠ s.current → famt p = fam p
  unlinked : ∀ u, (∀ p, p ∉ free → u ∉ famt p) → t.family (.bros u) = ⟨none, none⟩

namespace Adopting
variable {s t : Sched} {free done : List Slot} {fam famt : Slot → List Slot} {a : Slot}

theorem skip (h : Adopting s free fam done t famt) (ha : a ∉ done)
    (hfam : ∀ u, u ∈ fam s.current → (s.task u).parent = some s.current)
    (hpar : (s.task a).parent ≠ some s.current) :
    adopt t a = .ok t ∧ Adopting s free fam (done ++ [a]) t famt := by
  have hta : (t.task a).parent ≠ some t.current := by
    rw [h.parent, if_neg (fun hc => ha hc.1), h.current]
    exact hpar
  refine ⟨by rw [adopt, if_pos hta], h.current, h.idleTask, ?_, h.rings, h.live, ?_, ?_, h.others,
    h.unlinked⟩
  · intro u
    rw [h.parent]
    by_cases hu : u = a
    · subst hu
      simp [hpar]
    · simp [hu]
  · rw [h.idle, List.filter_append]
    simp [hpar]
  · intro u
    rw [h.sons]
    constructor
    · rintro ⟨hu, hd⟩
      refine ⟨hu, ?_⟩
      simp only [List.mem_append, List.mem_singleton, not_or]
      exact ⟨hd, fun he => hpar (he ▸ hfam u hu)⟩
    · rintro ⟨hu, hd⟩
      exact ⟨hu, fun hm => hd (List.mem_append_left _ hm)⟩

theorem move (h : Adopting s free fam done t famt) (ha : a ∉ done) (hcur : s.current ∉ free)
    (hidle : s.idleTask ∉ free) (hne : s.idleTask ≠ s.current) (hmem : a ∈ fam s.current)
    (hpar : (s.task a).parent = some s.current) :
    ∃ t' famt', adopt t a = .ok t' ∧ Adopting s free fam (done ++ [a]) t' famt' := by
  have hta : (t.task a).parent = some t.current := by
    rw [h.parent, if_neg (fun hc => ha hc.1), h.current]
    exact hpar
  have hson : a ∈ famt s.current := (h.sons a).mpr ⟨hmem, ha⟩
  obtain ⟨f₁, f₂, hdel, hadd, hr, hframe⟩ :=
    rings_move (L := familyLayout) h.rings hcur hidle hne hson
  have hin : ∀ p, p ∉ free → ∀ u, u ∈ Rings.moved famt s.current s.idleTask a p ↔
      (u ∈ famt p ∧ u ≠ a) ∨ (p = s.idleTask ∧ u = a) :=
    fun p hp u => h.rings.mem_moved hcur hp hne hson
  refine ⟨{ t with family := f₂ }.setTask a fun p => { p with parent := some s.idleTask }, _, ?_,
    h.current, h.idleTask, ?_, hr, ?_, ?_, ?_, ?_, ?_⟩
  · rw [adopt, if_neg (not_not.mpr hta), h.idleTask]
    simp only [Sched.setTask_family, Sched.setTask_idleTask, h.idleTask]
    change (listDel t.family (familyLayout.entry a) >>= fun f => _) = _
    rw [hdel, ok_bind]
    change (listAddTail f₁ (familyLayout.entry a) (familyLayout.head s.idleTask) >>= fun f => _) = _
    rw [hadd]
    rfl
  · intro u
    by_cases hu : u = a
    · subst hu
      simp [hpar]
    · rw [Sched.setTask_other _ _ _ hu, h.parent]
      simp [hu]
  · intro p hp u hu
    rcases (hin p hp u).mp hu with ⟨hu, _⟩ | ⟨_, rfl⟩
    · exact h.live p hp u hu
    · exact h.live _ hcur u hson
  · rw [Rings.moved, Function.update_self, h.idle, List.filter_append, List.append_assoc]
    simp [hpar]
  · intro u
    rw [hin _ hcur, h.sons]
    simp [hne.symm, and_assoc]
  · intro p hpi hpc
    rw [Rings.moved, Function.update_of_ne hpi, Function.update_of_ne hpc]
    exact h.others p hpi hpc
  · intro u hu
    have hua : u ≠ a := fun he => hu _ hidle ((hin _ hidle u).mpr (.inr ⟨rfl, he⟩))
    have hout : ∀ p, p ∉ free → u ∉ famt p := by
      intro p hp hm
      exact hu p hp ((hin p hp u).mpr (.inl ⟨hm, hua⟩))
    exact (hframe _ (unlinked_entry (L := familyLayout) hout)).trans (h.unlinked u hout)

/-- A free PCB that still names the exiting process: its node has null links. -/
theorem stale (h : Adopting s free fam done t famt) (ha : a ∉ done) (hfree : a ∈ free)
    (hpar : (s.task a).parent = some s.current) : adopt t a = .error .nullLink := by
  have hta : (t.task a).parent = some t.current := by
    rw [h.parent, if_neg (fun hc => ha hc.1), h.current]
    exact hpar
  have hnull : t.family (.bros a) = ⟨none, none⟩ :=
    h.unlinked a fun p hp hm => h.live p hp a hm hfree
  rw [adopt, if_neg (not_not.mpr hta)]
  simp only [Sched.setTask_family, listDel_unlinked hnull, error_bind]

end Adopting

/-- A PCB that is marked free and still names the current process as its parent. -/
def StaleSon (s : Sched) : Prop := ∃ t, (s.task t).pid = -1 ∧ (s.task t).parent = some s.current

instance (s : Sched) : Decidable (StaleSon s) := inferInstanceAs (Decidable (∃ _, _))

section Exiting
variable {s : Sched} {ls : Queue → List Slot} {fam : Slot → List Slot}

theorem staleSon_iff (hq : QueueInv s ls) (hp : PidInv s ls) :
    StaleSon s ↔ ∃ t ∈ ls .freequeue, (s.task t).parent = some s.current := by
  constructor
  · rintro ⟨t, hpid, hpar⟩
    refine ⟨t, ?_, hpar⟩
    by_contra hf
    have hti : t ≠ s.idleTask := by
      rintro rfl
      rw [hq.idle_pid] at hpid
      cases hpid
    have := (hp.live_pid t hti hf).1
    omega
  · rintro ⟨t, hf, hpar⟩
    exact ⟨t, hp.free_pid t hf, hpar⟩

def unlinkedFam (s : Sched) (fam : Slot → List Slot) (p : Slot) : List Slot :=
  (fam p).erase s.current

/-- The loop of `sys_exit` between two rounds. -/
def Scanned (s : Sched) (ls : Queue → List Slot) (fam : Slot → List Slot) (done rest : List Slot)
    (t : Sched) : Prop :=
  (done ++ rest).Nodup ∧ ∃ famt, Adopting s (ls .freequeue) (unlinkedFam s fam) done t famt

theorem Scanned.fresh {done rest : List Slot} {a : Slot} {t : Sched}
    (h : Scanned s ls fam done (a :: rest) t) : a ∉ done := by
  intro hm
  exact (List.nodup_append.mp h.1).2.2 a hm a List.mem_cons_self rfl

theorem mem_unlinkedFam (h : FamilyInv s ls fam) (hq : QueueInv s ls) {t : Slot} :
    t ∈ unlinkedFam s fam s.current ↔
      t ∉ ls .freequeue ∧ (s.task t).parent = some s.current := by
  have hcur := hq.current_out .freequeue (by decide)
  rw [unlinkedFam, (h.rings.nodup hcur).mem_erase_iff, h.mem _ hcur]
  constructor
  · exact fun ht => ht.2
  · rintro ⟨ht, hpar⟩
    refine ⟨?_, ht, hpar⟩
    rintro rfl
    exact h.irrefl _ hcur hpar

theorem Scanned.step (h : FamilyInv s ls fam) (hq : QueueInv s ls) (hu : s.current ≠ s.idleTask)
    {done rest : List Slot} {a : Slot} {t : Sched} (hs : Scanned s ls fam done (a :: rest) t)
    (ha : ¬ (a ∈ ls .freequeue ∧ (s.task a).parent = some s.current)) :
    ∃ t', adopt t a = .ok t' ∧ Scanned s ls fam (done ++ [a]) rest t' := by
  obtain ⟨hnd, famt, had⟩ := hs
  have hfresh := Scanned.fresh ⟨hnd, famt, had⟩
  have hnd' : (done ++ [a] ++ rest).Nodup := by simpa using hnd
  by_cases hpar : (s.task a).parent = some s.current
  · have hmem : a ∈ unlinkedFam s fam s.current :=
      (mem_unlinkedFam h hq).mpr ⟨fun hf => ha ⟨hf, hpar⟩, hpar⟩
    obtain ⟨t', famt', hok, had'⟩ := had.move hfresh (hq.current_out .freequeue (by decide))
      (hq.idle_out .freequeue) hu.symm hmem hpar
    exact ⟨t', hok, hnd', famt', had'⟩
  · obtain ⟨hok, had'⟩ := had.skip hfresh (fun u hm => ((mem_unlinkedFam h hq).mp hm).2) hpar
    exact ⟨t, hok, hnd', famt, had'⟩

theorem scanned_start (h : FamilyInv s ls fam) (hq : QueueInv s ls) (hp : PidInv s ls)
    (hu : s.current ≠ s.idleTask) :
    ∃ t, exitFamily s = (List.finRange nrTasks).foldlM adopt t ∧
      Scanned s ls fam [] (List.finRange nrTasks) t := by
  have hcur := hq.current_out .freequeue (by decide)
  obtain ⟨f, hok, hr, hnull⟩ := h.unlink hcur (hp.live_pid _ hu hcur).1
  refine ⟨unnamed { s with family := f }, ?_, by simpa using List.nodup_finRange nrTasks,
    unlinkedFam s fam, rfl, rfl, ?_, hr, ?_, by simp, by simp, fun _ _ _ => rfl, hnull⟩
  · rw [exitFamily_eq, hok, ok_bind]
  · intro u
    rw [if_neg (fun hc => List.not_mem_nil hc.1)]
    exact setTask_field (s := { s with family := f }) (·.parent) (by intro _; rfl) u
  · intro p hp u hm
    exact ((h.mem p hp u).mp (List.mem_of_mem_erase hm)).1

theorem exitFamily_adopts (h : FamilyInv s ls fam) (hq : QueueInv s ls) (hp : PidInv s ls)
    (hu : s.current ≠ s.idleTask) (hno : ¬ StaleSon s) :
    ∃ s₁ famt, exitFamily s = .ok s₁ ∧
      Adopting s (ls .freequeue) (unlinkedFam s fam) (List.finRange nrTasks) s₁ famt := by
  obtain ⟨t, heq, hstart⟩ := scanned_start h hq hp hu
  rw [staleSon_iff hq hp] at hno
  obtain ⟨s₁, hok, _, famt, had⟩ := foldlM_completes (Scanned s ls fam) (by
    intro done a rest t hs
    exact hs.step h hq hu fun hbad => hno ⟨a, hbad⟩) _ hstart
  exact ⟨s₁, famt, heq.trans hok, had⟩

theorem exitFamily_stale (h : FamilyInv s ls fam) (hq : QueueInv s ls) (hp : PidInv s ls)
    (hu : s.current ≠ s.idleTask) (hst : StaleSon s) : exitFamily s = .error .nullLink := by
  obtain ⟨t, heq, hstart⟩ := scanned_start h hq hp hu
  obtain ⟨a, hbad⟩ := (staleSon_iff hq hp).mp hst
  rw [heq]
  apply foldlM_fails (Scanned s ls fam)
    (fun a => a ∈ ls .freequeue ∧ (s.task a).parent = some s.current) .nullLink
    (fun _ _ _ _ hs => hs.step h hq hu) _ _ hstart ⟨a, List.mem_finRange a, hbad⟩
  rintro done a rest t hs ⟨hf, hpar⟩
  obtain ⟨famt, had⟩ := hs.2
  exact had.stale hs.fresh hf hpar

theorem Adopting.parent_after {s₁ s' : Sched} {famt : Slot → List Slot} {q : Heap QNode}
    {ls' : Queue → List Slot}
    (had : Adopting s (ls .freequeue) (unlinkedFam s fam) (List.finRange nrTasks) s₁ famt)
    (hm : Moves (retired s₁ q) s' (retiredLists s ls) ls') (t : Slot) :
    (s'.task t).parent =
      if (s.task t).parent = some s.current then some s.idleTask else (s.task t).parent := by
  calc (s'.task t).parent = ((retired s₁ q).task t).parent := (hm.task t).parent
    _ = (s₁.task t).parent :=
        setTask_field (s := { s₁ with queues := q }) (·.parent) (by intro _; rfl) t
    _ = _ := by simp [had.parent t]

theorem FamilyInv.exit {s₁ s' : Sched} {famt : Slot → List Slot} {q : Heap QNode}
    {ls' : Queue → List Slot} (h : FamilyInv s ls fam) (hq : QueueInv s ls) (hp : PidInv s ls)
    (hu : s.current ≠ s.idleTask) (hno : ¬ StaleSon s)
    (had : Adopting s (ls .freequeue) (unlinkedFam s fam) (List.finRange nrTasks) s₁ famt)
    (hm : Moves (retired s₁ q) s' (retiredLists s ls) ls')
    (hpid : ∀ t, t ≠ s.current → (s'.task t).pid = (s.task t).pid) : FamilyInv s' ls' famt := by
  have hlive : ∀ t, t ∉ ls' .freequeue ↔ t ∉ ls .freequeue ∧ t ≠ s.current := by
    intro t
    rw [hm.free]
    simp [retiredLists]
  have hpar := had.parent_after hm
  have hidle : s.idleTask ∉ ls .freequeue := hq.idle_out .freequeue
  have hfamily : s'.family = s₁.family := hm.family
  have hsons : ∀ t, (s.task t).parent = some s.current → t ∉ ls .freequeue := by
    intro t ht hf
    exact hno ((staleSon_iff hq hp).mpr ⟨t, hf, ht⟩)
  have hempty : ∀ t, t ∉ famt s.current := by
    intro t
    simp [had.sons]
  constructor
  case rings =>
    unfold SonsRings
    rw [hfamily]
    exact had.rings.mono fun p hp => ((hlive p).mp hp).1
  case mem =>
    intro p hp t
    obtain ⟨hpl, hpc⟩ := (hlive p).mp hp
    have hmem : t ∈ unlinkedFam s fam p ↔ t ≠ s.current ∧ t ∉ ls .freequeue ∧
        (s.task t).parent = some p := by
      rw [unlinkedFam, (h.rings.nodup hpl).mem_erase_iff, h.mem p hpl]
    rw [hlive, hpar]
    by_cases hpi : p = s.idleTask
    · subst hpi
      rw [had.idle, List.mem_append, hmem]
      simp only [List.mem_filter, List.mem_finRange, true_and, decide_eq_true_eq]
      by_cases hc : (s.task t).parent = some s.current
      · have htc : t ≠ s.current := fun he => h.irrefl t (hsons t hc) (he ▸ hc)
        simp [hc, hsons t hc, htc]
      · simp only [hc, or_false, if_false]
        tauto
    · rw [had.others p hpi hpc, hmem]
      by_cases hc : (s.task t).parent = some s.current
      · simp [hc, Ne.symm hpc, Ne.symm hpi]
      · simp only [hc, if_false]
        tauto
  case parent =>
    intro t ht hpid'
    obtain ⟨htl, htc⟩ := (hlive t).mp ht
    rw [hpid t htc] at hpid'
    obtain ⟨p, hpl, he⟩ := h.parent t htl hpid'
    rw [hpar, he]
    by_cases hpc : p = s.current
    · exact ⟨s.idleTask, (hlive _).mpr ⟨hidle, hu.symm⟩, by rw [hpc, if_pos rfl]⟩
    · refine ⟨p, (hlive p).mpr ⟨hpl, hpc⟩, ?_⟩
      rw [if_neg]
      exact fun hs => hpc (Option.some.inj hs)
  case first =>
    intro t ht hpid'
    obtain ⟨htl, htc⟩ := (hlive t).mp ht
    rw [hpid t htc] at hpid'
    rw [hpar, h.first t htl hpid']
    rfl
  case irrefl =>
    intro t ht
    obtain ⟨htl, _⟩ := (hlive t).mp ht
    rw [hpar]
    split
    · -- idle has no parent, so it is not the one that is adopted
      rename_i hc
      intro he
      have hnone := h.first s.idleTask hidle (by rw [hq.idle_pid]; decide)
      rw [Option.some.inj he, hc] at hnone
      cases hnone
    · exact h.irrefl t htl
  case unlinked =>
    intro t ht
    rw [hfamily]
    apply had.unlinked
    intro p hpl
    by_cases hpc : p = s.current
    · rw [hpc]
      exact hempty t
    · exact ht p ((hlive p).mpr ⟨hpl, hpc⟩)

end Exiting

/-- A completed exit did what it should: the process is in no ring any more, its
sons belong to idle, and only the ring of its parent is another one. -/
structure CleanExit (s s' : Sched) (ls ls' : Queue → List Slot) (fam fam' : Slot → List Slot) :
    Prop where
  queues : Queues s.queues ls ∧ Queues s'.queues ls'
  rings : SonsRings s ls fam ∧ SonsRings s' ls' fam'
  freed : ls' .freequeue = ls .freequeue ++ [s.current]
  gone : ∀ p, p ∉ ls' .freequeue → s.current ∉ fam' p
  adopted : ∀ t, t ∉ ls .freequeue → (s.task t).parent = some s.current →
    (s'.task t).parent = some s.idleTask ∧ (fam' s.idleTask).count t = 1
  others : ∀ p, p ∉ ls' .freequeue → p ≠ s.idleTask → s.pcb.parent ≠ some p → fam' p = fam p
  parent : ∀ p, p ∉ ls' .freequeue → p ≠ s.idleTask → s.pcb.parent = some p →
    fam' p = (fam p).erase s.current

def ExitsCleanly (k k' : Kernel) : Prop :=
  ∃ ls ls' fam fam', CleanExit k.sched k'.sched ls ls' fam fam'

section Runs
variable {useCow : Bool} {k k' : Kernel} {ls ls' : Queue → List Slot} {fam : Slot → List Slot}

/-- Every completed exit met no stale son, keeps the tree in order and is clean. -/
theorem exit_clean (hk : KernelInv useCow k ls) (hp : PidInv k.sched ls)
    (h : FamilyInv k.sched ls fam) (hu : UserRuns k)
    (hex : KernelInv.ExitOutcome useCow k ls k' ls') :
    ¬ StaleSon k.sched ∧ ∃ fam', FamilyInv k'.sched ls' fam' ∧
      CleanExit k.sched k'.sched ls ls' fam fam' := by
  obtain ⟨s₁, q, hok, hfo, hm⟩ := hex.family
  have hno : ¬ StaleSon k.sched := by
    intro hst
    rw [exitFamily_stale h hk.queues hp hu hst] at hok
    cases hok
  obtain ⟨s₂, fam', hok', had⟩ := exitFamily_adopts h hk.queues hp hu hno
  rw [hok] at hok'
  cases hok'
  have h' := h.exit hk.queues hp hu hno had hm hex.pid
  have hidle : k.sched.idleTask ∉ ls' .freequeue := by
    rw [← hex.idleTask]
    exact hex.inv.queues.idle_out .freequeue
  have hlive : ∀ p, p ∉ ls' .freequeue → p ∉ ls .freequeue ∧ p ≠ k.sched.current := by
    intro p hp
    simpa [hex.free] using hp
  have hrest : ∀ p, p ∉ ls' .freequeue → p ≠ k.sched.idleTask →
      fam' p = (fam p).erase k.sched.current :=
    fun p hp hpi => had.others p hpi (hlive p hp).2
  refine ⟨hno, fam', h', ⟨hk.queues.rings, hex.inv.queues.rings⟩, ⟨h.rings, h'.rings⟩, hex.free,
    ?_, ?_, ?_, fun p hp hpi _ => hrest p hp hpi⟩
  · intro p hp hm
    exact (hlive _ ((h'.mem p hp _).mp hm).1).2 rfl
  · intro t ht hpar
    refine ⟨by rw [had.parent_after hm, if_pos hpar], ?_⟩
    apply List.count_eq_one_of_mem (h'.rings.nodup hidle)
    rw [had.idle]
    simp [hpar]
  · intro p hp hpi hpar
    rw [hrest p hp hpi]
    apply List.erase_of_not_mem
    intro hm
    exact hpar ((h.mem p (hlive p hp).1 _).mp hm).2

/-- Forks, exits, blocks and unblocks of processes that are awake, and ticks. -/
def familySteps (k : Kernel) : Op → Int → Prop
  | .tick, _ => True
  | .fork, _ => Awake k ∧ k.sched.nextPid < 2147483647
  | .exit, _ => Awake k
  | .block, _ => Awake k
  | .unblock _, _ => Awake k
  | _, _ => False

theorem familySteps_admitted {op : Op} {r : Int} (h : familySteps k op r) : admitted k op r := by
  cases op with
  | tick => exact .inl rfl
  | fork => exact .inr ⟨h.1, trivial⟩
  | exit => exact .inr ⟨h, trivial⟩
  | block => exact .inr ⟨h, trivial⟩
  | unblock pid => exact .inr ⟨h, trivial⟩
  | shmat id addr => exact h.elim
  | shmdt addr => exact h.elim
  | shmrm id => exact h.elim
  | load addr => exact h.elim
  | store addr v => exact h.elim
  | fault addr => exact h.elim
  | read b maxchars c kern => exact h.elim

/-- What the induction over a run carries. Nobody attaches a shared page in these
runs, so no fork runs out of pages and loses its PCB. -/
def FamilyKernel (useCow : Bool) (k : Kernel) : Prop :=
  ∃ ls fam, KernelInv useCow k ls ∧ PidInv k.sched ls ∧ FamilyInv k.sched ls fam ∧
    ∀ t p, SharedRegion p → k.mm.pagusrTable t p = .zero

theorem exec_family {op : Op} {r : Int} (h : FamilyKernel useCow k) (ha : familySteps k op r)
    (hok : exec useCow op k = .ok (r, k')) : FamilyKernel useCow k' := by
  obtain ⟨ls, fam, hk, hp, hfam, hz⟩ := h
  obtain ⟨ls', hk', heff⟩ := exec_effect hk (familySteps_admitted ha) hok
  cases heff with
  | quiet hroles hmem =>
    refine ⟨ls', fam, hk', ?_, hfam.roles hroles, ?_⟩
    · exact hp.congr hroles.idleTask hroles.nextPid hroles.pid hroles.free hroles.kept
    · intro t p hreg
      rw [hmem.region t p hreg]
      exact hz t p hreg
  | attach => exact ha.elim
  | detach => exact ha.elim
  | clear id => exact ha.elim
  | leak hc hf hcard hl =>
    rw [freeRegion_card_of_empty (hz _)] at hcard
    exact absurd hcard (by decide)
  | @create child rest q q' f m' hf hcur hin hlink =>
    obtain ⟨q₂, f₂, _, hadd, _, heq⟩ := forkLink_eq_ok hlink
    obtain rfl : f = f₂ := congrArg Sched.family heq
    have hnext := hp.next_lower
    refine ⟨_, _, hk', hp.fork hk.queues.rings hf ha.2 q q' f,
      hfam.fork hk.queues.rings hf (hk.queues.current_out .freequeue (by decide)) (by omega) hadd, ?_⟩
    intro t p hreg
    change m'.pagusrTable t p = .zero
    rw [hin.region t p hreg]
    exact hz t p hreg
  | exit hex =>
    obtain ⟨s₁, q, _, hfo, hm⟩ := hex.family
    obtain ⟨_, fam', hfam', _⟩ := exit_clean hk hp hfam ha.1 hex
    refine ⟨ls', fam', hk', (hp.retired hfo q).moves hm, hfam', ?_⟩
    intro t p hreg
    rw [KernelInv.Released.data_other hex.released (.inr (region_disjoint hreg).1)]
    exact hz t p hreg

theorem BootedMm.family {image : Nat → Fin pageSize → UInt8} {m : Mm} (h : BootedMm image m)
    (useCow : Bool) : FamilyKernel useCow ⟨bootState, m⟩ :=
  ⟨bootLists, _, .booted h useCow, ProcessInv.boot.pids, .boot, h.region⟩

theorem Reachable.family (h : Reachable useCow familySteps k) : FamilyKernel useCow k := by
  apply h.invariant (FamilyKernel useCow)
  · intro image k hb
    rw [boot_eq] at hb
    cases hb
    exact (bootMm_spec image).family useCow
  · intro k op r k' hi ha hok
    exact exec_family hi ha hok

theorem sysExit_completes (hk : KernelInv useCow k ls) (hp : PidInv k.sched ls)
    (h : FamilyInv k.sched ls fam) (ha : Awake k) (hno : ¬ StaleSon k.sched) :
    ∃ k', sysExit k = .ok k' := by
  obtain ⟨s, m⟩ := k
  obtain ⟨s₁, _, hok, _⟩ := exitFamily_adopts h hk.queues hp ha.1 hno
  obtain ⟨_, s₂, _, hs₂, _⟩ := exitSched_completes hk.queues ha.1 ha.2 hok
  refine ⟨⟨s₂, freeUserPages m s.current⟩, ?_⟩
  rw [sysExit_eq hk.queues ha.1 (exitShared_eq hk.frames.shared_frame _), hok, ok_bind, hs₂, ok_bind]

/-- In every state reached by these steps each live process above PID 1 is in
exactly one sons ring, that of its parent; and the next exit is clean unless a
PCB in the free queue still names the exiting process as its parent, in which
case it follows the null link that the earlier exit of that PCB left. -/
theorem exit_clean_iff (h : Reachable useCow familySteps k) :
    (∃ ls fam, Queues k.sched.queues ls ∧ SonsRings k.sched ls fam ∧
      ∀ t, t ∉ ls .freequeue → 1 < (k.sched.task t).pid →
        ∃ p, p ∉ ls .freequeue ∧ (k.sched.task t).parent = some p ∧ (fam p).count t = 1 ∧
          ∀ p', p' ∉ ls .freequeue → t ∈ fam p' → p' = p) ∧
    (Awake k → ((∃ k', sysExit k = .ok k' ∧ ExitsCleanly k k') ↔ ¬ StaleSon k.sched) ∧
      (StaleSon k.sched → sysExit k = .error .nullLink)) := by
  obtain ⟨ls, fam, hk, hp, hfam, _⟩ := h.family
  constructor
  · refine ⟨ls, fam, hk.queues.rings, hfam.rings, ?_⟩
    intro t ht hpid
    obtain ⟨p, hpl, hpar⟩ := hfam.parent t ht hpid
    have hmem := (hfam.mem p hpl t).mpr ⟨ht, hpar⟩
    refine ⟨p, hpl, hpar, List.count_eq_one_of_mem (hfam.rings.nodup hpl) hmem, ?_⟩
    intro p' hp' hm
    exact hfam.rings.eq_of_mem hp' hpl hm hmem
  · intro ha
    refine ⟨⟨?_, ?_⟩, ?_⟩
    · rintro ⟨k', hok, _⟩
      obtain ⟨ls', hex⟩ := hk.exit ha hok
      exact (exit_clean hk hp hfam ha.1 hex).1
    · intro hno
      obtain ⟨k', hok⟩ := sysExit_completes hk hp hfam ha hno
      obtain ⟨ls', hex⟩ := hk.exit ha hok
      obtain ⟨_, fam', _, hclean⟩ := exit_clean hk hp hfam ha.1 hex
      exact ⟨k', hok, ls, ls', fam, fam', hclean⟩
    · intro hst
      unfold sysExit
      rw [exitFamily_stale hfam hk.queues hp ha.1 hst, error_bind]

end Runs

theorem bootForked_awake (m : Mm) : Awake ⟨bootForked, m⟩ :=
  .intro (by decide +kernel) (by decide +kernel)

theorem boot_fork_reachable (image : Nat → Fin pageSize → UInt8) :
    ∃ m, RunFrom false familySteps image [⟨1, .fork, 2⟩] ⟨bootForked, m⟩ := by
  obtain ⟨m, hok, _⟩ := boot_fork false image
  have hpid : (1 : Int) = bootState.pcb.pid := by decide +kernel
  have hmax : bootState.nextPid < 2147483647 := by decide +kernel
  have hstep : Step false familySteps ⟨bootState, bootMm image⟩ ⟨1, .fork, 2⟩ ⟨bootForked, m⟩ :=
    ⟨hpid, ⟨boot_awake _, hmax⟩, hok⟩
  exact ⟨m, _, boot_eq image, Run.nil.snoc hstep⟩

/-- Process 1 exits while its only son is alive. -/
theorem exit_clean_iff_fork :
    ∃ k k', Reachable false familySteps k ∧ (k.sched.task 7).parent = some k.sched.current ∧
      sysExit k = .ok k' ∧ ExitsCleanly k k' := by
  obtain ⟨m, hrun⟩ := boot_fork_reachable fun _ _ => 0
  have hr : Reachable false familySteps ⟨bootForked, m⟩ := ⟨_, _, hrun⟩
  have hno : ¬ StaleSon bootForked := by decide +kernel
  obtain ⟨k', hok, hclean⟩ := ((exit_clean_iff hr).2 (bootForked_awake m)).1.mpr hno
  have hson : (bootForked.task 7).parent = some bootForked.current := by decide +kernel
  exact ⟨_, k', hr, hson, hok, hclean⟩

def schedAfter : Except Fault Sched → Sched
  | .ok s => s
  | .error _ => bootForked

theorem eq_schedAfter {x : Except Fault Sched} (h : x.isOk = true) : x = .ok (schedAfter x) := by
  cases x with
  | error e => cases h
  | ok s => rfl

@[irreducible] def bootTicked : Sched := schedAfter (clkRoutine bootForked)

theorem clkRoutine_bootForked : clkRoutine bootForked = .ok bootTicked := by
  rw [bootTicked]
  exact eq_schedAfter (by decide +kernel)

@[irreducible] def bootSwitched : Sched := schedAfter (clkRoutine bootTicked)

theorem clkRoutine_bootTicked : clkRoutine bootTicked = .ok bootSwitched := by
  rw [bootSwitched]
  exact eq_schedAfter (by decide +kernel)

@[irreducible] def bootSonDied : Sched := schedAfter (exitFamily bootSwitched >>= exitSched)

theorem exit_bootSwitched : exitFamily bootSwitched >>= exitSched = .ok bootSonDied := by
  rw [bootSonDied]
  exact eq_schedAfter (by decide +kernel)

theorem tick_step {useCow : Bool} {s s' : Sched} {m : Mm} (h : clkRoutine s = .ok s') :
    Step useCow familySteps ⟨s, m⟩ ⟨s.pcb.pid, .tick, 0⟩ ⟨s', m⟩ := by
  refine ⟨rfl, trivial, ?_⟩
  simp [exec, schedOnly, h]

theorem son_dies_first {image : Nat → Fin pageSize → UInt8} {tr : List Event} {s s₁ s₂ s₃ : Sched}
    {m : Mm} (hrun : RunFrom false familySteps image tr ⟨s, m⟩) (h₁ : clkRoutine s = .ok s₁)
    (h₂ : clkRoutine s₁ = .ok s₂) (h₃ : exitFamily s₂ >>= exitSched = .ok s₃)
    (ha : ∀ m, Awake ⟨s₂, m⟩) (ha' : ∀ m, Awake ⟨s₃, m⟩) (hst : StaleSon s₃) :
    ∃ m', RunFrom false familySteps image (⟨s₂.pcb.pid, .exit, 0⟩ :: ⟨s₁.pcb.pid, .tick, 0⟩ ::
        ⟨s.pcb.pid, .tick, 0⟩ :: tr) ⟨s₃, m'⟩ ∧ sysExit ⟨s₃, m'⟩ = .error .nullLink := by
  obtain ⟨k₀, hboot, hrun⟩ := hrun
  have hrun₂ := (hrun.snoc (tick_step h₁)).snoc (tick_step h₂)
  obtain ⟨ls, _, hk, _⟩ := Reachable.family ⟨_, _, k₀, hboot, hrun₂⟩
  have hexit : exec false .exit ⟨s₂, m⟩ = .ok (0, ⟨s₃, freeUserPages m s₂.current⟩) := by
    simp only [exec, sysExit_eq hk.queues (ha m).1 (exitShared_eq hk.frames.shared_frame _), h₃,
      ok_bind, pure_eq_ok]
  have hstep : Step false familySteps ⟨s₂, m⟩ ⟨s₂.pcb.pid, .exit, 0⟩
      ⟨s₃, freeUserPages m s₂.current⟩ := ⟨rfl, ha m, hexit⟩
  have hrun₃ := hrun₂.snoc hstep
  obtain ⟨ls', fam, hk', hp', hfam', _⟩ := Reachable.family ⟨_, _, k₀, hboot, hrun₃⟩
  refine ⟨_, ⟨k₀, hboot, hrun₃⟩, ?_⟩
  unfold sysExit
  rw [exitFamily_stale hfam' hk'.queues hp' (ha' _).1 hst, error_bind]

/-- The son exits before process 1 does: the exit of process 1 deletes the `bros`
node of the dead son a second time and follows its null link. -/
theorem exit_after_son_follows_null :
    ∃ k, RunFrom false familySteps (fun _ _ => 0)
        [⟨2, .exit, 0⟩, ⟨1, .tick, 0⟩, ⟨1, .tick, 0⟩, ⟨1, .fork, 2⟩] k ∧
      Awake k ∧ k.sched.pcb.pid = 1 ∧ sysExit k = .error .nullLink := by
  obtain ⟨m, hrun⟩ := boot_fork_reachable fun _ _ => 0
  have ha : ∀ m, Awake ⟨bootSwitched, m⟩ :=
    fun _ => .intro (by decide +kernel) (by decide +kernel)
  have ha' : ∀ m, Awake ⟨bootSonDied, m⟩ :=
    fun _ => .intro (by decide +kernel) (by decide +kernel)
  have hpid₁ : bootForked.pcb.pid = 1 := by decide +kernel
  have hpid₂ : bootTicked.pcb.pid = 1 := by decide +kernel
  have hpid₃ : bootSwitched.pcb.pid = 2 := by decide +kernel
  have hpid₄ : bootSonDied.pcb.pid = 1 := by decide +kernel
  obtain ⟨m', hrun', hnull⟩ := son_dies_first hrun clkRoutine_bootForked clkRoutine_bootTicked
    exit_bootSwitched ha ha' (by decide +kernel)
  rw [hpid₁, hpid₂, hpid₃] at hrun'
  exact ⟨_, hrun', ha' m', hpid₄, hnull⟩

end Zeos
