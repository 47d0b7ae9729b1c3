import Zeos.FamilyTree

/-!
# Counting sons and brothers

`sys_numsons` and `sys_numbros` both take one from what `list_size` counts. From the
`bros` node of a process the walk also passes the head of its parent, so there the
one is right; from the `sons` head it passes the sons only. Process 1 is in no ring.
-/

namespace Zeos

open LinkedRings Loops Runs
set_option autoImplicit false

/-- A PCB in `freequeue` has the PID -1. -/
def liveSons (s : Sched) (p : Slot) : Finset Slot :=
  Finset.univ.filter fun t => (s.task t).pid ≠ -1 ∧ (s.task t).parent = some p

def liveBros (s : Sched) : Finset Slot :=
  Finset.univ.filter fun t => t ≠ s.current ∧ (s.task t).pid ≠ -1 ∧ (s.task t).parent = s.pcb.parent

/-- Both calls return what their names say. -/
def CountsRelatives (s : Sched) : Prop :=
  sysNumsons s = .ok (liveSons s s.current).card ∧ sysNumbros s = .ok (liveBros s).card

section Counts
variable {useCow : Bool} {k : Kernel} {s : Sched} {ls : Queue → List Slot} {fam : Slot → List Slot}

theorem pid_ne_iff_live (hq : QueueInv s ls) (hp : PidInv s ls) (t : Slot) :
    (s.task t).pid ≠ -1 ↔ t ∉ ls .freequeue := by
  constructor
  · intro hpid hfree
    exact hpid (hp.free_pid t hfree)
  · intro hlive
    by_cases hidle : t = s.idleTask
    · rw [hidle, hq.idle_pid]
      decide
    · have := (hp.live_pid t hidle hlive).1
      omega

theorem liveSons_eq (h : FamilyInv s ls fam) (hq : QueueInv s ls) (hp : PidInv s ls) {p : Slot}
    (hl : p ∉ ls .freequeue) : liveSons s p = (fam p).toFinset := by
  ext t
  rw [liveSons, Finset.mem_filter, List.mem_toFinset, h.mem p hl, pid_ne_iff_live hq hp]
  exact and_iff_right (Finset.mem_univ t)

theorem liveSons_card (h : FamilyInv s ls fam) (hq : QueueInv s ls) (hp : PidInv s ls) {p : Slot}
    (hl : p ∉ ls .freequeue) : (liveSons s p).card = (fam p).length := by
  rw [liveSons_eq h hq hp hl, List.toFinset_card_of_nodup (h.rings.nodup hl)]

theorem length_le_nrTasks {l : List Slot} (h : l.Nodup) : l.length ≤ nrTasks := by
  have hcard := h.length_le_card
  rwa [Fintype.card_fin] at hcard

theorem sysNumsons_eq (h : FamilyInv s ls fam) (hl : s.current ∉ ls .freequeue) :
    sysNumsons s = .ok ((fam s.current).length - 1) := by
  have hlen := length_le_nrTasks (h.rings.nodup hl)
  have hsize : listSize s.family (2 * nrTasks + 1) (.sons s.current) =
      .ok (((fam s.current).map FNode.bros).length : Nat) := by
    apply listSize_spec (h.rings.ring _ hl)
    rw [List.length_map]
    omega
  rw [List.length_map] at hsize
  rw [sysNumsons, hsize]
  rfl

/-- The walk from a `bros` node goes through the head of the parent. -/
theorem sysNumbros_eq (h : FamilyInv s ls fam) {p : Slot} (hl : p ∉ ls .freequeue)
    (hmem : s.current ∈ fam p) : sysNumbros s = .ok ((fam p).length - 1) := by
  have hlen := length_le_nrTasks (h.rings.nodup hl)
  have hring := h.rings.ring p hl
  obtain ⟨l₁, l₂, hsplit⟩ := List.append_of_mem hmem
  rw [hsplit, List.length_append, List.length_cons] at hlen
  rw [hsplit, List.map_append, List.map_cons] at hring
  have hsize : listSize s.family (2 * nrTasks + 1) (.bros s.current) =
      .ok ((l₂.map FNode.bros ++ FNode.sons p :: l₁.map FNode.bros).length : Nat) := by
    apply listSize_spec hring.rotate
    rw [List.length_append, List.length_cons, List.length_map, List.length_map]
    omega
  rw [List.length_append, List.length_cons, List.length_map, List.length_map] at hsize
  rw [sysNumbros, hsize, hsplit, List.length_append, List.length_cons, ok_bind, pure_eq_ok]
  push_cast
  congr 1
  omega

theorem liveBros_card (h : FamilyInv s ls fam) (hq : QueueInv s ls) (hp : PidInv s ls) {p : Slot}
    (hl : p ∉ ls .freequeue) (hpar : s.pcb.parent = some p) (hmem : s.current ∈ fam p) :
    (liveBros s).card = (fam p).length - 1 := by
  have herase : liveBros s = (liveSons s p).erase s.current := by
    ext t
    simp [liveBros, liveSons, hpar]
  have hin : s.current ∈ liveSons s p := by
    rw [liveSons_eq h hq hp hl, List.mem_toFinset]
    exact hmem
  rw [herase, Finset.card_erase_of_mem hin, liveSons_card h hq hp hl]

/-- In no state is the number of sons right: it is always one less. The number of
brothers is right, except that for process 1 the walk follows the null link that
`init_task1` left in its `bros` node. -/
theorem relatives_miscounted (h : Reachable useCow familySteps k) (hu : UserRuns k) :
    ¬ CountsRelatives k.sched ∧
      sysNumsons k.sched = .ok ((liveSons k.sched k.sched.current).card - 1) ∧
      (k.sched.pcb.pid = 1 → sysNumbros k.sched = .error .nullLink) ∧
      (k.sched.pcb.pid ≠ 1 → sysNumbros k.sched = .ok (liveBros k.sched).card) := by
  obtain ⟨ls, fam, hk, hp, hfam, _⟩ := h.family
  have hcur : k.sched.current ∉ ls .freequeue := hk.queues.current_out .freequeue (by decide)
  have hsons : sysNumsons k.sched = .ok ((liveSons k.sched k.sched.current).card - 1) := by
    rw [sysNumsons_eq hfam hcur, liveSons_card hfam hk.queues hp hcur]
  have hpid := (hp.live_pid k.sched.current hu hcur).1
  refine ⟨?_, hsons, ?_, ?_⟩
  · rintro ⟨hnum, _⟩
    rw [hsons] at hnum
    have hval := Except.ok.inj hnum
    omega
  · intro hone
    have hnone : k.sched.pcb.parent = none := hfam.first _ hcur (by
      change k.sched.pcb.pid ≤ 1
      omega)
    have hunlinked := hfam.unlinked k.sched.current (by
      intro p hl hmem
      have hpar := ((hfam.mem p hl _).mp hmem).2
      change k.sched.pcb.parent = some p at hpar
      rw [hnone] at hpar
      cases hpar)
    unfold sysNumbros
    rw [listSize_unlinked hunlinked, error_bind]
  · intro hother
    have hbig : 1 < k.sched.pcb.pid := by
      change 1 ≤ k.sched.pcb.pid at hpid
      omega
    obtain ⟨p, hl, hpar⟩ := hfam.parent k.sched.current hcur hbig
    have hmem := (hfam.mem p hl _).mpr ⟨hcur, hpar⟩
    have hpos := List.length_pos_of_mem hmem
    rw [sysNumbros_eq hfam hl hmem, liveBros_card hfam hk.queues hp hl hpar hmem]
    push_cast [hpos]
    rfl

end Counts

/-- After one fork process 1 has one son. -/
theorem relatives_miscounted_fork :
    ∃ k, Reachable false familySteps k ∧ UserRuns k ∧ (liveSons k.sched k.sched.current).card = 1 ∧
      sysNumsons k.sched = .ok 0 ∧ sysNumbros k.sched = .error .nullLink := by
  obtain ⟨m, hrun⟩ := boot_fork_reachable fun _ _ => 0
  have hr : Reachable false familySteps ⟨bootForked, m⟩ := ⟨_, _, hrun⟩
  have hone : (liveSons bootForked bootForked.current).card = 1 := by decide +kernel
  have hpid : bootForked.pcb.pid = 1 := by decide +kernel
  obtain ⟨_, hsons, hbros, _⟩ := relatives_miscounted hr (bootForked_awake m).1
  refine ⟨_, hr, (bootForked_awake m).1, hone, ?_, hbros hpid⟩
  change sysNumsons bootForked = .ok (((liveSons bootForked bootForked.current).card : Int) - 1) at hsons
  rw [hone] at hsons
  exact hsons

/-- Right after boot process 1 has no son, and `numsons` returns -1. -/
theorem numsons_at_boot :
    ∃ k, Reachable false familySteps k ∧ UserRuns k ∧ (liveSons k.sched k.sched.current).card = 0 ∧
      sysNumsons k.sched = .ok (-1) ∧ ¬ CountsRelatives k.sched := by
  have hzero : (liveSons bootState bootState.current).card = 0 := by decide +kernel
  have hsons : sysNumsons bootState = .ok (-1) := rfl
  refine ⟨_, .boot (boot_eq fun _ _ => 0), (boot_awake _).1, hzero, hsons, ?_⟩
  rintro ⟨hnum, _⟩
  change sysNumsons bootState = .ok ((liveSons bootState bootState.current).card : Int) at hnum
  rw [hsons, hzero] at hnum
  cases hnum

end Zeos
