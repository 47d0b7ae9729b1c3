import Zeos.Steps
import Mathlib.Data.List.Rotate

/-!
# The round-robin order

Between system calls the clock alone drives the scheduler. The processes that
share the processor are then dispatched in a fixed cyclic order, each for its
quantum and one tick more.
-/

namespace Zeos

open LinkedRings Loops
set_option autoImplicit false

/-- `n` clock ticks with no system call in between. -/
def clkTicks : Nat → Sched → Except Fault Sched
  | 0, s => .ok s
  | n + 1, s => clkTicks n s >>= clkRoutine

/-- A state from which the scheduler can be left alone. -/
structure SchedulingState (s : Sched) (ls : Queue → List Slot) : Prop where
  queues : Rings queueLayout s.queues (fun _ => True) ls
  current_out : ∀ q, s.current ∉ ls q
  ready_state : ∀ t ∈ ls .readyqueue, (s.task t).state = .ready
  current_state : s.current ≠ s.idleTask → s.pcb.state = .run
  idle_pid : (s.task s.idleTask).pid = 0
  current_pid : s.current ≠ s.idleTask → 0 < s.pcb.pid
  ready_pid : ∀ t ∈ ls .readyqueue, 0 < (s.task t).pid
  quantum : ∀ t, t = s.current ∨ t ∈ ls .readyqueue → (s.task t).quantum < 4294967295

/-- The ready queue, and behind it the running process unless that is idle. -/
def cyclicOrder (s : Sched) (ls : Queue → List Slot) : List Slot :=
  ls .readyqueue ++ if s.current = s.idleTask then [] else [s.current]

/-- The processes of `order` take turns, the first of them runs, and it has run
for `n` ticks. PIDs and quanta are those of `s₀`. -/
structure Turn (s₀ s : Sched) (ls : Queue → List Slot) (order : List Slot) (n : Nat) : Prop where
  queues : Queues s.queues ls
  current_out : ∀ q, s.current ∉ ls q
  order_eq : s.current :: ls .readyqueue = order
  run : s.pcb.state = .run
  pid : ∀ t, (s.task t).pid = (s₀.task t).pid
  quantum : ∀ t, (s.task t).quantum = (s₀.task t).quantum
  counter : s.ticksSinceLastSwitch = n

section Tick
variable {s₀ s : Sched} {ls : Queue → List Slot} {c : Slot} {r : List Slot} {n : Nat}

/-- `get_quantum` gives the quantum back although it passes through an `int`. -/
theorem uint32_getQuantum {p : TaskStruct} (h : p.quantum < 4294967295) :
    uint32 (getQuantum p) = p.quantum := uint32_int32 (by omega)

/-- The state that the scheduler sees at a tick. -/
def atTick (s : Sched) : Sched := updateSchedDataRr (tickCount s)

theorem clkRoutine_eq (s : Sched) :
    clkRoutine s = if needsSchedRr (atTick s) then schedNextRr (atTick s) else .ok (atTick s) := rfl

theorem atTick_pcb (s : Sched) :
    (atTick s).pcb = { s.pcb with nrTicks := (s.ticksSinceLastSwitch + 1) % 4294967296 } := by
  simp [atTick, updateSchedDataRr, tickCount, Sched.pcb]

theorem atTick_task (s : Sched) (t : Slot) :
    ((atTick s).task t).pid = (s.task t).pid ∧ ((atTick s).task t).quantum = (s.task t).quantum :=
  ⟨(updateSchedDataRr_task (tickCount s) t).1.pid, (updateSchedDataRr_task (tickCount s) t).1.quantum⟩

theorem needsSchedRr_atTick (hq : Queues s.queues ls) (hp : 0 < s.pcb.pid)
    (hs : s.pcb.state = .run) (hb : s.pcb.quantum < 4294967295) (hr : ls .readyqueue ≠ []) :
    needsSchedRr (atTick s) =
      decide (s.pcb.quantum < (s.ticksSinceLastSwitch + 1) % 4294967296) := by
  have hne : listEmpty s.queues (.head .readyqueue) = false := by
    rw [Bool.eq_false_iff]
    intro h
    exact hr ((hq.empty_iff .readyqueue).mp h)
  have hqueues : (atTick s).queues = s.queues := rfl
  have hget : uint32 (getQuantum (atTick s).pcb) = s.pcb.quantum := by
    rw [atTick_pcb]
    exact uint32_getQuantum (p := { s.pcb with nrTicks := _ }) hb
  have hpid : (atTick s).pcb.pid ≠ 0 := by
    rw [atTick_pcb]
    exact hp.ne'
  have hticks : (atTick s).pcb.nrTicks = (s.ticksSinceLastSwitch + 1) % 4294967296 := by
    rw [atTick_pcb]
  have hstate : (atTick s).pcb.state ≠ .blocked := by
    rw [atTick_pcb]
    simp [hs]
  unfold needsSchedRr
  rw [if_neg hpid, hget, hticks, hqueues, hne, if_neg hstate]
  by_cases hlt : s.pcb.quantum < (s.ticksSinceLastSwitch + 1) % 4294967296
  · simp [hlt]
  · simp [hlt]

theorem Turn.stay (h : Turn s₀ s ls (c :: r) n) (hr : r ≠ []) (hp : 0 < (s₀.task c).pid)
    (hb : (s₀.task c).quantum < 4294967295) (hn : (n + 1) % 4294967296 ≤ (s₀.task c).quantum) :
    clkRoutine s = .ok (atTick s) ∧ Turn s₀ (atTick s) ls (c :: r) ((n + 1) % 4294967296) := by
  obtain ⟨hc, hrest⟩ := List.cons.inj h.order_eq
  subst hc
  have hneed : needsSchedRr (atTick s) = false := by
    rw [needsSchedRr_atTick h.queues (by rw [Sched.pcb, h.pid]; exact hp) h.run
      (by rw [Sched.pcb, h.quantum]; exact hb) (by rw [hrest]; exact hr), h.counter]
    have : ¬ s.pcb.quantum < (n + 1) % 4294967296 := by
      rw [Sched.pcb, h.quantum]
      omega
    exact decide_eq_false this
  refine ⟨by rw [clkRoutine_eq, hneed]; rfl, ?_⟩
  refine ⟨h.queues, h.current_out, h.order_eq, ?_, ?_, ?_, ?_⟩
  · rw [atTick_pcb]
    exact h.run
  · exact fun t => (atTick_task s t).1.trans (h.pid t)
  · exact fun t => (atTick_task s t).2.trans (h.quantum t)
  · change (s.ticksSinceLastSwitch + 1) % 4294967296 = _
    rw [h.counter]

theorem dispatch_turn (hq : Queues s.queues ls) (hout : ∀ q, s.current ∉ ls q)
    (hr : ls .readyqueue = c :: r) (hpid : ∀ t, (s.task t).pid = (s₀.task t).pid)
    (hquantum : ∀ t, (s.task t).quantum = (s₀.task t).quantum)
    (hneed : needsSchedRr (atTick s) = true) :
    ∃ s' ls', clkRoutine s = .ok s' ∧ Turn s₀ s' ls' (c :: readyAfter (atTick s) r) 0 := by
  obtain ⟨q, hok, hq'⟩ := schedNextRr_cons (s := atTick s) hq hr (fun _ => hout)
  have hne : s.current ≠ c := fun he => hout .readyqueue (by rw [hr, he]; exact List.mem_cons_self)
  refine ⟨_, _, by rw [clkRoutine_eq, hneed]; exact hok, hq', ?_, ?_, ?_, ?_, ?_, rfl⟩
  · intro p hm
    rcases (mem_readyAfter (s := atTick s) hq hr).mp hm with hm | ⟨_, he, _⟩
    · exact hm.2 rfl
    · exact hne he.symm
  · simp [dispatched]
  · simp [dispatched, Sched.pcb, stateAfter]
  · exact fun t => (atTick_task s t).1.trans (hpid t)
  · exact fun t => (atTick_task s t).2.trans (hquantum t)

theorem Turn.switch (h : Turn s₀ s ls (c :: r) n) (hr : r ≠ []) (hp : 0 < (s₀.task c).pid)
    (hb : (s₀.task c).quantum < 4294967295) (hn : (s₀.task c).quantum < (n + 1) % 4294967296) :
    ∃ s' ls', clkRoutine s = .ok s' ∧ Turn s₀ s' ls' (r ++ [c]) 0 := by
  obtain ⟨hc, hrest⟩ := List.cons.inj h.order_eq
  subst hc
  have hpid : 0 < s.pcb.pid := by
    rw [Sched.pcb, h.pid]
    exact hp
  have hneed : needsSchedRr (atTick s) = true := by
    rw [needsSchedRr_atTick h.queues hpid h.run (by rw [Sched.pcb, h.quantum]; exact hb)
      (by rw [hrest]; exact hr), h.counter]
    have : s.pcb.quantum < (n + 1) % 4294967296 := by
      rw [Sched.pcb, h.quantum]
      exact hn
    exact decide_eq_true this
  have hreq : Requeues (atTick s) := by
    unfold Requeues
    rw [atTick_pcb]
    exact ⟨hpid, by simp [h.run]⟩
  cases r with
  | nil => exact absurd rfl hr
  | cons d r =>
    obtain ⟨s', ls', hok, hturn⟩ := dispatch_turn h.queues h.current_out hrest h.pid h.quantum hneed
    refine ⟨s', ls', hok, ?_⟩
    rw [readyAfter, if_pos hreq] at hturn
    exact hturn

end Tick

section Runs
variable {s : Sched} {ls : Queue → List Slot}

theorem rotate_step {α : Type} {l r : List α} {c : α} {j : Nat} (h : l.rotate j = c :: r) :
    l.rotate (j + 1) = r ++ [c] := by
  rw [← List.rotate_rotate, h, List.rotate_cons_succ, List.rotate_zero]

theorem rotate_head {α : Type} {l r : List α} {c : α} {j : Nat} (h : l.rotate j = c :: r) :
    l[j % l.length]? = some c := by
  have hl : 0 < l.length := by
    rw [← List.length_rotate l j, h]
    simp
  rw [← List.head?_rotate (Nat.mod_lt _ hl), List.rotate_mod, h]
  rfl

/-- When the `j`-th dispatch happens, if the first happens at `d₀` and the
processes of `order` are dispatched in turn. -/
def dispatchTime (s : Sched) (order : List Slot) (d₀ : Nat) : Nat → Nat
  | 0 => d₀
  | j + 1 => dispatchTime s order d₀ j +
      ((order[j % order.length]?.map fun t => (s.task t).quantum).getD 0 + 1)

theorem dispatchTime_succ {order r : List Slot} {c : Slot} {j : Nat} (d₀ : Nat)
    (h : order.rotate j = c :: r) :
    dispatchTime s order d₀ (j + 1) = dispatchTime s order d₀ j + ((s.task c).quantum + 1) := by
  rw [dispatchTime, rotate_head h]
  rfl

/-- Every moment from the first dispatch on belongs to the turn of somebody. -/
theorem dispatchTime_covers (order : List Slot) (d₀ n : Nat) (h : d₀ ≤ n) :
    ∃ j, dispatchTime s order d₀ j ≤ n ∧ n < dispatchTime s order d₀ (j + 1) := by
  induction h with
  | refl => exact ⟨0, le_refl _, by rw [dispatchTime, dispatchTime]; omega⟩
  | @step n _ ih =>
    obtain ⟨j, hj, hj'⟩ := ih
    by_cases hn : n + 1 < dispatchTime s order d₀ (j + 1)
    · exact ⟨j, by omega, hn⟩
    · exact ⟨j + 1, by omega, by rw [dispatchTime]; omega⟩

theorem clkTicks_add {t : Sched} {a : Nat} (h : clkTicks a s = .ok t) (b : Nat) :
    clkTicks (a + b) s = clkTicks b t := by
  induction b with
  | zero => exact h
  | succ b ih =>
    change clkTicks (a + b) s >>= clkRoutine = clkTicks b t >>= clkRoutine
    rw [ih]

section Waiting
variable {s₀ : Sched} {c : Slot} {r : List Slot} {n : Nat}

theorem Turn.wait (h : Turn s₀ s ls (c :: r) n) (hr : r ≠ []) (hp : 0 < (s₀.task c).pid)
    (hb : (s₀.task c).quantum < 4294967295) (m : Nat) (hm : n + m ≤ (s₀.task c).quantum) :
    ∃ s', clkTicks m s = .ok s' ∧ Turn s₀ s' ls (c :: r) (n + m) := by
  induction m with
  | zero => exact ⟨s, rfl, h⟩
  | succ m ih =>
    obtain ⟨s', hok, hturn⟩ := ih (by omega)
    have hmod : (n + m + 1) % 4294967296 = n + (m + 1) := Nat.mod_eq_of_lt (by omega)
    obtain ⟨hok', hturn'⟩ := hturn.stay hr hp hb (by omega)
    rw [hmod] at hturn'
    exact ⟨_, by rw [clkTicks, hok, ok_bind, hok'], hturn'⟩

theorem Turn.next (h : Turn s₀ s ls (c :: r) n) (hr : r ≠ []) (hp : 0 < (s₀.task c).pid)
    (hb : (s₀.task c).quantum < 4294967295) (hn : n ≤ (s₀.task c).quantum) :
    ∃ s' ls', clkTicks ((s₀.task c).quantum - n + 1) s = .ok s' ∧ Turn s₀ s' ls' (r ++ [c]) 0 := by
  obtain ⟨s', hok, hturn⟩ := h.wait hr hp hb ((s₀.task c).quantum - n) (by omega)
  have hmod : (n + ((s₀.task c).quantum - n) + 1) % 4294967296 = (s₀.task c).quantum + 1 := by
    rw [Nat.mod_eq_of_lt (by omega)]
    omega
  obtain ⟨s'', ls'', hok', hturn'⟩ := hturn.switch hr hp hb (by omega)
  exact ⟨s'', ls'', by rw [clkTicks, hok, ok_bind, hok'], hturn'⟩

end Waiting

theorem SchedulingState.mem_order (h : SchedulingState s ls) {t : Slot} (ht : t ∈ cyclicOrder s ls) :
    0 < (s.task t).pid ∧ (s.task t).quantum < 4294967295 := by
  unfold cyclicOrder at ht
  rcases List.mem_append.mp ht with ht | ht
  · exact ⟨h.ready_pid t ht, h.quantum t (.inr ht)⟩
  · split at ht
    · cases ht
    · rename_i hne
      rw [List.mem_singleton.mp ht]
      exact ⟨h.current_pid hne, h.quantum _ (.inl rfl)⟩

theorem SchedulingState.first_dispatch (h : SchedulingState s ls)
    (hlen : 2 ≤ (cyclicOrder s ls).length) :
    ∃ d, 0 < d ∧ (∀ n, n < d → ∃ s', clkTicks n s = .ok s' ∧ s'.current = s.current) ∧
      ∃ s' ls', clkTicks d s = .ok s' ∧ Turn s s' ls' (cyclicOrder s ls) 0 := by
  have hready : ls .readyqueue ≠ [] := by
    intro he
    unfold cyclicOrder at hlen
    rw [he] at hlen
    split at hlen <;> simp at hlen
  by_cases hi : s.current = s.idleTask
  · -- idle gives way at the first tick
    have hpid : s.pcb.pid = 0 := by
      rw [Sched.pcb, hi]
      exact h.idle_pid
    have hneed : needsSchedRr (atTick s) = true := by
      have hne : listEmpty (atTick s).queues (.head .readyqueue) = false := by
        rw [Bool.eq_false_iff]
        exact fun he => hready ((Queues.empty_iff h.queues .readyqueue).mp he)
      unfold needsSchedRr
      rw [if_pos (by rw [atTick_pcb]; exact hpid), hne]
      rfl
    have hreq : ¬ Requeues (atTick s) := by
      intro hq
      have := hq.1
      rw [atTick_pcb] at this
      exact absurd hpid this.ne'
    cases hr : ls .readyqueue with
    | nil => exact absurd hr hready
    | cons c r =>
      have hsame : ∀ t, (s.task t).pid = (s.task t).pid := fun _ => rfl
      obtain ⟨s', ls', hok, hturn⟩ := dispatch_turn h.queues h.current_out hr hsame (fun _ => rfl) hneed
      refine ⟨1, by omega, ?_, s', ls', hok, ?_⟩
      · intro n hn
        rw [show n = 0 by omega]
        exact ⟨s, rfl, rfl⟩
      · rw [readyAfter, if_neg hreq] at hturn
        simpa [cyclicOrder, hi, hr] using hturn
  · have horder : cyclicOrder s ls = ls .readyqueue ++ [s.current] := by simp [cyclicOrder, hi]
    have hp := h.current_pid hi
    have hb : s.pcb.quantum < 4294967295 := h.quantum _ (.inl rfl)
    have hturn : Turn s s ls (s.current :: ls .readyqueue) s.ticksSinceLastSwitch :=
      ⟨h.queues, h.current_out, rfl, h.current_state hi, fun _ => rfl, fun _ => rfl, rfl⟩
    by_cases hq : s.pcb.quantum < (s.ticksSinceLastSwitch + 1) % 4294967296
    · obtain ⟨s', ls', hok, hturn'⟩ := hturn.switch hready hp hb hq
      refine ⟨1, by omega, ?_, s', ls', hok, horder ▸ hturn'⟩
      intro n hn
      rw [show n = 0 by omega]
      exact ⟨s, rfl, rfl⟩
    · obtain ⟨hok, hstay⟩ := hturn.stay hready hp hb (Nat.le_of_not_lt hq)
      have hone : clkTicks 1 s = .ok (atTick s) := hok
      obtain ⟨s', ls', hok', hturn'⟩ := hstay.next hready hp hb (Nat.le_of_not_lt hq)
      refine ⟨1 + _, by omega, ?_, s', ls', by rw [clkTicks_add hone]; exact hok', horder ▸ hturn'⟩
      intro n hn
      cases n with
      | zero => exact ⟨s, rfl, rfl⟩
      | succ n =>
        obtain ⟨t, ht, hw⟩ := hstay.wait hready hp hb n (by
          have : s.pcb.quantum = (s.task s.current).quantum := rfl
          omega)
        refine ⟨t, by rw [Nat.add_comm, clkTicks_add hone]; exact ht, ?_⟩
        exact (List.cons.inj hw.order_eq).1

/-- The `j`-th dispatch gives the processor to the head of the order rotated `j` times. -/
theorem SchedulingState.dispatch (h : SchedulingState s ls) (hlen : 2 ≤ (cyclicOrder s ls).length)
    {d₀ : Nat} {s' : Sched} {ls' : Queue → List Slot} (h₀ : clkTicks d₀ s = .ok s')
    (hturn : Turn s s' ls' (cyclicOrder s ls) 0) (j : Nat) :
    ∃ t lt, clkTicks (dispatchTime s (cyclicOrder s ls) d₀ j) s = .ok t ∧
      Turn s t lt ((cyclicOrder s ls).rotate j) 0 := by
  induction j with
  | zero => exact ⟨s', ls', h₀, by rw [List.rotate_zero]; exact hturn⟩
  | succ j ih =>
    obtain ⟨t, lt, hok, ht⟩ := ih
    have hl := List.length_rotate (cyclicOrder s ls) j
    cases ho : (cyclicOrder s ls).rotate j with
    | nil =>
      rw [ho] at hl
      simp at hl
      omega
    | cons c r =>
      rw [ho] at ht hl
      have hr : r ≠ [] := by
        rintro rfl
        simp at hl
        omega
      obtain ⟨hp, hb⟩ := h.mem_order (t := c) (List.mem_rotate.mp (ho ▸ List.mem_cons_self))
      obtain ⟨u, lu, hok', hu⟩ := ht.next hr hp hb (Nat.zero_le _)
      refine ⟨u, lu, ?_, rotate_step ho ▸ hu⟩
      rw [dispatchTime_succ d₀ ho, clkTicks_add hok]
      exact hok'

/-- Under clock ticks alone every tick completes, and there are times `d 0 < d 1 < ...`
of the dispatches such that the `j`-th one starts the `j`-th process of the cyclic
order, which then runs for its quantum and one tick; meanwhile the running process
followed by the ready queue is the order rotated `j` times. -/
theorem clkTicks_round_robin (h : SchedulingState s ls) (hlen : 2 ≤ (cyclicOrder s ls).length) :
    ∃ d : Nat → Nat, 0 < d 0 ∧
      (∀ j c, (cyclicOrder s ls)[j % (cyclicOrder s ls).length]? = some c →
        d (j + 1) = d j + ((s.task c).quantum + 1)) ∧
      (∀ n, d 0 ≤ n → ∃ j, d j ≤ n ∧ n < d (j + 1)) ∧
      (∀ n, n < d 0 → ∃ s', clkTicks n s = .ok s' ∧ s'.current = s.current) ∧
      (∀ j n, d j ≤ n → n < d (j + 1) → ∃ s' ls', clkTicks n s = .ok s' ∧
        (cyclicOrder s ls)[j % (cyclicOrder s ls).length]? = some s'.current ∧
        s'.current ≠ s.idleTask ∧ s'.ticksSinceLastSwitch = n - d j ∧
        Rings queueLayout s'.queues (fun _ => True) ls' ∧
        s'.current :: ls' .readyqueue = (cyclicOrder s ls).rotate j) := by
  obtain ⟨d₀, hpos, hbefore, s₁, ls₁, h₁, hturn⟩ := h.first_dispatch hlen
  refine ⟨dispatchTime s (cyclicOrder s ls) d₀, hpos, ?_, dispatchTime_covers _ d₀, hbefore, ?_⟩
  · intro j c hc
    rw [dispatchTime, hc]
    rfl
  · intro j n hj hj'
    obtain ⟨t, lt, hok, ht⟩ := h.dispatch hlen h₁ hturn j
    obtain ⟨c, r, ho⟩ : ∃ c r, (cyclicOrder s ls).rotate j = c :: r := ⟨_, _, ht.order_eq.symm⟩
    have hl := List.length_rotate (cyclicOrder s ls) j
    rw [ho] at ht hl
    have hr : r ≠ [] := by
      rintro rfl
      simp at hl
      omega
    obtain ⟨hp, hb⟩ := h.mem_order (t := c) (List.mem_rotate.mp (ho ▸ List.mem_cons_self))
    rw [dispatchTime_succ d₀ ho] at hj'
    obtain ⟨u, hok', hu⟩ := ht.wait hr hp hb (n - dispatchTime s (cyclicOrder s ls) d₀ j) (by omega)
    have hcur : u.current = c := (List.cons.inj hu.order_eq).1
    refine ⟨u, lt, ?_, by rw [hcur, rotate_head ho], ?_, by rw [hu.counter, Nat.zero_add], hu.queues, ?_⟩
    · rw [show n = dispatchTime s (cyclicOrder s ls) d₀ j +
          (n - dispatchTime s (cyclicOrder s ls) d₀ j) by omega, clkTicks_add hok]
      exact hok'
    · rintro he
      rw [hcur] at he
      rw [he, h.idle_pid] at hp
      omega
    · rw [hu.order_eq, ho]

end Runs

/-- Process 1 and its first child share the processor, two ticks each. -/
theorem clkTicks_round_robin_two : ∃ d : Nat → Nat, 0 < d 0 ∧
    (∀ j, d (j + 1) = d j + 2) ∧ ∀ j n, d j ≤ n → n < d (j + 1) →
      ∃ s', clkTicks n bootForked = .ok s' ∧ [7, 8][j % 2]? = some s'.current := by
  have h : SchedulingState bootForked bootForkedLists := by
    refine ⟨bootForked_rings, ?_, by decide +kernel, by decide +kernel, by decide +kernel,
      by decide +kernel, by decide +kernel, by decide +kernel⟩
    intro q
    cases q <;> decide +kernel
  obtain ⟨d, hpos, hstep, _, _, hturn⟩ := clkTicks_round_robin h (by decide +kernel)
  have horder : cyclicOrder bootForked bootForkedLists = [7, 8] := by decide +kernel
  have hquantum : ∀ t ∈ [7, 8], (bootForked.task t).quantum = 1 := by decide +kernel
  rw [horder] at hstep hturn
  refine ⟨d, hpos, ?_, ?_⟩
  · intro j
    have hlt : j % 2 < [(7 : Slot), 8].length := Nat.mod_lt j (by decide)
    rw [hstep j _ (List.getElem?_eq_getElem hlt), hquantum _ (List.getElem_mem hlt)]
  · intro j n hj hj'
    obtain ⟨s', _, hok, hcur, _⟩ := hturn j n hj hj'
    exact ⟨s', hok, hcur⟩

end Zeos
