import Zeos.Memory

/-!
# Copy on write

The two ways to build the kernel side by side. A fork either copies the data
pages or shares them until somebody writes; the processes see the same bytes, so
that the same steps give the same results.
-/

namespace Zeos

open LinkedRings Loops Holders Runs
set_option autoImplicit false

section Access
variable {useCow : Bool} {m : Mm} {t : Slot} {addr : Nat}

theorem userMay_data (h : FrameInv useCow m) (hp : DataPage (addr / pageSize))
    (hz : m.pagusrTable t (addr / pageSize) ≠ .zero) (write : Bool) :
    userMay m t addr write = (!write || (m.pagusrTable t (addr / pageSize)).rw) := by
  have hd := (h.data t _ hp).resolve_left hz
  have hlt : addr / pageSize < totalPages := data_lt hp
  unfold userMay
  simp [hlt, hd.present, hd.user]

theorem translate_data (h : FrameInv useCow m) (hp : DataPage (addr / pageSize))
    (hz : m.pagusrTable t (addr / pageSize) ≠ .zero) :
    translate m t addr = .ok ((m.pagusrTable t (addr / pageSize)).pbaseAddr,
      ⟨addr % pageSize, Nat.mod_lt addr (by decide)⟩) := by
  have hd := (h.data t _ hp).resolve_left hz
  have hlt : addr / pageSize < totalPages := data_lt hp
  rw [translate, if_pos ⟨hlt, hd.present⟩]

theorem userLoad_data (h : FrameInv useCow m) (hp : DataPage (addr / pageSize))
    (hz : m.pagusrTable t (addr / pageSize) ≠ .zero) :
    userLoad m t addr = .ok (some (content m t (addr / pageSize)
      ⟨addr % pageSize, Nat.mod_lt addr (by decide)⟩), m) := by
  have hmay : userMay m t addr false = true := by
    rw [userMay_data h hp hz]
    rfl
  unfold userLoad userRetry
  rw [if_pos hmay, ok_bind]
  simp only [if_true]
  rw [loadByte, translate_data h hp hz]
  rfl

/-- What a store to a data page does, whether or not it raises a fault. -/
structure Stored (useCow : Bool) (m m' : Mm) (t : Slot) (addr : Nat) (v : UInt8) : Prop where
  inv : FrameInv useCow m'
  zero_iff : ∀ u q, m'.pagusrTable u q = .zero ↔ m.pagusrTable u q = .zero
  region : ∀ u q, SharedRegion q → m'.pagusrTable u q = m.pagusrTable u q
  content : ∀ u q, DataPage q → m.pagusrTable u q ≠ .zero → content m' u q =
    if u = t ∧ q = addr / pageSize then
      Function.update (content m t (addr / pageSize)) ⟨addr % pageSize, Nat.mod_lt addr (by decide)⟩ v
    else content m u q

/-- A store to a page with `rw`: the frame belongs to this entry alone. -/
theorem storeByte_data (h : FrameInv useCow m) (hp : DataPage (addr / pageSize))
    (hz : m.pagusrTable t (addr / pageSize) ≠ .zero)
    (hrw : (m.pagusrTable t (addr / pageSize)).rw = true) (v : UInt8) :
    ∃ m', storeByte m t addr v = .ok m' ∧ Stored useCow m m' t addr v := by
  have hstore : storeByte m t addr v = .ok (setByte m (m.pagusrTable t (addr / pageSize)).pbaseAddr
      ⟨addr % pageSize, Nat.mod_lt addr (by decide)⟩ v) := by
    rw [storeByte, translate_data h hp hz]
    rfl
  refine ⟨_, hstore, h.sameTables (storeByte_sameTables hstore), fun _ _ => Iff.rfl,
    fun _ _ _ => rfl, ?_⟩
  intro u q hq huq
  have hdt := (h.data t _ hp).resolve_left hz
  have hdu := (h.data u q hq).resolve_left huq
  change Function.update m.ram _ _ (m.pagusrTable u q).pbaseAddr = _
  by_cases hc : u = t ∧ q = addr / pageSize
  · rw [if_pos hc, hc.1, hc.2, Function.update_self]
    rfl
  · rw [if_neg hc, Function.update_of_ne]
    · rfl
    · intro he
      apply hc
      apply h.owner t _ u q hp hq hrw
      rw [frame?_of_present hdt.present, frame?_of_present hdu.present, he]

theorem userStore_data (h : FrameInv useCow m) (hp : DataPage (addr / pageSize))
    (hz : m.pagusrTable t (addr / pageSize) ≠ .zero) {q : Nat} (hq : q ∈ freeRegion m t) (v : UInt8) :
    ∃ m', userStore m t addr v = .ok (true, m') ∧ Stored useCow m m' t addr v := by
  cases hrw : (m.pagusrTable t (addr / pageSize)).rw with
  | true =>
    have hmay : userMay m t addr true = true := by
      rw [userMay_data h hp hz, hrw]
      rfl
    obtain ⟨m', hstore, hs⟩ := storeByte_data h hp hz hrw v
    refine ⟨m', ?_, hs⟩
    unfold userStore userRetry
    simp only [hmay, if_true, ok_bind, hstore, pure_eq_ok]
  | false =>
    -- the page is still shared: the fault gives the process its own frame first
    have hmay : userMay m t addr true = false := by
      rw [userMay_data h hp hz, hrw]
      rfl
    obtain ⟨m₁, hpgf⟩ := pgfRoutine_completes h hp hz hrw hq
    have haddr : addr < totalPages * pageSize := by
      have := data_lt hp
      simp only [totalPages, pageSize] at this ⊢
      omega
    have hr := pgfRoutine_repaired h haddr hpgf
    have hmay₁ : userMay m₁ t addr true = true := by
      rw [userMay_data hr.inv hp hr.now.1, hr.now.2]
      rfl
    obtain ⟨m', hstore, hs⟩ := storeByte_data hr.inv hp hr.now.1 hr.now.2 v
    refine ⟨m', ?_, hs.inv, ?_, ?_, ?_⟩
    · unfold userStore userRetry
      rw [hmay, if_neg Bool.false_ne_true, hpgf, ok_bind, pure_eq_ok, ok_bind]
      simp only [hmay₁, if_true, hstore, ok_bind, pure_eq_ok]
    · exact fun u r => (hs.zero_iff u r).trans (hr.zero_iff u r)
    · intro u r hr'
      rw [hs.region u r hr', hr.other u r]
      rintro ⟨_, rfl⟩
      exact (region_disjoint hr').1 hp
    · intro u r hr' hur
      rw [hs.content u r hr' (fun he => hur ((hr.zero_iff u r).mp he)), hr.content u r hr' hur,
        hr.content t _ hp hz]

end Access

def DataStep (k : Kernel) : Op → Prop
  | .tick => True
  | .fork | .exit | .block | .unblock _ => Awake k
  | .load addr => UserRuns k ∧ DataPage (addr / pageSize)
  | .store addr _ => UserRuns k ∧ DataPage (addr / pageSize)
  | .shmat _ _ | .shmdt _ | .shmrm _ | .fault _ | .read _ _ _ _ => False

instance (k : Kernel) : Decidable (UserRuns k) := inferInstanceAs (Decidable (_ ≠ _))
instance (k : Kernel) : Decidable (Awake k) := inferInstanceAs (Decidable (_ ∧ _))

instance (k : Kernel) (op : Op) : Decidable (DataStep k op) := by
  cases op <;> unfold DataStep <;> infer_instance

def dataStep (useCow : Bool) (op : Op) (k : Kernel) : Option (Int × Kernel) :=
  if DataStep k op then (exec useCow op k).toOption else none

/-- The processes of both builds are the same and see the same bytes. -/
structure Twins (k k' : Kernel) (ls : Queue → List Slot) : Prop where
  sched : k'.sched = k.sched
  cow : KernelInv true k ls
  eager : KernelInv false k' ls
  clear : ∀ t p, SharedRegion p → k.mm.pagusrTable t p = .zero ∧ k'.mm.pagusrTable t p = .zero
  same : ∀ t, Runnable k.sched ls t → ∀ p, DataPage p → content k'.mm t p = content k.mm t p

def Related (k k' : Kernel) : Prop := ∃ ls, Twins k k' ls

namespace Twins
variable {s : Sched} {m m' : Mm} {ls : Queue → List Slot}

theorem roles {s₁ : Sched} {ls₁ : Queue → List Slot} (h : Twins ⟨s, m⟩ ⟨s, m'⟩ ls)
    (hq : QueueInv s₁ ls₁) (hr : SameRoles s s₁ ls ls₁) : Twins ⟨s₁, m⟩ ⟨s₁, m'⟩ ls₁ where
  sched := rfl
  cow := h.cow.roles hq hr
  eager := h.eager.roles hq hr
  clear := h.clear
  same t ht := h.same t (hr.runnable t ht)

theorem schedOnly (h : Twins ⟨s, m⟩ ⟨s, m'⟩ ls) {x : Except Fault Sched}
    (hx : ∀ s₁, x = .ok s₁ → ∃ ls₁, QueueInv s₁ ls₁ ∧ SameRoles s s₁ ls ls₁) :
    Agree Related (schedOnly ⟨s, m⟩ x).toOption (schedOnly ⟨s, m'⟩ x).toOption := by
  cases x with
  | error e => exact .stop
  | ok s₁ =>
    obtain ⟨ls₁, hq, hr⟩ := hx s₁ rfl
    exact .go 0 ⟨ls₁, h.roles hq hr⟩

theorem unblock (h : Twins ⟨s, m⟩ ⟨s, m'⟩ ls) (hs : s.pcb.state ≠ .blocked) (pid : Int) :
    Agree Related (exec true (.unblock pid) ⟨s, m⟩).toOption
      (exec false (.unblock pid) ⟨s, m'⟩).toOption := by
  have heq : ∀ useCow m, exec useCow (.unblock pid) ⟨s, m⟩ =
      sysUnblock s pid >>= fun x => .ok (x.1, ⟨x.2, m⟩) := fun _ _ => rfl
  rw [heq, heq]
  cases hx : sysUnblock s pid with
  | error e => exact .stop
  | ok x =>
    obtain ⟨ls₁, hq, hr⟩ := sysUnblock_roles h.cow.queues hs (r := x.1) hx
    exact .go x.1 ⟨ls₁, h.roles hq hr⟩

theorem freeRegion_card (h : Twins ⟨s, m⟩ ⟨s, m'⟩ ls) (t : Slot) :
    numPagData ≤ (freeRegion m' t).card := by
  have hall : freeRegion m' t = Finset.Ico userLastPage totalPages := by
    apply Finset.filter_true_of_mem
    intro p hp
    exact (h.clear t p (Finset.mem_Ico.mp hp)).2
  rw [hall, Nat.card_Ico]
  decide

theorem forked {m₁ m₁' : Mm} {child : Slot} {rest : List Slot} {q q' : Heap QNode} {f : Heap FNode}
    (h : Twins ⟨s, m⟩ ⟨s, m'⟩ ls) (hu : s.current ≠ s.idleTask)
    (hf : ls .freequeue = child :: rest) (hcur : child ≠ s.current)
    (hq : QueueInv (linkedChild (forked s child q) child q' f) (forkedLists ls child rest))
    (hin : Inherits true m m₁ s.current child) (hin' : Inherits false m' m₁' s.current child) :
    Twins ⟨linkedChild (Zeos.forked s child q) child q' f, m₁⟩
      ⟨linkedChild (Zeos.forked s child q) child q' f, m₁'⟩ (forkedLists ls child rest) where
  sched := rfl
  cow := h.cow.forked hu hf hcur hq hin
  eager := h.eager.forked hu hf hcur hq hin'
  clear t p hp := by
    rw [hin.region t p hp, hin'.region t p hp]
    exact h.clear t p hp
  same := by
    rintro t ht p hp
    by_cases htc : t = child
    · subst htc
      rw [hin.child_content p hp, hin'.child_content p hp]
      exact h.same s.current ⟨hu, .inl rfl⟩ p hp
    · have hrun : Runnable s ls t := h.cow.runnable_of_forked hf htc ht
      rw [hin.other_content t p htc hp (h.cow.full t hrun p (.inl hp)),
        hin'.other_content t p htc hp (h.eager.full t hrun p (.inl hp))]
      exact h.same t hrun p hp

theorem fork (h : Twins ⟨s, m⟩ ⟨s, m'⟩ ls) (ha : Awake ⟨s, m⟩) :
    Agree Related (sysFork true ⟨s, m⟩).toOption (sysFork false ⟨s, m'⟩).toOption := by
  cases hf : ls .freequeue with
  | nil =>
    have hempty := (h.cow.queues.rings.empty_iff .freequeue).mpr hf
    have hnone : ∀ useCow m, sysFork useCow ⟨s, m⟩ = .ok (-enomem, ⟨s, m⟩) := by
      intro useCow m
      unfold sysFork
      rw [if_pos hempty]
    rw [hnone, hnone]
    exact .go _ ⟨ls, h⟩
  | cons child rest =>
    obtain ⟨q, hcur, hidle, hout, hinv, heq⟩ := sysFork_taken h.cow.queues ha.2 hf
    obtain ⟨m₁, hm₁, hin⟩ : ∃ m₁, forkMemory true m s.current child = .ok (m₁, true) ∧
        Inherits true m m₁ s.current child := by
      rcases h.cow.forkMemory_cases ha.1 hf hcur with ⟨m₁, hm₁, hin, _⟩ | ⟨hc, _⟩
      · exact ⟨m₁, hm₁, hin⟩
      · cases hc
    obtain ⟨m₁', hm₁', hin'⟩ : ∃ m₁, forkMemory false m' s.current child = .ok (m₁, true) ∧
        Inherits false m' m₁ s.current child := by
      rcases h.eager.forkMemory_cases ha.1 hf hcur with ⟨m₁, hm₁, hin, _⟩ | ⟨_, hcard, _⟩
      · exact ⟨m₁, hm₁, hin⟩
      · exact absurd hcard (not_lt.mpr (h.freeRegion_card s.current))
    rw [heq, heq, hm₁, hm₁', ok_bind, ok_bind]
    cases hl : forkLink (Zeos.forked s child q) child with
    | error e =>
      simp only [forkFinish, hl]
      exact .stop
    | ok x =>
      obtain ⟨pid, s₁⟩ := x
      obtain ⟨_, hinv', q', f, rfl⟩ := forkLink_queueInv hinv hout hcur hidle hl
      simp only [forkFinish, hl]
      exact .go pid ⟨_, h.forked ha.1 hf hcur hinv' hin hin'⟩

theorem exit (h : Twins ⟨s, m⟩ ⟨s, m'⟩ ls) (ha : Awake ⟨s, m⟩) :
    Agree Related (exec true .exit ⟨s, m⟩).toOption (exec false .exit ⟨s, m'⟩).toOption := by
  have hshared := exitShared_eq h.cow.frames.shared_frame s.current
  have hshared' := exitShared_eq h.eager.frames.shared_frame s.current
  have heq := sysExit_eq h.cow.queues ha.1 hshared
  have heq' := sysExit_eq h.eager.queues ha.1 hshared'
  unfold exec
  cases hx : (exitFamily s >>= exitSched) with
  | error e =>
    simp only [heq, heq', hx, error_bind]
    exact .stop
  | ok s₁ =>
    rw [hx, ok_bind] at heq heq'
    obtain ⟨ls₁, hex⟩ := h.cow.exit ha heq
    obtain ⟨_, hrel⟩ := freeUserPages_spec h.eager.frames s.current
    have hclear : ∀ t p, SharedRegion p → (freeUserPages m s.current).pagusrTable t p = .zero ∧
        (freeUserPages m' s.current).pagusrTable t p = .zero := by
      intro t p hp
      have hnd := (region_disjoint hp).1
      rw [KernelInv.Released.data_other hex.released (.inr hnd),
        KernelInv.Released.data_other hrel (.inr hnd)]
      exact h.clear t p hp
    rw [heq, heq']
    refine .go 0 ⟨ls₁, rfl, hex.inv,
      h.eager.released hex.inv.queues hex.idleTask hex.free hex.runnable, hclear, ?_⟩
    intro t ht p hp
    obtain ⟨hrun, htc⟩ := hex.runnable t ht
    have hc : content (freeUserPages m s.current) t p = content m t p := by
      unfold content
      rw [KernelInv.Released.data_other hex.released (.inl htc), hex.released.ram]
    have hc' : content (freeUserPages m' s.current) t p = content m' t p := by
      unfold content
      rw [KernelInv.Released.data_other hrel (.inl htc), hrel.ram]
    change content (freeUserPages m' s.current) t p = content (freeUserPages m s.current) t p
    rw [hc, hc']
    exact h.same t hrun p hp

theorem load (h : Twins ⟨s, m⟩ ⟨s, m'⟩ ls) (hu : s.current ≠ s.idleTask) {addr : Nat}
    (hp : DataPage (addr / pageSize)) :
    Agree Related (exec true (.load addr) ⟨s, m⟩).toOption
      (exec false (.load addr) ⟨s, m'⟩).toOption := by
  have hrun : Runnable s ls s.current := ⟨hu, .inl rfl⟩
  have hload := userLoad_data h.cow.frames hp (h.cow.full _ hrun _ (.inl hp))
  have hload' := userLoad_data h.eager.frames hp (h.eager.full _ hrun _ (.inl hp))
  rw [h.same _ hrun _ hp] at hload'
  unfold exec
  simp only [h.cow.getPT_current, ok_bind, hload, hload']
  exact .go _ ⟨ls, h⟩

theorem store (h : Twins ⟨s, m⟩ ⟨s, m'⟩ ls) (hu : s.current ≠ s.idleTask) {addr : Nat}
    (hp : DataPage (addr / pageSize)) (v : UInt8) :
    Agree Related (exec true (.store addr v) ⟨s, m⟩).toOption
      (exec false (.store addr v) ⟨s, m'⟩).toOption := by
  have hrun : Runnable s ls s.current := ⟨hu, .inl rfl⟩
  have hreg : SharedRegion userLastPage := by decide
  have hz := h.cow.full _ hrun _ (.inl hp)
  have hz' := h.eager.full _ hrun _ (.inl hp)
  obtain ⟨m₁, hstore, hs⟩ := userStore_data h.cow.frames hp hz
    (mem_freeRegion.mpr ⟨hreg, (h.clear s.current _ hreg).1⟩) v
  obtain ⟨m₁', hstore', hs'⟩ := userStore_data h.eager.frames hp hz'
    (mem_freeRegion.mpr ⟨hreg, (h.clear s.current _ hreg).2⟩) v
  unfold exec
  simp only [h.cow.getPT_current, ok_bind, hstore, hstore']
  refine .go 0 ⟨ls, rfl, h.cow.mem hs.inv fun u q _ => hs.zero_iff u q,
    h.eager.mem hs'.inv fun u q _ => hs'.zero_iff u q, ?_, ?_⟩
  · intro t p hpr
    change m₁.pagusrTable t p = .zero ∧ m₁'.pagusrTable t p = .zero
    rw [hs.region t p hpr, hs'.region t p hpr]
    exact h.clear t p hpr
  · intro t ht p hpd
    change content m₁' t p = content m₁ t p
    rw [hs.content t p hpd (h.cow.full t ht p (.inl hpd)),
      hs'.content t p hpd (h.eager.full t ht p (.inl hpd)), h.same _ hrun _ hp, h.same t ht p hpd]

end Twins

theorem dataStep_agree (op : Op) (k k' : Kernel) (h : Related k k') :
    Agree Related (dataStep true op k) (dataStep false op k') := by
  obtain ⟨s, m⟩ := k
  obtain ⟨s', m'⟩ := k'
  obtain ⟨ls, h⟩ := h
  obtain rfl : s' = s := h.sched
  have hsame : DataStep ⟨s', m'⟩ op ↔ DataStep ⟨s', m⟩ op := by cases op <;> exact Iff.rfl
  unfold dataStep
  by_cases hd : DataStep ⟨s', m⟩ op
  · rw [if_pos hd, if_pos (hsame.mpr hd)]
    cases op with
    | tick => exact h.schedOnly fun s₁ hs => clkRoutine_roles h.cow.queues hs
    | fork => exact h.fork hd
    | exit => exact h.exit hd
    | block => exact h.schedOnly fun s₁ hs => sysBlock_roles h.cow.queues hd.1 hd.2 hs
    | unblock pid => exact h.unblock hd.2 pid
    | load addr => exact h.load hd.1 hd.2
    | store addr v => exact h.store hd.1 hd.2 v
    | shmat id addr => exact hd.elim
    | shmdt addr => exact hd.elim
    | shmrm id => exact hd.elim
    | fault addr => exact hd.elim
    | read b maxchars c kern => exact hd.elim
  · rw [if_neg hd, if_neg (fun hd' => hd (hsame.mp hd'))]
    exact .stop

theorem BootedMm.twins {image : Nat → Fin pageSize → UInt8} {m : Mm} (h : BootedMm image m) :
    Twins ⟨bootState, m⟩ ⟨bootState, m⟩ bootLists :=
  ⟨rfl, .booted h true, .booted h false, fun t p hp => ⟨h.region t p hp, h.region t p hp⟩,
    fun _ _ _ _ => rfl⟩

/-- Whatever the processes do with their data pages, sharing them until they are
written cannot be told from copying them: from the same boot, every list of steps
goes equally far and returns the same results, the bytes of loads among them. -/
theorem copyOnWrite_unobservable (image : Nat → Fin pageSize → UInt8) (ops : List Op) :
    ∃ k, boot image = .ok k ∧
      outputs (dataStep true) ops k = outputs (dataStep false) ops k :=
  ⟨_, boot_eq image, outputs_eq Related dataStep_agree ops _ _ ⟨_, (bootMm_spec image).twins⟩⟩

end Zeos
