import Zeos.ForkCopies
import Zeos.Waiting

/-!
# Data pages as private memory

The data pages of a process without frames and page tables: the bytes that it has
stored or that `sys_read` has put there for it, over those that its parent had at the
fork. Whatever the other processes do, and whatever arguments they pass, this is what
the process reads.
-/

namespace Zeos

open LinkedRings Loops Runs
set_option autoImplicit false

/-- By PID and address. -/
abbrev PrivateBytes := Int → Nat → UInt8

/-- With `bytes` at the addresses from `a₀` on of the process `pid`. -/
def PrivateBytes.write (b : PrivateBytes) (pid : Int) (a₀ : Nat) (bytes : List UInt8) : PrivateBytes :=
  fun i a => if i = pid ∧ a₀ ≤ a then (bytes[a - a₀]?).getD (b i a) else b i a

/-- A store that goes through and a read that is not refused write to the bytes of
their process, and a child starts with the bytes of its parent. -/
def PrivateBytes.after (b : PrivateBytes) (e : Event) : PrivateBytes :=
  match e.op with
  | .store addr v => if e.ret = 0 then b.write e.caller addr [v] else b
  | .read a₀ maxchars c _ =>
    if 0 ≤ e.ret then b.write e.caller a₀ (c.pending.take (uint32 maxchars)) else b
  | .fork => if e.ret = -enomem then b else Function.update b e.ret (b e.caller)
  | _ => b

theorem PrivateBytes.write_at (b : PrivateBytes) {pid : Int} {a₀ a i : Nat} {bytes : List UInt8}
    {v : UInt8} (ha : a₀ + i = a) (hi : bytes[i]? = some v) : b.write pid a₀ bytes pid a = v := by
  subst ha
  rw [write, if_pos ⟨rfl, Nat.le_add_right a₀ i⟩, Nat.add_sub_cancel_left, hi, Option.getD_some]

theorem PrivateBytes.write_other (b : PrivateBytes) {pid j : Int} {a₀ a : Nat} {bytes : List UInt8}
    (h : ∀ i < bytes.length, j = pid → a₀ + i ≠ a) : b.write pid a₀ bytes j a = b j a := by
  unfold write
  split
  · rename_i hc
    rw [List.getElem?_eq_none, Option.getD_none]
    by_contra hlt
    exact h (a - a₀) (not_le.mp hlt) hc.1 (Nat.add_sub_cancel' hc.2)
  · rfl

theorem PrivateBytes.after_fork (b : PrivateBytes) (pid r : Int) : b.after ⟨pid, .fork, r⟩ =
    if r = -enomem then b else Function.update b r (b pid) := rfl

theorem mod_pageSize_lt (addr : Nat) : addr % pageSize < pageSize := Nat.mod_lt addr (Nat.succ_pos 4095)

def pageOffset (addr : Nat) : Fin pageSize := ⟨addr % pageSize, mod_pageSize_lt addr⟩

/-- The data pages of process 1, which boot puts behind those of the code. -/
def bootBytes (image : Nat → Fin pageSize → UInt8) : PrivateBytes :=
  fun _ addr => image (292 + 2 * (addr / pageSize - pagLogInitData)) (pageOffset addr)

structure KeepsData (m m' : Mm) (live : Slot → Prop) : Prop where
  content : ∀ t p, live t → DataPage p → content m' t p = content m t p
  user : ∀ t p, live t → DataPage p → (m'.pagusrTable t p).user = (m.pagusrTable t p).user

section Keeps
variable {m m' : Mm} {live : Slot → Prop}

theorem KeepsData.of_entries (ht : ∀ t p, live t → DataPage p → m'.pagusrTable t p = m.pagusrTable t p)
    (hr : ∀ t p, live t → DataPage p →
      m'.ram (m.pagusrTable t p).pbaseAddr = m.ram (m.pagusrTable t p).pbaseAddr) :
    KeepsData m m' live where
  content := by
    intro t p hl hp
    unfold Zeos.content
    rw [ht t p hl hp]
    exact hr t p hl hp
  user t p hl hp := by rw [ht t p hl hp]

theorem KeepsData.refl (m : Mm) (live : Slot → Prop) : KeepsData m m live :=
  ⟨fun _ _ _ _ => rfl, fun _ _ _ _ => rfl⟩

theorem KeepsData.setRw (m : Mm) (live : Slot → Prop) (t : Slot) (p : Nat) :
    KeepsData m (m.setEntry t p { m.pagusrTable t p with rw := true }) live := by
  have hentry : ∀ u q, (m.setEntry t p { m.pagusrTable t p with rw := true }).pagusrTable u q =
      { m.pagusrTable u q with
        rw := ((m.setEntry t p { m.pagusrTable t p with rw := true }).pagusrTable u q).rw } := by
    intro u q
    rw [Mm.setEntry_table]
    split
    · rename_i h
      rw [h.1, h.2]
    · rfl
  refine ⟨?_, ?_⟩
  · intro u q _ _
    unfold Zeos.content
    rw [hentry u q]
    rfl
  · intro u q _ _
    rw [hentry u q]

end Keeps

namespace SeparateFrames
variable {m m' : Mm} {live : Slot → Prop} {k k' : Kernel} {r : Int} {addr : Nat}

theorem pgfRoutine_keeps {pt : Slot} (h : SeparateFrames m live) (hok : Zeos.pgfRoutine m pt addr = .ok m') :
    KeepsData m m' live := by
  obtain ⟨t, p, _, _, _, _, ⟨_, rfl⟩ | ⟨hmany, _⟩⟩ := pgfRoutine_eq_ok hok
  · exact .setRw m live t p
  · exact absurd (h.taken t p) hmany

theorem userRetry_keeps {pt : Slot} {write may : Bool} (h : SeparateFrames m live)
    (hok : Zeos.userRetry m pt addr write = .ok (may, m')) : KeepsData m m' live := by
  rcases userRetry_eq_ok hok with ⟨_, rfl⟩ | ⟨_, hm, _⟩
  · exact .refl _ _
  · exact h.pgfRoutine_keeps hm

/-- Only its own addresses reach the data pages of a process. -/
theorem translate_owner {pt t : Slot} {a : Nat} (h : SeparateFrames m live) (hl : live t)
    (hp : DataPage (a / pageSize))
    (htr : translate m pt addr = .ok ((m.pagusrTable t (a / pageSize)).pbaseAddr, pageOffset a)) :
    pt = t ∧ addr = a := by
  obtain ⟨_, _, hframe, hoffset⟩ := translate_eq_ok htr
  obtain ⟨hpt, hpage⟩ := h.owner t (a / pageSize) pt (addr / pageSize) hl hp hframe
  have hmod : addr % pageSize = a % pageSize := hoffset.symm
  refine ⟨hpt, ?_⟩
  rw [← Nat.div_add_mod addr pageSize, ← Nat.div_add_mod a pageSize, hmod, hpage]

section Own
variable {t : Slot}

theorem translate_own (h : SeparateFrames m live) (hl : live t) (hp : DataPage (addr / pageSize)) :
    translate m t addr = .ok ((m.pagusrTable t (addr / pageSize)).pbaseAddr, pageOffset addr) := by
  rw [translate, if_pos ⟨data_lt hp, (h.data t _ hl hp).present⟩]
  rfl

end Own

end SeparateFrames

/-- The processes that may run have names of their own. -/
structure Named (s : Sched) (ls : Queue → List Slot) : Prop where
  next_lower : 2 ≤ s.nextPid
  live : ∀ t, Runnable s ls t → (s.task t).pid < s.nextPid
  unique : ∀ t u, Runnable s ls t → Runnable s ls u → (s.task t).pid = (s.task u).pid → t = u

/-- Every process that may run sees the bytes `b` in its data pages. -/
structure PrivateInv (b : PrivateBytes) (k : Kernel) (ls : Queue → List Slot) : Prop where
  copy : CopyInv k ls
  named : Named k.sched ls
  user : ∀ t p, Runnable k.sched ls t → DataPage p → (k.mm.pagusrTable t p).user = true
  bytes : ∀ t addr, Runnable k.sched ls t → DataPage (addr / pageSize) →
    content k.mm t (addr / pageSize) (pageOffset addr) = b (k.sched.task t).pid addr

theorem CopyInv.of_lists {k : Kernel} {ls ls' : Queue → List Slot} (h : CopyInv k ls)
    (hr : Queues k.sched.queues ls') : CopyInv k ls' := by
  have he : ls = ls' := by
    funext q
    exact Rings.unique h.queues.rings hr trivial
  rw [← he]
  exact h

namespace PrivateInv
variable {b : PrivateBytes} {k k' : Kernel} {ls ls' : Queue → List Slot} {r : Int}

theorem keep (h : PrivateInv b k ls) (hc : CopyInv k' ls') (hn : k'.sched.nextPid = k.sched.nextPid)
    (hr : ∀ t, Runnable k'.sched ls' t → Runnable k.sched ls t ∧
      (k'.sched.task t).pid = (k.sched.task t).pid)
    (hk : KeepsData k.mm k'.mm fun t => Runnable k'.sched ls' t) : PrivateInv b k' ls' where
  copy := hc
  named := by
    refine ⟨hn ▸ h.named.next_lower, ?_, ?_⟩
    · intro t ht
      rw [(hr t ht).2, hn]
      exact h.named.live t (hr t ht).1
    · intro t u ht hu he
      rw [(hr t ht).2, (hr u hu).2] at he
      exact h.named.unique t u (hr t ht).1 (hr u hu).1 he
  user := by
    intro t p ht hp
    rw [hk.user t p ht hp]
    exact h.user t p (hr t ht).1 hp
  bytes := by
    intro t addr ht hp
    rw [hk.content t _ ht hp, (hr t ht).2]
    exact h.bytes t addr (hr t ht).1 hp

theorem roles {s' : Sched} (h : PrivateInv b k ls) (hq : QueueInv s' ls')
    (hr : SameRoles k.sched s' ls ls') : PrivateInv b ⟨s', k.mm⟩ ls' :=
  h.keep (h.copy.roles hq hr) hr.nextPid (fun t ht => ⟨hr.runnable t ht, hr.pid t⟩) (.refl _ _)

theorem mem {m' : Mm} (h : PrivateInv b k ls)
    (hm : SeparateFrames m' (Runnable k.sched ls) ∧ m'.physMem = k.mm.physMem)
    (hk : KeepsData k.mm m' (Runnable k.sched ls)) : PrivateInv b ⟨k.sched, m'⟩ ls :=
  h.keep (h.copy.mem hm) rfl (fun _ ht => ⟨ht, rfl⟩) hk

theorem exit (h : PrivateInv b k ls) (ha : Awake k) (hok : sysExit k = .ok k') :
    ∃ ls', PrivateInv b k' ls' := by
  obtain ⟨s₁, m, q, s₂, ls', _, hfam, hm, hinv, hmv, _, rfl⟩ := sysExit_cases h.copy.queues ha hok
  rw [exitShared_eq h.copy.frames.shared] at hm
  cases hm
  obtain ⟨ls'', hc⟩ := h.copy.exit ha hok
  obtain ⟨_, _, hrun⟩ := retired_roles hfam hinv hmv
  have hfreed := h.copy.frames.freeUserPages_freed (t := k.sched.current) ⟨ha.1, .inl rfl⟩
  refine ⟨ls', h.keep (hc.of_lists hinv.rings) (hmv.nextPid.trans hfam.nextPid) ?_ ?_⟩
  · intro t ht
    obtain ⟨hrt, htc⟩ := hrun t ht
    refine ⟨hrt, ?_⟩
    calc (s₂.task t).pid = ((retired s₁ q).task t).pid := (hmv.task t).pid
      _ = (k.sched.task t).pid := by rw [retired_pid hfam, if_neg htc]
  · apply KeepsData.of_entries
    · intro t p ht _
      exact hfreed.other t p (.inl (hrun t ht).2)
    · intro t p _ _
      rw [hfreed.ram]

theorem leak {m' : Mm} {child : Slot} {rest : List Slot} {q : Heap QNode} {n : Nat} {pages fr : Nat → Nat}
    (h : PrivateInv b k ls) (hf : ls .freequeue = child :: rest) (hne : child ≠ k.sched.current)
    (hq : QueueInv (forked k.sched child q) (Function.update ls .freequeue rest)) (hn : n < numPagData)
    (hr : Reserving (forkBase k.mm k.sched.current child) m' k.sched.current child n pages fr) :
    PrivateInv b ⟨forked k.sched child q, m'⟩ (Function.update ls .freequeue rest) := by
  have hlive : ∀ t, Runnable (forked k.sched child q) (Function.update ls .freequeue rest) t →
      Runnable k.sched ls t ∧ t ≠ child := by
    intro t ht
    have hrun := runnable_of_taken h.copy.queues.rings hf ht
    refine ⟨hrun, ?_⟩
    rintro rfl
    exact h.copy.queues.free_not_runnable (by rw [hf]; exact List.mem_cons_self) hrun
  have hbase := forkBase_sameFrames k.mm hne.symm
  refine h.keep (h.copy.leak hf hne hq hn hr) rfl ?_ ?_
  · intro t ht
    obtain ⟨hrt, htc⟩ := hlive t ht
    exact ⟨hrt, by rw [forked_other q htc]⟩
  · apply KeepsData.of_entries
    · intro t p ht hp
      obtain ⟨_, htc⟩ := hlive t ht
      rw [hr.other t p (fun he => absurd he htc), forkBase_other k.mm hne.symm (.inl htc)]
      intro _ i hi he
      exact (region_disjoint (mem_freeRegion.mp (hr.page i hi)).1).1 (he ▸ hp)
    · intro t p _ _
      change m'.ram _ = _
      rw [hr.ram, hbase.ram]

theorem create {m' : Mm} {child : Slot} {rest : List Slot} {q q' : Heap QNode} {f : Heap FNode}
    {fr : Nat → Nat} (h : PrivateInv b k ls) (hf : ls .freequeue = child :: rest)
    (hu : UserRuns k) (hmax : k.sched.nextPid < 2147483647)
    (hq : QueueInv (linkedChild (forked k.sched child q) child q' f) (forkedLists ls child rest))
    (hd : Duplicated k.mm m' k.sched.current child fr) :
    PrivateInv (Function.update b k.sched.nextPid (b k.sched.pcb.pid))
      ⟨linkedChild (forked k.sched child q) child q' f, m'⟩ (forkedLists ls child rest) := by
  have hlow := h.named.next_lower
  have hlive : ∀ t, t ≠ child →
      Runnable (linkedChild (forked k.sched child q) child q' f) (forkedLists ls child rest) t →
      Runnable k.sched ls t := fun t htc ht => runnable_of_linked h.copy.queues.rings hf htc ht
  have hpid : ∀ t, t ≠ child →
      ((linkedChild (forked k.sched child q) child q' f).task t).pid = (k.sched.task t).pid := by
    intro t htc
    rw [linkedChild_other q' f htc, forked_other q htc]
  have hchild : ((linkedChild (forked k.sched child q) child q' f).task child).pid = k.sched.nextPid := by
    simp [linkedChild, childPcb]
  have hnext : (linkedChild (forked k.sched child q) child q' f).nextPid = k.sched.nextPid + 1 := by
    change int32 (k.sched.nextPid + 1) = _
    rw [int32_of_range (by omega) (by omega)]
  refine ⟨h.copy.create hf hq hd, ⟨?_, ?_, ?_⟩, ?_, ?_⟩
  · rw [hnext]
    omega
  · intro t ht
    rw [hnext]
    by_cases htc : t = child
    · rw [htc, hchild]
      omega
    · rw [hpid t htc]
      have := h.named.live t (hlive t htc ht)
      omega
  · intro t u ht hu' he
    by_cases htc : t = child
    · by_cases huc : u = child
      · rw [htc, huc]
      · rw [htc, hchild, hpid u huc] at he
        have := h.named.live u (hlive u huc hu')
        omega
    · by_cases huc : u = child
      · rw [huc, hchild, hpid t htc] at he
        have := h.named.live t (hlive t htc ht)
        omega
      · rw [hpid t htc, hpid u huc] at he
        exact h.named.unique t u (hlive t htc ht) (hlive u huc hu') he
  · intro t p ht hp
    by_cases htc : t = child
    · rw [htc]
      change (m'.pagusrTable child p).user = true
      rw [hd.data_page hp]
      rfl
    · change (m'.pagusrTable t p).user = true
      rw [hd.other t p htc]
      exact h.user t p (hlive t htc ht) hp
  · intro t addr ht hp
    by_cases htc : t = child
    · have hi := dataPage_index hp
      have hcopied := hd.copied _ hi.1
      rw [hi.2] at hcopied
      rw [htc, hchild, Function.update_self]
      have hsame : content m' child (addr / pageSize) = content k.mm k.sched.current (addr / pageSize) := by
        unfold content
        rw [hd.data_page hp, ssEntry_pbaseAddr (hd.fresh _ hi.1).upper, hcopied]
      change content m' child (addr / pageSize) (pageOffset addr) = _
      rw [hsame]
      exact h.bytes _ addr ⟨hu, .inl rfl⟩ hp
    · have hlt := h.named.live t (hlive t htc ht)
      rw [hpid t htc, Function.update_of_ne (by omega)]
      have hsame : content m' t (addr / pageSize) = content k.mm t (addr / pageSize) := by
        unfold content
        rw [hd.other t _ htc]
        apply hd.ram
        intro i hi
        exact h.copy.frames.taken_not_fresh (hd.fresh i hi) t _
      change content m' t (addr / pageSize) (pageOffset addr) = _
      rw [hsame]
      exact h.bytes t addr (hlive t htc ht) hp

theorem fork (h : PrivateInv b k ls) (ha : Awake k) (hmax : k.sched.nextPid < 2147483647)
    (hok : sysFork false k = .ok (r, k')) :
    ∃ ls', PrivateInv (b.after ⟨k.sched.pcb.pid, .fork, r⟩) k' ls' := by
  have hfail : b.after ⟨k.sched.pcb.pid, .fork, -enomem⟩ = b := by
    rw [PrivateBytes.after_fork, if_pos rfl]
  rcases sysFork_cases h.copy.queues ha.2 hok with ⟨_, rfl, rfl⟩ |
    ⟨child, rest, q, m, hf, hcur, hidle, hout, hinv, ⟨hm, rfl, rfl⟩ | ⟨hm, s, hl, rfl⟩⟩
  · rw [hfail]
    exact ⟨ls, h⟩
  · rw [hfail]
    rcases h.copy.forkMemory_cases ha.1 hf hcur with ⟨m', fr, hm', _⟩ | ⟨m', pages, fr, n, hn, hm', hr, _⟩
    · cases hm.symm.trans hm'
    · cases hm.symm.trans hm'
      exact ⟨_, h.leak hf hcur hinv hn hr⟩
  · rcases h.copy.forkMemory_cases ha.1 hf hcur with ⟨m', fr, hm', hd⟩ | ⟨m', pages, fr, n, hn, hm', _⟩
    · cases hm.symm.trans hm'
      obtain ⟨rfl, hinv', q', f, rfl⟩ := forkLink_queueInv hinv hout hcur hidle hl
      have hnew : (forked k.sched child q).nextPid ≠ -enomem := by
        have := h.named.next_lower
        simp only [forked_nextPid, enomem]
        omega
      have hafter : b.after ⟨k.sched.pcb.pid, .fork, (forked k.sched child q).nextPid⟩ =
          Function.update b k.sched.nextPid (b k.sched.pcb.pid) := by
        rw [PrivateBytes.after_fork, if_neg hnew]
        rfl
      rw [hafter]
      exact ⟨_, h.create hf ha.1 hmax hinv' hd⟩
    · cases hm.symm.trans hm'

/-- Bytes that a process writes through its own page table, wherever they land. -/
theorem wrote {m' : Mm} {a₀ : Nat} {bytes : List UInt8} (h : PrivateInv b k ls) (hu : UserRuns k)
    (hw : WroteOnly k.mm m' k.sched.current a₀ bytes) :
    PrivateInv (b.write k.sched.pcb.pid a₀ bytes) ⟨k.sched, m'⟩ ls := by
  have hcur : Runnable k.sched ls k.sched.current := ⟨hu, .inl rfl⟩
  have htab := hw.tables.pagusrTable
  refine ⟨h.copy.mem ⟨h.copy.frames.sameTables hw.tables, hw.tables.physMem⟩, h.named, ?_, ?_⟩
  · intro t p ht hp
    change (m'.pagusrTable t p).user = true
    rw [htab]
    exact h.user t p ht hp
  · intro t a ht hp
    change content m' t (a / pageSize) (pageOffset a) = _
    by_cases hmine : ∃ i < bytes.length, t = k.sched.current ∧ a₀ + i = a
    · obtain ⟨i, hi, rfl, ha⟩ := hmine
      have hbyte := loadBytes_byte hw.written (List.getElem?_eq_getElem hi)
      rw [ha, loadByte, translate_sameTables hw.tables, h.copy.frames.translate_own hcur hp] at hbyte
      refine Eq.trans ?_ (b.write_at ha (List.getElem?_eq_getElem hi)).symm
      unfold content
      rw [htab]
      exact Except.ok.inj hbyte
    · rw [b.write_other, ← h.bytes t a ht hp]
      · unfold content
        rw [htab]
        apply hw.others
        intro i hi htr
        obtain ⟨hpt, ha⟩ := h.copy.frames.translate_owner ht hp htr
        exact hmine ⟨i, hi, hpt.symm, ha⟩
      · intro i hi hpid ha
        exact hmine ⟨i, hi, h.named.unique t _ ht hcur hpid, ha⟩

theorem store {addr : Nat} {v : UInt8} (h : PrivateInv b k ls) (ha : Awake k)
    (hok : exec false (.store addr v) k = .ok (r, k')) :
    PrivateInv (b.after ⟨k.sched.pcb.pid, .store addr v, r⟩) k' ls := by
  obtain ⟨pt, may, m₁, m, hpt, hm, rfl, hout⟩ := exec_store_eq_ok hok
  obtain rfl : k.sched.current = pt := Except.ok.inj (h.copy.queues.getPT_current.symm.trans hpt)
  have h₁ := h.mem (h.copy.frames.userRetry hm) (h.copy.frames.userRetry_keeps hm)
  rcases hout with ⟨rfl, hstore⟩ | ⟨rfl, rfl⟩
  · exact h₁.wrote ha.1 (storeByte_wroteOnly hstore)
  · exact h₁

theorem read {a₀ : Nat} {maxchars : Int} {c : CircularBuffer} {kern : Staging} (h : PrivateInv b k ls)
    (ha : Awake k) (hok : exec false (.read a₀ maxchars c kern) k = .ok (r, k')) :
    PrivateInv (b.after ⟨k.sched.pcb.pid, .read a₀ maxchars c kern, r⟩) k' ls := by
  obtain ⟨pt, m, hpt, rfl, hout⟩ := exec_read_eq_ok hok
  obtain rfl : k.sched.current = pt := Except.ok.inj (h.copy.queues.getPT_current.symm.trans hpt)
  rcases hout with ⟨rfl, rfl⟩ | ⟨_, hr, hw⟩
  · exact h
  · have hafter : b.after ⟨k.sched.pcb.pid, .read a₀ maxchars c kern, r⟩ =
        b.write k.sched.pcb.pid a₀ (c.pending.take (uint32 maxchars)) := if_pos hr
    rw [hafter]
    exact h.wrote ha.1 hw

end PrivateInv

/-- The first `n` data pages of process 1 have their frames, one behind the other. -/
structure DataPlaced (m : Mm) (n : Nat) : Prop where
  allocated : Allocated m (18 + n)
  entry : ∀ i, i < n → m.pagusrTable 8 (pagLogInitData + i) = ssEntry (292 + 2 * i)

theorem setDataPages_placed {m : Mm} (h : Allocated m 18) : DataPlaced (setDataPages m 8) numPagData := by
  refine times_preserves (fun n m' => DataPlaced m' n) ?_ ⟨h, fun i hi => absurd hi (Nat.not_lt_zero i)⟩
  intro n m' hn hm
  have hn' : n < 20 := hn
  obtain ⟨hal, hal'⟩ := allocFrame_allocated hm.allocated (by omega)
  have hframe : uint32 ((256 + 2 * (18 + n) : Nat) : Int) = 292 + 2 * n := by
    rw [uint32_natCast (by omega)]
    omega
  dsimp only
  rw [hal]
  refine ⟨hal', ?_⟩
  intro i hi
  rw [Mm.setEntry_table, hframe]
  by_cases hin : i = n
  · rw [hin, if_pos ⟨rfl, rfl⟩]
  · rw [if_neg (fun hc => hin (Nat.add_left_cancel hc.2))]
    exact hm.entry i (by omega)

theorem PrivateInv.booted (image : Nat → Fin pageSize → UInt8) :
    PrivateInv (bootBytes image) ⟨bootState, bootMm image⟩ bootLists := by
  have hcode := setCodePages_spec (initMm_spec image)
  have hentry : ∀ p, DataPage p →
      (bootMm image).pagusrTable 8 p = ssEntry (292 + 2 * (p - pagLogInitData)) := by
    intro p hp
    obtain ⟨hi, he⟩ := dataPage_index hp
    have hplaced := (setDataPages_placed hcode.allocated).entry _ hi
    rw [he] at hplaced
    unfold bootMm setUserPages
    exact hplaced
  have hlive : ∀ t, Runnable bootState bootLists t → t = 8 := by
    rintro t ⟨_, ht | ht | ht⟩
    · exact ht.trans bootState_current
    · cases ht
    · cases ht
  have hpid : (bootState.task 8).pid = 1 := by decide +kernel
  have hnext : bootState.nextPid = 2 := rfl
  refine ⟨.booted (bootMm_separate image).1 (bootMm_separate image).2, ⟨hnext.ge, ?_, ?_⟩, ?_, ?_⟩
  · intro t ht
    rw [hlive t ht, hpid, hnext]
    decide
  · intro t u ht hu _
    rw [hlive t ht, hlive u hu]
  · intro t p ht hp
    rw [hlive t ht, hentry p hp]
    rfl
  · intro t addr ht hp
    have hupper : 292 + 2 * (addr / pageSize - pagLogInitData) < totalPages := by
      have := (dataPage_index hp).1
      simp only [numPagData, totalPages] at this ⊢
      omega
    unfold content
    rw [hlive t ht, hentry _ hp, ssEntry_pbaseAddr hupper, (bootMm_spec image).ram]
    rfl

end Zeos
