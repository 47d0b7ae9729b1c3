import Zeos.Circular
import Mathlib.Algebra.Group.Int.Defs

/-!
# What is typed is what is read

The ring refines a queue of at most 31 characters: the keyboard appends, `sys_read`
takes from the front. With so few characters `sys_read` never fills its staging
buffer, so that its two counters agree and one copy is enough.
-/

namespace Zeos

open Blocks Loops
set_option autoImplicit false

namespace CircularBuffer

def pending (c : CircularBuffer) : List UInt8 := RingBuffer.contents c.keys c.readIdx c.writeIdx

theorem pending_init (c : CircularBuffer) : c.init.pending = [] :=
  RingBuffer.contents_eq_nil.mpr rfl

theorem pending_lt (c : CircularBuffer) : c.pending.length < maxBuffSize :=
  RingBuffer.length_contents_lt ..

theorem isFull_iff {c : CircularBuffer} : c.isFull = true ↔ c.pending.length = maxBuffSize - 1 := by
  rw [isFull, beq_iff_eq, RingBuffer.next_eq_iff, pending, RingBuffer.length_contents]

theorem isEmpty_iff {c : CircularBuffer} : c.isEmpty = true ↔ c.pending = [] := by
  rw [isEmpty, beq_iff_eq, pending, RingBuffer.contents_eq_nil]

theorem put_full {c : CircularBuffer} (h : c.pending.length = maxBuffSize - 1) (x : UInt8) :
    c.put x = (c, false) := by
  rw [put, if_pos (isFull_iff.mpr h)]

theorem put_room {c : CircularBuffer} (h : c.pending.length ≠ maxBuffSize - 1) (x : UInt8) :
    (c.put x).2 = true ∧ (c.put x).1.pending = c.pending ++ [x] := by
  have hfull : ¬ c.isFull = true := fun hf => h (isFull_iff.mp hf)
  rw [put, if_neg hfull]
  refine ⟨rfl, RingBuffer.contents_push c.keys ?_ x⟩
  intro he
  exact hfull (beq_iff_eq.mpr he)

theorem get_cons {c : CircularBuffer} {x : UInt8} {rest : List UInt8} (h : c.pending = x :: rest) :
    ∃ c', c.get = some (x, c') ∧ c'.pending = rest := by
  have hempty : ¬ c.isEmpty = true := by
    rw [isEmpty_iff, h]
    exact List.cons_ne_nil x rest
  have hne : c.readIdx ≠ c.writeIdx := fun he => hempty (beq_iff_eq.mpr he)
  rw [pending, RingBuffer.contents_pop c.keys hne, List.cons.injEq] at h
  refine ⟨{ c with readIdx := RingBuffer.next c.readIdx }, ?_, h.2⟩
  rw [get, if_neg hempty, h.1]

end CircularBuffer

inductive RingCall where
  | put (item : UInt8)
  | get
  deriving DecidableEq, Repr

/-- The ring, with the numbers of calls that have returned 1. -/
structure Tally where
  ring : CircularBuffer
  puts : Nat
  gets : Nat

namespace Tally

def call (t : Tally) : RingCall → Tally
  | .put item =>
    let (ring, done) := t.ring.put item
    { t with ring := ring, puts := if done then t.puts + 1 else t.puts }
  | .get =>
    match t.ring.get with
    | none => t
    | some (_, ring) => { t with ring := ring, gets := t.gets + 1 }

def run (c : CircularBuffer) (calls : List RingCall) : Tally := calls.foldl call ⟨c.init, 0, 0⟩

/-- What `size` is documented to return. The field behind it is written by no `put`
and no `get`; it is the indices that keep count. -/
structure SizeAgrees (t : Tally) : Prop where
  counts : t.ring.size = t.puts - t.gets
  distance : t.ring.size = ((t.ring.writeIdx.val : Int) - t.ring.readIdx.val) % maxBuffSize
  empty : t.ring.size = 0 ↔ t.ring.isEmpty = true
  full : t.ring.size = maxBuffSize - 1 ↔ t.ring.isFull = true

structure Balanced (t : Tally) : Prop where
  stored : t.ring.size = 0
  count : t.gets + t.ring.pending.length = t.puts

section Calls
variable {t : Tally}

theorem call_balanced (h : Balanced t) (call : RingCall) : Balanced (t.call call) := by
  cases call with
  | put item =>
    by_cases hfull : t.ring.pending.length = maxBuffSize - 1
    · have hput := CircularBuffer.put_full hfull item
      refine ⟨?_, ?_⟩
      · simp only [Tally.call, hput]
        exact h.stored
      · simp only [Tally.call, hput]
        exact h.count
    · obtain ⟨hdone, hpending⟩ := CircularBuffer.put_room hfull item
      have hsize : (t.ring.put item).1.size = t.ring.size := by
        unfold CircularBuffer.put
        split <;> rfl
      have hcount := h.count
      refine ⟨hsize.trans h.stored, ?_⟩
      simp only [Tally.call, hdone, hpending, if_true, List.length_append, List.length_singleton]
      omega
  | get =>
    cases hp : t.ring.pending with
    | nil =>
      have hget : t.ring.get = none := by
        rw [CircularBuffer.get, if_pos (CircularBuffer.isEmpty_iff.mpr hp)]
      simp only [Tally.call, hget]
      exact h
    | cons x rest =>
      obtain ⟨c, hget, hrest⟩ := CircularBuffer.get_cons hp
      have hsize : c.size = t.ring.size := by
        unfold CircularBuffer.get at hget
        split at hget
        · cases hget
        · cases hget
          rfl
      have hcount := h.count
      rw [hp, List.length_cons] at hcount
      simp only [Tally.call, hget]
      refine ⟨hsize.trans h.stored, ?_⟩
      simp only [hrest]
      omega

theorem run_balanced (c : CircularBuffer) (calls : List RingCall) : Balanced (run c calls) := by
  have hall : ∀ t, Balanced t → Balanced (calls.foldl call t) := by
    induction calls with
    | nil => exact fun t h => h
    | cons a calls ih => exact fun t h => ih (t.call a) (call_balanced h a)
  apply hall
  refine ⟨rfl, ?_⟩
  rw [CircularBuffer.pending_init]
  rfl

/-- The difference of the counts is the distance of the indices. -/
theorem Balanced.distance (h : Balanced t) :
    (t.puts : Int) - t.gets = ((t.ring.writeIdx.val : Int) - t.ring.readIdx.val) % maxBuffSize := by
  have hcount := h.count
  rw [CircularBuffer.pending, RingBuffer.length_contents] at hcount
  rw [← RingBuffer.used_eq_emod]
  omega

theorem Balanced.sizeAgrees_iff (h : Balanced t) : SizeAgrees t ↔ t.ring.isEmpty = true := by
  constructor
  · intro ha
    exact ha.empty.mp h.stored
  · intro he
    have hpending := CircularBuffer.isEmpty_iff.mp he
    have hcount := h.count
    rw [hpending, List.length_nil] at hcount
    refine ⟨?_, ?_, ?_, ?_⟩
    · rw [h.stored]
      omega
    · rw [h.stored, ← h.distance]
      omega
    · exact iff_of_true h.stored he
    · rw [h.stored, CircularBuffer.isFull_iff, hpending]
      decide

theorem calls_empty {calls : List RingCall} (h : t.ring.isEmpty = true)
    (hcalls : ∀ item, RingCall.put item ∉ calls) : (calls.foldl call t).ring.isEmpty = true := by
  induction calls with
  | nil => exact h
  | cons a calls ih =>
    cases a with
    | put item => exact absurd List.mem_cons_self (hcalls item)
    | get =>
      have hget : t.call .get = t := by
        simp only [Tally.call, CircularBuffer.get, h, if_true]
      rw [List.foldl_cons, hget]
      exact ih fun item hm => hcalls item (List.mem_cons_of_mem _ hm)

theorem put_not_empty (h : t.ring.isEmpty = true) (item : UInt8) :
    ¬ (t.call (.put item)).ring.isEmpty = true := by
  have hroom : t.ring.pending.length ≠ maxBuffSize - 1 := by
    rw [CircularBuffer.isEmpty_iff.mp h]
    decide
  have hpending := (CircularBuffer.put_room hroom item).2
  rw [CircularBuffer.isEmpty_iff]
  change ¬ (t.ring.put item).1.pending = []
  rw [hpending]
  simp

end Calls

/-- Puts and gets balance as the indices say, whatever the calls. `size` agrees with them
exactly when the ring is empty, and thus all along a run exactly when nothing is put. -/
theorem size_agrees_iff (c : CircularBuffer) (calls : List RingCall) :
    (SizeAgrees (run c calls) ↔ (run c calls).ring.isEmpty = true) ∧
    ((∀ k, SizeAgrees (run c (calls.take k))) ↔ ∀ item, RingCall.put item ∉ calls) ∧
    ((run c calls).puts : Int) - (run c calls).gets =
      (((run c calls).ring.writeIdx.val : Int) - (run c calls).ring.readIdx.val) % maxBuffSize := by
  refine ⟨(run_balanced c calls).sizeAgrees_iff, ⟨?_, ?_⟩, (run_balanced c calls).distance⟩
  · intro h item hm
    obtain ⟨before, after, rfl⟩ := List.append_of_mem hm
    have hbefore : SizeAgrees (run c before) := by
      simpa using h before.length
    have hafter : SizeAgrees ((run c before).call (.put item)) := by
      simpa [run, List.take_length_add_append] using h (before.length + 1)
    have hempty := (run_balanced c before).sizeAgrees_iff.mp hbefore
    have hcalled := call_balanced (run_balanced c before) (.put item)
    exact put_not_empty hempty item (hcalled.sizeAgrees_iff.mp hafter)
  · intro h k
    apply (run_balanced c _).sizeAgrees_iff.mpr
    apply calls_empty
    · rfl
    · exact fun item hm => h item (List.mem_of_mem_take hm)

theorem size_misses_put : ¬ SizeAgrees (run ⟨fun _ => 0, 0, 0, 0⟩ [.put 97]) := by
  intro h
  exact absurd h.counts (by decide)

end Tally

/-- From index `p` on the staging buffer holds these bytes. -/
def Staged (kern : Staging) (p : Nat) (bytes : List UInt8) : Prop :=
  ∀ k v, bytes[k]? = some v → loadStaging kern (p + k) = .ok v

theorem Staged.head {kern : Staging} {p : Nat} {v : UInt8} {bytes : List UInt8}
    (h : Staged kern p (v :: bytes)) : loadStaging kern p = .ok v := h 0 v rfl

theorem Staged.tail {kern : Staging} {p : Nat} {v : UInt8} {bytes : List UInt8}
    (h : Staged kern p (v :: bytes)) : Staged kern (p + 1) bytes := by
  intro k w hk
  rw [Nat.add_assoc, Nat.add_comm 1 k]
  exact h (k + 1) w hk

theorem Staged.push {kern : Staging} {bytes : List UInt8} (h : Staged kern 0 bytes)
    (hroom : bytes.length < maxBufferSize) (v : UInt8) :
    ∃ kern', storeStaging kern bytes.length v = .ok kern' ∧ Staged kern' 0 (bytes ++ [v]) := by
  refine ⟨_, dif_pos hroom, ?_⟩
  intro k w hk
  rw [Nat.zero_add]
  rcases Nat.lt_trichotomy k bytes.length with hlt | rfl | hgt
  · rw [List.getElem?_append_left hlt] at hk
    have hold := h k w hk
    rw [Nat.zero_add] at hold
    unfold loadStaging at hold ⊢
    split at hold
    · rename_i hb
      rw [dif_pos hb, Function.update_of_ne (fun he => hlt.ne (Fin.ext_iff.mp he))]
      exact hold
    · cases hold
  · rw [List.getElem?_append_right le_rfl, Nat.sub_self] at hk
    cases hk
    rw [loadStaging, dif_pos hroom, Function.update_self]
  · rw [List.getElem?_eq_none (by rw [List.length_append, List.length_singleton]; omega)] at hk
    cases hk

/-- The stores of `copy_to_user`, one byte after the other. -/
def storeBytes (m : Mm) (pt : Slot) : Nat → List UInt8 → Except Fault Mm
  | _, [] => .ok m
  | addr, v :: bytes => do
    let m ← storeByte m pt addr v
    storeBytes m pt (addr + 1) bytes

section Copies
variable {kern : Staging} {pt : Slot}

/-- From `kern_buff` to a page. -/
def fromStaging (kern : Staging) (pt : Slot) : Machine Fault Mm Nat UInt8 :=
  { paged pt with load := fun _ p => loadStaging kern p }

theorem copyToUser_eq_moveBlock (m : Mm) (p q : Nat) (size : Int) :
    copyToUser kern m pt p q size = moveBlock (fromStaging kern pt) m p q size := by
  apply eq_moveBlock (f := fun m p q size => copyToUserWords kern m pt p q size)
    (g := fun m p q size => copyToUserBytes kern m pt p q size)
  · intro m p q size
    rw [copyToUserWords]
    simp only [loadWord, bind_assoc, pure_bind]
    rfl
  · intro m p q size
    rw [copyToUserBytes]
    rfl

theorem storeAll_fromStaging (m : Mm) (q : Nat) (bytes : List UInt8) :
    storeAll (fromStaging kern pt) m q bytes = storeBytes m pt q bytes := by
  induction bytes generalizing m q with
  | nil => rfl
  | cons v bytes ih =>
    rw [storeAll, storeBytes]
    congr 1
    funext m'
    exact ih m' (q + 1)

theorem copyToUser_eq {bytes : List UInt8} {p : Nat} (m : Mm) (pt : Slot) (q : Nat)
    (h : Staged kern p bytes) :
    copyToUser kern m pt p q bytes.length = storeBytes m pt q bytes := by
  have hholds : Holds (fromStaging kern pt) p bytes := fun _ k v hk => h k v hk
  rw [copyToUser_eq_moveBlock, moveBlock_eq_storeAll hholds, storeAll_fromStaging]

/-- The bytes of the buffer hold what was stored, and no other byte has changed.
Two addresses of the buffer never share a byte, even if two of its pages share a frame. -/
theorem storeBytes_spec {bytes : List UInt8} {m : Mm} {addr : Nat} (hlen : bytes.length ≤ pageSize)
    (hmap : ∀ k < bytes.length, ∃ loc, translate m pt (addr + k) = .ok loc) :
    ∃ m', storeBytes m pt addr bytes = .ok m' ∧ SameTables m m' ∧
      (∀ k v, bytes[k]? = some v → loadByte m' pt (addr + k) = .ok v) ∧
      ∀ f o, (∀ k < bytes.length, translate m pt (addr + k) ≠ .ok (f, o)) →
        m'.ram f o = m.ram f o := by
  induction bytes generalizing m addr with
  | nil =>
    refine ⟨m, rfl, .refl m, fun k v hk => ?_, fun _ _ _ => rfl⟩
    cases hk
  | cons v bytes ih =>
    rw [List.length_cons] at hlen hmap
    obtain ⟨⟨f₀, o₀⟩, h₀⟩ := hmap 0 (Nat.succ_pos _)
    rw [Nat.add_zero] at h₀
    have hstore : storeByte m pt addr v = .ok (setByte m f₀ o₀ v) := by
      rw [storeByte, h₀]
      rfl
    have hsame := storeByte_sameTables hstore
    have hnext : ∀ k, translate (setByte m f₀ o₀ v) pt (addr + 1 + k) =
        translate m pt (addr + (k + 1)) := by
      intro k
      rw [translate_sameTables hsame, Nat.add_assoc, Nat.add_comm 1 k]
    have hmap' : ∀ k < bytes.length, ∃ loc, translate (setByte m f₀ o₀ v) pt (addr + 1 + k) = .ok loc := by
      intro k hk
      rw [hnext]
      exact hmap (k + 1) (by omega)
    obtain ⟨m', hm', hsame', hload, hother⟩ := ih (by omega) hmap'
    refine ⟨m', by rw [storeBytes, hstore, ok_bind, hm'], hsame.trans hsame', ?_, ?_⟩
    · intro k w hk
      cases k with
      | zero =>
        cases hk
        have hkept : m'.ram f₀ o₀ = v := by
          rw [hother f₀ o₀ ?_]
          · simp [setByte]
          · intro k hk he
            rw [hnext] at he
            have hoff := (translate_eq_ok he).2.2.2.symm.trans (translate_eq_ok h₀).2.2.2
            simp only [pageSize] at hoff hlen
            omega
        rw [loadByte, Nat.add_zero, translate_sameTables (hsame.trans hsame'), h₀, ← hkept]
        rfl
      | succ k =>
        have := hload k w hk
        rw [Nat.add_assoc, Nat.add_comm 1 k] at this
        exact this
    · intro f o hno
      simp only [List.length_cons] at hno
      have hfirst := hno 0 (Nat.succ_pos _)
      rw [Nat.add_zero, h₀] at hfirst
      rw [hother f o fun k hk he => hno (k + 1) (by omega) (hnext k ▸ he)]
      have hne : ¬ (f = f₀ ∧ o = o₀) := by
        rintro ⟨rfl, rfl⟩
        exact hfirst rfl
      simp only [setByte]
      by_cases hf : f = f₀
      · subst hf
        rw [Function.update_self, Function.update_of_ne (fun ho => hne ⟨rfl, ho⟩)]
      · rw [Function.update_of_ne hf]

theorem storeBytes_mapped {bytes : List UInt8} {m m' : Mm} {addr : Nat}
    (h : storeBytes m pt addr bytes = .ok m') :
    ∀ k < bytes.length, ∃ loc, translate m pt (addr + k) = .ok loc := by
  induction bytes generalizing m addr with
  | nil =>
    intro k hk
    exact absurd hk (Nat.not_lt_zero k)
  | cons v bytes ih =>
    obtain ⟨m₁, hstore, h⟩ := bind_eq_ok.mp h
    intro k hk
    cases k with
    | zero =>
      obtain ⟨loc, hloc, _⟩ := bind_eq_ok.mp hstore
      exact ⟨loc, hloc⟩
    | succ k =>
      obtain ⟨loc, hloc⟩ := ih h k (Nat.lt_of_succ_lt_succ hk)
      rw [translate_sameTables (storeByte_sameTables hstore), Nat.add_assoc, Nat.add_comm 1 k] at hloc
      exact ⟨loc, hloc⟩

theorem loadBytes_eq {bytes : List UInt8} {m : Mm} {addr : Nat}
    (h : ∀ k v, bytes[k]? = some v → loadByte m pt (addr + k) = .ok v) :
    loadBytes m pt addr bytes.length = .ok bytes := by
  induction bytes generalizing addr with
  | nil => rfl
  | cons v bytes ih =>
    have hrest : loadBytes m pt (addr + 1) bytes.length = .ok bytes := by
      apply ih
      intro k w hk
      rw [Nat.add_assoc, Nat.add_comm 1 k]
      exact h (k + 1) w hk
    have hfirst : loadByte m pt addr = .ok v := h 0 v rfl
    rw [List.length_cons, loadBytes, hfirst, ok_bind, hrest]
    rfl

theorem loadBytes_byte {bytes : List UInt8} {m : Mm} {addr n : Nat}
    (h : loadBytes m pt addr n = .ok bytes) {i : Nat} {v : UInt8} (hi : bytes[i]? = some v) :
    loadByte m pt (addr + i) = .ok v := by
  induction n generalizing addr bytes i with
  | zero =>
    cases h
    cases hi
  | succ n ih =>
    obtain ⟨w, hw, h⟩ := bind_eq_ok.mp h
    obtain ⟨rest, hrest, h⟩ := bind_eq_ok.mp h
    cases h
    cases i with
    | zero =>
      cases hi
      exact hw
    | succ i =>
      rw [Nat.add_comm i 1, ← Nat.add_assoc]
      exact ih hrest hi

end Copies

/-- So many characters are in the staging buffer, and nothing has been copied yet. -/
structure Collected (s : ReadState) (chars : List UInt8) : Prop where
  numChars : s.numChars = chars.length
  index : s.index = chars.length
  numReads : s.numReads = 0
  staged : Staged s.kern 0 chars

section Reads
variable {pt : Slot} {b : Nat} {s : ReadState} {chars : List UInt8}

theorem readStep_collects (pt : Slot) (b : Nat) (h : Collected s chars) {x : UInt8} {rest : List UInt8}
    (hp : s.cbuff.pending = x :: rest) (hroom : chars.length + 1 < maxBufferSize) :
    ∃ s', readStep pt b s = .ok s' ∧ Collected s' (chars ++ [x]) ∧ s'.cbuff.pending = rest ∧
      s'.mm = s.mm := by
  obtain ⟨c, hget, hrest⟩ := CircularBuffer.get_cons hp
  obtain ⟨kern, hstore, hstaged⟩ := h.staged.push (by omega) x
  have hchar : readChar s = .ok { s with cbuff := c, kern := kern } := by
    simp only [readChar, hget, h.numChars, hstore, ok_bind, pure_eq_ok]
  have hindex : s.index + 1 ≠ maxBufferSize := by
    rw [h.index]
    omega
  refine ⟨{ s with cbuff := c, kern := kern, numChars := s.numChars + 1, index := s.index + 1 },
    ?_, ⟨?_, ?_, h.numReads, hstaged⟩, hrest, rfl⟩
  · rw [readStep, hchar, ok_bind]
    exact if_neg hindex
  · rw [List.length_append, List.length_singleton, h.numChars]
  · rw [List.length_append, List.length_singleton, h.index]

theorem readLoop_collects (pt : Slot) (b left : Nat) (h : Collected s chars)
    (hroom : chars.length + s.cbuff.pending.length < maxBuffSize) :
    ∃ s', readLoop pt b left s = .ok s' ∧
      Collected s' (chars ++ s.cbuff.pending.take left) ∧
      s'.cbuff.pending = s.cbuff.pending.drop left ∧ s'.mm = s.mm := by
  induction left generalizing s chars with
  | zero =>
    refine ⟨s, rfl, ?_, rfl, rfl⟩
    rw [List.take_zero, List.append_nil]
    exact h
  | succ left ih =>
    cases hp : s.cbuff.pending with
    | nil =>
      refine ⟨s, ?_, ?_, hp, rfl⟩
      · rw [readLoop, if_pos (CircularBuffer.isEmpty_iff.mpr hp)]
      · rw [List.take_nil, List.append_nil]
        exact h
    | cons x rest =>
      have hempty : ¬ s.cbuff.isEmpty = true := by
        rw [CircularBuffer.isEmpty_iff, hp]
        exact List.cons_ne_nil x rest
      rw [hp, List.length_cons] at hroom
      have hroom' : chars.length + 1 < maxBufferSize := by
        simp only [maxBuffSize, maxBufferSize] at hroom ⊢
        omega
      obtain ⟨s₁, hstep, hcol, hrest, hmm⟩ := readStep_collects pt b h hp hroom'
      obtain ⟨s', hloop, hcol', hdrop, hmm'⟩ := ih hcol (by
        rw [hrest, List.length_append, List.length_singleton]
        omega)
      refine ⟨s', ?_, ?_, ?_, hmm'.trans hmm⟩
      · rw [readLoop, if_neg hempty, hstep, ok_bind]
        exact hloop
      · rw [hrest, List.append_assoc, List.singleton_append] at hcol'
        rw [List.take_succ_cons]
        exact hcol'
      · rw [hdrop, hrest, List.drop_succ_cons]

def MappedWritable (m : Mm) (pt : Slot) (addr : Nat) : Prop :=
  addr / pageSize < totalPages ∧ (m.pagusrTable pt (addr / pageSize)).present = true ∧
    (m.pagusrTable pt (addr / pageSize)).rw = true

theorem MappedWritable.translate {m : Mm} {addr : Nat} (h : MappedWritable m pt addr) :
    ∃ loc, translate m pt addr = .ok loc := ⟨_, if_pos ⟨h.1, h.2.1⟩⟩

/-- What `sys_read` does to memory: exactly the bytes `b[0..n)` are written. -/
structure WroteOnly (m m' : Mm) (pt : Slot) (b : Nat) (bytes : List UInt8) : Prop where
  tables : SameTables m m'
  written : loadBytes m' pt b bytes.length = .ok bytes
  others : ∀ f o, (∀ k < bytes.length, translate m pt (b + k) ≠ .ok (f, o)) → m'.ram f o = m.ram f o

theorem storeBytes_wroteOnly {m : Mm} {bytes : List UInt8} (hlen : bytes.length ≤ pageSize)
    (hmap : ∀ k < bytes.length, ∃ loc, translate m pt (b + k) = .ok loc) :
    ∃ m', storeBytes m pt b bytes = .ok m' ∧ WroteOnly m m' pt b bytes := by
  obtain ⟨m', hstore, hsame, hload, hother⟩ := storeBytes_spec hlen hmap
  exact ⟨m', hstore, hsame, loadBytes_eq hload, hother⟩

theorem storeByte_wroteOnly {m m' : Mm} {v : UInt8} (h : storeByte m pt b v = .ok m') :
    WroteOnly m m' pt b [v] := by
  have hstore : storeBytes m pt b [v] = .ok m' := by rw [storeBytes, h, ok_bind, storeBytes]
  have hlen : [v].length ≤ pageSize := Nat.succ_le_succ (Nat.zero_le 4095)
  obtain ⟨m₁, hm₁, hwrote⟩ := storeBytes_wroteOnly hlen (storeBytes_mapped hstore)
  cases hstore.symm.trans hm₁
  exact hwrote

theorem flushRest_eq (pt : Slot) (b : Nat) (h : Collected s chars) :
    flushRest pt b s = storeBytes s.mm pt b chars >>= fun m => .ok { s with mm := m } := by
  unfold flushRest
  split
  · simp only [flushRead, h.index, h.numReads, Nat.zero_mul, Nat.add_zero, copyToUser_eq s.mm pt b h.staged,
      pure_eq_ok]
  · rename_i hzero
    have hnil : chars = [] := by
      rw [← List.length_eq_zero_iff, ← h.index]
      exact not_not.mp hzero
    subst hnil
    rfl

theorem readLoop_empty (pt : Slot) (b left : Nat) (h : s.cbuff.pending = []) :
    readLoop pt b left s = .ok s := by
  cases left with
  | zero => rfl
  | succ left => rw [readLoop, if_pos (CircularBuffer.isEmpty_iff.mpr h)]

/-- A read that passes the check stores the first characters of the queue, as many
as its unsigned argument says. -/
theorem sysRead_eq {m : Mm} {maxchars : Int} (c : CircularBuffer) (kern : Staging)
    (hok : accessOk m pt .verifyWrite b (uint32 maxchars) = .ok true) :
    ∃ c' : CircularBuffer, c'.pending = c.pending.drop (uint32 maxchars) ∧
      (c.pending = [] → c' = c) ∧
      sysRead c m pt b maxchars kern =
        storeBytes m pt b (c.pending.take (uint32 maxchars)) >>= fun m' =>
          .ok (c', m', ((c.pending.take (uint32 maxchars)).length : Int)) := by
  have hpend := c.pending_lt
  have hstart : Collected ⟨c, kern, m, 0, 0, 0⟩ [] :=
    ⟨rfl, rfl, rfl, fun k v hk => by cases hk⟩
  obtain ⟨s₁, hloop, hcol, hdrop, hmm⟩ : ∃ s₁,
      readLoop pt b (uint32 maxchars) ⟨c, kern, m, 0, 0, 0⟩ = .ok s₁ ∧
      Collected s₁ (c.pending.take (uint32 maxchars)) ∧
      s₁.cbuff.pending = c.pending.drop (uint32 maxchars) ∧ s₁.mm = m := by
    simpa using readLoop_collects pt b (uint32 maxchars) hstart (by simpa using hpend)
  have hint : int32 (s₁.numChars : Int) = ((c.pending.take (uint32 maxchars)).length : Int) := by
    rw [hcol.numChars]
    have hlen : (c.pending.take (uint32 maxchars)).length ≤ c.pending.length := List.length_take_le' ..
    simp only [maxBuffSize] at hpend
    exact int32_of_range (by omega) (by omega)
  refine ⟨s₁.cbuff, hdrop, ?_, ?_⟩
  · intro hnil
    cases hloop.symm.trans (readLoop_empty pt b _ hnil)
    rfl
  · rw [sysRead, hok, ok_bind, if_pos rfl, hloop, ok_bind, flushRest_eq pt b hcol, hmm, bind_assoc]
    simp only [ok_bind, hint, pure_eq_ok]

theorem sysRead_cases {c c' : CircularBuffer} {m m' : Mm} {maxchars n : Int} {kern : Staging}
    (h : sysRead c m pt b maxchars kern = .ok (c', m', n)) :
    (c' = c ∧ m' = m ∧ n = -efault) ∨
    (accessOk m pt .verifyWrite b (uint32 maxchars) = .ok true ∧
      n = ((c.pending.take (uint32 maxchars)).length : Int) ∧ (c.pending = [] → c' = c) ∧
      (∀ k < (c.pending.take (uint32 maxchars)).length, ∃ loc, translate m pt (b + k) = .ok loc) ∧
      WroteOnly m m' pt b (c.pending.take (uint32 maxchars))) := by
  obtain ⟨ok, hok, hrest⟩ := bind_eq_ok.mp h
  cases ok with
  | false =>
    cases hrest
    exact .inl ⟨rfl, rfl, rfl⟩
  | true =>
    obtain ⟨c₁, _, hempty, heq⟩ := sysRead_eq c kern hok
    rw [heq] at h
    obtain ⟨m₁, hstore, h⟩ := bind_eq_ok.mp h
    cases h
    have hmap := storeBytes_mapped hstore
    have hpend := c.pending_lt
    have hlen : (c.pending.take (uint32 maxchars)).length ≤ c.pending.length := List.length_take_le' ..
    obtain ⟨m₂, hstore', hwrote⟩ := storeBytes_wroteOnly
      (by simp only [maxBuffSize, pageSize] at hpend ⊢; omega) hmap
    cases hstore.symm.trans hstore'
    exact .inr ⟨hok, rfl, hempty, hmap, hwrote⟩

theorem WroteOnly.changed {m m' : Mm} {bytes : List UInt8} (h : WroteOnly m m' pt b bytes) {f : Nat}
    {o : Fin pageSize} (hne : m'.ram f o ≠ m.ram f o) :
    ∃ k < bytes.length, translate m pt (b + k) = .ok (f, o) := by
  by_contra hno
  apply hne
  apply h.others
  intro k hk he
  exact hno ⟨k, hk, he⟩

theorem sysRead_spec {c : CircularBuffer} {m : Mm} {maxchars : Int} (kern : Staging)
    (h0 : 0 ≤ maxchars) (h31 : maxchars < 2 ^ 31)
    (hok : accessOk m pt .verifyWrite b (uint32 maxchars) = .ok true)
    (hmap : ∀ k < maxchars.toNat, MappedWritable m pt (b + k)) :
    ∃ c' m', sysRead c m pt b maxchars kern =
        .ok (c', m', ((min maxchars.toNat c.pending.length : Nat) : Int)) ∧
      c'.pending = c.pending.drop maxchars.toNat ∧
      WroteOnly m m' pt b (c.pending.take maxchars.toNat) := by
  have hsize : uint32 maxchars = maxchars.toNat := by
    unfold uint32
    omega
  have hpend := c.pending_lt
  have hlen : (c.pending.take maxchars.toNat).length = min maxchars.toNat c.pending.length :=
    List.length_take
  obtain ⟨c', hdrop, _, hread⟩ := sysRead_eq c kern hok
  rw [hsize] at hdrop hread
  have hmap' : ∀ k < (c.pending.take maxchars.toNat).length, ∃ loc, translate m pt (b + k) = .ok loc :=
    fun k hk => (hmap k (by omega)).translate
  obtain ⟨m', hstore, hwrote⟩ := storeBytes_wroteOnly
    (by simp only [maxBuffSize, pageSize] at hpend ⊢; omega) hmap'
  refine ⟨c', m', ?_, hdrop, hwrote⟩
  rw [hread, hstore, ok_bind, hlen]

end Reads

/-- What the code relies on: a scan code inside `char_map`, and a buffer that passes
the check of `sys_read` and is mapped. -/
def Acceptable (s : Console) : ConsoleEvent → Prop
  | .key byte => isBreak byte = false → (scanCode byte).toNat < charMap.length
  | .read pt b maxchars _ => 0 ≤ maxchars ∧ maxchars < 2 ^ 31 ∧
    accessOk s.mm pt .verifyWrite b (uint32 maxchars) = .ok true ∧
    ∀ k < maxchars.toNat, MappedWritable s.mm pt (b + k)
  | .memory _ => True

/-- What one event does, in terms of the queue. -/
def Served (s : Console) (s' : Console) (shown : Shown) : ConsoleEvent → Prop
  | .key byte => s'.mm = s.mm ∧
    if isBreak byte then s'.cbuff = s.cbuff ∧ shown.accepted = []
    else if s.cbuff.pending.length = maxBuffSize - 1 then s'.cbuff = s.cbuff ∧ shown.accepted = []
    else charMap[(scanCode byte).toNat]?.toList = shown.accepted ∧ shown.accepted ≠ [] ∧
      s'.cbuff.pending = s.cbuff.pending ++ shown.accepted
  | .read pt b maxchars _ =>
    shown.result = min maxchars s.cbuff.pending.length ∧
    shown.delivered = s.cbuff.pending.take shown.result.toNat ∧
    s'.cbuff.pending = s.cbuff.pending.drop shown.result.toNat ∧
    WroteOnly s.mm s'.mm pt b shown.delivered
  | .memory m => s'.mm = m ∧ s'.cbuff = s.cbuff

section Runs
variable {s : Console}

theorem key_served {byte : UInt8} (h : Acceptable s (.key byte)) :
    ∃ s' shown, consoleStep s (.key byte) = .ok (s', shown) ∧ Served s s' shown (.key byte) ∧
      shown.delivered ++ s'.cbuff.pending = s.cbuff.pending ++ shown.accepted := by
  by_cases hbreak : isBreak byte = true
  · refine ⟨s, ⟨[], [], 0⟩, ?_, ?_, ?_⟩
    · simp only [consoleStep, kbdRoutine, acceptedChar, hbreak, if_true, ok_bind, pure_eq_ok]
    · simp [Served, hbreak]
    · exact (List.append_nil _).symm
  · have hmake := Bool.eq_false_iff.mpr hbreak
    obtain ⟨character, hchar⟩ : ∃ character, charMap[(scanCode byte).toNat]? = some character :=
      ⟨_, List.getElem?_eq_getElem (h hmake)⟩
    by_cases hfull : s.cbuff.pending.length = maxBuffSize - 1
    · have hput := CircularBuffer.put_full hfull character
      refine ⟨s, ⟨[], [], 0⟩, ?_, ?_, (List.append_nil _).symm⟩
      · simp [consoleStep, kbdRoutine, acceptedChar, hmake, hchar, hput]
      · simp [Served, hmake, hfull]
    · obtain ⟨haccepted, hpending⟩ := CircularBuffer.put_room hfull character
      refine ⟨{ s with cbuff := (s.cbuff.put character).1 }, ⟨[character], [], 0⟩, ?_, ?_, hpending⟩
      · simp [consoleStep, kbdRoutine, acceptedChar, hmake, hchar, haccepted]
      · simpa [Served, hmake, hchar, hpending] using hfull

theorem read_served {pt : Slot} {b : Nat} {maxchars : Int} {kern : Staging}
    (h : Acceptable s (.read pt b maxchars kern)) :
    ∃ s' shown, consoleStep s (.read pt b maxchars kern) = .ok (s', shown) ∧
      Served s s' shown (.read pt b maxchars kern) ∧
      shown.delivered ++ s'.cbuff.pending = s.cbuff.pending ++ shown.accepted := by
  obtain ⟨h0, h31, hok, hmap⟩ := h
  obtain ⟨c, m, hread, hdrop, hwrote⟩ := sysRead_spec (c := s.cbuff) kern h0 h31 hok hmap
  have hmin : ((min maxchars.toNat s.cbuff.pending.length : Nat) : Int) =
      min maxchars s.cbuff.pending.length := by
    omega
  have htake : s.cbuff.pending.take (min maxchars.toNat s.cbuff.pending.length) =
      s.cbuff.pending.take maxchars.toNat := List.take_eq_take_min.symm
  have hdrop' : s.cbuff.pending.drop (min maxchars.toNat s.cbuff.pending.length) =
      s.cbuff.pending.drop maxchars.toNat := List.drop_eq_drop_min.symm
  have hload := hwrote.written
  rw [List.length_take] at hload
  refine ⟨⟨c, m⟩, ⟨[], s.cbuff.pending.take maxchars.toNat, min maxchars s.cbuff.pending.length⟩,
    ?_, ⟨rfl, ?_, ?_, hwrote⟩, ?_⟩
  · rw [consoleStep, hread, ok_bind]
    simp only [Int.toNat_natCast, hload, ok_bind, pure_eq_ok]
    rw [hmin]
  · rw [← hmin, Int.toNat_natCast, htake]
  · rw [← hmin, Int.toNat_natCast, hdrop']
    exact hdrop
  · rw [List.append_nil]
    exact (congrArg _ hdrop).trans (List.take_append_drop _ _)

theorem step_served {e : ConsoleEvent} (h : Acceptable s e) :
    ∃ s' shown, consoleStep s e = .ok (s', shown) ∧ Served s s' shown e ∧
      shown.delivered ++ s'.cbuff.pending = s.cbuff.pending ++ shown.accepted := by
  cases e with
  | key byte => exact key_served h
  | read pt b maxchars kern => exact read_served h
  | memory m => exact ⟨_, _, rfl, ⟨rfl, rfl⟩, (List.append_nil _).symm⟩

/-- Every event is acceptable in the state it meets. -/
def AcceptableRun : List ConsoleEvent → Console → Prop
  | [], _ => True
  | e :: events, s =>
    Acceptable s e ∧ ∀ s' shown, consoleStep s e = .ok (s', shown) → AcceptableRun events s'

/-- What was pending and what is accepted comes out in order, or is still there. -/
theorem run_in_order {events : List ConsoleEvent} (h : AcceptableRun events s) :
    ∃ s' log, consoleRun events s = .ok (s', log) ∧
      log.flatMap Shown.delivered ++ s'.cbuff.pending =
        s.cbuff.pending ++ log.flatMap Shown.accepted := by
  induction events generalizing s with
  | nil => exact ⟨s, [], rfl, (List.append_nil _).symm⟩
  | cons e events ih =>
    obtain ⟨s₁, shown, hstep, _, horder⟩ := step_served h.1
    obtain ⟨s', log, hrun, horder'⟩ := ih (h.2 s₁ shown hstep)
    refine ⟨s', shown :: log, ?_, ?_⟩
    · simp only [consoleRun, hstep, hrun, ok_bind, pure_eq_ok]
    · rw [List.flatMap_cons, List.flatMap_cons, List.append_assoc, horder', ← List.append_assoc,
        horder, List.append_assoc]

/-- From an empty ring on, whatever keys and reads follow each other: the characters
delivered and those still in the ring are, in order, those of the accepted make codes;
and each further event is served as the queue says, within all bounds. -/
theorem keyboard_in_order (s : Console) (events : List ConsoleEvent)
    (h : AcceptableRun events (initCircBuff s)) :
    ∃ s' log, consoleRun events (initCircBuff s) = .ok (s', log) ∧
      log.flatMap Shown.delivered ++ s'.cbuff.pending = log.flatMap Shown.accepted ∧
      ∀ e, Acceptable s' e →
        ∃ s'' shown, consoleStep s' e = .ok (s'', shown) ∧ Served s' s'' shown e := by
  obtain ⟨s', log, hrun, horder⟩ := run_in_order h
  have hempty : (initCircBuff s).cbuff.pending = [] := CircularBuffer.pending_init s.cbuff
  rw [hempty, List.nil_append] at horder
  refine ⟨s', log, hrun, horder, fun e he => ?_⟩
  obtain ⟨s'', shown, hstep, hserved, _⟩ := step_served he
  exact ⟨s'', shown, hstep, hserved⟩

/-- A memory in which every page is mapped to the frame of the same number. -/
def typist : Console where
  cbuff := ⟨fun _ => 0, 0, 0, 0⟩
  mm := ⟨fun _ => 1, fun _ => ⟨0, 0, 0⟩, fun _ p => ⟨true, true, true, p⟩, fun _ _ => 0⟩

/-- Somebody types `q`, and a process asks for five characters. -/
theorem keyboard_in_order_q : ∃ s' log,
    consoleRun [.key 0x10, .key 0x90, .read 1 (270 * pageSize) 5 fun _ => 0] (initCircBuff typist) =
      .ok (s', log) ∧
    log.flatMap Shown.delivered ++ s'.cbuff.pending = log.flatMap Shown.accepted := by
  have hkey : ∀ (byte : UInt8) (s : Console), isBreak byte = true ∨ (scanCode byte).toNat < 98 →
      Acceptable s (.key byte) := by
    intro byte s h hmake
    rcases h with hbreak | hlt
    · cases hmake.symm.trans hbreak
    · exact hlt
  have hmemory : ∀ {byte : UInt8} {s s' : Console} {shown : Shown}, Acceptable s (.key byte) →
      consoleStep s (.key byte) = .ok (s', shown) → s'.mm = s.mm := by
    intro byte s s' shown h hstep
    obtain ⟨s₁, shown₁, hstep₁, hserved, _⟩ := step_served h
    cases hstep.symm.trans hstep₁
    exact hserved.1
  have hfirst : Acceptable (initCircBuff typist) (.key 0x10) := hkey _ _ (.inr (by decide))
  obtain ⟨s', log, hrun, horder, _⟩ := keyboard_in_order typist
    [.key 0x10, .key 0x90, .read 1 (270 * pageSize) 5 fun _ => 0] (by
      refine ⟨hfirst, fun s₁ shown₁ h₁ => ?_⟩
      have hsecond : Acceptable s₁ (.key 0x90) := hkey _ _ (.inl (by decide))
      refine ⟨hsecond, fun s₂ shown₂ h₂ => ⟨?_, fun _ _ _ => trivial⟩⟩
      have hmm : s₂.mm = typist.mm := (hmemory hsecond h₂).trans (hmemory hfirst h₁)
      refine ⟨by decide, by decide, by rw [hmm]; rfl, fun k hk => ?_⟩
      rw [hmm]
      refine ⟨?_, rfl, rfl⟩
      simp only [pageSize, totalPages]
      simp at hk
      omega)
  exact ⟨s', log, hrun, horder⟩

end Runs

end Zeos
