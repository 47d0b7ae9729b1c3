import Zeos.Keyboard
import Zeos.Pointers

/-!
# What `sys_read` may write

Two promises to the caller of `sys_read`: it does not touch code pages, and it
delivers no more characters than asked for. The first fails because the write
check of `access_ok` takes code pages for data, the second because a negative
count is taken for a large one.
-/

namespace Zeos

open Loops
set_option autoImplicit false

def oneKey : CircularBuffer := ⟨fun _ => 97, 1, 0, 0⟩

theorem oneKey_pending : oneKey.pending = [97] := by decide +kernel

theorem read_oneKey {m : Mm} {pt : Slot} {b : Nat} {maxchars : Int} (hpos : 0 < uint32 maxchars)
    (hok : accessOk m pt .verifyWrite b (uint32 maxchars) = .ok true)
    (hmap : ∃ loc, translate m pt b = .ok loc) :
    ∃ c' m', sysRead oneKey m pt b maxchars (fun _ => 0) = .ok (c', m', 1) ∧ c'.pending = [] ∧
      loadByte m' pt b = .ok 97 := by
  have htake : oneKey.pending.take (uint32 maxchars) = [97] := by
    rw [oneKey_pending, List.take_of_length_le hpos]
  obtain ⟨c', hdrop, _, hread⟩ := sysRead_eq oneKey (fun _ => 0) hok
  rw [htake] at hread
  have hmap' : ∀ k < ([97] : List UInt8).length, ∃ loc, translate m pt (b + k) = .ok loc := by
    intro k hk
    rw [Nat.lt_one_iff.mp hk]
    exact hmap
  obtain ⟨m', hstore, hsame, hload, _⟩ := storeBytes_spec (by decide) hmap'
  refine ⟨c', m', ?_, ?_, hload 0 97 rfl⟩
  · rw [hread, hstore]
    rfl
  · rw [hdrop, oneKey_pending]
    exact List.drop_eq_nil_of_le hpos

/-- A block that no write check takes for user memory with code in it: it is clear
of the code pages, or it leaves the user pages so far that it is refused. -/
def ClearOfCode (addr size : Nat) : Prop :=
  addr < userFirstPage * pageSize ∨ userLastPage * pageSize ≤ addr ∨
    addr + size ≤ pagLogInitCode * pageSize ∨ (userLastPage + 1) * pageSize ≤ addr + size

section Code
variable {m : Mm} {pt : Slot} {addr size : Nat}

theorem accepted_first_page (h : accessOk m pt .verifyWrite addr size = .ok true) :
    userFirstPage * pageSize ≤ addr := by
  have hini : userFirstPage ≤ addr / pageSize := by
    rcases (accessOk_iff.mp h).2 with ⟨hl, _⟩ | ⟨hl, _⟩
    · exact hl
    · exact Nat.le_trans (by decide) hl
  exact (Nat.le_div_iff_mul_le (by decide)).mp hini

theorem accepted_in_user (hwrap : addr + size ≤ 4294967296) (hl : userFirstPage * pageSize ≤ addr)
    (hu : addr < userLastPage * pageSize) :
    accessOk m pt .verifyWrite addr size = .ok true ↔ addr + size < (userLastPage + 1) * pageSize := by
  have hini : userFirstPage ≤ addr / pageSize := (Nat.le_div_iff_mul_le (by decide)).mpr hl
  have hlast : addr / pageSize < userLastPage := (Nat.div_lt_iff_lt_mul (by decide)).mpr hu
  rw [accessOk_iff]
  by_cases htop : addr + size < 4294967296
  · rw [uint32_add_of_lt htop]
    constructor
    · rintro ⟨_, ⟨_, hfin⟩ | ⟨hregion, _⟩⟩
      · exact (Nat.div_lt_iff_lt_mul (by decide)).mp (Nat.lt_succ_of_le hfin)
      · omega
    · intro hend
      refine ⟨Nat.div_le_div_right (Nat.le_add_right _ _), .inl ⟨hini, ?_⟩⟩
      exact Nat.le_of_lt_succ ((Nat.div_lt_iff_lt_mul (by decide)).mpr hend)
  · -- a block that ends with the address space: its end is address 0
    have hzero : uint32 (addr + size) = 0 := by
      unfold uint32
      omega
    rw [hzero]
    constructor
    · rintro ⟨hle, _⟩
      exact absurd (hini.trans hle) (by decide)
    · intro hend
      simp only [userLastPage, userFirstPage, lUserStart, pageSize, numPagCode, numPagData] at hend
      omega

theorem spares_code_iff (m : Mm) (pt : Slot) (hwrap : addr + size ≤ 4294967296) (hpos : 0 < size) :
    (accessOk m pt .verifyWrite addr size = .ok true →
      ∀ x, addr ≤ x → x < addr + size → ¬ CodePage (x / pageSize)) ↔ ClearOfCode addr size := by
  have hcode : ∀ x, CodePage (x / pageSize) ↔
      pagLogInitCode * pageSize ≤ x ∧ x < userLastPage * pageSize := by
    intro x
    unfold CodePage
    rw [Nat.le_div_iff_mul_le (by decide), Nat.div_lt_iff_lt_mul (by decide)]
    rfl
  constructor
  · intro hspares
    by_contra hclear
    unfold ClearOfCode at hclear
    simp only [not_or, Nat.not_lt, Nat.not_le] at hclear
    obtain ⟨hl, hu, hend, hin⟩ := hclear
    have hacc : accessOk m pt .verifyWrite addr size = .ok true :=
      (accepted_in_user hwrap hl hu).mpr hin
    -- the first byte of the block that is not before the code
    by_cases hfirst : pagLogInitCode * pageSize ≤ addr
    · exact hspares hacc addr (Nat.le_refl _) (by omega) ((hcode _).mpr ⟨hfirst, hu⟩)
    · exact hspares hacc (pagLogInitCode * pageSize) (by omega) hend ((hcode _).mpr ⟨Nat.le_refl _, by decide⟩)
  · intro hclear hacc x hl hu hx
    obtain ⟨hxl, hxu⟩ := (hcode x).mp hx
    have hstart := accepted_first_page hacc
    rcases hclear with hlow | hhigh | hbefore | hafter
    · omega
    · omega
    · omega
    · have := (accepted_in_user hwrap hstart (by omega)).mp hacc
      omega

/-- The write check protects the code pages from exactly the blocks that
`ClearOfCode` names. For those, no byte that `sys_read` changes is reached through
a code page. -/
theorem write_check_iff (m : Mm) (pt : Slot) (hpos : 0 < size) (hwrap : addr + size ≤ 4294967296) :
    ((accessOk m pt .verifyWrite addr size = .ok true →
        ∀ x, addr ≤ x → x < addr + size → ¬ CodePage (x / pageSize)) ↔ ClearOfCode addr size) ∧
    (ClearOfCode addr size → ∀ c kern maxchars c' m' n, uint32 maxchars = size →
      sysRead c m pt addr maxchars kern = .ok (c', m', n) →
      ∀ f o, m'.ram f o ≠ m.ram f o → ∃ x, translate m pt x = .ok (f, o) ∧ ¬ CodePage (x / pageSize)) := by
  refine ⟨spares_code_iff m pt hwrap hpos, ?_⟩
  intro hclear c kern maxchars c' m' n hsize hread f o hne
  rcases sysRead_cases hread with ⟨_, rfl, _⟩ | ⟨hok, _, _, _, hwrote⟩
  · exact absurd rfl hne
  · obtain ⟨k, hk, hx⟩ := hwrote.changed hne
    rw [hsize] at hok hk
    have hlen : (c.pending.take size).length ≤ size := List.length_take_le ..
    exact ⟨addr + k, hx, (spares_code_iff m pt hwrap hpos).mpr hclear hok _ (by omega) (by omega)⟩

/-- A block in the data of process 1. -/
theorem write_check_iff_data : ∃ m : Mm, Reachable false admitted ⟨bootState, m⟩ ∧
    accessOk m 8 .verifyWrite 1048576 16 = .ok true ∧
    ∀ x, 1048576 ≤ x → x < 1048576 + 16 → ¬ CodePage (x / pageSize) := by
  have hclear : ClearOfCode 1048576 16 := .inr (.inr (.inl (by decide)))
  have hacc : accessOk (bootMm fun _ _ => 0) 8 .verifyWrite 1048576 16 = .ok true := by
    rw [accessOk_iff]
    exact ⟨by decide, .inl (by decide)⟩
  exact ⟨bootMm fun _ _ => 0, .boot (boot_eq _), hacc,
    (write_check_iff (bootMm fun _ _ => 0) 8 (by decide) (by decide)).1.mpr hclear hacc⟩

/-- Process 1 reads one character over the first byte of its code. -/
theorem read_overwrites_code : ∃ m m' : Mm, ∃ c', Reachable false admitted ⟨bootState, m⟩ ∧
    CodePage (1130496 / pageSize) ∧ accessOk m 8 .verifyWrite 1130496 1 = .ok true ∧
    sysRead oneKey m 8 1130496 1 (fun _ => 0) = .ok (c', m', 1) ∧
    loadByte m 8 1130496 = .ok 0 ∧ loadByte m' 8 1130496 = .ok 97 := by
  have hboot := bootMm_spec fun _ _ => 0
  have hacc : accessOk (bootMm fun _ _ => 0) 8 .verifyWrite 1130496 (uint32 1) = .ok true := by
    rw [accessOk_iff]
    exact ⟨by decide, .inl (by decide)⟩
  have hentry : ((bootMm fun _ _ => 0).pagusrTable 8 (1130496 / pageSize)).present = true := by
    rw [hboot.code _ (by decide)]
    rfl
  have htrans : translate (bootMm fun _ _ => 0) 8 1130496 = .ok
      (((bootMm fun _ _ => 0).pagusrTable 8 (1130496 / pageSize)).pbaseAddr, ⟨0, by decide⟩) :=
    if_pos ⟨by decide, hentry⟩
  obtain ⟨c', m', hread, _, hload⟩ := read_oneKey (by decide) hacc ⟨_, htrans⟩
  refine ⟨_, m', c', .boot (boot_eq _), by decide, hacc, hread, ?_, hload⟩
  rw [loadByte, htrans, ok_bind, hboot.ram]
  rfl

end Code

/-- What a caller of `sys_read` counts on when it returns `n`. -/
structure ReadBounded (c : CircularBuffer) (m : Mm) (pt : Slot) (b : Nat) (maxchars : Int)
    (c' : CircularBuffer) (m' : Mm) (n : Int) : Prop where
  count : 0 ≤ n → n ≤ max maxchars 0
  tables : 0 ≤ n → SameTables m m'
  bytes : 0 ≤ n → ∀ f o, m'.ram f o ≠ m.ram f o →
    ∃ x : Nat, b ≤ x ∧ (x : Int) < b + max maxchars 0 ∧ translate m pt x = .ok (f, o)
  ring : maxchars < 0 → c' = c

/-- The count is not negative, or no character waits, or the check refuses the
buffer, or the characters do not fit into mapped pages and the call never returns. -/
def ReadsNoMore (c : CircularBuffer) (m : Mm) (pt : Slot) (b : Nat) (maxchars : Int) : Prop :=
  0 ≤ maxchars ∨ c.pending = [] ∨ ¬ WrapsRound m pt b (uint32 maxchars) ∨
    ∃ k < c.pending.length, ∀ loc, translate m pt (b + k) ≠ .ok loc

section Counts
variable {m : Mm} {pt : Slot} {b : Nat} {maxchars : Int}

theorem uint32_negative (hl : -2147483648 ≤ maxchars) (hneg : maxchars < 0) :
    (uint32 maxchars : Int) = maxchars + 4294967296 := by
  unfold uint32
  omega

/-- A negative count passes the check only by wrapping round. -/
theorem accessOk_negative_iff (hb : b < 4294967296) (hl : -2147483648 ≤ maxchars)
    (hneg : maxchars < 0) :
    accessOk m pt .verifyWrite b (uint32 maxchars) = .ok true ↔
      WrapsRound m pt b (uint32 maxchars) := by
  have hsize := uint32_negative hl hneg
  rw [accessOk_iff]
  by_cases hw : 4294967296 ≤ b + uint32 maxchars
  · exact accepted_wrap_iff hb (by omega) hw
  · rw [uint32_add_of_lt (by omega)]
    constructor
    · rintro ⟨_, hregion⟩
      have hfin : (b + uint32 maxchars) / pageSize < totalPages := by
        rcases hregion with ⟨_, hfin⟩ | ⟨_, hfin, _⟩
        · exact Nat.lt_of_le_of_lt hfin (by decide)
        · exact hfin
      have hend := (Nat.div_lt_iff_lt_mul (by decide)).mp hfin
      simp only [totalPages, pageSize] at hend
      omega
    · rintro ⟨hround, _⟩
      omega

theorem ReadBounded.of_signed {c c' : CircularBuffer} {m' : Mm} {n : Int} {kern : Staging}
    (h0 : 0 ≤ maxchars) (hu : maxchars < 2147483648)
    (h : sysRead c m pt b maxchars kern = .ok (c', m', n)) :
    ReadBounded c m pt b maxchars c' m' n := by
  have hneg : maxchars < 0 → c' = c := fun hneg => absurd h0 (not_le.mpr hneg)
  have hmax : max maxchars 0 = maxchars := max_eq_left h0
  have hsize : (uint32 maxchars : Int) = maxchars := by
    unfold uint32
    omega
  rcases sysRead_cases h with ⟨_, _, rfl⟩ | ⟨_, rfl, _, _, hwrote⟩
  · exact ⟨fun h => absurd h (by decide), fun h => absurd h (by decide), fun h => absurd h (by decide), hneg⟩
  · have hlen : (c.pending.take (uint32 maxchars)).length ≤ uint32 maxchars := List.length_take_le ..
    refine ⟨fun _ => by omega, fun _ => hwrote.tables, fun _ f o hne => ?_, hneg⟩
    obtain ⟨k, hk, hx⟩ := hwrote.changed hne
    exact ⟨b + k, by omega, by omega, hx⟩

theorem ReadBounded.of_nothing {c : CircularBuffer} {m' : Mm} {n : Int} (hn : n ≤ 0)
    (hm : SameTables m m') (hram : m'.ram = m.ram) : ReadBounded c m pt b maxchars c m' n :=
  ⟨fun _ => hn.trans (le_max_right _ _), fun _ => hm,
    fun _ f o hne => absurd (by rw [hram]) hne, fun _ => rfl⟩

/-- `sys_read` stays within the buffer it was given exactly if one of the
conditions of `ReadsNoMore` holds. -/
theorem read_bounded_iff (c : CircularBuffer) (m : Mm) (pt : Slot) (hb : b < 4294967296)
    (hl : -2147483648 ≤ maxchars) (hu : maxchars < 2147483648) :
    (∀ kern c' m' n, sysRead c m pt b maxchars kern = .ok (c', m', n) →
      ReadBounded c m pt b maxchars c' m' n) ↔ ReadsNoMore c m pt b maxchars := by
  have hpend := c.pending_lt
  simp only [maxBuffSize] at hpend
  constructor
  · intro hbounded
    by_contra hno
    simp only [ReadsNoMore, not_or, not_le, ne_eq, not_not, not_exists, not_and, not_forall] at hno
    obtain ⟨hneg, hne, hround, hmap⟩ := hno
    have hsize := uint32_negative hl hneg
    have htake : c.pending.take (uint32 maxchars) = c.pending := List.take_of_length_le (by omega)
    obtain ⟨c', _, _, hread⟩ := sysRead_eq c (fun _ => 0) ((accessOk_negative_iff hb hl hneg).mpr hround)
    rw [htake] at hread
    obtain ⟨m', hstore, _⟩ := storeBytes_spec (by simp only [pageSize]; omega) hmap
    rw [hstore, ok_bind] at hread
    have hcount := (hbounded _ c' m' _ hread).count (Int.natCast_nonneg _)
    have hpos := List.length_pos_of_ne_nil hne
    omega
  · intro hno kern c' m' n hread
    by_cases h0 : 0 ≤ maxchars
    · exact .of_signed h0 hu hread
    · have hneg : maxchars < 0 := not_le.mp h0
      have hsize := uint32_negative hl hneg
      have htake : c.pending.take (uint32 maxchars) = c.pending := List.take_of_length_le (by omega)
      rcases sysRead_cases hread with ⟨rfl, rfl, rfl⟩ | ⟨hok, rfl, hempty, hmap, hwrote⟩
      · exact .of_nothing (by decide) (.refl _) rfl
      · rw [htake] at hmap hwrote
        rcases hno with hpos | hnil | hround | ⟨k, hk, hloc⟩
        · exact absurd hpos h0
        · rw [hempty hnil, htake, hnil]
          refine .of_nothing (Int.le_refl _) hwrote.tables ?_
          funext f o
          apply hwrote.others
          rw [hnil]
          intro k hk
          exact absurd hk (Nat.not_lt_zero k)
        · exact absurd ((accessOk_negative_iff hb hl hneg).mp hok) hround
        · obtain ⟨loc, hmapped⟩ := hmap k hk
          exact absurd hmapped (hloc loc)

theorem boot_data_mapped : ∃ loc, translate (bootMm fun _ _ => 0) 8 1048592 = .ok loc :=
  (bootMm_spec fun _ _ => 0).data_mapped (by decide)

theorem read_bounded_iff_five : ∃ c' m' n,
    sysRead oneKey (bootMm fun _ _ => 0) 8 1048592 5 (fun _ => 0) = .ok (c', m', n) ∧ 0 ≤ n ∧ n ≤ 5 := by
  have hacc : accessOk (bootMm fun _ _ => 0) 8 .verifyWrite 1048592 (uint32 5) = .ok true := by
    rw [accessOk_iff]
    exact ⟨by decide, .inl (by decide)⟩
  obtain ⟨c', m', hread, _⟩ := read_oneKey (by decide) hacc boot_data_mapped
  have hbounded := (read_bounded_iff oneKey (bootMm fun _ _ => 0) 8 (by decide) (by decide)
    (by decide)).mpr (.inl (by decide)) _ c' m' 1 hread
  exact ⟨c', m', 1, hread, by decide, hbounded.count (by decide)⟩

/-- Asked for -1 characters, `sys_read` delivers the one that waits. -/
theorem negative_read_delivers : ∃ m m' : Mm, ∃ c', Reachable false admitted ⟨bootState, m⟩ ∧
    sysRead oneKey m 8 1048592 (-1) (fun _ => 0) = .ok (c', m', 1) ∧ c' ≠ oneKey := by
  have hround : WrapsRound (bootMm fun _ _ => 0) 8 1048592 (uint32 (-1)) := by
    have hsize : uint32 (-1) = 4294967295 := by decide
    rw [hsize]
    exact ⟨by simp only [pageSize]; omega, by decide, .inl (by decide)⟩
  have hacc := (accessOk_negative_iff (by decide) (by decide) (by decide)).mpr hround
  obtain ⟨c', m', hread, hnil, _⟩ := read_oneKey (by decide) hacc boot_data_mapped
  refine ⟨_, m', c', .boot (boot_eq _), hread, ?_⟩
  rintro rfl
  rw [oneKey_pending] at hnil
  cases hnil

end Counts

end Zeos
