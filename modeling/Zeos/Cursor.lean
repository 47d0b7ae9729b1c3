import Zeos.Writing

/-!
# The cursor and the colours

`printc` walks over the 2000 cells of the screen in a circle; the calls that set the
cursor and the colours check their arguments. So nothing is ever stored outside the
screen, and a text without newlines fills the cells that follow the cursor.
-/

namespace Zeos

open Loops Runs
set_option autoImplicit false

/-- The calls that reach the screen. -/
inductive ScreenCall where
  | write (m : Mm) (pt : Slot) (kern : Staging) (fd : Int) (buffer : Nat) (size : Int)
  | printk (string : List UInt8)
  | gotoxy (x y : Int)
  | setColor (fg bg : Int)

def ScreenStep (s : Screen) (call : ScreenCall) (s' : Screen) : Prop :=
  match call with
  | .write m pt kern fd buffer size =>
    ∃ kern' r, sysWrite m pt kern s fd buffer size = .ok (kern', s', r)
  | .printk string => s' = s.printk string
  | .gotoxy x y => s' = (sysGotoxy s x y).1
  | .setColor fg bg => s' = (sysSetColor s fg bg).1

namespace Screen

/-- The cell that `printc` writes next. -/
def cursor (s : Screen) : Nat := s.yScreen.toNat * screenColumns + s.xScreen.toNat

/-- The cells that printing these characters stores to, one after the other. -/
def stores : Screen → List UInt8 → List Nat
  | _, [] => []
  | s, c :: bytes => (if c = charCode '\n' then [] else [s.cursor]) ++ stores (s.printc c) bytes

structure OnScreen (s : Screen) : Prop where
  column : s.xScreen.toNat < screenColumns
  row : s.yScreen.toNat < screenRows
  fg : s.fgColor.toNat < 16
  bg : s.bgColor.toNat < 16

namespace OnScreen
variable {s : Screen} {c : UInt8}

theorem cursor_lt (h : OnScreen s) : s.cursor < screenRows * screenColumns := by
  have hx := h.column
  have hy := h.row
  simp only [cursor, screenRows, screenColumns] at hx hy ⊢
  omega

theorem toNat_nextRow (y : Nat) : (UInt8.ofNat ((y + 1) % screenRows)).toNat = (y + 1) % screenRows := by
  rw [UInt8.toNat_ofNat']
  simp only [screenRows]
  omega

theorem newline (h : OnScreen s) : OnScreen s.newline where
  column := Nat.zero_lt_succ 79
  row := by
    change (UInt8.ofNat ((s.yScreen.toNat + 1) % screenRows)).toNat < screenRows
    rw [toNat_nextRow]
    exact Nat.mod_lt _ (by decide)
  fg := h.fg
  bg := h.bg

theorem printc_char (h : OnScreen s) (hc : c ≠ charCode '\n') :
    OnScreen (s.printc c) ∧ (s.printc c).cursor = (s.cursor + 1) % (screenRows * screenColumns) ∧
      (s.printc c).cells = Function.update s.cells s.cursor (s.word c) ∧
      (s.printc c).fgColor = s.fgColor ∧ (s.printc c).bgColor = s.bgColor := by
  have hx := h.column
  have hy := h.row
  have hnext : (s.xScreen + 1).toNat = s.xScreen.toNat + 1 := by
    rw [UInt8.toNat_add]
    change (s.xScreen.toNat + 1) % 256 = _
    simp only [screenColumns] at hx
    omega
  unfold printc
  dsimp only
  rw [if_neg hc]
  split
  · -- the last column: on to the next row
    rename_i hlast
    rw [hnext] at hlast
    refine ⟨⟨Nat.zero_lt_succ 79, h.newline.row, h.fg, h.bg⟩, ?_, rfl, rfl, rfl⟩
    change (UInt8.ofNat ((s.yScreen.toNat + 1) % screenRows)).toNat * screenColumns + 0 = _
    rw [toNat_nextRow]
    simp only [cursor, screenRows, screenColumns] at hx hy hlast ⊢
    omega
  · rename_i hlast
    rw [hnext] at hlast
    refine ⟨⟨?_, hy, h.fg, h.bg⟩, ?_, rfl, rfl, rfl⟩
    · change (s.xScreen + 1).toNat < screenColumns
      omega
    · change s.yScreen.toNat * screenColumns + (s.xScreen + 1).toNat = _
      rw [hnext]
      simp only [cursor, screenRows, screenColumns] at hx hy hlast ⊢
      omega

theorem printc (h : OnScreen s) (c : UInt8) : OnScreen (s.printc c) := by
  by_cases hc : c = charCode '\n'
  · have hprint : s.printc c = Screen.newline { s with port := s.port ++ [c] } := if_pos hc
    rw [hprint]
    have hport : OnScreen { s with port := s.port ++ [c] } := ⟨h.column, h.row, h.fg, h.bg⟩
    exact hport.newline
  · exact (h.printc_char hc).1

theorem foldl_printc (h : OnScreen s) (bytes : List UInt8) : OnScreen (bytes.foldl Screen.printc s) := by
  induction bytes generalizing s with
  | nil => exact h
  | cons c bytes ih => exact ih (h.printc c)

theorem stores_lt (h : OnScreen s) (bytes : List UInt8) :
    ∀ i ∈ s.stores bytes, i < screenRows * screenColumns := by
  induction bytes generalizing s with
  | nil => exact fun i hi => absurd hi List.not_mem_nil
  | cons c bytes ih =>
    intro i hi
    rcases List.mem_append.mp hi with hi | hi
    · split at hi
      · cases hi
      · rw [List.mem_singleton.mp hi]
        exact h.cursor_lt
    · exact ih (h.printc c) i hi

theorem word_bytes (h : OnScreen s) (c : UInt8) :
    (s.word c).toNat % 256 = c.toNat ∧
      (s.word c).toNat / 256 = s.bgColor.toNat * 16 + s.fgColor.toNat := by
  have hc : c.toNat < 2 ^ 8 := c.toNat_lt
  have hfg := h.fg
  have hbg := h.bg
  have hlow : s.fgColor.toNat <<< 8 ||| c.toNat = s.fgColor.toNat * 256 + c.toNat := by
    rw [← Nat.shiftLeft_add_eq_or_of_lt hc, Nat.shiftLeft_eq]
  have hsmall : s.fgColor.toNat * 256 + c.toNat < 2 ^ 12 := by omega
  have hall : s.bgColor.toNat <<< 12 ||| (s.fgColor.toNat * 256 + c.toNat) =
      s.bgColor.toNat * 4096 + (s.fgColor.toNat * 256 + c.toNat) := by
    rw [← Nat.shiftLeft_add_eq_or_of_lt hsmall, Nat.shiftLeft_eq]
  have hword : (s.word c).toNat = s.bgColor.toNat * 4096 + (s.fgColor.toNat * 256 + c.toNat) := by
    unfold word
    rw [UInt16.toNat_ofNat', Nat.or_comm c.toNat, Nat.or_assoc, Nat.or_comm c.toNat, hlow, hall]
    omega
  rw [hword]
  omega

theorem initial (cells : Nat → UInt16) : OnScreen (Screen.initial cells) where
  column := Nat.zero_lt_succ 79
  row := show (19 : UInt8).toNat < screenRows by decide
  fg := show magenta.toNat < 16 by decide
  bg := show black.toNat < 16 by decide

end OnScreen

theorem toNat_ofInt_lt {x : Int} {n : Nat} (h0 : 0 ≤ x) (hx : x < n) : (UInt8.ofInt x).toNat < n := by
  rw [UInt8.ofInt, UInt8.toNat_ofNat']
  omega

theorem OnScreen.gotoxy {s : Screen} (h : OnScreen s) (x y : Int) : OnScreen (sysGotoxy s x y).1 := by
  unfold sysGotoxy
  split
  · exact h
  · rename_i hin
    push Not at hin
    obtain ⟨hx, hx0, hy, hy0⟩ := hin
    exact ⟨toNat_ofInt_lt hx0 hx, toNat_ofInt_lt hy0 hy, h.fg, h.bg⟩

theorem OnScreen.setColor {s : Screen} (h : OnScreen s) (fg bg : Int) :
    OnScreen (sysSetColor s fg bg).1 := by
  unfold sysSetColor
  split
  · exact h
  · rename_i hin
    push Not at hin
    obtain ⟨hfg, hfg0, hbg, hbg0⟩ := hin
    exact ⟨h.column, h.row, toNat_ofInt_lt hfg0 (Int.lt_add_one_of_le hfg),
      toNat_ofInt_lt hbg0 (Int.lt_add_one_of_le hbg)⟩

end Screen

theorem writeConsoleFrom_foldl {kern : Staging} {i left : Nat} {s s' : Screen}
    (h : writeConsoleFrom kern i left s = .ok s') :
    ∃ bytes : List UInt8, s' = bytes.foldl Screen.printc s := by
  induction left generalizing i s with
  | zero =>
    cases h
    exact ⟨[], rfl⟩
  | succ left ih =>
    obtain ⟨c, _, h⟩ := bind_eq_ok.mp h
    obtain ⟨bytes, hbytes⟩ := ih h
    exact ⟨c :: bytes, hbytes⟩

theorem writeChunk_foldl {m : Mm} {pt : Slot} {s s' : WriteState} {size ret : Int}
    (h : writeChunk m pt s size = .ok (s', ret)) :
    ∃ bytes : List UInt8, s'.screen = bytes.foldl Screen.printc s.screen := by
  obtain ⟨kern, _, h⟩ := bind_eq_ok.mp h
  obtain ⟨⟨screen, ret'⟩, hret, h⟩ := bind_eq_ok.mp h
  obtain ⟨t, ht, hret⟩ := bind_eq_ok.mp hret
  cases hret
  cases h
  exact writeConsoleFrom_foldl ht

theorem writeLoop_foldl {m : Mm} {pt : Slot} {s s' : WriteState} (h : writeLoop m pt s = .ok s') :
    ∃ bytes : List UInt8, s'.screen = bytes.foldl Screen.printc s.screen := by
  induction s using writeLoop.induct m pt with
  | case1 s hmore e hchunk =>
    rw [writeLoop, dif_pos hmore] at h
    split at h
    · cases h
    · rename_i hok
      rw [hchunk] at hok
      cases hok
  | case2 s hmore t ret hchunk ih =>
    rw [writeLoop, dif_pos hmore] at h
    split at h
    · cases h
    · rename_i hok
      rw [hchunk] at hok
      cases hok
      obtain ⟨first, hfirst⟩ := writeChunk_foldl hchunk
      obtain ⟨bytes, hbytes⟩ := ih h
      refine ⟨first ++ bytes, ?_⟩
      rw [List.foldl_append, ← hfirst]
      exact hbytes
  | case3 s hmore =>
    rw [writeLoop, dif_neg hmore] at h
    cases h
    exact ⟨[], rfl⟩

/-- Whatever `sys_write` does to the screen it does with `printc`. -/
theorem sysWrite_foldl {m : Mm} {pt : Slot} {kern kern' : Staging} {s s' : Screen} {fd size r : Int}
    {buffer : Nat} (h : sysWrite m pt kern s fd buffer size = .ok (kern', s', r)) :
    ∃ bytes : List UInt8, s' = bytes.foldl Screen.printc s := by
  unfold sysWrite at h
  split at h
  · cases h
    exact ⟨[], rfl⟩
  · obtain ⟨ok, _, h⟩ := bind_eq_ok.mp h
    split at h
    · cases h
      exact ⟨[], rfl⟩
    · split at h
      · cases h
        exact ⟨[], rfl⟩
      · obtain ⟨t, hloop, h⟩ := bind_eq_ok.mp h
        obtain ⟨u, hrest, h⟩ := bind_eq_ok.mp h
        cases h
        obtain ⟨first, hfirst⟩ := writeLoop_foldl hloop
        unfold writeRest at hrest
        split at hrest
        · obtain ⟨⟨v, ret⟩, hchunk, hrest⟩ := bind_eq_ok.mp hrest
          cases hrest
          obtain ⟨bytes, hbytes⟩ := writeChunk_foldl hchunk
          refine ⟨first ++ bytes, ?_⟩
          rw [List.foldl_append, hbytes, hfirst]
        · cases hrest
          exact ⟨first, hfirst⟩

theorem ScreenStep.cases {s s' : Screen} {call : ScreenCall} (h : ScreenStep s call s') :
    (∃ bytes : List UInt8, s' = bytes.foldl Screen.printc s) ∨
      s'.cells = s.cells ∧ (s.OnScreen → s'.OnScreen) := by
  cases call with
  | write m pt kern fd buffer size =>
    obtain ⟨kern', r, hwrite⟩ := h
    exact .inl (sysWrite_foldl hwrite)
  | printk string => exact .inl ⟨_, h⟩
  | gotoxy x y =>
    cases h
    refine .inr ⟨?_, fun hs => hs.gotoxy x y⟩
    unfold sysGotoxy
    split <;> rfl
  | setColor fg bg =>
    cases h
    refine .inr ⟨?_, fun hs => hs.setColor fg bg⟩
    unfold sysSetColor
    split <;> rfl

namespace Screen

theorem foldl_printc_cells (s : Screen) (bytes : List UInt8) {i : Nat} (hi : i ∉ s.stores bytes) :
    (bytes.foldl printc s).cells i = s.cells i := by
  induction bytes generalizing s with
  | nil => rfl
  | cons c bytes ih =>
    rw [stores, List.mem_append, not_or] at hi
    rw [List.foldl_cons, ih (s.printc c) hi.2]
    unfold printc
    dsimp only
    split
    · rfl
    · rename_i hc
      have hne : i ≠ s.cursor := by
        intro he
        apply hi.1
        rw [if_neg hc, he]
        exact List.mem_singleton_self _
      split <;> exact Function.update_of_ne hne _ _

/-- What printing these characters leaves when no newline is among them: the cells
that follow the cursor are filled in a circle. -/
structure Fills (s : Screen) (bytes : List UInt8) (s' : Screen) : Prop where
  cursor : s'.cursor = (s.cursor + bytes.length) % (screenRows * screenColumns)
  touched : ∀ k (hk : k < bytes.length),
    (∀ j < bytes.length, k < j →
      (s.cursor + j) % (screenRows * screenColumns) ≠ (s.cursor + k) % (screenRows * screenColumns)) →
    let cell := (s'.cells ((s.cursor + k) % (screenRows * screenColumns))).toNat
    cell % 256 = bytes[k].toNat ∧ cell / 256 = s.bgColor.toNat * 16 + s.fgColor.toNat
  untouched : ∀ i, (∀ k < bytes.length, (s.cursor + k) % (screenRows * screenColumns) ≠ i) →
    s'.cells i = s.cells i
  fg : s'.fgColor = s.fgColor
  bg : s'.bgColor = s.bgColor

theorem Fills.nil {s : Screen} (h : s.OnScreen) : Fills s [] s where
  cursor := (Nat.mod_eq_of_lt h.cursor_lt).symm
  touched := fun k hk => absurd hk (Nat.not_lt_zero k)
  untouched := fun _ _ => rfl
  fg := rfl
  bg := rfl

/-- One more character goes to the next cell, over what stood there. -/
theorem Fills.snoc {s t : Screen} {bytes : List UInt8} {c : UInt8} (h : Fills s bytes t)
    (ht : t.OnScreen) (hc : c ≠ charCode '\n') : Fills s (bytes ++ [c]) (t.printc c) := by
  obtain ⟨_, hcursor, hcells, hfg, hbg⟩ := ht.printc_char hc
  rw [h.cursor] at hcursor hcells
  have hlen : (bytes ++ [c]).length = bytes.length + 1 := List.length_append
  constructor
  case cursor =>
    rw [hcursor, hlen, Nat.mod_add_mod, Nat.add_assoc]
  case touched =>
    intro k hk hlast
    rw [hcells]
    rw [hlen] at hlast hk
    rcases Nat.lt_succ_iff_lt_or_eq.mp hk with hlt | rfl
    · have hne := hlast bytes.length (Nat.lt_succ_self _) hlt
      rw [Function.update_of_ne hne.symm, List.getElem_append_left hlt]
      exact h.touched k hlt fun j hj hkj => hlast j (Nat.lt_succ_of_lt hj) hkj
    · rw [Function.update_self, List.getElem_concat_length, ← h.fg, ← h.bg]
      exact ht.word_bytes c
      rfl
  case untouched =>
    intro i hi
    rw [hlen] at hi
    rw [hcells, Function.update_of_ne (hi bytes.length (Nat.lt_succ_self _)).symm]
    exact h.untouched i fun k hk => hi k (Nat.lt_succ_of_lt hk)
  case fg => rw [hfg, h.fg]
  case bg => rw [hbg, h.bg]

theorem OnScreen.fills {s : Screen} (h : OnScreen s) (bytes : List UInt8)
    (hbytes : ∀ c ∈ bytes, c ≠ charCode '\n') : Fills s bytes (bytes.foldl Screen.printc s) := by
  induction bytes using List.reverseRecOn with
  | nil => exact .nil h
  | append_singleton bytes c ih =>
    rw [List.foldl_append, List.foldl_cons, List.foldl_nil]
    apply Fills.snoc
    · exact ih fun d hd => hbytes d (List.mem_append_left _ hd)
    · exact h.foldl_printc bytes
    · exact hbytes c (List.mem_append_right _ (List.mem_singleton_self c))

end Screen

theorem Run.onScreen {cells : Nat → UInt16} {tr : List ScreenCall} {s : Screen}
    (h : Run ScreenStep (Screen.initial cells) tr s) :
    s.OnScreen ∧ ∀ i, screenRows * screenColumns ≤ i → s.cells i = cells i := by
  refine h.invariant (fun s => s.OnScreen ∧ ∀ i, screenRows * screenColumns ≤ i → s.cells i = cells i)
    ⟨.initial cells, fun _ _ => rfl⟩ ?_
  intro s call s' hs hstep
  rcases hstep.cases with ⟨bytes, rfl⟩ | ⟨hcells, hset⟩
  · refine ⟨hs.1.foldl_printc bytes, fun i hi => ?_⟩
    rw [s.foldl_printc_cells bytes fun hmem => absurd (hs.1.stores_lt bytes i hmem) (by omega)]
    exact hs.2 i hi
  · exact ⟨hset hs.1, fun i hi => by rw [hcells, hs.2 i hi]⟩

/-- Whatever was printed and set since the start, the cursor and the colours are in
range, only cells of the screen have been and will be stored to, and a text without
newlines fills the cells behind the cursor. -/
theorem screen_in_bounds {cells : Nat → UInt16} {tr : List ScreenCall} {s : Screen}
    (h : Run ScreenStep (Screen.initial cells) tr s) :
    s.OnScreen ∧ (∀ i, screenRows * screenColumns ≤ i → s.cells i = cells i) ∧
      (∀ bytes, ∀ i ∈ s.stores bytes, i < screenRows * screenColumns) ∧
      ∀ bytes : List UInt8, (∀ c ∈ bytes, c ≠ charCode '\n') →
        s.Fills bytes (bytes.foldl Screen.printc s) := by
  obtain ⟨hs, hcells⟩ := Run.onScreen h
  exact ⟨hs, hcells, hs.stores_lt, hs.fills⟩

/-- After `gotoxy(79, 24)` the letter `A` fills the last cell and the cursor is back at the first. -/
theorem screen_in_bounds_corner :
    ScreenStep (Screen.initial fun _ => 0) (.gotoxy 79 24) (sysGotoxy (Screen.initial fun _ => 0) 79 24).1 ∧
      (sysGotoxy (Screen.initial fun _ => 0) 79 24).1.Fills [65]
        ((sysGotoxy (Screen.initial fun _ => 0) 79 24).1.printc 65) ∧
      ((sysGotoxy (Screen.initial fun _ => 0) 79 24).1.printc 65).cursor = 0 := by
  have hstep : ScreenStep (Screen.initial fun _ => 0) (.gotoxy 79 24)
      (sysGotoxy (Screen.initial fun _ => 0) 79 24).1 := rfl
  refine ⟨hstep, ?_, by decide⟩
  apply (screen_in_bounds (.snoc .nil hstep)).2.2.2 [65]
  intro c hc
  rw [List.mem_singleton.mp hc]
  decide

end Zeos
