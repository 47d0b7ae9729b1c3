import Zeos.Cursor
import Zeos.Numerals
import Zeos.Board
import Zeos.Naming

/-!
# The rendering of `pacman.c`

What the user program sends to the screen: `print`, `gotoxy` and `set_color`, and
with them the map and the footer of a frame. A string is the list of its bytes; of
a `char` array all bytes are given, also those that nothing has set.
-/

namespace Zeos

open Loops Libc
set_option autoImplicit false

namespace Screen

def gotoxy (s : Screen) (x y : Int) : Screen := (sysGotoxy s x y).1

def setColor (s : Screen) (fg bg : Int) : Screen := (sysSetColor s fg bg).1

/-- `write(1, xd, strlen(xd))`, which sends the bytes to `printc`. -/
def print (s : Screen) (xd : List UInt8) : Screen := (xd.take (strlen xd)).foldl printc s

end Screen

def text (t : String) : List UInt8 := t.toList.map charCode

/-- A literal, with the NUL behind it. -/
def literal (t : String) : List UInt8 := text t ++ [0]

theorem text_line (t : String) (h : ((text t).all fun c => c.toNat != 10) = true) :
    ∀ c ∈ text t, c ≠ charCode '\n' := by
  intro c hc he
  have hne := List.all_eq_true.mp h c hc
  rw [he] at hne
  cases hne

def chars (size : Nat) (b : Buffer) : List UInt8 := (List.range size).map b

/-- The word of a character in these colours. -/
def ink (fg bg : Nat) (c : UInt8) : UInt16 := UInt16.ofNat (c.toNat ||| bg <<< 12 ||| fg <<< 8)

/-- The cells once `bytes` stand in them from cell `p` on. -/
def paint (cells : Nat → UInt16) (fg bg p : Nat) (bytes : List UInt8) : Nat → UInt16 :=
  fun i => if p ≤ i then (bytes[i - p]?).elim (cells i) (ink fg bg) else cells i

theorem paint_nil (cells : Nat → UInt16) (fg bg p : Nat) : paint cells fg bg p [] = cells := by
  funext i
  unfold paint
  split <;> rfl

theorem paint_cons (cells : Nat → UInt16) (fg bg p : Nat) (c : UInt8) (bytes : List UInt8) :
    paint cells fg bg p (c :: bytes) =
      paint (Function.update cells p (ink fg bg c)) fg bg (p + 1) bytes := by
  funext i
  unfold paint
  rcases Nat.lt_trichotomy i p with hlt | rfl | hgt
  · rw [if_neg (by omega), if_neg (by omega), Function.update_of_ne (by omega)]
  · rw [if_pos (Nat.le_refl i), if_neg (by omega), Function.update_self, Nat.sub_self]
    rfl
  · rw [if_pos (by omega), if_pos (by omega), Function.update_of_ne (by omega),
      show i - p = i - (p + 1) + 1 by omega, List.getElem?_cons_succ]

theorem paint_get {cells : Nat → UInt16} {fg bg p k : Nat} {bytes : List UInt8} {c : UInt8}
    (h : bytes[k]? = some c) : paint cells fg bg p bytes (p + k) = ink fg bg c := by
  rw [paint, if_pos (Nat.le_add_right p k), Nat.add_sub_cancel_left, h]
  rfl

theorem paint_out {cells : Nat → UInt16} {fg bg p i : Nat} {bytes : List UInt8}
    (h : i < p ∨ p + bytes.length ≤ i) : paint cells fg bg p bytes i = cells i := by
  unfold paint
  split
  · rw [List.getElem?_eq_none (by omega)]
    rfl
  · rfl

namespace Screen

/-- What a screen shows, where its cursor stands and which colours are set. -/
structure Drawn (s : Screen) (cells : Nat → UInt16) (p fg bg : Nat) : Prop where
  onScreen : s.OnScreen
  cells : s.cells = cells
  cursor : s.cursor = p
  fg : s.fgColor.toNat = fg
  bg : s.bgColor.toNat = bg

namespace Drawn
variable {s : Screen} {cells : Nat → UInt16} {p fg bg : Nat}

theorem gotoxy {x y : Nat} (h : Drawn s cells p fg bg) (hx : x < screenColumns) (hy : y < screenRows) :
    Drawn (s.gotoxy x y) cells (y * screenColumns + x) fg bg := by
  have hin : ¬ ((screenColumns : Int) ≤ x ∨ (x : Int) < 0 ∨ (screenRows : Int) ≤ y ∨ (y : Int) < 0) := by
    omega
  have hset : s.gotoxy x y = { s with xScreen := UInt8.ofInt x, yScreen := UInt8.ofInt y } := by
    unfold Screen.gotoxy sysGotoxy
    rw [if_neg hin]
  refine ⟨h.onScreen.gotoxy x y, ?_, ?_, ?_, ?_⟩
  · rw [hset]
    exact h.cells
  · rw [hset]
    change (UInt8.ofInt y).toNat * screenColumns + (UInt8.ofInt x).toNat = _
    simp only [screenColumns, screenRows] at hx hy ⊢
    rw [UInt8.ofInt, UInt8.toNat_ofNat', UInt8.ofInt, UInt8.toNat_ofNat']
    omega
  · rw [hset]
    exact h.fg
  · rw [hset]
    exact h.bg

theorem setColor {fg' bg' : Nat} (h : Drawn s cells p fg bg) (hfg : fg' < 16) (hbg : bg' < 16) :
    Drawn (s.setColor fg' bg') cells p fg' bg' := by
  have hwhite : (white.toNat : Int) = 15 := rfl
  have hblack : (black.toNat : Int) = 0 := rfl
  have hset : s.setColor fg' bg' = { s with fgColor := UInt8.ofInt fg', bgColor := UInt8.ofInt bg' } := by
    unfold Screen.setColor sysSetColor
    rw [if_neg]
    omega
  refine ⟨h.onScreen.setColor fg' bg', ?_, ?_, ?_, ?_⟩
  · rw [hset]
    exact h.cells
  · rw [hset]
    exact h.cursor
  · rw [hset]
    change (UInt8.ofInt fg').toNat = _
    rw [UInt8.ofInt, UInt8.toNat_ofNat']
    omega
  · rw [hset]
    change (UInt8.ofInt bg').toNat = _
    rw [UInt8.ofInt, UInt8.toNat_ofNat']
    omega

theorem foldl_printc (h : Drawn s cells p fg bg) (bytes : List UInt8)
    (hline : ∀ c ∈ bytes, c ≠ charCode '\n') (hfit : p + bytes.length ≤ screenRows * screenColumns) :
    Drawn (bytes.foldl Screen.printc s) (paint cells fg bg p bytes)
      ((p + bytes.length) % (screenRows * screenColumns)) fg bg := by
  induction bytes generalizing s cells p with
  | nil =>
    have hp : p < screenRows * screenColumns := h.cursor ▸ h.onScreen.cursor_lt
    rw [paint_nil, List.length_nil, Nat.add_zero, Nat.mod_eq_of_lt hp]
    exact h
  | cons c bytes ih =>
    obtain ⟨hon, hcursor, hcells, hfg, hbg⟩ := h.onScreen.printc_char (hline c List.mem_cons_self)
    have hword : s.word c = ink fg bg c := by
      rw [← h.fg, ← h.bg]
      rfl
    rw [h.cursor] at hcursor hcells
    rw [h.cells, hword] at hcells
    have hstep : Drawn (s.printc c) (Function.update cells p (ink fg bg c))
        ((p + 1) % (screenRows * screenColumns)) fg bg :=
      ⟨hon, hcells, hcursor, hfg ▸ h.fg, hbg ▸ h.bg⟩
    rw [List.length_cons] at hfit
    rw [List.foldl_cons, paint_cons, List.length_cons]
    cases bytes with
    | nil =>
      rw [paint_nil]
      exact hstep
    | cons d bytes =>
      rw [List.length_cons] at hfit
      rw [Nat.mod_eq_of_lt (by omega)] at hstep
      have hrest := ih hstep (fun e he => hline e (List.mem_cons_of_mem c he))
        (by rw [List.length_cons]; omega)
      rw [show p + ((d :: bytes).length + 1) = p + 1 + (d :: bytes).length by omega]
      exact hrest

theorem print {xd bytes : List UInt8} (h : Drawn s cells p fg bg)
    (hxd : xd.take (strlen xd) = bytes) (hline : ∀ c ∈ bytes, c ≠ charCode '\n')
    (hfit : p + bytes.length ≤ screenRows * screenColumns) :
    Drawn (s.print xd) (paint cells fg bg p bytes)
      ((p + bytes.length) % (screenRows * screenColumns)) fg bg := by
  rw [Screen.print, hxd]
  exact h.foldl_printc bytes hline hfit

end Drawn

end Screen

namespace Game

def Color.value : Color → Nat
  | .black => 0x00
  | .cyan => 0x03
  | .red => 0x04
  | .lightGreen => 0x0A
  | .lightCyan => 0x0B
  | .lightMagenta => 0x0D
  | .white => 0x0F

theorem Color.value_lt (c : Color) : c.value < 16 := by
  cases c <;> decide

def lightRed : Nat := 0x0C

def getMapColors (game : GameState) (character : Char) : Nat × Nat :=
  match character with
  | '#' => (lightRed, Color.black.value)
  | '*' => (Color.lightGreen.value, Color.black.value)
  | '.' => (Color.lightCyan.value, Color.black.value)
  | ' ' => (Color.black.value, Color.black.value)
  | 'C' => (game.pacman.fgColor.value, game.pacman.bgColor.value)
  | '0' => ((game.ghosts 0).fgColor.value, (game.ghosts 0).bgColor.value)
  | '1' => ((game.ghosts 1).fgColor.value, (game.ghosts 1).bgColor.value)
  | '2' => ((game.ghosts 2).fgColor.value, (game.ghosts 2).bgColor.value)
  | '3' => ((game.ghosts 3).fgColor.value, (game.ghosts 3).bgColor.value)
  | _ => (Color.white.value, Color.black.value)

theorem getMapColors_lt (game : GameState) (character : Char) :
    (getMapColors game character).1 < 16 ∧ (getMapColors game character).2 < 16 := by
  unfold getMapColors
  split <;> dsimp only
  · exact ⟨by decide, Color.value_lt _⟩
  all_goals exact ⟨Color.value_lt _, Color.value_lt _⟩

/-- One round of the inner loop; `buffer` is a string of one character. -/
def renderCell (game : GameState) (i j : Nat) (s : Screen) : Screen :=
  let buffer := game.map ⟨j, i⟩
  if buffer = '\x00' then s
  else
    let (fgColor, bgColor) := getMapColors game buffer
    (s.setColor fgColor bgColor).print [charCode buffer, 0]

def renderMap (s : Screen) (game : GameState) : Screen :=
  times mapHeight (fun i => times mapWidth (renderCell game i)) (s.gotoxy 0 0)

def glyphs : List Char := ['#', '*', '.', ' ', 'C', '0', '1', '2', '3']

def cellWord (game : GameState) (p : Point) : UInt16 :=
  ink (getMapColors game (game.map p)).1 (getMapColors game (game.map p)).2 (charCode (game.map p))

end Game

/-- The first `n` cells of one picture, over another. -/
def upTo (n : Nat) (w cells : Nat → UInt16) : Nat → UInt16 := fun i => if i < n then w i else cells i

theorem update_upTo (n : Nat) (w cells : Nat → UInt16) :
    Function.update (upTo n w cells) n (w n) = upTo (n + 1) w cells := by
  funext i
  rw [Function.update_apply]
  unfold upTo
  split
  · rename_i he
    rw [if_pos (by omega), he]
  · split
    · rw [if_pos (by omega)]
    · rw [if_neg (by omega)]

theorem times_cells {σ : Type} {body : Nat → Nat → σ → σ} (P : Nat → σ → Prop) {height width : Nat}
    (step : ∀ i j s, i < height → j < width → P (i * width + j) s → P (i * width + j + 1) (body i j s))
    {s : σ} (h0 : P 0 s) : P (height * width) (times height (fun i => times width (body i)) s) := by
  apply times_preserves (fun i => P (i * width))
  · intro i s hi hs
    rw [Nat.succ_mul]
    exact times_preserves (fun j => P (i * width + j)) (fun j s hj => step i j s hi hj) hs
  · rw [Nat.zero_mul]
    exact h0

namespace Game

theorem charCode_glyph {c : Char} (h : c ∈ glyphs) :
    c ≠ '\x00' ∧ charCode c ≠ 0 ∧ charCode c ≠ charCode '\n' := by
  have hall : (glyphs.all fun c => decide (c ≠ '\x00' ∧ charCode c ≠ 0 ∧ charCode c ≠ charCode '\n')) = true :=
    rfl
  exact of_decide_eq_true (List.all_eq_true.mp hall c h)

theorem renderCell_drawn {game : GameState} {s : Screen} {cells w : Nat → UInt16} {i j fg bg : Nat}
    (h : s.Drawn (upTo (i * mapWidth + j) w cells) (i * mapWidth + j) fg bg) (hi : i < mapHeight)
    (hj : j < mapWidth) (hglyph : game.map ⟨j, i⟩ ∈ glyphs)
    (hw : w (i * mapWidth + j) = cellWord game ⟨j, i⟩) :
    ∃ fg' bg', (renderCell game i j s).Drawn (upTo (i * mapWidth + j + 1) w cells)
      (i * mapWidth + j + 1) fg' bg' := by
  obtain ⟨hnul, hzero, hline⟩ := charCode_glyph hglyph
  obtain ⟨hfg, hbg⟩ := getMapColors_lt game (game.map ⟨j, i⟩)
  have hfit : i * mapWidth + j + 1 < screenRows * screenColumns := by
    simp only [mapHeight, mapWidth, screenRows, screenColumns] at hi hj ⊢
    omega
  have hshown : [charCode (game.map ⟨j, i⟩), 0].take (strlen [charCode (game.map ⟨j, i⟩), 0]) =
      [charCode (game.map ⟨j, i⟩)] :=
    take_strlen_append (a := [charCode (game.map ⟨j, i⟩)]) (by simpa using hzero.symm) []
  have hdrawn := (h.setColor hfg hbg).print hshown
    (fun c hc => by rw [List.mem_singleton.mp hc]; exact hline) (Nat.le_of_lt hfit)
  rw [paint_cons, paint_nil, List.length_singleton, Nat.mod_eq_of_lt hfit] at hdrawn
  have hcell : renderCell game i j s = (s.setColor (getMapColors game (game.map ⟨j, i⟩)).1
      (getMapColors game (game.map ⟨j, i⟩)).2).print [charCode (game.map ⟨j, i⟩), 0] := if_neg hnul
  rw [hcell, ← update_upTo, hw]
  exact ⟨_, _, hdrawn⟩

theorem renderMap_drawn {game : GameState} {s : Screen} {cells : Nat → UInt16} {p fg bg : Nat}
    (h : s.Drawn cells p fg bg) (hglyphs : ∀ p, InBounds p → game.map p ∈ glyphs) :
    ∃ fg' bg', (renderMap s game).Drawn
      (upTo (mapHeight * mapWidth) (fun i => cellWord game ⟨i % mapWidth, i / mapWidth⟩) cells)
      (mapHeight * mapWidth) fg' bg' := by
  have h0 : (s.gotoxy 0 0).Drawn cells 0 fg bg :=
    h.gotoxy (x := 0) (y := 0) (Nat.succ_pos _) (Nat.succ_pos _)
  apply times_cells (fun n (s : Screen) => ∃ fg bg,
    s.Drawn (upTo n (fun i => cellWord game ⟨i % mapWidth, i / mapWidth⟩) cells) n fg bg)
  · intro i j s hi hj hs
    obtain ⟨fg, bg, hs⟩ := hs
    apply renderCell_drawn hs hi hj (hglyphs ⟨j, i⟩ ⟨hj, hi⟩)
    have hmod : (i * mapWidth + j) % mapWidth = j := by
      rw [Nat.mul_add_mod_self_right, Nat.mod_eq_of_lt hj]
    have hdiv : (i * mapWidth + j) / mapWidth = i := by
      simp only [mapWidth] at hj ⊢
      omega
    rw [hmod, hdiv]
  · refine ⟨fg, bg, ?_⟩
    have hzero : upTo 0 (fun i => cellWord game ⟨i % mapWidth, i / mapWidth⟩) cells = cells := by
      funext i
      exact if_neg (Nat.not_lt_zero i)
    rw [hzero]
    exact h0

end Game

/-- What `itodeca` writes; of a negative number nothing is left. -/
def decimal (a : Int) : List UInt8 := if a < 0 then [] else numeral 10 decaDigit a.toNat

theorem itodeca_decimal (a : Int) (b : Buffer) : HoldsString (itodeca a b) (decimal a) := by
  unfold decimal
  split
  · rename_i hneg
    have hb : itodeca a b = Function.update b 0 0 := by
      rw [itodeca, writeNumeral, if_neg (by omega), writeDigits, dif_neg (by omega)]
      rfl
    rw [hb]
    refine ⟨fun j v hj => (by cases hj), List.not_mem_nil, ?_⟩
    exact Function.update_self 0 0 b
  · rename_i hpos
    have h := itodeca_holds a.toNat b
    rw [Int.toNat_of_nonneg (Int.not_lt.mp hpos)] at h
    exact h

theorem Libc.Holds.append {b b' : Buffer} {front t : List UInt8} (h : Holds b 0 front) (h' : HoldsString b' t)
    (hfront : 0 ∉ front) (hb : ∀ j, b (front.length + j) = b' j) : HoldsString b (front ++ t) := by
  refine ⟨?_, ?_, ?_⟩
  · intro j v hj
    rcases Nat.lt_or_ge j front.length with hlt | hge
    · rw [List.getElem?_append_left hlt] at hj
      exact h j v hj
    · rw [List.getElem?_append_right hge] at hj
      have hval := h'.1 (j - front.length) v hj
      rw [Nat.zero_add] at hval
      rw [Nat.zero_add, ← hval, ← hb, Nat.add_sub_cancel' hge]
  · rw [List.mem_append, not_or]
    exact ⟨hfront, h'.2.1⟩
  · rw [List.length_append, hb]
    exact h'.2.2

theorem decimal_length {n k : Nat} (hk : 0 < k) (hn : n < 10 ^ k) {a : Int} (ha : a ≤ n) :
    (decimal a).length ≤ k := by
  unfold decimal
  split
  · exact Nat.zero_le k
  · exact length_numeral_le (by decide) hk (by omega)

theorem decimal_int32_length (x : Int) : (decimal (int32 x)).length ≤ 10 := by
  apply decimal_length (n := 2147483647) (by decide) (by decide)
  unfold int32
  omega

theorem decimal_line {a : Int} {c : UInt8} (h : c ∈ decimal a) : c ≠ charCode '\n' := by
  unfold decimal at h
  split at h
  · cases h
  · have hdigit := (mem_deca h).1
    rintro rfl
    exact absurd hdigit (by decide)

theorem Libc.HoldsString.take_strlen {b : Buffer} {t : List UInt8} (h : HoldsString b t) {size : Nat}
    (hsize : t.length < size) : (chars size b).take (strlen (chars size b)) = t := by
  have hfirst : (List.range t.length).map b = t := by
    apply List.ext_getElem
    · rw [List.length_map, List.length_range]
    · intro j hj hj'
      rw [List.getElem_map, List.getElem_range]
      have hval := h.1 j t[j] (List.getElem?_eq_getElem hj')
      rw [Nat.zero_add] at hval
      exact hval
  have hsplit : chars size b =
      t ++ 0 :: (List.range (size - t.length - 1)).map (fun j => b (t.length + (j + 1))) := by
    have hrange : List.range size = List.range t.length ++ (List.range (size - t.length)).map (t.length + ·) := by
      rw [← List.range_add]
      congr 1
      omega
    rw [chars, hrange, List.map_append, hfirst, show size - t.length = size - t.length - 1 + 1 by omega,
      List.range_succ_eq_map, List.map_cons, List.map_cons, Nat.add_zero, h.2.2]
    simp
  rw [hsplit]
  exact take_strlen_append h.2.1 _

namespace Game

/-- `clear_str` is the array as the stack holds it; only its end is set. -/
def clearLine (s : Screen) (clearStr : Buffer) (row : Nat) : Screen :=
  ((s.setColor Color.black.value Color.black.value).gotoxy 0 row).print
    (chars (mapWidth + 1) (Function.update clearStr mapWidth 0))

/-- `buf` after `itodeca(fps, &buf[5])`. -/
def fpsText (fps : Int) : Buffer :=
  let buf : Buffer := fun j => ((literal "FPS:    ")[j]?).getD 0
  fun j => if j < 5 then buf j else itodeca fps (fun j => buf (5 + j)) (j - 5)

/-- Without a result the division by `ticks+1` fails. `clear_str` and `buffer` are not set. -/
def renderFooter (s : Screen) (game : GameState) (currentPlayer : Buffer) (ticks : Nat)
    (clearStr buffer : Buffer) : Option Screen :=
  let s := clearLine s clearStr mapHeight
  let s := (s.gotoxy 0 mapHeight).setColor Color.white.value Color.black.value
  let s := s.print (literal "Lives: ")
  let buffer := itodeca (int32 game.lives) buffer
  let s := s.print (chars 64 buffer)
  let s := (s.gotoxy 12 mapHeight).setColor Color.white.value Color.black.value
  if uint32 (ticks + 1) = 0 then none
  else
    let fps := int32 (ticksPerSecond / uint32 (ticks + 1) : Nat)
    let s := s.print (chars 10 (fpsText fps))
    let s := (s.print (literal "     ")).print (literal "Score: ")
    let buffer := itodeca (int32 game.score) buffer
    let s := s.print (chars 64 buffer)
    let s := (s.print (literal "                       ")).print (literal "Player: ")
    some (s.print (chars (maxNameLength + 1) currentPlayer))

def renderGame (s : Screen) (game : GameState) (currentPlayer : Buffer) (ticks : Nat)
    (clearStr buffer : Buffer) : Option Screen :=
  renderFooter (renderMap s game) game currentPlayer ticks clearStr buffer

def livesText (game : GameState) : List UInt8 := text "Lives: " ++ decimal (int32 game.lives)

/-- The footer from column 12 on. -/
def scoreText (game : GameState) (fps : Int) (player : List UInt8) : List UInt8 :=
  text "FPS: " ++ decimal fps ++ text "     " ++ text "Score: " ++ decimal (int32 game.score) ++
    text "                       " ++ text "Player: " ++ player

theorem clearLine_drawn {s : Screen} {cells : Nat → UInt16} {p fg bg : Nat} {clearStr : Buffer}
    (h : s.Drawn cells p fg bg) (row : Nat) (hrow : row < screenRows)
    (hline : ∀ j < mapWidth, clearStr j ≠ charCode '\n') :
    ∃ (left : List UInt8) (p' : Nat), left.length ≤ mapWidth ∧
      (clearLine s clearStr row).Drawn (paint cells 0 0 (row * screenColumns) left) p' 0 0 := by
  have harray : chars (mapWidth + 1) (Function.update clearStr mapWidth 0) = chars mapWidth clearStr ++ [0] := by
    rw [chars, List.range_succ, List.map_append, List.map_singleton, Function.update_self]
    apply congrArg (· ++ [0])
    apply List.map_congr_left
    intro j hj
    rw [Function.update_of_ne (Nat.ne_of_lt (List.mem_range.mp hj))]
  have hlen : ((chars mapWidth clearStr).takeWhile fun c => c ≠ 0).length ≤ mapWidth := by
    have h80 : (chars mapWidth clearStr).length = mapWidth := by
      rw [chars, List.length_map, List.length_range]
    exact h80 ▸ (List.takeWhile_prefix _).length_le
  have hstring : (chars (mapWidth + 1) (Function.update clearStr mapWidth 0)).take
      (strlen (chars (mapWidth + 1) (Function.update clearStr mapWidth 0))) =
      (chars mapWidth clearStr).takeWhile fun c => c ≠ 0 := by
    rw [harray]
    exact take_strlen _ []
  have hprint : (clearLine s clearStr row).Drawn
      (paint cells 0 0 (row * screenColumns) ((chars mapWidth clearStr).takeWhile fun c => c ≠ 0))
      ((row * screenColumns + ((chars mapWidth clearStr).takeWhile fun c => c ≠ 0).length) %
        (screenRows * screenColumns)) 0 0 := by
    apply ((h.setColor (Nat.succ_pos 15) (Nat.succ_pos 15)).gotoxy (Nat.succ_pos 79) hrow).print hstring
    · intro c hc
      obtain ⟨j, hj, rfl⟩ := List.mem_map.mp ((List.takeWhile_subset _) hc)
      exact hline j (List.mem_range.mp hj)
    · simp only [mapWidth, screenColumns, screenRows] at hlen hrow ⊢
      omega
  exact ⟨_, _, hlen, hprint⟩

def framesPerSecond (ticks : Nat) : Int := (ticksPerSecond / (ticks + 1) : Nat)

theorem fpsText_holds (fps : Int) : HoldsString (fpsText fps) (text "FPS: " ++ decimal fps) := by
  have hlabel : Holds (fpsText fps) 0 (text "FPS: ") := by
    intro j v hj
    have hlt : j < 5 := (List.getElem?_eq_some_iff.mp hj).1
    interval_cases j <;> exact Option.some.inj hj
  apply hlabel.append (itodeca_decimal fps _) (by decide)
  intro j
  have hge : ¬ (text "FPS: ").length + j < 5 := Nat.not_lt.mpr (Nat.le_add_right 5 j)
  have hsub : (text "FPS: ").length + j - 5 = j := Nat.add_sub_cancel_left 5 j
  refine (if_neg hge).trans ?_
  rw [hsub]

section Footer
variable {s : Screen} {game : GameState} {currentPlayer : Buffer} {player : List UInt8} {ticks : Nat}
  {clearStr buffer : Buffer}

theorem print_literal (s : Screen) {t : String} (ht : 0 ∉ text t) :
    s.print (literal t) = (text t).foldl Screen.printc s := by
  rw [Screen.print, literal, take_strlen_append ht]

theorem print_chars (size : Nat) {b : Buffer} {t : List UInt8} (h : HoldsString b t) (hsize : t.length < size)
    (s : Screen) : s.print (chars size b) = t.foldl Screen.printc s := by
  rw [Screen.print, h.take_strlen hsize]

/-- All that `renderFooter` prints, with the two places where it starts. -/
theorem renderFooter_eq (hticks : ticks + 1 < 4294967296) (hplayer : HoldsString currentPlayer player)
    (hlen : player.length ≤ maxNameLength) :
    renderFooter s game currentPlayer ticks clearStr buffer =
      some ((scoreText game (framesPerSecond ticks) player).foldl Screen.printc
        ((((livesText game).foldl Screen.printc
          (((clearLine s clearStr mapHeight).gotoxy 0 mapHeight).setColor Color.white.value
            Color.black.value)).gotoxy 12 mapHeight).setColor Color.white.value Color.black.value)) := by
  have hnext : uint32 (ticks + 1) = ticks + 1 := uint32_natCast (n := ticks + 1) hticks
  have hle : ticksPerSecond / (ticks + 1) ≤ 400 := Nat.div_le_self 400 (ticks + 1)
  have hfps : int32 (ticksPerSecond / (ticks + 1) : Nat) = framesPerSecond ticks := by
    unfold framesPerSecond
    generalize ticksPerSecond / (ticks + 1) = q at hle
    exact int32_of_range (by omega) (by omega)
  have hshort : (text "FPS: " ++ decimal (framesPerSecond ticks)).length < 10 := by
    have hthree : (decimal (framesPerSecond ticks)).length ≤ 3 :=
      decimal_length (by decide) (by decide) (Int.ofNat_le.mpr hle)
    have hfive : (text "FPS: ").length = 5 := rfl
    rw [List.length_append]
    omega
  have hlives := print_chars 64 (itodeca_decimal (int32 game.lives) buffer)
    (Nat.lt_of_le_of_lt (decimal_int32_length _) (by decide))
  have hscore := fun b => print_chars 64 (itodeca_decimal (int32 game.score) b)
    (Nat.lt_of_le_of_lt (decimal_int32_length _) (by decide))
  have hname := print_chars (maxNameLength + 1) hplayer (Nat.lt_succ_of_le hlen)
  have hfpsText := print_chars 10 (fpsText_holds (framesPerSecond ticks)) hshort
  simp only [renderFooter, hnext, hfps, if_neg (Nat.succ_ne_zero ticks), hlives, hscore, hname, hfpsText,
    scoreText, livesText, List.foldl_append]
  rw [print_literal _ (t := "Lives: ") (by decide), print_literal _ (t := "     ") (by decide),
    print_literal _ (t := "Score: ") (by decide), print_literal _ (t := "                       ") (by decide),
    print_literal _ (t := "Player: ") (by decide)]

end Footer

def MapGlyphs (g : GameState) : Prop := ∀ p, InBounds p → g.map p ∈ glyphs

section Glyphs
variable {level lives score : Nat} {g : GameState}

/-- A row as the source spells it: full, and of characters that can be drawn. -/
def glyphRow (row : String) : Bool :=
  row.toUTF8.data.toList.length == mapWidth &&
    row.toUTF8.data.toList.all fun b => decide (Char.ofNat b.toNat ∈ glyphs)

theorem getD_charAt {rows : List String} (hlen : rows.length = mapHeight) (h : rows.all glyphRow = true)
    {p : Point} (hp : InBounds p) : (rows[p.y]?.bind (charAt · p.x)).getD '\x00' ∈ glyphs := by
  have hy : p.y < rows.length := hlen ▸ hp.2
  have hrow := List.all_eq_true.mp h _ (List.getElem_mem hy)
  rw [glyphRow, Bool.and_eq_true, beq_iff_eq] at hrow
  have hx : p.x < rows[p.y].toUTF8.data.toList.length := hrow.1 ▸ hp.1
  rw [List.getElem?_eq_getElem hy, Option.bind_some, charAt, List.getElem?_eq_getElem hx]
  exact of_decide_eq_true (List.all_eq_true.mp hrow.2 _ (List.getElem_mem hx))

theorem predefined_glyphs (hl : level < numLevels) (p : Point) (hp : InBounds p) :
    (predefinedMaps level p).getD '\x00' ∈ glyphs := by
  have hzero : predefinedMap0.all glyphRow = true := by decide +kernel
  have hone : predefinedMap1.all glyphRow = true := by decide +kernel
  have hcases : level = 0 ∨ level = 1 := by
    simp only [numLevels] at hl
    omega
  rcases hcases with rfl | rfl
  · exact getD_charAt rfl hzero hp
  · exact getD_charAt rfl hone hp

theorem MapGlyphs.walked (h : MapGlyphs g) : MapGlyphs (walked g) := by
  intro p hp
  rw [walked_map]
  split
  · exact h p hp
  · split
    · decide
    · split
      · decide
      · exact h p hp

theorem MapGlyphs.pacmanMoved (h : MapGlyphs g) : MapGlyphs (pacmanMoved g) := by
  rcases pacmanMoved_cases g with ⟨_, he⟩ | ⟨_, _, he⟩ | ⟨_, _, hsame, _⟩
  · rw [he]
    exact h.walked
  · rw [he]
    exact h.walked
  · intro p hp
    rw [hsame.map]
    exact h.walked p hp

theorem ghostIcon_glyph (i : Fin numGhosts) : ghostIcon i ∈ glyphs := by
  revert i
  decide

theorem MapGlyphs.ghostMoved {i : Fin numGhosts} {n : Point} (h : MapGlyphs g)
    (htile : (g.ghosts i).tile ∈ [' ', '.', '*']) : MapGlyphs (ghostMoved g i n) := by
  have htile' : (g.ghosts i).tile ∈ glyphs := by
    simp only [List.mem_cons, List.not_mem_nil, or_false] at htile
    rcases htile with he | he | he <;> rw [he] <;> decide
  intro p hp
  change Function.update (Function.update g.map _ _) n _ p ∈ glyphs
  rw [Function.update_apply, Function.update_apply]
  split
  · exact ghostIcon_glyph i
  · split
    · exact htile'
    · exact h p hp

theorem MapGlyphs.playFrame {f : Frame} {g' : GameState} (hl : level < numLevels) (hb : Board level g)
    (h : MapGlyphs g) (hf : playFrame g f = .ok g') : MapGlyphs g' := by
  have hin := hb.congr (processInput_same g f.input)
  have hinput : MapGlyphs (processInput g f.input) := h
  rcases updateGameState_rule hl hin (fun _ g => MapGlyphs g) hinput.pacmanMoved
      (fun i _ g n hb hg _ _ _ => hg.ghostMoved (hb.tiles i)) (fun _ _ _ hg _ => hg) f.draws with
    he | ⟨g₁, he, _, hdone⟩
  · cases hf.symm.trans he
  · cases hf.symm.trans he
    have hsame := updateTimerState_same g₁ 100
    have hg₁ : MapGlyphs g₁ := by
      rcases hdone with hnil | ⟨_, _, hcons, _⟩
      · exact hnil
      · exact hcons
    intro p hp
    rw [hsame.map]
    exact hg₁ p hp

theorem Played.mapGlyphs (hl : level < numLevels) {frames : List Frame}
    (h : Played level lives score frames g) : MapGlyphs g := by
  have hinit : MapGlyphs (initialState level lives score) := by
    intro p hp
    have hmap : (initialState level lives score).map p =
        if p = pacmanSpawn level then 'C' else (predefinedMaps level p).getD '\x00' := by
      simp only [initialState, Function.update_apply]
    rw [hmap]
    split
    · decide
    · exact predefined_glyphs hl p hp
  exact (h.rule (I := fun g => Board level g ∧ MapGlyphs g) hl ⟨initialState_board hl, hinit⟩
    fun g f g' hg hf => ⟨hg.1.playFrame hl hf, hg.2.playFrame hl hg.1 hf⟩).2

end Glyphs

theorem livesText_line {g : GameState} : ∀ c ∈ livesText g, c ≠ charCode '\n' := by
  have hlabel := text_line "Lives: " rfl
  intro c hc
  rcases List.mem_append.mp hc with hc | hc
  · exact hlabel c hc
  · exact decimal_line hc

theorem livesText_length (g : GameState) : (livesText g).length ≤ 17 := by
  have hten := decimal_int32_length g.lives
  have hseven : (text "Lives: ").length = 7 := rfl
  rw [livesText, List.length_append]
  omega

theorem scoreText_line {g : GameState} {fps : Int} {player : List UInt8}
    (hname : ∀ c ∈ player, c ≠ charCode '\n') : ∀ c ∈ scoreText g fps player, c ≠ charCode '\n' := by
  intro c hc
  simp only [scoreText, List.mem_append] at hc
  rcases hc with ((((((hc | hc) | hc) | hc) | hc) | hc) | hc) | hc
  · exact text_line _ rfl c hc
  · exact decimal_line hc
  · exact text_line _ rfl c hc
  · exact text_line _ rfl c hc
  · exact decimal_line hc
  · exact text_line _ rfl c hc
  · exact text_line _ rfl c hc
  · exact hname c hc

/-- What is left of the footer's row when the footer has been drawn over it. -/
theorem renderFooter_drawn {s : Screen} {cells : Nat → UInt16} {p fg bg : Nat} {g : GameState}
    {currentPlayer clearStr : Buffer} {player : List UInt8} {ticks : Nat}
    (h : s.Drawn cells p fg bg) (buffer : Buffer) (hplayer : HoldsString currentPlayer player)
    (hlen : player.length ≤ maxNameLength) (hname : ∀ c ∈ player, c ≠ charCode '\n')
    (hstack : ∀ j < mapWidth, clearStr j ≠ charCode '\n') (hticks : ticks + 1 < 4294967296)
    (hfit : (scoreText g (framesPerSecond ticks) player).length ≤ 68) :
    ∃ (s' : Screen) (left : List UInt8) (p' : Nat),
      renderFooter s g currentPlayer ticks clearStr buffer = some s' ∧ left.length ≤ mapWidth ∧
      s'.Drawn (paint (paint (paint cells 0 0 (mapHeight * mapWidth) left) Color.white.value
        Color.black.value (mapHeight * mapWidth) (livesText g)) Color.white.value Color.black.value
        (mapHeight * mapWidth + 12) (scoreText g (framesPerSecond ticks) player)) p'
        Color.white.value Color.black.value := by
  obtain ⟨left, p₁, hleft, hclear⟩ := clearLine_drawn h mapHeight (Nat.lt_succ_self 24) hstack
  have hlives := livesText_length g
  have hwhite : Color.white.value < 16 := Color.value_lt _
  have hblack : Color.black.value < 16 := Color.value_lt _
  have hfirst := ((hclear.gotoxy (Nat.succ_pos 79) (Nat.lt_succ_self 24)).setColor hwhite hblack).foldl_printc
    (livesText g) livesText_line (by
      simp only [screenRows, screenColumns]
      omega)
  have hsecond := ((hfirst.gotoxy (x := 12) (y := 24) (by decide) (by decide)).setColor hwhite hblack).foldl_printc
    (scoreText g (framesPerSecond ticks) player) (scoreText_line hname) (by
      simp only [screenRows, screenColumns]
      omega)
  exact ⟨_, left, _, renderFooter_eq hticks hplayer hlen, hleft, hsecond⟩

/-- In every state of a round `renderGame` shows the whole map, each cell in the colours
of what stands in it, and under it the footer, whatever the screen showed before and
whatever the arrays on the stack hold. -/
theorem renderGame_shows {level lives score : Nat} (hl : level < numLevels) (frames : List Frame)
    (g : GameState) (h : Played level lives score frames g) (s : Screen) (hs : s.OnScreen)
    (currentPlayer clearStr buffer : Buffer) (player : List UInt8) (ticks : Nat)
    (hplayer : HoldsString currentPlayer player) (hlen : player.length ≤ maxNameLength)
    (hname : ∀ c ∈ player, c ≠ charCode '\n') (hstack : ∀ j < mapWidth, clearStr j ≠ charCode '\n')
    (hticks : ticks + 1 < 4294967296)
    (hfit : (scoreText g (framesPerSecond ticks) player).length ≤ 68) :
    ∃ s', renderGame s g currentPlayer ticks clearStr buffer = some s' ∧ s'.OnScreen ∧
      (∀ p, InBounds p → s'.cells (p.y * mapWidth + p.x) = cellWord g p) ∧
      (∀ k < 12, ∀ c, (livesText g)[k]? = some c →
        s'.cells (mapHeight * mapWidth + k) = ink Color.white.value Color.black.value c) ∧
      (∀ k c, (scoreText g (framesPerSecond ticks) player)[k]? = some c →
        s'.cells (mapHeight * mapWidth + 12 + k) = ink Color.white.value Color.black.value c) ∧
      ∀ i, screenRows * screenColumns ≤ i → s'.cells i = s.cells i := by
  have hstart : s.Drawn s.cells s.cursor s.fgColor.toNat s.bgColor.toNat := ⟨hs, rfl, rfl, rfl, rfl⟩
  obtain ⟨fg, bg, hmap⟩ := renderMap_drawn hstart (h.mapGlyphs hl)
  obtain ⟨s', left, p', hrender, hleft, hdrawn⟩ := renderFooter_drawn hmap buffer hplayer hlen
    hname hstack hticks hfit
  refine ⟨s', hrender, hdrawn.onScreen, ?_, ?_, ?_, ?_⟩
  · intro p hp
    have hcell : p.y * mapWidth + p.x < mapHeight * mapWidth := by
      have hx := hp.1
      have hy := hp.2
      simp only [mapWidth, mapHeight] at hx hy ⊢
      omega
    have hmod : (p.y * mapWidth + p.x) % mapWidth = p.x := by
      rw [Nat.mul_add_mod_self_right, Nat.mod_eq_of_lt hp.1]
    have hdiv : (p.y * mapWidth + p.x) / mapWidth = p.y := by
      have hx := hp.1
      simp only [mapWidth] at hx ⊢
      omega
    rw [hdrawn.cells, paint_out (.inl (Nat.lt_add_right 12 hcell)), paint_out (.inl hcell),
      paint_out (.inl hcell), upTo, if_pos hcell, hmod, hdiv]
  · intro k hk c hc
    rw [hdrawn.cells, paint_out (.inl (Nat.add_lt_add_left hk _)), paint_get hc]
  · intro k c hc
    rw [hdrawn.cells, paint_get hc]
  · intro i hi
    have hlives := livesText_length g
    simp only [screenRows, screenColumns, mapWidth] at hi hleft
    have hbeyond : ∀ n, n ≤ 80 → mapHeight * mapWidth + n ≤ i := by
      intro n hn
      simp only [mapHeight, mapWidth]
      omega
    have hmapped : ¬ i < mapHeight * mapWidth := Nat.not_lt.mpr (hbeyond 0 (Nat.zero_le 80))
    rw [hdrawn.cells, paint_out, paint_out (.inr (hbeyond _ (by omega))),
      paint_out (.inr (hbeyond _ (by omega))), upTo, if_neg hmapped]
    rw [Nat.add_assoc]
    exact .inr (hbeyond _ (by omega))

theorem scoreText_length (g : GameState) (fps : Int) (player : List UInt8) :
    (scoreText g fps player).length =
      48 + (decimal fps).length + (decimal (int32 g.score)).length + player.length := by
  have h₁ : (text "FPS: ").length = 5 := rfl
  have h₂ : (text "     ").length = 5 := rfl
  have h₃ : (text "Score: ").length = 7 := rfl
  have h₄ : (text "                       ").length = 23 := rfl
  have h₅ : (text "Player: ").length = 8 := rfl
  simp only [scoreText, List.length_append, h₁, h₂, h₃, h₄, h₅]
  omega

/-- The first frame of a player without a name, on a stack full of zeros. -/
theorem renderGame_shows_start : ∃ g s', Played 0 1 0 [] g ∧
    renderGame (.initial fun _ => 0) g (fun _ => 0) 80 (fun _ => 0) (fun _ => 0) = some s' ∧
    ∀ p, InBounds p → s'.cells (p.y * mapWidth + p.x) = cellWord g p := by
  have hplayed : Played 0 1 0 [] (initialState 0 1 0) := ⟨_, initializeRound_eq (by decide), rfl⟩
  have hfps : (decimal (framesPerSecond 80)).length ≤ 3 :=
    decimal_length (n := 4) (by decide) (by decide) (by decide)
  have hscore := decimal_int32_length (initialState 0 1 0).score
  have hempty : HoldsString (fun _ => 0) [] := ⟨fun j v hj => (by cases hj), List.not_mem_nil, rfl⟩
  obtain ⟨s', hrender, _, hmap, _⟩ := renderGame_shows (by decide) [] _ hplayed (.initial fun _ => 0)
    (.initial fun _ => 0) (fun _ => 0) (fun _ => 0) (fun _ => 0) [] 80 hempty (Nat.zero_le _)
    (fun c hc => absurd hc List.not_mem_nil) (fun j _ hne => (by cases hne)) (by decide)
    (by rw [scoreText_length, List.length_nil]; omega)
  exact ⟨_, s', hplayed, hrender, hmap⟩

end Game

end Zeos
