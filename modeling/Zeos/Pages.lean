import Zeos.Rendering

/-!
# The pages of `pacman.c`

Between two rounds the game blanks the screen and writes a few lines: where the
player types a name, the score of a finished game and the leaderboard. Every page is
its lines on blank cells, whatever the screen showed before.
-/

namespace Zeos.Game

open Loops Libc
set_option autoImplicit false

def green : Nat := 0x02

abbrev maxLeaderboardEntries : Nat := 2

structure LeaderboardEntry where
  name : Buffer
  score : Nat

def clearScreen (s : Screen) : Screen :=
  times mapHeight (fun y => times mapWidth fun x s => (s.gotoxy x y).print (literal " "))
    (s.setColor Color.black.value Color.black.value)

def borderRow (borderWidth : Nat) (s : Screen) : Screen := times borderWidth (fun _ s => s.print (literal "#")) s

def renderIntroduceName (s : Screen) : Screen :=
  let s := clearScreen s
  let (borderX, borderY) := (10, 5)
  let (borderWidth, borderHeight) := (30, 3)
  let s := (s.setColor green Color.black.value).gotoxy borderX borderY
  let s := borderRow borderWidth s
  let s := times (borderHeight - 1) (fun i s =>
    let s := (s.gotoxy borderX (borderY + (i + 1))).print (literal "#")
    (s.gotoxy (borderX + borderWidth - 1) (borderY + (i + 1))).print (literal "#")) s
  let s := s.gotoxy borderX (borderY + borderHeight)
  let s := borderRow borderWidth s
  let s := (s.gotoxy (borderX + 2) (borderY + 1)).setColor Color.white.value Color.black.value
  let s := s.print (literal "Enter your name:")
  s.gotoxy (borderX + 2) (borderY + 2)

/-- One entry of the list; `buff` is the array for the numerals. -/
def renderEntry (leaderboard : Nat → LeaderboardEntry) (i : Nat) (s : Screen × Buffer) : Screen × Buffer :=
  let (s, buff) := s
  let s := s.gotoxy 10 (7 + i)
  let buff := itodeca i buff
  let s := (s.print (chars 50 buff)).print (literal ".   ")
  let s := (s.print (chars (maxNameLength + 1) (leaderboard i).name)).print (literal "  -  ")
  let buff := itodeca (int32 (leaderboard i).score) buff
  ((s.print (chars 50 buff)).print (literal "\n"), buff)

def renderLeaderboard (s : Screen) (leaderboard : Nat → LeaderboardEntry) (leaderboardSize : Nat)
    (buff : Buffer) : Screen :=
  let s := clearScreen s
  let s := (s.gotoxy 10 5).setColor green Color.black.value
  let s := s.print (literal "Leaderboard:")
  let s := s.setColor green Color.black.value
  let (s, _) := times leaderboardSize (renderEntry leaderboard) (s, buff)
  (s.gotoxy 10 (7 + leaderboardSize + 2)).print (literal "Press any key to continue...")

def renderGameOver (s : Screen) (score : Nat) (scoreMessage : Buffer) : Screen :=
  let s := clearScreen s
  let s := (s.gotoxy 10 5).setColor Color.red.value Color.black.value
  let s := s.print (literal "Game Over!!!")
  let s := (s.gotoxy 10 7).setColor Color.white.value Color.black.value
  let s := s.print (literal "Final Score: ")
  let scoreMessage := itodeca (int32 score) scoreMessage
  let s := s.print (chars 30 scoreMessage)
  (s.gotoxy 10 9).print (literal "Wait 3 seconds until the next round begins...")

/-- Characters in one colour, on black, from one cell on. -/
structure Line where
  start : Nat
  fg : Nat
  text : List UInt8

/-- The cells with these lines on the blank page. The last row is not part of it. -/
def page (cells : Nat → UInt16) (lines : List Line) : Nat → UInt16 :=
  lines.foldl (fun cells l => paint cells l.fg 0 l.start l.text)
    (upTo (mapHeight * mapWidth) (fun _ => ink 0 0 (charCode ' ')) cells)

theorem page_append (cells : Nat → UInt16) (lines : List Line) (l : Line) :
    page cells (lines ++ [l]) = paint (page cells lines) l.fg 0 l.start l.text := by
  rw [page, List.foldl_append]
  rfl

/-- Two lines without a common cell. -/
def Line.Apart (l l' : Line) : Prop :=
  l.start + l.text.length ≤ l'.start ∨ l'.start + l'.text.length ≤ l.start

def Uncovered (lines : List Line) (i : Nat) : Prop :=
  ∀ l ∈ lines, i < l.start ∨ l.start + l.text.length ≤ i

theorem page_uncovered {cells : Nat → UInt16} {lines : List Line} {i : Nat} (h : Uncovered lines i) :
    page cells lines i = if i < mapHeight * mapWidth then ink 0 0 (charCode ' ') else cells i := by
  induction lines using List.reverseRecOn with
  | nil => rfl
  | append_singleton lines l ih =>
    rw [page_append, paint_out (h l (List.mem_append_right _ (List.mem_singleton_self l)))]
    exact ih fun l' hl' => h l' (List.mem_append_left _ hl')

theorem page_line {cells : Nat → UInt16} {lines : List Line} (h : lines.Pairwise Line.Apart) {l : Line}
    (hl : l ∈ lines) {k : Nat} {c : UInt8} (hc : l.text[k]? = some c) :
    page cells lines (l.start + k) = ink l.fg 0 c := by
  induction lines using List.reverseRecOn with
  | nil => cases hl
  | append_singleton lines l' ih =>
    rw [List.pairwise_append] at h
    rw [page_append]
    rcases List.mem_append.mp hl with hl | hl
    · have hlt := (List.getElem?_eq_some_iff.mp hc).1
      have hapart := h.2.2 l hl l' (List.mem_singleton_self l')
      rw [paint_out (by unfold Line.Apart at hapart; omega)]
      exact ih h.1 hl
    · rw [List.mem_singleton.mp hl] at hc ⊢
      exact paint_get hc

section Drawing
variable {s : Screen} {cells : Nat → UInt16} {lines : List Line} {p fg : Nat}

theorem Drawn.line (h : s.Drawn (page cells lines) p fg 0) (bytes : List UInt8)
    (hline : ∀ c ∈ bytes, c ≠ charCode '\n') (hfit : p + bytes.length < screenRows * screenColumns) :
    (bytes.foldl Screen.printc s).Drawn (page cells (lines ++ [⟨p, fg, bytes⟩])) (p + bytes.length) fg 0 := by
  have hdrawn := h.foldl_printc bytes hline (Nat.le_of_lt hfit)
  rw [Nat.mod_eq_of_lt hfit] at hdrawn
  rw [page_append]
  exact hdrawn

theorem clearScreen_drawn {bg : Nat} (h : s.Drawn cells p fg bg) :
    ∃ p', (clearScreen s).Drawn (page cells []) p' 0 0 := by
  have hspace : text " " = [charCode ' '] := rfl
  apply times_cells (fun n (s : Screen) => ∃ p',
    s.Drawn (upTo n (fun _ => ink 0 0 (charCode ' ')) cells) p' 0 0)
  · intro y x s hy hx hs
    obtain ⟨p', hs⟩ := hs
    have hfit : y * mapWidth + x + 1 < screenRows * screenColumns := by
      simp only [mapHeight, mapWidth, screenRows, screenColumns] at hy hx ⊢
      omega
    have hdrawn := (hs.gotoxy hx (Nat.lt_succ_of_lt hy)).foldl_printc (text " ") (text_line _ rfl)
      (Nat.le_of_lt hfit)
    rw [hspace, paint_cons, paint_nil] at hdrawn
    rw [print_literal _ (by decide), hspace, ← update_upTo]
    exact ⟨_, hdrawn⟩
  · have hzero : upTo 0 (fun _ => ink 0 0 (charCode ' ')) cells = cells := by
      funext i
      exact if_neg (Nat.not_lt_zero i)
    rw [hzero]
    exact ⟨p, h.setColor (Nat.succ_pos 15) (Nat.succ_pos 15)⟩

def gameOverLines (score : Nat) : List Line :=
  [⟨5 * 80 + 10, Color.red.value, text "Game Over!!!"⟩,
    ⟨7 * 80 + 10, Color.white.value, text "Final Score: " ++ decimal (int32 score)⟩,
    ⟨9 * 80 + 10, Color.white.value, text "Wait 3 seconds until the next round begins..."⟩]

theorem renderGameOver_drawn {bg : Nat} (h : s.Drawn cells p fg bg) (score : Nat) (scoreMessage : Buffer) :
    ∃ p', (renderGameOver s score scoreMessage).Drawn (page cells (gameOverLines score)) p'
      Color.white.value Color.black.value := by
  have hred : Color.red.value < 16 := Color.value_lt _
  have hwhite : Color.white.value < 16 := Color.value_lt _
  have hblack : Color.black.value < 16 := Color.value_lt _
  have hten := decimal_int32_length score
  have hscore := print_chars 30 (itodeca_decimal (int32 score) scoreMessage)
    (Nat.lt_of_le_of_lt hten (by decide))
  have hlabel := text_line "Final Score: " rfl
  have hlabelLength : (text "Final Score: ").length = 13 := rfl
  obtain ⟨p₀, h₀⟩ := clearScreen_drawn h
  have h₁ := Drawn.line (((h₀.gotoxy (x := 10) (y := 5) (by decide) (by decide)).setColor hred hblack))
    (text "Game Over!!!") (text_line _ rfl) (by decide)
  have h₂ := Drawn.line ((h₁.gotoxy (x := 10) (y := 7) (by decide) (by decide)).setColor hwhite hblack)
    (text "Final Score: " ++ decimal (int32 score)) (by
      intro c hc
      rcases List.mem_append.mp hc with hc | hc
      · exact hlabel c hc
      · exact decimal_line hc) (by
      rw [List.length_append]
      simp only [screenRows, screenColumns]
      omega)
  have h₃ := Drawn.line (h₂.gotoxy (x := 10) (y := 9) (by decide) (by decide))
    (text "Wait 3 seconds until the next round begins...") (text_line _ rfl) (by decide)
  simp only [renderGameOver, hscore]
  rw [print_literal _ (t := "Game Over!!!") (by decide), print_literal _ (t := "Final Score: ") (by decide),
    print_literal _ (t := "Wait 3 seconds until the next round begins...") (by decide), ← List.foldl_append]
  exact ⟨_, h₃⟩

def titleLine : Line := ⟨5 * 80 + 10, green, text "Leaderboard:"⟩

def entryLine (leaderboard : Nat → LeaderboardEntry) (names : Nat → List UInt8) (i : Nat) : Line :=
  ⟨(7 + i) * 80 + 10, green, decimal i ++ text ".   " ++ names i ++ text "  -  " ++
    decimal (int32 (leaderboard i).score)⟩

def promptLine (leaderboardSize : Nat) : Line :=
  ⟨(7 + leaderboardSize + 2) * 80 + 10, green, text "Press any key to continue..."⟩

def leaderboardLines (leaderboard : Nat → LeaderboardEntry) (names : Nat → List UInt8)
    (leaderboardSize : Nat) : List Line :=
  titleLine :: (List.range leaderboardSize).map (entryLine leaderboard names) ++ [promptLine leaderboardSize]

/-- A name that can stand in a line. -/
structure Printable (b : Buffer) (name : List UInt8) : Prop where
  holds : HoldsString b name
  length : name.length ≤ maxNameLength
  line : ∀ c ∈ name, c ≠ charCode '\n'

section Entries
variable {leaderboard : Nat → LeaderboardEntry} {names : Nat → List UInt8} {i : Nat}

theorem entryLine_length (leaderboard : Nat → LeaderboardEntry) (hi : i < maxLeaderboardEntries)
    (h : (names i).length ≤ maxNameLength) :
    (entryLine leaderboard names i).text.length ≤ 30 := by
  have hindex : (decimal i).length ≤ 1 := decimal_length (n := i) (by decide) (by
    simp only [maxLeaderboardEntries] at hi
    omega) (le_refl _)
  have hscore := decimal_int32_length (leaderboard i).score
  have h₁ : (text ".   ").length = 4 := rfl
  have h₂ : (text "  -  ").length = 5 := rfl
  simp only [entryLine, List.length_append, h₁, h₂]
  simp only [maxNameLength] at h
  omega

theorem entryLine_line (leaderboard : Nat → LeaderboardEntry) (h : ∀ c ∈ names i, c ≠ charCode '\n') :
    ∀ c ∈ (entryLine leaderboard names i).text, c ≠ charCode '\n' := by
  intro c hc
  simp only [entryLine, List.mem_append] at hc
  rcases hc with (((hc | hc) | hc) | hc) | hc
  · exact decimal_line hc
  · exact text_line _ rfl c hc
  · exact h c hc
  · exact text_line _ rfl c hc
  · exact decimal_line hc

/-- The newline behind an entry only moves the cursor. -/
theorem Drawn.newline {bg : Nat} (h : s.Drawn cells p fg bg) :
    ∃ p', (s.print (literal "\n")).Drawn cells p' fg bg := by
  rw [print_literal _ (by decide)]
  exact ⟨_, h.onScreen.foldl_printc _, h.cells, rfl, h.fg, h.bg⟩

theorem renderEntry_drawn {buff : Buffer} (h : s.Drawn (page cells lines) p green 0)
    (hi : i < maxLeaderboardEntries) (hname : Printable (leaderboard i).name (names i)) :
    ∃ p', (renderEntry leaderboard i (s, buff)).1.Drawn
      (page cells (lines ++ [entryLine leaderboard names i])) p' green 0 := by
  have hlen := entryLine_length leaderboard hi hname.length
  have hrow : 7 + i < screenRows := by
    simp only [maxLeaderboardEntries, screenRows] at hi ⊢
    omega
  have hentry := Drawn.line (h.gotoxy (x := 10) (by decide) hrow)
    _ (entryLine_line leaderboard hname.line) (by
      simp only [screenRows, screenColumns] at hrow ⊢
      omega)
  have hindex : (decimal i).length < 50 := by
    have := decimal_length (n := i) (k := 1) (by decide) (by
      simp only [maxLeaderboardEntries] at hi
      omega) (le_refl _)
    omega
  have hscore : (decimal (int32 (leaderboard i).score)).length < 50 :=
    Nat.lt_of_le_of_lt (decimal_int32_length _) (by decide)
  obtain ⟨p', hdrawn⟩ := Drawn.newline hentry
  refine ⟨p', ?_⟩
  simp only [renderEntry]
  rw [print_chars 50 (itodeca_decimal i buff) hindex, print_literal _ (t := ".   ") (by decide),
    print_chars (maxNameLength + 1) hname.holds (Nat.lt_succ_of_le hname.length),
    print_literal _ (t := "  -  ") (by decide),
    print_chars 50 (itodeca_decimal (int32 (leaderboard i).score) _) hscore]
  simp only [entryLine, List.foldl_append] at hdrawn
  exact hdrawn

theorem renderEntries_drawn {size : Nat} (hsize : size ≤ maxLeaderboardEntries) (buff : Buffer)
    (hnames : ∀ i < size, Printable (leaderboard i).name (names i))
    (h : s.Drawn (page cells lines) p green 0) :
    ∃ p', (times size (renderEntry leaderboard) (s, buff)).1.Drawn
      (page cells (lines ++ (List.range size).map (entryLine leaderboard names))) p' green 0 := by
  apply times_preserves (fun i (t : Screen × Buffer) => ∃ p', t.1.Drawn
    (page cells (lines ++ (List.range i).map (entryLine leaderboard names))) p' green 0)
  · intro i t hi ht
    obtain ⟨p', ht⟩ := ht
    rw [List.range_succ, List.map_append, List.map_singleton, ← List.append_assoc]
    exact renderEntry_drawn ht (Nat.lt_of_lt_of_le hi hsize) (hnames i hi)
  · rw [List.range_zero, List.map_nil, List.append_nil]
    exact ⟨p, h⟩

theorem renderLeaderboard_drawn {size bg : Nat} (hsize : size ≤ maxLeaderboardEntries) (buff : Buffer)
    (hnames : ∀ i < size, Printable (leaderboard i).name (names i)) (h : s.Drawn cells p fg bg) :
    ∃ p', (renderLeaderboard s leaderboard size buff).Drawn
      (page cells (leaderboardLines leaderboard names size)) p' green 0 := by
  have hgreen : green < 16 := by decide
  have hblack : Color.black.value < 16 := Color.value_lt _
  have hrow : 7 + size + 2 < screenRows := by
    simp only [maxLeaderboardEntries, screenRows] at hsize ⊢
    omega
  obtain ⟨p₀, h₀⟩ := clearScreen_drawn h
  have htitle := Drawn.line ((h₀.gotoxy (x := 10) (y := 5) (by decide) (by decide)).setColor hgreen hblack)
    (text "Leaderboard:") (text_line _ rfl) (by decide)
  obtain ⟨p₁, h₁⟩ := renderEntries_drawn hsize buff hnames (htitle.setColor hgreen hblack)
  have hprompt : (text "Press any key to continue...").length = 28 := rfl
  have h₂ := Drawn.line (h₁.gotoxy (x := 10) (by decide) hrow)
    (text "Press any key to continue...") (text_line _ rfl) (by
      simp only [screenRows, screenColumns] at hrow ⊢
      omega)
  simp only [renderLeaderboard]
  rw [print_literal _ (t := "Leaderboard:") (by decide),
    print_literal _ (t := "Press any key to continue...") (by decide)]
  exact ⟨_, h₂⟩

theorem Line.apart_rows {l l' : Line} (row row' : Nat) (h : row < row') (hl : l.start = row * 80 + 10)
    (hl' : l'.start = row' * 80 + 10) (hlen : l.text.length ≤ 70) : l.Apart l' := by
  refine .inl ?_
  rw [hl, hl']
  omega

theorem leaderboardLines_apart {size : Nat} (hsize : size ≤ maxLeaderboardEntries)
    (hnames : ∀ i < size, Printable (leaderboard i).name (names i)) :
    (leaderboardLines leaderboard names size).Pairwise Line.Apart := by
  have hentry : ∀ i < size, (entryLine leaderboard names i).text.length ≤ 70 := by
    intro i hi
    have := entryLine_length leaderboard (Nat.lt_of_lt_of_le hi hsize) (hnames i hi).length
    omega
  have hrange : ((List.range size).map (entryLine leaderboard names)).Pairwise Line.Apart := by
    rw [List.pairwise_map]
    apply List.Pairwise.imp_of_mem _ (List.pairwise_lt_range (n := size))
    intro i j hi _ hij
    exact Line.apart_rows (7 + i) (7 + j) (Nat.add_lt_add_left hij 7) rfl rfl (hentry i (List.mem_range.mp hi))
  rw [leaderboardLines, List.cons_append, List.pairwise_cons, List.pairwise_append]
  refine ⟨?_, hrange, List.pairwise_singleton _ _, ?_⟩
  · intro l hl
    rcases List.mem_append.mp hl with hl | hl
    · obtain ⟨i, hi, rfl⟩ := List.mem_map.mp hl
      exact Line.apart_rows 5 (7 + i) (by omega) rfl rfl (by decide)
    · rw [List.mem_singleton.mp hl]
      exact Line.apart_rows 5 (7 + size + 2) (by omega) rfl rfl (by decide)
  · intro l hl l' hl'
    obtain ⟨i, hi, rfl⟩ := List.mem_map.mp hl
    rw [List.mem_singleton.mp hl']
    have hlt := List.mem_range.mp hi
    exact Line.apart_rows (7 + i) (7 + size + 2) (by omega) rfl rfl (hentry i hlt)

end Entries

def hashes (n : Nat) : List UInt8 := List.replicate n (charCode '#')

theorem hashes_line (n : Nat) : ∀ c ∈ hashes n, c ≠ charCode '\n' := by
  intro c hc he
  rw [List.eq_of_mem_replicate hc] at he
  cases he

def nameLines : List Line :=
  [⟨5 * 80 + 10, green, hashes 30⟩, ⟨6 * 80 + 10, green, hashes 1⟩, ⟨6 * 80 + 39, green, hashes 1⟩,
    ⟨7 * 80 + 10, green, hashes 1⟩, ⟨7 * 80 + 39, green, hashes 1⟩, ⟨8 * 80 + 10, green, hashes 30⟩,
    ⟨6 * 80 + 12, Color.white.value, text "Enter your name:"⟩]

theorem borderRow_eq (n : Nat) (s : Screen) : borderRow n s = (hashes n).foldl Screen.printc s := by
  induction n with
  | zero => rfl
  | succ n ih =>
    change (times n _ s).print (literal "#") = _
    rw [print_literal _ (by decide), hashes, List.replicate_succ', List.foldl_append]
    rw [borderRow] at ih
    rw [ih]
    rfl

theorem renderIntroduceName_drawn {bg : Nat} (h : s.Drawn cells p fg bg) :
    (renderIntroduceName s).Drawn (page cells nameLines) (7 * 80 + 12) Color.white.value 0 := by
  have hgreen : green < 16 := by decide
  have hwhite : Color.white.value < 16 := Color.value_lt _
  have hblack : Color.black.value < 16 := Color.value_lt _
  have hone : text "#" = hashes 1 := rfl
  obtain ⟨p₀, h₀⟩ := clearScreen_drawn h
  have h₁ := Drawn.line ((h₀.setColor hgreen hblack).gotoxy (x := 10) (y := 5) (by decide) (by decide))
    (hashes 30) (hashes_line 30) (by decide)
  have h₂ := Drawn.line (h₁.gotoxy (x := 10) (y := 6) (by decide) (by decide)) (hashes 1)
    (hashes_line 1) (by decide)
  have h₃ := Drawn.line (h₂.gotoxy (x := 39) (y := 6) (by decide) (by decide)) (hashes 1)
    (hashes_line 1) (by decide)
  have h₄ := Drawn.line (h₃.gotoxy (x := 10) (y := 7) (by decide) (by decide)) (hashes 1)
    (hashes_line 1) (by decide)
  have h₅ := Drawn.line (h₄.gotoxy (x := 39) (y := 7) (by decide) (by decide)) (hashes 1)
    (hashes_line 1) (by decide)
  have h₆ := Drawn.line (h₅.gotoxy (x := 10) (y := 8) (by decide) (by decide)) (hashes 30)
    (hashes_line 30) (by decide)
  have h₇ := Drawn.line ((h₆.gotoxy (x := 12) (y := 6) (by decide) (by decide)).setColor hwhite hblack)
    (text "Enter your name:") (text_line _ rfl) (by decide)
  have h₈ := h₇.gotoxy (x := 12) (y := 7) (by decide) (by decide)
  simp only [renderIntroduceName, borderRow_eq, times]
  simp only [print_literal _ (t := "#") (by decide), hone]
  rw [print_literal _ (t := "Enter your name:") (by decide)]
  exact h₈

end Drawing

end Zeos.Game
