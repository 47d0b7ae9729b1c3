import Zeos.Session

/-!
# What the player sees

While a player types, between two games and at the end the screen shows one page,
drawn when the phase began. A newline in a name would break the page of the
leaderboard; the table of the keyboard has none.
-/

namespace Zeos

open Loops Libc Runs
set_option autoImplicit false

section OnScreen
variable {s : Screen} {g : Game.GameState}

theorem Screen.OnScreen.print (h : s.OnScreen) (xd : List UInt8) : (s.print xd).OnScreen :=
  h.foldl_printc _

theorem Screen.OnScreen.drawn (h : s.OnScreen) :
    s.Drawn s.cells s.cursor s.fgColor.toNat s.bgColor.toNat := ⟨h, rfl, rfl, rfl, rfl⟩

namespace Game

theorem renderMap_onScreen (h : s.OnScreen) : (renderMap s g).OnScreen := by
  apply times_preserves (fun _ (s : Screen) => s.OnScreen)
  · intro i s _ hs
    apply times_preserves (fun _ (s : Screen) => s.OnScreen)
    · intro j s _ hs
      unfold renderCell
      dsimp only
      split
      · exact hs
      · exact (hs.setColor _ _).print _
    · exact hs
  · exact h.gotoxy 0 0

theorem renderGame_onScreen {currentPlayer clearStr buffer : Buffer} {ticks : Nat} {s' : Screen}
    (h : s.OnScreen) (hs' : renderGame s g currentPlayer ticks clearStr buffer = some s') : s'.OnScreen := by
  have hmap : (renderMap s g).OnScreen := renderMap_onScreen h
  have hclear : (clearLine (renderMap s g) clearStr mapHeight).OnScreen :=
    ((hmap.setColor _ _).gotoxy _ _).print _
  have hlives := (((hclear.gotoxy 0 mapHeight).setColor Color.white.value Color.black.value).print
    (literal "Lives: ")).print (chars 64 (itodeca (int32 g.lives) buffer))
  have hscore := (hlives.gotoxy 12 mapHeight).setColor Color.white.value Color.black.value
  unfold renderGame renderFooter at hs'
  dsimp only at hs'
  split at hs'
  · cases hs'
  · cases hs'
    exact ((((((hscore.print _).print _).print _).print _).print _).print _).print _

end Game

end OnScreen

namespace Game

/-- Each line stands complete where it starts, no two overlap, and every other cell above
the last row is blank. -/
structure Shows (s : Screen) (lines : List Line) : Prop where
  apart : lines.Pairwise Line.Apart
  drawn : ∀ l ∈ lines, ∀ k c, l.text[k]? = some c → s.cells (l.start + k) = ink l.fg 0 c
  blank : ∀ i < mapHeight * mapWidth, Uncovered lines i → s.cells i = ink 0 0 (charCode ' ')

section Shown
variable {s : Screen} {lines : List Line}

theorem Drawn.shows {cells : Nat → UInt16} {p fg bg : Nat} (h : s.Drawn (page cells lines) p fg bg)
    (hapart : lines.Pairwise Line.Apart) : Shows s lines := by
  refine ⟨hapart, ?_, ?_⟩
  · intro l hl k c hc
    rw [h.cells]
    exact page_line hapart hl hc
  · intro i hi hu
    rw [h.cells, page_uncovered hu, if_pos hi]

theorem gameOverLines_apart (score : Nat) : (gameOverLines score).Pairwise Line.Apart := by
  have hten := decimal_int32_length score
  have hlabel : (text "Final Score: ").length = 13 := rfl
  have hscore : (text "Final Score: " ++ decimal (int32 score)).length ≤ 70 := by
    rw [List.length_append]
    omega
  rw [gameOverLines, List.pairwise_cons, List.pairwise_cons]
  refine ⟨?_, ?_, List.pairwise_singleton _ _⟩
  · intro l hl
    rcases List.mem_cons.mp hl with rfl | hl
    · exact Line.apart_rows 5 7 (by decide) rfl rfl (by decide)
    · rw [List.mem_singleton.mp hl]
      exact Line.apart_rows 5 9 (by decide) rfl rfl (by decide)
  · intro l hl
    rw [List.mem_singleton.mp hl]
    exact Line.apart_rows 7 9 (by decide) rfl rfl hscore

instance : DecidableRel Line.Apart := fun _ _ => inferInstanceAs (Decidable (_ ∨ _))

theorem nameLines_apart : nameLines.Pairwise Line.Apart := by decide

theorem renderGameOver_shows (h : s.OnScreen) (score : Nat) (scoreMessage : Buffer) :
    (renderGameOver s score scoreMessage).OnScreen ∧
      Shows (renderGameOver s score scoreMessage) (gameOverLines score) := by
  obtain ⟨p', hdrawn⟩ := renderGameOver_drawn h.drawn score scoreMessage
  exact ⟨hdrawn.onScreen, Drawn.shows hdrawn (gameOverLines_apart score)⟩

theorem renderIntroduceName_shows (h : s.OnScreen) :
    (renderIntroduceName s).OnScreen ∧ Shows (renderIntroduceName s) nameLines := by
  have hdrawn := renderIntroduceName_drawn h.drawn
  exact ⟨hdrawn.onScreen, Drawn.shows hdrawn nameLines_apart⟩

theorem renderLeaderboard_shows {leaderboard : Nat → LeaderboardEntry} {names : Nat → List UInt8}
    {size : Nat} (h : s.OnScreen) (hsize : size ≤ maxLeaderboardEntries) (buff : Buffer)
    (hnames : ∀ i < size, Printable (leaderboard i).name (names i)) :
    (renderLeaderboard s leaderboard size buff).OnScreen ∧
      Shows (renderLeaderboard s leaderboard size buff) (leaderboardLines leaderboard names size) := by
  obtain ⟨p', hdrawn⟩ := renderLeaderboard_drawn hsize buff hnames h.drawn
  exact ⟨hdrawn.onScreen, Drawn.shows hdrawn (leaderboardLines_apart hsize hnames)⟩

end Shown

/-- An array for a name without a newline, typed or left on the stack. -/
def Unbroken (b : Buffer) : Prop := ∀ j < maxNameLength, b j ≠ charCode '\n'

/-- What the keyboard can put into the shared page. -/
def Input.Typed : Input → Prop
  | .name samples _ _ => ∀ c ∈ samples, c ∈ charMap
  | _ => True

theorem newline_notMem_charMap : charCode '\n' ∉ charMap := by decide

theorem mem_freshChars {c last : UInt8} {samples : List UInt8} (h : c ∈ freshChars last samples) :
    c ∈ samples := by
  induction samples generalizing last with
  | nil => cases h
  | cons d samples ih =>
    unfold freshChars at h
    split at h
    · rcases List.mem_cons.mp h with rfl | h
      · exact List.mem_cons_self
      · exact List.mem_cons_of_mem d (ih h)
    · exact List.mem_cons_of_mem d (ih h)

theorem Unbroken.getPlayerName {name player : Buffer} {samples : List UInt8} (hclean : Unbroken name)
    (htyped : ∀ c ∈ samples, c ∈ charMap) (h : getPlayerName name samples = some player) :
    Unbroken player := by
  obtain ⟨s', hs', rfl⟩ := Option.map_eq_some_iff.mp h
  have hadd := nameLoop_added (s := ⟨Function.update name maxNameLength 0, 0, 0⟩) (Nat.zero_le _) hs'
  generalize hnew : (freshChars 0 (beforeDot samples)).take (maxNameLength - 0) = new at hadd
  intro j hj he
  by_cases hlt : j < new.length
  · have hchar : s'.name (0 + j) = new[j] := hadd.holds j _ (List.getElem?_eq_getElem hlt)
    rw [Nat.zero_add, he] at hchar
    have hmem : charCode '\n' ∈ new := hchar ▸ List.getElem_mem hlt
    rw [← hnew] at hmem
    have hsample := List.takeWhile_subset _ (mem_freshChars (List.mem_of_mem_take hmem))
    exact newline_notMem_charMap (htyped _ hsample)
  · -- behind what was typed stands what the array held before
    have hrest := hadd.rest j (.inr (by rw [Nat.zero_add]; exact Nat.le_of_not_lt hlt))
    rw [he] at hrest
    change _ = Function.update name maxNameLength 0 j at hrest
    rw [Function.update_of_ne (Nat.ne_of_lt hj)] at hrest
    exact hclean j hj hrest.symm

theorem Unbroken.printable {b : Buffer} (h : Unbroken b) (hend : b maxNameLength = 0) :
    Printable b (nameOf b) := by
  refine ⟨holdsString_nameOf hend, nameOf_length b, ?_⟩
  intro c hc
  obtain ⟨j, hj, rfl⟩ := List.mem_map.mp (List.takeWhile_subset _ hc)
  exact h j (List.mem_range.mp hj)

theorem Printable.strcpy {src dest b : Buffer} {name : List UInt8} (h : Printable src name)
    (hb : strcpy (maxNameLength + 1) dest src = some b) : Printable b name := by
  obtain ⟨b', hcopy, hholds, _⟩ := strcpy_spec h.holds (Nat.lt_succ_of_le h.length) dest
  cases hb.symm.trans hcopy
  exact ⟨hholds, h.length, h.line⟩

def ShowsPhase (s : Session) : Prop :=
  match s.phase with
  | .naming => Shows s.screen nameLines
  | .playing => True
  | .gameOver | .over => Shows s.screen (gameOverLines s.game.score)
  | .scores => ∃ names, (∀ i < s.leaderboardSize, Printable (s.leaderboard i).name (names i)) ∧
    Shows s.screen (leaderboardLines s.leaderboard names s.leaderboardSize)

/-- Nothing that the next page shows can break it. -/
structure Presentable (s : Session) : Prop where
  onScreen : s.screen.OnScreen
  size : s.leaderboardSize ≤ maxLeaderboardEntries
  player : Unbroken s.player
  entries : ∀ i < s.leaderboardSize, ∃ name, Printable (s.leaderboard i).name name

structure Displayed (s : Session) : Prop extends Presentable s where
  current : s.phase = .playing → ∃ name, Printable s.currentPlayer name
  page : ShowsPhase s

section Displays
variable {s t : Session} {stack : Stack} {ticks : Nat}

theorem Presentable.startRound {level lives score : Nat} {name : Buffer} (h : Presentable s)
    (hname : ∃ n, Printable name n) (ht : startRound s level lives score name ticks stack = some t) :
    Displayed t := by
  obtain ⟨n, hname⟩ := hname
  obtain ⟨currentPlayer, game, screen, hcopy, _, hrender, rfl⟩ := startRound_cases ht
  exact ⟨⟨renderGame_onScreen h.onScreen hrender, h.size, h.player, h.entries⟩,
    fun _ => ⟨n, hname.strcpy hcopy⟩, trivial⟩

theorem Presentable.endGame (h : Presentable s) (hname : ∃ n, Printable s.currentPlayer n)
    (ht : endGame s stack = some t) : Displayed t := by
  obtain ⟨hon, hshows⟩ := renderGameOver_shows h.onScreen s.game.score stack.buffer
  by_cases hsize : s.leaderboardSize < maxLeaderboardEntries
  · obtain ⟨n, hname⟩ := hname
    obtain ⟨name, hcopy, rfl⟩ := endGame_cases ht hsize
    -- the picture itself is never evaluated
    generalize renderGameOver s.screen s.game.score stack.buffer = screen at hon hshows ⊢
    refine ⟨⟨hon, hsize, h.player, ?_⟩, fun hp => (by cases hp), hshows⟩
    intro i hi
    dsimp only at hi ⊢
    rcases Nat.lt_succ_iff_lt_or_eq.mp hi with hlt | rfl
    · rw [Function.update_of_ne (Nat.ne_of_lt hlt)]
      exact h.entries i hlt
    · rw [Function.update_self]
      exact ⟨n, hname.strcpy hcopy⟩
  · obtain ⟨s₁, hupdate, ht⟩ := Option.bind_eq_some_iff.mp ht
    rw [updateLeaderboard, if_neg hsize] at hupdate
    cases hupdate
    obtain rfl := Option.some.inj ht
    generalize renderGameOver s.screen s.game.score stack.buffer = screen at hon hshows ⊢
    exact ⟨⟨hon, h.size, h.player, h.entries⟩, fun hp => (by cases hp), hshows⟩

theorem Presentable.nextPlayer (h : Presentable s) (stack : Stack) : Displayed (nextPlayer s stack) := by
  unfold Game.nextPlayer
  split
  · obtain ⟨hon, hshows⟩ := renderGameOver_shows h.onScreen s.game.score stack.buffer
    generalize renderGameOver s.screen s.game.score stack.buffer = screen at hon hshows ⊢
    exact ⟨⟨hon, h.size, h.player, h.entries⟩, fun hp => (by cases hp), hshows⟩
  · obtain ⟨hon, hshows⟩ := renderIntroduceName_shows h.onScreen
    generalize renderIntroduceName s.screen = screen at hon hshows ⊢
    exact ⟨⟨hon, h.size, h.player, h.entries⟩, fun hp => (by cases hp), hshows⟩

theorem Displayed.gameFrame {f : Frame} (h : Displayed s) (hphase : s.phase = .playing)
    (ht : gameFrame s f ticks stack = some t) : Displayed t := by
  have hname := h.current hphase
  obtain ⟨game, _, hcases⟩ := gameFrame_cases ht
  have hready : Presentable { s with game := game } := ⟨h.onScreen, h.size, h.player, h.entries⟩
  rcases hcases with ⟨_, hend⟩ | ⟨_, _, hround | hend⟩ | ⟨_, _, screen, hrender, rfl⟩
  · exact hready.endGame hname hend
  · exact hready.startRound hname hround
  · exact hready.endGame hname hend
  · have hon : screen.OnScreen := renderGame_onScreen h.onScreen hrender
    refine ⟨⟨hon, h.size, h.player, h.entries⟩, fun _ => hname, ?_⟩
    unfold ShowsPhase
    rw [hphase]
    trivial

theorem Displayed.next {input : Input} (h : Displayed s) (htyped : input.Typed)
    (ht : s.next input = some t) : Displayed t := by
  rcases Session.next_cases ht with ⟨samples, ticks, stack, rfl, hphase, ht⟩ |
    ⟨f, ticks, stack, rfl, hphase, ht⟩ | ⟨stack, rfl, hphase, rfl⟩ | ⟨stack, rfl, hphase, rfl⟩
  · obtain ⟨player, hnamed, hstart⟩ := startGame_cases ht
    have hclean : Unbroken player := h.player.getPlayerName htyped hnamed
    have hready : Presentable { s with
        screen := s.screen.print (chars (maxNameLength + 1) player)
        player := player } := ⟨h.onScreen.print _, h.size, hclean, h.entries⟩
    exact hready.startRound ⟨_, hclean.printable (getPlayerName_end hnamed)⟩ hstart
  · exact h.gameFrame hphase ht
  · choose! names hnames using h.entries
    obtain ⟨hon, hshows⟩ := renderLeaderboard_shows h.onScreen h.size stack.buffer hnames
    generalize renderLeaderboard s.screen s.leaderboard s.leaderboardSize stack.buffer = screen
      at hon hshows ⊢
    exact ⟨⟨hon, h.size, h.player, h.entries⟩, fun hp => (by cases hp), names, hnames, hshows⟩
  · exact h.toPresentable.nextPlayer stack

end Displays

theorem gameloopStart_displayed {s start : Session} {stack : Stack} (hon : s.screen.OnScreen)
    (hplayer : Unbroken s.player) (h : gameloopStart s stack = some start) : Displayed start := by
  unfold gameloopStart at h
  obtain ⟨leaderboard, _, h⟩ := Option.bind_eq_some_iff.mp h
  cases h
  apply Presentable.nextPlayer
  refine ⟨hon.print _, Nat.zero_le _, ?_, fun i hi => absurd hi (Nat.not_lt_zero i)⟩
  intro j hj
  dsimp only
  rw [Function.update_of_ne (Nat.ne_of_lt hj)]
  exact hplayer j hj

/-- Whatever is typed on the keyboard and played, the page of each phase stands on the
screen, complete and alone, and nothing is drawn outside of the screen. -/
theorem session_displays (s start t : Session) (stack : Stack) (tr : List Input)
    (hon : s.screen.OnScreen) (hplayer : Unbroken s.player) (htyped : ∀ input ∈ tr, input.Typed)
    (hstart : gameloopStart s stack = some start) (h : Run SessionStep start tr t) : Displayed t := by
  apply h.invariant_trace (fun tr t => (∀ input ∈ tr, input.Typed) → Displayed t)
    (fun _ => gameloopStart_displayed hon hplayer hstart) ?_ htyped
  intro tr t input u ht hstep htyped
  exact (ht fun e he => htyped e (List.mem_cons_of_mem input he)).next
    (htyped input List.mem_cons_self) hstep

/-- When the only life of a player without a name is lost. -/
theorem session_displays_caught : ∃ start tr t, gameloopStart
      ⟨.initial fun _ => 0, fun _ => ⟨fun _ => 0, 0⟩, 0, fun _ => 0, fun _ => 0, initialState 0 1 0, .over⟩
      ⟨fun _ => 0, fun _ => 0⟩ = some start ∧ Run SessionStep start tr t ∧
    Shows t.screen (gameOverLines t.game.score) := by
  obtain ⟨start, tr, t, frames, hstart, hrun, hover, _, hmoves⟩ := exists_caught
  have htyped : ∀ input ∈ tr, input.Typed := by
    intro input hinput
    cases input with
    | name samples ticks stack =>
      have hmem : Move.typed samples ∈ tr.reverse.flatMap Input.moves :=
        List.mem_flatMap.mpr ⟨_, List.mem_reverse.mpr hinput, List.mem_singleton_self _⟩
      rw [hmoves] at hmem
      rcases List.mem_cons.mp hmem with he | hm
      · cases he
        intro c hc
        rw [List.mem_singleton.mp hc]
        decide
      · obtain ⟨_, _, he⟩ := List.mem_map.mp hm
        cases he
    | frame f ticks stack => trivial
    | awake stack => trivial
  have hdisplayed := session_displays _ start t _ tr (.initial _)
    (fun j _ he => (by cases he)) htyped hstart hrun
  have hpage := hdisplayed.page
  rw [ShowsPhase, hover] at hpage
  exact ⟨start, tr, t, hstart, hrun, hpage⟩

end Game

end Zeos
