import Zeos.Pacman

/-!
# The searches of `pacman.c`

`dfs`, `bfs` and `dijkstra` with the queue of the last one. The ghosts do not call
them at present. Each access to one of the arrays is checked, an entry of `previous`
that has not been written is not read, and a loop that uses up its fuel counts as one
that never ends.
-/

namespace Zeos.Game

open Loops
set_option autoImplicit false

inductive SearchFault where
  | outOfBounds
  | uninitialised
  | divergence
  deriving DecidableEq, Repr

abbrev numCells : Nat := mapHeight * mapWidth

/-- `table[p.y][p.x]` of an array with `MAP_HEIGHT` rows and `MAP_WIDTH` columns. -/
def readCell {α : Type} (table : Point → α) (p : Point) : Except SearchFault α :=
  if InBounds p then .ok (table p) else .error .outOfBounds

def writeCell {α : Type} (table : Point → α) (p : Point) (v : α) : Except SearchFault (Point → α) :=
  if InBounds p then .ok (Function.update table p v) else .error .outOfBounds

/-- The map is read inside the bounds only, so that no other fault is possible. -/
def canMove (game : GameState) (p : Point) : Except SearchFault Bool :=
  match isValidMove game p with
  | .ok valid => .ok valid
  | .error _ => .error .outOfBounds

/-- An array entry that has not been written yet is `none`. -/
def readPrevious (previous : Point → Option Point) (p : Point) : Except SearchFault Point := do
  let prev ← readCell previous p
  match prev with
  | none => .error .uninitialised
  | some q => .ok q

def moves (current : Point) : List Point :=
  [⟨uint32 (current.x - 1), current.y⟩, ⟨uint32 (current.x + 1), current.y⟩,
    ⟨current.x, uint32 (current.y - 1)⟩, ⟨current.x, uint32 (current.y + 1)⟩]

/-- The `while` loop that goes back to a point whose predecessor is `start`. -/
def backtrack (previous : Point → Option Point) (start : Point) : Nat → Point → Except SearchFault Point
  | 0, _ => .error .divergence
  | fuel + 1, pos => do
    let prev ← readPrevious previous pos
    if prev.x ≠ start.x ∨ prev.y ≠ start.y then backtrack previous start fuel prev else pure pos

/-- The stack has its top first. `pushed` is no variable of the source: it keeps all
points that have been stored in the stack. -/
structure Dfs where
  stack : List Point
  visited : Point → Bool
  previous : Point → Option Point
  pushed : List Point

/-- The mark is read with the indices the other way round. -/
def dfsVisit (game : GameState) (current : Point) (s : Dfs) (next : Point) : Except SearchFault Dfs := do
  let valid ← canMove game next
  if valid then do
    let seen ← readCell s.visited ⟨next.y, next.x⟩
    if seen then pure s
    else if s.stack.length < numCells then do
      let visited ← writeCell s.visited next true
      let previous ← writeCell s.previous next (some current)
      pure ⟨next :: s.stack, visited, previous, next :: s.pushed⟩
    else .error .outOfBounds
  else pure s

/-- The result, with all points that have been pushed. -/
def dfsLoop (game : GameState) (start target : Point) : Nat → Dfs → Except SearchFault (Direction × List Point)
  | 0, _ => .error .divergence
  | fuel + 1, s =>
    match s.stack with
    | [] => .ok (.none, s.pushed)
    | current :: stack =>
      if equalPoints current target then do
        let pos ← backtrack s.previous start (fuel + 1) current
        pure (determineDirection pos target, s.pushed)
      else do
        let s ← (moves current).foldlM (dfsVisit game current) { s with stack := stack }
        dfsLoop game start target fuel s

def dfs (game : GameState) (start target : Point) (fuel : Nat) : Except SearchFault (Direction × List Point) := do
  let visited ← writeCell (fun _ => false) start true
  dfsLoop game start target fuel ⟨[start], visited, fun _ => none, [start]⟩

/-- The queue with all its entries up to `rear`, also the ones before `front`. -/
structure Bfs where
  queue : List Point
  front : Nat
  visited : Point → Bool
  previous : Point → Option Point

def bfsVisit (game : GameState) (current : Point) (s : Bfs) (next : Point) : Except SearchFault Bfs := do
  let valid ← canMove game next
  if valid then do
    let seen ← readCell s.visited next
    if seen then pure s
    else if s.queue.length < numCells then do
      let visited ← writeCell s.visited next true
      let previous ← writeCell s.previous next (some current)
      pure { s with queue := s.queue ++ [next], visited := visited, previous := previous }
    else .error .outOfBounds
  else pure s

/-- Whether the target has come up, and the state then. Each turn takes a point out
of the queue, so that more turns than entries are not possible. -/
def bfsLoop (game : GameState) (target : Point) : Nat → Bfs → Except SearchFault (Bool × Bfs)
  | 0, _ => .error .divergence
  | fuel + 1, s =>
    match s.queue[s.front]? with
    | none => .ok (false, s)
    | some current =>
      if equalPoints current target then .ok (true, { s with front := s.front + 1 })
      else do
        let s ← (moves current).foldlM (bfsVisit game current) { s with front := s.front + 1 }
        bfsLoop game target fuel s

def bfsSearch (game : GameState) (start target : Point) : Except SearchFault (Bool × Bfs) := do
  let visited ← writeCell (fun _ => false) start true
  bfsLoop game target (numCells + 1) ⟨[start], 0, visited, fun _ => none⟩

def bfsFound (s : Bfs) (start target : Point) : Except SearchFault Direction := do
  let pos ← backtrack s.previous start numCells target
  pure (determineDirection pos target)

def bfs (game : GameState) (start target : Point) : Except SearchFault Direction := do
  let (found, s) ← bfsSearch game start target
  if found then bfsFound s start target else pure .none

abbrev infinity : Int := 2147483647

structure PriorityNode where
  position : Point
  priority : Int
  deriving DecidableEq, Repr

/-- The array with its two indices; the entries from `rear` on have no meaning. -/
structure PriorityQueue where
  queue : Nat → PriorityNode
  front : Nat
  rear : Nat

def enqueue (q : PriorityQueue) (position : Point) (priority : Int) : Except SearchFault PriorityQueue :=
  if q.rear < numCells then
    .ok { q with queue := Function.update q.queue q.rear ⟨position, priority⟩, rear := q.rear + 1 }
  else .error .outOfBounds

/-- The first `for` loop of `dequeue`: the first smallest priority. -/
def minIndex (q : PriorityQueue) : Nat :=
  (List.range' (q.front + 1) (q.rear - (q.front + 1))).foldl
    (fun m i => if (q.queue i).priority < (q.queue m).priority then i else m) q.front

/-- The entries behind the smallest one move up by one place. The one at `front` is
given up, whether it is the smallest or not. -/
def dequeue (q : PriorityQueue) : PriorityNode × PriorityQueue :=
  let m := minIndex q
  let queue := (List.range' m (q.rear - 1 - m)).foldl (fun a i => Function.update a i (a (i + 1))) q.queue
  (q.queue m, { q with queue := queue, front := q.front + 1 })

structure Dijkstra where
  queue : PriorityQueue
  distances : Point → Int
  previous : Point → Point

def dijkstraVisit (game : GameState) (pos : Point) (s : Dijkstra) (next : Point) :
    Except SearchFault Dijkstra := do
  let valid ← canMove game next
  if valid then do
    let old ← readCell s.distances next
    let here ← readCell s.distances pos
    if int32 (here + 1) < old then do
      let distances ← writeCell s.distances next (int32 (here + 1))
      let previous ← writeCell s.previous next pos
      let queue ← enqueue s.queue next (int32 (here + 1))
      pure ⟨queue, distances, previous⟩
    else pure s
  else pure s

/-- The inner `while` loop. `equalPoints` is the test of the other searches. -/
def dijkstraBacktrack (previous : Point → Point) (start : Point) : Nat → Point → Except SearchFault Point
  | 0, _ => .error .divergence
  | fuel + 1, pos => do
    let prev ← readCell previous pos
    if equalPoints prev start then pure pos else dijkstraBacktrack previous start fuel prev

def dijkstraLoop (game : GameState) (start target : Point) : Nat → Dijkstra → Except SearchFault Direction
  | 0, _ => .error .divergence
  | fuel + 1, s =>
    if s.queue.front < s.queue.rear then
      let (node, queue) := dequeue s.queue
      if equalPoints node.position target then do
        let pos ← dijkstraBacktrack s.previous start numCells node.position
        pure (determineDirection start pos)
      else do
        let s ← (moves node.position).foldlM (dijkstraVisit game node.position) { s with queue := queue }
        dijkstraLoop game start target fuel s
    else .ok .none

/-- `previous` starts with -1 in both coordinates. -/
def dijkstra (game : GameState) (start target : Point) : Except SearchFault Direction := do
  let distances ← writeCell (fun _ => infinity) start 0
  let queue ← enqueue ⟨fun _ => ⟨start, 0⟩, 0, 0⟩ start 0
  dijkstraLoop game start target (numCells + 1) ⟨queue, distances, fun _ => ⟨uint32 (-1), uint32 (-1)⟩⟩

end Zeos.Game
