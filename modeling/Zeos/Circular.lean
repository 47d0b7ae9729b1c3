import Zeos.Utils
import Zeos.Lib.RingBuffer

/-!
# `circular.c`, the keyboard interrupt and `sys_read`

The ring of typed characters, its writer `kbd_routine` and its reader `sys_read`,
with the checks and copies of `utils.c` that the reader calls. The kernel runs with
interrupts disabled, so that each of the two is one step.
-/

namespace Zeos

open Loops
set_option autoImplicit false

abbrev maxBuffSize : Nat := 32
abbrev maxBufferSize : Nat := 512

instance : NeZero maxBuffSize := ⟨by decide⟩

/-- Both indices only ever hold a remainder modulo `MAX_BUFF_SIZE`. The last field is
the `size` of the source, which is also the name of the function that reads it. -/
structure CircularBuffer where
  keys : Fin maxBuffSize → UInt8
  writeIdx : Fin maxBuffSize
  readIdx : Fin maxBuffSize
  sizeField : Int
  deriving DecidableEq

namespace CircularBuffer

def init (c : CircularBuffer) : CircularBuffer := { c with writeIdx := 0, readIdx := 0, sizeField := 0 }

def isFull (c : CircularBuffer) : Bool := RingBuffer.next c.writeIdx == c.readIdx

def isEmpty (c : CircularBuffer) : Bool := c.readIdx == c.writeIdx

def size (c : CircularBuffer) : Int := c.sizeField

def put (c : CircularBuffer) (item : UInt8) : CircularBuffer × Bool :=
  if c.isFull then (c, false)
  else ({ c with
    keys := Function.update c.keys c.writeIdx item
    writeIdx := RingBuffer.next c.writeIdx }, true)

def get (c : CircularBuffer) : Option (UInt8 × CircularBuffer) :=
  if c.isEmpty then none
  else some (c.keys c.readIdx, { c with readIdx := RingBuffer.next c.readIdx })

end CircularBuffer

def charCode (c : Char) : UInt8 := UInt8.ofNat c.toNat

/-- Of a character that takes two bytes in the source, the compiler keeps the last one. -/
def charMap : List UInt8 :=
  [0, 0, charCode '1', charCode '2', charCode '3', charCode '4', charCode '5', charCode '6',
    charCode '7', charCode '8', charCode '9', charCode '0', 0x27, 0xA1, 0, 0,
    charCode 'q', charCode 'w', charCode 'e', charCode 'r', charCode 't', charCode 'y',
    charCode 'u', charCode 'i',
    charCode 'o', charCode 'p', 0x60, charCode '+', 0, 0, charCode 'a', charCode 's',
    charCode 'd', charCode 'f', charCode 'g', charCode 'h', charCode 'j', charCode 'k',
    charCode 'l', 0xB1,
    0, 0xBA, 0, 0xA7, charCode 'z', charCode 'x', charCode 'c', charCode 'v',
    charCode 'b', charCode 'n', charCode 'm', charCode ',', charCode '.', charCode '-', 0,
    charCode '*',
    0, 0, 0, 0, 0, 0, 0, 0,
    0, 0, 0, 0, 0, 0, 0, charCode '7',
    charCode '8', charCode '9', charCode '-', charCode '4', charCode '5', charCode '6',
    charCode '+', charCode '1',
    charCode '2', charCode '3', charCode '0', 0, 0, 0, charCode '<', 0,
    0, 0, 0, 0, 0, 0, 0, 0,
    0, 0]

def isBreak (key : UInt8) : Bool := key &&& 0x80 != 0

/-- The shifts are made on an `int` and lose no bit. -/
def scanCode (key : UInt8) : UInt8 := UInt8.ofNat ((key.toNat <<< 1) >>> 1)

def kbdRoutine (c : CircularBuffer) (key : UInt8) : Except Fault CircularBuffer :=
  if isBreak key then .ok c
  else
    match charMap[(scanCode key).toNat]? with
    | some character => .ok (c.put character).1
    | none => .error .outOfBounds

inductive AccessType where
  | verifyRead
  | verifyWrite
  deriving DecidableEq, Repr

/-- The loop from page `i` on, over `left` pages. -/
def checkAllocatedFrom (m : Mm) (pt : Slot) : Nat → Nat → Except Fault Bool
  | _, 0 => .ok true
  | i, left + 1 => do
    let free ← isLogicPageFree m pt i
    if free then pure false else checkAllocatedFrom m pt (i + 1) left

def checkAllocated (m : Mm) (pt : Slot) (addrIni addrFin : Nat) : Except Fault Bool :=
  checkAllocatedFrom m pt addrIni (addrFin + 1 - addrIni)

/-- The cases of a write come first and then fall through to those of a read. -/
def accessOk (m : Mm) (pt : Slot) (type : AccessType) (addr size : Nat) : Except Fault Bool :=
  let addrIni := addr / pageSize
  let addrFin := uint32 (addr + size) / pageSize
  if addrFin < addrIni then .ok false
  else if type = .verifyWrite ∧ userFirstPage + numPagCode ≤ addrIni ∧ addrFin ≤ userLastPage then
    .ok true
  else if type = .verifyWrite ∧ userLastPage ≤ addrIni ∧ addrFin < totalPages then
    checkAllocated m pt addrIni addrFin
  else if userFirstPage ≤ addrIni ∧ addrFin ≤ userFirstPage + numPagCode + numPagData then .ok true
  else if userLastPage ≤ addrIni ∧ addrFin < totalPages then checkAllocated m pt addrIni addrFin
  else .ok false

/-- The buffer `kern_buff` on the kernel stack. -/
abbrev Staging := Fin maxBufferSize → UInt8

def loadStaging (kern : Staging) (p : Nat) : Except Fault UInt8 :=
  if h : p < maxBufferSize then .ok (kern ⟨p, h⟩) else .error .outOfBounds

def storeStaging (kern : Staging) (p : Nat) (v : UInt8) : Except Fault Staging :=
  if h : p < maxBufferSize then .ok (Function.update kern ⟨p, h⟩ v) else .error .outOfBounds

def copyToUserWords (kern : Staging) (m : Mm) (pt : Slot) (p q : Nat) (size : Int) :
    Except Fault (Mm × Nat × Nat × Int) :=
  if 4 < size then do
    let b0 ← loadStaging kern p
    let b1 ← loadStaging kern (p + 1)
    let b2 ← loadStaging kern (p + 2)
    let b3 ← loadStaging kern (p + 3)
    let m ← storeDWord m pt q ⟨b0, b1, b2, b3⟩
    copyToUserWords kern m pt (p + 4) (q + 4) (size - 4)
  else .ok (m, p, q, size)
termination_by size.toNat

def copyToUserBytes (kern : Staging) (m : Mm) (pt : Slot) (p q : Nat) (size : Int) :
    Except Fault Mm :=
  if 0 < size then do
    let b ← loadStaging kern p
    let m ← storeByte m pt q b
    copyToUserBytes kern m pt (p + 1) (q + 1) (size - 1)
  else .ok m
termination_by size.toNat

def copyToUser (kern : Staging) (m : Mm) (pt : Slot) (start dest : Nat) (size : Int) :
    Except Fault Mm := do
  let (m, p, q, size) ← copyToUserWords kern m pt start dest size
  copyToUserBytes kern m pt p q size

/-- The variables of `sys_read`, with the ring and the memory. -/
structure ReadState where
  cbuff : CircularBuffer
  kern : Staging
  mm : Mm
  numChars : Nat
  index : Nat
  numReads : Nat

/-- What `get` does to the ring and to `kern_buff[num_chars]`. -/
def readChar (s : ReadState) : Except Fault ReadState :=
  match s.cbuff.get with
  | none => .ok s
  | some (character, cbuff) => do
    let kern ← storeStaging s.kern s.numChars character
    pure { s with cbuff := cbuff, kern := kern }

def flushRead (pt : Slot) (b : Nat) (s : ReadState) (size : Nat) : Except Fault ReadState := do
  let mm ← copyToUser s.kern s.mm pt (s.numReads * maxBufferSize) (b + s.numReads * maxBufferSize) size
  pure { s with mm := mm }

def readStep (pt : Slot) (b : Nat) (s : ReadState) : Except Fault ReadState := do
  let s ← readChar s
  let s := { s with numChars := s.numChars + 1, index := s.index + 1 }
  if s.index = maxBufferSize then do
    let s ← flushRead pt b { s with index := 0 } maxBufferSize
    pure { s with numReads := s.numReads + 1 }
  else pure s

/-- The `while` loop; `left` is `maxchars - num_chars`. -/
def readLoop (pt : Slot) (b : Nat) : Nat → ReadState → Except Fault ReadState
  | 0, s => .ok s
  | left + 1, s =>
    if s.cbuff.isEmpty then .ok s
    else do
      let s ← readStep pt b s
      readLoop pt b left s

def flushRest (pt : Slot) (b : Nat) (s : ReadState) : Except Fault ReadState :=
  if s.index ≠ 0 then flushRead pt b s s.index else .ok s

/-- `sys_read` of the process with the table `pt`. `kern` is what the stack holds. -/
def sysRead (c : CircularBuffer) (m : Mm) (pt : Slot) (b : Nat) (maxchars : Int) (kern : Staging) :
    Except Fault (CircularBuffer × Mm × Int) := do
  let ok ← accessOk m pt .verifyWrite b (uint32 maxchars)
  if ok then do
    let s ← readLoop pt b (uint32 maxchars) ⟨c, kern, m, 0, 0, 0⟩
    let s ← flushRest pt b s
    pure (s.cbuff, s.mm, int32 s.numChars)
  else pure (c, m, -efault)

structure Console where
  cbuff : CircularBuffer
  mm : Mm

/-- A key, a call of `sys_read`, or anything else that leaves the ring alone. -/
inductive ConsoleEvent where
  | key (byte : UInt8)
  | read (pt : Slot) (b : Nat) (maxchars : Int) (kern : Staging)
  | memory (m : Mm)

/-- What an event shows: the character of an accepted key, what a read returns and
what its caller then finds in the buffer. -/
structure Shown where
  accepted : List UInt8
  delivered : List UInt8
  result : Int
  deriving DecidableEq, Repr

def loadBytes (m : Mm) (pt : Slot) : Nat → Nat → Except Fault (List UInt8)
  | _, 0 => .ok []
  | addr, n + 1 => do
    let v ← loadByte m pt addr
    let rest ← loadBytes m pt (addr + 1) n
    pure (v :: rest)

/-- The character of a make code, if `put` returns 1 for it. -/
def acceptedChar (c : CircularBuffer) (key : UInt8) : List UInt8 :=
  if isBreak key then []
  else
    match charMap[(scanCode key).toNat]? with
    | some character => if (c.put character).2 then [character] else []
    | none => []

def consoleStep (s : Console) : ConsoleEvent → Except Fault (Console × Shown)
  | .key byte => do
    let c ← kbdRoutine s.cbuff byte
    pure ({ s with cbuff := c }, ⟨acceptedChar s.cbuff byte, [], 0⟩)
  | .read pt b maxchars kern => do
    let (c, m, result) ← sysRead s.cbuff s.mm pt b maxchars kern
    let bytes ← loadBytes m pt b result.toNat
    pure (⟨c, m⟩, ⟨[], bytes, result⟩)
  | .memory m => .ok ({ s with mm := m }, ⟨[], [], 0⟩)

def consoleRun : List ConsoleEvent → Console → Except Fault (Console × List Shown)
  | [], s => .ok (s, [])
  | e :: events, s => do
    let (s, shown) ← consoleStep s e
    let (s, log) ← consoleRun events s
    pure (s, shown :: log)

def initCircBuff (s : Console) : Console := { s with cbuff := s.cbuff.init }

end Zeos
