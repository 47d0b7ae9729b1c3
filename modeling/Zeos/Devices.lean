import Zeos.Circular

/-!
# `io.c`, `devices.c` and `sys_write`

The screen with its cursor and colours, the console device on top of it and the
system call that feeds it in pieces of at most `MAX_BUFFER_SIZE` bytes through
`kern_buff`.
-/

namespace Zeos

open Loops
set_option autoImplicit false

abbrev screenRows : Nat := 25
abbrev screenColumns : Nat := 80

def black : UInt8 := 0x00
def magenta : UInt8 := 0x05

/-- The variables of `io.c` and what `printc` reaches: the words from 0xb8000 on and
the bytes that have gone out on port 0xe9. -/
structure Screen where
  xScreen : UInt8
  yScreen : UInt8
  fgColor : UInt8
  bgColor : UInt8
  cells : Nat → UInt16
  port : List UInt8

namespace Screen

def initial (cells : Nat → UInt16) : Screen := ⟨0, 19, magenta, black, cells, []⟩

/-- The character in the low byte; the colours are shifted as `int`s and cut to a `Word`. -/
def word (s : Screen) (c : UInt8) : UInt16 :=
  UInt16.ofNat (c.toNat ||| s.bgColor.toNat <<< 12 ||| s.fgColor.toNat <<< 8)

def newline (s : Screen) : Screen :=
  { s with xScreen := 0, yScreen := UInt8.ofNat ((s.yScreen.toNat + 1) % screenRows) }

def printc (s : Screen) (c : UInt8) : Screen :=
  let s := { s with port := s.port ++ [c] }
  if c = charCode '\n' then s.newline
  else
    let s := { s with
      cells := Function.update s.cells (s.yScreen.toNat * screenColumns + s.xScreen.toNat) (s.word c)
      xScreen := s.xScreen + 1 }
    if screenColumns ≤ s.xScreen.toNat then s.newline else s

/-- The string ends at its first NUL. -/
def printk (s : Screen) (string : List UInt8) : Screen :=
  (string.takeWhile fun c => c ≠ 0).foldl printc s

end Screen

abbrev eoutscreen : Int := 43
abbrev enocolor : Int := 44

def white : UInt8 := 0x0F

def sysGotoxy (s : Screen) (x y : Int) : Screen × Int :=
  if screenColumns ≤ x ∨ x < 0 ∨ screenRows ≤ y ∨ y < 0 then (s, -eoutscreen)
  else ({ s with xScreen := UInt8.ofInt x, yScreen := UInt8.ofInt y }, 0)

def sysSetColor (s : Screen) (fg bg : Int) : Screen × Int :=
  if white.toNat < fg ∨ fg < black.toNat ∨ white.toNat < bg ∨ bg < black.toNat then (s, -enocolor)
  else ({ s with fgColor := UInt8.ofInt fg, bgColor := UInt8.ofInt bg }, 0)

def storeStagingDWord (kern : Staging) (q : Nat) (w : DWord) : Except Fault Staging := do
  let kern ← storeStaging kern q w.b0
  let kern ← storeStaging kern (q + 1) w.b1
  let kern ← storeStaging kern (q + 2) w.b2
  storeStaging kern (q + 3) w.b3

def copyFromUserWords (m : Mm) (pt : Slot) (kern : Staging) (p q : Nat) (size : Int) :
    Except Fault (Staging × Nat × Nat × Int) :=
  if 4 < size then do
    let w ← loadDWord m pt p
    let kern ← storeStagingDWord kern q w
    copyFromUserWords m pt kern (p + 4) (q + 4) (size - 4)
  else .ok (kern, p, q, size)
termination_by size.toNat

def copyFromUserBytes (m : Mm) (pt : Slot) (kern : Staging) (p q : Nat) (size : Int) :
    Except Fault Staging :=
  if 0 < size then do
    let b ← loadByte m pt p
    let kern ← storeStaging kern q b
    copyFromUserBytes m pt kern (p + 1) (q + 1) (size - 1)
  else .ok kern
termination_by size.toNat

/-- `dest` is an index of `kern_buff`, which is the only destination. -/
def copyFromUser (m : Mm) (pt : Slot) (kern : Staging) (start dest : Nat) (size : Int) :
    Except Fault Staging := do
  let (kern, p, q, size) ← copyFromUserWords m pt kern start dest size
  copyFromUserBytes m pt kern p q size

/-- The loop of `sys_write_console` from index `i` on, over `left` characters. -/
def writeConsoleFrom (kern : Staging) : Nat → Nat → Screen → Except Fault Screen
  | _, 0, s => .ok s
  | i, left + 1, s => do
    let c ← loadStaging kern i
    writeConsoleFrom kern (i + 1) left (s.printc c)

def sysWriteConsole (kern : Staging) (size : Int) (s : Screen) : Except Fault (Screen × Int) := do
  let s ← writeConsoleFrom kern 0 size.toNat s
  pure (s, size)

theorem sysWriteConsole_ret {kern : Staging} {size ret : Int} {s s' : Screen}
    (h : sysWriteConsole kern size s = .ok (s', ret)) : ret = size := by
  obtain ⟨t, _, h⟩ := bind_eq_ok.mp h
  cases h
  rfl

/-- The variables of `sys_write` with the buffer and the screen. -/
structure WriteState where
  buffer : Nat
  remainingBytes : Int
  kern : Staging
  screen : Screen

/-- One copy and its output; the result is the state and what `sys_write_console` returned. -/
def writeChunk (m : Mm) (pt : Slot) (s : WriteState) (size : Int) : Except Fault (WriteState × Int) := do
  let kern ← copyFromUser m pt s.kern s.buffer 0 size
  let (screen, ret) ← sysWriteConsole kern size s.screen
  pure (⟨s.buffer, s.remainingBytes - ret, kern, screen⟩, ret)

theorem writeChunk_remaining {m : Mm} {pt : Slot} {s s' : WriteState} {size ret : Int}
    (h : writeChunk m pt s size = .ok (s', ret)) : s'.remainingBytes = s.remainingBytes - size := by
  obtain ⟨kern, _, h⟩ := bind_eq_ok.mp h
  obtain ⟨⟨screen, ret'⟩, hret, h⟩ := bind_eq_ok.mp h
  cases h
  rw [sysWriteConsole_ret hret]

def writeLoop (m : Mm) (pt : Slot) (s : WriteState) : Except Fault WriteState :=
  if _hmore : maxBufferSize < s.remainingBytes then
    match _hchunk : writeChunk m pt s maxBufferSize with
    | .error e => .error e
    | .ok (s', ret) => writeLoop m pt { s' with buffer := s'.buffer + ret.toNat }
  else .ok s
termination_by s.remainingBytes.toNat
decreasing_by
  have hless := writeChunk_remaining _hchunk
  simp only [maxBufferSize] at _hmore hless ⊢
  omega

def writeRest (m : Mm) (pt : Slot) (s : WriteState) : Except Fault WriteState :=
  if 0 < s.remainingBytes then do
    let (s, _) ← writeChunk m pt s s.remainingBytes
    pure s
  else .ok s

abbrev ebadf : Int := 9
abbrev eacces : Int := 13

inductive Permissions where
  | lectura
  | escriptura
  deriving DecidableEq, Repr

def checkFd (fd : Int) (permissions : Permissions) : Int :=
  if fd ≠ 1 then -ebadf else if permissions ≠ .escriptura then -eacces else 0

/-- `sys_write` of the process with the table `pt`. `kern` is what `kern_buff` holds
from earlier calls. -/
def sysWrite (m : Mm) (pt : Slot) (kern : Staging) (screen : Screen) (fd : Int) (buffer : Nat)
    (size : Int) : Except Fault (Staging × Screen × Int) :=
  if checkFd fd .escriptura ≠ 0 then .ok (kern, screen, checkFd fd .escriptura)
  else do
    let ok ← accessOk m pt .verifyRead buffer (uint32 size)
    if !ok then pure (kern, screen, -efault)
    else if size < 0 then pure (kern, screen, -einval)
    else do
      let s ← writeLoop m pt ⟨buffer, size, kern, screen⟩
      let s ← writeRest m pt s
      pure (s.kern, s.screen, size - s.remainingBytes)

end Zeos
