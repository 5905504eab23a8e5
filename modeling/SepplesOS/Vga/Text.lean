import Mathlib

/-!
# The text console

`VGAText` (`kernel/vga/vgatext.cpp`) writes every character to the framebuffer and, when the log is
on, to a heap block that holds all lines since the log was enabled.  Memory is one map of bytes, and
an address is an integer.  Every store is also recorded, with the pointers into the log at that
time, so that one can ask where a store went.

`Malloc` is a parameter.  The ports of the hardware cursor are left out.
-/

/-- `Malloc` as the console uses it: whether it is ready, and what `new`, `realloc` and `delete` do
to memory. -/
structure Heap where
  isMallocReady : Bool
  alloc : (ℤ → UInt8) → ℤ → ℤ × (ℤ → UInt8)
  realloc : (ℤ → UInt8) → ℤ → ℤ → ℤ × (ℤ → UInt8)
  free : (ℤ → UInt8) → ℤ → ℤ → UInt8

/-- A store of the console: into the framebuffer, or into the log between `m_logCur` and
`m_logLim`. -/
inductive VGAStore
  | screen (addr : ℤ)
  | log (addr m_logCur m_logLim : ℤ)

/-- The variables of `VGAText`, memory, and the stores made so far, the last one first. -/
structure VGAText where
  m_curX : ℤ
  m_curY : ℤ
  m_curStyle : UInt8
  logEnabled : Bool
  m_logBase : ℤ
  m_logLim : ℤ
  m_logCur : ℤ
  ruboutLimitX : ℤ
  ruboutLimitY : ℤ
  mem : ℤ → UInt8
  stores : List VGAStore

namespace VGAText

/-- `m_width` and `m_height`. -/
def m_width : ℤ := 80
def m_height : ℤ := 25

/-- `m_memBase` and `m_memLim`. -/
def m_memBase : ℤ := 0xB8000
def m_memLim : ℤ := m_memBase + 2 * m_width * m_height

/-- `m_tabSize`, which is never changed. -/
def m_tabSize : ℤ := 4

/-- `CUR_RED` and `CUR_WHITE`. -/
def CUR_RED : UInt8 := 0b100
def CUR_WHITE : UInt8 := 0b111

/-- The conversion to `i8`. -/
def toI8 (x : ℤ) : ℤ := Int.bmod x 256

/-- The conversion to a pointer. -/
def toPtr (x : ℤ) : ℤ := x % 2 ^ 64

variable (h : Heap) (s : VGAText)

/-! ## Stores -/

/-- `*addr = byte` in the framebuffer. -/
def pokeScreen (addr : ℤ) (byte : UInt8) : VGAText :=
  { s with mem := Function.update s.mem addr byte, stores := .screen addr :: s.stores }

/-- `*addr = byte` in the log. -/
def pokeLog (addr : ℤ) (byte : UInt8) : VGAText :=
  { s with
    mem := Function.update s.mem addr byte
    stores := .log addr s.m_logCur s.m_logLim :: s.stores }

/-- The loop that copies a screenful from `m_logCur` to the framebuffer. -/
@[irreducible] def render : VGAText :=
  (List.range 4000).foldl
    (fun s (i : ℕ) => s.pokeScreen (m_memBase + i) (s.mem (s.m_logCur + i))) s

/-- The loop that copies the screen to the log. -/
@[irreducible] def copyScreen : VGAText :=
  (List.range 4000).foldl (fun s (i : ℕ) => s.pokeLog (s.m_logBase + i) (s.mem (m_memBase + i))) s

/-- An empty character at `addr`. -/
def blankScreen (addr : ℤ) : VGAText := (s.pokeScreen addr 0).pokeScreen (addr + 1) CUR_WHITE
def blankLog (addr : ℤ) : VGAText := (s.pokeLog addr 0).pokeLog (addr + 1) CUR_WHITE

/-- A character and its style, on the screen and in the log. -/
def setChar (videoOff : ℤ) (c style : UInt8) : VGAText :=
  let s :=
    if s.logEnabled then
      (s.pokeLog (s.m_logCur + videoOff) c).pokeLog (s.m_logCur + videoOff + 1) style
    else s
  (s.pokeScreen (m_memBase + videoOff) c).pokeScreen (m_memBase + videoOff + 1) style

/-! ## Single characters -/

/-- `setCurStyle`. -/
def setCurStyle (txtColor : UInt8) (txtHighlight : Bool) (bgdColor : UInt8) (blink : Bool) :
    VGAText :=
  let style : UInt8 := (if blink then 0b10000000 else 0) + if txtHighlight then 0b00001000 else 0
  { s with m_curStyle := style + ((bgdColor &&& 0b111) <<< 4) + (txtColor &&& 0b111) }

/-- `setRuboutLimit`. -/
def setRuboutLimit (x y : ℤ) : VGAText :=
  { s with
    ruboutLimitX := if x = -1 then s.m_curX else x
    ruboutLimitY := if y = -1 then s.m_curY else y }

/-- `scrollDown`. -/
def scrollDown : VGAText :=
  { s with m_logCur := s.m_logLim - 2 * m_width * m_height }.render

/-- The loop of `rubout` back over the empty characters of a line, with `n` rounds to go. -/
def skipBlank : ℕ → ℤ → VGAText → VGAText
  | 0, _, s => s
  | n + 1, videoOff, s =>
    if s.mem (m_memBase + videoOff) = 0 then
      let videoOff := videoOff - 2
      let s := { s with m_curX := toI8 (s.m_curX - 1) }
      if s.m_curX = 0 then
        if s.mem (m_memBase + videoOff) = 0 then s
        else { s with m_curX := toI8 (s.m_curX + 1) }
      else skipBlank n videoOff s
    else { s with m_curX := toI8 (s.m_curX + 1) }

/-- `rubout`. -/
def rubout : VGAText :=
  let videoOff := 2 * s.m_curX + 2 * m_width * s.m_curY
  if s.m_curX > 0 then
    { s with m_curX := toI8 (s.m_curX - 1) }.setChar (videoOff - 2) 0 CUR_WHITE
  else if s.m_curY ≤ 0 then s
  else
    let s := { s with m_curX := m_width - 1 }
    let videoOff := videoOff - 2
    let newLogCur := s.m_logCur - 2 * m_width
    let (videoOff, s) :=
      if s.logEnabled ∧ newLogCur ≥ s.m_logBase then
        (videoOff + m_width * 2,
          { s with m_logCur := newLogCur, m_logLim := s.m_logLim - 2 * m_width }.render)
      else
        (videoOff, { s with m_curY := toI8 (s.m_curY - 1) }.blankScreen (m_memBase + videoOff))
    -- `m_curX` reaches `0` before the rounds are over
    skipBlank 80 videoOff s

/-- The body of the first loop of `newLines`, at `videomem`. -/
def shiftChar (n videomem : ℤ) : VGAText :=
  let membuf := videomem + n * 2 * m_width
  if membuf < m_memLim then
    let s := s.pokeScreen videomem (s.mem membuf)
    s.pokeScreen (videomem + 1) (s.mem (membuf + 1))
  else s.blankScreen videomem

/-- The first loop of `newLines`. -/
@[irreducible] def shiftScreen (n : ℤ) : VGAText :=
  (List.range 2000).foldl (fun s (i : ℕ) => s.shiftChar n (m_memBase + 2 * i)) s

/-- The loop that empties the log from `ptr` on. -/
@[irreducible] def blankFrom (ptr : ℤ) : VGAText :=
  (List.range ((s.m_logLim - ptr + 1) / 2).toNat).foldl
    (fun s (i : ℕ) => s.blankLog (ptr + 2 * i)) s

/-- The part of `newLines` that gives the log `n` more lines. -/
def growLog (n : ℤ) : VGAText :=
  let newsize := s.m_logLim - s.m_logBase + n * 2 * m_width
  let (newLog, mem) := h.realloc s.mem s.m_logBase newsize
  let s :=
    { s with
      mem := mem
      m_logBase := newLog
      m_logLim := newLog + newsize
      m_logCur := newLog + newsize - 2 * m_width * m_height }
  let ptr := s.m_logLim - n * 2 * m_width
  s.blankFrom (if ptr < s.m_logCur then s.m_logCur else ptr)

/-- `newLines`, and whether it had to disable the log, which it then reports. -/
def newLines (n : ℕ) : VGAText × Bool :=
  let m_curY := toI8 (s.m_curY - n)
  let m_curY := if m_curY < 0 then 0 else if m_curY > m_height then m_height else m_curY
  let s := { s with m_curY := m_curY }
  let n : ℤ := if n > m_height then m_height else n
  let s := s.shiftScreen n
  if s.logEnabled ∧ h.isMallocReady then (s.growLog h n, false)
  else if s.logEnabled then ({ s with logEnabled := false }, true)
  else (s, false)

/-- The first step of `put`: the screen shows the end of the log. -/
def toEnd : VGAText :=
  if s.logEnabled ∧ s.m_logCur ≠ s.m_logLim - 2 * m_height * m_width then s.scrollDown else s

/-- The second step of `put`: the character, by its kind. -/
def typeChar (c : UInt8) : VGAText :=
  if c = 10 then { s with m_curX := 0, m_curY := toI8 (s.m_curY + 1) }
  else if c = 8 then
    if s.m_curY ≥ s.ruboutLimitY ∧ s.m_curX > s.ruboutLimitX then s.rubout else s
  else if c = 9 then
    { s with m_curX := toI8 (s.m_curX + m_tabSize - s.m_curX.tmod m_tabSize) }
  else if c = 13 then { s with m_curX := 0 }
  else
    let s := s.setChar (2 * s.m_curX + 2 * m_width * s.m_curY) c s.m_curStyle
    let s := { s with m_curX := toI8 (s.m_curX + 1) }
    if s.m_curX ≥ m_width then { s with m_curX := 0, m_curY := toI8 (s.m_curY + 1) } else s

/-- `put` up to the message of `newLines`. -/
def putChar (c : UInt8) : VGAText × Bool :=
  let s := s.toEnd.typeChar c
  if s.m_curY ≥ m_height then s.newLines h (1 + s.m_curY - m_height).toNat else (s, false)

/-! ## Messages -/

/-- The characters of a message. -/
def text (msg : String) : List UInt8 := msg.toList.map fun c => UInt8.ofNat c.toNat

/-- `print` inside `error`: the log is off or `Malloc` is ready, so that `newLines` reports
nothing. -/
def printChars (msg : String) : VGAText := (text msg).foldl (fun s c => (s.putChar h c).1) s

/-- `enableLog(false)`. -/
def disableLog : VGAText :=
  if s.logEnabled then
    let s := if h.isMallocReady then { s with mem := h.free s.mem s.m_logBase, m_logBase := 0 } else s
    { s with logEnabled := false }
  else s

/-- `error`. -/
def error (msg : String) : VGAText :=
  let s := s.setCurStyle CUR_RED false 0 false
  let s :=
    if ¬h.isMallocReady ∧ s.logEnabled then
      (s.disableLog h).printChars h "error: malloc isn't ready. VGAText log forcibly disabled.\n"
    else s
  (s.printChars h msg).setCurStyle CUR_WHITE false 0 false

/-! ## The interface -/

/-- `enableLog(true)`. -/
def enableLog : VGAText :=
  if s.logEnabled then s
  else if h.isMallocReady then
    let s := if s.m_logBase ≠ 0 then { s with mem := h.free s.mem s.m_logBase } else s
    let size := 2 * m_width * m_height
    let (base, mem) := h.alloc s.mem size
    let s := { s with mem := mem, m_logBase := base, m_logCur := base, m_logLim := base + size }
    { s.copyScreen with logEnabled := true }
  else s.error h "enableLog: malloc isn't ready, can't enable\n"

/-- `put`. -/
def put (c : UInt8) : VGAText :=
  let (s, disabled) := s.putChar h c
  if disabled then
    s.error h "VGAText::newLines: Malloc is not ready, disabling the log!\n"
  else s

/-- The loop of `clear`. -/
@[irreducible] def blankAll : VGAText :=
  (List.range 2000).foldl (fun s (i : ℕ) => s.blankScreen (m_memBase + 2 * i)) s

/-- `clear`. -/
def clear : VGAText :=
  let s := s.blankAll
  let s := if s.logEnabled then (s.disableLog h).enableLog h else s
  { s with m_curX := 0, m_curY := 0 }

/-- `moveCursor`. -/
def moveCursor (x y : ℤ) : VGAText :=
  if ((x < 0 ∨ y < 0) ∧ (x ≠ -1 ∨ y ≠ -1)) ∨ x > m_width ∨ y > m_height then
    s.error h ("VGAText::moveCursor: Invalid position (" ++ toString x ++ "," ++ toString y ++ ")\n")
  else if x ≥ 0 ∧ y ≥ 0 then { s with m_curX := x, m_curY := y }
  else s

/-- `showCursor` and `hideCursor`. -/
def showCursor : VGAText := s.moveCursor h s.m_curX s.m_curY
def hideCursor : VGAText := s.moveCursor h (-1) (-1)

/-- `scroll`. -/
def scroll (n : ℤ) : VGAText :=
  if ¬s.logEnabled then
    s.error h "VGAText::scroll: Can't scroll with the log disabled.\n"
  else if n = 0 then s
  else if n < 0 then
    if s.m_logCur = s.m_logBase then s
    else
      let s := s.hideCursor h
      let m_logCur := toPtr (s.m_logCur + n * 2 * m_width)
      { s with m_logCur := if m_logCur < s.m_logBase then s.m_logBase else m_logCur }.render
  else
    let s := { s with m_logCur := toPtr (s.m_logCur + n * 2 * m_width) }
    let curLim := s.m_logLim - 2 * m_width * m_height
    let s := if s.m_logCur ≥ curLim then { s with m_logCur := curLim }.showCursor h else s
    s.render

end VGAText
