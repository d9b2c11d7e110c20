import UmbraOS.CString
import UmbraOS.Words

namespace UmbraOS

structure Rgb where
  red : Byte
  green : Byte
  blue : Byte
deriving DecidableEq

namespace Rgb

def GREEN : Rgb := ⟨22#8, 198#8, 12#8⟩

def RED : Rgb := ⟨231#8, 72#8, 86#8⟩

def WHITE : Rgb := ⟨242#8, 242#8, 242#8⟩

def YELLOW : Rgb := ⟨249#8, 241#8, 165#8⟩

end Rgb

/-- The framebuffer, of `pitch` bytes a line, and the cell of the font. -/
structure Screen where
  width : Nat
  height : Nat
  pitch : Nat
  fontWidth : Nat
  fontHeight : Nat

/-- What `puts` does to its string, to the buffer of colour codes and to the framebuffer, whose
offsets are in bytes. -/
inductive TerminalAccess
  | readStr (i : Nat)
  | writeCode (i : Nat)
  | memcpy (dest src size : Nat)
  | putChar (i row column : Nat) (c : Byte) (fg bg : Rgb)

/-- The arguments of `puts`; the string is given without its terminator. -/
structure PutsCall where
  str : CString
  length : Int
  fg : Rgb
  bg : Rgb

/-- A call of `puts` at the head of its loop. Its `i` is an `int` in the source, where a string of more
than `INT_MAX` bytes would make it overflow; here it is a natural number. -/
structure Puts where
  call : PutsCall
  i : Nat
  y : Nat
  x : Nat
  lastColor : Rgb

/-- What becomes of a call of `puts`; its behaviour is undefined once it has read past the string
or written past the buffer. -/
inductive PutsOutcome
  | continues (p : Puts)
  | returns
  | undefined

structure Terminal where
  cursorY : Nat
  cursorX : Nat
  puts : Option Puts
  undefined : Bool
  accesses : List TerminalAccess

inductive TerminalEvent
  | call (call : PutsCall)
  | iteration

namespace Screen

def rows (s : Screen) : Nat := s.height / s.fontHeight

def columns (s : Screen) : Nat := s.width / s.fontWidth

def bytes (s : Screen) : Nat := s.height * s.pitch

/-- `line_size` and `buffer_size` are 32-bit variables. -/
def bufferSize (s : Screen) : Nat :=
  let lineSize := s.width * 4 % 2 ^ 32
  (s.height - 1) * lineSize % 2 ^ 32

def scrollSrc (s : Screen) : Nat := u64 (s.width * s.fontHeight * 4)

def scroll (s : Screen) : TerminalAccess := .memcpy 0 s.scrollSrc s.bufferSize

/-- The index of a pixel in `put_char`. -/
def pixelIndex (s : Screen) (row column i j : Nat) : Nat :=
  ((column * s.fontWidth + j) % 2 ^ 32 + s.width * ((i + row * s.fontHeight) % 2 ^ 32)) % 2 ^ 32

end Screen

namespace Puts

def colorMaxLength : Nat := 16

def newline : Byte := 10#8

def openBrace : Byte := 123#8

def closeBrace : Byte := 125#8

/-- The inner loop: the characters up to the next brace, with `code` in the buffer already; `none`
when it leaves the string or the buffer. -/
def scan : CString → Nat → CString → List TerminalAccess × Option CString
  | [], i, code =>
    -- the terminator is no brace, and is stored like any other character
    if code.length < colorMaxLength then
      ([.readStr i, .writeCode code.length, .readStr (i + 1)], none)
    else ([.readStr i, .writeCode code.length], none)
  | c :: rest, i, code =>
    if c = closeBrace then ([.readStr i], some code)
    else if code.length < colorMaxLength then
      let (accesses, result) := scan rest (i + 1) (code ++ [c])
      (.readStr i :: .writeCode code.length :: accesses, result)
    else ([.readStr i, .writeCode code.length], none)

/-- A string constant in memory. -/
def literal (s : CString) : Nat → Byte := fun i => s.getD i 0#8

def red : Nat → Byte := literal [114#8, 101#8, 100#8]

def green : Nat → Byte := literal [103#8, 114#8, 101#8, 101#8, 110#8]

def white : Nat → Byte := literal [119#8, 104#8, 105#8, 116#8, 101#8]

def yellow : Nat → Byte := literal [121#8, 101#8, 108#8, 108#8, 111#8, 119#8]

def colorOf (code : CString) : Option Rgb :=
  if CString.strcmp code red then some Rgb.RED
  else if CString.strcmp code green then some Rgb.GREEN
  else if CString.strcmp code white then some Rgb.WHITE
  else if CString.strcmp code yellow then some Rgb.YELLOW
  else none

/-- The position of the next character when a line is full. -/
def wrap (s : Screen) (p : Puts) : Nat × Nat :=
  if s.columns ≤ p.x then (p.y + 1, 0) else (p.y, p.x)

/-- The last part of the loop, which puts a character on the screen. -/
def print (s : Screen) (p : Puts) (c : Byte) : List TerminalAccess × Puts :=
  let (y, x) := p.wrap s
  let (scrolls, y) := if s.rows ≤ y then ([s.scroll], y - 1) else ([], y)
  (scrolls ++ [.putChar p.i y x c p.lastColor p.call.bg],
    { p with i := p.i + 1, y := y, x := x + 1 })

/-- An iteration of the loop of `puts`. -/
def iterate (s : Screen) (p : Puts) : List TerminalAccess × PutsOutcome :=
  match p.call.str.drop p.i with
  | [] => ([.readStr p.i], .returns)
  | c :: rest =>
    if (p.i : Int) = p.call.length then ([.readStr p.i], .returns)
    else if c = newline then
      ([.readStr p.i], .continues { p with i := p.i + 1, y := p.y + 1, x := 0 })
    else if c = openBrace then
      match scan rest (p.i + 1) [] with
      | (accesses, none) => (.readStr p.i :: accesses, .undefined)
      | (accesses, some code) =>
        match colorOf code with
        | some color =>
          (.readStr p.i :: accesses,
            .continues { p with i := p.i + code.length + 2, lastColor := color })
        | none => (.readStr p.i :: accesses ++ (p.print s c).1, .continues (p.print s c).2)
    else (.readStr p.i :: (p.print s c).1, .continues (p.print s c).2)

end Puts

namespace Terminal

/-- A terminal with its cursor somewhere. -/
def withCursor (cursorY cursorX : Nat) : Terminal := ⟨cursorY, cursorX, none, false, []⟩

/-- A call of `puts` begins, or the one under way goes once through its loop. -/
def step (s : Screen) (t : Terminal) : TerminalEvent → Terminal
  | .call call =>
    match t.puts, t.undefined with
    | none, false => { t with puts := some ⟨call, 0, t.cursorY, t.cursorX, call.fg⟩ }
    | _, _ => t
  | .iteration =>
    match t.puts with
    | none => t
    | some p =>
      match p.iterate s with
      | (accesses, .continues q) => { t with puts := some q, accesses := t.accesses ++ accesses }
      | (accesses, .returns) =>
        -- the cursor is kept in bytes
        { t with
          cursorY := p.y % 256
          cursorX := p.x % 256
          puts := none
          accesses := t.accesses ++ accesses }
      | (accesses, .undefined) =>
        { t with puts := none, undefined := true, accesses := t.accesses ++ accesses }

end Terminal

end UmbraOS
