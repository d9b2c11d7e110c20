import Mathlib.Logic.Function.Basic
import UmbraOS.TerminalRows

namespace UmbraOS

/-- The pixels of the framebuffer and what lies behind it. -/
abbrev Pixels := Nat → Rgb

structure PsfFont where
  bytes : Memory
  bytesPerGlyph : Nat

namespace PsfFont

/-- `glyph[i]`; the character is signed, and the index a 32-bit number. -/
def glyph (font : PsfFont) (c : Byte) (i : Nat) : Byte :=
  font.bytes ((32 + (c.signExtend 32).toNat * font.bytesPerGlyph) % 2 ^ 32 + i)

end PsfFont

namespace Screen

def pixelColor (s : Screen) (font : PsfFont) (c : Byte) (fg bg : Rgb) (i j : Nat) : Rgb :=
  if (font.glyph c i).getLsbD (s.fontWidth - j) then fg else bg

def putLine (s : Screen) (font : PsfFont) (row column : Nat) (c : Byte) (fg bg : Rgb) (i : Nat)
    (pixels : Pixels) : Pixels :=
  (List.range s.fontWidth).foldl
    (fun pixels j => Function.update pixels (s.pixelIndex row column i j) (s.pixelColor font c fg bg i j)) pixels

def putChar (s : Screen) (font : PsfFont) (row column : Nat) (c : Byte) (fg bg : Rgb)
    (pixels : Pixels) : Pixels :=
  (List.range s.fontHeight).foldl (fun pixels i => s.putLine font row column c fg bg i pixels) pixels

/-- What an access does to the framebuffer; copies are of whole pixels. -/
def draw (s : Screen) (font : PsfFont) (pixels : Pixels) : TerminalAccess → Pixels
  | .readStr _ => pixels
  | .writeCode _ => pixels
  | .memcpy dest src size => fun p =>
    if dest / 4 ≤ p ∧ p < (dest + size) / 4 then pixels (src / 4 + (p - dest / 4)) else pixels p
  | .putChar _ row column c fg bg => s.putChar font row column c fg bg pixels

/-- What is written is in the framebuffer: characters are put into its cells. -/
def Writes (s : Screen) : TerminalAccess → Prop
  | .putChar _ row column _ _ _ => row < s.rows ∧ column < s.columns
  | .memcpy dest _ size => dest + size ≤ 4 * (s.width * s.height)
  | _ => True

def InCell (s : Screen) (row column p : Nat) : Prop :=
  ∃ i < s.fontHeight, ∃ j < s.fontWidth, p = s.pixelIndex row column i j

variable {s : Screen} {font : PsfFont} {row column : Nat} {c : Byte} {color : Rgb} {pixels : Pixels}

theorem pixelIndex_of_lt {i j : Nat} (hx : column * s.fontWidth + j < s.width)
    (h : column * s.fontWidth + j + s.width * (i + row * s.fontHeight) < 2 ^ 32) :
    s.pixelIndex row column i j = column * s.fontWidth + j + s.width * (i + row * s.fontHeight) := by
  have hy : i + row * s.fontHeight ≤ s.width * (i + row * s.fontHeight) := Nat.le_mul_of_pos_left _ (by omega)
  unfold pixelIndex
  rw [Nat.mod_eq_of_lt (a := column * s.fontWidth + j) (by omega),
    Nat.mod_eq_of_lt (a := i + row * s.fontHeight) (by omega), Nat.mod_eq_of_lt h]

/-- As long as the pixel indices do not overflow, a character is in the framebuffer exactly when it is put
into one of its lines. -/
theorem writes_putChar_iff (hc : column < s.columns) (hheight : 0 < s.fontHeight)
    (hfits : s.width * ((row + 1) * s.fontHeight) ≤ 2 ^ 32) (i : Nat) (fg bg : Rgb) :
    s.Writes (.putChar i row column c fg bg) ↔ ∀ p, s.InCell row column p → p < s.width * s.height := by
  constructor
  · rintro ⟨hr, -⟩ p ⟨i, hi, j, hj, rfl⟩
    exact pixelIndex_lt hr hc hi hj
  · intro h
    refine ⟨?_, hc⟩
    by_contra hrow
    have hwidth : 0 < s.fontWidth := (Nat.div_pos_iff.mp (Nat.zero_lt_of_lt hc)).1
    have hx : column * s.fontWidth + 0 < s.width := cell_lt hc hwidth
    -- the last line of the character is behind the last line of the framebuffer
    have hbelow : s.height < (s.rows + 1) * s.fontHeight := by
      rw [Nat.mul_comm]
      exact Nat.lt_mul_div_succ s.height hheight
    have hrows : (s.rows + 1) * s.fontHeight ≤ (row + 1) * s.fontHeight := Nat.mul_le_mul_right _ (by omega)
    have hlast : s.fontHeight - 1 + row * s.fontHeight + 1 = (row + 1) * s.fontHeight := by
      rw [Nat.succ_mul]
      omega
    have hline : s.width * (s.fontHeight - 1 + row * s.fontHeight) + s.width ≤ 2 ^ 32 := by
      rw [← Nat.mul_succ, Nat.succ_eq_add_one, hlast]
      exact hfits
    have hpixel := h _ ⟨s.fontHeight - 1, by omega, 0, hwidth, rfl⟩
    rw [pixelIndex_of_lt hx (by omega)] at hpixel
    have hle : s.width * s.height ≤ s.width * (s.fontHeight - 1 + row * s.fontHeight) :=
      Nat.mul_le_mul_left _ (by omega)
    omega

theorem bufferSize_le (s : Screen) : s.bufferSize ≤ 4 * (s.width * s.height) := by
  have hline : s.width * 4 % 2 ^ 32 ≤ s.width * 4 := Nat.mod_le _ _
  have hsize : s.bufferSize ≤ (s.height - 1) * (s.width * 4 % 2 ^ 32) := Nat.mod_le _ _
  have hmul := Nat.mul_le_mul (Nat.sub_le s.height 1) hline
  have hcomm : s.height * (s.width * 4) = 4 * (s.width * s.height) := by ring
  omega

theorem writes_scroll (s : Screen) : s.Writes s.scroll := by
  show 0 + s.bufferSize ≤ _
  have hle := s.bufferSize_le
  omega

theorem pixelColor_self (s : Screen) (font : PsfFont) (c : Byte) (color : Rgb) (i j : Nat) :
    s.pixelColor font c color color i j = color := ite_self _

section Drawing

variable {f : Pixels → Nat → Pixels} {p : Nat}

theorem foldl_keeps {is : List Nat} (keep : ∀ i ∈ is, ∀ pixels, f pixels i p = pixels p) (pixels : Pixels) :
    is.foldl f pixels p = pixels p := by
  induction is generalizing pixels with
  | nil => rfl
  | cons i is ih =>
    rw [List.foldl_cons, ih (fun j hj => keep j (List.mem_cons_of_mem i hj))]
    exact keep i List.mem_cons_self pixels

theorem foldl_stays {is : List Nat} (keep : ∀ i pixels, pixels p = color → f pixels i p = color)
    {pixels : Pixels} (h : pixels p = color) : is.foldl f pixels p = color := by
  induction is generalizing pixels with
  | nil => exact h
  | cons i is ih => exact ih (keep i pixels h)

theorem foldl_fills {is : List Nat} {i : Nat} (hi : i ∈ is) (fill : ∀ pixels, f pixels i p = color)
    (keep : ∀ i pixels, pixels p = color → f pixels i p = color) (pixels : Pixels) :
    is.foldl f pixels p = color := by
  induction is generalizing pixels with
  | nil => cases hi
  | cons j is ih =>
    rw [List.foldl_cons]
    rcases List.mem_cons.mp hi with rfl | hi
    · exact foldl_stays keep (fill pixels)
    · exact ih hi _

theorem putChar_outside (font : PsfFont) (c : Byte) (fg bg : Rgb) (pixels : Pixels)
    (h : ¬s.InCell row column p) : s.putChar font row column c fg bg pixels p = pixels p := by
  apply foldl_keeps
  intro i hi pixels
  apply foldl_keeps
  intro j hj pixels
  apply Function.update_of_ne
  rintro rfl
  exact h ⟨i, List.mem_range.mp hi, j, List.mem_range.mp hj, rfl⟩

/-- A character in the colour of its background fills its cell. -/
theorem putChar_inside (font : PsfFont) (c : Byte) (color : Rgb) (pixels : Pixels)
    (h : s.InCell row column p) : s.putChar font row column c color color pixels p = color := by
  obtain ⟨i, hi, j, hj, rfl⟩ := h
  have hkeep : ∀ i j (pixels : Pixels) q, pixels q = color →
      Function.update pixels (s.pixelIndex row column i j) (s.pixelColor font c color color i j) q = color := by
    intro i j pixels q hq
    by_cases heq : q = s.pixelIndex row column i j
    · rw [heq, Function.update_self, pixelColor_self]
    · rw [Function.update_of_ne heq, hq]
  refine foldl_fills (List.mem_range.mpr hi) (fun pixels => ?_) (fun i' pixels h => ?_) pixels
  · refine foldl_fills (List.mem_range.mpr hj) (fun pixels => ?_) (fun j' pixels h => hkeep i j' pixels _ h) pixels
    rw [Function.update_self, pixelColor_self]
  · exact foldl_stays (fun j' pixels h => hkeep i' j' pixels _ h) h

end Drawing

end Screen

/-- Where the next character goes. -/
@[ext] structure Cursor where
  y : Nat
  x : Nat

namespace Cursor

open Puts (newline)

def wrap (s : Screen) (k : Cursor) : Cursor := if s.columns ≤ k.x then ⟨k.y + 1, 0⟩ else k

/-- The cell of a character, after the screen was scrolled for it where it is below the screen. -/
def cell (s : Screen) (k : Cursor) : Cursor :=
  if s.rows ≤ (k.wrap s).y then ⟨(k.wrap s).y - 1, (k.wrap s).x⟩ else k.wrap s

def advance (s : Screen) (k : Cursor) (c : Byte) : Cursor :=
  if c = newline then ⟨k.y + 1, 0⟩ else ⟨(k.cell s).y, (k.cell s).x + 1⟩

/-- The cursor as a terminal keeps it between calls. -/
def stored (k : Cursor) : Cursor := ⟨k.y % 256, k.x % 256⟩

/-- The next character is put into a cell of the screen. -/
def Fits (s : Screen) (k : Cursor) (c : Byte) : Prop :=
  c = newline ∨ ((k.cell s).y < s.rows ∧ (k.cell s).x < s.columns)

end Cursor

/-- A cursor and what was drawn before it. -/
@[ext] structure Pen where
  cursor : Cursor
  pixels : Pixels

namespace Pen

open Puts (newline)

def paint (s : Screen) (font : PsfFont) (fg bg : Rgb) (pen : Pen) (c : Byte) : Pixels :=
  if c = newline then pen.pixels
  else
    let pixels := if s.rows ≤ (pen.cursor.wrap s).y then s.draw font pen.pixels s.scroll else pen.pixels
    s.putChar font (pen.cursor.cell s).y (pen.cursor.cell s).x c fg bg pixels

/-- A character of a string without colours. -/
def put (s : Screen) (font : PsfFont) (fg bg : Rgb) (pen : Pen) (c : Byte) : Pen :=
  ⟨pen.cursor.advance s c, pen.paint s font fg bg c⟩

theorem cursor_puts (s : Screen) (font : PsfFont) (fg bg : Rgb) (pen : Pen) (str : CString) :
    (str.foldl (put s font fg bg) pen).cursor = str.foldl (Cursor.advance s) pen.cursor := by
  induction str generalizing pen with
  | nil => rfl
  | cons c str ih => exact ih (pen.put s font fg bg c)

theorem puts_eq (s : Screen) (font : PsfFont) (fg bg : Rgb) (pen : Pen) (str : CString) :
    str.foldl (put s font fg bg) pen =
      ⟨str.foldl (Cursor.advance s) pen.cursor, (str.foldl (put s font fg bg) pen).pixels⟩ :=
  Pen.ext (cursor_puts s font fg bg pen str) rfl

end Pen

namespace Terminal

open Puts (newline openBrace)

/-- A whole call of `puts`: every iteration but the last one takes a character. -/
def callPuts (s : Screen) (t : Terminal) (call : PutsCall) : Terminal :=
  (List.replicate (call.str.length + 1) TerminalEvent.iteration).foldl (step s) (t.step s (.call call))

def drawn (s : Screen) (font : PsfFont) (start : Pixels) (t : Terminal) : Pixels :=
  t.accesses.foldl (s.draw font) start

def Writes (s : Screen) (t : Terminal) : Prop := ∀ a ∈ t.accesses, s.Writes a

/-- No call is under way, and the terminal has the cursor and the framebuffer of a pen. -/
structure Returned (s : Screen) (font : PsfFont) (start : Pixels) (t : Terminal) (pen : Pen) : Prop where
  idle : t.puts = none
  defined : t.undefined = false
  cursor : Cursor.mk t.cursorY t.cursorX = pen.cursor.stored
  pixels : t.drawn s font start = pen.pixels

variable {s : Screen} {t : Terminal} {p : Puts} {c : Byte} {rest : CString}

/-- `wrap` and the scrolling of `print` on the cursor alone. -/
theorem print_eq (s : Screen) (p : Puts) (c : Byte) : p.print s c =
    ((if s.rows ≤ (Cursor.wrap s ⟨p.y, p.x⟩).y then [s.scroll] else []) ++
        [.putChar p.i (Cursor.cell s ⟨p.y, p.x⟩).y (Cursor.cell s ⟨p.y, p.x⟩).x c p.lastColor p.call.bg],
      { p with
        i := p.i + 1
        y := (Cursor.cell s ⟨p.y, p.x⟩).y
        x := (Cursor.cell s ⟨p.y, p.x⟩).x + 1 }) := by
  have hwrap : p.wrap s = ((Cursor.wrap s ⟨p.y, p.x⟩).y, (Cursor.wrap s ⟨p.y, p.x⟩).x) := by
    unfold Puts.wrap Cursor.wrap
    split
    next => rfl
    next => rfl
  unfold Puts.print Cursor.cell
  simp only [hwrap]
  split
  next => rfl
  next => rfl

/-- An iteration at a character that begins no colour. -/
theorem iterate_char (font : PsfFont) (hrest : p.call.str.drop p.i = c :: rest)
    (hlength : p.call.length = -1) (hbrace : c ≠ openBrace) :
    ∃ accesses, p.iterate s = (accesses, .continues { p with
        i := p.i + 1
        y := (Cursor.advance s ⟨p.y, p.x⟩ c).y
        x := (Cursor.advance s ⟨p.y, p.x⟩ c).x }) ∧
      (∀ pixels, accesses.foldl (s.draw font) pixels =
        Pen.paint s font p.lastColor p.call.bg ⟨⟨p.y, p.x⟩, pixels⟩ c) ∧
      ((∀ a ∈ accesses, s.Writes a) ↔ Cursor.Fits s ⟨p.y, p.x⟩ c) := by
  have hindex : (p.i : Int) ≠ p.call.length := by omega
  unfold Puts.iterate Cursor.advance Pen.paint Cursor.Fits
  simp only [hrest, if_neg hindex]
  by_cases hnewline : c = newline
  · simp only [if_pos hnewline]
    refine ⟨_, rfl, fun pixels => rfl, iff_of_true ?_ (Or.inl hnewline)⟩
    simp [Screen.Writes]
  · simp only [if_neg hnewline, if_neg hbrace, print_eq]
    refine ⟨_, rfl, fun pixels => ?_, ?_⟩
    · rw [List.foldl_cons, List.foldl_append]
      split
      next => rfl
      next => rfl
    · have hscroll : ∀ a ∈ (if s.rows ≤ (Cursor.wrap s ⟨p.y, p.x⟩).y then [s.scroll] else []),
          s.Writes a := by
        split
        next => simpa using s.writes_scroll
        next => simp
      rw [List.forall_mem_cons, List.forall_mem_append, and_iff_right hscroll, List.forall_mem_singleton,
        or_iff_right hnewline]
      exact and_iff_right trivial

theorem step_end (hputs : t.puts = some p) (hrest : p.call.str.drop p.i = []) :
    t.step s .iteration =
      { t with
        cursorY := p.y % 256
        cursorX := p.x % 256
        puts := none
        accesses := t.accesses ++ [.readStr p.i] } := by
  unfold step Puts.iterate
  simp only [hputs, hrest]

theorem step_char (font : PsfFont) (start : Pixels) (hputs : t.puts = some p)
    (hrest : p.call.str.drop p.i = c :: rest) (hlength : p.call.length = -1) (hbrace : c ≠ openBrace) :
    ∃ q, (t.step s .iteration).puts = some q ∧ (t.step s .iteration).undefined = t.undefined ∧
      q.call = p.call ∧ q.lastColor = p.lastColor ∧ q.call.str.drop q.i = rest ∧
      Cursor.mk q.y q.x = Cursor.advance s ⟨p.y, p.x⟩ c ∧
      (t.step s .iteration).drawn s font start =
        Pen.paint s font p.lastColor p.call.bg ⟨⟨p.y, p.x⟩, t.drawn s font start⟩ c ∧
      (Writes s (t.step s .iteration) ↔ Writes s t ∧ Cursor.Fits s ⟨p.y, p.x⟩ c) := by
  obtain ⟨accesses, hiterate, hdraw, hwrites⟩ := iterate_char (s := s) font hrest hlength hbrace
  have hstep : t.step s .iteration =
      { t with
        puts := some { p with
          i := p.i + 1
          y := (Cursor.advance s ⟨p.y, p.x⟩ c).y
          x := (Cursor.advance s ⟨p.y, p.x⟩ c).x }
        accesses := t.accesses ++ accesses } := by
    unfold step
    simp only [hputs, hiterate]
  have hnext : p.call.str.drop (p.i + 1) = rest := by
    have htail := congrArg List.tail hrest
    rw [List.tail_drop, List.tail_cons] at htail
    exact htail
  rw [hstep, ← hdraw, ← hwrites]
  exact ⟨_, rfl, rfl, rfl, rfl, hnext, rfl, List.foldl_append, List.forall_mem_append⟩

theorem iterations_return (font : PsfFont) (start : Pixels) (hdefined : t.undefined = false)
    (hputs : t.puts = some p) (hrest : p.call.str.drop p.i = rest) (hlength : p.call.length = -1)
    (hbrace : openBrace ∉ rest) :
    Returned s font start
        ((List.replicate (rest.length + 1) TerminalEvent.iteration).foldl (step s) t)
        (rest.foldl (Pen.put s font p.lastColor p.call.bg) ⟨⟨p.y, p.x⟩, t.drawn s font start⟩) ∧
      (Writes s ((List.replicate (rest.length + 1) TerminalEvent.iteration).foldl (step s) t) ↔
        Writes s t ∧ StepsMeet (Cursor.advance s) (Cursor.Fits s) ⟨p.y, p.x⟩ rest) := by
  induction rest generalizing t p with
  | nil =>
    rw [List.length_nil, List.replicate_one, List.foldl_cons, List.foldl_nil, step_end hputs hrest]
    refine ⟨⟨rfl, hdefined, rfl, ?_⟩, ?_⟩
    · unfold drawn
      rw [List.foldl_append]
      rfl
    · unfold Writes
      rw [List.forall_mem_append]
      apply and_congr_right
      intro _
      exact iff_of_true (List.forall_mem_singleton.mpr trivial) trivial
  | cons c rest ih =>
    obtain ⟨q, hq, hdefined', hcall, hcolor, hnext, hcursor, hdrawn, hwrites⟩ :=
      step_char (s := s) font start hputs hrest hlength fun h => hbrace (h ▸ List.mem_cons_self)
    obtain ⟨hreturned, hsafe⟩ := ih (hdefined'.trans hdefined) hq hnext (by rw [hcall]; exact hlength)
      fun h => hbrace (List.mem_cons_of_mem c h)
    rw [hcolor, hcall, hcursor, hdrawn] at hreturned
    rw [hcursor, hwrites, and_assoc] at hsafe
    rw [List.length_cons, List.replicate_succ, List.foldl_cons]
    exact ⟨hreturned, hsafe⟩

/-- A call of `puts` on a string without colours. -/
theorem callPuts_returned (font : PsfFont) (start : Pixels) (hidle : t.puts = none)
    (hdefined : t.undefined = false) {str : CString} (fg bg : Rgb) (hbrace : openBrace ∉ str) :
    Returned s font start (t.callPuts s ⟨str, -1, fg, bg⟩)
        (str.foldl (Pen.put s font fg bg) ⟨⟨t.cursorY, t.cursorX⟩, t.drawn s font start⟩) ∧
      (Writes s (t.callPuts s ⟨str, -1, fg, bg⟩) ↔
        Writes s t ∧ StepsMeet (Cursor.advance s) (Cursor.Fits s) ⟨t.cursorY, t.cursorX⟩ str) := by
  have hcall : t.step s (.call ⟨str, -1, fg, bg⟩) =
      { t with puts := some ⟨⟨str, -1, fg, bg⟩, 0, t.cursorY, t.cursorX, fg⟩ } := by
    unfold step
    simp only [hidle, hdefined]
  unfold callPuts
  rw [hcall]
  exact iterations_return (p := ⟨⟨str, -1, fg, bg⟩, 0, t.cursorY, t.cursorX, fg⟩) font start hdefined rfl
    rfl rfl hbrace

end Terminal

end UmbraOS
