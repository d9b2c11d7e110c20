import Mathlib.Algebra.GroupWithZero.Nat
import UmbraOS.Format

namespace UmbraOS

/-- A string, which ends before its first terminator. -/
structure Text where
  chars : CString
  proper : 0#8 ∉ chars

/-- The variable arguments, and the strings that pointers among them lead to. -/
structure VaList where
  args : Nat → BitVec 64
  strings : BitVec 64 → Text

/-- `vsprintf` between two characters of the format: `next` arguments are taken. -/
structure Printer where
  buffer : Buffer
  p : Nat
  next : Nat
  formatSpecifier : Bool

namespace Terminal

def bufferSize : Nat := 1024

def percent : Byte := 37#8

def putByte (s : Printer) (c : Byte) : Printer := { s with buffer := s.buffer.store s.p c, p := s.p + 1 }

/-- A character that follows a percent sign. -/
def specifier (v : VaList) (s : Printer) (c : Byte) : Printer :=
  let arg := v.args s.next
  if c = 0x63#8 then
    let s := putByte s (arg.truncate 8)
    { s with next := s.next + 1 }
  else if c = 0x64#8 then
    let (buffer, size) := Format.intToStr s.buffer s.p arg
    { s with buffer := buffer, p := s.p + size, next := s.next + 1 }
  else if c = 0x73#8 then
    let s := (v.strings arg).chars.foldl putByte s
    { s with next := s.next + 1 }
  else if c = 0x78#8 then
    let (buffer, size) := Format.uintToHex s.buffer s.p arg
    { s with buffer := buffer, p := s.p + size, next := s.next + 1 }
  else s

/-- The loop of `vsprintf` at one character of the format. -/
def vsprintfChar (v : VaList) (s : Printer) (c : Byte) : Printer :=
  if c = percent then { s with formatSpecifier := true }
  else if ¬s.formatSpecifier then putByte s c
  else { specifier v s c with formatSpecifier := false }

def vsprintf (v : VaList) (s : Printer) (format : Text) : Printer :=
  format.chars.foldl (vsprintfChar v) s

/-- `printf` up to its call of `puts`; `stack` is the memory from its buffer on. -/
def printf (stack : Memory) (format : Text) (v : VaList) : Buffer :=
  let buffer : Buffer := ⟨stack.fill 0 bufferSize 0#8, List.range bufferSize⟩
  (vsprintf v ⟨buffer, 0, 0, false⟩ format).buffer

def logFormat : Text where
  chars := [0x7b#8, 0x67#8, 0x72#8, 0x65#8, 0x65#8, 0x6e#8, 0x7d#8, 0x25#8, 0x73#8, 0x0a#8]
  proper := by decide

def sysLog (stack : Memory) (strings : BitVec 64 → Text) (msg : BitVec 64) : Buffer :=
  printf stack logFormat ⟨fun _ => msg, strings⟩

/-- What one character of a format prints. -/
inductive Piece
  | copied (c : Byte)
  | char (c : Byte)
  | integer (n : BitVec 64)
  | string (str : Text)
  | hexadecimal (n : BitVec 64)

namespace Piece

def text : Piece → CString
  | copied c => [c]
  | char c => [c]
  | integer n => Format.intText n
  | string str => str.chars
  | hexadecimal n => Format.hexText n

def width : Piece → Nat
  | copied _ => 1
  | char _ => 1
  | integer n => Nat.log 10 n.toInt.natAbs + 1 + if n.toInt < 0 then 1 else 0
  | string str => str.chars.length
  | hexadecimal n => Nat.log 16 n.toNat + 1

theorem length_text (piece : Piece) : piece.text.length = piece.width := by
  cases piece with
  | copied c => rfl
  | char c => rfl
  | integer n => exact Format.length_intText n
  | string str => rfl
  | hexadecimal n => exact Format.length_hexText n

end Piece

/-- The piece of a character that follows a percent sign. -/
def conversion (v : VaList) (next : Nat) (c : Byte) : Option Piece :=
  let arg := v.args next
  if c = 0x63#8 then some (.char (arg.truncate 8))
  else if c = 0x64#8 then some (.integer arg)
  else if c = 0x73#8 then some (.string (v.strings arg))
  else if c = 0x78#8 then some (.hexadecimal arg)
  else none

/-- The pieces of a format, `next` arguments being taken. -/
def piecesFrom (v : VaList) : CString → Bool → Nat → List Piece
  | [], _, _ => []
  | c :: cs, marked, next =>
    if c = percent then piecesFrom v cs true next
    else if marked then
      match conversion v next c with
      | some piece => piece :: piecesFrom v cs false (next + 1)
      | none => piecesFrom v cs false next
    else .copied c :: piecesFrom v cs false next

def pieces (format : Text) (v : VaList) : List Piece := piecesFrom v format.chars false 0

/-- The number of characters that a format and its arguments ask for. -/
def width (format : Text) (v : VaList) : Nat := ((pieces format v).map Piece.width).sum

/-- Everything was written into the buffer, and a terminator is in it. -/
structure Contained (b : Buffer) : Prop where
  writes : ∀ x ∈ b.writes, x < bufferSize
  terminated : ∃ x < bufferSize, b.bytes x = 0#8

structure Prints (s s' : Printer) (text : CString) : Prop where
  emits : s.buffer.Emits s'.buffer s.p text
  pointer : s'.p = s.p + text.length

section Run

variable {s s' s'' : Printer} {v : VaList} {text text' : CString} {c : Byte}

theorem Prints.refl (s : Printer) : Prints s s [] := ⟨Buffer.Emits.refl s.buffer s.p, rfl⟩

theorem Prints.append (h : Prints s s' text) (h' : Prints s' s'' text') :
    Prints s s'' (text ++ text') := by
  have hemits := h'.emits
  rw [h.pointer] at hemits
  refine ⟨h.emits.append hemits, ?_⟩
  rw [h'.pointer, h.pointer, List.length_append, Nat.add_assoc]

theorem putByte_prints (s : Printer) (c : Byte) : Prints s (putByte s c) [c] :=
  ⟨Buffer.Emits.store s.buffer s.p c, rfl⟩

theorem putBytes_prints (s : Printer) (chars : CString) : Prints s (chars.foldl putByte s) chars := by
  induction chars generalizing s with
  | nil => exact Prints.refl s
  | cons c cs ih => exact (putByte_prints s c).append (ih (putByte s c))

theorem putBytes_next (s : Printer) (chars : CString) : (chars.foldl putByte s).next = s.next := by
  induction chars generalizing s with
  | nil => rfl
  | cons c cs ih => exact ih (putByte s c)

/-- A character that follows a percent sign prints its piece and takes an argument, or does nothing. -/
theorem specifier_cases (v : VaList) (s : Printer) (c : Byte) :
    (∃ piece, conversion v s.next c = some piece ∧ Prints s (specifier v s c) piece.text ∧
        (specifier v s c).next = s.next + 1) ∨
      (conversion v s.next c = none ∧ specifier v s c = s) := by
  unfold conversion specifier
  by_cases hchar : c = 0x63#8
  · simp only [if_pos hchar]
    exact Or.inl ⟨_, rfl, ⟨(putByte_prints s _).emits, rfl⟩, rfl⟩
  simp only [if_neg hchar]
  by_cases hinteger : c = 0x64#8
  · obtain ⟨hemits, hsize⟩ := Format.intToStr_emits s.buffer s.p (v.args s.next)
    simp only [if_pos hinteger]
    exact Or.inl ⟨_, rfl, ⟨hemits, congrArg (s.p + ·) hsize⟩, trivial⟩
  simp only [if_neg hinteger]
  by_cases hstring : c = 0x73#8
  · have hprints := putBytes_prints s (v.strings (v.args s.next)).chars
    simp only [if_pos hstring, putBytes_next]
    exact Or.inl ⟨_, rfl, ⟨hprints.emits, hprints.pointer⟩, trivial⟩
  simp only [if_neg hstring]
  by_cases hhex : c = 0x78#8
  · obtain ⟨hemits, hsize⟩ := Format.uintToHex_emits s.buffer s.p (v.args s.next)
    simp only [if_pos hhex]
    exact Or.inl ⟨_, rfl, ⟨hemits, congrArg (s.p + ·) hsize⟩, trivial⟩
  · simp only [if_neg hhex]
    exact Or.inr ⟨trivial, trivial⟩

theorem vsprintf_prints (v : VaList) (s : Printer) (cs : CString) :
    Prints s (cs.foldl (vsprintfChar v) s)
      ((piecesFrom v cs s.formatSpecifier s.next).flatMap Piece.text) := by
  induction cs generalizing s with
  | nil => exact Prints.refl s
  | cons c cs ih =>
    have hrest := ih (vsprintfChar v s c)
    rw [List.foldl_cons]
    unfold piecesFrom
    by_cases hpercent : c = percent
    · have hchar : vsprintfChar v s c = { s with formatSpecifier := true } := if_pos hpercent
      rw [if_pos hpercent]
      rw [hchar] at hrest ⊢
      exact ⟨hrest.emits, hrest.pointer⟩
    rw [if_neg hpercent]
    cases hmarked : s.formatSpecifier with
    | false =>
      have hchar : vsprintfChar v s c = putByte s c := by
        unfold vsprintfChar
        rw [if_neg hpercent, if_pos (by simp [hmarked])]
      have hflag : (putByte s c).formatSpecifier = false := hmarked
      rw [hchar, hflag] at hrest
      rw [hchar]
      exact (putByte_prints s c).append hrest
    | true =>
      have hchar : vsprintfChar v s c = { specifier v s c with formatSpecifier := false } := by
        unfold vsprintfChar
        rw [if_neg hpercent, if_neg (by simp [hmarked])]
      rw [hchar] at hrest ⊢
      rcases specifier_cases v s c with ⟨piece, hconversion, hprints, hnext⟩ | ⟨hconversion, hsame⟩
      · simp only [if_true, hconversion, List.flatMap_cons, ← hnext]
        have hpiece : Prints s { specifier v s c with formatSpecifier := false } piece.text :=
          ⟨hprints.emits, hprints.pointer⟩
        exact hpiece.append hrest
      · simp only [if_true, hconversion]
        rw [hsame] at hrest ⊢
        exact ⟨hrest.emits, hrest.pointer⟩

/-- A terminator is printed only as the character of a `%c`. -/
theorem zero_mem_text {piece : Piece} : 0#8 ∈ piece.text ↔ piece = .copied 0#8 ∨ piece = .char 0#8 := by
  cases piece with
  | copied c => simp [Piece.text, eq_comm (a := c)]
  | char c => simp [Piece.text, eq_comm (a := c)]
  | integer n => simp [Piece.text, Format.zero_notMem_intText]
  | string str => simp [Piece.text, str.proper]
  | hexadecimal n => simp [Piece.text, Format.zero_notMem_hexText]

theorem conversion_ne_copied {next : Nat} {piece : Piece} (h : conversion v next c = some piece) (d : Byte) :
    piece ≠ .copied d := by
  rintro rfl
  unfold conversion at h
  grind

theorem mem_of_copied {cs : CString} {marked : Bool} {next : Nat} (h : .copied c ∈ piecesFrom v cs marked next) :
    c ∈ cs := by
  induction cs generalizing marked next with
  | nil => cases h
  | cons d cs ih =>
    unfold piecesFrom at h
    split at h
    next => exact List.mem_cons_of_mem d (ih h)
    next =>
      split at h
      next =>
        split at h
        next piece hconversion =>
          rcases List.mem_cons.mp h with hpiece | h
          · exact absurd hpiece.symm (conversion_ne_copied hconversion c)
          · exact List.mem_cons_of_mem d (ih h)
        next => exact List.mem_cons_of_mem d (ih h)
      next =>
        rcases List.mem_cons.mp h with hcopied | h
        · rw [Piece.copied.inj hcopied]
          exact List.mem_cons_self
        · exact List.mem_cons_of_mem d (ih h)

end Run

/-- What `printf` leaves in the memory from its buffer on. -/
theorem printf_emits (stack : Memory) (format : Text) (v : VaList) :
    Buffer.Emits ⟨stack.fill 0 bufferSize 0#8, List.range bufferSize⟩ (printf stack format v) 0
      ((pieces format v).flatMap Piece.text) :=
  (vsprintf_prints v ⟨⟨stack.fill 0 bufferSize 0#8, List.range bufferSize⟩, 0, 0, false⟩ format.chars).emits

theorem zero_mem_pieces (format : Text) (v : VaList) :
    0#8 ∈ (pieces format v).flatMap Piece.text ↔ .char 0#8 ∈ pieces format v := by
  simp only [List.mem_flatMap, zero_mem_text]
  constructor
  · rintro ⟨piece, hmem, rfl | rfl⟩
    · exact absurd (mem_of_copied hmem) format.proper
    · exact hmem
  · exact fun h => ⟨_, h, Or.inr rfl⟩

theorem length_pieces (pieces : List Piece) :
    (pieces.flatMap Piece.text).length = (pieces.map Piece.width).sum := by
  simp only [List.length_flatMap, Piece.length_text]

theorem printf_contained_iff (stack : Memory) (format : Text) (v : VaList) :
    Contained (printf stack format v) ↔ width format v < bufferSize ∨
      (width format v = bufferSize ∧ .char 0#8 ∈ pieces format v) := by
  have hemits := printf_emits stack format v
  have hlength : ((pieces format v).flatMap Piece.text).length = width format v := length_pieces _
  rw [← zero_mem_pieces, ← hlength]
  generalize (pieces format v).flatMap Piece.text = text at hemits
  constructor
  · intro h
    have hfits : text.length ≤ bufferSize := by
      by_contra hlong
      have hlast := h.writes bufferSize ((hemits.writes bufferSize).mpr (Or.inr (by omega)))
      exact Nat.lt_irrefl _ hlast
    rcases Nat.lt_or_eq_of_le hfits with hlt | hfull
    · exact Or.inl hlt
    · obtain ⟨x, hx, hzero⟩ := h.terminated
      have hget := List.getElem?_eq_getElem (hfull.symm ▸ hx)
      have hread := hemits.inside x _ hget
      rw [Nat.zero_add, hzero] at hread
      exact Or.inr ⟨hfull, hread ▸ List.getElem_mem _⟩
  · intro h
    have hfits : text.length ≤ bufferSize := by omega
    refine ⟨fun x hx => ?_, ?_⟩
    · rcases (hemits.writes x).mp hx with hcleared | hwritten
      · simpa using hcleared
      · omega
    · rcases h with hlt | ⟨hfull, hzero⟩
      · refine ⟨text.length, hlt, ?_⟩
        rw [hemits.outside _ (Or.inr (by omega))]
        exact Memory.fill_inside _ _ (Nat.zero_le _) (by omega)
      · obtain ⟨x, hx, hget⟩ := List.mem_iff_getElem.mp hzero
        refine ⟨x, by rw [← hfull]; exact hx, ?_⟩
        have hread := hemits.inside x _ (List.getElem?_eq_getElem hx)
        rw [Nat.zero_add, hget] at hread
        exact hread

theorem pieces_logFormat (strings : BitVec 64 → Text) (msg : BitVec 64) :
    pieces logFormat ⟨fun _ => msg, strings⟩ =
      (logFormat.chars.take 7).map .copied ++ [.string (strings msg), .copied 0x0a#8] := rfl

theorem sysLog_contained_iff (stack : Memory) (strings : BitVec 64 → Text) (msg : BitVec 64) :
    Contained (sysLog stack strings msg) ↔ (strings msg).chars.length ≤ 1015 := by
  have hpieces := pieces_logFormat strings msg
  have hwidth : width logFormat ⟨fun _ => msg, strings⟩ = (strings msg).chars.length + 8 := by
    rw [width, hpieces]
    simp [logFormat, Piece.width]
    omega
  have hchar : .char 0#8 ∉ pieces logFormat ⟨fun _ => msg, strings⟩ := by
    rw [hpieces]
    simp [logFormat]
  unfold sysLog
  rw [printf_contained_iff, hwidth, bufferSize]
  constructor
  · rintro (hlt | ⟨-, hzero⟩)
    · omega
    · exact absurd hzero hchar
  · intro h
    left
    omega

/-- `printf` stays in its buffer exactly when the format and its arguments ask for fewer characters than
it has, or for as many and a terminator is among them; `sys_log` for messages of at most 1015 characters. -/
theorem printf_contained (stack : Memory) (format : Text) (v : VaList) (strings : BitVec 64 → Text)
    (msg : BitVec 64) :
    (Contained (printf stack format v) ↔
      width format v < 1024 ∨ (width format v = 1024 ∧ .char 0#8 ∈ pieces format v)) ∧
    (Contained (sysLog stack strings msg) ↔ (strings msg).chars.length ≤ 1015) :=
  ⟨printf_contained_iff stack format v, sysLog_contained_iff stack strings msg⟩

/-- A message of 1016 letters. -/
def longMessage : Text where
  chars := List.replicate 1016 0x61#8
  proper := fun h => absurd (List.eq_of_mem_replicate h) (by decide)

theorem sysLog_overruns : ¬∀ (stack : Memory) (strings : BitVec 64 → Text) (msg : BitVec 64),
    Contained (sysLog stack strings msg) := by
  intro h
  have hshort := (sysLog_contained_iff (fun _ => 0#8) (fun _ => longMessage) 0#64).mp (h _ _ _)
  rw [longMessage, List.length_replicate] at hshort
  exact absurd hshort (by decide)

end Terminal

end UmbraOS
