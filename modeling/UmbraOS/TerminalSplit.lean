import UmbraOS.TerminalPixels

namespace UmbraOS

namespace Terminal

open Puts (newline openBrace)

/-- Without colours and terminators. -/
structure Plain (str : CString) : Prop where
  brace : openBrace ∉ str
  nul : 0#8 ∉ str

def joined (s : Screen) (k : Cursor) (str str' : CString) (fg bg : Rgb) : Terminal :=
  (withCursor k.y k.x).callPuts s ⟨str ++ str', -1, fg, bg⟩

def split (s : Screen) (k : Cursor) (str str' : CString) (fg bg : Rgb) : Terminal :=
  ((withCursor k.y k.x).callPuts s ⟨str, -1, fg, bg⟩).callPuts s ⟨str', -1, fg, bg⟩

structure Alike (s : Screen) (font : PsfFont) (start : Pixels) (t t' : Terminal) : Prop where
  pixels : t.drawn s font start = t'.drawn s font start
  cursorY : t.cursorY = t'.cursorY
  cursorX : t.cursorX = t'.cursorX

/-- Wherever the cursor is, output does not depend on how it is split, as long as it stays on the
screen. -/
def Splits (s : Screen) : Prop :=
  ∀ (font : PsfFont) (start : Pixels) (k : Cursor) (str str' : CString) (fg bg : Rgb),
    k.y < 256 → k.x < 256 → Plain str → Plain str' →
    Writes s (joined s k str str' fg bg) → Writes s (split s k str str' fg bg) →
    Alike s font start (joined s k str str' fg bg) (split s k str str' fg bg)

section Calls

variable {s : Screen} {k : Cursor} {str str' : CString} {fg bg : Rgb}

theorem joined_returned (font : PsfFont) (start : Pixels) (fg bg : Rgb) (h : Plain str) (h' : Plain str') :
    Returned s font start (joined s k str str' fg bg)
        (str'.foldl (Pen.put s font fg bg) (str.foldl (Pen.put s font fg bg) ⟨k, start⟩)) ∧
      (Writes s (joined s k str str' fg bg) ↔
        StepsMeet (Cursor.advance s) (Cursor.Fits s) k (str ++ str')) := by
  have hbrace : openBrace ∉ str ++ str' := by
    rw [List.mem_append, not_or]
    exact ⟨h.brace, h'.brace⟩
  obtain ⟨hreturned, hwrites⟩ :=
    callPuts_returned (t := withCursor k.y k.x) (s := s) font start rfl rfl fg bg hbrace
  rw [List.foldl_append] at hreturned
  exact ⟨hreturned, hwrites.trans (and_iff_right fun a ha => absurd ha List.not_mem_nil)⟩

theorem split_returned (font : PsfFont) (start : Pixels) (fg bg : Rgb) (h : Plain str) (h' : Plain str') :
    Returned s font start (split s k str str' fg bg)
        (str'.foldl (Pen.put s font fg bg)
          ⟨(str.foldl (Cursor.advance s) k).stored, (str.foldl (Pen.put s font fg bg) ⟨k, start⟩).pixels⟩) ∧
      (Writes s (split s k str str' fg bg) ↔
        StepsMeet (Cursor.advance s) (Cursor.Fits s) k str ∧
          StepsMeet (Cursor.advance s) (Cursor.Fits s) (str.foldl (Cursor.advance s) k).stored str') := by
  obtain ⟨hfirst, hwrites⟩ :=
    callPuts_returned (t := withCursor k.y k.x) (s := s) font start rfl rfl fg bg h.brace
  obtain ⟨hreturned, hwrites'⟩ := callPuts_returned (s := s) font start hfirst.idle hfirst.defined fg bg h'.brace
  have hcursor := hfirst.cursor
  rw [Pen.cursor_puts] at hcursor
  rw [hcursor, hfirst.pixels] at hreturned
  rw [hcursor, hwrites, and_assoc] at hwrites'
  exact ⟨hreturned, hwrites'.trans (and_iff_right fun a ha => absurd ha List.not_mem_nil)⟩

theorem alike_iff {font : PsfFont} {start : Pixels} {t t' : Terminal} {pen pen' : Pen}
    (h : Returned s font start t pen) (h' : Returned s font start t' pen') :
    Alike s font start t t' ↔ pen.pixels = pen'.pixels ∧ pen.cursor.stored = pen'.cursor.stored := by
  rw [← h.pixels, ← h'.pixels, ← h.cursor, ← h'.cursor, Cursor.mk.injEq]
  constructor
  · exact fun h => ⟨h.pixels, h.cursorY, h.cursorX⟩
  · exact fun h => ⟨h.1, h.2.1, h.2.2⟩

theorem alike_pens (font : PsfFont) (start : Pixels) (h : Plain str) (h' : Plain str') :
    Alike s font start (joined s k str str' fg bg) (split s k str str' fg bg) ↔
      (str'.foldl (Pen.put s font fg bg) (str.foldl (Pen.put s font fg bg) ⟨k, start⟩)).pixels =
          (str'.foldl (Pen.put s font fg bg) ⟨(str.foldl (Cursor.advance s) k).stored,
            (str.foldl (Pen.put s font fg bg) ⟨k, start⟩).pixels⟩).pixels ∧
        (str'.foldl (Cursor.advance s) (str.foldl (Cursor.advance s) k)).stored =
          (str'.foldl (Cursor.advance s) (str.foldl (Cursor.advance s) k).stored).stored := by
  rw [alike_iff (joined_returned font start fg bg h h').1 (split_returned font start fg bg h h').1]
  simp only [Pen.cursor_puts]

theorem stored_of_lt (hy : k.y < 256) (hx : k.x < 256) : k.stored = k := by
  unfold Cursor.stored
  rw [Nat.mod_eq_of_lt hy, Nat.mod_eq_of_lt hx]

/-- A cursor that fits in its bytes is found again by the next call. -/
theorem alike_of_stored (font : PsfFont) (start : Pixels) (h : Plain str) (h' : Plain str')
    (hy : (str.foldl (Cursor.advance s) k).y < 256) (hx : (str.foldl (Cursor.advance s) k).x < 256) :
    Alike s font start (joined s k str str' fg bg) (split s k str str' fg bg) := by
  rw [alike_pens font start h h', stored_of_lt hy hx, ← Pen.puts_eq s font fg bg ⟨k, start⟩ str]
  exact ⟨rfl, rfl⟩

/-- Line breaks draw nothing, and count in the stored cursor as in the one of the call. -/
theorem lines_drawn (font : PsfFont) (pen : Pen) (h : ∀ c ∈ str, c = newline) :
    (str.foldl (Pen.put s font fg bg) pen).pixels = pen.pixels := by
  induction str generalizing pen with
  | nil => rfl
  | cons c str ih =>
    rw [List.foldl_cons, ih _ fun c' hc' => h c' (List.mem_cons_of_mem c hc')]
    exact if_pos (h c List.mem_cons_self)

theorem lines_stored {k' : Cursor} (h : ∀ c ∈ str, c = newline) (hk : k.stored = k'.stored) :
    (str.foldl (Cursor.advance s) k).stored = (str.foldl (Cursor.advance s) k').stored := by
  induction str generalizing k k' with
  | nil => exact hk
  | cons c str ih =>
    apply ih fun c' hc' => h c' (List.mem_cons_of_mem c hc')
    have hy : k.y % 256 = k'.y % 256 := congrArg Cursor.y hk
    unfold Cursor.advance Cursor.stored
    rw [if_pos (h c List.mem_cons_self), if_pos (h c List.mem_cons_self)]
    rw [Nat.add_mod, hy, ← Nat.add_mod]

theorem alike_of_lines (font : PsfFont) (start : Pixels) (h : Plain str) (h' : Plain str')
    (hlines : ∀ c ∈ str', c = newline) :
    Alike s font start (joined s k str str' fg bg) (split s k str str' fg bg) := by
  rw [alike_pens font start h h', lines_drawn font _ hlines, lines_drawn font _ hlines]
  refine ⟨rfl, lines_stored hlines ?_⟩
  unfold Cursor.stored
  rw [Nat.mod_mod, Nat.mod_mod]

/-- Below the screen nothing but line breaks fits any more. -/
theorem lines_of_below (hy : s.rows < k.y)
    (h : StepsMeet (Cursor.advance s) (Cursor.Fits s) k str) : ∀ c ∈ str, c = newline := by
  induction str generalizing k with
  | nil => simp
  | cons c str ih =>
    have hnewline : c = newline := by
      rcases h.1 with hnewline | ⟨hrow, -⟩
      · exact hnewline
      · have hwrap : k.y ≤ (k.wrap s).y := by
          unfold Cursor.wrap
          split
          next => exact Nat.le_succ _
          next => exact Nat.le_refl _
        unfold Cursor.cell at hrow
        rw [if_pos (by omega)] at hrow
        simp only at hrow
        omega
    have hnext : s.rows < (k.advance s c).y := by
      unfold Cursor.advance
      rw [if_pos hnewline]
      exact Nat.lt_succ_of_lt hy
    intro c' hc'
    rcases List.mem_cons.mp hc' with rfl | hc'
    · exact hnewline
    · exact ih hnext h.2 c' hc'

/-- On a screen of fewer than 256 lines a cursor that does not fit in its byte is below the screen. -/
theorem alike_of_rows (font : PsfFont) (start : Pixels) (hrows : s.rows < 256) (h : Plain str) (h' : Plain str')
    (hjoined : Writes s (joined s k str str' fg bg)) (hx : (str.foldl (Cursor.advance s) k).x < 256) :
    Alike s font start (joined s k str str' fg bg) (split s k str str' fg bg) := by
  by_cases hy : (str.foldl (Cursor.advance s) k).y < 256
  · exact alike_of_stored font start h h' hy hx
  · have hmeets := (stepsMeet_append.mp ((joined_returned font start fg bg h h').2.mp hjoined)).2
    exact alike_of_lines font start h h' (lines_of_below (by omega) hmeets)

theorem wrap_x_lt (hc : 1 ≤ s.columns) (k : Cursor) : (k.wrap s).x < s.columns := by
  unfold Cursor.wrap
  split
  next => exact hc
  next hlt => exact Nat.lt_of_not_le hlt

theorem cell_x (s : Screen) (k : Cursor) : (k.cell s).x = (k.wrap s).x := by
  unfold Cursor.cell
  split
  next => rfl
  next => rfl

theorem advance_x_le (hc : 1 ≤ s.columns) (k : Cursor) (c : Byte) : (k.advance s c).x ≤ s.columns := by
  unfold Cursor.advance
  split
  next => exact Nat.zero_le _
  next =>
    rw [cell_x]
    exact wrap_x_lt hc k

theorem x_lt (hc : 1 ≤ s.columns) (hcolumns : s.columns < 256) (hx : k.x < 256) (str : CString) :
    (str.foldl (Cursor.advance s) k).x < 256 := by
  induction str generalizing k with
  | nil => exact hx
  | cons c str ih => exact ih (Nat.lt_of_le_of_lt (advance_x_le hc k c) hcolumns)

end Calls

theorem splits_of_lt {s : Screen} (hc : 1 ≤ s.columns) (hrows : s.rows < 256) (hcolumns : s.columns < 256) :
    Splits s := by
  intro font start k str str' fg bg hy hx h h' hjoined hsplit
  exact alike_of_rows font start hrows h h' hjoined (x_lt hc hcolumns hx str)

theorem draw_scroll_line {s : Screen} (hheight : s.height = 1) (font : PsfFont) (pixels : Pixels) :
    s.draw font pixels s.scroll = pixels := by
  have hsize : s.bufferSize = 0 := by
    unfold Screen.bufferSize
    simp [hheight]
  funext p
  unfold Screen.scroll Screen.draw
  simp only [hsize]
  exact if_neg (by omega)

section Line

variable {s : Screen} (hrows : s.rows = 1) (hcolumns : s.columns = 256)
include hrows hcolumns

theorem fits_keeps {k : Cursor} {c : Byte} (h : Cursor.Fits s k c) :
    (k.advance s c).x < 256 ∨ k.advance s c = ⟨0, 256⟩ := by
  unfold Cursor.advance
  split
  next => exact Or.inl (Nat.zero_lt_succ 255)
  next hnewline =>
    obtain ⟨hrow, hcolumn⟩ := h.resolve_left hnewline
    by_cases hx : (k.cell s).x + 1 < 256
    · exact Or.inl hx
    · right
      rw [Cursor.mk.injEq]
      omega

/-- Behind the last cell a character goes where it goes from the first one. -/
theorem put_behind (hheight : s.height = 1) (font : PsfFont) (fg bg : Rgb) (pixels : Pixels) (c : Byte) :
    Pen.put s font fg bg ⟨⟨0, 256⟩, pixels⟩ c = Pen.put s font fg bg ⟨⟨0, 0⟩, pixels⟩ c := by
  have hwrap : Cursor.wrap s ⟨0, 256⟩ = ⟨1, 0⟩ := if_pos (by simp [hcolumns])
  have hwrap' : Cursor.wrap s ⟨0, 0⟩ = ⟨0, 0⟩ := if_neg (by simp [hcolumns])
  have hcell : Cursor.cell s ⟨0, 256⟩ = ⟨0, 0⟩ := by
    unfold Cursor.cell
    rw [hwrap, if_pos (by simp [hrows])]
    rfl
  have hcell' : Cursor.cell s ⟨0, 0⟩ = ⟨0, 0⟩ := by
    unfold Cursor.cell
    rw [hwrap', if_neg (by simp [hrows])]
  unfold Pen.put Pen.paint Cursor.advance
  simp only [hcell, hcell', draw_scroll_line hheight, ite_self]

theorem splits_of_line (hheight : s.height = 1) : Splits s := by
  intro font start k str str' fg bg hy hx h h' hjoined hsplit
  have hmeets := ((split_returned font start fg bg h h').2.mp hsplit).1
  have hinv : (str.foldl (Cursor.advance s) k).x < 256 ∨ str.foldl (Cursor.advance s) k = ⟨0, 256⟩ := by
    have hkeep : ∀ (k : Cursor) (c : Byte), (k.x < 256 ∨ k = ⟨0, 256⟩) → Cursor.Fits s k c →
        (k.advance s c).x < 256 ∨ k.advance s c = ⟨0, 256⟩ := fun _ _ _ hfits => fits_keeps hrows hcolumns hfits
    exact StepsMeet.invariant hkeep (Or.inl hx) hmeets
  rcases hinv with hx | hend
  · exact alike_of_rows font start (by omega) h h' hjoined hx
  · cases str' with
    | nil => exact alike_of_lines font start h h' (by simp)
    | cons c str' =>
      have hpen := Pen.puts_eq s font fg bg ⟨k, start⟩ str
      rw [hend] at hpen
      have hput := put_behind hrows hcolumns hheight font fg bg
        (str.foldl (Pen.put s font fg bg) ⟨k, start⟩).pixels c
      have hadvance : Cursor.advance s ⟨0, 256⟩ c = Cursor.advance s ⟨0, 0⟩ c := congrArg Pen.cursor hput
      have hstored : Cursor.stored ⟨0, 256⟩ = ⟨0, 0⟩ := rfl
      rw [alike_pens font start h h', hend, hstored, hpen, List.foldl_cons, List.foldl_cons, List.foldl_cons,
        List.foldl_cons, hput, hadvance]
      exact ⟨rfl, rfl⟩

end Line

end Terminal

end UmbraOS
