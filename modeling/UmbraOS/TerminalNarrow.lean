import UmbraOS.TerminalSplit

namespace UmbraOS

namespace Screen

variable {s : Screen} {row column row' column' p : Nat}

/-- In a framebuffer of less than 4 GiB the indices of pixels on the screen do not overflow. -/
theorem pixelIndex_eq (hsmall : s.width * 4 * s.height < 2 ^ 32) (hr : row < s.rows) (hc : column < s.columns)
    {i j : Nat} (hi : i < s.fontHeight) (hj : j < s.fontWidth) :
    s.pixelIndex row column i j = column * s.fontWidth + j + s.width * (i + row * s.fontHeight) ∧
      column * s.fontWidth + j < s.width := by
  have hx : column * s.fontWidth + j < s.width := cell_lt hc hj
  have hy : row * s.fontHeight + i < s.height := cell_lt hr hi
  have htotal : s.width * 4 * s.height = 4 * (s.width * s.height) := by ring
  have hline : s.width * (i + row * s.fontHeight + 1) ≤ s.width * s.height :=
    Nat.mul_le_mul_left _ (by omega)
  rw [Nat.mul_add, Nat.mul_one] at hline
  exact ⟨pixelIndex_of_lt hx (by omega), hx⟩

theorem InCell.coords (hsmall : s.width * 4 * s.height < 2 ^ 32) (hr : row < s.rows) (hc : column < s.columns)
    (h : s.InCell row column p) : p / s.width / s.fontHeight = row ∧ p % s.width / s.fontWidth = column := by
  obtain ⟨i, hi, j, hj, rfl⟩ := h
  obtain ⟨hindex, hlt⟩ := pixelIndex_eq hsmall hr hc hi hj
  have hi' : 0 < s.fontHeight := by omega
  have hj' : 0 < s.fontWidth := by omega
  rw [hindex, Nat.add_mul_div_left _ _ (by omega : 0 < s.width), Nat.div_eq_of_lt hlt, Nat.zero_add,
    Nat.add_mul_div_right _ _ hi', Nat.div_eq_of_lt hi, Nat.zero_add, Nat.add_mul_mod_self_left,
    Nat.mod_eq_of_lt hlt, Nat.add_comm, Nat.add_mul_div_right _ _ hj', Nat.div_eq_of_lt hj, Nat.zero_add]
  exact ⟨rfl, rfl⟩

theorem InCell.unique (hsmall : s.width * 4 * s.height < 2 ^ 32) (hr : row < s.rows) (hc : column < s.columns)
    (hr' : row' < s.rows) (hc' : column' < s.columns) (h : s.InCell row column p)
    (h' : s.InCell row' column' p) : row = row' ∧ column = column' := by
  obtain ⟨hrow, hcolumn⟩ := h.coords hsmall hr hc
  obtain ⟨hrow', hcolumn'⟩ := h'.coords hsmall hr' hc'
  exact ⟨hrow.symm.trans hrow', hcolumn.symm.trans hcolumn'⟩

theorem inCell_first (hr : row < s.rows) (hc : column < s.columns) :
    s.InCell row column (s.pixelIndex row column 0 0) := by
  have hheight : 0 < s.fontHeight := by
    by_contra h
    rw [rows, Nat.eq_zero_of_not_pos h, Nat.div_zero] at hr
    omega
  have hwidth : 0 < s.fontWidth := by
    by_contra h
    rw [columns, Nat.eq_zero_of_not_pos h, Nat.div_zero] at hc
    omega
  exact ⟨0, hheight, 0, hwidth, rfl⟩

end Screen

namespace Terminal

open Puts (newline openBrace)

def letter : Byte := 0x61#8

def ink : Rgb := Rgb.WHITE

def paper : Pixels := fun _ => Rgb.GREEN

variable {s : Screen} {font : PsfFont} {k : Cursor} {pixels : Pixels} {p : Nat}

theorem letter_ne_newline : letter ≠ newline := by decide

theorem plain_replicate {c : Byte} (hbrace : openBrace ≠ c) (hnul : 0#8 ≠ c) (n : Nat) :
    Plain (List.replicate n c) :=
  ⟨fun h => hbrace (List.eq_of_mem_replicate h), fun h => hnul (List.eq_of_mem_replicate h)⟩

theorem wrap_of_lt (hx : k.x < s.columns) : k.wrap s = k := if_neg (Nat.not_le_of_lt hx)

theorem cell_of_lt (hy : k.y < s.rows) (hx : k.x < s.columns) : k.cell s = k := by
  unfold Cursor.cell
  rw [wrap_of_lt hx, if_neg (Nat.not_le_of_lt hy)]

theorem paint_inside (h : s.InCell (k.cell s).y (k.cell s).x p) :
    Pen.paint s font ink ink ⟨k, pixels⟩ letter p = ink := by
  unfold Pen.paint
  rw [if_neg letter_ne_newline]
  exact s.putChar_inside font letter ink _ h

theorem fits_letter {row column : Nat} (hcell : k.cell s = ⟨row, column⟩) (hr : row < s.rows)
    (hc : column < s.columns) : Cursor.Fits s k letter := by
  unfold Cursor.Fits
  rw [hcell]
  exact Or.inr ⟨hr, hc⟩

/-- Outside its cell a letter changes nothing, unless the screen is scrolled for it. -/
theorem paint_outside (hy : (k.wrap s).y < s.rows) (h : ¬s.InCell (k.cell s).y (k.cell s).x p) :
    Pen.paint s font ink ink ⟨k, pixels⟩ letter p = pixels p := by
  unfold Pen.paint
  rw [if_neg letter_ne_newline, if_neg (Nat.not_le_of_lt hy)]
  exact s.putChar_outside font letter ink ink _ h

theorem paint_scrolled (hy : s.rows ≤ (k.wrap s).y) (h : ¬s.InCell (k.cell s).y (k.cell s).x p) :
    Pen.paint s font ink ink ⟨k, pixels⟩ letter p = s.draw font pixels s.scroll p := by
  unfold Pen.paint
  rw [if_neg letter_ne_newline, if_pos hy]
  exact s.putChar_outside font letter ink ink _ h

/-- Where output does not depend on how it is split, a letter is drawn the same from the cursor after a
string and from the stored one. -/
theorem paint_eq (h : Splits s) {str : CString} (font : PsfFont) (hplain : Plain str)
    (hfits : StepsMeet (Cursor.advance s) (Cursor.Fits s) ⟨0, 0⟩ str)
    (hhere : Cursor.Fits s (str.foldl (Cursor.advance s) ⟨0, 0⟩) letter)
    (hstored : Cursor.Fits s (str.foldl (Cursor.advance s) ⟨0, 0⟩).stored letter) :
    Pen.paint s font ink ink ⟨str.foldl (Cursor.advance s) ⟨0, 0⟩,
        (str.foldl (Pen.put s font ink ink) ⟨⟨0, 0⟩, paper⟩).pixels⟩ letter =
      Pen.paint s font ink ink ⟨(str.foldl (Cursor.advance s) ⟨0, 0⟩).stored,
        (str.foldl (Pen.put s font ink ink) ⟨⟨0, 0⟩, paper⟩).pixels⟩ letter := by
  have hletter : Plain [letter] := ⟨by decide, by decide⟩
  have hjoined := (joined_returned (s := s) (k := ⟨0, 0⟩) font paper ink ink hplain hletter).2
  have hsplit := (split_returned (s := s) (k := ⟨0, 0⟩) font paper ink ink hplain hletter).2
  have halike := h font paper ⟨0, 0⟩ str [letter] ink ink (by decide) (by decide) hplain hletter
    (hjoined.mpr (stepsMeet_append.mpr ⟨hfits, hhere, trivial⟩)) (hsplit.mpr ⟨hfits, hstored, trivial⟩)
  rw [← Pen.puts_eq s font ink ink ⟨⟨0, 0⟩, paper⟩ str]
  exact ((alike_pens font paper hplain hletter).mp halike).1

theorem lines_fit (n y : Nat) :
    StepsMeet (Cursor.advance s) (Cursor.Fits s) ⟨y, 0⟩ (List.replicate n newline) ∧
      (List.replicate n newline).foldl (Cursor.advance s) ⟨y, 0⟩ = ⟨y + n, 0⟩ := by
  induction n generalizing y with
  | zero => exact ⟨trivial, rfl⟩
  | succ n ih =>
    have hadvance : Cursor.advance s ⟨y, 0⟩ newline = ⟨y + 1, 0⟩ := if_pos rfl
    obtain ⟨hfits, hcursor⟩ := ih (y + 1)
    rw [List.replicate_succ, List.foldl_cons, StepsMeet, hadvance, hcursor, Nat.add_right_comm, Nat.add_assoc]
    exact ⟨⟨Or.inl rfl, hfits⟩, rfl⟩

/-- Letters from the first cell on fill the first line. -/
theorem letters_fit (hr : 1 ≤ s.rows) {n : Nat} (hn : n ≤ s.columns) :
    StepsMeet (Cursor.advance s) (Cursor.Fits s) ⟨0, 0⟩ (List.replicate n letter) ∧
      (List.replicate n letter).foldl (Cursor.advance s) ⟨0, 0⟩ = ⟨0, n⟩ := by
  induction n with
  | zero => exact ⟨trivial, rfl⟩
  | succ n ih =>
    obtain ⟨hfits, hcursor⟩ := ih (Nat.le_of_succ_le hn)
    have hcell : Cursor.cell s ⟨0, n⟩ = ⟨0, n⟩ := cell_of_lt hr hn
    rw [List.replicate_succ', stepsMeet_append, List.foldl_append, hcursor, List.foldl_cons, List.foldl_nil]
    refine ⟨⟨hfits, Or.inr ?_, trivial⟩, ?_⟩
    · rw [hcell]
      exact ⟨hr, hn⟩
    · unfold Cursor.advance
      rw [if_neg letter_ne_newline, hcell]

theorem letters_pixels (font : PsfFont) (hr : 1 ≤ s.rows) {n : Nat} (hn : n ≤ s.columns) (p : Nat) :
    ((∃ column < n, s.InCell 0 column p) →
        ((List.replicate n letter).foldl (Pen.put s font ink ink) ⟨⟨0, 0⟩, paper⟩).pixels p = ink) ∧
      ((∀ column < n, ¬s.InCell 0 column p) →
        ((List.replicate n letter).foldl (Pen.put s font ink ink) ⟨⟨0, 0⟩, paper⟩).pixels p = Rgb.GREEN) := by
  induction n with
  | zero => exact ⟨fun h => (by simp at h), fun _ => rfl⟩
  | succ n ih =>
    obtain ⟨hink, hpaper⟩ := ih (Nat.le_of_succ_le hn)
    have hpen := Pen.puts_eq s font ink ink ⟨⟨0, 0⟩, paper⟩ (List.replicate n letter)
    rw [(letters_fit hr (Nat.le_of_succ_le hn)).2] at hpen
    have hwrap : Cursor.wrap s ⟨0, n⟩ = ⟨0, n⟩ := wrap_of_lt hn
    have hcell : Cursor.cell s ⟨0, n⟩ = ⟨0, n⟩ := cell_of_lt hr hn
    rw [List.replicate_succ', List.foldl_append, List.foldl_cons, List.foldl_nil, hpen]
    by_cases hlast : s.InCell 0 n p
    · refine ⟨fun _ => paint_inside (by rw [hcell]; exact hlast), fun h => ?_⟩
      exact absurd hlast (h n (Nat.lt_succ_self n))
    · have hsame : ∀ pixels, (Pen.put s font ink ink ⟨⟨0, n⟩, pixels⟩ letter).pixels p = pixels p := by
        intro pixels
        refine paint_outside ?_ (by rw [hcell]; exact hlast)
        rw [hwrap]
        exact hr
      rw [hsame]
      constructor
      · intro h
        obtain ⟨column, hcolumn, hp⟩ := h
        have hne : column ≠ n := fun heq => hlast (heq ▸ hp)
        exact hink ⟨column, by omega, hp⟩
      · exact fun h => hpaper fun column hcolumn => h column (Nat.lt_succ_of_lt hcolumn)

def plainFont : PsfFont := ⟨fun _ => 0#8, 0⟩

theorem lines_pixels (font : PsfFont) (n : Nat) :
    ((List.replicate n newline).foldl (Pen.put s font ink ink) ⟨⟨0, 0⟩, paper⟩).pixels = paper :=
  lines_drawn font _ fun _ h => List.eq_of_mem_replicate h

/-- Behind 256 line breaks a letter is put where the screen has a line for it. -/
theorem rows_lt_of_splits (hr : 1 ≤ s.rows) (hc : 1 ≤ s.columns) (hsmall : s.width * 4 * s.height < 2 ^ 32)
    (h : Splits s) : s.rows < 256 := by
  by_contra hrows
  obtain ⟨hfits, hcursor⟩ := lines_fit (s := s) 256 0
  have hwrap : Cursor.wrap s ⟨256, 0⟩ = ⟨256, 0⟩ := wrap_of_lt hc
  obtain ⟨row, hcell, hrow, hpos⟩ :
      ∃ row, Cursor.cell s ⟨256, 0⟩ = ⟨row, 0⟩ ∧ row < s.rows ∧ row ≠ 0 := by
    unfold Cursor.cell
    rw [hwrap]
    split
    next => exact ⟨255, rfl, by omega, by decide⟩
    next hlt => exact ⟨256, rfl, Nat.lt_of_not_le hlt, by decide⟩
  have hcell' : Cursor.cell s ⟨0, 0⟩ = ⟨0, 0⟩ := cell_of_lt hr hc
  have hwrap' : Cursor.wrap s ⟨0, 0⟩ = ⟨0, 0⟩ := wrap_of_lt hc
  have hpaint := paint_eq h plainFont (plain_replicate (by decide) (by decide) 256) hfits
    (by rw [hcursor]; exact fits_letter hcell hrow hc) (by rw [hcursor]; exact fits_letter hcell' hr hc)
  rw [hcursor, lines_pixels] at hpaint
  have hfirst := s.inCell_first hrow hc
  have hink : Pen.paint s plainFont ink ink ⟨⟨256, 0⟩, paper⟩ letter (s.pixelIndex row 0 0 0) = ink :=
    paint_inside (by rw [hcell]; exact hfirst)
  have hpaper : Pen.paint s plainFont ink ink ⟨⟨0, 0⟩, paper⟩ letter (s.pixelIndex row 0 0 0) = Rgb.GREEN := by
    refine paint_outside (by rw [hwrap']; exact hr) ?_
    rw [hcell']
    exact fun hsame => hpos (hfirst.unique hsmall hrow hc hr hc hsame).1
  have heq := (hink.symm.trans (congrFun hpaint _)).trans hpaper
  exact absurd heq (by decide)

/-- On a screen of one line of letters, what is scrolled into a cell was not on the screen. -/
theorem scrolled_letters (hrows : s.rows = 1) (hcolumns : s.columns = 256)
    (hsmall : s.width * 4 * s.height < 2 ^ 32) (hheight : s.height ≠ 1) :
    s.draw font ((List.replicate 256 letter).foldl (Pen.put s font ink ink) ⟨⟨0, 0⟩, paper⟩).pixels s.scroll
      (s.pixelIndex 0 255 0 0) = Rgb.GREEN := by
  have hr : 0 < s.rows := by omega
  have hc : 255 < s.columns := by omega
  obtain ⟨hfont, hfits⟩ : 0 < s.fontHeight ∧ s.fontHeight ≤ s.height := Nat.div_pos_iff.mp hr
  have hfontWidth : 0 < s.fontWidth := (Nat.div_pos_iff.mp (Nat.zero_lt_of_lt hc)).1
  obtain ⟨hindex, hlt⟩ := s.pixelIndex_eq hsmall hr hc hfont hfontWidth
  have hp : s.pixelIndex 0 255 0 0 < s.width := by
    rw [hindex]
    simpa using hlt
  have hmove : s.width ≤ s.width * (s.height - 1) := Nat.le_mul_of_pos_right _ (by omega)
  have hsize : s.bufferSize = 4 * (s.width * (s.height - 1)) := by
    rw [Screen.bufferSize_eq hsmall]
    ring
  have hsrc : s.scrollSrc / 4 = s.width * s.fontHeight := by
    rw [Screen.scrollSrc_eq hsmall hfits]
    have hmul : s.width * 4 * s.fontHeight = 4 * (s.width * s.fontHeight) := by ring
    omega
  unfold Screen.scroll Screen.draw
  simp only [hsrc]
  rw [if_pos (by omega), Nat.zero_div, Nat.sub_zero]
  refine (letters_pixels font hr (by omega) _).2 fun column hcolumn hcell => ?_
  have hrow := (hcell.coords hsmall hr (by omega)).1
  rw [Nat.add_comm, Nat.add_mul_div_left _ _ (by omega : 0 < s.width), Nat.div_eq_of_lt hp, Nat.zero_add,
    Nat.div_self hfont] at hrow
  exact absurd hrow (by decide)

theorem letters_paint_eq (hr : 1 ≤ s.rows) (hwide : 256 ≤ s.columns) (h : Splits s) {row column : Nat}
    (hcell : Cursor.cell s ⟨0, 256⟩ = ⟨row, column⟩) (hrow : row < s.rows) (hcolumn : column < s.columns) :
    Pen.paint s plainFont ink ink ⟨⟨0, 256⟩,
        ((List.replicate 256 letter).foldl (Pen.put s plainFont ink ink) ⟨⟨0, 0⟩, paper⟩).pixels⟩ letter =
      Pen.paint s plainFont ink ink ⟨⟨0, 0⟩,
        ((List.replicate 256 letter).foldl (Pen.put s plainFont ink ink) ⟨⟨0, 0⟩, paper⟩).pixels⟩ letter := by
  obtain ⟨hfits, hcursor⟩ := letters_fit hr hwide
  have hc : 1 ≤ s.columns := by omega
  have hstored : Cursor.stored ⟨0, 256⟩ = ⟨0, 0⟩ := rfl
  have hpaint := paint_eq h plainFont (plain_replicate (by decide) (by decide) 256) hfits
    (by rw [hcursor]; exact fits_letter hcell hrow hcolumn)
    (by rw [hcursor, hstored]; exact fits_letter (cell_of_lt hr hc) hr hc)
  rw [hcursor, hstored] at hpaint
  exact hpaint

theorem cell_drawn (hr : 1 ≤ s.rows) (hwide : 256 ≤ s.columns) (hsmall : s.width * 4 * s.height < 2 ^ 32)
    (h : Splits s) {row column : Nat} (hcell : Cursor.cell s ⟨0, 256⟩ = ⟨row, column⟩) (hrow : row < s.rows)
    (hcolumn : column < s.columns) : row = 0 ∧ column < 256 := by
  by_contra hfar
  have hc : 1 ≤ s.columns := by omega
  have hcell' : Cursor.cell s ⟨0, 0⟩ = ⟨0, 0⟩ := cell_of_lt hr hc
  have hwrap' : Cursor.wrap s ⟨0, 0⟩ = ⟨0, 0⟩ := wrap_of_lt hc
  have hfirst := s.inCell_first hrow hcolumn
  have hnot : ∀ column' < 256, ¬s.InCell 0 column' (s.pixelIndex row column 0 0) := by
    intro column' hlt hsame
    obtain ⟨hrow', hcolumn'⟩ := hfirst.unique hsmall hrow hcolumn hr (by omega) hsame
    exact hfar ⟨hrow', hcolumn' ▸ hlt⟩
  have hpixel := congrFun (letters_paint_eq hr hwide h hcell hrow hcolumn) (s.pixelIndex row column 0 0)
  rw [paint_inside (by rw [hcell]; exact hfirst), paint_outside (by rw [hwrap']; exact hr)
    (by rw [hcell']; exact hnot 0 (by decide)), (letters_pixels plainFont hr hwide _).2 hnot] at hpixel
  exact absurd hpixel (by decide)

/-- Behind 256 letters another one is put behind them, not over the first one. -/
theorem columns_lt_of_splits (hr : 1 ≤ s.rows) (hc : 1 ≤ s.columns) (hsmall : s.width * 4 * s.height < 2 ^ 32)
    (h : Splits s) (hline : s.columns = 256 → s.height ≠ 1) : s.columns < 256 := by
  by_contra hcolumns
  have hwide : 256 ≤ s.columns := Nat.le_of_not_lt hcolumns
  have hcell' : Cursor.cell s ⟨0, 0⟩ = ⟨0, 0⟩ := cell_of_lt hr hc
  have hwrap' : Cursor.wrap s ⟨0, 0⟩ = ⟨0, 0⟩ := wrap_of_lt hc
  by_cases hcols : s.columns = 256
  · have hwrap : Cursor.wrap s ⟨0, 256⟩ = ⟨1, 0⟩ := if_pos (by rw [hcols])
    by_cases hrows : s.rows ≤ 1
    · have hcell : Cursor.cell s ⟨0, 256⟩ = ⟨0, 0⟩ := by
        unfold Cursor.cell
        rw [hwrap, if_pos hrows]
        rfl
      have hlast := s.inCell_first hr (by omega : 255 < s.columns)
      have hnot : ¬s.InCell 0 0 (s.pixelIndex 0 255 0 0) := by
        intro hsame
        have hcolumn := (hlast.unique hsmall hr (by omega) hr hc hsame).2
        exact absurd hcolumn (by decide)
      have hpixel := congrFun (letters_paint_eq hr hwide h hcell hr hc) (s.pixelIndex 0 255 0 0)
      rw [paint_scrolled (by rw [hwrap]; exact hrows) (by rw [hcell]; exact hnot),
        paint_outside (by rw [hwrap']; exact hr) (by rw [hcell']; exact hnot),
        scrolled_letters (by omega) hcols hsmall (hline hcols),
        (letters_pixels plainFont hr hwide _).1 ⟨255, by decide, hlast⟩] at hpixel
      exact absurd hpixel (by decide)
    · have hcell : Cursor.cell s ⟨0, 256⟩ = ⟨1, 0⟩ := by
        unfold Cursor.cell
        rw [hwrap, if_neg hrows]
      exact absurd (cell_drawn hr hwide hsmall h hcell (by omega) hc).1 (by decide)
  · have hlt : 256 < s.columns := by omega
    have hcell : Cursor.cell s ⟨0, 256⟩ = ⟨0, 256⟩ := cell_of_lt hr hlt
    exact absurd (cell_drawn hr hwide hsmall h hcell hr hlt).2 (by decide)

/-- Two calls draw what one call draws, and leave the same cursor, when the cursor between them fits in its
two bytes, or only line breaks follow. For all strings that stay on the screen this is so on screens of
fewer than 256 lines and columns of characters, and on a line of pixels with 256 columns. -/
theorem puts_splits_iff {s : Screen} (hr : 1 ≤ s.rows) (hc : 1 ≤ s.columns) :
    (∀ (font : PsfFont) (start : Pixels) (k : Cursor) (str str' : CString) (fg bg : Rgb),
      Plain str → Plain str' →
      ((str.foldl (Cursor.advance s) k).y < 256 ∧ (str.foldl (Cursor.advance s) k).x < 256) ∨
        (∀ c ∈ str', c = newline) →
      Alike s font start (joined s k str str' fg bg) (split s k str str' fg bg)) ∧
    ((s.rows < 256 ∧ s.columns < 256) ∨ (s.height = 1 ∧ s.columns = 256) → Splits s) ∧
    (s.width * 4 * s.height < 2 ^ 32 → Splits s →
      (s.rows < 256 ∧ s.columns < 256) ∨ (s.height = 1 ∧ s.columns = 256)) := by
  refine ⟨fun font start k str str' fg bg h h' hcursor => ?_, fun hscreen => ?_, fun hsmall h => ?_⟩
  · rcases hcursor with ⟨hy, hx⟩ | hlines
    · exact alike_of_stored font start h h' hy hx
    · exact alike_of_lines font start h h' hlines
  · rcases hscreen with ⟨hrows, hcolumns⟩ | ⟨hheight, hcolumns⟩
    · exact splits_of_lt hc hrows hcolumns
    · have hone : s.rows = 1 := Nat.le_antisymm (hheight ▸ Nat.div_le_self s.height s.fontHeight) hr
      exact splits_of_line hone hcolumns hheight
  · by_cases hline : s.columns = 256 → s.height ≠ 1
    · exact Or.inl ⟨rows_lt_of_splits hr hc hsmall h, columns_lt_of_splits hr hc hsmall h hline⟩
    · obtain ⟨hcolumns, hheight⟩ := Classical.not_imp.mp hline
      exact Or.inr ⟨not_not.mp hheight, hcolumns⟩

/-- 320 columns of letters of 8 by 16 pixels. -/
def wideScreen : Screen := ⟨2560, 1440, 10240, 8, 16⟩

theorem puts_splits_wide : 1 ≤ wideScreen.rows ∧ 1 ≤ wideScreen.columns ∧
    (Splits wideScreen → (wideScreen.rows < 256 ∧ wideScreen.columns < 256) ∨
      (wideScreen.height = 1 ∧ wideScreen.columns = 256)) :=
  ⟨by decide, by decide, (puts_splits_iff (by decide) (by decide)).2.2 (by decide)⟩

/-- Behind 256 letters a second call begins over the first one. -/
theorem puts_overwrites : ¬∀ s : Screen, 1 ≤ s.rows → 1 ≤ s.columns → Splits s := by
  intro h
  have hcolumns := columns_lt_of_splits (by decide) (by decide) (by decide)
    (h wideScreen (by decide) (by decide)) (by decide)
  exact absurd hcolumns (by decide)

end Terminal

end UmbraOS
