import UmbraOS.Terminal
import UmbraOS.Runs

namespace UmbraOS

namespace Screen

/-- Characters are put on the screen, and copies stay in the framebuffer. -/
def Allows (s : Screen) : TerminalAccess → Prop
  | .putChar _ row column _ _ _ => row < s.rows ∧ column < s.columns
  | .memcpy dest src size => size = 0 ∨ (dest + size ≤ s.bytes ∧ src + size ≤ s.bytes)
  | _ => True

/-- The lines that `scroll` moves end inside the framebuffer. -/
def ScrollFits (s : Screen) : Prop := s.bufferSize = 0 ∨ s.scrollSrc + s.bufferSize ≤ s.bytes

theorem allows_scroll (s : Screen) : s.Allows s.scroll ↔ s.ScrollFits := by
  unfold scroll Allows ScrollFits
  omega

/-- In a framebuffer of less than 4 GiB the sizes that `scroll` computes do not overflow. -/
theorem bufferSize_eq {s : Screen} (hsmall : s.width * 4 * s.height < 2 ^ 32) :
    s.bufferSize = s.width * 4 * (s.height - 1) := by
  have hle : s.width * 4 * (s.height - 1) ≤ s.width * 4 * s.height :=
    Nat.mul_le_mul_left _ (Nat.sub_le _ _)
  cases hheight : s.height with
  | zero => simp [bufferSize, hheight]
  | succ n =>
    have hline : s.width * 4 ≤ s.width * 4 * s.height := Nat.le_mul_of_pos_right _ (by omega)
    rw [hheight] at hle hline hsmall
    simp only [bufferSize, hheight]
    rw [Nat.mod_eq_of_lt (by omega : s.width * 4 < 2 ^ 32), Nat.mul_comm, Nat.mod_eq_of_lt (by omega)]

theorem scrollSrc_eq {s : Screen} (hsmall : s.width * 4 * s.height < 2 ^ 32)
    (hheight : s.fontHeight ≤ s.height) : s.scrollSrc = s.width * 4 * s.fontHeight := by
  have hle : s.width * 4 * s.fontHeight ≤ s.width * 4 * s.height := Nat.mul_le_mul_left _ hheight
  have hmul : s.width * s.fontHeight * 4 = s.width * 4 * s.fontHeight := by ring
  rw [scrollSrc, hmul]
  exact u64_of_lt (by omega)

/-- In a framebuffer without padding only a font of one line can be scrolled. -/
theorem scrollFits_iff {s : Screen} (hp : s.pitch = s.width * 4)
    (hsmall : s.width * 4 * s.height < 2 ^ 32) (hr : 1 ≤ s.rows) (hc : 1 ≤ s.columns) :
    s.ScrollFits ↔ s.fontHeight = 1 := by
  obtain ⟨hfont, hheight⟩ : 0 < s.fontHeight ∧ s.fontHeight ≤ s.height := Nat.div_pos_iff.mp hr
  obtain ⟨hfontWidth, hwidth⟩ : 0 < s.fontWidth ∧ s.fontWidth ≤ s.width := Nat.div_pos_iff.mp hc
  have hbytes : s.bytes = s.width * 4 * s.height := by rw [bytes, hp, Nat.mul_comm]
  have hlinePos : 0 < s.width * 4 := by omega
  unfold ScrollFits
  rw [scrollSrc_eq hsmall hheight, bufferSize_eq hsmall, hbytes, ← Nat.mul_add]
  constructor
  · rintro (hzero | hle)
    · rcases Nat.mul_eq_zero.mp hzero with h | h
      · omega
      · omega
    · have := Nat.le_of_mul_le_mul_left hle hlinePos
      omega
  · intro h
    right
    apply Nat.mul_le_mul_left
    omega

/-- A part of a whole cell of `size` lies below `n`. -/
theorem cell_lt {n size k j : Nat} (hk : k < n / size) (hj : j < size) : k * size + j < n := by
  have hle : (k + 1) * size ≤ n := Nat.le_trans (Nat.mul_le_mul_right _ hk) (Nat.div_mul_le_self _ _)
  rw [Nat.succ_mul] at hle
  omega

/-- The pixels of a character on the screen lie in the framebuffer. -/
theorem pixelIndex_lt {s : Screen} {row column i j : Nat} (hr : row < s.rows)
    (hc : column < s.columns) (hi : i < s.fontHeight) (hj : j < s.fontWidth) :
    s.pixelIndex row column i j < s.width * s.height := by
  have hx : column * s.fontWidth + j < s.width := cell_lt hc hj
  have hy : i + row * s.fontHeight < s.height := by
    rw [Nat.add_comm]
    exact cell_lt hr hi
  have hline : s.width * ((i + row * s.fontHeight) % 2 ^ 32 + 1) ≤ s.width * s.height :=
    Nat.mul_le_mul_left _ (Nat.lt_of_le_of_lt (Nat.mod_le _ _) hy)
  have hcolumn : (column * s.fontWidth + j) % 2 ^ 32 < s.width :=
    Nat.lt_of_le_of_lt (Nat.mod_le _ _) hx
  rw [Nat.mul_add, Nat.mul_one] at hline
  unfold pixelIndex
  exact Nat.lt_of_le_of_lt (Nat.mod_le _ _) (by omega)

end Screen

namespace Puts

variable {s : Screen} {p : Puts}

/-- The next iteration puts a character on the screen. -/
def Prints (p : Puts) : Prop :=
  match p.call.str.drop p.i with
  | [] => False
  | c :: rest => (p.i : Int) ≠ p.call.length ∧ c ≠ newline ∧
      (c = openBrace → ∃ code, (scan rest (p.i + 1) []).2 = some code ∧ colorOf code = none)

/-- The next character goes on the screen, or right below a screen that can be scrolled. -/
def RowFits (s : Screen) (p : Puts) : Prop :=
  (p.wrap s).1 < s.rows ∨ ((p.wrap s).1 = s.rows ∧ s.ScrollFits)

/-- An access to the string or to the buffer of colour codes. -/
def Quiet : TerminalAccess → Prop
  | .readStr _ | .writeCode _ => True
  | _ => False

theorem Quiet.allows {a : TerminalAccess} (h : Quiet a) : s.Allows a := by
  cases a with
  | readStr i => trivial
  | writeCode i => trivial
  | memcpy dest src size => exact absurd h id
  | putChar i row column c fg bg => exact absurd h id

theorem scan_quiet (str : CString) (i : Nat) (code : CString) :
    ∀ a ∈ (scan str i code).1, Quiet a := by
  induction str generalizing i code with
  | nil =>
    rw [scan]
    split
    next => simp [Quiet]
    next => simp [Quiet]
  | cons c rest ih =>
    rw [scan]
    split
    next => simp [Quiet]
    next =>
      split
      next =>
        intro a ha
        rcases List.mem_cons.mp ha with rfl | ha
        · trivial
        · rcases List.mem_cons.mp ha with rfl | ha
          · trivial
          · exact ih _ _ a ha
      next => simp [Quiet]

/-- What an iteration that puts a character on the screen does, and what the others do not. -/
theorem iterate_cases (s : Screen) (p : Puts) :
    (p.Prints ∧ ∃ c quiet, (∀ a ∈ quiet, Quiet a) ∧
        p.iterate s = (quiet ++ (p.print s c).1, .continues (p.print s c).2)) ∨
      (¬p.Prints ∧ ∀ a ∈ (p.iterate s).1, Quiet a) := by
  unfold Prints iterate
  cases hstr : p.call.str.drop p.i with
  | nil => exact Or.inr ⟨id, by simp [Quiet]⟩
  | cons c rest =>
    simp only
    by_cases hlength : (p.i : Int) = p.call.length
    · rw [if_pos hlength]
      exact Or.inr ⟨fun h => h.1 hlength, by simp [Quiet]⟩
    rw [if_neg hlength]
    by_cases hnewline : c = newline
    · rw [if_pos hnewline]
      exact Or.inr ⟨fun h => h.2.1 hnewline, by simp [Quiet]⟩
    rw [if_neg hnewline]
    by_cases hbrace : c = openBrace
    · rw [if_pos hbrace]
      have hquiet := scan_quiet rest (p.i + 1) []
      cases hscan : scan rest (p.i + 1) [] with
      | mk accesses result =>
        rw [hscan] at hquiet
        cases result with
        | none =>
          refine Or.inr ⟨fun h => ?_, ?_⟩
          · obtain ⟨code, hcode, -⟩ := h.2.2 hbrace
            cases hcode
          · intro a ha
            rcases List.mem_cons.mp ha with rfl | ha
            · trivial
            · exact hquiet a ha
        | some code =>
          simp only
          cases hcolor : colorOf code with
          | some color =>
            refine Or.inr ⟨fun h => ?_, ?_⟩
            · obtain ⟨code', hcode, hnone⟩ := h.2.2 hbrace
              cases hcode
              rw [hcolor] at hnone
              cases hnone
            · intro a ha
              rcases List.mem_cons.mp ha with rfl | ha
              · trivial
              · exact hquiet a ha
          | none =>
            refine Or.inl ⟨⟨hlength, hnewline, fun _ => ⟨code, rfl, hcolor⟩⟩, c,
              .readStr p.i :: accesses, ?_, rfl⟩
            intro a ha
            rcases List.mem_cons.mp ha with rfl | ha
            · trivial
            · exact hquiet a ha
    · rw [if_neg hbrace]
      refine Or.inl ⟨⟨hlength, hnewline, fun h => absurd h hbrace⟩, c, [.readStr p.i], ?_, rfl⟩
      simp [Quiet]

theorem wrap_column (hc : 1 ≤ s.columns) : (p.wrap s).2 < s.columns := by
  unfold wrap
  split
  next => exact hc
  next hlt => exact Nat.lt_of_not_le hlt

/-- A character is put on the screen, and the scroll before it stays in the framebuffer, exactly
when the row fits. -/
theorem print_allows_iff (hr : 1 ≤ s.rows) (hc : 1 ≤ s.columns) (c : Byte) :
    (∀ a ∈ (p.print s c).1, s.Allows a) ↔ p.RowFits s := by
  have hcolumn := wrap_column (p := p) hc
  unfold print RowFits
  by_cases hrow : s.rows ≤ (p.wrap s).1
  · have hprint : ((p.wrap s).1 - 1 < s.rows) ↔ (p.wrap s).1 = s.rows := by omega
    simp only [if_pos hrow, List.singleton_append, List.forall_mem_cons, s.allows_scroll]
    simp only [Screen.Allows, List.not_mem_nil, hprint]
    constructor
    · rintro ⟨hscroll, ⟨hsame, -⟩, -⟩
      exact Or.inr ⟨hsame, hscroll⟩
    · rintro (hlt | ⟨hsame, hscroll⟩)
      · exact absurd hrow (Nat.not_le_of_lt hlt)
      · exact ⟨hscroll, ⟨hsame, hcolumn⟩, fun _ h => absurd h id⟩
  · simp only [if_neg hrow, List.nil_append, List.forall_mem_cons]
    simp only [Screen.Allows, List.not_mem_nil]
    constructor
    · exact fun h => Or.inl h.1.1
    · exact fun _ => ⟨⟨Nat.lt_of_not_le hrow, hcolumn⟩, fun _ h => absurd h id⟩

theorem iterate_allows_iff (hr : 1 ≤ s.rows) (hc : 1 ≤ s.columns) :
    (∀ a ∈ (p.iterate s).1, s.Allows a) ↔ (p.Prints → p.RowFits s) := by
  rcases p.iterate_cases s with ⟨hprints, c, quiet, hquiet, hiterate⟩ | ⟨hnot, hquiet⟩
  · rw [hiterate, imp_iff_right hprints, ← print_allows_iff hr hc c, List.forall_mem_append]
    exact and_iff_right fun a ha => (hquiet a ha).allows
  · exact iff_of_true (fun a ha => (hquiet a ha).allows) fun h => absurd h hnot

end Puts

namespace Terminal

/-- A character that the next iteration puts on the screen finds a row for it. -/
def Meets (s : Screen) (t : Terminal) : TerminalEvent → Prop
  | .call _ => True
  | .iteration => ∀ p, t.puts = some p → p.Prints → p.RowFits s

/-- Everything that was done to the framebuffer is allowed. -/
def Inside (s : Screen) (t : Terminal) : Prop := ∀ a ∈ t.accesses, s.Allows a

theorem step_accesses (s : Screen) (t : Terminal) (e : TerminalEvent) :
    (t.step s e).accesses = t.accesses ++
      match e, t.puts with
      | .iteration, some p => (p.iterate s).1
      | _, _ => [] := by
  unfold step
  cases e with
  | call call =>
    simp only
    split
    next => exact (List.append_nil _).symm
    next => exact (List.append_nil _).symm
  | iteration =>
    simp only
    cases hputs : t.puts with
    | none => exact (List.append_nil _).symm
    | some p =>
      simp only
      cases hiterate : p.iterate s with
      | mk accesses outcome => cases outcome <;> rfl

/-- A step keeps to the framebuffer exactly when it meets the condition. -/
theorem step_inside_iff {s : Screen} (hr : 1 ≤ s.rows) (hc : 1 ≤ s.columns) {t : Terminal}
    (h : Inside s t) (e : TerminalEvent) : Inside s (t.step s e) ↔ t.Meets s e := by
  unfold Inside at h
  unfold Inside Meets
  rw [step_accesses, List.forall_mem_append, and_iff_right h]
  cases e with
  | call call => exact iff_of_true (fun a ha => absurd ha List.not_mem_nil) trivial
  | iteration =>
    cases hputs : t.puts with
    | none =>
      exact iff_of_true (fun a ha => absurd ha List.not_mem_nil) fun p hp => by cases hp
    | some p =>
      simp only
      rw [Puts.iterate_allows_iff hr hc]
      constructor
      · intro hrow q hq
        obtain rfl := Option.some.inj hq
        exact hrow
      · exact fun hrow => hrow p rfl

/-- All calls of `puts` keep to the screen exactly when every character finds a row. -/
theorem puts_inside_iff {s : Screen} (hr : 1 ≤ s.rows) (hc : 1 ≤ s.columns)
    (cursorY cursorX : Nat) (events : List TerminalEvent) :
    (∀ done, done <+: events → Inside s (done.foldl (step s) (Terminal.withCursor cursorY cursorX))) ↔
      StepsMeet (step s) (Meets s) (Terminal.withCursor cursorY cursorX) events := by
  have hstart : Inside s (withCursor cursorY cursorX) := fun _ ha => absurd ha List.not_mem_nil
  have hstep : ∀ t e, Inside s t → (Inside s (step s t e) ↔ Meets s t e) :=
    fun _ e h => step_inside_iff hr hc h e
  exact stepsMeet_iff (fun t e h hm => (hstep t e h).mpr hm) (fun _ h => h)
    (fun t e h hm hi => hm ((hstep t e h).mp hi)) hstart

/-- Two lines of two characters. -/
def smallScreen : Screen := ⟨16, 32, 64, 8, 16⟩

def shortCall (str : CString) : PutsCall := ⟨str, -1, Rgb.WHITE, ⟨0#8, 0#8, 0#8⟩⟩

/-- Two lines of two characters, with lines in memory twice as long as on the screen. -/
def paddedScreen : Screen := ⟨16, 32, 128, 8, 16⟩

/-- A letter, a line break, two letters that fill the last line, and one for which it scrolls. -/
def scrollingCall : List TerminalEvent :=
  [.call (shortCall [97#8, 10#8, 98#8, 99#8, 100#8]), .iteration, .iteration, .iteration, .iteration,
    .iteration, .iteration]

theorem puts_inside_scrolling : 1 ≤ paddedScreen.rows ∧ 1 ≤ paddedScreen.columns ∧
    paddedScreen.scroll ∈ (scrollingCall.foldl (step paddedScreen) (Terminal.withCursor 0 0)).accesses ∧
    ∀ done, done <+: scrollingCall →
      Inside paddedScreen (done.foldl (step paddedScreen) (Terminal.withCursor 0 0)) := by
  refine ⟨by decide, by decide, List.mem_of_getElem? (i := 8) rfl,
    (puts_inside_iff (by decide) (by decide) 0 0 _).mpr ⟨trivial, ?_, ?_, ?_, ?_, ?_, ?_, trivial⟩⟩
  all_goals
    intro p hp _
    cases hp
    unfold Puts.RowFits Screen.ScrollFits
    decide

/-- A letter after three line breaks is put below the screen. -/
theorem puts_below_screen :
    ¬∀ s : Screen, 1 ≤ s.rows → s.rows < 256 → 1 ≤ s.columns → s.columns < 256 →
      ∀ events done, done <+: events →
        Inside s (done.foldl (step s) (Terminal.withCursor 0 0)) := by
  intro h
  have hinside := h smallScreen (by decide) (by decide) (by decide) (by decide) _ _
    (List.prefix_refl [.call (shortCall [10#8, 10#8, 10#8, 97#8]), .iteration, .iteration,
      .iteration, .iteration])
  have hputs : TerminalAccess.putChar 3 2 0 97#8 Rgb.WHITE ⟨0#8, 0#8, 0#8⟩ ∈
      ([.call (shortCall [10#8, 10#8, 10#8, 97#8]), .iteration, .iteration, .iteration,
        .iteration].foldl (step smallScreen) (Terminal.withCursor 0 0)).accesses :=
    List.mem_of_getElem? (i := 5) rfl
  have hrow := (hinside _ hputs).1
  exact absurd hrow (by decide)

end Terminal

end UmbraOS
