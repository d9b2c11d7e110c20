import UmbraOS.TerminalRows

namespace UmbraOS

namespace Puts

/-- The string is read up to its terminator, the buffer is not left, and nothing from the index
`length` on is put on the screen. -/
def InString (call : PutsCall) : TerminalAccess → Prop
  | .readStr i => i ≤ call.str.length
  | .writeCode i => i < colorMaxLength
  | .putChar i _ _ _ _ _ => 0 ≤ call.length → (i : Int) < call.length
  | .memcpy _ _ _ => True

/-- Up to the next closing brace there is a text that the buffer holds. -/
structure Coded (str code tail : CString) : Prop where
  split : str = code ++ closeBrace :: tail
  first : closeBrace ∉ code
  fits : code.length ≤ colorMaxLength

/-- The string shows nothing: it consists of line breaks and colours. -/
inductive Silent : CString → Prop
  | nil : Silent []
  | line {str : CString} (h : Silent str) : Silent (newline :: str)
  | color {str code tail : CString} (h : Coded str code tail) (hc : (colorOf code).isSome)
      (ht : Silent tail) : Silent (openBrace :: str)

/-- From an index on, every opening brace before the index `length` is closed soon enough, and a
colour that goes on to that index is followed by nothing to show. -/
structure WellBraced (call : PutsCall) (i : Nat) : Prop where
  closed : ∀ j, i ≤ j → (call.length < 0 ∨ (j : Int) < call.length) →
    call.str[j]? = some openBrace → ∃ code tail, Coded (call.str.drop (j + 1)) code tail
  quiet : ∀ j code tail, i ≤ j → (j : Int) < call.length → call.str[j]? = some openBrace →
    Coded (call.str.drop (j + 1)) code tail → (colorOf code).isSome →
    call.length ≤ j + 1 + code.length → Silent tail

variable {s : Screen} {p : Puts} {call : PutsCall}

theorem Coded.unique {str code code' tail tail' : CString} (h : Coded str code tail)
    (h' : Coded str code' tail') : code' = code ∧ tail' = tail := by
  have hsplit := h'.split.symm.trans h.split
  have hfirst := h.first
  have hfirst' := h'.first
  clear h h'
  induction code generalizing code' with
  | nil =>
    cases code' with
    | nil => exact ⟨rfl, (List.cons.inj hsplit).2⟩
    | cons c code' =>
      obtain ⟨rfl, -⟩ := List.cons.inj hsplit
      exact absurd List.mem_cons_self hfirst'
  | cons c code ih =>
    cases code' with
    | nil =>
      obtain ⟨rfl, -⟩ := List.cons.inj hsplit
      exact absurd List.mem_cons_self hfirst
    | cons c' code' =>
      obtain ⟨rfl, hrest⟩ := List.cons.inj hsplit
      obtain ⟨rfl, rfl⟩ := ih hrest (fun h => hfirst (List.mem_cons_of_mem _ h))
        fun h => hfirst' (List.mem_cons_of_mem _ h)
      exact ⟨rfl, rfl⟩

/-- What stands between an opening and a closing brace is itself closed at every place. -/
theorem Coded.inside {str code tail : CString} (h : Coded str code tail) {k : Nat}
    (hk : k ≤ code.length) : Coded (str.drop k) (code.drop k) tail where
  split := by rw [h.split, List.drop_append_of_le_length hk]
  first hm := h.first (List.mem_of_mem_drop hm)
  fits := Nat.le_trans (by rw [List.length_drop]; omega) h.fits

theorem Coded.drop {str code tail : CString} (h : Coded str code tail) :
    str.drop (code.length + 1) = tail := by
  rw [h.split, ← List.drop_drop, List.drop_left, List.drop_one, List.tail_cons]

theorem openBrace_ne_newline : openBrace ≠ newline := by decide

/-- What follows a code that is closed. -/
theorem Coded.after {str code tail : CString} {i : Nat} (h : Coded (str.drop (i + 1)) code tail) :
    str.drop (i + code.length + 2) = tail ∧ i + code.length + 2 ≤ str.length := by
  have hindex : i + code.length + 2 = i + 1 + (code.length + 1) := by omega
  have hsplit := congrArg List.length h.split
  rw [List.length_drop, List.length_append, List.length_cons] at hsplit
  rw [hindex]
  refine ⟨?_, by omega⟩
  rw [← List.drop_drop]
  exact h.drop

/-- The inner loop finds a code that is closed, and keeps to the buffer and to the string. -/
theorem scan_coded {str code tail : CString} (i : Nat) (start : CString)
    (hsplit : str = code ++ closeBrace :: tail) (hfirst : closeBrace ∉ code)
    (hfits : start.length + code.length ≤ colorMaxLength)
    (hend : i + code.length ≤ call.str.length) :
    (scan str i start).2 = some (start ++ code) ∧
      ∀ a ∈ (scan str i start).1, InString call a := by
  induction code generalizing str i start with
  | nil =>
    rw [hsplit, List.nil_append, scan, if_pos rfl, List.append_nil]
    exact ⟨rfl, by simpa [InString] using hend⟩
  | cons c code ih =>
    have hne : c ≠ closeBrace := fun he => hfirst (he ▸ List.mem_cons_self)
    rw [List.length_cons] at hfits hend
    have hroom : start.length < colorMaxLength := by omega
    have hlength : (start ++ [c]).length = start.length + 1 := by
      rw [List.length_append, List.length_singleton]
    obtain ⟨hcode, haccesses⟩ := ih (i + 1) (start ++ [c]) rfl
      (fun h => hfirst (List.mem_cons_of_mem _ h)) (by omega) (by omega)
    rw [hsplit, List.cons_append, scan, if_neg hne, if_pos hroom]
    refine ⟨?_, ?_⟩
    · simp only [hcode, List.append_assoc, List.singleton_append]
    · intro a ha
      rcases List.mem_cons.mp ha with rfl | ha
      · show i ≤ call.str.length
        omega
      · rcases List.mem_cons.mp ha with rfl | ha
        · exact hroom
        · exact haccesses a ha

/-- Otherwise the inner loop leaves the buffer or the string. -/
theorem scan_open {str : CString} (i : Nat) (start : CString) (hstart : start.length ≤ colorMaxLength)
    (hopen : ∀ code tail, str = code ++ closeBrace :: tail → closeBrace ∉ code →
      colorMaxLength < start.length + code.length) (hend : i + str.length = call.str.length) :
    (scan str i start).2 = none ∧ ∃ a ∈ (scan str i start).1, ¬InString call a := by
  induction str generalizing i start with
  | nil =>
    rw [List.length_nil] at hend
    rw [scan]
    split
    next =>
      refine ⟨rfl, .readStr (i + 1), by simp, ?_⟩
      show ¬i + 1 ≤ call.str.length
      omega
    next hfull => exact ⟨rfl, .writeCode start.length, by simp, hfull⟩
  | cons c str ih =>
    rw [List.length_cons] at hend
    have hne : c ≠ closeBrace := by
      rintro rfl
      have hlt := hopen [] str rfl List.not_mem_nil
      rw [List.length_nil] at hlt
      omega
    rw [scan, if_neg hne]
    split
    next hroom =>
      have hlength : (start ++ [c]).length = start.length + 1 := by
        rw [List.length_append, List.length_singleton]
      obtain ⟨hnone, a, ha, hbad⟩ := ih (i + 1) (start ++ [c]) (by omega) (by
        intro code tail hsplit hfirst
        have hlt := hopen (c :: code) tail (by rw [hsplit, List.cons_append]) (by
          intro h
          rcases List.mem_cons.mp h with he | h
          · exact hne he.symm
          · exact hfirst h)
        rw [List.length_cons] at hlt
        omega) (by omega)
      exact ⟨hnone, a, List.mem_cons_of_mem _ (List.mem_cons_of_mem _ ha), hbad⟩
    next hfull => exact ⟨rfl, .writeCode start.length, by simp, hfull⟩

/-- What a call does in its next iterations. -/
def trace (s : Screen) : Nat → Puts → List TerminalAccess
  | 0, _ => []
  | n + 1, p => (p.iterate s).1 ++
    match (p.iterate s).2 with
    | .continues q => trace s n q
    | _ => []

/-- Whatever is done from here on keeps to the string and to the buffer. -/
def Safe (s : Screen) (call : PutsCall) (p : Puts) : Prop :=
  ∀ n, ∀ a ∈ p.trace s n, InString call a

theorem safe_iff : Safe s call p ↔ (∀ a ∈ (p.iterate s).1, InString call a) ∧
    ∀ q, (p.iterate s).2 = .continues q → Safe s call q := by
  constructor
  · intro h
    constructor
    · intro a ha
      exact h 1 a (List.mem_append_left _ ha)
    · intro q hq n a ha
      apply h (n + 1) a
      rw [trace, hq]
      exact List.mem_append_right _ ha
  · rintro ⟨hnow, hnext⟩ n a ha
    cases n with
    | zero => exact absurd ha List.not_mem_nil
    | succ n =>
      rw [trace] at ha
      rcases List.mem_append.mp ha with ha | ha
      · exact hnow a ha
      · split at ha
        next q hq => exact hnext q hq n a ha
        next => exact absurd ha List.not_mem_nil

theorem print_inString (s : Screen) (p : Puts) (c : Byte) :
    (∀ a ∈ (p.print s c).1, InString call a) ↔ (0 ≤ call.length → (p.i : Int) < call.length) := by
  unfold print
  rw [List.forall_mem_append, List.forall_mem_singleton]
  refine and_iff_right fun a ha => ?_
  split at ha
  next =>
    obtain rfl := List.mem_singleton.mp ha
    trivial
  next => exact absurd ha List.not_mem_nil

/-! The iterations of a call by what they find. -/

theorem safe_end (hc : p.call = call) (hi : p.i = call.str.length) : Safe s call p := by
  have hstr : p.call.str.drop p.i = [] := by rw [hc, hi, List.drop_length]
  have hiterate : p.iterate s = ([.readStr p.i], .returns) := by rw [iterate, hstr]
  rw [safe_iff, hiterate]
  refine ⟨fun a ha => ?_, fun q hq => by cases hq⟩
  obtain rfl := List.mem_singleton.mp ha
  exact Nat.le_of_eq hi

section Next

variable {c : Byte} {rest : CString} (hc : p.call = call) (hstr : call.str.drop p.i = c :: rest)

include hstr

theorem index_lt : p.i < call.str.length := by
  by_contra hge
  rw [List.drop_eq_nil_of_le (Nat.le_of_not_lt hge)] at hstr
  cases hstr

theorem read_inString : InString call (.readStr p.i) := Nat.le_of_lt (index_lt hstr)

theorem rest_eq : rest = call.str.drop (p.i + 1) := by
  rw [← List.drop_drop, hstr, List.drop_one, List.tail_cons]

theorem char_eq : call.str[p.i]? = some c := by
  have hhead := congrArg List.head? hstr
  rw [List.head?_drop, List.head?_cons] at hhead
  exact hhead

theorem scan_inString {code tail : CString} (hcoded : Coded rest code tail) :
    (scan rest (p.i + 1) []).2 = some code ∧
      ∀ a ∈ (scan rest (p.i + 1) []).1, InString call a := by
  have hlt := index_lt hstr
  have hlength : rest.length = code.length + 1 + tail.length := by
    rw [hcoded.split, List.length_append, List.length_cons]
    omega
  have hrest : rest.length = call.str.length - (p.i + 1) := by
    rw [rest_eq hstr, List.length_drop]
  exact scan_coded (p.i + 1) [] hcoded.split hcoded.first (by simpa using hcoded.fits) (by omega)

include hc

theorem safe_stop (hlength : (p.i : Int) = call.length) : Safe s call p := by
  have hiterate : p.iterate s = ([.readStr p.i], .returns) := by
    rw [iterate, hc, hstr]
    exact if_pos hlength
  rw [safe_iff, hiterate]
  refine ⟨fun a ha => ?_, fun q hq => by cases hq⟩
  obtain rfl := List.mem_singleton.mp ha
  exact read_inString hstr

theorem safe_newline (hlength : (p.i : Int) ≠ call.length) (hchar : c = newline) :
    Safe s call p ↔ Safe s call { p with i := p.i + 1, y := p.y + 1, x := 0 } := by
  have hiterate : p.iterate s =
      ([.readStr p.i], .continues { p with i := p.i + 1, y := p.y + 1, x := 0 }) := by
    rw [iterate, hc, hstr]
    simp only [if_neg hlength, if_pos hchar]
  rw [safe_iff, hiterate]
  simp only [List.forall_mem_singleton, PutsOutcome.continues.injEq, forall_eq']
  exact and_iff_right (read_inString hstr)

theorem safe_text (hlength : (p.i : Int) ≠ call.length) (hnewline : c ≠ newline)
    (hbrace : c ≠ openBrace) : Safe s call p ↔
      (0 ≤ call.length → (p.i : Int) < call.length) ∧ Safe s call (p.print s c).2 := by
  have hiterate : p.iterate s =
      (.readStr p.i :: (p.print s c).1, .continues (p.print s c).2) := by
    rw [iterate, hc, hstr]
    simp only [if_neg hlength, if_neg hnewline, if_neg hbrace]
  rw [safe_iff, hiterate, ← print_inString s p c]
  simp only [List.forall_mem_cons, PutsOutcome.continues.injEq, forall_eq']
  rw [and_iff_right (read_inString hstr)]

theorem safe_color (hlength : (p.i : Int) ≠ call.length) (hchar : c = openBrace)
    {code tail : CString} (hcoded : Coded rest code tail) {color : Rgb}
    (hcolor : colorOf code = some color) : Safe s call p ↔
      Safe s call { p with i := p.i + code.length + 2, lastColor := color } := by
  obtain ⟨hcode, haccesses⟩ := scan_inString hstr hcoded
  have hnewline : c ≠ newline := hchar ▸ openBrace_ne_newline
  cases hscan : scan rest (p.i + 1) [] with
  | mk accesses result =>
    rw [hscan] at hcode haccesses
    obtain rfl := hcode
    have hiterate : p.iterate s = (.readStr p.i :: accesses,
        .continues { p with i := p.i + code.length + 2, lastColor := color }) := by
      rw [iterate, hc, hstr]
      simp only [if_neg hlength, if_neg hnewline, if_pos hchar, hscan, hcolor]
    rw [safe_iff, hiterate]
    simp only [List.forall_mem_cons, PutsOutcome.continues.injEq, forall_eq']
    exact and_iff_right ⟨read_inString hstr, haccesses⟩

theorem safe_plain (hlength : (p.i : Int) ≠ call.length) (hchar : c = openBrace)
    {code tail : CString} (hcoded : Coded rest code tail) (hcolor : colorOf code = none) :
    Safe s call p ↔
      (0 ≤ call.length → (p.i : Int) < call.length) ∧ Safe s call (p.print s c).2 := by
  obtain ⟨hcode, haccesses⟩ := scan_inString hstr hcoded
  have hnewline : c ≠ newline := hchar ▸ openBrace_ne_newline
  cases hscan : scan rest (p.i + 1) [] with
  | mk accesses result =>
    rw [hscan] at hcode haccesses
    obtain rfl := hcode
    have hiterate : p.iterate s = (.readStr p.i :: accesses ++ (p.print s c).1,
        .continues (p.print s c).2) := by
      rw [iterate, hc, hstr]
      simp only [if_neg hlength, if_neg hnewline, if_pos hchar, hscan, hcolor]
    rw [safe_iff, hiterate, ← print_inString s p c]
    simp only [List.forall_mem_append, List.forall_mem_cons, PutsOutcome.continues.injEq,
      forall_eq']
    have hscanned : InString call (.readStr p.i) ∧ ∀ a ∈ accesses, InString call a :=
      ⟨read_inString hstr, haccesses⟩
    rw [and_iff_right hscanned]

theorem not_safe_open (hlength : (p.i : Int) ≠ call.length) (hchar : c = openBrace)
    (hopen : ¬∃ code tail, Coded rest code tail) : ¬Safe s call p := by
  have hlt := index_lt hstr
  have hrest : rest.length = call.str.length - (p.i + 1) := by
    rw [rest_eq hstr, List.length_drop]
  have hlong : ∀ code tail, rest = code ++ closeBrace :: tail → closeBrace ∉ code →
      colorMaxLength < ([] : CString).length + code.length := by
    intro code tail hsplit hfirst
    by_contra hfits
    apply hopen
    exact ⟨code, tail, hsplit, hfirst, by simpa using hfits⟩
  have hend : p.i + 1 + rest.length = call.str.length := by omega
  obtain ⟨hnone, a, ha, hbad⟩ := scan_open (p.i + 1) [] (Nat.zero_le _) hlong hend
  have hnewline : c ≠ newline := hchar ▸ openBrace_ne_newline
  cases hscan : scan rest (p.i + 1) [] with
  | mk accesses result =>
    rw [hscan] at hnone ha
    obtain rfl := hnone
    have hiterate : p.iterate s = (.readStr p.i :: accesses, .undefined) := by
      rw [iterate, hc, hstr]
      simp only [if_neg hlength, if_neg hnewline, if_pos hchar, hscan]
    rw [safe_iff, hiterate]
    exact fun h => hbad (h.1 a (List.mem_cons_of_mem _ ha))

end Next

theorem Silent.head {c : Byte} {rest : CString} (h : Silent (c :: rest)) :
    c = newline ∨ c = openBrace := by
  cases h with
  | line h => exact Or.inl rfl
  | color h hc ht => exact Or.inr rfl

theorem silent_line {rest : CString} : Silent (newline :: rest) ↔ Silent rest := by
  constructor
  · intro h
    cases h with
    | line h => exact h
  · exact Silent.line

theorem silent_coded {rest code tail : CString} (hcoded : Coded rest code tail) :
    Silent (openBrace :: rest) ↔ (colorOf code).isSome ∧ Silent tail := by
  constructor
  · intro h
    cases h with
    | color h hc ht =>
      obtain ⟨rfl, rfl⟩ := hcoded.unique h
      exact ⟨hc, ht⟩
  · intro h
    exact Silent.color hcoded h.1 h.2

theorem Silent.coded {rest : CString} (h : Silent (openBrace :: rest)) :
    ∃ code tail, Coded rest code tail := by
  cases h with
  | color h hc ht => exact ⟨_, _, h⟩

/-- Once the index `length` was jumped over, the call is safe when nothing more is shown. -/
theorem safe_jumped (hc : p.call = call) (hi : p.i ≤ call.str.length) (h0 : 0 ≤ call.length)
    (hjump : call.length < (p.i : Int)) : Safe s call p ↔ Silent (call.str.drop p.i) := by
  induction hn : call.str.length - p.i using Nat.strong_induction_on generalizing p with
  | _ n ih =>
    cases hstr : call.str.drop p.i with
    | nil =>
      have hend : p.i = call.str.length := Nat.le_antisymm hi (List.drop_eq_nil_iff.mp hstr)
      exact iff_of_true (safe_end hc hend) Silent.nil
    | cons c rest =>
      have hlt := index_lt hstr
      have hrest := rest_eq hstr
      have hlength : (p.i : Int) ≠ call.length := by omega
      have hshown : ¬(0 ≤ call.length → (p.i : Int) < call.length) := fun h => by
        have hless := h h0
        omega
      by_cases hnewline : c = newline
      · have hnext := ih (call.str.length - (p.i + 1)) (by omega)
          (p := { p with i := p.i + 1, y := p.y + 1, x := 0 }) hc hlt (by simp only; omega) rfl
        rw [safe_newline hc hstr hlength hnewline, hnext, ← hrest, hnewline, silent_line]
      by_cases hbrace : c = openBrace
      · by_cases hclosed : ∃ code tail, Coded rest code tail
        · obtain ⟨code, tail, hcoded⟩ := hclosed
          cases hcolor : colorOf code with
          | some color =>
            obtain ⟨htail, hle⟩ := (hrest ▸ hcoded).after
            have hnext := ih (call.str.length - (p.i + code.length + 2)) (by omega)
              (p := { p with i := p.i + code.length + 2, lastColor := color }) hc hle
              (by simp only; omega) rfl
            rw [safe_color hc hstr hlength hbrace hcoded hcolor, hnext, htail, hbrace,
              silent_coded hcoded, hcolor]
            exact (and_iff_right rfl).symm
          | none =>
            rw [safe_plain hc hstr hlength hbrace hcoded hcolor, hbrace, silent_coded hcoded, hcolor]
            exact iff_of_false (fun h => hshown h.1) fun h => by cases h.1
        · refine iff_of_false (not_safe_open hc hstr hlength hbrace hclosed) fun h => hclosed ?_
          rw [hbrace] at h
          exact h.coded
      · rw [safe_text hc hstr hlength hnewline hbrace]
        refine iff_of_false (fun h => hshown h.1) fun h => ?_
        rcases h.head with hline | hopen
        · exact hnewline hline
        · exact hbrace hopen

theorem WellBraced.mono {i j : Nat} (h : WellBraced call i) (hij : i ≤ j) : WellBraced call j where
  closed k hk := h.closed k (Nat.le_trans hij hk)
  quiet k code tail hk := h.quiet k code tail (Nat.le_trans hij hk)

/-- A character that is no brace changes nothing. -/
theorem wellBraced_succ {i : Nat} (hne : call.str[i]? ≠ some openBrace) :
    WellBraced call i ↔ WellBraced call (i + 1) := by
  have hlater : ∀ j, i ≤ j → call.str[j]? = some openBrace → i + 1 ≤ j := by
    intro j hj hbrace
    rcases Nat.eq_or_lt_of_le hj with rfl | hlt
    · exact absurd hbrace hne
    · exact hlt
  constructor
  · exact fun h => h.mono (Nat.le_succ i)
  · intro h
    constructor
    · exact fun j hj hlength hbrace => h.closed j (hlater j hj hbrace) hlength hbrace
    · exact fun j code tail hj hlength hbrace =>
        h.quiet j code tail (hlater j hj hbrace) hlength hbrace

theorem wellBraced_end {i : Nat} (hi : call.str.length ≤ i) : WellBraced call i := by
  have hnone : ∀ j, i ≤ j → call.str[j]? ≠ some openBrace := by
    intro j hj hbrace
    have hlt := (List.getElem?_eq_some_iff.mp hbrace).1
    omega
  constructor
  · exact fun j hj _ hbrace => absurd hbrace (hnone j hj)
  · exact fun j _ _ hj _ hbrace => absurd hbrace (hnone j hj)

theorem wellBraced_stop {i : Nat} (hi : (i : Int) = call.length) : WellBraced call i := by
  constructor
  · intro j hj hlength
    omega
  · intro j _ _ hj hlength
    omega

/-- Every brace up to the end of a text that is closed is closed with it. -/
theorem Coded.later {i j : Nat} {code tail : CString}
    (h : Coded (call.str.drop (i + 1)) code tail) (hij : i ≤ j) (hj : j ≤ i + 1 + code.length)
    (hbrace : call.str[j]? = some openBrace) :
    ∃ code', Coded (call.str.drop (j + 1)) code' tail ∧ j + code'.length = i + code.length := by
  have hle : j ≤ i + code.length := by
    by_contra hlt
    have hlast : j = i + 1 + code.length := by omega
    have hclose : (call.str.drop (i + 1))[code.length]? = some closeBrace := by
      rw [h.split, List.getElem?_append_right (Nat.le_refl _), Nat.sub_self, List.getElem?_cons_zero]
    rw [List.getElem?_drop, ← hlast, hbrace] at hclose
    exact absurd (Option.some.inj hclose) (by decide)
  refine ⟨code.drop (j - i), ?_, ?_⟩
  · have hinside := h.inside (k := j - i) (by omega)
    rw [List.drop_drop] at hinside
    have hindex : i + 1 + (j - i) = j + 1 := by omega
    rw [hindex] at hinside
    exact hinside
  · rw [List.length_drop]
    omega

/-- A text that is closed at or behind the index `length`. -/
theorem wellBraced_jump {i : Nat} {code tail : CString} (hi : (i : Int) < call.length)
    (hbrace : call.str[i]? = some openBrace) (h : Coded (call.str.drop (i + 1)) code tail)
    (hcolor : (colorOf code).isSome) (hjump : call.length ≤ i + 1 + code.length) :
    WellBraced call i ↔ Silent tail := by
  constructor
  · exact fun hw => hw.quiet i code tail (Nat.le_refl i) hi hbrace h hcolor hjump
  · intro hsilent
    constructor
    · intro j hj hlength hopen
      obtain ⟨code', hcoded, -⟩ := h.later hj (by omega) hopen
      exact ⟨code', tail, hcoded⟩
    · intro j code' tail' hj hlength hopen hcoded' _ _
      obtain ⟨code'', hcoded, -⟩ := h.later hj (by omega) hopen
      obtain ⟨-, rfl⟩ := hcoded.unique hcoded'
      exact hsilent

/-- A text that is closed before the index `length`. -/
theorem wellBraced_skip {i : Nat} {code tail : CString}
    (hi : call.length < 0 ∨ ((i + code.length + 2 : Nat) : Int) ≤ call.length)
    (h : Coded (call.str.drop (i + 1)) code tail) :
    WellBraced call i ↔ WellBraced call (i + code.length + 2) := by
  constructor
  · exact fun hw => hw.mono (by omega)
  · intro hw
    constructor
    · intro j hj hlength hopen
      rcases Nat.lt_or_ge j (i + code.length + 2) with hlt | hge
      · obtain ⟨code', hcoded, -⟩ := h.later hj (by omega) hopen
        exact ⟨code', tail, hcoded⟩
      · exact hw.closed j hge hlength hopen
    · intro j code' tail' hj hlength hopen hcoded' hcolor hjump
      rcases Nat.lt_or_ge j (i + code.length + 2) with hlt | hge
      · obtain ⟨code'', hcoded, hsame⟩ := h.later hj (by omega) hopen
        obtain ⟨rfl, -⟩ := hcoded.unique hcoded'
        omega
      · exact hw.quiet j code' tail' hge hlength hopen hcoded' hcolor hjump

/-- A text that is closed but is no colour. -/
theorem wellBraced_plain {i : Nat} {code tail : CString}
    (h : Coded (call.str.drop (i + 1)) code tail) (hcolor : colorOf code = none) :
    WellBraced call i ↔ WellBraced call (i + 1) := by
  constructor
  · exact fun hw => hw.mono (Nat.le_succ i)
  · intro hw
    constructor
    · intro j hj hlength hopen
      rcases Nat.eq_or_lt_of_le hj with rfl | hlt
      · exact ⟨code, tail, h⟩
      · exact hw.closed j hlt hlength hopen
    · intro j code' tail' hj hlength hopen hcoded' hsome hjump
      rcases Nat.eq_or_lt_of_le hj with rfl | hlt
      · obtain ⟨rfl, -⟩ := h.unique hcoded'
        rw [hcolor] at hsome
        cases hsome
      · exact hw.quiet j code' tail' hlt hlength hopen hcoded' hsome hjump

/-- Before the index `length` a call is safe exactly when the rest of the string is well braced. -/
theorem safe_before (hc : p.call = call) (hi : p.i ≤ call.str.length)
    (hbefore : call.length < 0 ∨ (p.i : Int) ≤ call.length) :
    Safe s call p ↔ WellBraced call p.i := by
  induction hn : call.str.length - p.i using Nat.strong_induction_on generalizing p with
  | _ n ih =>
    cases hstr : call.str.drop p.i with
    | nil =>
      have hend : p.i = call.str.length := Nat.le_antisymm hi (List.drop_eq_nil_iff.mp hstr)
      exact iff_of_true (safe_end hc hend) (wellBraced_end (Nat.le_of_eq hend.symm))
    | cons c rest =>
      have hlt := index_lt hstr
      have hrest := rest_eq hstr
      have hchar := char_eq hstr
      by_cases hlength : (p.i : Int) = call.length
      · exact iff_of_true (safe_stop hc hstr hlength) (wellBraced_stop hlength)
      have hshown : 0 ≤ call.length → (p.i : Int) < call.length := by omega
      have hnext : ∀ q : Puts, q.call = call → q.i = p.i + 1 →
          (Safe s call q ↔ WellBraced call (p.i + 1)) := by
        intro q hq hqi
        rw [← hqi]
        exact ih (call.str.length - q.i) (by omega) hq (by omega) (by omega) rfl
      by_cases hnewline : c = newline
      · have hne : call.str[p.i]? ≠ some openBrace := by
          rw [hchar, hnewline]
          decide
        rw [safe_newline hc hstr hlength hnewline, wellBraced_succ hne]
        exact hnext _ hc rfl
      by_cases hbrace : c = openBrace
      · rw [hbrace] at hchar
        by_cases hclosed : ∃ code tail, Coded rest code tail
        · obtain ⟨code, tail, hcoded⟩ := hclosed
          have hcoded' := hcoded
          rw [hrest] at hcoded'
          cases hcolor : colorOf code with
          | some color =>
            obtain ⟨htail, hle⟩ := hcoded'.after
            rw [safe_color hc hstr hlength hbrace hcoded hcolor]
            by_cases hjump : 0 ≤ call.length ∧
                call.length < ((p.i + code.length + 2 : Nat) : Int)
            · rw [wellBraced_jump (hshown hjump.1) hchar hcoded' (by rw [hcolor]; rfl) (by omega),
                ← htail]
              exact safe_jumped hc hle hjump.1 hjump.2
            · rw [wellBraced_skip (by omega) hcoded']
              exact ih (call.str.length - (p.i + code.length + 2)) (by omega)
                (p := { p with i := p.i + code.length + 2, lastColor := color }) hc hle
                (by simp only; omega) rfl
          | none =>
            rw [safe_plain hc hstr hlength hbrace hcoded hcolor, and_iff_right hshown,
              wellBraced_plain hcoded' hcolor]
            exact hnext _ hc rfl
        · refine iff_of_false (not_safe_open hc hstr hlength hbrace hclosed) fun hw => hclosed ?_
          rw [hrest]
          exact hw.closed p.i (Nat.le_refl _) (by omega) hchar
      · have hne : call.str[p.i]? ≠ some openBrace := by
          rw [hchar]
          exact fun h => hbrace (Option.some.inj h)
        rw [safe_text hc hstr hlength hnewline hbrace, and_iff_right hshown, wellBraced_succ hne]
        exact hnext _ hc rfl

end Puts

namespace Terminal

theorem iterations_accesses (s : Screen) (t : Terminal) (n : Nat) :
    ((List.replicate n .iteration).foldl (step s) t).accesses = t.accesses ++
      match t.puts with
      | some p => p.trace s n
      | none => [] := by
  induction n generalizing t with
  | zero => cases t.puts <;> exact (List.append_nil _).symm
  | succ n ih =>
    rw [List.replicate_succ, List.foldl_cons, ih]
    cases hputs : t.puts with
    | none =>
      have hstep : t.step s .iteration = t := by simp only [step, hputs]
      rw [hstep, hputs]
    | some p =>
      have htrace : p.trace s (n + 1) = (p.iterate s).1 ++
          match (p.iterate s).2 with
          | .continues q => q.trace s n
          | _ => [] := rfl
      rw [step_accesses, hputs, List.append_assoc]
      simp only [htrace]
      congr 2
      simp only [step, hputs]
      cases hiterate : p.iterate s with
      | mk accesses outcome => cases outcome <;> rfl

/-- A call of `puts`, however far it comes, keeps to its string and to the buffer, and shows
nothing from the index `length` on, exactly when the string is well braced. -/
theorem puts_inString_iff (s : Screen) (call : PutsCall) (cursorY cursorX : Nat) :
    (∀ n, ∀ a ∈ ((List.replicate n .iteration).foldl (step s)
        ((Terminal.withCursor cursorY cursorX).step s (.call call))).accesses,
      Puts.InString call a) ↔ Puts.WellBraced call 0 := by
  have hbefore : call.length < 0 ∨ ((0 : Nat) : Int) ≤ call.length := by omega
  rw [← Puts.safe_before (s := s) (p := ⟨call, 0, cursorY, cursorX, call.fg⟩) rfl (Nat.zero_le _)
    hbefore]
  refine forall_congr' fun n => ?_
  rw [iterations_accesses]
  exact Iff.rfl

/-- A brace that is not closed makes `puts` read past the terminator. -/
theorem puts_past_terminator :
    ¬∀ (s : Screen) (call : PutsCall) (n : Nat),
      ∀ a ∈ ((List.replicate n .iteration).foldl (step s)
        ((Terminal.withCursor 0 0).step s (.call call))).accesses, Puts.InString call a := by
  intro h
  have hread : TerminalAccess.readStr 2 ∈ ((List.replicate 1 .iteration).foldl (step smallScreen)
      ((Terminal.withCursor 0 0).step smallScreen (.call (shortCall [123#8])))).accesses :=
    List.mem_of_getElem? (i := 3) rfl
  have hle : 2 ≤ 1 := h smallScreen (shortCall [123#8]) 1 _ hread
  omega

end Terminal

end UmbraOS
