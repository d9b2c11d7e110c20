import UmbraOS.KernelKeys

namespace UmbraOS

namespace Keyboard

/-- The keyboard after the bytes of a stream. -/
def after (keyboard : Keyboard) (stream : List Byte) : Keyboard :=
  stream.foldl (fun keyboard scancode => (keyboard.handler scancode).2) keyboard

theorem after_snoc (keyboard : Keyboard) (stream : List Byte) (scancode : Byte) :
    keyboard.after (stream ++ [scancode]) = ((keyboard.after stream).handler scancode).2 := by
  rw [after, List.foldl_append]
  rfl

theorem events_snoc (keyboard : Keyboard) (stream : List Byte) (scancode : Byte) :
    events keyboard (stream ++ [scancode]) =
      events keyboard stream ++ ((keyboard.after stream).handler scancode).1.toList := by
  induction stream generalizing keyboard with
  | nil => exact List.append_nil _
  | cons first stream ih =>
    have hcons : ∀ rest, events keyboard (first :: rest) =
        (keyboard.handler first).1.toList ++ events (keyboard.handler first).2 rest := fun _ => rfl
    rw [List.cons_append, hcons, hcons, ih, List.append_assoc]
    rfl

end Keyboard

namespace TtyRead

/-- A read goes on as long as it has stored no newline and its buffer has room. -/
structure Going (r : TtyRead) : Prop where
  fits : r.text.length ≤ r.length
  line : KernelKeys.newline ∉ r.text

/-- A read returns with a full buffer or with the end of a line. -/
structure Returned (r : TtyRead) : Prop where
  fits : r.text.length ≤ r.length
  line : KernelKeys.newline ∉ r.text.dropLast
  ends : r.text.length = r.length ∨ r.text.getLast? = some KernelKeys.newline

theorem Going.returned {r : TtyRead} (h : r.Going) (hfull : r.text.length = r.length) : r.Returned :=
  ⟨h.fits, fun hmem => h.line (List.dropLast_subset _ hmem), Or.inl hfull⟩

theorem Going.newline {r : TtyRead} (h : r.Going) (hroom : r.text.length ≠ r.length) {b : Byte}
    (hb : b = KernelKeys.newline) : Returned { r with text := r.text ++ [b] } := by
  have hfits := h.fits
  refine ⟨?_, ?_, Or.inr ?_⟩
  · simp only [List.length_append, List.length_singleton]
    omega
  · simp only [List.dropLast_concat]
    exact h.line
  · simp only [List.getLast?_concat, hb]

theorem Going.append {r : TtyRead} (h : r.Going) (hroom : r.text.length ≠ r.length) {b : Byte}
    (hb : b ≠ KernelKeys.newline) : Going { r with text := r.text ++ [b] } := by
  have hfits := h.fits
  refine ⟨?_, ?_⟩
  · simp only [List.length_append, List.length_singleton]
    omega
  · intro hmem
    rcases List.mem_append.mp hmem with hmem | hmem
    · exact h.line hmem
    · exact hb (List.mem_singleton.mp hmem).symm

end TtyRead

namespace Listener

/-- A task that has been sent the events `heard` has taken some of them in order, and its reads have
stored and printed the characters of the keys pressed. Inside a read it sleeps only while no event is
left for it. -/
structure Listens (ring : Ringbuffer KeyboardEvent 5) (heard : List KeyboardEvent) (printed : List Byte)
    (asleep : Prop) (l : Listener) : Prop where
  order : ring.InOrder heard (l.taken.map Prod.fst)
  stored : l.text = l.typed
  printed : printed = l.text
  awake : l.reading ≠ none → asleep → ring.isEmpty = true
  going : ∀ r, l.reading = some r → r.Going
  returned : ∀ r ∈ l.texts, r.Returned

variable {ring rest : Ringbuffer KeyboardEvent 5} {heard : List KeyboardEvent} {printed : List Byte}
  {asleep asleep' : Prop} {l : Listener} {e : KeyboardEvent} {r : TtyRead}

theorem new_listens (ring : Ringbuffer KeyboardEvent 5) (since : Nat) :
    Listens { ring with head := 0, tail := 0 } [] [] asleep (new since) where
  order := (Ringbuffer.InOrder.start (show 1 < 5 by decide) ring.data).1
  stored := rfl
  printed := rfl
  awake h := absurd rfl h
  going r h := by cases h
  returned r h := by cases h

theorem Listens.sleeps (h : Listens ring heard printed asleep l)
    (ha : l.reading ≠ none → asleep' → asleep ∨ ring.isEmpty = true) :
    Listens ring heard printed asleep' l :=
  ⟨h.order, h.stored, h.printed, fun hr hs => (ha hr hs).elim (h.awake hr) id, h.going, h.returned⟩

/-- `wake_io` writes an event and leaves the task awake. -/
theorem Listens.hear (h : Listens ring heard printed asleep l) (e : KeyboardEvent) (ha : ¬asleep') :
    Listens (ring.write e) (heard ++ [e]) printed asleep' l :=
  ⟨h.order.write (by decide) e, h.stored, h.printed, fun _ hs => absurd hs ha, h.going, h.returned⟩

theorem typed_snoc (p : KeyboardEvent × Bool) : typed { l with taken := l.taken ++ [p] } =
    l.typed ++ if p.2 && p.1.pressed then [p.1.ascii] else [] := by
  unfold typed
  rw [List.filter_append, List.map_append]
  cases hp : p.2 && p.1.pressed with
  | true => simp [hp]
  | false => simp [hp]

theorem Listens.getEvent (h : Listens ring heard printed asleep l) (hread : ring.read = (some e, rest))
    (hout : l.reading = none) :
    Listens rest heard printed asleep { l with taken := l.taken ++ [(e, false)] } where
  order := by
    rw [List.map_append]
    exact (h.order.read hread).1
  stored := by
    rw [typed_snoc]
    exact h.stored.trans (List.append_nil _).symm
  printed := h.printed
  awake hr := absurd hout hr
  going := h.going
  returned := h.returned

theorem text_start (hout : l.reading = none) (length : Nat) :
    text { l with reading := some ⟨length, []⟩ } = l.text := by
  unfold text
  rw [hout]
  rfl

theorem Listens.start (h : Listens ring heard printed asleep l) (hout : l.reading = none) (ha : ¬asleep)
    (length : Nat) : Listens ring heard printed asleep { l with reading := some ⟨length, []⟩ } where
  order := h.order
  stored := (text_start hout length).trans h.stored
  printed := h.printed.trans (text_start hout length).symm
  awake _ hs := absurd hs ha
  going r hr := by
    obtain rfl := Option.some.inj hr
    exact ⟨Nat.zero_le _, List.not_mem_nil⟩
  returned := h.returned

theorem text_returned (r : TtyRead) : (l.returned r).text = (l.texts.map TtyRead.text).flatten ++ r.text := by
  unfold text returned
  rw [List.map_append, List.flatten_append]
  simp

theorem text_reading (hr : l.reading = some r) : l.text = (l.texts.map TtyRead.text).flatten ++ r.text := by
  unfold text
  rw [hr]
  rfl

theorem Listens.full (h : Listens ring heard printed asleep l) (hr : l.reading = some r)
    (hfull : r.text.length = r.length) : Listens ring heard printed asleep (l.returned r) where
  order := h.order
  stored := by
    rw [text_returned, ← text_reading hr]
    exact h.stored
  printed := by
    rw [text_returned, ← text_reading hr]
    exact h.printed
  awake hreading := absurd rfl hreading
  going r hr := by cases hr
  returned r' hr' := by
    rcases List.mem_append.mp hr' with hr' | hr'
    · exact h.returned r' hr'
    · rw [List.mem_singleton.mp hr']
      exact (h.going r hr).returned hfull

/-- The event of a key that is released is skipped. -/
theorem Listens.skip (h : Listens ring heard printed asleep l) (hread : ring.read = (some e, rest))
    (he : e.pressed = false) (ha : ¬asleep) :
    Listens rest heard printed asleep { l with taken := l.taken ++ [(e, true)] } where
  order := by
    rw [List.map_append]
    exact (h.order.read hread).1
  stored := by
    rw [typed_snoc, he]
    exact h.stored.trans (List.append_nil _).symm
  printed := h.printed
  awake _ hs := absurd hs ha
  going := h.going
  returned := h.returned

theorem Listens.line (h : Listens ring heard printed asleep l) (hread : ring.read = (some e, rest))
    (hr : l.reading = some r) (hroom : r.text.length ≠ r.length) (he : e.pressed = true)
    (hline : e.ascii = KernelKeys.newline) : Listens rest heard (printed ++ [e.ascii]) asleep
      (Listener.returned { l with taken := l.taken ++ [(e, true)] } { r with text := r.text ++ [e.ascii] }) where
  order := by
    change Ringbuffer.InOrder rest heard ((l.taken ++ [(e, true)]).map Prod.fst)
    rw [List.map_append]
    exact (h.order.read hread).1
  stored := by
    have htyped := @typed_snoc l (e, true)
    rw [he, ← h.stored, text_reading hr, List.append_assoc] at htyped
    rw [text_returned]
    exact htyped.symm
  printed := by
    rw [text_returned, h.printed, text_reading hr, List.append_assoc]
  awake hreading := absurd rfl hreading
  going r hr := by cases hr
  returned r' hr' := by
    rcases List.mem_append.mp hr' with hr' | hr'
    · exact h.returned r' hr'
    · rw [List.mem_singleton.mp hr']
      exact (h.going r hr).newline hroom hline

theorem Listens.store (h : Listens ring heard printed asleep l) (hread : ring.read = (some e, rest))
    (hr : l.reading = some r) (hroom : r.text.length ≠ r.length) (he : e.pressed = true)
    (hline : e.ascii ≠ KernelKeys.newline) (ha : ¬asleep) : Listens rest heard (printed ++ [e.ascii]) asleep
      { l with taken := l.taken ++ [(e, true)], reading := some { r with text := r.text ++ [e.ascii] } } where
  order := by
    rw [List.map_append]
    exact (h.order.read hread).1
  stored := by
    have htyped := @typed_snoc l (e, true)
    rw [he, ← h.stored, text_reading hr, List.append_assoc] at htyped
    exact htyped.symm
  printed := by
    rw [h.printed, text_reading hr, List.append_assoc]
    rfl
  awake _ hs := absurd hs ha
  going r' hr' := by
    obtain rfl := Option.some.inj hr'
    exact (h.going r hr).append hroom hline
  returned := h.returned

end Listener

end UmbraOS
