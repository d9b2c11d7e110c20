import UmbraOS.Kernel
import UmbraOS.PressRelease

namespace UmbraOS

abbrev KeyCode := Nat

namespace KeyCode

def invalid : KeyCode := 0x0

def leftShift : KeyCode := 0x2a

def capsLock : KeyCode := 0x3a

end KeyCode

structure Key where
  keyCode : KeyCode
  ascii : Byte
  uppercaseAscii : Byte

/-- The bits of the modifiers, and the scan codes received before they are processed. -/
structure Keyboard where
  buffer : BitVec 64
  position : Byte
  modifiersMask : Byte

def SHIFT_MASK : Nat := 2

def CAPS_LOCK_MASK : Nat := 3

namespace Key

def new (scancode : Nat) (ascii uppercaseAscii : Char) : Key :=
  ⟨scancode, BitVec.ofNat 8 ascii.toNat, BitVec.ofNat 8 uppercaseAscii.toNat⟩

end Key

namespace Keyboard

/-- `KEYS`, in its order; some of the last codes are also those of earlier keys. -/
def keys : List Key := [
  Key.new 0x0 '?' '?', Key.new 0x1 '?' '?', Key.new 0x2 '1' '!', Key.new 0x3 '2' '@', Key.new 0x4 '3' '#',
  Key.new 0x5 '4' '$', Key.new 0x6 '5' '%', Key.new 0x7 '6' '^', Key.new 0x8 '7' '&', Key.new 0x9 '8' '*',
  Key.new 0xa '9' '(', Key.new 0xb '0' ')', Key.new 0xc '-' '?', Key.new 0xd '=' '?', Key.new 0xe '?' '?',
  Key.new 0xf '?' '?', Key.new 0x10 'q' 'Q', Key.new 0x11 'w' 'W', Key.new 0x12 'e' 'E',
  Key.new 0x13 'r' 'R', Key.new 0x14 't' 'T', Key.new 0x15 'y' 'Y', Key.new 0x16 'u' 'U',
  Key.new 0x17 'i' 'I', Key.new 0x18 'o' 'O', Key.new 0x19 'p' 'P', Key.new 0x1a '[' '?',
  Key.new 0x1b ']' '?', Key.new 0x1c (Char.ofNat 10) (Char.ofNat 10), Key.new 0x1d '?' '?',
  Key.new 0x1e 'a' 'A', Key.new 0x1f 's' 'S', Key.new 0x20 'd' 'D', Key.new 0x21 'f' 'F',
  Key.new 0x22 'g' 'G', Key.new 0x23 'h' 'H', Key.new 0x24 'j' 'J', Key.new 0x25 'k' 'K',
  Key.new 0x26 'l' 'L', Key.new 0x27 ';' '?', Key.new 0x28 (Char.ofNat 39) '?',
  Key.new 0x29 (Char.ofNat 96) '?', Key.new 0x2a '?' '?', Key.new 0x2b (Char.ofNat 92) '?',
  Key.new 0x2c 'z' 'Z', Key.new 0x2d 'x' 'X', Key.new 0x2e 'c' 'C', Key.new 0x2f 'v' 'V',
  Key.new 0x30 'b' 'B', Key.new 0x31 'n' 'N', Key.new 0x32 'm' 'M', Key.new 0x33 ',' '?',
  Key.new 0x34 '.' '?', Key.new 0x35 '/' '?', Key.new 0x36 '?' '?', Key.new 0x37 '*' '?',
  Key.new 0x38 '?' '?', Key.new 0x39 ' ' ' ', Key.new 0x3a '?' '?', Key.new 0x3b '?' '?',
  Key.new 0x3c '?' '?', Key.new 0x3d '?' '?', Key.new 0x3e '?' '?', Key.new 0x3f '?' '?',
  Key.new 0x40 '?' '?', Key.new 0x41 '?' '?', Key.new 0x42 '?' '?', Key.new 0x43 '?' '?',
  Key.new 0x44 '?' '?', Key.new 0x45 '?' '?', Key.new 0x46 '?' '?', Key.new 0x47 '7' '7',
  Key.new 0x48 '8' '8', Key.new 0x49 '9' '9', Key.new 0x4a '-' '-', Key.new 0x4b '4' '4',
  Key.new 0x4c '5' '5', Key.new 0x4d '6' '6', Key.new 0x4e '+' '+', Key.new 0x4f '1' '1',
  Key.new 0x50 '2' '2', Key.new 0x51 '3' '3', Key.new 0x52 '0' '0', Key.new 0x53 '.' '.',
  Key.new 0x57 '?' '?', Key.new 0x58 '?' '?', Key.new 0x48 '?' '?', Key.new 0x50 '?' '?',
  Key.new 0x4b '?' '?', Key.new 0x4d '?' '?']

def codeToKey (scancode : BitVec 64) : Key :=
  (keys.find? fun key => key.keyCode = scancode.toNat).getD (Key.new 0 '?' '?')

/-- The keyboard at the start. -/
def zeroed : Keyboard := ⟨0#64, 0#8, 0#8⟩

def clear (keyboard : Keyboard) : Keyboard := { keyboard with buffer := 0#64, position := 0#8 }

def setModifier (keyboard : Keyboard) (mask : Nat) : Keyboard :=
  { keyboard with modifiersMask := keyboard.modifiersMask ||| 1#8 <<< mask }

def clearModifier (keyboard : Keyboard) (mask : Nat) : Keyboard :=
  { keyboard with modifiersMask := keyboard.modifiersMask &&& ~~~(1#8 <<< mask) }

def shiftPressed (keyboard : Keyboard) : Bool := (keyboard.modifiersMask >>> SHIFT_MASK) &&& 1#8 = 1#8

def capsLockOn (keyboard : Keyboard) : Bool := (keyboard.modifiersMask >>> CAPS_LOCK_MASK) &&& 1#8 = 1#8

def uppercase (keyboard : Keyboard) : Bool := keyboard.shiftPressed || keyboard.capsLockOn

/-- The scan code goes into the buffer. -/
def receive (keyboard : Keyboard) (scancode : Byte) : Keyboard :=
  let keyboard := if 4#8 ≤ keyboard.position then keyboard.clear else keyboard
  { keyboard with
    buffer := (keyboard.buffer <<< 8) ||| scancode.setWidth 64
    position := keyboard.position + 1#8 }

/-- The part of `Keyboard::handler` for a release key, with the event passed to `wake_io`. -/
def release (keyboard : Keyboard) (key : Key) : Option KeyboardEvent × Keyboard :=
  let keyboard :=
    if key.keyCode = KeyCode.leftShift then keyboard.clearModifier SHIFT_MASK else keyboard
  (some ⟨key.keyCode, 0#8, false⟩, keyboard.clear)

/-- The part for the other keys; `wake_io` is not always called. -/
def press (keyboard : Keyboard) (key : Key) : Option KeyboardEvent × Keyboard :=
  if key.keyCode = KeyCode.invalid then (none, keyboard.clear)
  else if key.keyCode = KeyCode.leftShift then (none, (keyboard.setModifier SHIFT_MASK).clear)
  else if key.keyCode = KeyCode.capsLock then
    if keyboard.capsLockOn then (none, (keyboard.clearModifier CAPS_LOCK_MASK).clear)
    else (none, (keyboard.setModifier CAPS_LOCK_MASK).clear)
  else
    let ascii := if !keyboard.uppercase then key.ascii else key.uppercaseAscii
    (some ⟨key.keyCode, ascii, true⟩, keyboard.clear)

/-- `Keyboard::handler` for the byte read from the port. -/
def handler (keyboard : Keyboard) (scancode : Byte) : Option KeyboardEvent × Keyboard :=
  let keyboard := keyboard.receive scancode
  if (scancode >>> 7) &&& 1#8 ≠ 0#8 then
    keyboard.release (codeToKey ((scancode &&& ~~~(1#8 <<< 7)).setWidth 64))
  else keyboard.press (codeToKey keyboard.buffer)

/-- The events passed to `wake_io` while the bytes of a stream are received. -/
def events : Keyboard → List Byte → List KeyboardEvent
  | _, [] => []
  | keyboard, scancode :: stream =>
    let (event, keyboard) := keyboard.handler scancode
    event.toList ++ events keyboard stream

/-- The key of a scan code of one byte, and whether it is pressed. -/
def scanned (scancode : Byte) : Nat × Bool := (scancode.toNat % 128, scancode.toNat < 128)

def keyCodeOf (scancode : Nat) : KeyCode := (codeToKey (BitVec.ofNat 64 scancode)).keyCode

/-- A press of the key is passed on: it is in the table, and neither shift nor caps lock. -/
def Reported (scancode : Nat) : Prop :=
  keyCodeOf scancode ≠ KeyCode.invalid ∧ keyCodeOf scancode ≠ KeyCode.leftShift ∧
    keyCodeOf scancode ≠ KeyCode.capsLock

instance (scancode : Nat) : Decidable (Reported scancode) :=
  inferInstanceAs (Decidable (keyCodeOf scancode ≠ KeyCode.invalid ∧
    keyCodeOf scancode ≠ KeyCode.leftShift ∧ keyCodeOf scancode ≠ KeyCode.capsLock))

/-- What is passed on for a press or a release. -/
def report (e : Nat × Bool) : Option (KeyCode × Bool) :=
  if e.2 then if Reported e.1 then some (keyCodeOf e.1, true) else none
  else some (keyCodeOf e.1, false)

def transition (event : KeyboardEvent) : KeyCode × Bool := (event.keyCode, event.pressed)

theorem keyCodeOf_cases {scancode : Nat} (h : scancode < 2 ^ 64) :
    keyCodeOf scancode = scancode ∨ keyCodeOf scancode = KeyCode.invalid := by
  unfold keyCodeOf codeToKey
  rw [BitVec.toNat_ofNat, Nat.mod_eq_of_lt h]
  cases hfind : keys.find? fun key => key.keyCode = scancode with
  | none => exact Or.inr rfl
  | some key =>
    have hcode := List.find?_some hfind
    exact Or.inl (of_decide_eq_true hcode)

theorem press_clears (keyboard : Keyboard) (key : Key) : (keyboard.press key).2.buffer = 0#64 := by
  unfold press
  split
  next => rfl
  next =>
    split
    next => rfl
    next =>
      split
      next => split <;> rfl
      next => rfl

theorem handler_clears (keyboard : Keyboard) (scancode : Byte) :
    (keyboard.handler scancode).2.buffer = 0#64 := by
  unfold handler
  simp only
  split
  next => rfl
  next => exact press_clears _ _

theorem press_reports (keyboard : Keyboard) (key : Key) : (keyboard.press key).1.map transition =
    if key.keyCode ≠ KeyCode.invalid ∧ key.keyCode ≠ KeyCode.leftShift ∧ key.keyCode ≠ KeyCode.capsLock
    then some (key.keyCode, true) else none := by
  unfold press
  split
  next hinvalid => exact (if_neg fun hr => hr.1 hinvalid).symm
  next hinvalid =>
    split
    next hshift => exact (if_neg fun hr => hr.2.1 hshift).symm
    next hshift =>
      split
      next hcaps =>
        rw [if_neg (c := key.keyCode ≠ _ ∧ _) fun hr => hr.2.2 hcaps]
        split <;> rfl
      next hcaps =>
        rw [if_pos (c := key.keyCode ≠ _ ∧ _) ⟨hinvalid, hshift, hcaps⟩]
        rfl

theorem receive_buffer {keyboard : Keyboard} (h : keyboard.buffer = 0#64) (scancode : Byte) :
    (keyboard.receive scancode).buffer = (0#64 <<< 8) ||| scancode.setWidth 64 := by
  unfold receive
  split
  next => rfl
  next =>
    change (keyboard.buffer <<< 8) ||| _ = _
    rw [h]

theorem release_bit (scancode : Byte) :
    (scancode >>> 7) &&& 1#8 ≠ 0#8 ↔ (scanned scancode).2 = false := by
  revert scancode
  decide

theorem release_code (scancode : Byte) :
    (scancode &&& ~~~(1#8 <<< 7)).setWidth 64 = BitVec.ofNat 64 (scanned scancode).1 := by
  revert scancode
  decide

theorem press_code {scancode : Byte} (h : (scanned scancode).2 = true) :
    (0#64 <<< 8) ||| scancode.setWidth 64 = BitVec.ofNat 64 (scanned scancode).1 := by
  revert scancode
  decide

/-- With no scan codes waiting, what is passed on depends on the byte alone. -/
theorem handler_reports {keyboard : Keyboard} (h : keyboard.buffer = 0#64) (scancode : Byte) :
    (keyboard.handler scancode).1.map transition = report (scanned scancode) := by
  unfold handler report
  simp only
  split
  next hrelease =>
    rw [release_bit] at hrelease
    rw [hrelease, if_neg (by decide), release_code]
    rfl
  next hpress =>
    rw [release_bit, Bool.not_eq_false] at hpress
    rw [hpress, if_pos rfl, receive_buffer h, press_code hpress, press_reports]
    rfl

theorem events_reports {keyboard : Keyboard} (h : keyboard.buffer = 0#64) (stream : List Byte) :
    (events keyboard stream).map transition = (stream.map scanned).filterMap report := by
  induction stream generalizing keyboard with
  | nil => rfl
  | cons scancode stream ih =>
    unfold events
    rw [List.map_append, ih (handler_clears keyboard scancode), List.map_cons, List.filterMap_cons,
      ← handler_reports h scancode]
    cases (keyboard.handler scancode).1 with
    | none => rfl
    | some event => rfl

theorem report_eq {e : Nat × Bool} (hk : e.1 < 128) (h : Reported e.1) : report e = some e := by
  have hcode : keyCodeOf e.1 = e.1 := (keyCodeOf_cases (by omega)).resolve_right h.1
  obtain ⟨k, pressed⟩ := e
  unfold report
  cases pressed with
  | false => rw [if_neg Bool.false_ne_true, hcode]
  | true => rw [if_pos rfl, if_pos h, hcode]

/-- A press that is passed on has a code of its own. -/
theorem pressed_reported {stream : List Byte} {c : KeyCode}
    (h : (c, true) ∈ (stream.map scanned).filterMap report) : ∃ k, Reported k ∧ keyCodeOf k = c := by
  obtain ⟨⟨k, pressed⟩, -, hk⟩ := List.mem_filterMap.mp h
  cases pressed with
  | false => cases hk
  | true =>
    unfold report at hk
    rw [if_pos rfl] at hk
    split at hk
    next hreported =>
      obtain ⟨rfl, -⟩ := Prod.mk.inj (Option.some.inj hk)
      exact ⟨k, hreported, rfl⟩
    next => cases hk

/-- Where only keys are released whose presses are passed on, the events are the stream without
the presses of the other keys. -/
theorem report_filter {stream : List Byte}
    (h : ∀ scancode ∈ stream, (scanned scancode).2 = false → Reported (scanned scancode).1) :
    (stream.map scanned).filterMap report = (stream.map scanned).filter fun e => Reported e.1 := by
  rw [← List.filterMap_eq_filter]
  apply List.filterMap_congr
  intro e he
  obtain ⟨scancode, hmem, rfl⟩ := List.mem_map.mp he
  by_cases hreported : Reported (scanned scancode).1
  · rw [report_eq (Nat.mod_lt _ (by decide)) hreported]
    simp [Option.guard, hreported]
  · have hpress : (scanned scancode).2 = true := by
      by_contra hrelease
      exact hreported (h scancode hmem (Bool.not_eq_true _ ▸ hrelease))
    unfold report
    rw [hpress, if_pos rfl, if_neg hreported]
    simp [Option.guard, hreported]

/-- The events of a stream in which each release follows a press of its own are balanced if and
only if no key is released whose presses are not passed on: shift, caps lock, or a key that is not
in the table. -/
theorem events_balanced_iff (stream : List Byte) (hstream : KeyStream.Balanced (stream.map scanned)) :
    KeyStream.Balanced ((events zeroed stream).map transition) ↔
      ∀ scancode ∈ stream, (scanned scancode).2 = false → Reported (scanned scancode).1 := by
  rw [events_reports rfl]
  constructor
  · intro h scancode hmem hrelease
    have hevent : (keyCodeOf (scanned scancode).1, false) ∈ (stream.map scanned).filterMap report := by
      apply List.mem_filterMap.mpr
      refine ⟨scanned scancode, List.mem_map_of_mem hmem, ?_⟩
      unfold report
      rw [hrelease, if_neg (by decide)]
    obtain ⟨k, hreported, hk⟩ := pressed_reported (h.pressed hevent)
    unfold Reported
    rw [← hk]
    exact hreported
  · intro h
    rw [report_filter h]
    exact hstream.filter fun k => Reported k

/-- A letter typed while another key is held. -/
theorem letter_events_balanced :
    KeyStream.Balanced ((events zeroed [0x1d#8, 0x1e#8, 0x9e#8, 0x9d#8]).map transition) ↔
      ∀ scancode ∈ [0x1d#8, 0x1e#8, 0x9e#8, 0x9d#8], (scanned scancode).2 = false →
        Reported (scanned scancode).1 := by
  apply events_balanced_iff
  apply KeyStream.balanced_of_inits
  decide

theorem shift_release_unbalanced :
    ¬∀ stream : List Byte, KeyStream.Balanced (stream.map scanned) →
      KeyStream.Balanced ((events zeroed stream).map transition) := by
  intro h
  have hstream : KeyStream.Balanced ([0x2a#8, 0xaa#8].map scanned) := by
    apply KeyStream.balanced_of_inits
    decide
  have hpressed := (h [0x2a#8, 0xaa#8] hstream).pressed (k := KeyCode.leftShift) (by decide)
  exact absurd hpressed (by decide)

end Keyboard

end UmbraOS
