import UmbraOS.HeapRequests
import UmbraOS.PathTokens

namespace UmbraOS

namespace CString

/-- `while (*ptr != '\0') ptr++`. -/
def skipString (m : Memory) : Nat → Nat → Except Trap Nat
  | fuel, p =>
    if m p ≠ 0#8 then
      match fuel with
      | 0 => .error .timeout
      | fuel + 1 => skipString m fuel (p + 1)
    else .ok p

/-- `while (*src != '\0') *ptr++ = *src++`. -/
def copyString : Nat → Memory → Nat → Nat → Except Trap (Memory × Nat)
  | fuel, m, p, src =>
    if m src ≠ 0#8 then
      match fuel with
      | 0 => .error .timeout
      | fuel + 1 => copyString fuel (m.fill p 1 (m src)) (p + 1) (src + 1)
    else .ok (m, p)

def strcat (fuel : Nat) (m : Memory) (dest src : Nat) : Except Trap Memory := do
  let p ← skipString m fuel dest
  let (m, p) ← copyString fuel m p src
  return m.fill p 1 0#8

section Memory

variable {m : Memory} {p src dest fuel : Nat} {str path : CString}

theorem skipString_eq (h : At m p str) (hf : str.length ≤ fuel) :
    skipString m fuel p = .ok (p + str.length) := by
  induction str generalizing p fuel with
  | nil =>
    have hend : m p = 0#8 := h
    unfold skipString
    rw [if_neg (not_not.mpr hend)]
    rfl
  | cons c cs ih =>
    obtain ⟨hc, hne, hrest⟩ := h
    obtain ⟨fuel, rfl⟩ : ∃ k, fuel = k + 1 := ⟨fuel - 1, by rw [List.length_cons] at hf; omega⟩
    unfold skipString
    rw [if_pos (by rw [hc]; exact hne), List.length_cons,
      show p + (cs.length + 1) = p + 1 + cs.length by omega]
    exact ih hrest (Nat.le_of_succ_le_succ hf)

/-- The bytes of the source are read before one is written over them, where the ranges are apart. -/
theorem copyString_eq (h : At m src path) (hf : path.length ≤ fuel)
    (hapart : src + path.length < p ∨ p + path.length ≤ src) :
    ∃ m', copyString fuel m p src = .ok (m', p + path.length) ∧
      (∀ i c, path[i]? = some c → m' (p + i) = c) ∧
      ∀ x, x < p ∨ p + path.length ≤ x → m' x = m x := by
  induction path generalizing m p src fuel with
  | nil =>
    have hend : m src = 0#8 := h
    unfold copyString
    rw [if_neg (not_not.mpr hend)]
    exact ⟨m, rfl, fun i c hc => (by cases hc), fun x _ => rfl⟩
  | cons c cs ih =>
    obtain ⟨hc, hne, hrest⟩ := h
    rw [List.length_cons] at hf hapart
    obtain ⟨fuel, rfl⟩ : ∃ k, fuel = k + 1 := ⟨fuel - 1, by omega⟩
    have hrest' : At (m.fill p 1 (m src)) (src + 1) cs := by
      obtain ⟨hbytes, hend⟩ := at_iff.mp hrest
      refine at_iff.mpr ⟨fun i b hb => ?_, ?_⟩
      · have hi := (List.getElem?_eq_some_iff.mp hb).1
        rw [Memory.fill_outside _ _ (by omega)]
        exact hbytes i b hb
      · rw [Memory.fill_outside _ _ (by omega)]
        exact hend
    have hfuel : cs.length ≤ fuel := by omega
    have hnext : src + 1 + cs.length < p + 1 ∨ p + 1 + cs.length ≤ src + 1 := by omega
    obtain ⟨m', hcopy, hbytes, hsame⟩ := ih hrest' hfuel hnext
    unfold copyString
    rw [if_pos (by rw [hc]; exact hne)]
    refine ⟨m', ?_, fun i b hb => ?_, fun x hx => ?_⟩
    · rw [List.length_cons, show p + (cs.length + 1) = p + 1 + cs.length by omega]
      exact hcopy
    · cases i with
      | zero =>
        rw [← Option.some.inj hb, ← hc, Nat.add_zero, hsame p (Or.inl (by omega))]
        exact Memory.fill_inside _ _ (le_refl p) (by omega)
      | succ i =>
        rw [show p + (i + 1) = p + 1 + i by omega]
        exact hbytes i b hb
    · rw [List.length_cons] at hx
      rw [hsame x (by omega), Memory.fill_outside _ _ (by omega)]

/-- `strcat` leaves the joined string, and writes the source and a terminator behind the first string. -/
theorem strcat_at (hd : At m dest str) (hs : At m src path) (hf : str.length ≤ fuel) (hf' : path.length ≤ fuel)
    (hpath : ∀ c ∈ path, c ≠ 0#8)
    (hapart : src + path.length < dest + str.length ∨ dest + str.length + path.length < src) :
    ∃ m', strcat fuel m dest src = .ok m' ∧ At m' dest (str ++ path) ∧
      ∀ x, x < dest + str.length ∨ dest + str.length + path.length + 1 ≤ x → m' x = m x := by
  have hbehind : src + path.length < dest + str.length ∨ dest + str.length + path.length ≤ src := by omega
  obtain ⟨m', hcopy, hbytes, hsame⟩ := copyString_eq hs hf' hbehind
  have hrun : strcat fuel m dest src = .ok (m'.fill (dest + str.length + path.length) 1 0#8) := by
    unfold strcat
    simp only [skipString_eq hd hf, hcopy, Except.ok_bind]
    rfl
  refine ⟨_, hrun, at_iff.mpr ⟨fun i c hc => ?_, ?_⟩, fun x hx => ?_⟩
  · obtain ⟨hi, -⟩ := List.getElem?_eq_some_iff.mp hc
    rw [List.length_append] at hi
    rw [Memory.fill_outside _ _ (by omega)]
    by_cases hfirst : i < str.length
    · rw [List.getElem?_append_left hfirst] at hc
      rw [hsame _ (by omega)]
      exact (at_iff.mp hd).1 i c hc
    · rw [List.getElem?_append_right (by omega)] at hc
      have hbyte := hbytes (i - str.length) c hc
      rw [show dest + str.length + (i - str.length) = dest + i by omega] at hbyte
      exact ⟨hbyte, hpath c (List.mem_of_getElem? hc)⟩
  · rw [List.length_append, ← Nat.add_assoc]
    exact Memory.fill_inside _ _ (le_refl _) (by omega)
  · rw [Memory.fill_outside _ _ (by omega), hsame x (by omega)]

end Memory

end CString

open CString (slash)

/-- The working directory of a task, and the size of the block that it is in. -/
structure DirState where
  workingDir : CString
  block : Nat

/-- A call of `strcat`, with the size of the block of its destination. -/
structure Strcat where
  dest : CString
  source : CString
  block : Nat

/-- The last byte it writes, the terminator, is in the block. -/
def Strcat.Inside (e : Strcat) : Prop := e.dest.length + e.source.length + 1 ≤ e.block

/-- `cwd` says that the descriptor is `AT_FDCWD`. -/
inductive DirCall
  | sysChdir (path : CString)
  | sysOpenat (cwd : Bool) (path : CString) (fileMode : Nat)
  | sysStat (cwd : Bool) (path : CString)

/-- The block that `strdup` gets from `kmalloc` for a copy. -/
def strdupBlock (str : CString) : Nat := Heap.reserved (u64 (str.length + 1))

namespace DirState

/-- The directory of the first task. -/
def start : DirState := ⟨[slash], strdupBlock [slash]⟩

/-- The copy of the working directory that a path is put behind. -/
def absolutePath (t : DirState) (path : CString) : Strcat := ⟨t.workingDir, path, strdupBlock t.workingDir⟩

/-- The calls of `strcat` that a system call makes, and the state after it. -/
def call (t : DirState) : DirCall → List Strcat × DirState
  | .sysChdir path =>
    if path.head? = some slash then ([], ⟨path, strdupBlock path⟩)
    else ([⟨t.workingDir, [slash], t.block⟩, ⟨t.workingDir ++ [slash], path, t.block⟩],
      { t with workingDir := t.workingDir ++ [slash] ++ path })
  | .sysOpenat cwd path fileMode =>
    if fileMode ≠ 0 then ([], t)
    else if !cwd then ([], t)
    else ([t.absolutePath path], t)
  | .sysStat cwd path => if cwd then ([t.absolutePath path], t) else ([], t)

theorem call_workingDir (t : DirState) (vfs : Vfs) (path : CString) :
    (t.call (.sysChdir path)).2.workingDir = ((⟨vfs, t.workingDir⟩ : PathState).sysChdir path).workingDir := by
  unfold call PathState.sysChdir
  simp only
  split
  next => rfl
  next =>
    simp only
    rw [List.append_assoc, List.singleton_append]

/-- The path that a call makes the working directory, and the path that it puts behind it. -/
def absolute : DirCall → Option CString
  | .sysChdir path => if path.head? = some slash then some path else none
  | _ => none

def relative : DirCall → Option CString
  | .sysChdir path => if path.head? = some slash then none else some path
  | _ => none

/-- The last absolute path that was changed to, and the characters that relative ones have added since. -/
def base (done : List DirCall) : CString := (done.reverse.findSome? absolute).getD [slash]

def added (done : List DirCall) : Nat :=
  (((done.reverse.takeWhile fun c => absolute c = none).filterMap relative).map fun path => 1 + path.length).sum

/-- The length of the working directory after some calls. -/
def dirLength (done : List DirCall) : Nat := (base done).length + added done

/-- What is written fits the block that was reserved for the last absolute path, or for a copy of the
working directory. -/
def Fits (done : List DirCall) : DirCall → Prop
  | .sysChdir path => path.head? = some slash ∨ dirLength done + 1 + path.length + 1 ≤ strdupBlock (base done)
  | .sysOpenat cwd path fileMode => cwd = true → fileMode = 0 →
      dirLength done + path.length + 1 ≤ Heap.reserved (u64 (dirLength done + 1))
  | .sysStat cwd path => cwd = true →
      dirLength done + path.length + 1 ≤ Heap.reserved (u64 (dirLength done + 1))

/-- The state after some calls. -/
def after (done : List DirCall) : DirState := done.foldl (fun t c => (t.call c).2) start

theorem after_concat (done : List DirCall) (c : DirCall) : after (done ++ [c]) = ((after done).call c).2 :=
  List.foldl_concat _ _ _ _

/-- Calls that change no working directory leave the bookkeeping as it is. -/
theorem bookkeeping_other {c : DirCall} (ha : absolute c = none) (hr : relative c = none) (done : List DirCall) :
    base (done ++ [c]) = base done ∧ added (done ++ [c]) = added done := by
  unfold base added
  rw [List.reverse_append, List.reverse_singleton, List.singleton_append]
  refine ⟨?_, ?_⟩
  · rw [List.findSome?_cons, ha]
  · rw [List.takeWhile_cons_of_pos (by simpa using ha), List.filterMap_cons_none hr]

/-- The length of the working directory, and the block that it is in. -/
theorem after_state (done : List DirCall) :
    (after done).workingDir.length = dirLength done ∧ (after done).block = strdupBlock (base done) := by
  induction done using List.reverseRecOn with
  | nil => exact ⟨rfl, rfl⟩
  | append_singleton done c ih =>
    obtain ⟨hlength, hblock⟩ := ih
    rw [after_concat]
    cases c with
    | sysChdir path =>
      unfold dirLength base added
      rw [List.reverse_append, List.reverse_singleton, List.singleton_append, List.findSome?_cons]
      by_cases habsolute : path.head? = some slash
      · have hsome : absolute (.sysChdir path) = some path := if_pos habsolute
        rw [hsome, List.takeWhile_cons_of_neg (by simp [hsome])]
        unfold call
        simp only
        rw [if_pos habsolute]
        exact ⟨rfl, rfl⟩
      · have hnone : absolute (.sysChdir path) = none := if_neg habsolute
        have hsome : relative (.sysChdir path) = some path := if_neg habsolute
        rw [hnone, List.takeWhile_cons_of_pos (by simp [hnone]), List.filterMap_cons_some hsome,
          List.map_cons, List.sum_cons]
        unfold call
        simp only
        rw [if_neg habsolute]
        refine ⟨?_, hblock⟩
        simp only [List.length_append, List.length_singleton, hlength]
        unfold dirLength base added
        omega
    | sysOpenat cwd path fileMode =>
      obtain ⟨hbase, hadded⟩ := bookkeeping_other (c := .sysOpenat cwd path fileMode) rfl rfl done
      have hsame : ((after done).call (.sysOpenat cwd path fileMode)).2 = after done := by
        unfold call
        simp only
        split
        next => rfl
        next =>
          split
          next => rfl
          next => rfl
      rw [hsame, dirLength, hbase, hadded]
      exact ⟨hlength, hblock⟩
    | sysStat cwd path =>
      obtain ⟨hbase, hadded⟩ := bookkeeping_other (c := .sysStat cwd path) rfl rfl done
      have hsame : ((after done).call (.sysStat cwd path)).2 = after done := by
        unfold call
        simp only
        split
        next => rfl
        next => rfl
      rw [hsame, dirLength, hbase, hadded]
      exact ⟨hlength, hblock⟩

/-- The calls of `strcat` in one system call write inside their blocks exactly when its path fits. -/
theorem call_inside_iff (done : List DirCall) (c : DirCall) :
    (∀ e ∈ ((after done).call c).1, e.Inside) ↔ Fits done c := by
  obtain ⟨hlength, hblock⟩ := after_state done
  have hcopy : ∀ path, ((after done).absolutePath path).Inside ↔
      dirLength done + path.length + 1 ≤ Heap.reserved (u64 (dirLength done + 1)) := by
    intro path
    unfold absolutePath Strcat.Inside strdupBlock
    simp only [hlength]
  cases c with
  | sysChdir path =>
    unfold call Fits
    simp only
    by_cases habsolute : path.head? = some slash
    · rw [if_pos habsolute]
      exact iff_of_true (fun e he => by cases he) (Or.inl habsolute)
    · rw [if_neg habsolute]
      simp only [List.forall_mem_cons, List.not_mem_nil, false_implies, implies_true, and_true,
        Strcat.Inside, List.length_append, List.length_singleton, hlength, hblock]
      constructor
      · intro h
        exact Or.inr h.2
      · intro h
        have hfit := h.resolve_left habsolute
        exact ⟨by omega, hfit⟩
  | sysOpenat cwd path fileMode =>
    unfold call Fits
    simp only
    by_cases hmode : fileMode = 0
    · rw [if_neg (not_not.mpr hmode)]
      cases cwd with
      | false => exact iff_of_true (fun e he => by cases he) fun hcwd => by cases hcwd
      | true =>
        rw [if_neg (by simp), List.forall_mem_singleton, hcopy]
        exact ⟨fun h _ _ => h, fun h => h rfl hmode⟩
    · rw [if_pos hmode]
      exact iff_of_true (fun e he => by cases he) fun _ hzero => absurd hzero hmode
  | sysStat cwd path =>
    unfold call Fits
    simp only
    cases cwd with
    | false => exact iff_of_true (fun e he => by cases he) fun hcwd => by cases hcwd
    | true =>
      rw [if_pos rfl, List.forall_mem_singleton, hcopy]
      exact ⟨fun h _ => h, fun h => h rfl⟩

/-- In every sequence of calls, `strcat` stays inside the blocks exactly when every path fits. -/
theorem strcats_inside_iff (calls : List DirCall) :
    (∀ es ∈ answers call start calls, ∀ e ∈ es, e.Inside) ↔
      ∀ done c, done ++ [c] <+: calls → Fits done c := by
  constructor
  · intro h done c hprefix
    exact (call_inside_iff done c).mp (h _ (mem_answers.mpr ⟨done, c, hprefix, rfl⟩))
  · intro h es hes
    obtain ⟨done, c, hprefix, rfl⟩ := mem_answers.mp hes
    exact (call_inside_iff done c).mpr (h done c hprefix)

/-- From the root, a change to a directory with a name of seven characters writes ten bytes into a block of
eight. -/
theorem chdir_leaves_block : ¬∀ calls, ∀ es ∈ answers call start calls, ∀ e ∈ es, e.Inside := by
  intro h
  have hlast := h [.sysChdir [97#8, 97#8, 97#8, 97#8, 97#8, 97#8, 97#8]] _ List.mem_cons_self _
    (List.mem_cons_of_mem _ List.mem_cons_self)
  exact absurd (show 10 ≤ 8 from hlast) (by decide)

end DirState

end UmbraOS
