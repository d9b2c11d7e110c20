import UmbraOS.InitramfsArchive
import UmbraOS.WorkingDirectory

namespace UmbraOS

namespace CString

/-- The copy of a string that `strdup` makes in a new block at `a`. -/
def strdup (m : Memory) (a : Nat) (str : CString) : Memory :=
  (m.copy a str.length fun i => str.getD i 0#8).fill (a + str.length) 1 0#8

/-- `while (*p == '/') p++`; here and below `fuel` bounds the turns of a loop. -/
def skipSlashes (m : Memory) : Nat → Nat → Except Trap Nat
  | fuel, p =>
    if m p = slash then
      match fuel with
      | 0 => .error .timeout
      | fuel + 1 => skipSlashes m fuel (p + 1)
    else .ok p

/-- `while (*p != '\0' && *p != '/') p++`. -/
def skipName (m : Memory) : Nat → Nat → Except Trap Nat
  | fuel, p =>
    if m p ≠ 0#8 ∧ m p ≠ slash then
      match fuel with
      | 0 => .error .timeout
      | fuel + 1 => skipName m fuel (p + 1)
    else .ok p

/-- `while (*p == '/') *p++ = 0`. -/
def cutSlashes : Nat → Memory → Nat → Except Trap (Memory × Nat)
  | fuel, m, p =>
    if m p = slash then
      match fuel with
      | 0 => .error .timeout
      | fuel + 1 => cutSlashes fuel (m.fill p 1 0#8) (p + 1)
    else .ok (m, p)

/-- The components of a path that are not empty. -/
def splitNames (path : CString) : List CString := (path.splitOn slash).filter (· ≠ [])

end CString

namespace Vfs

/-- The loop of `get_node` over the copy of the path at `p`, which it cuts into names. -/
def tokenLoop (s : Vfs) (fuel : Nat) : Nat → Memory → Nat → Nat → Except Trap (Option Nat)
  | turns, m, parent, p =>
    if m p = 0#8 then .ok (some parent)
    else match turns with
      | 0 => .error .timeout
      | turns + 1 => do
        let q ← CString.skipName m fuel p
        let (m, q) ← CString.cutSlashes fuel m q
        let above ← s.nodes.read (some parent)
        match above.children with
        | none => .error .nullDeref
        | some map =>
          let name ← CString.atAddress m fuel p
          match map.get name with
          | none => return none
          | some node => tokenLoop s fuel turns m node q

/-- `get_node`, with the copy of the path in the block at `a`. -/
def getNodeAt (s : Vfs) (fuel : Nat) (m : Memory) (a : Nat) (path : CString) :
    Except Trap (Option Nat) :=
  match s.rootMountpoint with
  | none => .ok none
  | some root => do
    let m := CString.strdup m a path
    let p ← CString.skipSlashes m fuel a
    s.tokenLoop fuel fuel m root p

end Vfs

namespace CString

section Memory

variable {m m' : Memory} {p fuel : Nat} {path : CString}

theorem At.congr (h : At m p path) (hsame : ∀ x, p ≤ x → m' x = m x) : At m' p path := by
  induction path generalizing p with
  | nil => exact (hsame p (le_refl p)).trans h
  | cons c cs ih =>
    obtain ⟨hc, hne, hrest⟩ := h
    exact ⟨(hsame p (le_refl p)).trans hc, hne, ih hrest fun x hx => hsame x (by omega)⟩

/-- What bytes a string has in memory. -/
theorem at_iff : At m p path ↔
    (∀ i c, path[i]? = some c → m (p + i) = c ∧ c ≠ 0#8) ∧ m (p + path.length) = 0#8 := by
  induction path generalizing p with
  | nil => exact ⟨fun h => ⟨fun i c hc => (by cases hc), h⟩, fun h => h.2⟩
  | cons c cs ih =>
    unfold At
    rw [ih, List.length_cons]
    constructor
    · intro h
      obtain ⟨hc, hne, hrest, hend⟩ := h
      refine ⟨fun i b hb => ?_, by rw [← hend]; congr 1; omega⟩
      cases i with
      | zero =>
        cases hb
        exact ⟨hc, hne⟩
      | succ i =>
        obtain ⟨hbyte, hb0⟩ := hrest i b hb
        exact ⟨by rw [← hbyte]; congr 1; omega, hb0⟩
    · intro h
      obtain ⟨hbytes, hend⟩ := h
      obtain ⟨hc, hne⟩ := hbytes 0 c rfl
      refine ⟨hc, hne, fun i b hb => ?_, by rw [← hend]; congr 1; omega⟩
      obtain ⟨hbyte, hb0⟩ := hbytes (i + 1) b hb
      exact ⟨by rw [← hbyte]; congr 1; omega, hb0⟩

theorem strdup_at (m : Memory) (a : Nat) (h : ∀ c ∈ path, c ≠ 0#8) : At (strdup m a path) a path := by
  refine at_iff.mpr ⟨fun i c hc => ?_, Memory.fill_inside _ _ (le_refl _) (Nat.lt_succ_self _)⟩
  obtain ⟨hi, -⟩ := List.getElem?_eq_some_iff.mp hc
  refine ⟨?_, h c (List.mem_of_getElem? hc)⟩
  unfold strdup
  rw [Memory.fill_outside _ _ (by omega), Memory.copy_inside _ _ hi, List.getD_eq_getElem?_getD, hc]
  rfl

theorem skipSlashes_eq (h : At m p path) (hf : path.length ≤ fuel) :
    ∃ q, skipSlashes m fuel p = .ok q ∧ At m q (path.dropWhile (· == slash)) := by
  induction path generalizing p fuel with
  | nil =>
    have hstop : ¬m p = slash := by
      rw [show m p = 0#8 from h]
      decide
    unfold skipSlashes
    rw [if_neg hstop]
    exact ⟨p, rfl, h⟩
  | cons c cs ih =>
    obtain ⟨hc, hne, hrest⟩ := h
    unfold skipSlashes
    by_cases hslash : c = slash
    · obtain ⟨fuel, rfl⟩ : ∃ k, fuel = k + 1 := ⟨fuel - 1, by rw [List.length_cons] at hf; omega⟩
      rw [if_pos (hc.trans hslash), List.dropWhile_cons_of_pos (by simpa using hslash)]
      exact ih hrest (Nat.le_of_succ_le_succ hf)
    · rw [if_neg (by rw [hc]; exact hslash), List.dropWhile_cons_of_neg (by simpa using hslash)]
      exact ⟨p, rfl, hc, hne, hrest⟩

/-- The name ends where the rest of the path, which starts with a slash or is empty, begins. -/
theorem skipName_eq (h : At m p path) (hf : path.length ≤ fuel) :
    skipName m fuel p = .ok (p + (component path).length) ∧
      At m (p + (component path).length) (path.dropWhile (· != slash)) := by
  unfold component
  induction path generalizing p fuel with
  | nil =>
    have hstop : ¬(m p ≠ 0#8 ∧ m p ≠ slash) := fun hand => hand.1 h
    unfold skipName
    rw [if_neg hstop]
    exact ⟨rfl, h⟩
  | cons c cs ih =>
    obtain ⟨hc, hne, hrest⟩ := h
    unfold skipName
    by_cases hslash : c = slash
    · rw [if_neg (by rw [hc]; exact fun hand => hand.2 hslash),
        List.takeWhile_cons_of_neg (by simpa using hslash),
        List.dropWhile_cons_of_neg (by simpa using hslash)]
      exact ⟨rfl, hc, hne, hrest⟩
    · obtain ⟨fuel, rfl⟩ : ∃ k, fuel = k + 1 := ⟨fuel - 1, by rw [List.length_cons] at hf; omega⟩
      rw [if_pos (by rw [hc]; exact ⟨hne, hslash⟩), List.takeWhile_cons_of_pos (by simpa using hslash),
        List.dropWhile_cons_of_pos (by simpa using hslash), List.length_cons,
        show p + ((cs.takeWhile (· != slash)).length + 1) =
          p + 1 + (cs.takeWhile (· != slash)).length by omega]
      exact ih hrest (Nat.le_of_succ_le_succ hf)

/-- The slashes become terminators, and what is in front of them stays. -/
theorem cutSlashes_eq (h : At m p path) (hf : path.length ≤ fuel) :
    ∃ m' q, cutSlashes fuel m p = .ok (m', q) ∧ At m' q (path.dropWhile (· == slash)) ∧
      (∀ x < p, m' x = m x) ∧ (path.head? = some slash ∨ path = [] → m' p = 0#8) := by
  induction path generalizing m p fuel with
  | nil =>
    have hstop : ¬m p = slash := by
      rw [show m p = 0#8 from h]
      decide
    unfold cutSlashes
    rw [if_neg hstop]
    exact ⟨m, p, rfl, h, fun _ _ => rfl, fun _ => h⟩
  | cons c cs ih =>
    obtain ⟨hc, hne, hrest⟩ := h
    unfold cutSlashes
    by_cases hslash : c = slash
    · obtain ⟨fuel, rfl⟩ : ∃ k, fuel = k + 1 := ⟨fuel - 1, by rw [List.length_cons] at hf; omega⟩
      have hcut : At (m.fill p 1 0#8) (p + 1) cs :=
        hrest.congr fun x hx => Memory.fill_outside _ _ (by omega)
      obtain ⟨m', q, hrun, hat, hsame, -⟩ := ih hcut (Nat.le_of_succ_le_succ hf)
      rw [if_pos (hc.trans hslash), List.dropWhile_cons_of_pos (by simpa using hslash)]
      refine ⟨m', q, hrun, hat, fun x hx => ?_, fun _ => ?_⟩
      · rw [hsame x (by omega), Memory.fill_outside _ _ (by omega)]
      · rw [hsame p (by omega), Memory.fill_inside _ _ (le_refl p) (by omega)]
    · rw [if_neg (by rw [hc]; exact hslash), List.dropWhile_cons_of_neg (by simpa using hslash)]
      refine ⟨m, p, rfl, ⟨hc, hne, hrest⟩, fun _ _ => rfl, fun hor => ?_⟩
      rcases hor with hhead | hnil
      · exact absurd (Option.some.inj hhead) hslash
      · cases hnil

theorem At.name (h : At m p path) (hsame : ∀ x < p + (component path).length, m' x = m x)
    (hend : m' (p + (component path).length) = 0#8) : At m' p (component path) := by
  obtain ⟨hbytes, -⟩ := at_iff.mp h
  refine at_iff.mpr ⟨fun i c hc => ?_, hend⟩
  have hi : i < (component path).length := (List.getElem?_eq_some_iff.mp hc).1
  have hwhole : path[i]? = some c := by
    have hprefix : component path <+: path := List.takeWhile_prefix _
    obtain ⟨tail, htail⟩ := hprefix
    rw [← htail, List.getElem?_append_left hi]
    exact hc
  rw [hsame _ (by omega)]
  exact hbytes i c hwhole

end Memory

/-- What is behind a name starts with a slash, or there is nothing. -/
theorem dropWhile_name (path : CString) : (path.dropWhile (· != slash)).head? = some slash ∨
    path.dropWhile (· != slash) = [] := by
  induction path with
  | nil => exact Or.inr rfl
  | cons c cs ih =>
    by_cases hslash : c = slash
    · rw [List.dropWhile_cons_of_neg (by simpa using hslash)]
      exact Or.inl (congrArg some hslash)
    · rw [List.dropWhile_cons_of_pos (by simpa using hslash)]
      exact ih

section Split

theorem splitNames_nil : splitNames [] = [] := rfl

theorem splitNames_append (path sub : CString) :
    splitNames (path ++ slash :: sub) = splitNames path ++ splitNames sub := by
  have hsplit : (path ++ slash :: sub).splitOnP (fun x => x == slash) =
      path.splitOnP (fun x => x == slash) ++ sub.splitOnP (fun x => x == slash) :=
    List.splitOnP_append_cons path sub (beq_self_eq_true slash)
  unfold splitNames
  rw [List.splitOn_eq_splitOnP, List.splitOn_eq_splitOnP, List.splitOn_eq_splitOnP,
    hsplit, List.filter_append]

theorem splitNames_slash (path : CString) : splitNames (slash :: path) = splitNames path := by
  have happend := splitNames_append [] path
  rw [splitNames_nil, List.nil_append, List.nil_append] at happend
  exact happend

/-- A path without a slash is one name. -/
theorem splitNames_name {name : CString} (h : ∀ c ∈ name, c ≠ slash) (hne : name ≠ []) :
    splitNames name = [name] := by
  unfold splitNames
  rw [List.splitOn_eq_splitOnP, List.splitOnP_eq_singleton fun c hc => by simpa using h c hc,
    List.filter_cons_of_pos (by simpa using hne)]
  rfl

theorem splitNames_dropWhile (path : CString) :
    splitNames (path.dropWhile (· == slash)) = splitNames path := by
  induction path with
  | nil => rfl
  | cons c cs ih =>
    by_cases hslash : c = slash
    · rw [List.dropWhile_cons_of_pos (by simpa using hslash), ih, hslash, splitNames_slash]
    · rw [List.dropWhile_cons_of_neg (by simpa using hslash)]

theorem splitNames_names (path : CString) (h : path.Relative) : splitNames path = names path := by
  by_cases hnil : path = []
  · rw [hnil]
    rfl
  · have hlt := rest_length hnil
    have hne : component path ≠ [] := by
      obtain ⟨c, cs, rfl⟩ := List.exists_cons_of_ne_nil hnil
      have hc : c ≠ slash := fun he => h (congrArg some he)
      unfold component
      rw [List.takeWhile_cons_of_pos (by simpa using hc)]
      exact List.cons_ne_nil _ _
    have hname : splitNames (component path) = [component path] := by
      refine splitNames_name (fun c hc => ?_) hne
      simpa using List.mem_takeWhile_imp hc
    have hrest : (rest path).Relative := by
      intro he
      have hkeep := List.head?_dropWhile_not (· == slash) (path.dropWhile (· != slash))
      unfold rest at he
      rw [he] at hkeep
      simp at hkeep
    have hsplit : splitNames path = splitNames (component path) ++ splitNames (rest path) := by
      have hjoin : component path ++ path.dropWhile (· != slash) = path := List.takeWhile_append_dropWhile
      unfold rest
      rw [splitNames_dropWhile]
      rcases dropWhile_name path with hslash | hend
      · obtain ⟨tail, htail⟩ : ∃ tail, path.dropWhile (· != slash) = slash :: tail := by
          cases hdrop : path.dropWhile (· != slash) with
          | nil =>
            rw [hdrop] at hslash
            cases hslash
          | cons c tail =>
            rw [hdrop] at hslash
            exact ⟨tail, by rw [Option.some.inj hslash]⟩
        rw [htail, splitNames_slash, ← splitNames_append, ← htail, hjoin]
      · rw [hend, splitNames_nil, List.append_nil]
        rw [hend, List.append_nil] at hjoin
        rw [hjoin]
    rw [names_cons hnil, hsplit, hname, splitNames_names _ hrest]
    rfl
termination_by path.length

/-- A step to a path with one slash more: in front, after a slash, or at the end. -/
inductive MoreSlashes : CString → CString → Prop
  | leading (path : CString) : MoreSlashes path (slash :: path)
  | repeated (path sub : CString) : MoreSlashes (path ++ slash :: sub) (path ++ slash :: slash :: sub)
  | trailing (path : CString) : MoreSlashes path (path ++ [slash])

theorem MoreSlashes.splitNames {path path' : CString} (h : MoreSlashes path path') :
    splitNames path' = CString.splitNames path := by
  cases h with
  | leading => exact splitNames_slash path
  | repeated path sub => rw [splitNames_append, splitNames_append, splitNames_slash]
  | trailing => rw [splitNames_append, splitNames_nil, List.append_nil]

theorem MoreSlashes.nonzero {path path' : CString} (h : MoreSlashes path path')
    (h0 : ∀ c ∈ path, c ≠ 0#8) : ∀ c ∈ path', c ≠ 0#8 := by
  have hslash : slash ≠ 0#8 := by decide
  cases h with
  | leading => simpa [hslash] using h0
  | repeated path sub =>
    intro c hc
    refine h0 c ?_
    simp only [List.mem_append, List.mem_cons] at hc ⊢
    tauto
  | trailing =>
    intro c hc
    rcases List.mem_append.mp hc with hold | hnew
    · exact h0 c hold
    · rw [List.mem_singleton.mp hnew]
      exact hslash

end Split

end CString

namespace Vfs

open CString (slash splitNames)

/-- The nodes that have children; in the trees of the kernel, those of type `Directory`. -/
def Directory (s : Vfs) (c : Nat) : Prop :=
  ∃ n map, s.nodes.cell c = some n ∧ n.children = some map

variable {s : Vfs} {m : Memory}

theorem Proper.directory (h : Proper s) {c : Nat} {n : Node} (hn : s.nodes.cell c = some n)
    (hdir : n.type = .directory) : s.Directory c := by
  rcases h.children hn with ⟨⟨map, hmap⟩, -⟩ | ⟨-, hfile⟩
  · exact ⟨n, map, hn, hmap⟩
  · exact absurd hdir hfile

/-- The loop over the copy does what the loop over the string does, which takes the components from it
without changing it. -/
theorem tokenLoop_eq {fuel turns turns' parent p : Nat} {path : CString} (h : CString.At m p path)
    (hf : path.length ≤ fuel) (ht : path.length ≤ turns) (ht' : path.length ≤ turns') :
    s.tokenLoop fuel turns m parent p = s.getNodeLoop turns' parent path := by
  induction turns generalizing m p path parent turns' with
  | zero =>
    obtain rfl : path = [] := List.eq_nil_of_length_eq_zero (by omega)
    have hend : m p = 0#8 := h
    rw [tokenLoop, if_pos hend]
    cases turns' with
    | zero => rfl
    | succ turns' => rw [getNodeLoop, if_pos rfl]
  | succ turns ih =>
    by_cases hnil : path = []
    · subst hnil
      have hend : m p = 0#8 := h
      rw [tokenLoop, if_pos hend]
      cases turns' with
      | zero => rfl
      | succ turns' => rw [getNodeLoop, if_pos rfl]
    · have hlt := CString.rest_length hnil
      obtain ⟨turns', rfl⟩ : ∃ k, turns' = k + 1 := ⟨turns' - 1, by omega⟩
      have hsome : ¬m p = 0#8 := by
        obtain ⟨c, cs, rfl⟩ := List.exists_cons_of_ne_nil hnil
        rw [h.1]
        exact h.2.1
      obtain ⟨hskip, hbehind⟩ := CString.skipName_eq h hf
      have hsub : (path.dropWhile (· != slash)).length ≤ fuel :=
        (List.dropWhile_sublist (· != slash)).length_le.trans hf
      obtain ⟨m', q, hcut, hrest, hsame, hend⟩ := CString.cutSlashes_eq hbehind hsub
      have hname : CString.At m' p (CString.component path) :=
        h.name hsame (hend (CString.dropWhile_name path))
      have hread : CString.atAddress m' fuel p = .ok (CString.component path) :=
        hname.read ((List.takeWhile_sublist (· != slash)).length_le.trans hf)
      rw [tokenLoop, if_neg hsome, getNodeLoop, if_neg hnil, hskip, Except.ok_bind, hcut, Except.ok_bind]
      cases habove : s.nodes.read (some parent) with
      | error trap => rfl
      | ok above =>
        simp only [Except.ok_bind]
        cases above.children with
        | none => rfl
        | some map =>
          simp only [hread, Except.ok_bind]
          cases map.get (CString.component path) with
          | none => rfl
          | some node => exact ih hrest (by omega) (by omega) (by omega)

/-- With enough turns, `get_node` over memory is `get_node` over strings. -/
theorem getNodeAt_eq (s : Vfs) (m : Memory) {fuel : Nat} (a : Nat) {path : CString}
    (h0 : ∀ c ∈ path, c ≠ 0#8) (hf : path.length ≤ fuel) : s.getNodeAt fuel m a path = s.getNode path := by
  unfold getNodeAt getNode
  cases s.rootMountpoint with
  | none => rfl
  | some root =>
    obtain ⟨p, hskip, hat⟩ := CString.skipSlashes_eq (CString.strdup_at m a h0) hf
    have hlen := (List.dropWhile_sublist (· == slash) (l := path)).length_le
    simp only [hskip, Except.ok_bind]
    exact tokenLoop_eq hat (by omega) (by omega) hlen

theorem foldlM_walk (s : Vfs) (a : Nat) (names : List CString) : names.foldlM s.child a = s.walk a names := by
  induction names generalizing a with
  | nil => rfl
  | cons name names ih =>
    rw [List.foldlM_cons, walk]
    congr 1
    funext c
    exact ih c

/-- Below directories the loop of `get_node` does not fault, and is the walk along the names. -/
theorem getNodeLoop_eq {turns a : Nat} {path : CString}
    (h : ∀ front, front <+: CString.components turns path → front ≠ CString.components turns path →
      ∀ c, s.walk a front = some c → s.Directory c) :
    s.getNodeLoop turns a path = .ok (s.walk a (CString.components turns path)) := by
  induction turns generalizing a path with
  | zero => rfl
  | succ turns ih =>
    rw [CString.components] at h ⊢
    by_cases hnil : path = []
    · rw [getNodeLoop, if_pos hnil, if_pos hnil]
      rfl
    · rw [if_neg hnil] at h ⊢
      obtain ⟨n, map, hn, hmap⟩ := h [] (List.nil_prefix) (List.cons_ne_nil _ _).symm a rfl
      have hchild : s.child a (CString.component path) = map.get (CString.component path) := by
        rw [child_of_cell hn, hmap, Option.bind_some]
      rw [getNodeLoop, if_neg hnil, CellStore.read_live hn, Except.ok_bind, hmap, walk, hchild]
      simp only
      cases hget : map.get (CString.component path) with
      | none => rfl
      | some c =>
        rw [Option.bind_some]
        refine ih fun front hfront hproper d hd => ?_
        refine h (CString.component path :: front) (List.cons_prefix_cons.mpr ⟨rfl, hfront⟩)
          (fun he => hproper (List.cons.inj he).2) d ?_
        rw [walk, hchild, hget]
        exact hd

theorem namesOf_splitNames (path : CString) : namesOf path = splitNames path := by
  have hrelative : CString.Relative (path.dropWhile (· == slash)) := by
    intro he
    have hkeep := List.head?_dropWhile_not (· == slash) path
    rw [he] at hkeep
    simp at hkeep
  rw [namesOf_eq, ← CString.splitNames_names _ hrelative, CString.splitNames_dropWhile]

/-- The node that a path names: the left fold of the children's `get` over its names. -/
def fold (s : Vfs) (path : CString) : Option Nat :=
  s.rootMountpoint.bind fun root => (splitNames path).foldlM s.child root

/-- Whatever a proper part of the names leads to is a directory. -/
def BelowDirectories (s : Vfs) (path : CString) : Prop :=
  ∀ root, s.rootMountpoint = some root → ∀ front, front <+: splitNames path → front ≠ splitNames path →
    ∀ c, front.foldlM s.child root = some c → s.Directory c

theorem getNode_eq {path : CString} (h : s.BelowDirectories path) : s.getNode path = .ok (s.fold path) := by
  unfold getNode fold
  cases hroot : s.rootMountpoint with
  | none => rfl
  | some root =>
    have hnames : CString.components path.length (path.dropWhile (· == slash)) = splitNames path :=
      namesOf_splitNames path
    rw [Option.bind_some, foldlM_walk, ← hnames]
    refine getNodeLoop_eq fun front hfront hproper c hc => ?_
    rw [hnames] at hfront hproper
    exact h root hroot front hfront hproper c ((foldlM_walk s root front).trans hc)

/-- For every path and every tree with directories along it, `get_node` terminates with the fold over
the names, for the path and for every path with more slashes. -/
theorem getNodeAt_fold {path : CString} (h0 : ∀ c ∈ path, c ≠ 0#8) (h : s.BelowDirectories path) :
    (∀ m a fuel, path.length ≤ fuel → s.getNodeAt fuel m a path = .ok (s.fold path)) ∧
      ∀ path', Relation.ReflTransGen CString.MoreSlashes path path' →
        ∀ m a fuel, path'.length ≤ fuel → s.getNodeAt fuel m a path' = .ok (s.fold path) := by
  have hmore : ∀ path', Relation.ReflTransGen CString.MoreSlashes path path' →
      splitNames path' = splitNames path ∧ ∀ c ∈ path', c ≠ 0#8 := by
    intro path' hstar
    induction hstar with
    | refl => exact ⟨rfl, h0⟩
    | tail _ hstep ih => exact ⟨hstep.splitNames.trans ih.1, hstep.nonzero ih.2⟩
  have hall : ∀ path', Relation.ReflTransGen CString.MoreSlashes path path' →
      ∀ m a fuel, path'.length ≤ fuel → s.getNodeAt fuel m a path' = .ok (s.fold path) := by
    intro path' hstar m a fuel hf
    obtain ⟨hnames, hzero⟩ := hmore path' hstar
    have hbelow : s.BelowDirectories path' := by
      unfold BelowDirectories
      rw [hnames]
      exact h
    rw [getNodeAt_eq s m a hzero hf, getNode_eq hbelow, fold, fold, hnames]
  exact ⟨hall path .refl, hall⟩

/-- The directory `a` in the directory `a`, and the path `a/a` with slashes in front and between. -/
theorem getNodeAt_nested : ∃ s : Vfs, s.Built (fun _ => 0#8) ∧ s.fold [97#8, 47#8, 97#8] = some 2 ∧
    ∀ m a, s.getNodeAt 5 m a [47#8, 97#8, 47#8, 47#8, 97#8] = .ok (s.fold [97#8, 47#8, 97#8]) := by
  obtain ⟨s, hs⟩ : ∃ s, Vfs.new.mount.create (fun _ => 0#8) [97#8, 47#8, 97#8] .directory =
      .ok (some 2, s) := ⟨_, rfl⟩
  have hbuilt : s.Built (fun _ => 0#8) := .create (.mount .new) hs
  cases hs
  refine ⟨_, hbuilt, by decide, fun m a => ?_⟩
  have hzero : ∀ c ∈ ([97#8, 47#8, 97#8] : CString), c ≠ 0#8 := by decide
  refine (getNodeAt_fold hzero ?_).2 _ ?_ m a 5 (by decide)
  · intro root hroot front hfront hproper c hc
    cases hroot
    have hnames : splitNames [97#8, 47#8, 97#8] = [[97#8], [97#8]] := by decide
    rw [hnames] at hfront hproper
    rw [foldlM_walk] at hc
    rcases List.prefix_cons_iff.mp hfront with rfl | ⟨below, rfl, hbelow⟩
    · cases hc
      exact ⟨_, _, rfl, rfl⟩
    · rcases List.prefix_cons_iff.mp hbelow with rfl | ⟨more, rfl, hmore⟩
      · cases hc
        exact ⟨_, _, rfl, rfl⟩
      · rw [List.prefix_nil.mp hmore] at hproper
        exact absurd rfl hproper
  · exact (Relation.ReflTransGen.single (.leading _)).tail (.repeated [47#8, 97#8] [97#8])

end Vfs

end UmbraOS
