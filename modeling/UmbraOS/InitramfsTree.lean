import Mathlib.Data.List.Induction
import UmbraOS.InitramfsArchive
import UmbraOS.VfsShape

namespace UmbraOS

namespace CString

theorem components_eq_nil {turns : Nat} {path : CString} (hturns : path.length ≤ turns)
    (h : components turns path = []) : path = [] := by
  cases turns with
  | zero => exact List.eq_nil_of_length_eq_zero (Nat.le_zero.mp hturns)
  | succ turns =>
    by_contra hne
    rw [components, if_neg hne] at h
    cases h

end CString

namespace Vfs

open StringHashMap (hashKey)

theorem walk_append (s : Vfs) (a : Nat) (xs ys : List CString) :
    s.walk a (xs ++ ys) = (s.walk a xs).bind fun c => s.walk c ys := by
  induction xs generalizing a with
  | nil => rfl
  | cons x xs ih =>
    rw [List.cons_append, walk, walk]
    cases s.child a x with
    | none => rfl
    | some b => exact ih b

theorem walk_concat {s : Vfs} {a c : Nat} {pre : List CString} (h : s.walk a pre = some c)
    (last : CString) : s.walk a (pre ++ [last]) = s.child c last := by
  rw [walk_append, h, Option.bind_some, walk]
  cases s.child c last with
  | none => rfl
  | some d => rfl

theorem createLoop_nil (literal : Nat → Byte) (type : NodeType) (turns : Nat) (s : Vfs) (a : Nat) :
    createLoop literal type turns s a [] = .ok (a, s) := by
  cases turns with
  | zero => rfl
  | succ turns => rw [createLoop, if_pos rfl]

/-- Where all components but the last one are there, only the last one may be made. -/
theorem createLoop_last {literal : Nat → Byte} {type : NodeType} {turns a c : Nat} {s : Vfs}
    {n : Node} {path last : CString} {pre : List CString} (hturns : path.length ≤ turns)
    (hpath : CString.components turns path = pre ++ [last]) (hwalk : s.walk a pre = some c)
    (hc : s.nodes.cell c = some n) : createLoop literal type turns s a path =
      match s.child c last with
      | some d => .ok (d, s)
      | none => s.addChild c last type := by
  induction turns generalizing a path pre with
  | zero =>
    rw [CString.components] at hpath
    exact absurd hpath (by simp)
  | succ turns ih =>
    have hne : path ≠ [] := by
      rintro rfl
      rw [CString.components, if_pos rfl] at hpath
      exact absurd hpath (by simp)
    have hrest : (CString.rest path).length ≤ turns := by
      have := CString.rest_length hne
      omega
    rw [CString.components, if_neg hne] at hpath
    cases pre with
    | nil =>
      obtain ⟨hname, hnil⟩ := List.cons.inj hpath
      have hend := CString.components_eq_nil hrest hnil
      obtain rfl := Option.some.inj hwalk
      rw [← hname]
      cases hchild : s.child a (CString.component path) with
      | some d => rw [createLoop_found hne hc hchild, hend, createLoop_nil]
      | none =>
        have hempty : CString.strcmp [] literal = true := rfl
        rw [createLoop_missing hne hc hchild, hend, if_pos hempty]
        simp only [createLoop_nil]
        cases s.addChild a (CString.component path) type with
        | ok result => rfl
        | error trap => rfl
    | cons x pre =>
      obtain ⟨hname, hmore⟩ := List.cons.inj hpath
      obtain ⟨b, hb, hwalk⟩ := Option.bind_eq_some_iff.mp hwalk
      rw [← hname] at hb
      obtain ⟨above, _, habove, _⟩ := child_eq_some.mp hb
      rw [createLoop_found hne habove hb]
      exact ih hrest hmore hwalk

/-- The known paths lead to nodes of their own, and every child has a known path, up to the hash
of its name. -/
structure Skeleton (s : Vfs) (r : Nat) (known : List CString → Prop) : Prop where
  root : s.rootMountpoint = some r
  walk : ∀ path, known path → ∃ c n, s.walk r path = some c ∧ s.nodes.cell c = some n
  apart : ∀ p q c, known p → known q → s.walk r p = some c → s.walk r q = some c → p = q
  child : ∀ path c name d, known path → s.walk r path = some c → s.child c name = some d →
    ∃ key, hashKey key = hashKey name ∧ known (path ++ [key])

theorem Skeleton.congr {s : Vfs} {r : Nat} {known known' : List CString → Prop}
    (h : Skeleton s r known) (hsame : ∀ path, known' path ↔ known path) : Skeleton s r known' := by
  have heq : known' = known := funext fun path => propext (hsame path)
  rw [heq]
  exact h

section Skeleton

variable {s : Vfs} {r c : Nat} {above : Node} {known : List CString → Prop} {type : NodeType}
  {parent : List CString} {last : CString} {map : StringHashMap 256 Nat}

/-- A known path gives what `create` finds. -/
theorem Skeleton.found (h : Skeleton s r known) (hc : s.walk r parent = some c)
    (hpath : known (parent ++ [last])) : ∃ d n, s.child c last = some d ∧
      s.walk r (parent ++ [last]) = some d ∧ s.nodes.cell d = some n := by
  obtain ⟨d, n, hd, hn⟩ := h.walk _ hpath
  refine ⟨d, n, ?_, hd, hn⟩
  rw [walk_concat hc] at hd
  exact hd

/-- Below a directory, a path that is not known is free if no sibling has the hash. -/
theorem Skeleton.free (h : Skeleton s r known) (hparent : known parent)
    (hc : s.walk r parent = some c) (hnew : ¬known (parent ++ [last]))
    (hhash : ∀ key, known (parent ++ [key]) → hashKey key = hashKey last → key = last) :
    s.child c last = none := by
  cases hchild : s.child c last with
  | none => rfl
  | some d =>
    obtain ⟨key, he, hkey⟩ := h.child parent c last d hparent hc hchild
    rw [hhash key hkey he] at hkey
    exact absurd hkey hnew

theorem withChild_child (hp : s.nodes.cell c = some above) (hmap : above.children = some map)
    (a : Nat) (key : CString) : (s.withChild c last type map).child a key = (s.child a key).or
      (if a = c ∧ hashKey last = hashKey key then some s.nodes.next else none) := by
  have hadd : s.addChild c last type = .ok (s.nodes.next, s.withChild c last type map) := by
    rw [addChild_eq last type hp, hmap]
  exact addChild_child hp hadd a key

theorem withChild_extends (hp : s.nodes.cell c = some above) (hmap : above.children = some map) :
    Extends s (s.withChild c last type map) := by
  intro a name d hd
  rw [withChild_child hp hmap, hd, Option.some_or]

/-- A known path leads where it led before. -/
theorem Skeleton.walk_back {s' : Vfs} (h : Skeleton s r known) (hext : Extends s s')
    {path : List CString} {d : Nat} (hpath : known path) (hd : s'.walk r path = some d) :
    s.walk r path = some d ∧ d < s.nodes.next := by
  obtain ⟨d', n, hd', hn⟩ := h.walk path hpath
  obtain rfl := Option.some.inj ((hext.walk hd').symm.trans hd)
  exact ⟨hd', CellStore.lt_next hn⟩

/-- A new child makes one more path known, which leads to the new node. -/
theorem Skeleton.withChild (h : Skeleton s r known) (hparent : known parent)
    (hc : s.walk r parent = some c) (hp : s.nodes.cell c = some above)
    (hmap : above.children = some map) (hfree : s.child c last = none) :
    Skeleton (s.withChild c last type map) r (fun path => known path ∨ path = parent ++ [last]) ∧
      (s.withChild c last type map).walk r (parent ++ [last]) = some s.nodes.next := by
  have hchild : ∀ a key, (s.withChild c last type map).child a key = (s.child a key).or
      (if a = c ∧ hashKey last = hashKey key then some s.nodes.next else none) :=
    withChild_child hp hmap
  have hext : Extends s (s.withChild c last type map) := withChild_extends hp hmap
  have hnew : (s.withChild c last type map).walk r (parent ++ [last]) = some s.nodes.next := by
    rw [walk_concat (hext.walk hc), hchild, hfree, Option.none_or, if_pos ⟨rfl, rfl⟩]
  have hold : ∀ path d, known path → (s.withChild c last type map).walk r path = some d →
      s.walk r path = some d ∧ d < s.nodes.next := fun path d => h.walk_back hext
  refine ⟨⟨h.root, ?_, ?_, ?_⟩, hnew⟩
  · intro path hpath
    rcases hpath with hpath | rfl
    · obtain ⟨d, n, hd, hn⟩ := h.walk path hpath
      obtain ⟨children, hn'⟩ := withChild_old hp hn
      exact ⟨d, _, hext.walk hd, hn'⟩
    · exact ⟨_, _, hnew, withChild_new hp⟩
  · intro p q d hp hq hpd hqd
    rcases hp with hp | rfl
    · obtain ⟨hpd, hlt⟩ := hold p d hp hpd
      rcases hq with hq | rfl
      · exact h.apart p q d hp hq hpd (hold q d hq hqd).1
      · obtain rfl := Option.some.inj (hnew.symm.trans hqd)
        omega
    · rcases hq with hq | rfl
      · obtain ⟨hqd, hlt⟩ := hold q d hq hqd
        obtain rfl := Option.some.inj (hnew.symm.trans hpd)
        omega
      · rfl
  · intro path d name e hpath hd he
    rcases hpath with hpath | rfl
    · obtain ⟨hwas, _⟩ := hold path d hpath hd
      rw [hchild] at he
      cases hbefore : s.child d name with
      | some b =>
        obtain ⟨key, hkey, hknown⟩ := h.child path d name b hpath hwas hbefore
        exact ⟨key, hkey, Or.inl hknown⟩
      | none =>
        rw [hbefore, Option.none_or] at he
        split at he
        next hand =>
          obtain ⟨rfl, hhash⟩ := hand
          obtain rfl := h.apart path parent d hpath hparent hwas hc
          exact ⟨last, hhash, Or.inr rfl⟩
        next => cases he
    · obtain rfl := Option.some.inj (hnew.symm.trans hd)
      rw [withChild_childless hp] at he
      cases he

end Skeleton

/-- The tree with other contents of the file `c`. -/
def setData (s : Vfs) (c : Nat) (fileData : FileData) (fileSize : Nat) : Vfs :=
  { s with nodes := s.nodes.adjust c fun n => { n with fileData, fileSize } }

theorem setData_child (s : Vfs) (c : Nat) (fileData : FileData) (fileSize : Nat) (a : Nat)
    (name : CString) : (s.setData c fileData fileSize).child a name = s.child a name := by
  unfold child setData
  simp only [CellStore.adjust_cell]
  split
  next => cases s.nodes.cell a <;> rfl
  next => rfl

theorem setData_cell {s : Vfs} {d : Nat} {n : Node} (hn : s.nodes.cell d = some n) (c : Nat)
    (fileData : FileData) (fileSize : Nat) : (s.setData c fileData fileSize).nodes.cell d =
      some (if d = c then { n with fileData, fileSize } else n) := by
  unfold setData
  simp only [CellStore.adjust_cell]
  split
  next => rw [hn, Option.map_some]
  next => exact hn

theorem setData_walk (s : Vfs) (c : Nat) (fileData : FileData) (fileSize : Nat) (a : Nat)
    (names : List CString) : (s.setData c fileData fileSize).walk a names = s.walk a names := by
  induction names generalizing a with
  | nil => rfl
  | cons name names ih =>
    rw [walk, walk, setData_child]
    exact Option.bind_congr fun b _ => ih b

theorem Skeleton.setData {s : Vfs} {r : Nat} {known : List CString → Prop} (h : Skeleton s r known)
    (c : Nat) (fileData : FileData) (fileSize : Nat) :
    Skeleton (s.setData c fileData fileSize) r known := by
  refine ⟨h.root, ?_, ?_, ?_⟩
  · intro path hpath
    obtain ⟨d, n, hd, hn⟩ := h.walk path hpath
    rw [setData_walk]
    exact ⟨d, _, hd, setData_cell hn c fileData fileSize⟩
  · intro p q d hp hq hpd hqd
    rw [setData_walk] at hpd hqd
    exact h.apart p q d hp hq hpd hqd
  · intro path d name e hpath hd he
    rw [setData_walk] at hd
    rw [setData_child] at he
    exact h.child path d name e hpath hd he

end Vfs

namespace Initramfs

open StringHashMap (hashKey)

/-- What a path stands for once the archive is extracted. -/
inductive Entry
  | file (data : List Byte)
  | directory

/-- The members that are neither regular nor directories are not extracted. -/
def Member.entry (x : Member) : Option Entry :=
  if x.typeFlag = ustarTypeNormal then some (.file x.data)
  else if x.typeFlag = ustarTypeDirectory then some .directory
  else none

def Member.path (x : Member) : List CString := CString.components x.name.length x.name

abbrev Contents := List CString → Option Entry

/-- Before the first member there is the root. -/
def Contents.root : Contents := fun path => if path = [] then some .directory else none

def Contents.add (contents : Contents) (x : Member) : Contents :=
  match x.entry with
  | none => contents
  | some e => Function.update contents x.path (some e)

/-- What the members of an archive leave, the last one of a path last. -/
def contentsOf (members : List Member) : Contents := members.foldl Contents.add Contents.root

/-- A file with the bytes `data`. -/
def IsFile (n : Node) (data : List Byte) : Prop :=
  n.type = .file ∧ n.fileSize = data.length ∧ ∃ bytes, n.fileData = .block data.length bytes ∧
    ∀ i < data.length, bytes i = data.getD i 0#8

def Entry.type : Entry → NodeType
  | .file _ => .file
  | .directory => .directory

def Entry.Describes : Entry → Node → Prop
  | .file data, n => IsFile n data
  | .directory, n => n.type = .directory ∧ n.children ≠ none

/-- The tree holds what the paths stand for. -/
structure Reflects (s : Vfs) (r : Nat) (contents : Contents) : Prop where
  top : contents [] = some .directory
  skeleton : Vfs.Skeleton s r fun path => contents path ≠ none
  describes : ∀ path e c n, contents path = some e → s.walk r path = some c →
    s.nodes.cell c = some n → e.Describes n

/-- What the members before it say of a member that is extracted as `e`. -/
structure Fits (contents : Contents) (x : Member) (e : Entry) : Prop where
  relative : x.name.head? ≠ some CString.slash
  parent : ∀ parent last, x.path = parent ++ [last] → contents parent = some .directory
  siblings : ∀ parent last, x.path = parent ++ [last] → ∀ key, contents (parent ++ [key]) ≠ none →
    hashKey key = hashKey last → key = last
  same : ∀ e', contents x.path = some e' → (e' = .directory ↔ e = .directory)

theorem Entry.Describes.type {e : Entry} {n : Node} (h : e.Describes n) : n.type = e.type := by
  cases e with
  | file data => exact h.1
  | directory => exact h.1

/-- More children change nothing of what a node stands for. -/
theorem Entry.Describes.more {e : Entry} {n n' : Node} (h : e.Describes n)
    (hsame : n' = { n with children := n'.children })
    (hmore : n.children ≠ none → n'.children ≠ none) : e.Describes n' := by
  cases e with
  | file data =>
    rw [hsame]
    exact h
  | directory =>
    refine ⟨?_, hmore h.2⟩
    rw [hsame]
    exact h.1

/-- What `create` returns for a member, and what is left of the rest of the tree. -/
structure Made (s : Vfs) (r c : Nat) (contents : Contents) (x : Member) (e : Entry) : Prop where
  skeleton : Vfs.Skeleton s r fun path => contents path ≠ none ∨ path = x.path
  walk : s.walk r x.path = some c
  node : ∃ n, s.nodes.cell c = some n ∧ n.type = e.type ∧ (e = .directory → n.children ≠ none)
  others : ∀ path e' c' n, path ≠ x.path → contents path = some e' → s.walk r path = some c' →
    s.nodes.cell c' = some n → e'.Describes n

/-- A path that was made before is found. -/
theorem Reflects.made_known {s : Vfs} {r c : Nat} {contents : Contents} {x : Member} {e e' : Entry}
    (h : Reflects s r contents) (hx : contents x.path = some e')
    (hsame : e' = .directory ↔ e = .directory) (hwalk : s.walk r x.path = some c) :
    Made s r c contents x e := by
  have hknown : contents x.path ≠ none := by
    rw [hx]
    exact Option.some_ne_none e'
  obtain ⟨d, n, hd, hn⟩ := h.skeleton.walk x.path hknown
  obtain rfl := Option.some.inj (hwalk.symm.trans hd)
  have hdescribes := h.describes x.path e' _ n hx hd hn
  refine ⟨h.skeleton.congr fun path => ?_, hwalk, ⟨n, hn, ?_, fun he => ?_⟩, ?_⟩
  · refine ⟨fun hpath => ?_, Or.inl⟩
    rcases hpath with hpath | rfl
    · exact hpath
    · exact hknown
  · rw [hdescribes.type]
    cases e with
    | directory => rw [hsame.mpr rfl]
    | file data =>
      cases e' with
      | directory => cases hsame.mp rfl
      | file data' => rfl
  · rw [hsame.mpr he] at hdescribes
    exact hdescribes.2
  · exact fun path e' c' n _ he hc hn => h.describes path e' c' n he hc hn

/-- A path that is new leads to a new node below its parent. -/
theorem Reflects.made_new {s : Vfs} {r c : Nat} {contents : Contents} {x : Member} {e : Entry}
    {above : Node} {parent : List CString} {last : CString} {map : StringHashMap 256 Nat}
    (h : Reflects s r contents) (hpath : x.path = parent ++ [last])
    (hparent : contents parent ≠ none) (hc : s.walk r parent = some c)
    (hp : s.nodes.cell c = some above) (hmap : above.children = some map)
    (hfree : s.child c last = none) :
    Made (s.withChild c last e.type map) r s.nodes.next contents x e := by
  have hmade : Vfs.Skeleton (s.withChild c last e.type map) r
      (fun path => contents path ≠ none ∨ path = parent ++ [last]) ∧
      (s.withChild c last e.type map).walk r (parent ++ [last]) = some s.nodes.next :=
    h.skeleton.withChild hparent hc hp hmap hfree
  rw [← hpath] at hmade
  refine ⟨hmade.1, hmade.2, ⟨_, Vfs.withChild_new hp, rfl, ?_⟩, ?_⟩
  · rintro rfl
    exact Option.some_ne_none _
  · intro path e' c' n _ he hc' hn
    have hknown : contents path ≠ none := by
      rw [he]
      exact Option.some_ne_none e'
    obtain ⟨hwas, hlt⟩ := h.skeleton.walk_back (Vfs.withChild_extends hp hmap) hknown hc'
    rcases Vfs.withChild_cell hp hn with ⟨rfl, _⟩ | ⟨old, ho, hsame, hchildren⟩
    · omega
    · apply (h.describes path e' c' old he hwas ho).more hsame
      intro hsome
      rcases hchildren with hkeep | ⟨_, hmore⟩
      · rw [hkeep]
        exact hsome
      · rw [hmore]
        exact Option.some_ne_none _

theorem create_eq {literal : Nat → Byte} {s : Vfs} {r : Nat} {name : CString} {type : NodeType}
    (hr : s.rootMountpoint = some r) : s.create literal name type =
      (Vfs.createLoop literal type name.length s r name).map fun result =>
        (some result.1, result.2) := by
  unfold Vfs.create
  rw [hr]
  simp only
  cases Vfs.createLoop literal type name.length s r name with
  | ok result => rfl
  | error trap => rfl

theorem Reflects.create {literal : Nat → Byte} {s : Vfs} {r : Nat} {contents : Contents}
    {x : Member} {e : Entry} (h : Reflects s r contents) (hfits : Fits contents x e) :
    ∃ c s', s.create literal x.name e.type = .ok (some c, s') ∧ Made s' r c contents x e := by
  rw [create_eq h.skeleton.root]
  rcases List.eq_nil_or_concat x.path with hnil | ⟨parent, last, hpath⟩
  · have hname := CString.components_eq_nil (le_refl x.name.length) hnil
    rw [hname, Vfs.createLoop_nil]
    have hx : contents x.path = some .directory := by
      rw [hnil]
      exact h.top
    refine ⟨r, s, rfl, h.made_known hx (hfits.same _ hx) ?_⟩
    rw [hnil]
    rfl
  · rw [List.concat_eq_append] at hpath
    have hparent := hfits.parent parent last hpath
    have hknown : contents parent ≠ none := by
      rw [hparent]
      exact Option.some_ne_none _
    obtain ⟨c, above, hc, hp⟩ := h.skeleton.walk parent hknown
    obtain ⟨_, hchildren⟩ := h.describes parent _ c above hparent hc hp
    obtain ⟨map, hmap⟩ := Option.ne_none_iff_exists'.mp hchildren
    rw [Vfs.createLoop_last (le_refl _) hpath hc hp]
    cases hx : contents x.path with
    | some e' =>
      have hlast : contents (parent ++ [last]) ≠ none := by
        rw [← hpath, hx]
        exact Option.some_ne_none e'
      obtain ⟨d, n, hd, hwalk, _⟩ := h.skeleton.found hc hlast
      rw [← hpath] at hwalk
      rw [hd]
      exact ⟨d, s, rfl, h.made_known hx (hfits.same e' hx) hwalk⟩
    | none =>
      have hnew : ¬contents (parent ++ [last]) ≠ none := by
        rw [← hpath, hx]
        exact fun hne => hne rfl
      have hfree := h.skeleton.free hknown hc hnew (hfits.siblings parent last hpath)
      rw [hfree]
      simp only
      rw [Vfs.addChild_eq last e.type hp, hmap]
      exact ⟨_, _, rfl, h.made_new hpath hknown hc hp hmap hfree⟩

theorem Contents.add_entry {contents : Contents} {x : Member} {e : Entry} (he : x.entry = some e) :
    contents.add x = Function.update contents x.path (some e) := by
  unfold Contents.add
  rw [he]

theorem add_known {contents : Contents} {x : Member} {e : Entry} (path : List CString) :
    Function.update contents x.path (some e) path ≠ none ↔ contents path ≠ none ∨ path = x.path := by
  by_cases hpath : path = x.path
  · rw [hpath, Function.update_self]
    exact iff_of_true (Option.some_ne_none e) (Or.inr rfl)
  · rw [Function.update_of_ne hpath]
    exact ⟨Or.inl, fun h => h.resolve_right hpath⟩

/-- A tree in which the new node stands for the member reflects the contents with it. -/
theorem Made.reflects {s : Vfs} {r c : Nat} {contents : Contents} {x : Member} {e : Entry}
    (h : Made s r c contents x e) (htop : contents [] = some .directory)
    (hsame : ∀ e', contents x.path = some e' → (e' = .directory ↔ e = .directory))
    (hnode : ∀ n, s.nodes.cell c = some n → e.Describes n) :
    Reflects s r (Function.update contents x.path (some e)) := by
  refine ⟨?_, h.skeleton.congr add_known, ?_⟩
  · by_cases hnil : x.path = []
    · rw [hnil] at hsame ⊢
      rw [Function.update_self, (hsame _ htop).mp rfl]
    · rw [Function.update_of_ne (Ne.symm hnil)]
      exact htop
  · intro path e' c' n he hc hn
    by_cases hpath : path = x.path
    · subst hpath
      rw [Function.update_self] at he
      obtain rfl := Option.some.inj he
      obtain rfl := Option.some.inj (h.walk.symm.trans hc)
      exact hnode n hn
    · rw [Function.update_of_ne hpath] at he
      exact h.others path e' c' n hpath he hc hn

/-- The bytes of a file are no part of the rest of the tree. -/
theorem Made.setData {s : Vfs} {r c : Nat} {contents : Contents} {x : Member} {e : Entry}
    (h : Made s r c contents x e) (fileData : FileData) (fileSize : Nat) :
    Made (s.setData c fileData fileSize) r c contents x e := by
  refine ⟨h.skeleton.setData c fileData fileSize, ?_, ?_, ?_⟩
  · rw [Vfs.setData_walk]
    exact h.walk
  · obtain ⟨n, hn, htype, hchildren⟩ := h.node
    refine ⟨_, Vfs.setData_cell hn c fileData fileSize, ?_, ?_⟩
    · rw [if_pos rfl]
      exact htype
    · rw [if_pos rfl]
      exact hchildren
  · intro path e' c' n hpath he hc hn
    rw [Vfs.setData_walk] at hc
    have hknown : contents path ≠ none ∨ path = x.path := by
      rw [he]
      exact Or.inl (Option.some_ne_none e')
    have hne : c' ≠ c := by
      rintro rfl
      exact hpath (h.skeleton.apart path x.path c' hknown (Or.inr rfl) hc h.walk)
    obtain ⟨d, old, hd, ho⟩ := h.skeleton.walk path hknown
    obtain rfl := Option.some.inj (hc.symm.trans hd)
    rw [Vfs.setData_cell ho, if_neg hne] at hn
    obtain rfl := Option.some.inj hn
    exact h.others path e' _ _ hpath he hc ho

/-- The body of the loop for a member that fits what is there. -/
theorem Reflects.addMember {literal : Nat → Byte} {m : Memory} {fuel a r : Nat} {s : Vfs}
    {contents : Contents} {x : Member} {answer : Option Memory} (h : Reflects s r contents)
    (hheader : Header m a x) (hfuel : 100 ≤ fuel) (hanswer : answer ≠ none)
    (hfits : ∀ e, x.entry = some e → Fits contents x e) :
    ∃ s', addMember literal m fuel s a (BitVec.ofNat 64 x.data.length) answer = .ok s' ∧
      Reflects s' r (contents.add x) := by
  have hname : CString.atAddress m fuel a = .ok x.name := by
    have hlength := hheader.nameLength
    exact hheader.name.read (by omega)
  unfold Initramfs.addMember
  rw [hheader.typeFlag, hname]
  simp only [Except.ok_bind]
  split
  next hregular =>
    have hentry : x.entry = some (.file x.data) := if_pos hregular
    obtain ⟨c, s₁, hcreate, hmade⟩ : ∃ c s₁, s.create literal x.name .file = .ok (some c, s₁) ∧
        Made s₁ r c contents x (.file x.data) := h.create (hfits _ hentry)
    obtain ⟨junk, rfl⟩ := Option.ne_none_iff_exists'.mp hanswer
    obtain ⟨bytes, hdata, hbytes⟩ := hheader.fileData junk
    obtain ⟨n, hn, htype, _⟩ := hmade.node
    rw [hcreate, Except.ok_bind, hdata, Except.ok_bind, CellStore.modify_live _ hn,
      hheader.size_toNat]
    refine ⟨s₁.setData c (.block x.data.length bytes) x.data.length, rfl, ?_⟩
    rw [Contents.add_entry hentry]
    apply (hmade.setData _ _).reflects h.top (hfits _ hentry).same
    intro n' hn'
    rw [Vfs.setData_cell hn, if_pos rfl] at hn'
    obtain rfl := Option.some.inj hn'
    exact ⟨htype, rfl, bytes, rfl, hbytes⟩
  next hregular =>
    split
    next hdirectory =>
      have hentry : x.entry = some .directory := by
        unfold Member.entry
        rw [if_neg hregular, if_pos hdirectory]
      obtain ⟨c, s₁, hcreate, hmade⟩ : ∃ c s₁,
          s.create literal x.name .directory = .ok (some c, s₁) ∧
            Made s₁ r c contents x .directory := h.create (hfits _ hentry)
      rw [hcreate, Except.ok_bind]
      refine ⟨s₁, rfl, ?_⟩
      rw [Contents.add_entry hentry]
      apply hmade.reflects h.top (hfits _ hentry).same
      intro n hn
      obtain ⟨n', hn', htype, hchildren⟩ := hmade.node
      obtain rfl := Option.some.inj (hn'.symm.trans hn)
      exact ⟨htype, hchildren rfl⟩
    next hdirectory =>
      have hentry : x.entry = none := by
        unfold Member.entry
        rw [if_neg hregular, if_neg hdirectory]
      refine ⟨s, rfl, ?_⟩
      unfold Contents.add
      rw [hentry]
      exact h

/-- An archive as `tar` writes it: relative names, each parent before its content, no path of a
file that is a directory too, and siblings whose names have hashes of their own. -/
structure WellFormed (members : List Member) : Prop where
  relative : ∀ x ∈ members, x.name.head? ≠ some CString.slash
  parents : ∀ before x after, members = before ++ x :: after → x.entry ≠ none →
    ∀ parent last, x.path = parent ++ [last] →
      parent = [] ∨ ∃ y ∈ before, y.entry = some .directory ∧ y.path = parent
  files : ∀ x ∈ members, ∀ data, x.entry = some (.file data) → x.path ≠ [] ∧
    ∀ y ∈ members, y.entry = some .directory → y.path ≠ x.path
  hashes : ∀ x ∈ members, ∀ y ∈ members, x.entry ≠ none → y.entry ≠ none →
    ∀ parent a b, x.path = parent ++ [a] → y.path = parent ++ [b] → hashKey a = hashKey b → a = b

theorem contentsOf_concat (members : List Member) (x : Member) :
    contentsOf (members ++ [x]) = (contentsOf members).add x := by
  unfold contentsOf
  rw [List.foldl_append]
  rfl

/-- A path stands for the member that left it there, or for the root. -/
theorem contentsOf_some {members : List Member} {path : List CString} {e : Entry}
    (h : contentsOf members path = some e) : (path = [] ∧ e = .directory) ∨
      ∃ x ∈ members, x.path = path ∧ x.entry = some e := by
  induction members using List.reverseRecOn with
  | nil =>
    have hroot : (if path = [] then some Entry.directory else none) = some e := h
    split at hroot
    next hnil => exact Or.inl ⟨hnil, (Option.some.inj hroot).symm⟩
    next => cases hroot
  | append_singleton members x ih =>
    have hbefore : contentsOf members path = some e → (path = [] ∧ e = .directory) ∨
        ∃ y ∈ members ++ [x], y.path = path ∧ y.entry = some e := by
      intro hold
      rcases ih hold with hnil | ⟨y, hy, hpath, he⟩
      · exact Or.inl hnil
      · exact Or.inr ⟨y, List.mem_append_left _ hy, hpath, he⟩
    rw [contentsOf_concat] at h
    cases hentry : x.entry with
    | none =>
      unfold Contents.add at h
      rw [hentry] at h
      exact hbefore h
    | some e' =>
      rw [Contents.add_entry hentry] at h
      by_cases hpath : path = x.path
      · rw [hpath, Function.update_self] at h
        obtain rfl := Option.some.inj h
        exact Or.inr ⟨x, List.mem_append_right _ List.mem_cons_self, hpath.symm, hentry⟩
      · rw [Function.update_of_ne hpath] at h
        exact hbefore h

theorem contentsOf_known {members : List Member} {x : Member} (hx : x ∈ members)
    (he : x.entry ≠ none) : contentsOf members x.path ≠ none := by
  induction members using List.reverseRecOn with
  | nil => cases hx
  | append_singleton members y ih =>
    rw [contentsOf_concat]
    cases hentry : y.entry with
    | none =>
      have hbefore : x ∈ members := by
        rcases List.mem_append.mp hx with hx | hx
        · exact hx
        · rw [List.mem_singleton.mp hx, hentry] at he
          exact absurd rfl he
      unfold Contents.add
      rw [hentry]
      exact ih hbefore
    | some e =>
      rw [Contents.add_entry hentry]
      apply (add_known x.path).mpr
      rcases List.mem_append.mp hx with hx | hx
      · exact Or.inl (ih hx)
      · rw [List.mem_singleton.mp hx]
        exact Or.inr rfl

theorem contentsOf_directory {members : List Member} {x : Member} (hx : x ∈ members)
    (he : x.entry = some .directory)
    (hfiles : ∀ y ∈ members, ∀ data, y.entry = some (.file data) → y.path ≠ x.path) :
    contentsOf members x.path = some .directory := by
  have hknown : contentsOf members x.path ≠ none := by
    apply contentsOf_known hx
    rw [he]
    exact Option.some_ne_none _
  obtain ⟨e, hcontents⟩ := Option.ne_none_iff_exists'.mp hknown
  rcases contentsOf_some hcontents with ⟨_, rfl⟩ | ⟨y, hy, hpath, hentry⟩
  · exact hcontents
  · cases e with
    | directory => exact hcontents
    | file data => exact absurd hpath (hfiles y hy data hentry)

/-- The last regular member of a path. -/
def lastWith (members : List Member) (path : List CString) : Option Member :=
  members.reverse.find? fun x => x.typeFlag = ustarTypeNormal ∧ x.path = path

theorem lastWith_concat (members : List Member) (x : Member) (path : List CString) :
    lastWith (members ++ [x]) path =
      if x.typeFlag = ustarTypeNormal ∧ x.path = path then some x else lastWith members path := by
  unfold lastWith
  rw [List.reverse_append, List.reverse_singleton, List.singleton_append]
  split
  next h => exact List.find?_cons_of_pos (by simpa using h)
  next h => exact List.find?_cons_of_neg (by simpa using h)

/-- The path of a file stands for the last member that has it. -/
theorem contentsOf_file {members : List Member} {path : List CString} (hne : path ≠ [])
    (hfiles : ∀ x ∈ members, x.entry = some .directory → x.path ≠ path)
    (hknown : contentsOf members path ≠ none) : ∃ x, lastWith members path = some x ∧
      contentsOf members path = some (.file x.data) := by
  induction members using List.reverseRecOn with
  | nil =>
    have hroot : contentsOf [] path = none := if_neg hne
    exact absurd hroot hknown
  | append_singleton members x ih =>
    have hbefore := ih fun y hy => hfiles y (List.mem_append_left _ hy)
    rw [contentsOf_concat] at hknown ⊢
    rw [lastWith_concat]
    by_cases hregular : x.typeFlag = ustarTypeNormal
    · have hentry : x.entry = some (.file x.data) := if_pos hregular
      rw [Contents.add_entry hentry] at hknown ⊢
      by_cases hpath : x.path = path
      · rw [if_pos ⟨hregular, hpath⟩, ← hpath, Function.update_self]
        exact ⟨x, rfl, rfl⟩
      · rw [if_neg fun h => hpath h.2]
        rw [Function.update_of_ne (Ne.symm hpath)] at hknown ⊢
        exact hbefore hknown
    · rw [if_neg fun h => hregular h.1]
      cases hentry : x.entry with
      | none =>
        unfold Contents.add at hknown ⊢
        rw [hentry] at hknown ⊢
        exact hbefore hknown
      | some e =>
        have hpath : x.path ≠ path := by
          apply hfiles x (List.mem_append_right _ List.mem_cons_self)
          rw [hentry]
          cases e with
          | directory => rfl
          | file data =>
            unfold Member.entry at hentry
            rw [if_neg hregular] at hentry
            split at hentry <;> cases hentry
        rw [Contents.add_entry hentry] at hknown ⊢
        rw [Function.update_of_ne (Ne.symm hpath)] at hknown ⊢
        exact hbefore hknown

theorem WellFormed.top {before after : List Member} (h : WellFormed (before ++ after)) :
    contentsOf before [] = some .directory := by
  induction before using List.reverseRecOn generalizing after with
  | nil => rfl
  | append_singleton before x ih =>
    rw [List.append_assoc] at h
    have hbefore := ih h
    rw [contentsOf_concat]
    cases hentry : x.entry with
    | none =>
      unfold Contents.add
      rw [hentry]
      exact hbefore
    | some e =>
      rw [Contents.add_entry hentry]
      by_cases hnil : x.path = []
      · rw [hnil, Function.update_self]
        cases e with
        | directory => rfl
        | file data =>
          have hx : x ∈ before ++ ([x] ++ after) := by simp
          exact absurd hnil (h.files x hx data hentry).1
      · rw [Function.update_of_ne (Ne.symm hnil)]
        exact hbefore

/-- Each member fits the members before it. -/
theorem WellFormed.fits {before after : List Member} {x : Member} {e : Entry}
    (h : WellFormed (before ++ x :: after)) (he : x.entry = some e) :
    Fits (contentsOf before) x e := by
  have hx : x ∈ before ++ x :: after := List.mem_append_right _ List.mem_cons_self
  have hmem : ∀ y ∈ before, y ∈ before ++ x :: after := fun y hy => List.mem_append_left _ hy
  have hsome : x.entry ≠ none := by
    rw [he]
    exact Option.some_ne_none e
  refine ⟨h.relative x hx, ?_, ?_, ?_⟩
  · intro parent last hpath
    rcases h.parents before x after rfl hsome parent last hpath with rfl | ⟨y, hy, hdir, rfl⟩
    · exact h.top
    · apply contentsOf_directory hy hdir
      intro z hz data hfile heq
      exact (h.files z (hmem z hz) data hfile).2 y (hmem y hy) hdir heq.symm
  · intro parent last hpath key hkey hhash
    obtain ⟨e', he'⟩ := Option.ne_none_iff_exists'.mp hkey
    rcases contentsOf_some he' with ⟨hnil, _⟩ | ⟨y, hy, hypath, hentry⟩
    · exact absurd hnil (by simp)
    · have hysome : y.entry ≠ none := by
        rw [hentry]
        exact Option.some_ne_none e'
      exact h.hashes y (hmem y hy) x hx hysome hsome parent key last hypath hpath hhash
  · intro e' he'
    rcases contentsOf_some he' with ⟨hnil, rfl⟩ | ⟨y, hy, hypath, hentry⟩
    · refine iff_of_true rfl ?_
      cases e with
      | directory => rfl
      | file data => exact absurd hnil (h.files x hx data he).1
    · cases e with
      | directory =>
        refine iff_of_true ?_ rfl
        cases e' with
        | directory => rfl
        | file data => exact absurd hypath.symm ((h.files y (hmem y hy) data hentry).2 x hx he)
      | file data =>
        refine iff_of_false ?_ fun hcases => Entry.noConfusion hcases
        rintro rfl
        exact (h.files x hx data he).2 y (hmem y hy) hentry hypath

/-- The loop extracts the rest of an archive. -/
theorem Reflects.initLoop {literal : Nat → Byte} {m : Memory} {answers : Nat → Option Memory}
    {fuel turns a r : Nat} {s : Vfs} {before rest : List Member}
    (h : Reflects s r (contentsOf before)) (hwf : WellFormed (before ++ rest))
    (harchive : Archive m a rest) (hfuel : 100 ≤ fuel) (hanswers : ∀ i, answers i ≠ none)
    (hturns : rest.length ≤ turns) : ∃ s', initLoop literal m answers fuel turns s a = .ok s' ∧
      Reflects s' r (contentsOf (before ++ rest)) := by
  induction rest generalizing before turns s a with
  | nil =>
    rw [harchive.initLoop_nil, List.append_nil]
    exact ⟨s, rfl, h⟩
  | cons x rest ih =>
    cases turns with
    | zero => exact absurd hturns (Nat.not_succ_le_zero _)
    | succ turns =>
      obtain ⟨s₁, hadd, hreflects⟩ : ∃ s₁, Initramfs.addMember literal m fuel s a
          (BitVec.ofNat 64 x.data.length) (answers turns) = .ok s₁ ∧
            Reflects s₁ r ((contentsOf before).add x) :=
        h.addMember harchive.1 hfuel (hanswers turns) fun e he => hwf.fits he
      rw [harchive.initLoop_cons hfuel, hadd, Except.ok_bind]
      rw [← contentsOf_concat] at hreflects
      have hsplit : before ++ x :: rest = before ++ [x] ++ rest := by simp
      rw [hsplit] at hwf ⊢
      exact ih hreflects hwf harchive.2.2 (Nat.le_of_succ_le_succ hturns)

/-- The root is a directory without children. -/
def Mounted (s : Vfs) (r : Nat) : Prop :=
  s.rootMountpoint = some r ∧ ∃ n, s.nodes.cell r = some n ∧ n.type = .directory ∧
    n.children = some StringHashMap.new

theorem mount_mounted : Mounted Vfs.new.mount 0 := ⟨rfl, _, rfl, rfl, rfl⟩

theorem Mounted.reflects {s : Vfs} {r : Nat} (h : Mounted s r) : Reflects s r (contentsOf []) := by
  obtain ⟨hr, n, hn, hdir, hchildren⟩ := h
  have hknown : ∀ path, contentsOf [] path ≠ none → path = [] := by
    intro path hpath
    by_contra hne
    exact hpath (if_neg hne)
  have hnone : ∀ name, s.child r name = none := by
    intro name
    rw [Vfs.child_of_cell hn, hchildren]
    rfl
  refine ⟨rfl, ⟨hr, ?_, ?_, ?_⟩, ?_⟩
  · intro path hpath
    rw [hknown path hpath]
    exact ⟨r, n, rfl, hn⟩
  · intro p q c hp hq _ _
    rw [hknown p hp, hknown q hq]
  · intro path c name d hpath hc hd
    rw [hknown path hpath] at hc
    obtain rfl := Option.some.inj hc
    rw [hnone] at hd
    cases hd
  · intro path e c m he hc hm
    have hnil : path = [] := by
      apply hknown
      rw [he]
      exact Option.some_ne_none e
    subst hnil
    obtain rfl := Option.some.inj he
    obtain rfl := Option.some.inj hc
    obtain rfl := Option.some.inj (hn.symm.trans hm)
    refine ⟨hdir, ?_⟩
    rw [hchildren]
    exact Option.some_ne_none _

/-- A relative name is looked up as it is. -/
theorem Reflects.getNode {s : Vfs} {r : Nat} {contents : Contents} (h : Reflects s r contents)
    {x : Member} (hrelative : x.name.head? ≠ some CString.slash) {e : Entry}
    (he : contents x.path = some e) : ∃ c n, s.getNode x.name = .ok (some c) ∧
      s.nodes.cell c = some n ∧ e.Describes n := by
  have hknown : contents x.path ≠ none := by
    rw [he]
    exact Option.some_ne_none e
  obtain ⟨c, n, hc, hn⟩ := h.skeleton.walk x.path hknown
  have hname : x.name.dropWhile (· == CString.slash) = x.name := by
    cases hcase : x.name with
    | nil => rfl
    | cons b bs =>
      rw [hcase] at hrelative
      apply List.dropWhile_cons_of_neg
      intro hb
      exact hrelative (congrArg some (by simpa using hb))
  refine ⟨c, n, ?_, hn, h.describes x.path e c n he hc hn⟩
  unfold Vfs.getNode
  rw [h.skeleton.root, hname]
  exact Vfs.getNodeLoop_walk.mpr hc

/-- Once an archive is extracted, the name of each regular member gives a file with the bytes of
the last one of that name, and the name of each directory a directory. -/
theorem init_extracts {literal : Nat → Byte} {m : Memory} {answers : Nat → Option Memory}
    {fuel a r : Nat} {s : Vfs} {members : List Member} (hmounted : Mounted s r)
    (harchive : Archive m a members) (hwf : WellFormed members) (hanswers : ∀ i, answers i ≠ none)
    (hfuel : 100 ≤ fuel) (hturns : members.length ≤ fuel) :
    ∃ s', init literal m answers fuel s a = .ok s' ∧
      (∀ x ∈ members, x.typeFlag = ustarTypeNormal → ∃ y c n, lastWith members x.path = some y ∧
        s'.getNode x.name = .ok (some c) ∧ s'.nodes.cell c = some n ∧ IsFile n y.data) ∧
      ∀ x ∈ members, x.typeFlag = ustarTypeDirectory → ∃ c n, s'.getNode x.name = .ok (some c) ∧
        s'.nodes.cell c = some n ∧ n.type = .directory := by
  obtain ⟨s', hinit, hreflects⟩ : ∃ s', init literal m answers fuel s a = .ok s' ∧
      Reflects s' r (contentsOf members) :=
    hmounted.reflects.initLoop hwf harchive hfuel hanswers hturns
  refine ⟨s', hinit, fun x hx hregular => ?_, fun x hx hdirectory => ?_⟩
  · have hentry : x.entry = some (.file x.data) := if_pos hregular
    have hsome : x.entry ≠ none := by
      rw [hentry]
      exact Option.some_ne_none _
    obtain ⟨hne, hfiles⟩ := hwf.files x hx x.data hentry
    obtain ⟨y, hlast, hcontents⟩ := contentsOf_file hne hfiles (contentsOf_known hx hsome)
    obtain ⟨c, n, hget, hn, hfile⟩ := hreflects.getNode (hwf.relative x hx) hcontents
    exact ⟨y, c, n, hlast, hget, hn, hfile⟩
  · have hentry : x.entry = some .directory := by
      have hother : ¬x.typeFlag = ustarTypeNormal := by
        rw [hdirectory]
        decide
      unfold Member.entry
      rw [if_neg hother, if_pos hdirectory]
    have hcontents := contentsOf_directory hx hentry fun y hy data hfile heq =>
      (hwf.files y hy data hfile).2 x hx hentry heq.symm
    obtain ⟨c, n, hget, hn, hdir, _⟩ := hreflects.getNode (hwf.relative x hx) hcontents
    exact ⟨c, n, hget, hn, hdir⟩

/-- Memory with some bytes set and zeros elsewhere. -/
def image (bytes : List (Nat × Byte)) : Memory := fun x =>
  ((bytes.find? fun p => p.1 = x).map Prod.snd).getD 0#8

/-- The archive of a directory `d/` and a file `d/f` with two bytes, at 4096. -/
def smallBytes : List (Nat × Byte) :=
  [(4096, 100#8), (4097, 47#8), (4220, 48#8), (4252, 53#8), (4353, 117#8), (4354, 115#8),
    (4355, 116#8), (4356, 97#8), (4357, 114#8), (4608, 100#8), (4609, 47#8), (4610, 102#8),
    (4732, 50#8), (4764, 48#8), (4865, 117#8), (4866, 115#8), (4867, 116#8), (4868, 97#8),
    (4869, 114#8), (5120, 104#8), (5121, 105#8)]

def smallArchive : Memory := image smallBytes

def memberD : Member := ⟨[100#8, 47#8], [48#8], 53#8, []⟩

def memberF : Member := ⟨[100#8, 47#8, 102#8], [50#8], 48#8, [104#8, 105#8]⟩

theorem octalDigits_singleton {c : Byte} (h : 48 ≤ c.toNat ∧ c.toNat ≤ 55) : OctalDigits [c] := by
  intro d hd
  rw [List.mem_singleton.mp hd]
  exact h

theorem memberD_header : Header smallArchive 4096 memberD where
  name := ⟨rfl, by decide, rfl, by decide, rfl⟩
  nameLength := by simp [memberD]
  size := ⟨rfl, by decide, rfl⟩
  sizeLength := by simp [memberD]
  octal := octalDigits_singleton (by decide)
  value := rfl
  typeFlag := rfl
  magic := by decide
  data := fun i hi => absurd hi (Nat.not_lt_zero i)

theorem memberF_header : Header smallArchive 4608 memberF where
  name := ⟨rfl, by decide, rfl, by decide, rfl, by decide, rfl⟩
  nameLength := by simp [memberF]
  size := ⟨rfl, by decide, rfl⟩
  sizeLength := by simp [memberF]
  octal := octalDigits_singleton (by decide)
  value := rfl
  typeFlag := rfl
  magic := by decide
  data := by
    intro i hi
    match i with
    | 0 => rfl
    | 1 => rfl
    | i + 2 => exact absurd hi (by simp [memberF])

theorem image_outside {bytes : List (Nat × Byte)} {x : Nat} (h : ∀ p ∈ bytes, p.1 ≠ x) :
    image bytes x = 0#8 := by
  have hnone : bytes.find? (fun p => p.1 = x) = none := by
    rw [List.find?_eq_none]
    intro p hp
    simpa using h p hp
  unfold image
  rw [hnone]
  rfl

theorem smallArchive_archive : Archive smallArchive 4096 [memberD, memberF] := by
  have hD : memberD.behind 4096 = 4608 := rfl
  have hF : memberF.behind 4608 = 5632 := rfl
  unfold Archive Archive Archive
  rw [hD, hF]
  refine ⟨memberD_header, by omega, memberF_header, by omega, fun i hi => ?_⟩
  have hlow : ∀ p ∈ smallBytes, p.1 < 5632 := by decide
  apply image_outside
  intro p hp
  have := hlow p hp
  omega

theorem smallArchive_wellFormed : WellFormed [memberD, memberF] := by
  have hmem : ∀ x ∈ [memberD, memberF], x = memberD ∨ x = memberF := by simp
  have hpathD : ∀ parent last, memberD.path = parent ++ [last] → parent = [] ∧ last = [100#8] := by
    intro parent last hpath
    have hsplit : [] ++ [[100#8]] = parent ++ [last] := hpath
    obtain ⟨hparent, hlast⟩ := List.append_inj' hsplit rfl
    exact ⟨hparent.symm, (List.cons.inj hlast).1.symm⟩
  have hpathF : ∀ parent last, memberF.path = parent ++ [last] →
      parent = [[100#8]] ∧ last = [102#8] := by
    intro parent last hpath
    have hsplit : [[100#8]] ++ [[102#8]] = parent ++ [last] := hpath
    obtain ⟨hparent, hlast⟩ := List.append_inj' hsplit rfl
    exact ⟨hparent.symm, (List.cons.inj hlast).1.symm⟩
  refine ⟨?_, ?_, ?_, ?_⟩
  · intro x hx
    rcases hmem x hx with rfl | rfl <;> decide
  · intro before x after hsplit _ parent last hpath
    match before with
    | [] =>
      obtain ⟨rfl, _⟩ := List.cons.inj hsplit
      exact Or.inl (hpathD parent last hpath).1
    | [y] =>
      obtain ⟨rfl, hrest⟩ := List.cons.inj hsplit
      obtain ⟨rfl, _⟩ := List.cons.inj hrest
      refine Or.inr ⟨memberD, List.mem_singleton_self _, rfl, ?_⟩
      exact (hpathF parent last hpath).1.symm
    | _ :: _ :: before =>
      have hlength := congrArg List.length hsplit
      simp at hlength
  · intro x hx data hentry
    rcases hmem x hx with rfl | rfl
    · cases hentry
    · refine ⟨List.cons_ne_nil _ _, fun y hy hdir => ?_⟩
      rcases hmem y hy with rfl | rfl
      · decide
      · cases hdir
  · intro x hx y hy _ _ parent a b ha hb _
    rcases hmem x hx with rfl | rfl
    · obtain ⟨hparent, rfl⟩ := hpathD parent a ha
      rcases hmem y hy with rfl | rfl
      · exact (hpathD parent b hb).2.symm
      · have hother := (hpathF parent b hb).1
        rw [hparent] at hother
        cases hother
    · obtain ⟨hparent, rfl⟩ := hpathF parent a ha
      rcases hmem y hy with rfl | rfl
      · have hother := (hpathD parent b hb).1
        rw [hparent] at hother
        cases hother
      · exact (hpathF parent b hb).2.symm

theorem smallArchive_extracted : ∃ s, init (fun _ => 0#8) smallArchive (fun _ => some fun _ => 0#8)
      100 Vfs.new.mount 4096 = .ok s ∧
    (∃ c n, s.getNode memberF.name = .ok (some c) ∧ s.nodes.cell c = some n ∧
      IsFile n [104#8, 105#8]) ∧
    ∃ c n, s.getNode memberD.name = .ok (some c) ∧ s.nodes.cell c = some n ∧
      n.type = .directory := by
  have hanswers : ∀ i : Nat, (fun _ => some fun _ => 0#8 : Nat → Option Memory) i ≠ none :=
    fun _ => Option.some_ne_none _
  obtain ⟨s, hinit, hfiles, hdirectories⟩ : ∃ s, init (fun _ => 0#8) smallArchive
      (fun _ => some fun _ => 0#8) 100 Vfs.new.mount 4096 = .ok s ∧ _ :=
    init_extracts mount_mounted smallArchive_archive smallArchive_wellFormed hanswers
      (le_refl 100) (by decide)
  refine ⟨s, hinit, ?_, hdirectories memberD List.mem_cons_self rfl⟩
  obtain ⟨x, c, n, hlast, hget, hn, hfile⟩ :=
    hfiles memberF (List.mem_cons_of_mem _ (List.mem_singleton_self _)) rfl
  have hx : lastWith [memberD, memberF] memberF.path = some memberF := rfl
  obtain rfl := Option.some.inj (hx.symm.trans hlast)
  exact ⟨c, n, hget, hn, hfile⟩

end Initramfs

end UmbraOS
