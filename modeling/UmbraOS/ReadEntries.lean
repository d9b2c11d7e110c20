import UmbraOS.PathCalls
import UmbraOS.StringHashMapNth
import UmbraOS.VfsBounds
import Mathlib.Data.List.Nodup

namespace UmbraOS

/-- What `sys_read_entries` puts into the buffer, but for the fields that are always the same. -/
structure Dirent where
  name : CString
  inode : Nat
  type : NodeType

/-- A directory is listed; `returned` are the children returned so far, up to the first call that
reports 0 bytes, and `ended` says that there was one. -/
structure Listing where
  vfs : Vfs
  returned : List Nat
  ended : Bool

inductive ListCall
  | create (path : CString) (type : NodeType)
  | readEntries

namespace Vfs

open StringHashMap (hashKey counted)

/-- The entry comes with the child it is about; `none` is the report of 0 bytes. A position stays below
the number of children, and is far from wrapping. -/
def sysReadEntries (s : Vfs) (handle : Option Nat) :
    Except Trap (Except FileError (Option (Nat × Dirent)) × Vfs) :=
  match handle with
  | none => .ok (.error .ebadf, s)
  | some fd => do
    let d ← s.descriptors.read (some fd)
    let node ← s.nodes.read (some d.node)
    if node.type ≠ .directory then return (.error .enotdir, s)
    else
      match node.children with
      | none => .error .nullDeref
      | some map =>
        match map.getNth d.rwPosition with
        | none => return (.ok none, s)
        | some c =>
          let child ← s.nodes.read (some c)
          return (.ok (some (c, ⟨child.name, child.inode, child.type⟩)),
            { s with
              descriptors := s.descriptors.adjust fd fun d => { d with rwPosition := d.rwPosition + 1 } })

/-- The name under which `create` puts a new node into the children of `d`, if it does so. -/
def madeIn (s : Vfs) (d : Nat) : Nat → Nat → CString → Option CString
  | 0, _, _ => none
  | turns + 1, a, path =>
    if path = [] then none
    else match s.child a (CString.component path) with
      | some c => madeIn s d turns c (CString.rest path)
      | none => if a = d then some (CString.component path) else none

/-- The children of some entries that `get_nth` numbers. -/
def listed (es : List (BitVec 32 × Nat)) : List Nat := (counted es).map Prod.snd

end Vfs

namespace Listing

def step (literal : Nat → Byte) (fd : Nat) (t : Listing) : ListCall → Except Trap Listing
  | .create path type => do
    let (_, vfs) ← t.vfs.create literal path type
    return { t with vfs }
  | .readEntries => do
    match ← t.vfs.sysReadEntries (some fd) with
    | (.ok (some (c, _)), vfs) =>
      return ⟨vfs, if t.ended then t.returned else t.returned ++ [c], t.ended⟩
    | (.ok none, vfs) => return ⟨vfs, t.returned, true⟩
    | (.error _, vfs) => return { t with vfs }

end Listing

section Counting

variable {α : Type} [DecidableEq α]

/-- Where an element is put into a list before a position, the one just before the position moves
behind it. -/
theorem count_take_insert {pre post : List α} {x o : α} (hne : x ≠ o) {k : Nat}
    (hk : k ≤ (pre ++ post).length) : ((pre ++ post).take k).count o =
      ((pre ++ x :: post).take k).count o +
        if pre.length < k ∧ (pre ++ post)[k - 1]? = some o then 1 else 0 := by
  by_cases hlt : pre.length < k
  · obtain ⟨j, rfl⟩ : ∃ j, k = pre.length + (j + 1) := ⟨k - pre.length - 1, by omega⟩
    rw [List.length_append] at hk
    have hj : j < post.length := by omega
    have hlast : (pre ++ post)[pre.length + (j + 1) - 1]? = some post[j] := by
      rw [List.getElem?_append_right (by omega), ← List.getElem?_eq_getElem hj]
      congr 1
      omega
    have hboth : ∀ ys : List α, (pre ++ ys).take (pre.length + (j + 1)) = pre ++ ys.take (j + 1) := by
      intro ys
      rw [List.take_append, List.take_of_length_le (by omega), Nat.add_sub_cancel_left]
    rw [hboth, hboth, List.take_succ_cons, List.count_append, List.count_append,
      List.count_cons_of_ne hne, List.take_add_one, List.count_append, List.getElem?_eq_getElem hj, hlast,
      Nat.add_assoc]
    congr 2
    simp only [Option.toList_some, List.count_singleton, Option.some.injEq, hlt, true_and, beq_iff_eq]
  · have hpost : k - pre.length = 0 := by omega
    rw [List.take_append, List.take_append, hpost, List.take_zero, List.take_zero, if_neg fun h => hlt h.1]
    rfl

theorem count_take_next {xs : List α} {k : Nat} {x : α} (h : xs[k]? = some x) (o : α) :
    (xs.take (k + 1)).count o = (xs.take k).count o + [x].count o := by
  rw [List.take_add_one, h, List.count_append]
  rfl

end Counting

namespace Vfs

open StringHashMap (hashKey counted)

variable {s : Vfs}

/-- The children of a node are all different, and nodes that were made. -/
def Different (s : Vfs) : Prop := ∀ a n map, s.nodes.cell a = some n → n.children = some map →
  (map.order.map Prod.snd).Nodup ∧ ∀ e ∈ map.order, e.2 < s.nodes.next

theorem order_new : (StringHashMap.new : StringHashMap 256 Nat).order = [] := by
  apply List.eq_nil_iff_forall_not_mem.mpr
  intro e he
  obtain ⟨j, -, -, he⟩ := StringHashMap.mem_chains.mp he
  cases he

/-- A new child is put between two parts of the order. -/
theorem order_insert {map : StringHashMap 256 Nat} {name : CString} (h : map.get name = none) (c : Nat) :
    (map.insert name c).order = map.upTo name ++ (hashKey name, c) :: map.behind name :=
  StringHashMap.order_insert (by decide) fun i => StringHashMap.insert_of_absent h c i

theorem mem_order_insert {map : StringHashMap 256 Nat} {name : CString} (h : map.get name = none) (c : Nat)
    {e : BitVec 32 × Nat} : e ∈ (map.insert name c).order ↔ e = (hashKey name, c) ∨ e ∈ map.order := by
  rw [order_insert h, StringHashMap.order_eq (by decide) map name, List.mem_append, List.mem_append,
    List.mem_cons]
  constructor
  · intro he
    rcases he with he | he | he
    · exact Or.inr (Or.inl he)
    · exact Or.inl he
    · exact Or.inr (Or.inr he)
  · intro he
    rcases he with he | he | he
    · exact Or.inr (Or.inl he)
    · exact Or.inl he
    · exact Or.inr (Or.inr he)

theorem Different.withChild (h : Different s) {parent : Nat} {above : Node} {name : CString}
    {type : NodeType} {map : StringHashMap 256 Nat} (hp : s.nodes.cell parent = some above)
    (hmap : above.children = some map) (hfree : map.get name = none) :
    Different (s.withChild parent name type map) := by
  have hnext : (s.withChild parent name type map).nodes.next = s.nodes.next + 1 := rfl
  intro a n map' hn hmap'
  rcases withChild_cell hp hn with ⟨-, rfl⟩ | ⟨old, hold, -, hsame | ⟨-, hmore⟩⟩
  · simp only at hmap'
    split at hmap'
    next =>
      cases hmap'
      rw [order_new]
      exact ⟨List.nodup_nil, fun e he => absurd he List.not_mem_nil⟩
    next => cases hmap'
  · obtain ⟨hnodup, hlt⟩ := h a old map' hold (hsame.symm.trans hmap')
    refine ⟨hnodup, fun e he => ?_⟩
    have hbefore := hlt e he
    omega
  · cases hmore.symm.trans hmap'
    obtain ⟨hnodup, hlt⟩ := h parent above map hp hmap
    refine ⟨?_, fun e he => ?_⟩
    · rw [StringHashMap.order_eq (by decide) map name, List.map_append] at hnodup
      rw [order_insert hfree, List.map_append, List.map_cons]
      refine List.nodup_middle.mpr (List.nodup_cons.mpr ⟨fun hmem => ?_, hnodup⟩)
      rw [← List.map_append, ← StringHashMap.order_eq (by decide) map name] at hmem
      obtain ⟨e, he, hnew⟩ := List.mem_map.mp hmem
      have hbefore := hlt e he
      omega
    · rcases (mem_order_insert hfree _).mp he with rfl | he
      · exact Nat.lt_succ_self _
      · have hbefore := hlt e he
        omega

theorem Different.createLoop {literal : Nat → Byte} {type : NodeType} {turns parent node : Nat} {s' : Vfs}
    {path : CString} (h : Different s)
    (hs : createLoop literal type turns s parent path = .ok (node, s')) : Different s' := by
  refine createLoop_invariant (fun h hp hfree hadd => ?_) h hs
  obtain ⟨map, hmap, rfl, rfl⟩ := addChild_ok hp hadd
  rw [child_of_cell hp, hmap] at hfree
  exact h.withChild hp hmap hfree

theorem Different.create {literal : Nat → Byte} {type : NodeType} {s' : Vfs} {path : CString}
    {result : Option Nat} (h : Different s) (hs : s.create literal path type = .ok (result, s')) :
    Different s' := by
  unfold Vfs.create at hs
  split at hs
  next =>
    cases hs
    exact h
  next root hroot =>
    obtain ⟨⟨node, s₁⟩, hloop, hs⟩ := Except.bind_eq_ok.mp hs
    cases hs
    exact h.createLoop hloop

theorem Different.mount (h : Different s) : Different s.mount := by
  intro a n map hn hmap
  by_cases ha : a = s.nodes.next
  · rw [ha] at hn
    cases (CellStore.alloc_cell_self s.nodes _).symm.trans hn
    cases hmap
    rw [order_new]
    exact ⟨List.nodup_nil, fun e he => absurd he List.not_mem_nil⟩
  · obtain ⟨hnodup, hlt⟩ := h a n map ((if_neg ha).symm.trans hn) hmap
    exact ⟨hnodup, fun e he => Nat.lt_succ_of_lt (hlt e he)⟩

theorem Different.mountAt {s' : Vfs} {node : Nat} (h : Different s) (hm : s.mountAt node = .ok s') :
    Different s' := by
  obtain ⟨nodes, hmodify, hm⟩ := Except.bind_eq_ok.mp hm
  obtain ⟨old, hold, rfl⟩ := CellStore.modify_some_ok.mp hmodify
  cases hm
  intro a n map hn hmap
  by_cases ha : a = node
  · rw [ha, CellStore.adjust_cell_self _ hold] at hn
    cases hn
    cases hmap
    rw [order_new]
    exact ⟨List.nodup_nil, fun e he => absurd he List.not_mem_nil⟩
  · rw [CellStore.adjust_cell_ne _ _ ha] at hn
    exact h a n map hn hmap

/-- The file systems that calls reach from the start of the kernel on, whatever is mounted, created,
opened, read and written. -/
inductive Used (literal : Nat → Byte) : Vfs → Prop
  | new : Used literal Vfs.new
  | mount {s : Vfs} : Used literal s → Used literal s.mount
  | mountAt {s s' : Vfs} {node : Nat} : Used literal s → s.mountAt node = .ok s' → Used literal s'
  | step {s s' : Vfs} {op : Op} : Used literal s → Vfs.step literal s op = .ok s' → Used literal s'

theorem Different.of_nodes {s' : Vfs} (h : Different s) (hn : s'.nodes = s.nodes) : Different s' := by
  unfold Different
  rw [hn]
  exact h

theorem makeRoom_children {node node' : Node} {position length : Nat} {answer : Option Memory} {go : Bool}
    (h : makeRoom node position length answer = .ok (go, node')) : node'.children = node.children := by
  unfold makeRoom at h
  split at h
  next =>
    cases h
    rfl
  next =>
    split at h
    next =>
      split at h
      next => cases h
      next =>
        split at h
        next =>
          cases h
          rfl
        next =>
          cases h
          rfl
    next =>
      cases h
      rfl

/-- A write changes the data of a node, not its children. -/
theorem Different.adjust (h : Different s) {s' : Vfs} {a : Nat} {old node : Node}
    (hs : s'.nodes = s.nodes.adjust a fun _ => node) (ho : s.nodes.cell a = some old)
    (hsame : node.children = old.children) : Different s' := by
  intro b n map hn hmap
  rw [hs] at hn
  have hnext : s'.nodes.next = s.nodes.next := by rw [hs, CellStore.adjust_next]
  rw [hnext]
  by_cases hb : b = a
  · rw [hb, CellStore.adjust_cell_self _ ho] at hn
    cases hn
    exact h a old map ho (hsame.symm.trans hmap)
  · rw [CellStore.adjust_cell_ne _ _ hb] at hn
    exact h b n map hn hmap

theorem Different.write {fd : Option Nat} {buffer : Nat → Byte} {length : Nat} {answer : Option Memory}
    {r : BitVec 64} {s' : Vfs} (h : Different s) (hs : s.write fd buffer length answer = .ok (r, s')) :
    Different s' := by
  cases fd with
  | none =>
    cases hs
    exact h
  | some a =>
    obtain ⟨d, node, -, hn, hends⟩ := write_ends hs
    cases hends with
    | refuses => exact h
    | copies new mode type room =>
      have hsame := makeRoom_children room
      refine h.adjust rfl hn ?_
      exact hsame
    | fails new mode type room => exact h.adjust rfl hn (makeRoom_children room)

theorem Different.step {literal : Nat → Byte} {op : Op} {s' : Vfs} (h : Different s)
    (hs : Vfs.step literal s op = .ok s') : Different s' := by
  cases op with
  | create path type =>
    obtain ⟨⟨result, vfs⟩, hcreate, rfl⟩ := Except.map_eq_ok.mp hs
    exact h.create hcreate
  | openFile path mode =>
    obtain ⟨⟨result, vfs⟩, hopen, rfl⟩ := Except.map_eq_ok.mp hs
    rcases PathState.openFile_cases s path mode with ⟨trap, -, ho⟩ | ⟨-, ho⟩ | ⟨c, -, ho⟩
    · cases ho.symm.trans hopen
    · cases ho.symm.trans hopen
      exact h
    · cases ho.symm.trans hopen
      exact h.of_nodes rfl
  | seek fd offset mode =>
    cases fd with
    | none =>
      cases hs
      exact h
    | some a =>
      obtain ⟨position, rfl⟩ := seek_ends hs
      exact h.of_nodes rfl
  | read fd length =>
    obtain ⟨⟨r, bytes, vfs⟩, hread, rfl⟩ := Except.map_eq_ok.mp hs
    exact h.of_nodes (read_nodes hread)
  | write fd buffer length answer =>
    obtain ⟨⟨r, vfs⟩, hwrite, rfl⟩ := Except.map_eq_ok.mp hs
    exact h.write hwrite

theorem Used.different {literal : Nat → Byte} (h : Used literal s) : Different s := by
  induction h with
  | new =>
    intro a n map hn
    cases hn
  | mount _ ih => exact ih.mount
  | mountAt _ hm ih => exact ih.mountAt hm
  | step _ hs ih => exact ih.step hs

/-- From a node without children, `create` changes no other node that there was. -/
theorem createLoop_elsewhere {literal : Nat → Byte} {type : NodeType} {turns a d node : Nat} {n : Node}
    {s' : Vfs} {path : CString} (ha : ∀ name, s.child a name = none) (hne : d ≠ a)
    (hd : s.nodes.cell d = some n) (hs : createLoop literal type turns s a path = .ok (node, s')) :
    s'.nodes.cell d = some n ∧ s'.descriptors = s.descriptors := by
  induction turns generalizing s a path with
  | zero =>
    cases hs
    exact ⟨hd, rfl⟩
  | succ turns ih =>
    by_cases hnil : path = []
    · rw [Vfs.createLoop, if_pos hnil] at hs
      cases hs
      exact ⟨hd, rfl⟩
    · obtain ⟨s₁, c, above, hp, hdown, hloop⟩ := createLoop_turn hnil hs
      rcases hdown with ⟨hc, -⟩ | ⟨-, kind, hadd⟩
      · rw [ha] at hc
        cases hc
      · obtain ⟨map, -, rfl, rfl⟩ := addChild_ok hp hadd
        have hlt := CellStore.lt_next hd
        have hcell : (s.withChild a (CString.component path) kind map).nodes.cell d = some n := by
          rw [withChild_other hne (by omega), hd]
        obtain ⟨hcell', hsame⟩ := ih (withChild_childless hp) (by omega) hcell hloop
        exact ⟨hcell', hsame⟩

/-- What `create` does to the children of a directory: it adds the one that is missing, or nothing. -/
theorem createLoop_children {literal : Nat → Byte} {type : NodeType} {turns a d node : Nat} {n : Node}
    {map : StringHashMap 256 Nat} {s' : Vfs} {path : CString} (hd : s.nodes.cell d = some n)
    (hmap : n.children = some map) (hs : createLoop literal type turns s a path = .ok (node, s')) :
    s'.descriptors = s.descriptors ∧ ∃ n', s'.nodes.cell d = some n' ∧ n'.type = n.type ∧
      match s.madeIn d turns a path with
      | none => n'.children = some map
      | some name => map.get name = none ∧ n'.children = some (map.insert name s.nodes.next) := by
  induction turns generalizing a path with
  | zero =>
    cases hs
    exact ⟨rfl, n, hd, rfl, hmap⟩
  | succ turns ih =>
    by_cases hnil : path = []
    · rw [Vfs.createLoop, if_pos hnil] at hs
      cases hs
      rw [madeIn, if_pos hnil]
      exact ⟨rfl, n, hd, rfl, hmap⟩
    · obtain ⟨s₁, c, above, hp, hdown, hloop⟩ := createLoop_turn hnil hs
      rw [madeIn, if_neg hnil]
      rcases hdown with ⟨hc, rfl⟩ | ⟨hfree, kind, hadd⟩
      · rw [hc]
        exact ih hloop
      · obtain ⟨others, habove, rfl, rfl⟩ := addChild_ok hp hadd
        have hlt := CellStore.lt_next hd
        rw [hfree]
        by_cases had : a = d
        · subst had
          cases hp.symm.trans hd
          cases habove.symm.trans hmap
          obtain ⟨hcell, hsame⟩ := createLoop_elsewhere (withChild_childless hp) (by omega)
            (withChild_parent hp) hloop
          rw [child_of_cell hp, hmap] at hfree
          simp only [if_true]
          exact ⟨hsame, _, hcell, rfl, hfree, rfl⟩
        · have hcell : (s.withChild a (CString.component path) kind others).nodes.cell d = some n := by
            rw [withChild_other (fun he => had he.symm) (by omega), hd]
          obtain ⟨hcell', hsame⟩ := createLoop_elsewhere (withChild_childless hp) (by omega) hcell hloop
          simp only [if_neg had]
          exact ⟨hsame, n, hcell', rfl, hmap⟩

end Vfs

namespace Listing

open StringHashMap (hashKey counted)
open Vfs (listed)

/-- The descriptor `fd` is at the position `k` of the directory `d`, which has the children `map`. -/
structure At (t : Listing) (fd d k : Nat) (map : StringHashMap 256 Nat) : Prop where
  descriptor : ∃ desc, t.vfs.descriptors.cell fd = some desc ∧ desc.node = d ∧ desc.rwPosition = k
  directory : ∃ n, t.vfs.nodes.cell d = some n ∧ n.type = .directory ∧ n.children = some map

/-- A call of `create` before the end of the listing does not put a child, of a hash other than zero, in
front of the position while the child just before the position is one of `first`. -/
def Undisturbed (first : List Nat) (fd d : Nat) (t : Listing) : ListCall → Prop
  | .create path _ => t.ended = false → ∀ k map r name, t.At fd d k map →
      t.vfs.rootMountpoint = some r → t.vfs.madeIn d path.length r path = some name → hashKey name ≠ 0 →
      (counted (map.upTo name)).length < k → ∀ c, (listed map.order)[k - 1]? = some c → c ∉ first
  | .readEntries => True

/-- How often a child must have been returned: once if it is before the position, or at the end. -/
def due (t : Listing) (k : Nat) (map : StringHashMap 256 Nat) (c : Nat) : Nat :=
  if t.ended then 1 else ((listed map.order).take k).count c

/-- What holds along a listing: what is returned are children with a hash other than zero, and the children
of the entries `first` were returned as often as they must. -/
structure Inv (first : List (BitVec 32 × Nat)) (fd d : Nat) (t : Listing) : Prop where
  different : t.vfs.Different
  listing : ∃ k map, t.At fd d k map ∧ k ≤ (listed map.order).length ∧
    (∀ c ∈ t.returned, c ∈ listed map.order) ∧ (∀ e ∈ first, e ∈ map.order) ∧
    ∀ c ∈ listed first, t.due k map c ≤ t.returned.count c

/-- The children of the entries `first` were returned no more often than they must. -/
def Even (first : List (BitVec 32 × Nat)) (fd d : Nat) (t : Listing) : Prop :=
  ∀ k map, t.At fd d k map → ∀ c ∈ listed first, t.returned.count c = t.due k map c

variable {first : List (BitVec 32 × Nat)} {fd d : Nat} {t u : Listing}

theorem At.unique {k k' : Nat} {map map' : StringHashMap 256 Nat} (h : t.At fd d k map)
    (h' : t.At fd d k' map') : k = k' ∧ map = map' := by
  obtain ⟨⟨desc, hdesc, -, hk⟩, n, hn, -, hmap⟩ := h
  obtain ⟨⟨desc', hdesc', -, hk'⟩, n', hn', -, hmap'⟩ := h'
  cases hdesc.symm.trans hdesc'
  cases hn.symm.trans hn'
  cases hmap.symm.trans hmap'
  exact ⟨hk.symm.trans hk', rfl⟩

theorem even_iff {k : Nat} {map : StringHashMap 256 Nat} (h : t.At fd d k map) :
    t.Even first fd d ↔ ∀ c ∈ listed first, t.returned.count c = t.due k map c := by
  refine ⟨fun he => he k map h, fun he k' map' h' => ?_⟩
  obtain ⟨rfl, rfl⟩ := h.unique h'
  exact he

theorem mem_listed {es : List (BitVec 32 × Nat)} {c : Nat} :
    c ∈ listed es ↔ ∃ hash, (hash, c) ∈ es ∧ hash ≠ 0 := by
  unfold Vfs.listed StringHashMap.counted
  simp

theorem listed_subset {es es' : List (BitVec 32 × Nat)} (h : ∀ e ∈ es, e ∈ es') {c : Nat}
    (hc : c ∈ listed es) : c ∈ listed es' := by
  obtain ⟨hash, he, hne⟩ := mem_listed.mp hc
  exact mem_listed.mpr ⟨hash, h _ he, hne⟩

theorem listed_nodup (h : t.vfs.Different) {k : Nat} {map : StringHashMap 256 Nat} (ha : t.At fd d k map) :
    (listed map.order).Nodup := by
  obtain ⟨-, n, hn, -, hmap⟩ := ha
  exact (h d n map hn hmap).1.sublist ((List.filter_sublist).map Prod.snd)

/-- The children after a call of `create`. -/
theorem create_at {literal : Nat → Byte} {path : CString} {type : NodeType} {k : Nat}
    {map : StringHashMap 256 Nat} (h : t.At fd d k map) (hd : t.vfs.Different)
    (hs : t.step literal fd (.create path type) = .ok u) :
    u.returned = t.returned ∧ u.ended = t.ended ∧ u.vfs.Different ∧
      (u.At fd d k map ∧ (∀ r name, t.vfs.rootMountpoint = some r →
          t.vfs.madeIn d path.length r path ≠ some name) ∨
        ∃ r name, t.vfs.rootMountpoint = some r ∧
          t.vfs.madeIn d path.length r path = some name ∧ map.get name = none ∧
          u.At fd d k (map.insert name t.vfs.nodes.next)) := by
  obtain ⟨⟨result, vfs⟩, hcreate, hs⟩ := Except.bind_eq_ok.mp hs
  cases hs
  refine ⟨rfl, rfl, hd.create hcreate, ?_⟩
  unfold Vfs.create at hcreate
  split at hcreate
  next hroot =>
    cases hcreate
    refine Or.inl ⟨h, fun r name hr => ?_⟩
    rw [hroot] at hr
    cases hr
  next root hroot =>
    obtain ⟨⟨node, s₁⟩, hloop, hcreate⟩ := Except.bind_eq_ok.mp hcreate
    cases hcreate
    obtain ⟨⟨desc, hdesc, hnode⟩, n, hn, hdir, hmap⟩ := h
    obtain ⟨hsame, n', hn', htype, hchildren⟩ := Vfs.createLoop_children hn hmap hloop
    have hdesc' : vfs.descriptors.cell fd = some desc := by rw [hsame, hdesc]
    cases hmade : t.vfs.madeIn d path.length root path with
    | none =>
      rw [hmade] at hchildren
      refine Or.inl ⟨⟨⟨desc, hdesc', hnode⟩, n', hn', htype.trans hdir, hchildren⟩, fun r name hr => ?_⟩
      cases hroot.symm.trans hr
      rw [hmade]
      exact fun he => by cases he
    | some name =>
      rw [hmade] at hchildren
      obtain ⟨hfree, hchildren⟩ := hchildren
      exact Or.inr ⟨root, name, hroot, hmade, hfree, ⟨desc, hdesc', hnode⟩, n', hn', htype.trans hdir,
        hchildren⟩

/-- The children that are numbered after an insertion: a new one of hash zero is not. -/
theorem listed_insert {map : StringHashMap 256 Nat} {name : CString} (h : map.get name = none) (c : Nat) :
    listed map.order = listed (map.upTo name) ++ listed (map.behind name) ∧
      listed (map.insert name c).order = listed (map.upTo name) ++
        if hashKey name = 0 then listed (map.behind name) else c :: listed (map.behind name) := by
  unfold Vfs.listed
  constructor
  · rw [StringHashMap.order_eq (by decide) map name, StringHashMap.counted_append, List.map_append]
  · rw [Vfs.order_insert h, StringHashMap.counted_append, List.map_append]
    congr 1
    unfold StringHashMap.counted
    by_cases hzero : hashKey name = 0
    · rw [if_pos hzero, List.filter_cons_of_neg (by simpa using hzero)]
    · rw [if_neg hzero, List.filter_cons_of_pos (by simpa using hzero), List.map_cons]

/-- What reading an entry does. -/
theorem read_at {literal : Nat → Byte} {k : Nat} {map : StringHashMap 256 Nat} (h : t.At fd d k map)
    (hs : t.step literal fd .readEntries = .ok u) :
    u.vfs.nodes = t.vfs.nodes ∧
      ((∃ c, (listed map.order)[k]? = some c ∧ u.At fd d (k + 1) map ∧ u.ended = t.ended ∧
          u.returned = if t.ended then t.returned else t.returned ++ [c]) ∨
        (listed map.order)[k]? = none ∧ u.At fd d k map ∧ u.ended = true ∧ u.returned = t.returned) := by
  obtain ⟨⟨desc, hdesc, rfl, rfl⟩, n, hn, hdir, hmap⟩ := h
  have hnth : map.getNth desc.rwPosition = (listed map.order)[desc.rwPosition]? := by
    rw [StringHashMap.getNth_eq, Vfs.listed, List.getElem?_map]
  have hread : t.vfs.sysReadEntries (some fd) = match (listed map.order)[desc.rwPosition]? with
      | none => .ok (.ok none, t.vfs)
      | some c => t.vfs.nodes.read (some c) >>= fun child =>
        .ok (.ok (some (c, ⟨child.name, child.inode, child.type⟩)),
          { t.vfs with descriptors := t.vfs.descriptors.adjust fd fun d =>
              { d with rwPosition := d.rwPosition + 1 } }) := by
    unfold Vfs.sysReadEntries
    simp only [CellStore.read_live hdesc, CellStore.read_live hn, Except.ok_bind, hdir, hmap, hnth]
    rw [if_neg fun hne => hne rfl]
    rfl
  cases hfound : (listed map.order)[desc.rwPosition]? with
  | none =>
    have hstep : t.step literal fd .readEntries = .ok ⟨t.vfs, t.returned, true⟩ := by
      unfold step
      rw [hread, hfound]
      rfl
    cases hstep.symm.trans hs
    exact ⟨rfl, Or.inr ⟨rfl, ⟨⟨desc, hdesc, rfl, rfl⟩, n, hn, hdir, hmap⟩, rfl, rfl⟩⟩
  | some c =>
    cases hc : t.vfs.nodes.cell c with
    | none =>
      have hstep : t.step literal fd .readEntries = .error .useAfterFree := by
        unfold step
        rw [hread, hfound]
        simp only [CellStore.read_dead hc]
        rfl
      cases hstep.symm.trans hs
    | some child =>
      have hstep : t.step literal fd .readEntries = .ok ⟨{ t.vfs with
          descriptors := t.vfs.descriptors.adjust fd fun d => { d with rwPosition := d.rwPosition + 1 } },
          if t.ended then t.returned else t.returned ++ [c], t.ended⟩ := by
        unfold step
        rw [hread, hfound]
        simp only [CellStore.read_live hc]
        rfl
      cases hstep.symm.trans hs
      exact ⟨rfl, Or.inl ⟨c, rfl, ⟨⟨_, CellStore.adjust_cell_self _ hdesc, rfl, rfl⟩, n, hn, hdir, hmap⟩,
        rfl, rfl⟩⟩

/-- What one call changes: a child of `first` that moves behind the position is due once less often. -/
structure Turned (first : List (BitVec 32 × Nat)) (fd d : Nat) (t u : Listing) (k : Nat)
    (map : StringHashMap 256 Nat) (moved : Nat → Nat) (k' : Nat) (map' : StringHashMap 256 Nat) : Prop where
  at_ : u.At fd d k' map'
  different : u.vfs.Different
  inside : k' ≤ (listed map'.order).length
  returned : ∀ c ∈ u.returned, c ∈ listed map'.order
  kept : ∀ e ∈ map.order, e ∈ map'.order
  count : ∀ c ∈ listed first,
    u.returned.count c + t.due k map c = t.returned.count c + u.due k' map' c + moved c

theorem Turned.inv {k k' : Nat} {map map' : StringHashMap 256 Nat} {moved : Nat → Nat}
    (h : Turned first fd d t u k map moved k' map') (hfirst : ∀ e ∈ first, e ∈ map.order)
    (hdue : ∀ c ∈ listed first, t.due k map c ≤ t.returned.count c) : u.Inv first fd d := by
  refine ⟨h.different, k', map', h.at_, h.inside, h.returned, fun e he => h.kept e (hfirst e he),
    fun c hc => ?_⟩
  have hcount := h.count c hc
  have hle := hdue c hc
  omega

theorem Turned.even {k k' : Nat} {map map' : StringHashMap 256 Nat} {moved : Nat → Nat}
    (h : Turned first fd d t u k map moved k' map') (ht : t.At fd d k map)
    (hdue : ∀ c ∈ listed first, t.due k map c ≤ t.returned.count c) :
    u.Even first fd d ↔ t.Even first fd d ∧ ∀ c ∈ listed first, moved c = 0 := by
  rw [even_iff h.at_, even_iff ht]
  constructor
  · intro he
    have hboth : ∀ c ∈ listed first, t.returned.count c = t.due k map c ∧ moved c = 0 := by
      intro c hc
      have hcount := h.count c hc
      have hle := hdue c hc
      have heven := he c hc
      omega
    exact ⟨fun c hc => (hboth c hc).1, fun c hc => (hboth c hc).2⟩
  · intro he c hc
    have hcount := h.count c hc
    have heven := he.1 c hc
    have hmoved := he.2 c hc
    omega

theorem due_congr (h : u.ended = t.ended) (k : Nat) (map : StringHashMap 256 Nat) (c : Nat) :
    u.due k map c = t.due k map c := by
  unfold due
  rw [h]

theorem listed_insert_subset {map : StringHashMap 256 Nat} {name : CString} (hfree : map.get name = none)
    (c : Nat) : ∀ e ∈ map.order, e ∈ (map.insert name c).order := fun _ he =>
  (Vfs.mem_order_insert hfree c).mpr (Or.inr he)

/-- A child of hash zero is not numbered, and after the end nothing is due any more. -/
theorem Turned.quiet {k : Nat} {map : StringHashMap 256 Nat} {name : CString}
    (hfree : map.get name = none) (hquiet : t.ended = true ∨ hashKey name = 0)
    (hk : k ≤ (listed map.order).length) (hreturned : ∀ c ∈ t.returned, c ∈ listed map.order)
    (hat : u.At fd d k (map.insert name t.vfs.nodes.next)) (hdifferent : u.vfs.Different)
    (hsame : u.returned = t.returned) (hended : u.ended = t.ended) :
    Turned first fd d t u k map (fun _ => 0) k (map.insert name t.vfs.nodes.next) := by
  obtain ⟨hbefore, hafter⟩ := listed_insert hfree t.vfs.nodes.next
  have hkept := listed_insert_subset hfree t.vfs.nodes.next
  refine ⟨hat, hdifferent, ?_, fun c hc => ?_, hkept, fun c _ => ?_⟩
  · rw [hafter]
    rw [hbefore, List.length_append] at hk
    rw [List.length_append]
    split
    next => exact hk
    next =>
      rw [List.length_cons]
      omega
  · rw [hsame] at hc
    exact listed_subset hkept (hreturned c hc)
  · rw [hsame, due_congr hended]
    unfold due
    rcases hquiet with he | hzero
    · rw [he]
      rfl
    · rw [hafter, if_pos hzero, hbefore]
      rfl

/-- A numbered child put before the position moves the one just before the position behind it. -/
theorem Turned.moved {k : Nat} {map : StringHashMap 256 Nat} {name : CString}
    (hfree : map.get name = none) (hopen : t.ended = false) (hne : hashKey name ≠ 0)
    (hk : k ≤ (listed map.order).length) (hreturned : ∀ c ∈ t.returned, c ∈ listed map.order)
    (hold : ∀ c ∈ listed first, t.vfs.nodes.next ≠ c)
    (hat : u.At fd d k (map.insert name t.vfs.nodes.next)) (hdifferent : u.vfs.Different)
    (hsame : u.returned = t.returned) (hended : u.ended = t.ended) :
    Turned first fd d t u k map (fun c => if (listed (map.upTo name)).length < k ∧
      (listed map.order)[k - 1]? = some c then 1 else 0) k (map.insert name t.vfs.nodes.next) := by
  obtain ⟨hbefore, hafter⟩ := listed_insert hfree t.vfs.nodes.next
  rw [if_neg hne] at hafter
  have hkept := listed_insert_subset hfree t.vfs.nodes.next
  have hle : k ≤ (listed (map.upTo name) ++ listed (map.behind name)).length := by
    rw [← hbefore]
    exact hk
  refine ⟨hat, hdifferent, ?_, fun c hc => ?_, hkept, fun c hc => ?_⟩
  · rw [hafter, List.length_append, List.length_cons]
    rw [List.length_append] at hle
    omega
  · rw [hsame] at hc
    exact listed_subset hkept (hreturned c hc)
  · have hcount := count_take_insert (hold c hc) hle
    rw [hsame, due_congr hended]
    unfold due
    rw [hopen, hafter, hbefore]
    simp only [Bool.false_eq_true, if_false]
    omega

/-- The children of the directory are older than the next node. -/
theorem At.older {k : Nat} {map : StringHashMap 256 Nat} (h : t.At fd d k map) (hd : t.vfs.Different)
    {c : Nat} (hc : c ∈ listed map.order) : t.vfs.nodes.next ≠ c := by
  intro he
  obtain ⟨hash, hmem, -⟩ := mem_listed.mp hc
  obtain ⟨-, n, hn, -, hmap⟩ := h
  have hlt := (hd d n map hn hmap).2 _ hmem
  omega

theorem Inv.create (h : t.Inv first fd d) {literal : Nat → Byte} {path : CString} {type : NodeType}
    (hs : t.step literal fd (.create path type) = .ok u) :
    u.Inv first fd d ∧ (u.Even first fd d ↔
      t.Even first fd d ∧ Undisturbed (listed first) fd d t (.create path type)) := by
  obtain ⟨k, map, hat, hk, hreturned, hfirst, hdue⟩ := h.listing
  obtain ⟨hsame, hended, hdifferent, hmade⟩ := create_at hat h.different hs
  rcases hmade with ⟨hat', hnone⟩ | ⟨r, name, hroot, hname, hfree, hat'⟩
  · have hturned : Turned first fd d t u k map (fun _ => 0) k map := by
      refine ⟨hat', hdifferent, hk, by rw [hsame]; exact hreturned, fun e he => he, fun c _ => ?_⟩
      rw [hsame, due_congr hended]
      rfl
    refine ⟨hturned.inv hfirst hdue, (hturned.even hat hdue).trans (and_congr_right fun _ => ?_)⟩
    refine iff_of_true (fun _ _ => rfl) fun _ k' map' r name _ hroot hname => ?_
    exact absurd hname (hnone r name hroot)
  by_cases hquiet : t.ended = true ∨ hashKey name = 0
  · have hturned : Turned first fd d t u k map _ k _ :=
      .quiet hfree hquiet hk hreturned hat' hdifferent hsame hended
    refine ⟨hturned.inv hfirst hdue, (hturned.even hat hdue).trans (and_congr_right fun _ => ?_)⟩
    refine iff_of_true (fun _ _ => rfl) fun he k' map' r' name' _ hroot' hname' hne => ?_
    rcases hquiet with hend | hzero
    · cases he.symm.trans hend
    · cases hroot.symm.trans hroot'
      cases hname.symm.trans hname'
      exact absurd hzero hne
  · obtain ⟨hgoing, hne⟩ := not_or.mp hquiet
    have hopen : t.ended = false := Bool.eq_false_iff.mpr hgoing
    have hold : ∀ c ∈ listed first, t.vfs.nodes.next ≠ c := fun c hc =>
      hat.older h.different (listed_subset hfirst hc)
    have hturned : Turned first fd d t u k map _ k _ :=
      .moved hfree hopen hne hk hreturned hold hat' hdifferent hsame hended
    refine ⟨hturned.inv hfirst hdue, (hturned.even hat hdue).trans (and_congr_right fun _ => ?_)⟩
    have hpre : (listed (map.upTo name)).length = (counted (map.upTo name)).length := List.length_map ..
    constructor
    · intro hmoved _ k' map' r' name' hat₁ hroot' hname' _ hlt c hlast hc
      obtain ⟨rfl, rfl⟩ := hat.unique hat₁
      cases hroot.symm.trans hroot'
      cases hname.symm.trans hname'
      have hzero := hmoved c hc
      rw [if_pos ⟨by rw [hpre]; exact hlt, hlast⟩] at hzero
      cases hzero
    · intro hundisturbed c hc
      apply if_neg
      intro hand
      rw [hpre] at hand
      exact hundisturbed hopen k map r name hat hroot hname hne hand.1 c hand.2 hc

theorem Inv.read (h : t.Inv first fd d) {literal : Nat → Byte}
    (hs : t.step literal fd .readEntries = .ok u) :
    u.Inv first fd d ∧ (u.Even first fd d ↔ t.Even first fd d) := by
  obtain ⟨k, map, hat, hk, hreturned, hfirst, hdue⟩ := h.listing
  obtain ⟨hnodes, hread⟩ := read_at hat hs
  have hdifferent : u.vfs.Different := by
    unfold Vfs.Different
    rw [hnodes]
    exact h.different
  have hdone : ∀ {k'}, Turned first fd d t u k map (fun _ => 0) k' map →
      u.Inv first fd d ∧ (u.Even first fd d ↔ t.Even first fd d) := by
    intro k' hturned
    refine ⟨hturned.inv hfirst hdue, (hturned.even hat hdue).trans ?_⟩
    exact ⟨And.left, fun he => ⟨he, fun _ _ => rfl⟩⟩
  rcases hread with ⟨c, hfound, hat', hended, hu⟩ | ⟨hnone, hat', hended, hu⟩
  · obtain ⟨hlt, -⟩ := List.getElem?_eq_some_iff.mp hfound
    refine hdone ⟨hat', hdifferent, hlt, fun c' hc' => ?_, fun e he => he, fun c' _ => ?_⟩
    · rw [hu] at hc'
      split at hc'
      next => exact hreturned c' hc'
      next =>
        rcases List.mem_append.mp hc' with hc' | hc'
        · exact hreturned c' hc'
        · rw [List.mem_singleton.mp hc']
          exact List.mem_of_getElem? hfound
    · unfold due
      rw [hu, hended]
      by_cases he : t.ended = true
      · simp only [if_pos he, Nat.add_zero]
      · simp only [if_neg he]
        rw [count_take_next hfound, List.count_append]
        omega
  · have hlen := List.getElem?_eq_none_iff.mp hnone
    refine hdone ⟨hat', hdifferent, hk, by rw [hu]; exact hreturned, fun e he => he, fun c hc => ?_⟩
    unfold due
    rw [hu, hended, List.take_of_length_le hlen,
      List.count_eq_one_of_mem (listed_nodup h.different hat) (listed_subset hfirst hc), ite_self]
    rfl

/-- A listing that begins returns each child once that the directory has then, exactly when none of them
has the hash zero and no call of `create` before its end puts a child in front of the position while the
child just before the position is one of them. -/
theorem each_once_iff {literal : Nat → Byte} {s : Vfs} (hb : s.Used literal) {map : StringHashMap 256 Nat}
    (hat : (⟨s, [], false⟩ : Listing).At fd d 0 map) {calls : List ListCall}
    (hr : run (step literal fd) ⟨s, [], false⟩ calls = .ok t) (hend : t.ended = true) :
    (∀ c ∈ map.order.map Prod.snd, t.returned.count c = 1) ↔ (∀ e ∈ map.order, e.1 ≠ 0) ∧
      Ahead (step literal fd) (Undisturbed (map.order.map Prod.snd) fd d) ⟨s, [], false⟩ calls := by
  have hstart : (⟨s, [], false⟩ : Listing).Inv map.order fd d :=
    ⟨hb.different, 0, map, hat, Nat.zero_le _, fun c hc => absurd hc List.not_mem_nil, fun e he => he,
      fun c _ => Nat.le_of_eq (if_neg Bool.false_ne_true)⟩
  have hkeep : ∀ t call u, Inv map.order fd d t → step literal fd t call = .ok u → Inv map.order fd d u := by
    intro t call u hi hu
    cases call with
    | create path type => exact (hi.create hu).1
    | readEntries => exact (hi.read hu).1
  have hsame : ∀ t call u, Inv map.order fd d t → step literal fd t call = .ok u →
      (u.Even map.order fd d ↔ t.Even map.order fd d ∧ Undisturbed (listed map.order) fd d t call) := by
    intro t call u hi hu
    cases call with
    | create path type => exact (hi.create hu).2
    | readEntries => exact (hi.read hu).2.trans ⟨fun he => ⟨he, trivial⟩, And.left⟩
  have heven : (⟨s, [], false⟩ : Listing).Even map.order fd d := by
    rw [even_iff hat]
    exact fun c _ => (if_neg Bool.false_ne_true).symm
  have hinv : t.Inv map.order fd d := run_invariant hkeep hstart hr
  have hgood := Ahead.good_iff hkeep hsame hstart hr
  obtain ⟨k, map', hat', -, hreturned, hkept, -⟩ := hinv.listing
  have hdue : t.Even map.order fd d ↔ ∀ c ∈ listed map.order, t.returned.count c = 1 := by
    rw [even_iff hat']
    unfold due
    simp only [if_pos hend]
  by_cases hzero : ∀ e ∈ map.order, e.1 ≠ 0
  · have hall : listed map.order = map.order.map Prod.snd := by
      unfold Vfs.listed StringHashMap.counted
      rw [List.filter_eq_self.mpr fun e he => decide_eq_true (hzero e he)]
    rw [hall] at hdue hgood
    rw [← hdue, hgood]
    exact ⟨fun h => ⟨hzero, h.2⟩, fun h => ⟨heven, h.2⟩⟩
  · refine iff_of_false (fun h => hzero fun e he hz => ?_) fun h => hzero h.1
    -- a child of hash zero is never returned, as no other entry leads to it
    have hone := h e.2 (List.mem_map_of_mem he)
    have hmem : e.2 ∈ t.returned := List.count_pos_iff.mp (by omega)
    obtain ⟨hash, hentry, hne⟩ := mem_listed.mp (hreturned e.2 hmem)
    obtain ⟨-, n, hn, -, hmap⟩ := hat'
    have hnodup := (hinv.different d n map' hn hmap).1
    have hentries := List.inj_on_of_nodup_map hnodup (hkept e he) hentry rfl
    rw [hentries] at hz
    exact hne hz

/-- The root with the file `b` in it, opened. -/
theorem oneFile_used : ∃ s : Vfs, s.Used (fun _ => 0#8) ∧ (⟨s, [], false⟩ : Listing).At 0 0 0
      (StringHashMap.new.insert [98#8] 1) ∧
    (∃ t, run (step (fun _ => 0#8) 0) ⟨s, [], false⟩ [.readEntries, .readEntries] = .ok t ∧
      t.ended = true) ∧
    ∃ t, run (step (fun _ => 0#8) 0) ⟨s, [], false⟩
      [.readEntries, .create [97#8] .file, .readEntries, .readEntries] = .ok t ∧ t.ended = true ∧
      t.returned = [1, 1] := by
  obtain ⟨s, hs⟩ : ∃ s, Vfs.step (fun _ => 0#8) Vfs.new.mount (.create [98#8] .file) = .ok s := ⟨_, rfl⟩
  obtain ⟨s', hs'⟩ : ∃ s', Vfs.step (fun _ => 0#8) s (.openFile [47#8] .readOnly) = .ok s' := by
    cases hs
    exact ⟨_, rfl⟩
  refine ⟨s', (Vfs.Used.new.mount.step hs).step hs', ?_⟩
  cases hs
  cases hs'
  exact ⟨⟨⟨_, rfl, rfl, rfl⟩, _, rfl, rfl, rfl⟩, ⟨_, rfl, rfl⟩, _, rfl, rfl, rfl⟩

/-- The file is listed once. -/
theorem each_once_oneFile : ∃ s t, s.Used (fun _ => 0#8) ∧
    run (step (fun _ => 0#8) 0) ⟨s, [], false⟩ [.readEntries, .readEntries] = .ok t ∧
    ((∀ c ∈ (StringHashMap.new.insert [98#8] 1 : StringHashMap 256 Nat).order.map Prod.snd,
        t.returned.count c = 1) ↔
      (∀ e ∈ (StringHashMap.new.insert [98#8] 1 : StringHashMap 256 Nat).order, e.1 ≠ 0) ∧
      Ahead (step (fun _ => 0#8) 0) (Undisturbed
        ((StringHashMap.new.insert [98#8] 1 : StringHashMap 256 Nat).order.map Prod.snd) 0 0)
        ⟨s, [], false⟩ [.readEntries, .readEntries]) := by
  obtain ⟨s, hb, hat, ⟨t, hr, hend⟩, -⟩ := oneFile_used
  exact ⟨s, t, hb, hr, each_once_iff hb hat hr hend⟩

/-- The file `b` is listed, `a` is made, whose bucket comes before that of `b`, and `b` is listed again. -/
theorem created_child_repeats : ¬∀ (s : Vfs) (fd d : Nat) (map : StringHashMap 256 Nat)
    (calls : List ListCall) (t : Listing), s.Used (fun _ => 0#8) →
      (⟨s, [], false⟩ : Listing).At fd d 0 map →
      run (step (fun _ => 0#8) fd) ⟨s, [], false⟩ calls = .ok t → t.ended = true →
      ∀ c ∈ map.order.map Prod.snd, t.returned.count c = 1 := by
  intro h
  obtain ⟨s, hb, hat, -, t, hr, hend, hreturned⟩ := oneFile_used
  have hfree : (StringHashMap.new : StringHashMap 256 Nat).get [98#8] = none := rfl
  have hmem := (Vfs.mem_order_insert hfree 1).mpr (Or.inl rfl)
  have hchild : 1 ∈ (StringHashMap.new.insert [98#8] 1 : StringHashMap 256 Nat).order.map Prod.snd :=
    List.mem_map_of_mem (f := Prod.snd) hmem
  have hone := h s 0 0 _ _ t hb hat hr hend 1 hchild
  rw [hreturned] at hone
  cases hone

end Listing

end UmbraOS
