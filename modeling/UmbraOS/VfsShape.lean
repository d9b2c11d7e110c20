import UmbraOS.RootedTree
import UmbraOS.Runs
import UmbraOS.VfsTree

namespace UmbraOS

namespace StringHashMap

variable {capacity : Nat} {Value : Type}

theorem insert_of_absent {map : StringHashMap capacity Value} {key : CString}
    (h : map.get key = none) (value : Value) (i : Nat) : (map.insert key value).entries i =
      if i = (hashKey key).toNat % capacity then map.entries i ++ [(hashKey key, value)]
      else map.entries i := by
  have hentries : (map.insert key value).entries i = if i = (hashKey key).toNat % capacity then
      insertChain (hashKey key, value) (map.entries i) else map.entries i := rfl
  rw [hentries]
  split
  next hi =>
    subst hi
    apply insertChain_of_absent
    exact Option.map_eq_none_iff.mp h
  next => rfl

end StringHashMap

namespace CString

/-- All characters of a string but the first, and its terminator, are the ones at `second`. -/
def Matches (first : CString) (second : Nat → Byte) : Prop :=
  ∀ i < first.length, first.getD (i + 1) 0#8 = second (i + 1)

theorem strcmpFrom_iff {second : Nat → Byte} {first : CString} {i : Nat} :
    strcmpFrom second first i = true ↔
      ∀ j < first.length, first.getD (j + 1) 0#8 = second (i + j + 1) := by
  induction first generalizing i with
  | nil => exact ⟨fun _ j hj => absurd hj (Nat.not_lt_zero j), fun _ => rfl⟩
  | cons c cs ih =>
    have hhead : cs.headD 0#8 = (c :: cs).getD 1 0#8 := by cases cs <;> rfl
    unfold strcmpFrom
    rw [hhead]
    split
    next hne =>
      apply iff_of_false
      · exact Bool.false_ne_true
      · exact fun h => hne (h 0 (Nat.succ_pos _))
    next heq =>
      rw [ih]
      constructor
      · intro h j hj
        cases j with
        | zero => exact not_not.mp heq
        | succ j =>
          rw [List.getD_cons_succ, h j (Nat.lt_of_succ_lt_succ hj), Nat.add_right_comm i 1 j]
          rfl
      · intro h j hj
        have hnext := h (j + 1) (Nat.succ_lt_succ hj)
        rw [List.getD_cons_succ] at hnext
        rw [hnext, Nat.add_right_comm i 1 j]
        rfl

theorem strcmp_iff {first : CString} {second : Nat → Byte} :
    strcmp first second = true ↔ first.Matches second := by
  unfold strcmp Matches
  rw [strcmpFrom_iff]
  simp only [Nat.zero_add]

end CString

namespace Vfs

open StringHashMap (hashKey)

/-- A place in the children of a node: the node, the bucket and the position in its chain. -/
abbrev Place := Nat × Nat × Nat

/-- The children have the node `c` at a place, under the hash `hash`. -/
def HeldAt (s : Vfs) (p : Place) (hash : BitVec 32) (c : Nat) : Prop :=
  ∃ n map, s.nodes.cell p.1 = some n ∧ n.children = some map ∧
    (map.entries p.2.1)[p.2.2]? = some (hash, c)

/-- The children of the node `a` have the node `c`. -/
def Holds (s : Vfs) (a c : Nat) : Prop := ∃ i j hash, s.HeldAt (a, i, j) hash c

/-- The nodes are a tree below the root; each is at one place in the children of its parent, where
its own hash belongs, and has children exactly when it is a directory; no two share an inode. -/
structure Tree (s : Vfs) : Prop where
  shape : ∃ r, s.rootMountpoint = some r ∧ RootedTree {c | s.nodes.cell c ≠ none} s.Holds r
  parent : ∀ p hash c, s.HeldAt p hash c → ∃ n, s.nodes.cell c = some n ∧ n.parent = some p.1 ∧
    hash = hashKey n.name ∧ p.2.1 = (hashKey n.name).toNat % 256
  single : ∀ p q hash hash' c, s.HeldAt p hash c → s.HeldAt q hash' c → p = q
  kind : ∀ c n, s.nodes.cell c = some n → (n.children ≠ none ↔ n.type = .directory)
  inodes : ∀ c d n m, s.nodes.cell c = some n → s.nodes.cell d = some m → n.inode = m.inode → c = d

/-- A tree whose inodes were all handed out. -/
structure Grown (s : Vfs) : Prop extends Tree s where
  handedOut : ∀ c n, s.nodes.cell c = some n → n.inode < s.nextInode

theorem mount_cell (c : Nat) : Vfs.new.mount.nodes.cell c = if c = 0 then
    some ⟨[CString.slash], .directory, none, some StringHashMap.new, .null, 0, 0, 0⟩ else none := rfl

theorem mount_grown : Grown Vfs.new.mount := by
  have hcell : ∀ c n, Vfs.new.mount.nodes.cell c = some n → c = 0 ∧
      n = ⟨[CString.slash], .directory, none, some StringHashMap.new, .null, 0, 0, 0⟩ := by
    intro c n hn
    rw [mount_cell] at hn
    split at hn
    next h => exact ⟨h, (Option.some.inj hn).symm⟩
    next => cases hn
  have hnone : ∀ p hash c, ¬Vfs.new.mount.HeldAt p hash c := by
    intro p hash c h
    obtain ⟨n, map, hn, hmap, hentry⟩ := h
    obtain ⟨_, rfl⟩ := hcell p.1 n hn
    obtain rfl := Option.some.inj hmap
    cases hentry
  have hnodes : {c | Vfs.new.mount.nodes.cell c ≠ none} = {0} := by
    ext c
    rw [Set.mem_ofPred_eq, mount_cell, Set.mem_singleton_iff]
    split
    next h => exact ⟨fun _ => h, fun _ hc => by cases hc⟩
    next h => exact ⟨fun hc => absurd rfl hc, fun hc => absurd hc h⟩
  refine ⟨⟨⟨0, rfl, ?_⟩, ?_, ?_, ?_, ?_⟩, ?_⟩
  · rw [hnodes]
    apply RootedTree.singleton
    rintro a b ⟨i, j, hash, h⟩
    exact hnone _ _ _ h
  · exact fun p hash c h => absurd h (hnone p hash c)
  · exact fun p q hash hash' c h => absurd h (hnone p hash c)
  · intro c n hn
    obtain ⟨_, rfl⟩ := hcell c n hn
    exact ⟨fun _ => rfl, fun _ h => by cases h⟩
  · intro c d n m hn hm _
    rw [(hcell c n hn).1, (hcell d m hm).1]
  · intro c n hn
    obtain ⟨_, rfl⟩ := hcell c n hn
    exact Nat.one_pos

/-- The tree with a new node below `parent`, whose children were `map`. -/
def withChild (s : Vfs) (parent : Nat) (name : CString) (type : NodeType)
    (map : StringHashMap 256 Nat) : Vfs :=
  { s with
    nodes := (s.nodes.alloc ⟨name, type, some parent,
      if type = .directory then some StringHashMap.new else none, .null, 0, 0, s.nextInode⟩).adjust
        parent fun n => { n with children := some (map.insert name s.nodes.next) }
    nextInode := s.nextInode + 1 }

theorem addChild_eq {s : Vfs} {parent : Nat} {above : Node} (name : CString) (type : NodeType)
    (hp : s.nodes.cell parent = some above) : s.addChild parent name type =
      match above.children with
      | none => .error .nullDeref
      | some map => .ok (s.nodes.next, s.withChild parent name type map) := by
  unfold addChild
  simp only [CellStore.read_live (CellStore.alloc_cell_of_live _ hp), Except.ok_bind]
  cases above.children with
  | none => rfl
  | some map =>
    simp only [CellStore.modify_live _ (CellStore.alloc_cell_of_live _ hp), Except.ok_bind]
    rfl

/-- A child is only added below a node that has a map of children. -/
theorem addChild_ok {s s' : Vfs} {parent c : Nat} {above : Node} {name : CString} {type : NodeType}
    (hp : s.nodes.cell parent = some above) (hadd : s.addChild parent name type = .ok (c, s')) :
    ∃ map, above.children = some map ∧ c = s.nodes.next ∧ s' = s.withChild parent name type map := by
  rw [addChild_eq name type hp] at hadd
  split at hadd
  next => cases hadd
  next map hmap =>
    cases hadd
    exact ⟨map, hmap, rfl, rfl⟩

section WithChild

variable {s : Vfs} {parent : Nat} {above : Node} {name : CString} {type : NodeType}
  {map : StringHashMap 256 Nat}

theorem withChild_parent (hp : s.nodes.cell parent = some above) :
    (s.withChild parent name type map).nodes.cell parent =
      some { above with children := some (map.insert name s.nodes.next) } :=
  CellStore.adjust_cell_self _ (CellStore.alloc_cell_of_live _ hp)

theorem withChild_new (hp : s.nodes.cell parent = some above) :
    (s.withChild parent name type map).nodes.cell s.nodes.next =
      some ⟨name, type, some parent, if type = .directory then some StringHashMap.new else none,
        .null, 0, 0, s.nextInode⟩ := by
  have hlt := CellStore.lt_next hp
  unfold withChild
  simp only
  rw [CellStore.adjust_cell_ne _ _ (by omega), CellStore.alloc_cell_self]

theorem withChild_other {c : Nat} (hc : c ≠ parent) (hn : c ≠ s.nodes.next) :
    (s.withChild parent name type map).nodes.cell c = s.nodes.cell c := by
  unfold withChild
  simp only
  rw [CellStore.adjust_cell_ne _ _ hc, CellStore.alloc_cell, if_neg hn]

theorem withChild_old (hp : s.nodes.cell parent = some above) {c : Nat} {n : Node}
    (h : s.nodes.cell c = some n) : ∃ children,
      (s.withChild parent name type map).nodes.cell c = some { n with children } := by
  have hlt := CellStore.lt_next h
  by_cases hc : c = parent
  · subst hc
    obtain rfl := Option.some.inj (hp.symm.trans h)
    exact ⟨_, withChild_parent hp⟩
  · rw [withChild_other hc (by omega)]
    exact ⟨n.children, h⟩

/-- The nodes after a child was added: those there were, the parent with more children, and the
child. -/
theorem withChild_cell (hp : s.nodes.cell parent = some above) {c : Nat} {n : Node}
    (h : (s.withChild parent name type map).nodes.cell c = some n) :
    (c = s.nodes.next ∧ n = ⟨name, type, some parent,
        if type = .directory then some StringHashMap.new else none, .null, 0, 0, s.nextInode⟩) ∨
      ∃ old, s.nodes.cell c = some old ∧ n = { old with children := n.children } ∧
        (n.children = old.children ∨
          c = parent ∧ n.children = some (map.insert name s.nodes.next)) := by
  by_cases hn : c = s.nodes.next
  · subst hn
    rw [withChild_new hp] at h
    exact Or.inl ⟨rfl, (Option.some.inj h).symm⟩
  · right
    by_cases hc : c = parent
    · subst hc
      rw [withChild_parent hp] at h
      obtain rfl := Option.some.inj h
      exact ⟨above, hp, rfl, Or.inr ⟨rfl, rfl⟩⟩
    · rw [withChild_other hc hn] at h
      exact ⟨n, h, rfl, Or.inl rfl⟩

theorem withChild_heldAt (hp : s.nodes.cell parent = some above) (hmap : above.children = some map)
    (hfree : map.get name = none) {p : Place} {hash : BitVec 32} {c : Nat} :
    (s.withChild parent name type map).HeldAt p hash c ↔ s.HeldAt p hash c ∨
      p = (parent, (hashKey name).toNat % 256,
        (map.entries ((hashKey name).toNat % 256)).length) ∧
      hash = hashKey name ∧ c = s.nodes.next := by
  have hinsert := StringHashMap.insert_of_absent hfree s.nodes.next
  constructor
  · intro h
    obtain ⟨n, m, hn, hm, hentry⟩ := h
    rcases withChild_cell hp hn with ⟨_, rfl⟩ | ⟨old, ho, _, hsame | ⟨hat, hmore⟩⟩
    · simp only at hm
      split at hm
      next =>
        obtain rfl := Option.some.inj hm
        cases hentry
      next => cases hm
    · exact Or.inl ⟨old, m, ho, hsame.symm.trans hm, hentry⟩
    · obtain rfl := Option.some.inj (hmore.symm.trans hm)
      rw [hinsert] at hentry
      have hbefore : (map.entries p.2.1)[p.2.2]? = some (hash, c) → s.HeldAt p hash c :=
        fun he => ⟨above, map, by rw [hat]; exact hp, hmap, he⟩
      split at hentry
      next hi =>
        rcases getElem?_concat_eq_some.mp hentry with hold | ⟨hend, hlast⟩
        · exact Or.inl (hbefore hold)
        · obtain ⟨rfl, rfl⟩ := Prod.mk.inj hlast
          rw [hi] at hend
          exact Or.inr ⟨Prod.ext hat (Prod.ext hi hend), rfl, rfl⟩
      next => exact Or.inl (hbefore hentry)
  · intro h
    rcases h with ⟨n, m, hn, hm, hentry⟩ | ⟨rfl, rfl, rfl⟩
    · by_cases ha : p.1 = parent
      · rw [ha, hp] at hn
        obtain rfl := Option.some.inj hn
        obtain rfl := Option.some.inj (hmap.symm.trans hm)
        refine ⟨_, _, by rw [ha]; exact withChild_parent hp, rfl, ?_⟩
        rw [hinsert]
        split
        next => exact getElem?_concat_eq_some.mpr (Or.inl hentry)
        next => exact hentry
      · have hlt := CellStore.lt_next hn
        refine ⟨n, m, ?_, hm, hentry⟩
        rw [withChild_other ha (by omega)]
        exact hn
    · refine ⟨_, _, withChild_parent hp, rfl, ?_⟩
      rw [hinsert, if_pos rfl]
      exact getElem?_concat_eq_some.mpr (Or.inr ⟨rfl, rfl⟩)

theorem withChild_holds (hp : s.nodes.cell parent = some above)
    (hmap : above.children = some map) (hfree : map.get name = none) :
    (s.withChild parent name type map).Holds =
      RootedTree.addEdge s.Holds parent s.nodes.next := by
  funext a c
  apply propext
  unfold Holds
  simp only [withChild_heldAt hp hmap hfree]
  constructor
  · intro h
    obtain ⟨i, j, hash, hold | ⟨hplace, _, rfl⟩⟩ := h
    · exact Or.inl ⟨i, j, hash, hold⟩
    · exact Or.inr ⟨(Prod.mk.inj hplace).1, rfl⟩
  · intro h
    rcases h with ⟨i, j, hash, hold⟩ | ⟨rfl, rfl⟩
    · exact ⟨i, j, hash, Or.inl hold⟩
    · exact ⟨_, _, _, Or.inr ⟨rfl, rfl, rfl⟩⟩

theorem withChild_nodes (hp : s.nodes.cell parent = some above) :
    {c | (s.withChild parent name type map).nodes.cell c ≠ none} =
      insert s.nodes.next {c | s.nodes.cell c ≠ none} := by
  ext c
  rw [Set.mem_ofPred_eq, Set.mem_insert_iff, Set.mem_ofPred_eq]
  constructor
  · intro h
    obtain ⟨n, hn⟩ := Option.ne_none_iff_exists'.mp h
    rcases withChild_cell hp hn with ⟨hnew, _⟩ | ⟨old, ho, _⟩
    · exact Or.inl hnew
    · exact Or.inr (Option.ne_none_iff_exists'.mpr ⟨old, ho⟩)
  · intro h
    rcases h with rfl | h
    · exact Option.ne_none_iff_exists'.mpr ⟨_, withChild_new hp⟩
    · obtain ⟨n, hn⟩ := Option.ne_none_iff_exists'.mp h
      obtain ⟨children, hchildren⟩ := withChild_old hp hn
      exact Option.ne_none_iff_exists'.mpr ⟨_, hchildren⟩

/-- What the cells of two trees may differ in, for the inode of a node to be an older one. -/
theorem withChild_inode (hp : s.nodes.cell parent = some above) {c : Nat} {n : Node}
    (h : (s.withChild parent name type map).nodes.cell c = some n) :
    c = s.nodes.next ∧ n.inode = s.nextInode ∨
      ∃ old, s.nodes.cell c = some old ∧ n.inode = old.inode := by
  rcases withChild_cell hp h with ⟨hnew, rfl⟩ | ⟨old, ho, hsame, _⟩
  · exact Or.inl ⟨hnew, rfl⟩
  · exact Or.inr ⟨old, ho, by rw [hsame]⟩

theorem Grown.withChild (h : Grown s) (hp : s.nodes.cell parent = some above)
    (hmap : above.children = some map) (hfree : map.get name = none) :
    Grown (s.withChild parent name type map) := by
  have hheld : ∀ {p : Place} {hash : BitVec 32} {c : Nat},
      (s.withChild parent name type map).HeldAt p hash c ↔ s.HeldAt p hash c ∨
        p = (parent, (hashKey name).toNat % 256,
          (map.entries ((hashKey name).toNat % 256)).length) ∧
        hash = hashKey name ∧ c = s.nodes.next := withChild_heldAt hp hmap hfree
  have hlive : ∀ p hash c, s.HeldAt p hash c → c < s.nodes.next := by
    intro p hash c hold
    obtain ⟨n, hn, _⟩ := h.parent p hash c hold
    exact CellStore.lt_next hn
  refine ⟨⟨?_, ?_, ?_, ?_, ?_⟩, ?_⟩
  · obtain ⟨r, hr, htree⟩ := h.shape
    refine ⟨r, hr, ?_⟩
    rw [withChild_nodes hp, withChild_holds hp hmap hfree]
    apply htree.addLeaf
    · exact Option.ne_none_iff_exists'.mpr ⟨above, hp⟩
    · intro hnew
      exact hnew (s.nodes.fresh _ (le_refl _))
  · intro p hash c hc
    rcases hheld.mp hc with hold | ⟨rfl, rfl, rfl⟩
    · obtain ⟨n, hn, hparent, hhash, hbucket⟩ := h.parent p hash c hold
      obtain ⟨children, hn'⟩ := withChild_old hp hn
      exact ⟨_, hn', hparent, hhash, hbucket⟩
    · exact ⟨_, withChild_new hp, rfl, rfl, rfl⟩
  · intro p q hash hash' c hc hc'
    rcases hheld.mp hc with hold | ⟨rfl, _, hnew⟩
    · have hlt := hlive p hash c hold
      rcases hheld.mp hc' with hold' | ⟨_, _, hnew⟩
      · exact h.single p q hash hash' c hold hold'
      · omega
    · rcases hheld.mp hc' with hold' | ⟨rfl, _, _⟩
      · have hlt := hlive q hash' c hold'
        omega
      · rfl
  · intro c n hn
    rcases withChild_cell hp hn with ⟨_, rfl⟩ | ⟨old, ho, hsame, hchildren⟩
    · simp only
      split
      next hdir => exact ⟨fun _ => hdir, fun _ hnone => by cases hnone⟩
      next hdir => exact ⟨fun hnone => absurd rfl hnone, fun hd => absurd hd hdir⟩
    · have htype : n.type = old.type := by rw [hsame]
      rw [htype, ← h.kind c old ho]
      rcases hchildren with he | ⟨rfl, hmore⟩
      · rw [he]
      · obtain rfl := Option.some.inj (hp.symm.trans ho)
        rw [hmore, hmap]
        exact iff_of_true (Option.some_ne_none _) (Option.some_ne_none _)
  · intro c d n m hn hm he
    rcases withChild_inode hp hn with ⟨rfl, hc⟩ | ⟨old, ho, hc⟩
    · rcases withChild_inode hp hm with ⟨rfl, _⟩ | ⟨old, ho, hd⟩
      · rfl
      · have := h.handedOut d old ho
        omega
    · have hlt := h.handedOut c old ho
      rcases withChild_inode hp hm with ⟨rfl, hd⟩ | ⟨old', ho', hd⟩
      · omega
      · exact h.inodes c d old old' ho ho' (hc.symm.trans (he.trans hd))
  · intro c n hn
    have hnext : (s.withChild parent name type map).nextInode = s.nextInode + 1 := rfl
    rw [hnext]
    rcases withChild_inode hp hn with ⟨_, hc⟩ | ⟨old, ho, hc⟩
    · omega
    · have := h.handedOut c old ho
      omega

end WithChild

theorem child_holds {s : Vfs} {a c : Nat} {name : CString} (h : s.child a name = some c) :
    s.Holds a c := by
  obtain ⟨n, map, hn, hmap, hget⟩ := child_eq_some.mp h
  obtain ⟨⟨hash, d⟩, hfind, rfl⟩ := Option.map_eq_some_iff.mp hget
  obtain ⟨j, hj⟩ := List.mem_iff_getElem?.mp (List.mem_of_find?_eq_some hfind)
  exact ⟨_, j, hash, n, map, hn, hmap, hj⟩

theorem Grown.child_live {s : Vfs} (h : Grown s) {a c : Nat} {name : CString}
    (hc : s.child a name = some c) : ∃ n, s.nodes.cell c = some n := by
  obtain ⟨i, j, hash, hheld⟩ := child_holds hc
  obtain ⟨n, hn, _⟩ := h.parent _ _ _ hheld
  exact ⟨n, hn⟩

theorem Grown.addChild {s s' : Vfs} {parent node : Nat} {above : Node} {name : CString}
    {type : NodeType} (h : Grown s) (hp : s.nodes.cell parent = some above)
    (hfree : s.child parent name = none) (hadd : s.addChild parent name type = .ok (node, s')) :
    Grown s' := by
  obtain ⟨map, hmap, rfl, rfl⟩ := addChild_ok hp hadd
  rw [child_of_cell hp, hmap] at hfree
  exact h.withChild hp hmap hfree

/-- Whatever a call of `create` makes, the tree is one when it returns. -/
theorem Grown.createLoop {literal : Nat → Byte} {type : NodeType} {turns parent node : Nat}
    {s s' : Vfs} {path : CString} (h : Grown s)
    (hs : createLoop literal type turns s parent path = .ok (node, s')) : Grown s' :=
  createLoop_invariant (fun h hp hfree hadd => h.addChild hp hfree hadd) h hs

/-- No node that a path goes through, before its last component, is a file. -/
def ThroughDirectories (s : Vfs) : Nat → Nat → CString → Prop
  | 0, _, _ => True
  | turns + 1, a, path => path = [] ∨
    (∀ n, s.nodes.cell a = some n → n.type = .directory) ∧
      ∀ c, s.child a (CString.component path) = some c →
        ThroughDirectories s turns c (CString.rest path)

/-- No rest of a path but the empty one matches the memory at the empty string. -/
def RestsSeen (literal : Nat → Byte) : Nat → CString → Prop
  | 0, _ => True
  | turns + 1, path => path = [] ∨
    ((CString.rest path).Matches literal → CString.rest path = []) ∧
      RestsSeen literal turns (CString.rest path)

/-- None does behind a component that is missing, from the node `a` on. -/
def MissingSeen (literal : Nat → Byte) (s : Vfs) : Nat → Nat → CString → Prop
  | 0, _, _ => True
  | turns + 1, a, path => path = [] ∨
    match s.child a (CString.component path) with
    | some c => MissingSeen literal s turns c (CString.rest path)
    | none => RestsSeen literal (turns + 1) path

/-- Below a node without children all components are missing. -/
theorem missingSeen_of_childless {literal : Nat → Byte} {s : Vfs} {turns a : Nat} {path : CString}
    (h : ∀ name, s.child a name = none) :
    s.MissingSeen literal turns a path ↔ RestsSeen literal turns path := by
  cases turns with
  | zero => exact Iff.rfl
  | succ turns =>
    unfold MissingSeen
    rw [h]
    constructor
    · intro hseen
      rcases hseen with hnil | hseen
      · exact Or.inl hnil
      · exact hseen
    · exact Or.inr

theorem throughDirectories_of_childless {s : Vfs} {turns a : Nat} {path : CString} {n : Node}
    (h : ∀ name, s.child a name = none) (hn : s.nodes.cell a = some n)
    (hd : path = [] ∨ n.type = .directory) : s.ThroughDirectories turns a path := by
  cases turns with
  | zero => trivial
  | succ turns =>
    rcases hd with hnil | hd
    · exact Or.inl hnil
    · refine Or.inr ⟨fun m hm => ?_, fun c hc => ?_⟩
      · obtain rfl := Option.some.inj (hn.symm.trans hm)
        exact hd
      · rw [h] at hc
        cases hc

section CreateLoop

variable {literal : Nat → Byte} {type : NodeType} {turns parent : Nat} {s : Vfs} {above : Node}
  {path : CString}

theorem createLoop_found {c : Nat} (hne : path ≠ []) (hp : s.nodes.cell parent = some above)
    (hc : s.child parent (CString.component path) = some c) :
    createLoop literal type (turns + 1) s parent path =
      createLoop literal type turns s c (CString.rest path) := by
  rw [child_of_cell hp] at hc
  rw [createLoop, if_neg hne, CellStore.read_live hp, Except.ok_bind]
  simp only [hc]

theorem createLoop_missing (hne : path ≠ []) (hp : s.nodes.cell parent = some above)
    (hfree : s.child parent (CString.component path) = none) :
    createLoop literal type (turns + 1) s parent path =
      (do let (node, s) ← s.addChild parent (CString.component path)
            (if CString.strcmp (CString.rest path) literal then type else .directory)
          createLoop literal type turns s node (CString.rest path)) := by
  rw [child_of_cell hp] at hfree
  rw [createLoop, if_neg hne, CellStore.read_live hp, Except.ok_bind]
  simp only [hfree]

/-- A file has no children to put a new node into. -/
theorem createLoop_below_file (hne : path ≠ []) (hp : s.nodes.cell parent = some above)
    (hnone : above.children = none) :
    createLoop literal type (turns + 1) s parent path = .error .nullDeref := by
  have hfree : s.child parent (CString.component path) = none := by
    rw [child_of_cell hp, hnone, Option.bind_none]
  rw [createLoop_missing hne hp hfree, addChild_eq _ _ hp, hnone]
  rfl

theorem withChild_childless {name : CString} {map : StringHashMap 256 Nat}
    (hp : s.nodes.cell parent = some above) (key : CString) :
    (s.withChild parent name type map).child s.nodes.next key = none := by
  rw [child_of_cell (withChild_new hp)]
  simp only
  split
  next => rfl
  next => rfl

/-- A component that is not made a directory is taken for the last one, of a file. -/
theorem kind_of_ne_directory {last : Bool} {type kind : NodeType}
    (hkind : (if last then type else NodeType.directory) = kind) (hne : kind ≠ .directory) :
    last = true ∧ type = .file := by
  cases last with
  | false => exact absurd hkind.symm hne
  | true =>
    cases type with
    | file => exact ⟨rfl, rfl⟩
    | directory => exact absurd hkind.symm hne

/-- On a path that goes through directories only, the loop comes to its end unless it makes a file
of a component that is not the last one. -/
theorem createLoop_ok_iff (h : Grown s) (hp : s.nodes.cell parent = some above)
    (hturns : path.length ≤ turns) (hdirs : s.ThroughDirectories turns parent path) :
    (∃ r, createLoop literal type turns s parent path = .ok r) ↔
      (type = .file → s.MissingSeen literal turns parent path) := by
  induction turns generalizing s parent above path with
  | zero => exact ⟨fun _ _ => trivial, fun _ => ⟨_, rfl⟩⟩
  | succ turns ih =>
    by_cases hnil : path = []
    · refine ⟨fun _ _ => Or.inl hnil, fun _ => ?_⟩
      rw [createLoop, if_pos hnil]
      exact ⟨_, rfl⟩
    · have hrest : (CString.rest path).length ≤ turns := by
        have := CString.rest_length hnil
        omega
      obtain ⟨hdir, hdown⟩ := hdirs.resolve_left hnil
      obtain ⟨map, hmap⟩ := Option.ne_none_iff_exists'.mp ((h.kind _ _ hp).mpr (hdir _ hp))
      have hseen : s.MissingSeen literal (turns + 1) parent path ↔
          match s.child parent (CString.component path) with
          | some c => s.MissingSeen literal turns c (CString.rest path)
          | none => RestsSeen literal (turns + 1) path :=
        ⟨fun hs => hs.resolve_left hnil, Or.inr⟩
      rw [hseen]
      cases hc : s.child parent (CString.component path) with
      | some c =>
        obtain ⟨n, hn⟩ := h.child_live hc
        rw [createLoop_found hnil hp hc]
        exact ih h hn hrest (hdown c hc)
      | none =>
        have hfree : map.get (CString.component path) = none := by
          rw [child_of_cell hp, hmap, Option.bind_some] at hc
          exact hc
        have hrests : RestsSeen literal (turns + 1) path ↔
            ((CString.rest path).Matches literal → CString.rest path = []) ∧
              RestsSeen literal turns (CString.rest path) :=
          ⟨fun hs => hs.resolve_left hnil, Or.inr⟩
        rw [createLoop_missing hnil hp hc, addChild_eq _ _ hp, hmap]
        simp only [Except.ok_bind, hrests]
        generalize hkind : (if CString.strcmp (CString.rest path) literal then type
          else NodeType.directory) = kind
        by_cases hgo : CString.rest path = [] ∨ kind = .directory
        · have hloop := ih (h.withChild hp hmap hfree) (withChild_new hp) hrest
            (throughDirectories_of_childless (withChild_childless hp) (withChild_new hp) hgo)
          rw [hloop, missingSeen_of_childless (withChild_childless hp)]
          refine forall_congr' fun hfile => ?_
          have hlast : (CString.rest path).Matches literal → CString.rest path = [] := by
            intro hmatches
            have hcmp := CString.strcmp_iff.mpr hmatches
            rcases hgo with he | hdirectory
            · exact he
            · rw [if_pos hcmp, hfile, hdirectory] at hkind
              cases hkind
          exact ⟨fun hs => ⟨hlast, hs⟩, And.right⟩
        · obtain ⟨hmore, hkindFile⟩ := not_or.mp hgo
          obtain ⟨hcmp, hfile⟩ := kind_of_ne_directory hkind hkindFile
          cases turns with
          | zero => exact absurd (List.eq_nil_of_length_eq_zero (Nat.le_zero.mp hrest)) hmore
          | succ turns =>
            rw [createLoop_below_file hmore (withChild_new hp) (if_neg hkindFile)]
            refine iff_of_false (fun hs => ?_) fun hs => hmore ((hs hfile).1 (CString.strcmp_iff.mp hcmp))
            obtain ⟨_, hs⟩ := hs
            cases hs

end CreateLoop

/-- A call of `create`. -/
structure Create where
  path : CString
  type : NodeType

def createStep (literal : Nat → Byte) (s : Vfs) (call : Create) : Except Trap Vfs :=
  (s.create literal call.path call.type).map Prod.snd

/-- The path of a call goes through no node that is a file. -/
def Walks (s : Vfs) (call : Create) : Prop :=
  ∀ r, s.rootMountpoint = some r → s.ThroughDirectories call.path.length r call.path

/-- In a call that makes a file, no rest of the path behind a component that is missing, but the
empty one, matches the memory at the empty string. -/
def Seen (literal : Nat → Byte) (s : Vfs) (call : Create) : Prop :=
  call.type = .file → ∀ r, s.rootMountpoint = some r →
    s.MissingSeen literal call.path.length r call.path

theorem createStep_eq {literal : Nat → Byte} {s : Vfs} {call : Create} {r : Nat}
    (hr : s.rootMountpoint = some r) : createStep literal s call =
      (createLoop literal call.type call.path.length s r call.path).map Prod.snd := by
  unfold createStep create
  rw [hr]
  simp only
  cases createLoop literal call.type call.path.length s r call.path with
  | ok result => rfl
  | error trap => rfl

theorem Grown.createStep {literal : Nat → Byte} {s s' : Vfs} {call : Create} (h : Grown s)
    (hs : createStep literal s call = .ok s') : Grown s' := by
  obtain ⟨r, hr, _⟩ := h.shape
  rw [createStep_eq hr] at hs
  cases hloop : Vfs.createLoop literal call.type call.path.length s r call.path with
  | error trap =>
    rw [hloop] at hs
    cases hs
  | ok result =>
    rw [hloop] at hs
    cases hs
    exact h.createLoop hloop

theorem createStep_ok_iff {literal : Nat → Byte} {s : Vfs} {call : Create} (h : Grown s)
    (hwalks : s.Walks call) : (∃ s', createStep literal s call = .ok s') ↔ s.Seen literal call := by
  obtain ⟨r, hr, htree⟩ := h.shape
  obtain ⟨n, hn⟩ := Option.ne_none_iff_exists'.mp htree.rooted
  have hok : (∃ s', createStep literal s call = .ok s') ↔
      ∃ result, createLoop literal call.type call.path.length s r call.path = .ok result := by
    rw [createStep_eq hr]
    cases createLoop literal call.type call.path.length s r call.path with
    | ok result => exact ⟨fun _ => ⟨_, rfl⟩, fun _ => ⟨_, rfl⟩⟩
    | error trap =>
      constructor
      · rintro ⟨_, hs⟩
        cases hs
      · rintro ⟨_, hs⟩
        cases hs
  rw [hok, createLoop_ok_iff h hn (le_refl _) (hwalks r hr)]
  unfold Seen
  refine forall_congr' fun _ => ⟨fun hs r' hr' => ?_, fun hs => hs r hr⟩
  obtain rfl := Option.some.inj (hr.symm.trans hr')
  exact hs

/-- Every sequence of calls whose paths go through no file comes to its end, and with a tree,
exactly when no call takes a rest of its path for the end of it. -/
theorem create_tree_iff {literal : Nat → Byte} {calls : List Create}
    (hwalks : Ahead (createStep literal) Walks Vfs.new.mount calls) :
    (∃ s, run (createStep literal) Vfs.new.mount calls = .ok s ∧ Tree s) ↔
      Ahead (createStep literal) (Seen literal) Vfs.new.mount calls := by
  have hgoes : ∀ s call, Grown s → Walks s call →
      ((∃ s', createStep literal s call = .ok s') ↔ s.Seen literal call) :=
    fun s call h hw => createStep_ok_iff h hw
  have hkeep : ∀ s call s', Grown s → Walks s call → createStep literal s call = .ok s' →
      Grown s' := fun s call s' h _ hs => h.createStep hs
  rw [← Ahead.run_iff hgoes hkeep mount_grown hwalks]
  constructor
  · intro h
    obtain ⟨s, hrun, _⟩ := h
    have hgrown : Grown s := run_invariant (fun s call s' h hs => h.createStep hs) mount_grown hrun
    exact ⟨s, hrun, hgrown⟩
  · intro h
    obtain ⟨s, hrun, hgrown⟩ := h
    exact ⟨s, hrun, hgrown.toTree⟩

/-- The directory `a`, and a file in it. -/
theorem directory_then_file : ∃ s, run (createStep fun _ => 0#8) Vfs.new.mount
      [⟨[97#8], .directory⟩, ⟨[97#8, 47#8, 98#8], .file⟩] = .ok s ∧ Tree s := by
  have hwalks : Ahead (createStep fun _ => 0#8) Walks Vfs.new.mount
      [⟨[97#8], .directory⟩, ⟨[97#8, 47#8, 98#8], .file⟩] := by
    refine ⟨fun r hr => ?_, fun s₁ h₁ => ⟨fun r hr => ?_, fun _ _ => trivial⟩⟩
    · cases hr
      exact Or.inr ⟨fun n hn => by cases hn; rfl, fun c hc => by cases hc⟩
    · cases h₁
      cases hr
      refine Or.inr ⟨fun n hn => ?_, fun c hc => ?_⟩
      · cases hn
        rfl
      · cases hc
        exact Or.inr ⟨fun n hn => by cases hn; rfl, fun c hc => by cases hc⟩
  have hseen : Ahead (createStep fun _ => 0#8) (Seen fun _ => 0#8) Vfs.new.mount
      [⟨[97#8], .directory⟩, ⟨[97#8, 47#8, 98#8], .file⟩] := by
    refine ⟨fun hfile => NodeType.noConfusion hfile, fun s₁ h₁ => ⟨fun _ r hr => ?_, ?_⟩⟩
    · cases h₁
      cases hr
      exact Or.inr (Or.inr (Or.inr ⟨fun _ => rfl, Or.inl rfl⟩))
    · exact fun _ _ => trivial
  exact (create_tree_iff hwalks).mpr hseen

/-- The file `a/b` in a new tree: `a` is made a file, and `b` is put into its children. -/
theorem file_made_of_directory :
    Ahead (createStep fun _ => 0#8) Walks Vfs.new.mount [⟨[97#8, 47#8, 98#8], .file⟩] ∧
    run (createStep fun _ => 0#8) Vfs.new.mount [⟨[97#8, 47#8, 98#8], .file⟩] =
      .error .nullDeref ∧
    ¬∃ s, run (createStep fun _ => 0#8) Vfs.new.mount [⟨[97#8, 47#8, 98#8], .file⟩] = .ok s ∧
      Tree s := by
  refine ⟨⟨fun r hr => ?_, fun _ _ => trivial⟩, rfl, ?_⟩
  · cases hr
    exact Or.inr ⟨fun n hn => by cases hn; rfl, fun c hc => by cases hc⟩
  · intro h
    obtain ⟨s, hrun, _⟩ := h
    cases hrun

end Vfs

end UmbraOS
