import UmbraOS.StringHashMapGet
import UmbraOS.Vfs

namespace UmbraOS

namespace CString

/-- The components of a path in the order the loops take them; `turns` bounds their number. -/
def components : Nat → CString → List CString
  | 0, _ => []
  | turns + 1, path => if path = [] then [] else component path :: components turns (rest path)

theorem rest_length {path : CString} (h : path ≠ []) : (rest path).length < path.length := by
  obtain ⟨c, cs, rfl⟩ := List.exists_cons_of_ne_nil h
  have hafter := (List.dropWhile_sublist (· == slash) (l := (c :: cs).dropWhile (· != slash))).length_le
  have hskip := (List.dropWhile_sublist (· == slash) (l := cs)).length_le
  have hname := (List.dropWhile_sublist (· != slash) (l := cs)).length_le
  have hcons : (c :: cs).length = cs.length + 1 := List.length_cons
  unfold rest
  by_cases hc : c = slash
  · have hstay : (c :: cs).dropWhile (· != slash) = c :: cs :=
      List.dropWhile_cons_of_neg (by simp [hc])
    have hgo : (c :: cs).dropWhile (· == slash) = cs.dropWhile (· == slash) :=
      List.dropWhile_cons_of_pos (by simp [hc])
    rw [hstay, hgo]
    omega
  · have hgo : (c :: cs).dropWhile (· != slash) = cs.dropWhile (· != slash) :=
      List.dropWhile_cons_of_pos (by simp [hc])
    rw [hgo] at hafter ⊢
    omega

/-- Any bound from the length of the path on gives all the components. -/
theorem components_turns {turns turns' : Nat} {path : CString} (h : path.length ≤ turns)
    (h' : path.length ≤ turns') : components turns path = components turns' path := by
  induction turns generalizing turns' path with
  | zero =>
    have hnil : path = [] := List.eq_nil_of_length_eq_zero (by omega)
    cases turns' with
    | zero => rfl
    | succ turns' => rw [hnil, components, components, if_pos rfl]
  | succ turns ih =>
    by_cases hnil : path = []
    · rw [hnil, components, if_pos rfl]
      cases turns' with
      | zero => rw [components]
      | succ turns' => rw [components, if_pos rfl]
    · have hrest := rest_length hnil
      cases turns' with
      | zero => omega
      | succ turns' =>
        have hsame : components turns (rest path) = components turns' (rest path) :=
          ih (by omega) (by omega)
        rw [components, components, if_neg hnil, if_neg hnil, hsame]

/-- A leading slash gives a first component that is empty; the other slashes in front do not. -/
theorem components_slash (path : CString) : components (slash :: path).length (slash :: path) =
    [] :: components (slash :: path).length ((slash :: path).dropWhile (· == slash)) := by
  have hname : component (slash :: path) = [] := List.takeWhile_cons_of_neg (by simp)
  have hstay : (slash :: path).dropWhile (· != slash) = slash :: path :=
    List.dropWhile_cons_of_neg (by simp)
  have hrest : rest (slash :: path) = (slash :: path).dropWhile (· == slash) := by
    rw [rest, hstay]
  have hlt := rest_length (List.cons_ne_nil slash path)
  rw [hrest] at hlt
  have hcons : (slash :: path).length = path.length + 1 := List.length_cons
  rw [hcons, components, if_neg (List.cons_ne_nil _ _), hname, hrest]
  have hsame : components path.length ((slash :: path).dropWhile (· == slash)) =
      components (path.length + 1) ((slash :: path).dropWhile (· == slash)) :=
    components_turns (by omega) (by omega)
  rw [hsame]

end CString

namespace Vfs

/-- The child of a node under a name, as the children of a directory give it. -/
def child (s : Vfs) (a : Nat) (name : CString) : Option Nat :=
  ((s.nodes.cell a).bind Node.children).bind fun map => map.get name

/-- The node reached from `a` by names, one directory after another. -/
def walk (s : Vfs) : Nat → List CString → Option Nat
  | a, [] => some a
  | a, name :: names => (s.child a name).bind fun c => walk s c names

theorem child_eq_some {s : Vfs} {a c : Nat} {name : CString} : s.child a name = some c ↔
    ∃ n map, s.nodes.cell a = some n ∧ n.children = some map ∧ map.get name = some c := by
  unfold child
  rw [Option.bind_eq_some_iff]
  constructor
  · intro h
    obtain ⟨map, hmap, hget⟩ := h
    obtain ⟨n, hn, hchildren⟩ := Option.bind_eq_some_iff.mp hmap
    exact ⟨n, map, hn, hchildren, hget⟩
  · intro h
    obtain ⟨n, map, hn, hchildren, hget⟩ := h
    exact ⟨map, Option.bind_eq_some_iff.mpr ⟨n, hn, hchildren⟩, hget⟩

/-- Every node stays below its parent under its name. -/
def Extends (s s' : Vfs) : Prop := ∀ a name c, s.child a name = some c → s'.child a name = some c

theorem Extends.refl (s : Vfs) : Extends s s := fun _ _ _ h => h

theorem Extends.trans {s s' s'' : Vfs} (h : Extends s s') (h' : Extends s' s'') :
    Extends s s'' := fun a name c hc => h' a name c (h a name c hc)

theorem Extends.walk {s s' : Vfs} (h : Extends s s') {a c : Nat} {names : List CString}
    (hw : s.walk a names = some c) : s'.walk a names = some c := by
  induction names generalizing a with
  | nil => exact hw
  | cons name names ih =>
    obtain ⟨b, hb, hrest⟩ := Option.bind_eq_some_iff.mp hw
    exact Option.bind_eq_some_iff.mpr ⟨b, h a name b hb, ih hrest⟩

/-- Each node is one level below the directory that has it as a child, the root is at level 0,
and every child is a live node. -/
structure Levels (s : Vfs) (level : Nat → Nat) : Prop where
  root : ∀ r, s.rootMountpoint = some r → level r = 0
  child : ∀ a name c, s.child a name = some c → level c = level a + 1
  live : ∀ a name c, s.child a name = some c → c < s.nodes.next

theorem Levels.walk {s : Vfs} {level : Nat → Nat} (h : Levels s level) {a c : Nat}
    {names : List CString} (hw : s.walk a names = some c) :
    level c = level a + names.length := by
  induction names generalizing a with
  | nil =>
    obtain rfl := Option.some.inj hw
    rfl
  | cons name names ih =>
    obtain ⟨b, hb, hrest⟩ := Option.bind_eq_some_iff.mp hw
    have hlevel := h.child a name b hb
    have hbelow := ih hrest
    rw [List.length_cons]
    omega

theorem child_of_cell {s : Vfs} {a : Nat} {n : Node} (h : s.nodes.cell a = some n)
    (name : CString) : s.child a name = n.children.bind fun map => map.get name := by
  rw [child, h, Option.bind_some]

theorem new_get (name : CString) :
    (StringHashMap.new : StringHashMap 256 Nat).get name = none := rfl

/-- The children of every node after `addChild`: the new node is one of `parent`, under every
name that has the hash of its own and was free, and it has no children itself. -/
theorem addChild_child {s s' : Vfs} {parent node : Nat} {above : Node} {name : CString}
    {type : NodeType} (hp : s.nodes.cell parent = some above)
    (h : s.addChild parent name type = .ok (node, s')) (a : Nat) (key : CString) :
    s'.child a key = (s.child a key).or
      (if a = parent ∧ StringHashMap.hashKey name = StringHashMap.hashKey key then some node
       else none) := by
  have hlt := CellStore.lt_next hp
  unfold addChild at h
  simp only [CellStore.read_live (CellStore.alloc_cell_of_live _ hp), Except.ok_bind] at h
  cases hmap : above.children with
  | none => rw [hmap] at h; cases h
  | some map =>
    rw [hmap] at h
    simp only [CellStore.modify_live _ (CellStore.alloc_cell_of_live _ hp), Except.ok_bind] at h
    cases h
    by_cases ha : a = parent
    · subst ha
      rw [child_of_cell (CellStore.adjust_cell_self _ (CellStore.alloc_cell_of_live _ hp)),
        child_of_cell hp, hmap, Option.bind_some, Option.bind_some, StringHashMap.get_insert]
      simp only [true_and]
    · have hother : ¬(a = parent ∧ StringHashMap.hashKey name = StringHashMap.hashKey key) :=
        fun hand => ha hand.1
      rw [if_neg hother, Option.or_none]
      by_cases hnew : a = s.nodes.next
      · have hold : s.child a key = none := by
          rw [child, hnew, s.nodes.fresh _ (le_refl _)]
          rfl
        rw [hold, child]
        simp only [CellStore.adjust_cell_ne _ _ ha]
        rw [hnew, CellStore.alloc_cell_self, Option.bind_some]
        split
        next => rw [Option.bind_some, new_get]
        next => rw [Option.bind_none]
      · unfold child
        simp only [CellStore.adjust_cell_ne _ _ ha, CellStore.alloc_cell, if_neg hnew]

theorem addChild_next {s s' : Vfs} {parent node : Nat} {above : Node} {name : CString}
    {type : NodeType} (hp : s.nodes.cell parent = some above)
    (h : s.addChild parent name type = .ok (node, s')) : node = s.nodes.next ∧
      s'.nodes.next = s.nodes.next + 1 ∧ s'.rootMountpoint = s.rootMountpoint := by
  unfold addChild at h
  simp only [CellStore.read_live (CellStore.alloc_cell_of_live _ hp), Except.ok_bind] at h
  cases hmap : above.children with
  | none => rw [hmap] at h; cases h
  | some map =>
    rw [hmap] at h
    simp only [CellStore.modify_live _ (CellStore.alloc_cell_of_live _ hp), Except.ok_bind] at h
    cases h
    exact ⟨rfl, rfl, rfl⟩

theorem addChild_extends {s s' : Vfs} {parent node : Nat} {above : Node} {name : CString}
    {type : NodeType} (hp : s.nodes.cell parent = some above)
    (h : s.addChild parent name type = .ok (node, s')) : Extends s s' := by
  intro a key c hc
  rw [addChild_child hp h, hc, Option.some_or]

/-- A turn of the loop goes down to the child it found, or to the one it has made. -/
theorem createLoop_turn {literal : Nat → Byte} {type : NodeType} {turns parent node : Nat}
    {s s' : Vfs} {path : CString} (hne : path ≠ [])
    (h : createLoop literal type (turns + 1) s parent path = .ok (node, s')) :
    ∃ s₁ c above, s.nodes.cell parent = some above ∧
      (s.child parent (CString.component path) = some c ∧ s₁ = s ∨
        s.child parent (CString.component path) = none ∧
          ∃ kind, s.addChild parent (CString.component path) kind = .ok (c, s₁)) ∧
      createLoop literal type turns s₁ c (CString.rest path) = .ok (node, s') := by
  rw [createLoop, if_neg hne] at h
  obtain ⟨above, hread, h⟩ := Except.bind_eq_ok.mp h
  have hp := CellStore.read_some_ok.mp hread
  have hchild := child_of_cell hp (CString.component path)
  split at h
  next c hc => exact ⟨s, c, above, hp, Or.inl ⟨hchild.trans hc, rfl⟩, h⟩
  next hc =>
    obtain ⟨⟨c, s₁⟩, hadd, h⟩ := Except.bind_eq_ok.mp h
    exact ⟨s₁, c, above, hp, Or.inr ⟨hchild.trans hc, _, hadd⟩, h⟩

/-- What no new child breaks is kept by the loop. -/
theorem createLoop_invariant {P : Vfs → Prop} {literal : Nat → Byte} {type : NodeType}
    (hchild : ∀ {s s' : Vfs} {parent c : Nat} {above : Node} {name : CString} {kind : NodeType}, P s →
      s.nodes.cell parent = some above → s.child parent name = none →
      s.addChild parent name kind = .ok (c, s') → P s')
    {turns parent node : Nat} {s s' : Vfs} {path : CString} (h : P s)
    (hs : createLoop literal type turns s parent path = .ok (node, s')) : P s' := by
  induction turns generalizing s parent path with
  | zero =>
    cases hs
    exact h
  | succ turns ih =>
    by_cases hnil : path = []
    · rw [createLoop, if_pos hnil] at hs
      cases hs
      exact h
    · obtain ⟨s₁, c, above, hp, hdown, hloop⟩ := createLoop_turn hnil hs
      rcases hdown with ⟨-, rfl⟩ | ⟨hfree, kind, hadd⟩
      · exact ih h hloop
      · exact ih (hchild h hp hfree hadd) hloop

theorem createLoop_walk {literal : Nat → Byte} {type : NodeType} {turns parent node : Nat}
    {s s' : Vfs} {path : CString}
    (h : createLoop literal type turns s parent path = .ok (node, s')) :
    Extends s s' ∧ s'.rootMountpoint = s.rootMountpoint ∧
      s'.walk parent (CString.components turns path) = some node := by
  induction turns generalizing s parent path with
  | zero =>
    cases h
    exact ⟨Extends.refl _, rfl, rfl⟩
  | succ turns ih =>
    rw [CString.components]
    by_cases hnil : path = []
    · rw [createLoop, if_pos hnil] at h
      cases h
      rw [if_pos hnil]
      exact ⟨Extends.refl _, rfl, rfl⟩
    · obtain ⟨s₁, c, above, hp, hdown, hloop⟩ := createLoop_turn hnil h
      obtain ⟨hext, hroot, hwalk⟩ := ih hloop
      rw [if_neg hnil]
      rcases hdown with ⟨hc, rfl⟩ | ⟨hfree, kind, hadd⟩
      · refine ⟨hext, hroot, Option.bind_eq_some_iff.mpr ⟨c, hext _ _ _ hc, hwalk⟩⟩
      · have hc : s₁.child parent (CString.component path) = some c := by
          rw [addChild_child hp hadd, hfree, Option.none_or, if_pos ⟨rfl, rfl⟩]
        obtain ⟨-, -, hroot₁⟩ := addChild_next hp hadd
        exact ⟨(addChild_extends hp hadd).trans hext, hroot.trans hroot₁,
          Option.bind_eq_some_iff.mpr ⟨c, hext _ _ _ hc, hwalk⟩⟩

theorem getNodeLoop_walk {s : Vfs} {turns a c : Nat} {path : CString} :
    s.getNodeLoop turns a path = .ok (some c) ↔
      s.walk a (CString.components turns path) = some c := by
  induction turns generalizing a path with
  | zero =>
    unfold getNodeLoop CString.components walk
    rw [Except.ok.injEq]
  | succ turns ih =>
    rw [getNodeLoop, CString.components]
    by_cases hnil : path = []
    · rw [if_pos hnil, if_pos hnil, walk, Except.ok.injEq]
    · rw [if_neg hnil, if_neg hnil, walk, Option.bind_eq_some_iff]
      constructor
      · intro h
        obtain ⟨above, hread, h⟩ := Except.bind_eq_ok.mp h
        have hp := CellStore.read_some_ok.mp hread
        split at h
        next => cases h
        next map hmap =>
          split at h
          next => cases h
          next node hget =>
            exact ⟨node, child_eq_some.mpr ⟨above, map, hp, hmap, hget⟩, ih.mp h⟩
      · intro h
        obtain ⟨node, hchild, h⟩ := h
        obtain ⟨above, map, hp, hmap, hget⟩ := child_eq_some.mp hchild
        rw [CellStore.read_live hp, Except.ok_bind, hmap]
        simp only [hget]
        exact ih.mpr h

/-- `addChild` keeps the levels, with the new node one level below `parent`. -/
theorem Levels.addChild {s s' : Vfs} {level : Nat → Nat} (hl : Levels s level)
    {parent node : Nat} {above : Node} {name : CString} {type : NodeType}
    (hroot : ∀ r, s.rootMountpoint = some r → r < s.nodes.next)
    (hp : s.nodes.cell parent = some above)
    (h : s.addChild parent name type = .ok (node, s')) :
    Levels s' (Function.update level node (level parent + 1)) := by
  have hparent := CellStore.lt_next hp
  obtain ⟨hnode, hnext, hmount⟩ := addChild_next hp h
  have hold : ∀ a, a < s.nodes.next →
      Function.update level node (level parent + 1) a = level a := fun a ha =>
    Function.update_of_ne (by omega) _ _
  refine ⟨?_, ?_, ?_⟩
  · intro r hr
    rw [hmount] at hr
    rw [hold r (hroot r hr)]
    exact hl.root r hr
  · intro a key c hc
    rw [addChild_child hp h] at hc
    cases hbefore : s.child a key with
    | some b =>
      rw [hbefore, Option.some_or] at hc
      obtain rfl := Option.some.inj hc
      obtain ⟨n, -, hn, -, -⟩ := child_eq_some.mp hbefore
      rw [hold _ (hl.live a key _ hbefore), hold a (CellStore.lt_next hn)]
      exact hl.child a key _ hbefore
    | none =>
      rw [hbefore, Option.none_or] at hc
      split at hc
      next hand =>
        obtain rfl := Option.some.inj hc
        obtain ⟨rfl, -⟩ := hand
        rw [Function.update_self, hold _ hparent]
      next => cases hc
  · intro a key c hc
    rw [hnext]
    rw [addChild_child hp h] at hc
    cases hbefore : s.child a key with
    | some b =>
      rw [hbefore, Option.some_or] at hc
      obtain rfl := Option.some.inj hc
      have := hl.live a key _ hbefore
      omega
    | none =>
      rw [hbefore, Option.none_or] at hc
      split at hc
      next =>
        obtain rfl := Option.some.inj hc
        omega
      next => cases hc

theorem Levels.createLoop {literal : Nat → Byte} {type : NodeType} {turns parent node : Nat}
    {s s' : Vfs} {level : Nat → Nat} {path : CString} (hl : Levels s level)
    (hroot : ∀ r, s.rootMountpoint = some r → r < s.nodes.next)
    (h : createLoop literal type turns s parent path = .ok (node, s')) :
    (∃ level, Levels s' level) ∧ s.nodes.next ≤ s'.nodes.next := by
  have hkeep : (∃ level, Levels s' level) ∧
      (∀ r, s'.rootMountpoint = some r → r < s'.nodes.next) ∧ s.nodes.next ≤ s'.nodes.next := by
    refine createLoop_invariant (P := fun t => (∃ level, Levels t level) ∧
      (∀ r, t.rootMountpoint = some r → r < t.nodes.next) ∧ s.nodes.next ≤ t.nodes.next)
      ?_ ⟨⟨level, hl⟩, hroot, le_refl _⟩ h
    rintro t t' parent c above name kind ⟨⟨level, hl⟩, hroot, hle⟩ hp - hadd
    obtain ⟨-, hnext, hmount⟩ := addChild_next hp hadd
    refine ⟨⟨_, hl.addChild hroot hp hadd⟩, fun r hr => ?_, by omega⟩
    rw [hmount] at hr
    have hlt := hroot r hr
    omega
  exact ⟨hkeep.1, hkeep.2.2⟩

/-- The trees built by calls of `mount` and of `create`, from the start of the kernel on. -/
inductive Built (literal : Nat → Byte) : Vfs → Prop
  | new : Built literal Vfs.new
  | mount {s : Vfs} : Built literal s → Built literal s.mount
  | mountAt {s s' : Vfs} {node : Nat} :
      Built literal s → s.mountAt node = .ok s' → Built literal s'
  | create {s s' : Vfs} {path : CString} {type : NodeType} {result : Option Nat} :
      Built literal s → s.create literal path type = .ok (result, s') → Built literal s'

/-- A tree has levels, and its root is a node that was made. -/
def Leveled (s : Vfs) : Prop :=
  (∃ level, Levels s level) ∧ ∀ r, s.rootMountpoint = some r → r < s.nodes.next

theorem Leveled.mount {s : Vfs} (h : Leveled s) : Leveled s.mount := by
  obtain ⟨⟨level, hl⟩, -⟩ := h
  have hchild : ∀ a name c, s.mount.child a name = some c → s.child a name = some c := by
    intro a name c hc
    obtain ⟨n, map, hn, hmap, hget⟩ := child_eq_some.mp hc
    by_cases ha : a = s.nodes.next
    · rw [ha] at hn
      obtain rfl := Option.some.inj ((CellStore.alloc_cell_self s.nodes _).symm.trans hn)
      obtain rfl := Option.some.inj hmap
      rw [new_get] at hget
      cases hget
    · have hold : s.nodes.cell a = some n := by
        rw [← hn]
        exact (if_neg ha).symm
      exact child_eq_some.mpr ⟨n, map, hold, hmap, hget⟩
  have hlow : ∀ a name c, s.child a name = some c →
      Function.update level s.nodes.next 0 a = level a ∧
        Function.update level s.nodes.next 0 c = level c := by
    intro a name c hc
    obtain ⟨n, -, hn, -, -⟩ := child_eq_some.mp hc
    have ha := CellStore.lt_next hn
    have hlive := hl.live a name c hc
    exact ⟨Function.update_of_ne (by omega) _ _, Function.update_of_ne (by omega) _ _⟩
  refine ⟨⟨Function.update level s.nodes.next 0, ?_, ?_, ?_⟩, ?_⟩
  · intro r hr
    obtain rfl := Option.some.inj hr
    exact Function.update_self _ _ _
  · intro a name c hc
    have hbefore := hchild a name c hc
    obtain ⟨ha, hc'⟩ := hlow a name c hbefore
    rw [ha, hc']
    exact hl.child a name c hbefore
  · intro a name c hc
    have hlive := hl.live a name c (hchild a name c hc)
    exact Nat.lt_succ_of_lt hlive
  · intro r hr
    obtain rfl := Option.some.inj hr
    exact Nat.lt_succ_self _

theorem mountAt_child {s s' : Vfs} {node : Nat} (h : s.mountAt node = .ok s') :
    (∀ a name c, s'.child a name = some c → s.child a name = some c) ∧
      s'.nodes.next = s.nodes.next ∧ s'.rootMountpoint = s.rootMountpoint := by
  obtain ⟨nodes, hmodify, h⟩ := Except.bind_eq_ok.mp h
  obtain ⟨old, hcell, rfl⟩ := CellStore.modify_some_ok.mp hmodify
  cases h
  refine ⟨fun a name c hc => ?_, rfl, rfl⟩
  obtain ⟨n, map, hn, hmap, hget⟩ := child_eq_some.mp hc
  by_cases ha : a = node
  · rw [ha, CellStore.adjust_cell_self _ hcell] at hn
    obtain rfl := Option.some.inj hn
    obtain rfl := Option.some.inj hmap
    rw [new_get] at hget
    cases hget
  · rw [CellStore.adjust_cell_ne _ _ ha] at hn
    exact child_eq_some.mpr ⟨n, map, hn, hmap, hget⟩

theorem Leveled.mountAt {s s' : Vfs} {node : Nat} (h : Leveled s)
    (hm : s.mountAt node = .ok s') : Leveled s' := by
  obtain ⟨⟨level, hl⟩, hroot⟩ := h
  obtain ⟨hchild, hnext, hmount⟩ := mountAt_child hm
  refine ⟨⟨level, ?_, ?_, ?_⟩, ?_⟩
  · rw [hmount]
    exact hl.root
  · exact fun a name c hc => hl.child a name c (hchild a name c hc)
  · rw [hnext]
    exact fun a name c hc => hl.live a name c (hchild a name c hc)
  · rw [hmount, hnext]
    exact hroot

theorem Leveled.create {literal : Nat → Byte} {s s' : Vfs} {path : CString} {type : NodeType}
    {result : Option Nat} (h : Leveled s) (hc : s.create literal path type = .ok (result, s')) :
    Leveled s' := by
  obtain ⟨⟨level, hl⟩, hroot⟩ := h
  unfold Vfs.create at hc
  split at hc
  next =>
    cases hc
    exact ⟨⟨level, hl⟩, hroot⟩
  next root hmount =>
    obtain ⟨⟨node, s₁⟩, hloop, hc⟩ := Except.bind_eq_ok.mp hc
    cases hc
    obtain ⟨hlevel, hle⟩ := hl.createLoop hroot hloop
    obtain ⟨-, hsame, -⟩ := createLoop_walk hloop
    refine ⟨hlevel, fun r hr => ?_⟩
    rw [hsame] at hr
    have := hroot r hr
    omega

/-- Every tree that `mount` and `create` build has levels. -/
theorem Built.leveled {literal : Nat → Byte} {s : Vfs} (h : Built literal s) : Leveled s := by
  induction h with
  | new =>
    have hnone : ∀ a name, Vfs.new.child a name = none := fun _ _ => rfl
    refine ⟨⟨fun _ => 0, ?_, ?_, ?_⟩, ?_⟩
    · intro r hr
      cases hr
    · intro a name c hc
      rw [hnone] at hc
      cases hc
    · intro a name c hc
      rw [hnone] at hc
      cases hc
    · intro r hr
      cases hr
  | mount _ ih => exact ih.mount
  | mountAt _ hm ih => exact ih.mountAt hm
  | create _ hc ih => exact ih.create hc

/-- A node that `create` returns is found by `get_node` under the same path unless the path
starts with a slash, which `create` takes for an empty name. -/
theorem getNode_create_iff {literal : Nat → Byte} {s s' : Vfs} {path : CString} {type : NodeType}
    {node : Nat} (hb : Built literal s)
    (h : s.create literal path type = .ok (some node, s')) :
    s'.getNode path = .ok (some node) ↔ path.head? ≠ some CString.slash := by
  obtain ⟨⟨level, hl⟩, -⟩ := (Built.create hb h).leveled
  unfold Vfs.create at h
  split at h
  next => cases h
  next root hmount =>
    obtain ⟨⟨node, s'⟩, hloop, h⟩ := Except.bind_eq_ok.mp h
    cases h
    obtain ⟨-, hsame, hwalk⟩ := createLoop_walk hloop
    rw [hmount] at hsame
    unfold getNode
    rw [hsame]
    simp only [getNodeLoop_walk]
    cases path with
    | nil => exact ⟨fun _ => by simp, fun _ => hwalk⟩
    | cons c path =>
      by_cases hc : c = CString.slash
      · subst hc
        rw [CString.components_slash] at hwalk
        have hcreated := hl.walk hwalk
        constructor
        · intro hfound
          have := hl.walk hfound
          rw [List.length_cons] at hcreated
          omega
        · intro hne
          exact absurd List.head?_cons hne
      · have hstay : (c :: path).dropWhile (· == CString.slash) = c :: path :=
          List.dropWhile_cons_of_neg (by simp [hc])
        rw [hstay]
        exact ⟨fun _ he => hc (Option.some.inj he), fun _ => hwalk⟩

/-- The directory `a//b/`, with an inner, a repeated and a trailing slash, made in an empty tree. -/
def slashedPath : CString := [97#8, 47#8, 47#8, 98#8, 47#8]

theorem getNode_create_slashed : ∃ s', Vfs.new.mount.create (fun _ => 0#8) slashedPath .directory =
      .ok (some 2, s') ∧ s'.getNode slashedPath = .ok (some 2) ∧
    (s'.getNode slashedPath = .ok (some 2) ↔ slashedPath.head? ≠ some CString.slash) := by
  obtain ⟨s', h, hget⟩ : ∃ s', Vfs.new.mount.create (fun _ => 0#8) slashedPath .directory =
      .ok (some 2, s') ∧ s'.getNode slashedPath = .ok (some 2) := ⟨_, rfl, rfl⟩
  exact ⟨s', h, hget, getNode_create_iff (.mount .new) h⟩

/-- The directory `/a`: it is made below a directory with an empty name. -/
theorem create_slash_a_lost : Built (fun _ => 0#8) Vfs.new.mount ∧
    ∃ s', Vfs.new.mount.create (fun _ => 0#8) [47#8, 97#8] .directory = .ok (some 2, s') ∧
      s'.getNode [47#8, 97#8] = .ok none :=
  ⟨.mount .new, _, rfl, rfl⟩

end Vfs

end UmbraOS
