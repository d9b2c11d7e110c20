import Mathlib.Algebra.Group.Int.Defs
import Mathlib.Algebra.Group.Nat.Defs
import UmbraOS.DoublyLinkedListChain
import Mathlib.Data.List.Nodup

namespace UmbraOS

/-- The two tables of handles that a task has. -/
inductive HandleKind
  | file
  | socket
deriving DecidableEq

/-- A handle that was added to a table, and its number. -/
structure Given where
  kind : HandleKind
  object : Nat
  id : Int

/-- What the members of `Task` for handles use. Of the objects behind the handles it is the `id`;
`given` remembers every handle that was added. -/
structure TaskHandles where
  ids : HandleKind → CellStore Int
  table : HandleKind → DoublyLinkedList Nat
  nextId : Int
  given : List Given

/-- Objects are added when they are new, with the id `-1`. -/
inductive HandleOp
  | addFile
  | addSocket
  | removeFile (object : Nat)
  | removeSocket (object : Nat)

def HandleOp.adds : HandleOp → Bool
  | .addFile => true
  | .addSocket => true
  | .removeFile _ => false
  | .removeSocket _ => false

namespace TaskHandles

/-- What `add_file_handle` and `add_socket_handle` do to their table. -/
def addHandle (t : TaskHandles) (k : HandleKind) : Option Nat → Except Trap (TaskHandles × Int)
  | none => .ok (t, -1)
  | some a => do
    let id ← (t.ids k).read (some a)
    let ids := if id = -1 then (t.ids k).adjust a fun _ => t.nextId else t.ids k
    let handles ← (t.table k).push a
    let id ← ids.read (some a)
    return (⟨Function.update t.ids k ids, Function.update t.table k handles, t.nextId + 1,
      ⟨k, a, id⟩ :: t.given⟩, id)

def addFileHandle (t : TaskHandles) (fd : Option Nat) : Except Trap (TaskHandles × Int) :=
  t.addHandle .file fd

def addSocketHandle (t : TaskHandles) (handle : Option Nat) : Except Trap (TaskHandles × Int) :=
  t.addHandle .socket handle

def getLoop (ids : CellStore Int) (nodes : CellStore (ListNode Nat)) (id : Int) :
    Nat → Option Nat → Except Trap (Option Nat)
  | _, none => .ok none
  | 0, some _ => .error .timeout
  | fuel + 1, some c => do
    let current ← nodes.read (some c)
    let found ← ids.read (some current.value)
    if found = id then return some current.value else getLoop ids nodes id fuel current.next

/-- What `get_file_handle` and `get_socket_handle` do in their table. -/
def getHandle (t : TaskHandles) (k : HandleKind) (id : Int) : Except Trap (Option Nat) :=
  getLoop (t.ids k) (t.table k).nodes id (t.table k).nodes.next (t.table k).head

def getFileHandle (t : TaskHandles) (id : Int) : Except Trap (Option Nat) := t.getHandle .file id

def getSocketHandle (t : TaskHandles) (id : Int) : Except Trap (Option Nat) := t.getHandle .socket id

/-- The objects that `init_std` makes, at the addresses 0, 1 and 2, and a task without handles. -/
def new : TaskHandles where
  ids
    | .file => ((CellStore.empty.alloc 0).alloc 1).alloc 2
    | .socket => CellStore.empty
  table _ := DoublyLinkedList.new
  nextId := 3
  given := []

/-- The handles that `Task::create` adds. -/
def create : Except Trap TaskHandles := do
  let (t, _) ← new.addFileHandle (some 0)
  let (t, _) ← t.addFileHandle (some 1)
  let (t, _) ← t.addFileHandle (some 2)
  return t

/-- A new object of a kind, which no table has yet. -/
def make (t : TaskHandles) (k : HandleKind) : TaskHandles :=
  { t with ids := Function.update t.ids k ((t.ids k).alloc (-1)) }

def removeHandle (t : TaskHandles) (k : HandleKind) (a : Nat) : Except Trap TaskHandles := do
  let handles ← (t.table k).remove a
  return { t with table := Function.update t.table k handles }

def step (t : TaskHandles) : HandleOp → Except Trap TaskHandles
  | .addFile => (t.make .file).addFileHandle (some (t.ids .file).next) >>= fun r => .ok r.1
  | .addSocket => (t.make .socket).addSocketHandle (some (t.ids .socket).next) >>= fun r => .ok r.1
  | .removeFile a => t.removeHandle .file a
  | .removeSocket a => t.removeHandle .socket a

/-- The numbers in the two tables differ and are below the next one; a number leads to at most one of the two
tables, and there to the object that was given it. -/
structure Numbered (t : TaskHandles) : Prop where
  distinct : ∃ (files sockets : List Nat) (ids : List Int),
    DoublyLinkedList.Walks (t.table .file).nodes (t.table .file).head files ∧
      DoublyLinkedList.Walks (t.table .socket).nodes (t.table .socket).head sockets ∧
      files.map (t.ids .file).cell ++ sockets.map (t.ids .socket).cell = ids.map some ∧
      ids.Nodup ∧ ∀ id ∈ ids, id < t.nextId
  inRange : t.nextId < 2 ^ 31
  lookups : ∀ id, ∃ fd handle, t.getFileHandle id = .ok fd ∧ t.getSocketHandle id = .ok handle ∧
    (fd = none ∨ handle = none) ∧ (∀ a, fd = some a → ⟨.file, a, id⟩ ∈ t.given) ∧
    ∀ a, handle = some a → ⟨.socket, a, id⟩ ∈ t.given
  once : (t.given.map Given.id).Nodup

/-- A removal finds nothing, or a node that can be unlinked. -/
def Unlinks (t : TaskHandles) : HandleOp → Prop
  | .addFile => True
  | .addSocket => True
  | .removeFile a => (t.table .file).Unlinks a
  | .removeSocket a => (t.table .socket).Unlinks a

/-- The nodes of the two tables hold different objects, and each was given its number. -/
structure Inv (t : TaskHandles) (ns : HandleKind → List (Nat × Nat)) : Prop where
  chain : ∀ k, (t.table k).Chain (ns k)
  objects : ∀ k, ((ns k).map Prod.snd).Nodup
  entry : ∀ k x, x ∈ ns k → ∃ id, (t.ids k).cell x.2 = some id ∧ ⟨k, x.2, id⟩ ∈ t.given
  below : ∀ g ∈ t.given, g.id < t.nextId
  once : (t.given.map Given.id).Nodup
  count : t.nextId = 3 + t.given.length

variable {t : TaskHandles} {ns : HandleKind → List (Nat × Nat)} {k : HandleKind}

theorem new_inv : new.Inv fun _ => [] where
  chain _ := DoublyLinkedList.new_chain
  objects _ := List.nodup_nil
  entry _ _ h := absurd h List.not_mem_nil
  below _ h := absurd h List.not_mem_nil
  once := List.nodup_nil
  count := rfl

/-- The numbers of one kind of object change, but for a single object. -/
theorem update_ids_cell {ids : CellStore Int} {a : Nat}
    (hother : ∀ b, b ≠ a → ids.cell b = (t.ids k).cell b) {k' : HandleKind} {b : Nat}
    (hne : (k', b) ≠ (k, a)) : (Function.update t.ids k ids k').cell b = (t.ids k').cell b := by
  by_cases hk : k' = k
  · rw [hk, Function.update_self]
    exact hother b fun hb => hne (by rw [hk, hb])
  · rw [Function.update_of_ne hk]

/-- The tables with a new node for an object they did not have. -/
theorem Inv.put (h : t.Inv ns) {given : Int} {a node : Nat} {ids : CellStore Int}
    {handles : DoublyLinkedList Nat} (hchain : handles.Chain ((node, a) :: ns k))
    (hself : ids.cell a = some given) (hother : ∀ b, b ≠ a → ids.cell b = (t.ids k).cell b)
    (hnew : a ∉ (ns k).map Prod.snd) (hfree : given ∉ t.given.map Given.id)
    (hlt : given < t.nextId + 1) :
    Inv ⟨Function.update t.ids k ids, Function.update t.table k handles, t.nextId + 1,
      ⟨k, a, given⟩ :: t.given⟩ (Function.update ns k ((node, a) :: ns k)) := by
  refine ⟨fun k' => ?_, fun k' => ?_, fun k' x hx => ?_, fun g hg => ?_, ?_, ?_⟩
  · show (Function.update t.table k handles k').Chain _
    by_cases hk : k' = k
    · rw [hk, Function.update_self, Function.update_self]
      exact hchain
    · rw [Function.update_of_ne hk, Function.update_of_ne hk]
      exact h.chain k'
  · by_cases hk : k' = k
    · rw [hk, Function.update_self]
      exact List.nodup_cons.mpr ⟨hnew, h.objects k⟩
    · rw [Function.update_of_ne hk]
      exact h.objects k'
  · show ∃ id, (Function.update t.ids k ids k').cell x.2 = some id ∧ _
    have hold : ∀ y ∈ ns k', (k', y.2) ≠ (k, a) → ∃ id,
        (Function.update t.ids k ids k').cell y.2 = some id ∧
          ⟨k', y.2, id⟩ ∈ (⟨k, a, given⟩ :: t.given : List Given) := by
      intro y hy hne
      obtain ⟨id', hid', hmem⟩ := h.entry k' y hy
      exact ⟨id', (update_ids_cell hother hne).trans hid', List.mem_cons_of_mem _ hmem⟩
    by_cases hk : k' = k
    · subst hk
      rw [Function.update_self] at hx
      rcases List.mem_cons.mp hx with rfl | hx
      · rw [Function.update_self]
        exact ⟨given, hself, List.mem_cons_self⟩
      · refine hold x hx fun he => hnew ?_
        rw [← (Prod.mk.inj he).2]
        exact List.mem_map_of_mem hx
    · rw [Function.update_of_ne hk] at hx
      exact hold x hx fun he => hk (Prod.mk.inj he).1
  · show g.id < t.nextId + 1
    rcases List.mem_cons.mp hg with rfl | hg
    · exact hlt
    · have hbelow := h.below g hg
      omega
  · exact List.nodup_cons.mpr ⟨hfree, h.once⟩
  · show t.nextId + 1 = 3 + ((t.given.length + 1 : Nat) : Int)
    have hcount := h.count
    omega

/-- An object that the tables do not have gets a number that no handle was given. -/
theorem Inv.addHandle (h : t.Inv ns) (given : Int) {a : Nat} {id : Int} (ha : (t.ids k).cell a = some id)
    (hnew : a ∉ (ns k).map Prod.snd) (hgiven : given = if id = -1 then t.nextId else id)
    (hfree : given ∉ t.given.map Given.id) (hlt : given < t.nextId + 1) :
    ∃ t', t.addHandle k (some a) = .ok (t', given) ∧
      t'.Inv (Function.update ns k (((t.table k).nodes.next, a) :: ns k)) ∧
      t'.given = ⟨k, a, given⟩ :: t.given ∧
      ∀ k' b, (k', b) ≠ (k, a) → (t'.ids k').cell b = (t.ids k').cell b := by
  obtain ⟨handles, hpush, hchain⟩ := (h.chain k).push a
  obtain ⟨ids, hids⟩ : ∃ ids, ids = if id = -1 then (t.ids k).adjust a fun _ => t.nextId else t.ids k :=
    ⟨_, rfl⟩
  have hself : ids.cell a = some given := by
    rw [hids, hgiven]
    split
    next => exact CellStore.adjust_cell_self _ ha
    next => exact ha
  have hother : ∀ b, b ≠ a → ids.cell b = (t.ids k).cell b := by
    intro b hb
    rw [hids]
    split
    next => exact CellStore.adjust_cell_ne _ _ hb
    next => rfl
  refine ⟨⟨Function.update t.ids k ids, Function.update t.table k handles, t.nextId + 1,
    ⟨k, a, given⟩ :: t.given⟩, ?_, h.put hchain hself hother hnew hfree hlt, rfl,
    fun k' b hne => update_ids_cell hother hne⟩
  unfold TaskHandles.addHandle
  simp only [CellStore.read_live ha, Except.ok_bind, ← hids, hpush, CellStore.read_live hself]
  rfl

theorem Inv.given_next (h : t.Inv ns) {id : Int} (hid : t.nextId ≤ id) : id ∉ t.given.map Given.id := by
  intro hmem
  obtain ⟨g, hg, rfl⟩ := List.mem_map.mp hmem
  have hbelow := h.below g hg
  omega

/-- A new object is put into a table. -/
theorem Inv.addNew (h : t.Inv ns) (k : HandleKind) :
    ∃ t' id ns', (t.make k).addHandle k (some (t.ids k).next) = .ok (t', id) ∧ t'.Inv ns' ∧
      t'.given.length = t.given.length + 1 := by
  have hold : ∀ k' x, x ∈ ns k' → (k', x.2) ≠ (k, (t.ids k).next) := by
    intro k' x hx he
    obtain ⟨rfl, hnext⟩ := Prod.mk.inj he
    obtain ⟨id, hid, -⟩ := h.entry k' x hx
    have hlt := CellStore.lt_next hid
    omega
  have hmake : (t.make k).Inv ns := by
    refine ⟨h.chain, h.objects, fun k' x hx => ?_, h.below, h.once, h.count⟩
    obtain ⟨id, hid, hmem⟩ := h.entry k' x hx
    refine ⟨id, ?_, hmem⟩
    show (Function.update t.ids k _ k').cell x.2 = some id
    by_cases hk : k' = k
    · subst hk
      rw [Function.update_self]
      exact CellStore.alloc_cell_of_live _ hid
    · rw [Function.update_of_ne hk]
      exact hid
  have hcell : ((t.make k).ids k).cell (t.ids k).next = some (-1) := by
    show (Function.update t.ids k _ k).cell _ = _
    rw [Function.update_self]
    exact CellStore.alloc_cell_self _ _
  have hnew : (t.ids k).next ∉ (ns k).map Prod.snd := by
    intro hmem
    obtain ⟨x, hx, hx'⟩ := List.mem_map.mp hmem
    exact hold k x hx (by rw [hx'])
  obtain ⟨t', ht', hinv, hgiven, -⟩ := hmake.addHandle t.nextId hcell hnew rfl
    (hmake.given_next (Int.le_refl _)) (Int.lt_succ t.nextId)
  exact ⟨t', t.nextId, _, ht', hinv, by rw [hgiven]; rfl⟩

/-- A removal takes nodes out of one of the tables, where it can unlink the one it finds. -/
theorem Inv.removeHandle (h : t.Inv ns) (k : HandleKind) (a : Nat) :
    ((∃ t' ns', t.removeHandle k a = .ok t' ∧ t'.Inv ns' ∧ t'.given = t.given) ∧
        (t.table k).Unlinks a) ∨
      (∃ trap, t.removeHandle k a = .error trap) ∧ ¬(t.table k).Unlinks a := by
  unfold TaskHandles.removeHandle
  rcases (h.chain k).remove a with ⟨⟨l, ms, hl, hchain, hsub⟩, hunlinks⟩ | ⟨⟨trap, hl⟩, hnot⟩
  · refine Or.inl ⟨⟨{ t with table := Function.update t.table k l }, Function.update ns k ms, ?_, ?_, rfl⟩,
      hunlinks⟩
    · rw [hl]
      rfl
    have hpart : ∀ k', List.Sublist (Function.update ns k ms k') (ns k') := by
      intro k'
      by_cases hk : k' = k
      · rw [hk, Function.update_self]
        exact hsub
      · rw [Function.update_of_ne hk]
    refine ⟨fun k' => ?_, fun k' => ?_, fun k' x hx => ?_, h.below, h.once, h.count⟩
    · show (Function.update t.table k l k').Chain _
      by_cases hk : k' = k
      · rw [hk, Function.update_self, Function.update_self]
        exact hchain
      · rw [Function.update_of_ne hk, Function.update_of_ne hk]
        exact h.chain k'
    · exact (h.objects k').sublist ((hpart k').map Prod.snd)
    · exact h.entry k' x ((hpart k').subset hx)
  · exact Or.inr ⟨⟨trap, by rw [hl]; rfl⟩, hnot⟩

/-- What one operation does: an add is never refused. -/
theorem Inv.step_cases (h : t.Inv ns) (op : HandleOp) :
    ((∃ t' ns', t.step op = .ok t' ∧ t'.Inv ns' ∧
        t'.given.length = t.given.length + op.adds.toNat) ∧ t.Unlinks op) ∨
      (∃ trap, t.step op = .error trap) ∧ ¬t.Unlinks op := by
  have hremove : ∀ k a, ((∃ t' ns', t.removeHandle k a = .ok t' ∧ t'.Inv ns' ∧
      t'.given.length = t.given.length + 0) ∧ (t.table k).Unlinks a) ∨
      (∃ trap, t.removeHandle k a = .error trap) ∧ ¬(t.table k).Unlinks a := by
    intro k a
    rcases h.removeHandle k a with ⟨⟨t', ns', ht', hinv, hgiven⟩, hunlinks⟩ | hfault
    · exact Or.inl ⟨⟨t', ns', ht', hinv, by rw [hgiven]; rfl⟩, hunlinks⟩
    · exact Or.inr hfault
  cases op with
  | addFile =>
    obtain ⟨t', id, ns', ht', hinv, hgiven⟩ := h.addNew .file
    refine Or.inl ⟨⟨t', ns', ?_, hinv, hgiven⟩, trivial⟩
    rw [TaskHandles.step, addFileHandle, ht', Except.ok_bind]
  | addSocket =>
    obtain ⟨t', id, ns', ht', hinv, hgiven⟩ := h.addNew .socket
    refine Or.inl ⟨⟨t', ns', ?_, hinv, hgiven⟩, trivial⟩
    rw [TaskHandles.step, addSocketHandle, ht', Except.ok_bind]
  | removeFile a => exact hremove .file a
  | removeSocket a => exact hremove .socket a

/-- A lookup finds an object of the table with the number. -/
theorem getLoop_ok {ids : CellStore Int} {l : DoublyLinkedList Nat} {ns : List (Nat × Nat)}
    (h : l.Chain ns) (hids : ∀ x ∈ ns, ∃ v, ids.cell x.2 = some v) (id : Int) (fuel i : Nat)
    (hf : ns.length ≤ i + fuel) :
    ∃ r, getLoop ids l.nodes id fuel (DoublyLinkedList.nodeAt ns i) = .ok r ∧
      ∀ a, r = some a → ∃ x ∈ ns, x.2 = a ∧ ids.cell a = some id := by
  induction fuel generalizing i with
  | zero =>
    have hnone : DoublyLinkedList.nodeAt ns i = none := by
      rw [DoublyLinkedList.nodeAt, List.getElem?_eq_none (by omega)]
      rfl
    rw [hnone]
    exact ⟨none, rfl, fun a ha => by cases ha⟩
  | succ fuel ih =>
    cases hc : DoublyLinkedList.nodeAt ns i with
    | none => exact ⟨none, rfl, fun a ha => by cases ha⟩
    | some c =>
      obtain ⟨v, hv⟩ := DoublyLinkedList.nodeAt_eq_some.mp hc
      have hmem := List.mem_of_getElem? hv
      obtain ⟨n, hn, hvalue, hnext, -⟩ := h.node i c v hv
      obtain ⟨found, hfound⟩ := hids (c, v) hmem
      have hfound' : ids.cell n.value = some found := by rw [hvalue]; exact hfound
      rw [getLoop, CellStore.read_live hn, Except.ok_bind, CellStore.read_live hfound', Except.ok_bind]
      by_cases hsame : found = id
      · rw [if_pos hsame]
        refine ⟨_, rfl, fun a ha => ?_⟩
        cases ha
        exact ⟨(c, v), hmem, hvalue.symm, by rw [hfound', hsame]⟩
      · rw [if_neg hsame, hnext]
        exact ih (i + 1) (by omega)

theorem Inv.getHandle (h : t.Inv ns) (k : HandleKind) (id : Int) :
    ∃ r, t.getHandle k id = .ok r ∧ ∀ a, r = some a → ⟨k, a, id⟩ ∈ t.given := by
  have hids : ∀ x ∈ ns k, ∃ v, (t.ids k).cell x.2 = some v := by
    intro x hx
    obtain ⟨v, hv, -⟩ := h.entry k x hx
    exact ⟨v, hv⟩
  have hlen := (h.chain k).length_le
  obtain ⟨r, hr, hfound⟩ := getLoop_ok (h.chain k) hids id (t.table k).nodes.next 0 (by omega)
  rw [← (h.chain k).head] at hr
  refine ⟨r, hr, fun a ha => ?_⟩
  obtain ⟨x, hx, rfl, hcell⟩ := hfound a ha
  obtain ⟨v, hv, hmem⟩ := h.entry k x hx
  cases hcell.symm.trans hv
  exact hmem

/-- Handles that were given one number are one handle. -/
theorem Inv.given_inj (h : t.Inv ns) {g g' : Given} (hg : g ∈ t.given) (hg' : g' ∈ t.given)
    (he : g.id = g'.id) : g = g' := List.inj_on_of_nodup_map h.once hg hg' he

theorem Inv.numbered (h : t.Inv ns) (hroom : t.nextId < 2 ^ 31) : Numbered t := by
  obtain ⟨number, hnumber⟩ : ∃ number : HandleKind → Nat → Int, ∀ k x, x ∈ ns k →
      (t.ids k).cell x.2 = some (number k x.2) ∧ ⟨k, x.2, number k x.2⟩ ∈ t.given := by
    refine ⟨fun k a => ((t.ids k).cell a).getD 0, fun k x hx => ?_⟩
    obtain ⟨id, hid, hmem⟩ := h.entry k x hx
    simp only [hid, Option.getD_some]
    exact ⟨trivial, hmem⟩
  have hcells : ∀ k, ((ns k).map Prod.snd).map (t.ids k).cell =
      (((ns k).map Prod.snd).map (number k)).map some := by
    intro k
    simp only [List.map_map]
    exact List.map_congr_left fun x hx => (hnumber k x hx).1
  have hgiven : ∀ k id, id ∈ ((ns k).map Prod.snd).map (number k) →
      ∃ a, number k a = id ∧ a ∈ (ns k).map Prod.snd ∧ ⟨k, a, id⟩ ∈ t.given := by
    intro k id hid
    obtain ⟨a, ha, rfl⟩ := List.mem_map.mp hid
    obtain ⟨x, hx, rfl⟩ := List.mem_map.mp ha
    exact ⟨x.2, rfl, ha, (hnumber k x hx).2⟩
  have hnodup : ∀ k, (((ns k).map Prod.snd).map (number k)).Nodup := by
    intro k
    refine List.Nodup.map_on (fun a ha b hb hab => ?_) (h.objects k)
    obtain ⟨x, hx, rfl⟩ := List.mem_map.mp ha
    obtain ⟨y, hy, rfl⟩ := List.mem_map.mp hb
    have hsame := h.given_inj (hnumber k x hx).2 (hnumber k y hy).2 hab
    exact congrArg Given.object hsame
  refine ⟨⟨_, _, ((ns .file).map Prod.snd).map (number .file) ++
    ((ns .socket).map Prod.snd).map (number .socket), (h.chain .file).walks, (h.chain .socket).walks, ?_, ?_,
    ?_⟩, hroom, fun id => ?_, h.once⟩
  · rw [hcells, hcells, List.map_append]
  · refine List.nodup_append.mpr ⟨hnodup .file, hnodup .socket, fun id hid id' hid' he => ?_⟩
    obtain ⟨a, -, -, hmem⟩ := hgiven .file id hid
    obtain ⟨b, -, -, hmem'⟩ := hgiven .socket id' hid'
    cases h.given_inj hmem hmem' he
  · intro id hid
    rcases List.mem_append.mp hid with hid | hid
    · obtain ⟨a, -, -, hmem⟩ := hgiven .file id hid
      exact h.below _ hmem
    · obtain ⟨a, -, -, hmem⟩ := hgiven .socket id hid
      exact h.below _ hmem
  · obtain ⟨fd, hfd, hfile⟩ := h.getHandle .file id
    obtain ⟨handle, hhandle, hsocket⟩ := h.getHandle .socket id
    refine ⟨fd, handle, hfd, hhandle, ?_, hfile, hsocket⟩
    cases fd with
    | none => exact Or.inl rfl
    | some a =>
      cases handle with
      | none => exact Or.inr rfl
      | some b => cases h.given_inj (hfile a rfl) (hsocket b rfl) rfl

/-- The standard descriptors so far have the numbers below `a`, which is their own address. -/
structure Standard (t : TaskHandles) (ns : HandleKind → List (Nat × Nat)) (a : Nat) : Prop where
  inv : t.Inv ns
  nextId : t.nextId = 3 + a
  objects : ∀ x ∈ (ns .file).map Prod.snd, x < a
  numbers : ∀ g ∈ t.given, g.id < a

theorem Standard.addFileHandle {a : Nat} (h : t.Standard ns a) (ha : (t.ids .file).cell a = some (a : Int)) :
    ∃ t' ns', t.addFileHandle (some a) = .ok (t', a) ∧ t'.Standard ns' (a + 1) ∧
      ∀ b, b ≠ a → (t'.ids .file).cell b = (t.ids .file).cell b := by
  have hnew : a ∉ (ns .file).map Prod.snd := fun hmem => Nat.lt_irrefl a (h.objects a hmem)
  have hfree : (a : Int) ∉ t.given.map Given.id := by
    intro hmem
    obtain ⟨g, hg, he⟩ := List.mem_map.mp hmem
    have hlt := h.numbers g hg
    omega
  have hnext := h.nextId
  obtain ⟨t', ht', hinv, hgiven, hframe⟩ := h.inv.addHandle a ha hnew
    (by rw [if_neg (by omega)]) hfree (by omega)
  have hcount := h.inv.count
  have hcount' := hinv.count
  rw [hgiven, List.length_cons] at hcount'
  refine ⟨t', _, ht', ⟨hinv, by omega, fun x hx => ?_, fun g hg => ?_⟩, fun b hb =>
    hframe _ b fun he => hb (Prod.mk.inj he).2⟩
  · rw [Function.update_self, List.map_cons] at hx
    rcases List.mem_cons.mp hx with rfl | hx
    · exact Nat.lt_succ_self _
    · exact Nat.lt_succ_of_lt (h.objects x hx)
  · rw [hgiven] at hg
    rcases List.mem_cons.mp hg with rfl | hg
    · show (a : Int) < _
      omega
    · have hlt := h.numbers g hg
      omega

theorem new_standard : new.Standard (fun _ => []) 0 :=
  ⟨new_inv, rfl, fun _ hx => absurd hx List.not_mem_nil, fun _ hg => absurd hg List.not_mem_nil⟩

/-- The task that `Task::create` has made. -/
theorem create_inv (h : create = .ok t) : (∃ ns, t.Inv ns) ∧ t.given.length = 3 := by
  obtain ⟨t₁, ns₁, h₁, hs₁, hcell₁⟩ := new_standard.addFileHandle rfl
  obtain ⟨t₂, ns₂, h₂, hs₂, hcell₂⟩ := hs₁.addFileHandle ((hcell₁ 1 (by decide)).trans rfl)
  obtain ⟨t₃, ns₃, h₃, hs₃, -⟩ := hs₂.addFileHandle
    ((hcell₂ 2 (by decide)).trans ((hcell₁ 2 (by decide)).trans rfl))
  have hcreate : create = .ok t₃ := by
    unfold create
    simp only [Nat.zero_add] at h₁ h₂ h₃
    simp only [h₁, h₂, h₃, Except.ok_bind]
    rfl
  rw [hcreate] at h
  cases h
  have hnext := hs₃.nextId
  have hcount := hs₃.inv.count
  exact ⟨⟨ns₃, hs₃.inv⟩, by omega⟩

/-- Every reached state has as many handles given as were added, and the invariant. -/
theorem Inv.reached (h : t.Inv ns) {ops : List HandleOp} {s : TaskHandles} (hs : run step t ops = .ok s) :
    (∃ ns', s.Inv ns') ∧ s.given.length = t.given.length + ops.countP HandleOp.adds := by
  induction ops generalizing t ns with
  | nil =>
    cases hs
    exact ⟨⟨ns, h⟩, rfl⟩
  | cons op ops ih =>
    obtain ⟨u, hu, hs⟩ := run_cons_ok.mp hs
    rcases h.step_cases op with ⟨⟨t', ns', ht', hinv, hgiven⟩, -⟩ | ⟨⟨trap, hfault⟩, -⟩
    · cases hu.symm.trans ht'
      obtain ⟨hinv', hlen⟩ := ih hinv hs
      refine ⟨hinv', ?_⟩
      rw [hlen, hgiven, List.countP_cons]
      cases op.adds with
      | false => simp
      | true => simp; omega
    · cases hu.symm.trans hfault

/-- Along a sequence of adds and removals the tables stay numbered; the sequence goes on to its end exactly
when every removal that it comes to finds nothing, the first node, or a node whose back link leads to
a node. -/
theorem handles_numbered_iff (h : create = .ok t) {ops : List HandleOp}
    (hadds : ops.countP HandleOp.adds < 2 ^ 31 - 6) :
    ((∀ done, done <+: ops → ∃ s, run step t done = .ok s ∧ Numbered s) ↔ Ahead step Unlinks t ops) ∧
      ∀ done, done <+: ops → ∀ s, run step t done = .ok s → Numbered s := by
  obtain ⟨⟨ns, hinv⟩, hlen⟩ := create_inv h
  have hreached : ∀ done, done <+: ops → ∀ s, run step t done = .ok s → Numbered s := by
    intro done hdone s hs
    obtain ⟨⟨ns', hinv'⟩, hgiven⟩ := hinv.reached hs
    have hcount := hinv'.count
    have hle : done.countP HandleOp.adds ≤ ops.countP HandleOp.adds := hdone.sublist.countP_le
    exact hinv'.numbered (by omega)
  have hgoes : ∀ s op, (∃ ns, Inv s ns) → True → ((∃ s', step s op = .ok s') ↔ Unlinks s op) := by
    intro s op hs _
    obtain ⟨ns, hs⟩ := hs
    rcases hs.step_cases op with ⟨⟨t', ns', ht', -⟩, hunlinks⟩ | ⟨⟨trap, hfault⟩, hnot⟩
    · exact iff_of_true ⟨t', ht'⟩ hunlinks
    · exact iff_of_false (fun ⟨s', hs'⟩ => by cases hs'.symm.trans hfault) hnot
  have hkeep : ∀ s op s', (∃ ns, Inv s ns) → True → step s op = .ok s' → ∃ ns, Inv s' ns := by
    intro s op s' hs _ hs'
    obtain ⟨ns, hs⟩ := hs
    have hone : run step s [op] = .ok s' := run_cons_ok.mpr ⟨s', hs', rfl⟩
    exact (hs.reached hone).1
  have hall : ∀ done, Ahead step (fun _ _ => True) t done := by
    intro done
    generalize t = s
    induction done generalizing s with
    | nil => trivial
    | cons op done ih => exact ⟨trivial, fun s' _ => ih s'⟩
  refine ⟨⟨fun hrun => ?_, fun hahead done hdone => ?_⟩, hreached⟩
  · obtain ⟨s, hs, -⟩ := hrun ops (List.prefix_refl ops)
    exact (Ahead.run_iff hgoes hkeep ⟨ns, hinv⟩ (hall ops)).mp
      ⟨s, hs, (hinv.reached hs).1⟩
  · obtain ⟨s, hs, -⟩ := (Ahead.run_iff hgoes hkeep ⟨ns, hinv⟩ (hall done)).mpr (hahead.of_prefix hdone)
    exact ⟨s, hs, hreached done hdone s hs⟩

/-- A socket and a file are added, and the socket is removed. -/
theorem handles_numbered_socket : ∃ t, create = .ok t ∧
    (((∀ done, done <+: [HandleOp.addSocket, .addFile, .removeSocket 0] →
        ∃ s, run step t done = .ok s ∧ Numbered s) ↔
          Ahead step Unlinks t [.addSocket, .addFile, .removeSocket 0]) ∧
      ∀ done, done <+: [HandleOp.addSocket, .addFile, .removeSocket 0] →
        ∀ s, run step t done = .ok s → Numbered s) :=
  ⟨_, rfl, handles_numbered_iff rfl (by decide)⟩

/-- `stdout` is removed from the handles of a new task: its node is the second one, and has no back link. -/
theorem remove_stdout_faults : ¬∀ t, create = .ok t → ∀ ops : List HandleOp,
    ops.countP HandleOp.adds < 2 ^ 31 - 6 →
      ∀ done, done <+: ops → ∃ s, run step t done = .ok s ∧ Numbered s := by
  intro h
  obtain ⟨t, ht⟩ : ∃ t, create = .ok t := ⟨_, rfl⟩
  have hfault : run step t [.removeFile 1] = .error .nullDeref := by
    cases ht
    rfl
  obtain ⟨s, hs, -⟩ := h t ht [.removeFile 1] (by decide) _ (List.prefix_refl _)
  cases hs.symm.trans hfault

end TaskHandles

end UmbraOS
