import UmbraOS.PathCalls
import Mathlib.Data.List.TakeWhile

namespace UmbraOS

namespace CString

/-- All components of a path. -/
def names (path : CString) : List CString := components path.length path

theorem names_cons {path : CString} (h : path ≠ []) : names path = component path :: names (rest path) := by
  have hlt := rest_length h
  obtain ⟨turns, hturns⟩ : ∃ turns, path.length = turns + 1 := ⟨path.length - 1, by omega⟩
  rw [names, hturns, components, if_neg h]
  have hsame : components turns (rest path) = names (rest path) :=
    components_turns (by omega) (Nat.le_refl _)
  rw [hsame]

/-- A path that is relative, or empty. -/
def Relative (path : CString) : Prop := path.head? ≠ some slash

theorem dropWhile_of_relative {path : CString} (h : path.Relative) :
    path.dropWhile (· == slash) = path := by
  cases path with
  | nil => rfl
  | cons c cs =>
    apply List.dropWhile_cons_of_neg
    intro hc
    exact h (by rw [List.head?_cons, beq_iff_eq.mp hc])

section Join

variable {path sub : CString}

theorem component_join : component (path ++ slash :: sub) = component path := by
  unfold component
  rw [List.takeWhile_append]
  split
  next =>
    rw [List.takeWhile_cons_of_neg (by simp), List.append_nil]
    exact (List.takeWhile_prefix _).eq_of_length (by assumption) |>.symm
  next => rfl

/-- Behind its first component, a joined path is the rest of the first path joined to the second, or the
second alone. -/
theorem rest_join (h : sub.Relative) : rest (path ++ slash :: sub) =
    if rest path = [] then sub else rest path ++ slash :: sub := by
  have hafter : (path ++ slash :: sub).dropWhile (· != slash) =
      path.dropWhile (· != slash) ++ slash :: sub := by
    rw [List.dropWhile_append]
    split
    next he =>
      rw [List.isEmpty_iff.mp he, List.dropWhile_cons_of_neg (by simp)]
      rfl
    next => rfl
  have hsub : (slash :: sub).dropWhile (· == slash) = sub := by
    rw [List.dropWhile_cons_of_pos (by simp)]
    exact dropWhile_of_relative h
  unfold rest
  rw [hafter, List.dropWhile_append, hsub]
  by_cases hnil : (path.dropWhile (· != slash)).dropWhile (· == slash) = []
  · rw [if_pos (List.isEmpty_iff.mpr hnil), if_pos hnil]
  · rw [if_neg fun he => hnil (List.isEmpty_iff.mp he), if_neg hnil]

end Join

/-- The components of a joined path are those of its parts. -/
theorem names_join {path sub : CString} (h : sub.Relative) (hne : path ≠ []) :
    names (path ++ slash :: sub) = names path ++ names sub := by
  rw [names_cons (by simp), names_cons hne, component_join, rest_join h]
  by_cases hnil : rest path = []
  · rw [if_pos hnil, hnil]
    rfl
  · have hlt := rest_length hne
    rw [if_neg hnil, names_join h hnil]
    rfl
termination_by path.length

end CString

namespace Vfs

open CString (slash)

theorem namesOf_eq (path : CString) : namesOf path = CString.names (path.dropWhile (· == slash)) := by
  have hlen := (List.dropWhile_sublist (· == slash) (l := path)).length_le
  exact CString.components_turns hlen (Nat.le_refl _)

/-- The components of a relative path in a working directory: slashes do not count. -/
theorem namesOf_join (dir : CString) {path : CString} (h : path.Relative) :
    namesOf (dir ++ slash :: path) = namesOf dir ++ namesOf path := by
  have hpath : (slash :: path).dropWhile (· == slash) = path := by
    rw [List.dropWhile_cons_of_pos (by simp)]
    exact CString.dropWhile_of_relative h
  rw [namesOf_eq, namesOf_eq, namesOf_eq, CString.dropWhile_of_relative h, List.dropWhile_append, hpath]
  by_cases hnil : dir.dropWhile (· == slash) = []
  · rw [if_pos (List.isEmpty_iff.mpr hnil), hnil]
    rfl
  · rw [if_neg fun he => hnil (List.isEmpty_iff.mp he)]
    exact CString.names_join h hnil

theorem namesOf_eq_nil {path : CString} : namesOf path = [] ↔ ∀ c ∈ path, c = slash := by
  have hall : path.dropWhile (· == slash) = [] ↔ ∀ c ∈ path, c = slash := by
    rw [List.dropWhile_eq_nil_iff]
    exact ⟨fun h c hc => beq_iff_eq.mp (h c hc), fun h c hc => beq_iff_eq.mpr (h c hc)⟩
  rw [namesOf_eq, ← hall]
  constructor
  · intro h
    by_contra hne
    rw [CString.names_cons hne] at h
    cases h
  · intro h
    rw [h]
    rfl

end Vfs

namespace PathState

open CString (slash)

/-- The states that calls of `sys_chdir` reach from the root of a tree, each call naming an existing
directory. -/
inductive Stands (s : Vfs) : PathState → Prop
  | root : Stands s ⟨s, [slash]⟩
  | chdir {t : PathState} {path : CString} {d : Nat} {n : Node} : Stands s t →
      s.getNode (t.sysChdir path).workingDir = .ok (some d) → s.nodes.cell d = some n →
      n.type = .directory → Stands s (t.sysChdir path)

/-- Opening a path, asking for its status and, where the node `c` is a directory, changing to it all
come to `c`. -/
structure Designate (t : PathState) (path : CString) (c : Nat) : Prop where
  openat : ∀ mode, ∃ fd t' d, t.sysOpenat true path mode false 0 = .ok (.ok fd, t') ∧
    t'.vfs.descriptors.cell fd = some d ∧ d.node = c
  stat : t.statNode .cwd path = .ok (.ok (some c)) ∧ ∃ n, t.vfs.nodes.cell c = some n ∧
    t.sysStat .cwd path = .ok (.ok ⟨n.type, n.fileSize, n.inode⟩)
  chdir : ∀ n, t.vfs.nodes.cell c = some n → n.type = .directory →
    (t.sysChdir path).vfs.getNode (t.sysChdir path).workingDir = .ok (some c)

variable {t : PathState}

theorem sysChdir_relative {path : CString} (h : path.Relative) :
    (t.sysChdir path).workingDir = t.workingDir ++ slash :: path := if_neg h

/-- Where the three calls come to one node, the path alone leads there from the root. -/
theorem Designate.found (h : t.vfs.Proper) {path : CString} {c : Nat} (hd : t.Designate path c) :
    t.vfs.getNode path = .ok (some c) := by
  obtain ⟨fd, t', d, hcall, hcell, hnode⟩ := hd.openat .readOnly
  rcases openFile_cases t.vfs path .readOnly with ⟨trap, -, ho⟩ | ⟨-, ho⟩ | ⟨c', hget, -⟩
  · have hfault : t.sysOpenat true path .readOnly false 0 = .error trap := by
      unfold sysOpenat
      rw [ho]
      rfl
    cases hfault.symm.trans hcall
  · have hmissing : t.sysOpenat true path .readOnly false 0 = .ok (.error .ebadf, { t with vfs := t.vfs }) := by
      unfold sysOpenat
      rw [ho]
      rfl
    cases hmissing.symm.trans hcall
  · obtain ⟨n, r, -, hopen, hr⟩ := sysOpenat_found h .readOnly false hget
    rw [if_neg fun hand => by cases hand.1] at hr
    rw [hr] at hopen
    cases hopen.symm.trans hcall
    cases (CellStore.alloc_cell_self t.vfs.descriptors _).symm.trans hcell
    rw [hget, ← hnode]

/-- For every tree, working directory and relative path that names a node from there, the calls come to
that node exactly when the working directory is all slashes. -/
theorem calls_designate_iff {literal : Nat → Byte} (hb : t.vfs.Built literal) {path : CString}
    (hrel : path.Relative) {c : Nat}
    (hnamed : t.vfs.getNode (t.workingDir ++ slash :: path) = .ok (some c)) :
    t.Designate path c ↔ ∀ b ∈ t.workingDir, b = slash := by
  have h := hb.proper
  obtain ⟨root, hroot, hwalk⟩ := Vfs.getNode_eq_some.mp hnamed
  rw [Vfs.namesOf_join _ hrel] at hwalk
  rw [← Vfs.namesOf_eq_nil]
  constructor
  · intro hd
    obtain ⟨⟨level, hl⟩, -⟩ := hb.leveled
    obtain ⟨r, hr, hdirect⟩ := Vfs.getNode_eq_some.mp (hd.found h)
    cases hroot.symm.trans hr
    -- a node has one level, so the two walks have as many steps
    have hlevel := hl.walk hwalk
    have hlevel' := hl.walk hdirect
    rw [List.length_append] at hlevel
    exact List.eq_nil_of_length_eq_zero (by omega)
  · intro hnil
    rw [hnil, List.nil_append] at hwalk
    have hdirect : t.vfs.getNode path = .ok (some c) := Vfs.getNode_eq_some.mpr ⟨root, hroot, hwalk⟩
    have hdir : t.workingDir.dropWhile (· == slash) = [] := by
      have hall := Vfs.namesOf_eq_nil.mp hnil
      exact List.dropWhile_eq_nil_iff.mpr fun b hb => beq_iff_eq.mpr (hall b hb)
    have hjoined : Vfs.namesOf (t.workingDir ++ path) = Vfs.namesOf path := by
      rw [Vfs.namesOf_eq, Vfs.namesOf_eq, List.dropWhile_append, if_pos (List.isEmpty_iff.mpr hdir)]
    have hstat : t.vfs.getNode (t.workingDir ++ path) = .ok (some c) := by
      refine Vfs.getNode_eq_some.mpr ⟨root, hroot, ?_⟩
      rw [hjoined]
      exact hwalk
    refine ⟨fun mode => ?_, ⟨?_, sysStat_found h hstat⟩, fun n _ _ => ?_⟩
    · obtain ⟨n, r, -, hopen, hr⟩ := sysOpenat_found h mode false hdirect
      rw [if_neg fun hand => by cases hand.1] at hr
      rw [hr] at hopen
      exact ⟨_, _, _, hopen, CellStore.alloc_cell_self _ _, rfl⟩
    · rw [statNode_cwd, hstat]
      rfl
    · rw [sysChdir_relative hrel]
      exact hnamed

/-- A tree with the directory `a`, and in it the directory `a`. -/
theorem twoDeep_built : ∃ s : Vfs, s.Built (fun _ => 0#8) ∧
    s.getNode [47#8, 97#8] = .ok (some 1) ∧ s.getNode [47#8, 97#8, 47#8, 97#8] = .ok (some 2) ∧
    s.getNode [97#8] = .ok (some 1) ∧ s.getNode [47#8, 47#8, 97#8] = .ok (some 1) ∧
    ∃ n, s.nodes.cell 1 = some n ∧ n.type = .directory := by
  obtain ⟨s, hs⟩ : ∃ s, Vfs.new.mount.create (fun _ => 0#8) [97#8, 47#8, 97#8] .directory =
      .ok (some 2, s) := ⟨_, rfl⟩
  refine ⟨s, .create (.mount .new) hs, ?_⟩
  cases hs
  exact ⟨rfl, rfl, rfl, rfl, _, rfl, rfl⟩

/-- The directory `a`, from the root. -/
theorem calls_designate_root : ∃ s : Vfs, s.Built (fun _ => 0#8) ∧ Stands s ⟨s, [slash]⟩ ∧
    ((⟨s, [slash]⟩ : PathState).Designate [97#8] 1 ↔ ∀ b ∈ [slash], b = slash) := by
  obtain ⟨s, hb, -, -, -, hnamed, -⟩ := twoDeep_built
  refine ⟨s, hb, .root, ?_⟩
  have hrel : CString.Relative [97#8] := fun he => by cases he
  exact calls_designate_iff (t := ⟨s, [slash]⟩) hb hrel hnamed

/-- After `chdir("/a")`, the path `a` names the inner directory, and is opened as the outer one. -/
theorem openat_ignores_directory : ¬∀ (s : Vfs) (t : PathState), s.Built (fun _ => 0#8) → Stands s t →
    ∀ (path : CString) (c : Nat), path.Relative →
      t.vfs.getNode (t.workingDir ++ slash :: path) = .ok (some c) → t.Designate path c := by
  intro h
  obtain ⟨s, hb, houter, hinner, hfound, -, n, hn, hdir⟩ := twoDeep_built
  have hstands : Stands s ((⟨s, [slash]⟩ : PathState).sysChdir [47#8, 97#8]) :=
    .chdir .root houter hn hdir
  have hrel : CString.Relative [97#8] := fun he => by cases he
  have hd := (h s _ hb hstands [97#8] 2 hrel hinner).found hb.proper
  have hone : s.getNode [97#8] = .ok (some 2) := hd
  cases hfound.symm.trans hone

end PathState

end UmbraOS
