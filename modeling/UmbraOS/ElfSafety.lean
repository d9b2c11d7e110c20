import UmbraOS.ElfBounds

namespace UmbraOS

namespace Elf

variable {P : PageSource pageSize} {call : ElfCall} {s t u : Loader P} {a k : Nat} {node : Node}

/-- The states that the loader passes through. -/
inductive Visits (call : ElfCall) (s : Loader P) : Loader P → Prop
  | header {ret : BitVec 64} {header : Ehdr} {t : Loader P}
      (fetched : fetchHeader call s = .ok (ret, header, t)) : Visits call s t
  | phdr {header : Ehdr} {k : Nat} {u : Loader P} {ret : BitVec 64} {phdr : Phdr} {t : Loader P}
      (comes : Comes call s header k u) (fetched : fetchPhdr call header k u = .ok (ret, phdr, t)) :
      Visits call s t
  | turn {header : Ehdr} {k : Nat} {u : Loader P} {go : Bool} {t : Loader P}
      (comes : Comes call s header k u) (ran : turn call header k u = .ok (go, t)) : Visits call s t

/-- The header and the program headers in the file. -/
def fileHeader (node : Node) : Ehdr := Ehdr.ofBytes (node.fileData.bytesFrom 0)

def filePhdrAt (node : Node) (i : Nat) : Nat :=
  (fileHeader node).phoff + i * (fileHeader node).phentsize

def filePhdr (node : Node) (i : Nat) : Phdr :=
  Phdr.ofBytes (node.fileData.bytesFrom (filePhdrAt node i))

/-- The headers and the segments lie inside the file. -/
structure WellFormed (node : Node) : Prop where
  header : Ehdr.size ≤ node.fileSize
  phdrs : ∀ i < (fileHeader node).phnum, filePhdrAt node i + Phdr.size ≤ node.fileSize
  ranges : ∀ i < (fileHeader node).phnum,
    (filePhdr node i).type = ptLoad ∨ (filePhdr node i).type = ptInterp →
    ∀ x < (filePhdr node i).filesz, (filePhdr node i).offset + x < node.fileSize
  sizes : ∀ i < (fileHeader node).phnum, (filePhdr node i).type = ptLoad →
    (filePhdr node i).filesz ≤ (filePhdr node i).memsz

/-- The loader stays inside the file and its buffers, and accepts no file that is not well
formed. -/
def Safe (call : ElfCall) (s : Loader P) (node : Node) : Prop :=
  (∀ t, Visits call s t → Inside node t) ∧ ∀ t, load call s = .ok (true, t) → WellFormed node

/-- What the loader never checks: that the headers and the segments start inside the file, and
that a segment is not larger in the file than in memory. -/
structure Starts (node : Node) : Prop where
  header : 0 < node.fileSize
  phdrs : ∀ i < (fileHeader node).phnum, filePhdrAt node i < node.fileSize
  ranges : ∀ i < (fileHeader node).phnum,
    (filePhdr node i).type = ptLoad ∨ (filePhdr node i).type = ptInterp →
    (filePhdr node i).filesz ≠ 0 → (filePhdr node i).offset < node.fileSize
  sizes : ∀ i < (fileHeader node).phnum, (filePhdr node i).type = ptLoad →
    (filePhdr node i).filesz ≤ (filePhdr node i).memsz

/-- Every read that starts in the file ends in it and in its buffer; and if no header stops the
loader, everything starts in the file. -/
structure Contained (call : ElfCall) (s : Loader P) (node : Node) : Prop where
  header : ReadFits node 0 0 Ehdr.size Ehdr.size
  turns : ∀ k u, Comes call s (headerSeen call node) k u →
    ReadFits node (phdrAt (headerSeen call node) k) 0 Phdr.size Phdr.size ∧
    CaseInside node (phdrSeen call node (headerSeen call node) k) u.heap
  accepted : Magic (headerSeen call node) → Valid (headerSeen call node) →
    (∀ k u, Comes call s (headerSeen call node) k u →
      Passes node (phdrSeen call node (headerSeen call node) k) u.heap) → Starts node

theorem turn_spec (hfd : call.fd = some a) (hb : Behind u a node) (header : Ehdr) (k : Nat) :
    ∃ ret t, fetchPhdr call header k u = .ok (ret, phdrSeen call node header k, t) ∧
      (Inside node t ↔ Inside node u ∧ ReadFits node (phdrAt header k) 0 Phdr.size Phdr.size) ∧
      Ends a node t (turn call header k u) (CaseInside node (phdrSeen call node header k) u.heap)
        (Passes node (phdrSeen call node header k) u.heap) := by
  obtain ⟨ret, t, hfetch, hret, hbehind, hheap, hin⟩ := fetchPhdr_spec hfd hb header k
  refine ⟨ret, t, hfetch, hin, ?_⟩
  rw [turn_eq hfetch hret, ← hheap]
  exact loadPhdr_ends hfd hbehind (phdrSeen_filesz_lt call node header k)

/-- The loader is called for a descriptor at the start of a file, with empty records. -/
structure Opened (call : ElfCall) (s : Loader P) (a : Nat) (node : Node) : Prop where
  fd : call.fd = some a
  behind : BehindAt s a node 0
  size : node.fileSize < 2 ^ 64
  reads : s.vfs.accesses = []
  writes : s.copies = []

section Opened

variable {header : Ehdr}

theorem Opened.inside (h : Opened call s a node) : Inside node s := by
  rw [Inside, h.reads, h.writes]
  exact ⟨fun x hx => absurd hx List.not_mem_nil, fun x hx => absurd hx List.not_mem_nil⟩

theorem Opened.comes_behind (h : Opened call s a node) (hc : Comes call s header k u) :
    header = headerSeen call node ∧ Behind u a node := by
  obtain ⟨ret, s', hheader, -, hbehind, -⟩ := fetchHeader_spec h.fd h.behind
  obtain ⟨ret', s'', hheader', -, hbefore⟩ := hc.fetched
  rw [hheader] at hheader'
  cases hheader'
  refine ⟨rfl, Before.invariant (fun _ v => Behind v a node) (fun k v w hv hturn => ?_) hbehind hbefore⟩
  obtain ⟨_, _, -, -, hends⟩ := turn_spec h.fd hv (headerSeen call node) k
  exact (hends.result hturn).1

/-- The loader accepts a file with a valid header if all turns of the loop go on. -/
theorem load_true {ret : BitVec 64} {s' : Loader P}
    (hheader : fetchHeader call s = .ok (ret, header, s')) (hret : ret ≠ 0#64) :
    load call s = .ok (true, t) ↔ Magic header ∧ Valid header ∧
      ∃ v, Before (turn call header) 0 s' header.phnum v ∧ t = { v with auxv := { v.auxv with
        atEntry := u64 (header.entry + call.loadBase)
        atPhent := header.phentsize
        atPhnum := header.phnum } } := by
  rw [load, hheader, Except.ok_bind]
  simp only
  by_cases hmagic : Magic header
  · rw [if_neg (fun h => h.elim hret (fun h => h hmagic)), and_iff_right hmagic]
    by_cases hvalid : Valid header
    · have hloop : ∀ v, loopTurns (turn call header) header.phnum 0 s' = .ok (true, v) ↔
          Before (turn call header) 0 s' header.phnum v := by
        intro v
        rw [loopTurns_true, Nat.zero_add]
      rw [if_neg (not_not.mpr hvalid), and_iff_right hvalid, Except.bind_eq_ok]
      constructor
      · intro h
        obtain ⟨⟨go, v⟩, hv, h⟩ := h
        cases go with
        | true =>
          cases h
          exact ⟨v, (hloop v).mp hv, rfl⟩
        | false => cases h
      · intro h
        obtain ⟨v, hv, rfl⟩ := h
        exact ⟨(true, v), (hloop v).mpr hv, rfl⟩
    · rw [if_pos hvalid]
      exact ⟨fun h => (by cases h), fun h => absurd h.1 hvalid⟩
  · rw [if_pos (Or.inr hmagic)]
    exact ⟨fun h => (by cases h), fun h => absurd h.1 hmagic⟩

/-- The headers that the loader comes to, and when it accepts a file. -/
theorem Opened.turns (h : Opened call s a node) : ∃ s',
    (∀ k u, Comes call s (headerSeen call node) k u ↔ Magic (headerSeen call node) ∧
      Valid (headerSeen call node) ∧ k < (headerSeen call node).phnum ∧
      Before (turn call (headerSeen call node)) 0 s' k u) ∧
    ((∃ t, load call s = .ok (true, t)) ↔ Magic (headerSeen call node) ∧
      Valid (headerSeen call node) ∧
      ∃ t, Before (turn call (headerSeen call node)) 0 s' (headerSeen call node).phnum t) ∧
    (∀ ret header t, fetchHeader call s = .ok (ret, header, t) → t = s') ∧
    (Inside node s' ↔ ReadFits node 0 0 Ehdr.size Ehdr.size) := by
  obtain ⟨ret, s', hheader, hret, -, hin⟩ := fetchHeader_spec h.fd h.behind
  rw [and_iff_right h.inside] at hin
  refine ⟨s', fun k u => ⟨fun hc => ?_, fun hc => ?_⟩, ?_, fun ret' header t ht => ?_, hin⟩
  · obtain ⟨ret', s'', hheader', -, hbefore⟩ := hc.fetched
    rw [hheader] at hheader'
    cases hheader'
    exact ⟨hc.magic, hc.valid, hc.counted, hbefore⟩
  · obtain ⟨hmagic, hvalid, hk, hbefore⟩ := hc
    exact ⟨⟨ret, s', hheader, hret, hbefore⟩, hmagic, hvalid, hk⟩
  · constructor
    · intro h
      obtain ⟨t, ht⟩ := h
      obtain ⟨hmagic, hvalid, v, hv, -⟩ := (load_true hheader hret).mp ht
      exact ⟨hmagic, hvalid, v, hv⟩
    · intro h
      obtain ⟨hmagic, hvalid, v, hv⟩ := h
      exact ⟨_, (load_true hheader hret).mpr ⟨hmagic, hvalid, v, hv, rfl⟩⟩
  · rw [hheader] at ht
    cases ht
    rfl

end Opened

theorem WellFormed.starts (h : WellFormed node) : Starts node where
  header := by
    have hheader := h.header
    unfold Ehdr.size at hheader
    omega
  phdrs i hi := by
    have hphdr := h.phdrs i hi
    unfold Phdr.size at hphdr
    omega
  ranges i hi htype hne := by
    have hrange := h.ranges i hi htype 0 (Nat.pos_of_ne_zero hne)
    rwa [Nat.add_zero] at hrange
  sizes := h.sizes

theorem headerSeen_file (call : ElfCall) (h : 0 < node.fileSize) :
    headerSeen call node = fileHeader node := by
  rw [headerSeen, if_pos h, fileHeader]

theorem phdrAt_file (hsize : node.fileSize < 2 ^ 64) {i : Nat}
    (h : filePhdrAt node i < node.fileSize) : phdrAt (fileHeader node) i = filePhdrAt node i :=
  u64_of_lt (Nat.lt_trans h hsize)

theorem phdrSeen_file (call : ElfCall) (hsize : node.fileSize < 2 ^ 64) {i : Nat}
    (h : filePhdrAt node i < node.fileSize) :
    phdrSeen call node (fileHeader node) i = filePhdr node i := by
  rw [phdrSeen, phdrAt_file hsize h, if_pos h, filePhdr]

/-- What starts in the file is well formed if every read that starts in it ends in it. -/
theorem Contained.wellFormed (hsize : node.fileSize < 2 ^ 64) (h : Contained call s node)
    (hstarts : Starts node) (hcomes : ∀ k < (fileHeader node).phnum, ∃ u,
      Comes call s (headerSeen call node) k u ∧
      Passes node (phdrSeen call node (headerSeen call node) k) u.heap) : WellFormed node := by
  have hseen := headerSeen_file call hstarts.header
  have hturns := h.turns
  rw [hseen] at hcomes hturns
  refine ⟨?_, ?_, ?_, hstarts.sizes⟩
  · have hfits := (h.header hstarts.header).1
    omega
  · intro i hi
    obtain ⟨u, hu, -⟩ := hcomes i hi
    have hstart := hstarts.phdrs i hi
    have hfits := (hturns i u hu).1
    rw [phdrAt_file hsize hstart] at hfits
    exact (hfits hstart).1
  · intro i hi htype x hx
    obtain ⟨u, hu, hload, hinterp, -⟩ := hcomes i hi
    have hcase := (hturns i u hu).2
    rw [phdrSeen_file call hsize (hstarts.phdrs i hi)] at hload hinterp hcase
    have hstart := hstarts.ranges i hi htype (by omega)
    have hend : (filePhdr node i).offset + (filePhdr node i).filesz ≤ node.fileSize := by
      rcases htype with ht | ht
      · exact (hcase.1 ht (hload ht) hstart).1
      · exact ((hcase.2 ht (hinterp ht)).2 hstart).1
    omega

theorem Safe.contained (ho : Opened call s a node) (h : Safe call s node) :
    Contained call s node := by
  obtain ⟨s', hcomes, haccepts, -, -⟩ := ho.turns
  obtain ⟨ret, t, hheader, -, -, hin⟩ := fetchHeader_spec ho.fd ho.behind
  refine ⟨(hin.mp (h.1 t (Visits.header hheader))).2, fun k u hu => ?_,
    fun hmagic hvalid hpasses => ?_⟩
  · obtain ⟨r, v, hfetch, hfetched, hends⟩ :=
      turn_spec ho.fd (ho.comes_behind hu).2 (headerSeen call node) k
    exact ⟨(hfetched.mp (h.1 v (Visits.phdr hu hfetch))).2,
      hends.holds fun go w hw => h.1 w (Visits.turn hu hw)⟩
  · have hlast : ∀ n, n ≤ (headerSeen call node).phnum →
        ∃ t, Before (turn call (headerSeen call node)) 0 s' n t := by
      intro n hn
      induction n with
      | zero => exact ⟨s', Before.start⟩
      | succ n ih =>
        obtain ⟨u, hu⟩ := ih (by omega)
        have hcome := (hcomes n u).mpr ⟨hmagic, hvalid, by omega, hu⟩
        obtain ⟨_, _, -, -, hends⟩ :=
          turn_spec ho.fd (ho.comes_behind hcome).2 (headerSeen call node) n
        obtain ⟨v, hv⟩ := hends.goes (hpasses n u hcome)
        exact ⟨v, Before.next hu hv⟩
    obtain ⟨t, ht⟩ := haccepts.mpr ⟨hmagic, hvalid, hlast _ le_rfl⟩
    exact (h.2 t ht).starts

/-- What the loader does before a header it comes to stays inside. -/
theorem Contained.comes_inside (ho : Opened call s a node) (h : Contained call s node)
    (hc : Comes call s (headerSeen call node) k u) : Inside node u := by
  obtain ⟨s', hcomes, -, -, hin⟩ := ho.turns
  obtain ⟨hmagic, hvalid, hk, hbefore⟩ := (hcomes k u).mp hc
  clear hc
  induction hbefore with
  | start => exact hin.mpr h.header
  | @next k v w hv hturn ih =>
    have hcome := (hcomes k v).mpr ⟨hmagic, hvalid, by omega, hv⟩
    obtain ⟨_, t, -, hfetched, hends⟩ :=
      turn_spec ho.fd (ho.comes_behind hcome).2 (headerSeen call node) k
    obtain ⟨hread, hcase⟩ := h.turns k v hcome
    exact (hends.result hturn).2.1.mpr ⟨hfetched.mpr ⟨ih (by omega), hread⟩, hcase⟩

theorem Contained.visits_inside (ho : Opened call s a node) (h : Contained call s node)
    (hv : Visits call s t) : Inside node t := by
  obtain ⟨s', -, -, hfetched, hin⟩ := ho.turns
  cases hv with
  | header fetched =>
    rw [hfetched _ _ _ fetched]
    exact hin.mpr h.header
  | @phdr header k u ret phdr _ comes fetched =>
    obtain ⟨rfl, hb⟩ := ho.comes_behind comes
    obtain ⟨r, v, hfetch, hread, -⟩ := turn_spec ho.fd hb (headerSeen call node) k
    rw [hfetch] at fetched
    cases fetched
    exact hread.mpr ⟨h.comes_inside ho comes, (h.turns k u comes).1⟩
  | @turn header k u go _ comes ran =>
    obtain ⟨rfl, hb⟩ := ho.comes_behind comes
    obtain ⟨r, v, hfetch, hread, hends⟩ := turn_spec ho.fd hb (headerSeen call node) k
    obtain ⟨hinside, hcase⟩ := h.turns k u comes
    exact (hends.result ran).2.1.mpr
      ⟨hread.mpr ⟨h.comes_inside ho comes, hinside⟩, hcase⟩

theorem Contained.accepted_wellFormed (ho : Opened call s a node) (h : Contained call s node)
    (hl : load call s = .ok (true, t)) : WellFormed node := by
  obtain ⟨s', hcomes, haccepts, -, -⟩ := ho.turns
  obtain ⟨hmagic, hvalid, last, hlast⟩ := haccepts.mp ⟨t, hl⟩
  have hall : ∀ k < (headerSeen call node).phnum, ∃ u,
      Comes call s (headerSeen call node) k u ∧
      Passes node (phdrSeen call node (headerSeen call node) k) u.heap := by
    intro k hk
    obtain ⟨u, v, hu, hturn⟩ := hlast.goes (Nat.zero_le k) hk
    have hcome := (hcomes k u).mpr ⟨hmagic, hvalid, hk, hu⟩
    obtain ⟨_, _, -, -, hends⟩ :=
      turn_spec ho.fd (ho.comes_behind hcome).2 (headerSeen call node) k
    exact ⟨u, hcome, (hends.result hturn).2.2.mp rfl⟩
  have hpasses : ∀ k u, Comes call s (headerSeen call node) k u →
      Passes node (phdrSeen call node (headerSeen call node) k) u.heap := by
    intro k u hu
    obtain ⟨-, -, hk, hbefore⟩ := (hcomes k u).mp hu
    obtain ⟨v, hv, hp⟩ := hall k hk
    obtain ⟨-, -, -, hbefore'⟩ := (hcomes k v).mp hv
    rw [hbefore.unique hbefore']
    exact hp
  have hstarts := h.accepted hmagic hvalid hpasses
  refine h.wellFormed ho.size hstarts ?_
  rw [← headerSeen_file call hstarts.header]
  exact hall

/-- The loader is safe exactly if every read that starts in the file ends in it and in its
buffer, and, unless a header stops the loader, everything starts in the file and no segment is
larger there than in memory. -/
theorem load_safe_iff (ho : Opened call s a node) : Safe call s node ↔ Contained call s node :=
  ⟨fun h => h.contained ho, fun h => ⟨fun _ ht => h.visits_inside ho ht,
    fun _ ht => h.accepted_wellFormed ho ht⟩⟩

/-- A file with one segment of one byte in memory and `filesz` bytes in the file. -/
def oneSegment (filesz : Byte) : Node :=
  ⟨[], .file, none, none, .block 121 (fun i => (List.lookup i [(0, 0x7f#8), (1, 0x45#8), (2, 0x4c#8),
    (3, 0x46#8), (4, 2#8), (5, 1#8), (6, 1#8), (18, 62#8), (20, 1#8), (32, 64#8), (52, 64#8),
    (54, 56#8), (56, 1#8), (64, 1#8), (68, 5#8), (72, 120#8), (82, 0x40#8), (96, filesz),
    (104, 1#8), (120, 0xc3#8)]).getD 0#8), 121, 121, 0⟩

def segmentFile (filesz : Byte) : Vfs :=
  { Vfs.new with
    nodes := CellStore.empty.alloc (oneSegment filesz)
    descriptors := CellStore.empty.alloc ⟨0, .readOnly, 0⟩ }

theorem boot_opens (filesz : Byte) :
    Opened bootCall (bootLoader (segmentFile filesz)) 0 (oneSegment filesz) := by
  refine ⟨rfl, ⟨_, rfl, rfl, rfl, ?_, rfl⟩, (by decide : 121 < 2 ^ 64), rfl, rfl⟩
  exact fun h => by cases h

/-- The segment is read from the file into the one page that is allocated for it. -/
theorem oneSegment_contained :
    Contained bootCall (bootLoader (segmentFile 1#8)) (oneSegment 1#8) := by
  have hcount : (fileHeader (oneSegment 1#8)).phnum = 1 := by decide
  have htype : (filePhdr (oneSegment 1#8) 0).type = ptLoad := by decide
  have hone : ∀ i < (fileHeader (oneSegment 1#8)).phnum, i = 0 := by
    intro i hi
    rw [hcount] at hi
    exact Nat.lt_one_iff.mp hi
  have hstart : filePhdrAt (oneSegment 1#8) 0 < (oneSegment 1#8).fileSize := by decide
  rw [← headerSeen_file bootCall (show 0 < (oneSegment 1#8).fileSize by decide)] at hone
  refine ⟨fun _ => by decide, fun k u hu => ?_, fun _ _ _ => ⟨by decide, ?_, ?_, ?_⟩⟩
  · obtain rfl := hone k hu.counted
    rw [headerSeen_file bootCall (show 0 < (oneSegment 1#8).fileSize by decide),
      phdrSeen_file bootCall (show 121 < 2 ^ 64 by decide) hstart]
    refine ⟨fun _ => by decide, fun _ _ _ => by decide, fun hinterp => ?_⟩
    rw [htype] at hinterp
    cases hinterp
  all_goals
    intro i hi
    obtain rfl := hone i hi
  · exact hstart
  · exact fun _ _ => by decide
  · exact fun _ => by decide

/-- A file that is accepted, with one segment. -/
theorem oneSegment_safe : Safe bootCall (bootLoader (segmentFile 1#8)) (oneSegment 1#8) ∧
    (load bootCall (bootLoader (segmentFile 1#8))).map Prod.fst = .ok true :=
  ⟨(load_safe_iff (boot_opens 1#8)).mpr oneSegment_contained, by decide +kernel⟩

/-- A file that ends after 16 bytes. -/
def shortNode : Node := ⟨[], .file, none, none, .block 16 (fun _ => 0x7f#8), 16, 16, 0⟩

def shortFile : Vfs :=
  { Vfs.new with
    nodes := CellStore.empty.alloc shortNode
    descriptors := CellStore.empty.alloc ⟨0, .readOnly, 0⟩ }

/-- The header is read past the end of a short file. -/
theorem short_file_overread : ¬Safe bootCall (bootLoader shortFile) shortNode := by
  have hbehind : BehindAt (bootLoader shortFile) 0 shortNode 0 := by
    refine ⟨_, rfl, rfl, rfl, ?_, rfl⟩
    exact fun h => by cases h
  have hfd : bootCall.fd = some 0 := rfl
  obtain ⟨ret, t, hheader, -, -, hin⟩ := fetchHeader_spec hfd hbehind
  intro h
  have hfits := (hin.mp (h.1 t (Visits.header hheader))).2
  exact absurd (hfits (by decide)).1 (by decide)

end Elf

end UmbraOS
