import UmbraOS.ElfPlaced
import UmbraOS.MmapIsolation

namespace UmbraOS

namespace Elf

open Vmm
open Heap (Allocation Layout)

variable {P : PageSource pageSize} {call : ElfCall} {node : Node} {phdr : Phdr}
  {s s' t u v : Loader P} {a n : Nat} {placed : List (Phdr × Nat)} {L : Layout}
  {live : List Allocation}

/-- A file with a valid header whose segments do not overlap. -/
structure Loadable (node : Node) : Prop extends WellFormed node where
  magic : Magic (fileHeader node)
  valid : Valid (fileHeader node)
  disjoint : (segments node).Pairwise fun p q =>
    ∀ x, ¬((p.vaddr ≤ x ∧ x < p.vaddr + p.memsz) ∧ q.vaddr ≤ x ∧ x < q.vaddr + q.memsz)

/-- No page is mapped where the segments go. -/
def Vacant (call : ElfCall) (m : Machine P) (node : Node) : Prop :=
  ∀ phdr ∈ segments node, ∀ k < phdr.memsz,
    pte m call.space.pml4 (address call phdr k) &&& ptePresent = 0#64

/-- There is memory for the file: nothing in it is larger than memory, and no page that the
loader asks for is refused. -/
structure Enough (call : ElfCall) (s : Loader P) (node : Node) : Prop where
  segments : ∀ phdr ∈ segments node, phdr.memsz + misalign phdr ≤ P.bound * pageSize
  paths : ∀ i < (fileHeader node).phnum, (filePhdr node i).type = ptInterp →
    (filePhdr node i).filesz < P.bound * pageSize
  before : s.heap.machine.refused = false
  granted : ∀ k u go t, Comes call s (fileHeader node) k u →
    turn call (fileHeader node) k u = .ok (go, t) → t.heap.machine.refused = false

/-- Every byte of the segments can be read at its address. -/
def Places (call : ElfCall) (node : Node) (m : Machine P) : Prop :=
  ∀ phdr ∈ segments node, ∀ k < phdr.memsz,
    call.space.byteAt m (address call phdr k) = some (content node phdr k)

/-- The loader accepts the file and every byte of its segments can be read afterwards. -/
def Loads (call : ElfCall) (s : Loader P) (node : Node) : Prop :=
  ∃ t, load call s = .ok (true, t) ∧ Places call node t.heap.machine

/-- A header that does not make the loader give up: a segment has a page, and a read that starts
in the file reads something. -/
def Accepts (node : Node) (phdr : Phdr) : Prop :=
  (phdr.type = ptLoad → 0 < phdr.memsz + misalign phdr) ∧
    (phdr.type = ptLoad ∨ phdr.type = ptInterp → phdr.offset < node.fileSize → phdr.filesz ≠ 0)

/-- The condition on the file: no header makes the loader give up, and the first segment with a
page for a byte puts the right one there. -/
structure Intact (call : ElfCall) (node : Node) : Prop where
  headers : ∀ i < (fileHeader node).phnum, Accepts node (filePhdr node i)
  bytes : ∀ phdr ∈ segments node, ∀ k < phdr.memsz, ∀ owner i,
    firstPage call (segments node) (address call phdr k) = some (owner, i) →
    image node owner (i * pageSize + address call phdr k % pageSize) = content node phdr k

/-- What the loader has done before the header with the number `n`. -/
structure Progress (call : ElfCall) (node : Node) (s : Loader P) (n : Nat) (u : Loader P)
    (placed : List (Phdr × Nat)) : Prop where
  sound : ∃ live L, Sound Slab.sizes u.heap call.space.pml4 live L ∧
    ∀ d ∈ placed, Placed u.heap.machine call.space.pml4 L node d
  headers : placed.map Prod.fst = segmentsBefore node n
  entries : ∀ w, pte u.heap.machine call.space.pml4 w =
    entryAfter (pte s.heap.machine call.space.pml4 w) (mappingsOf call placed) w
  granted : u.heap.machine.refused = false

theorem Progress.start (hs : Sound Slab.sizes s.heap call.space.pml4 live L)
    (hr : s.heap.machine.refused = false) (hheap : s'.heap = s.heap) :
    Progress call node s 0 s' [] := by
  refine ⟨⟨live, L, hheap ▸ hs, fun d hd => absurd hd List.not_mem_nil⟩, rfl, fun w => ?_, ?_⟩
  · rw [hheap]
    exact (entryAfter_nil _ w).symm
  · rw [hheap]
    exact hr

/-- A header that loads no segment. -/
theorem Progress.other (hp : Progress call node s n u placed)
    (htype : (filePhdr node n).type ≠ ptLoad)
    (hs : ∀ live L, Sound Slab.sizes u.heap call.space.pml4 live L → ∃ live' L',
      Sound Slab.sizes t.heap call.space.pml4 live' L' ∧
        Spares call.space.pml4 u.heap.machine L t.heap.machine L' ∧
        ∀ w, pte t.heap.machine call.space.pml4 w = pte u.heap.machine call.space.pml4 w)
    (hr : t.heap.machine.refused = false) : Progress call node s (n + 1) t placed := by
  obtain ⟨live, L, hsound, hplaced⟩ := hp.sound
  obtain ⟨live', L', hsound', hspares, hpte⟩ := hs live L hsound
  refine ⟨⟨live', L', hsound', fun d hd => (hplaced d hd).spares hspares⟩, ?_, fun w => ?_, hr⟩
  · rw [segmentsBefore_succ, if_neg htype, List.append_nil]
    exact hp.headers
  · rw [hpte w]
    exact hp.entries w

theorem Progress.segment (hp : Progress call node s n u placed)
    (htype : (filePhdr node n).type = ptLoad)
    (hs : ∀ live L, Sound Slab.sizes u.heap call.space.pml4 live L →
      Sound Slab.sizes t.heap call.space.pml4 live L ∧
        Spares call.space.pml4 u.heap.machine L t.heap.machine L ∧
        ∃ page, Placed t.heap.machine call.space.pml4 L node (filePhdr node n, page) ∧
          ∀ w, pte t.heap.machine call.space.pml4 w =
            entryAfter (pte u.heap.machine call.space.pml4 w)
              (segmentMappings call (filePhdr node n) (page * pageSize)) w)
    (hr : t.heap.machine.refused = false) :
    ∃ page, Progress call node s (n + 1) t (placed ++ [(filePhdr node n, page)]) := by
  obtain ⟨live, L, hsound, hplaced⟩ := hp.sound
  obtain ⟨hsound', hspares, page, hnew, hpte⟩ := hs live L hsound
  refine ⟨page, ⟨live, L, hsound', fun d hd => ?_⟩, ?_, fun w => ?_, hr⟩
  · rcases List.mem_append.mp hd with hold | hlast
    · exact (hplaced d hold).spares hspares
    · rw [List.mem_singleton.mp hlast]
      exact hnew
  · rw [segmentsBefore_succ, if_pos htype, List.map_append, hp.headers]
    rfl
  · rw [hpte w, hp.entries w, mappingsOf_append, mappingsOf_singleton]
    exact entryAfter_append mappingsOf_present _ w

/-- A turn that goes on keeps the invariant. -/
theorem Progress.turn (hp : Progress call node s n u placed) (hf : Loadable node)
    (he : Enough call s node) (hsize : node.fileSize < 2 ^ 64) (hfd : call.fd = some a)
    (hb : Behind u a node) (hn : n < (fileHeader node).phnum)
    (h : turn call (fileHeader node) n u = .ok (true, t)) (hr : t.heap.machine.refused = false) :
    ∃ placed, Progress call node s (n + 1) t placed := by
  obtain ⟨ret, v, hfetch, hret, hbehind, hheap, -⟩ := fetchPhdr_spec hfd hb (fileHeader node) n
  rw [turn_eq hfetch hret, phdrSeen_file call hsize (hf.starts.phdrs n hn)] at h
  have hbound : ∀ live L, Sound Slab.sizes u.heap call.space.pml4 live L →
      P.bound * pageSize ≤ 2 ^ 52 := by
    intro live L hs
    have hb := hs.heap.ok.bound
    unfold pageSize
    omega
  rw [loadPhdr] at h
  split at h
  next htype =>
    have hmem : filePhdr node n ∈ segments node := mem_segments.mpr ⟨n, hn, htype, rfl⟩
    have hfit := he.segments _ hmem
    have hstart := hf.starts.ranges n hn (Or.inl htype)
    obtain ⟨page, hnext⟩ := hp.segment htype (fun live L hs => by
      have hmax := hbound live L hs
      rw [← hheap] at hs ⊢
      exact loadSegment_placed hs hfd hbehind (by omega) (hf.sizes n hn htype) hstart h hr) hr
    exact ⟨_, hnext⟩
  next hload =>
    refine ⟨placed, hp.other hload (fun live L hs => ?_) hr⟩
    have hmax := hbound live L hs
    rw [← hheap] at hs ⊢
    have hsame : t.heap = v.heap → ∃ live' L', Sound Slab.sizes t.heap call.space.pml4 live' L' ∧
        Spares call.space.pml4 v.heap.machine L t.heap.machine L' ∧
        ∀ w, pte t.heap.machine call.space.pml4 w = pte v.heap.machine call.space.pml4 w := by
      intro heq
      rw [heq]
      exact ⟨live, L, hs, ⟨rfl, fun i hi => ⟨hi, fun _ _ => rfl⟩⟩, fun _ => rfl⟩
    split at h
    next =>
      cases h
      exact hsame rfl
    next =>
      split at h
      next hinterp =>
        have hfit := he.paths n hn hinterp
        exact loadInterp_spares hs (by omega) h hr
      next =>
        cases h
        exact hsame rfl

theorem calloc_null {m : Machine P} {pages : Nat} (hm : m.Ok) (hpos : 0 < pages)
    (h : (m.calloc pages).1 = 0) : (m.calloc pages).2.refused = true := by
  have hc := Machine.calloc_spec hm hpos
  generalize m.calloc pages = r at hc h ⊢
  cases hc with
  | refused => rfl
  | run page _ _ positive => exact absurd h (Nat.mul_ne_zero (Nat.ne_of_gt positive) (by decide))

theorem loadSegment_null (h : (s.heap.machine.calloc (pageCount phdr)).1 = 0) :
    loadSegment call phdr s = .ok (false, { s with
      heap := { s.heap with machine := (s.heap.machine.calloc (pageCount phdr)).2 } }) := by
  rw [loadSegment]
  exact if_pos h

/-- When memory is enough, only the file decides whether the loader goes on. -/
theorem Progress.passes_iff (hp : Progress call node s n u placed) (hf : Loadable node)
    (he : Enough call s node) (hsize : node.fileSize < 2 ^ 64) (hfd : call.fd = some a)
    (hb : Behind u a node) (hc : Comes call s (fileHeader node) n u) :
    Passes node (filePhdr node n) u.heap ↔ Accepts node (filePhdr node n) := by
  obtain ⟨live, L, hs, -⟩ := hp.sound
  have hn := hc.counted
  have hmax : P.bound * pageSize ≤ 2 ^ 52 := by
    have hbound := hs.heap.ok.bound
    unfold pageSize
    omega
  have hcount : (filePhdr node n).type = ptLoad → pageCount (filePhdr node n) =
      ((filePhdr node n).memsz + misalign (filePhdr node n) + 4095) / 4096 := by
    intro htype
    have hfit := he.segments _ (mem_segments.mpr ⟨n, hn, htype, rfl⟩)
    exact pageCount_eq (by omega)
  constructor
  · intro h
    refine ⟨fun htype => Nat.pos_of_ne_zero fun hzero => ?_, h.2.2⟩
    have hnone : pageCount (filePhdr node n) = 0 := by
      rw [hcount htype, hzero]
    have hcall := h.1 htype
    rw [hnone] at hcall
    exact hcall rfl
  · intro h
    refine ⟨fun htype hnull => ?_, fun hinterp => ?_, h.2⟩
    · obtain ⟨ret, v, hfetch, hret, -, hheap, -⟩ := fetchPhdr_spec hfd hb (fileHeader node) n
      rw [phdrSeen_file call hsize (hf.starts.phdrs n hn)] at hfetch
      have hnull' : (v.heap.machine.calloc (pageCount (filePhdr node n))).1 = 0 := by
        rw [hheap]
        exact hnull
      have hturn := turn_eq hfetch hret
      rw [loadPhdr, if_pos htype, loadSegment_null hnull', hheap] at hturn
      have hgranted := he.granted n u _ _ hc hturn
      have hpos : 0 < pageCount (filePhdr node n) := by
        have hbytes := h.1 htype
        rw [hcount htype]
        omega
      have hrefused := calloc_null hs.heap.ok hpos hnull
      exact Bool.false_ne_true (hgranted.symm.trans hrefused)
    · have hfit := he.paths n hn hinterp
      have hlen : u64 ((filePhdr node n).filesz + 1) + 4095 < 2 ^ 64 := by
        rw [u64_of_lt (by omega)]
        omega
      obtain ⟨r, hr, -⟩ := hs.heap.kmalloc hlen
      rw [Heap.kcalloc, hr]
      rfl

/-- The run up to a header: what the loader has done, and that no header before made it give
up. -/
theorem Progress.run (ho : Opened call s a node) (hs : Sound Slab.sizes s.heap call.space.pml4 live L)
    (hf : Loadable node) (he : Enough call s node) {ret : BitVec 64}
    (hheader : fetchHeader call s = .ok (ret, fileHeader node, s')) (hret : ret ≠ 0#64)
    (h : Before (Elf.turn call (fileHeader node)) 0 s' n u) (hn : n ≤ (fileHeader node).phnum) :
    (∃ placed, Progress call node s n u placed) ∧ ∀ i < n, Accepts node (filePhdr node i) := by
  induction h with
  | start =>
    exact ⟨⟨[], Progress.start hs he.before (fetchHeader_heap hheader)⟩,
      fun i hi => absurd hi (Nat.not_lt_zero i)⟩
  | @next k u t earlier goes ih =>
    obtain ⟨⟨placed, hp⟩, haccepts⟩ := ih (by omega)
    have hc : Comes call s (fileHeader node) k u :=
      ⟨⟨ret, s', hheader, hret, earlier⟩, hf.magic, hf.valid, hn⟩
    have hb := (ho.comes_behind hc).2
    refine ⟨hp.turn hf he ho.size ho.fd hb hn goes (he.granted k u _ _ hc goes), fun i hi => ?_⟩
    rcases Nat.lt_succ_iff_lt_or_eq.mp hi with hlt | rfl
    · exact haccepts i hlt
    · obtain ⟨_, _, -, -, hends⟩ := turn_spec ho.fd hb (fileHeader node) i
      have hpasses := (hends.result goes).2.2.mp rfl
      rw [phdrSeen_file call ho.size (hf.starts.phdrs i hn)] at hpasses
      exact (hp.passes_iff hf he ho.size ho.fd hb hc).mp hpasses

/-- A file without a header that makes the loader give up is gone through to its end. -/
theorem Progress.goes (ho : Opened call s a node) (hs : Sound Slab.sizes s.heap call.space.pml4 live L)
    (hf : Loadable node) (he : Enough call s node) {ret : BitVec 64}
    (hheader : fetchHeader call s = .ok (ret, fileHeader node, s')) (hret : ret ≠ 0#64)
    (haccepts : ∀ i < (fileHeader node).phnum, Accepts node (filePhdr node i)) (n : Nat)
    (hn : n ≤ (fileHeader node).phnum) :
    ∃ u, Before (Elf.turn call (fileHeader node)) 0 s' n u := by
  induction n with
  | zero => exact ⟨s', Before.start⟩
  | succ n ih =>
    obtain ⟨u, hu⟩ := ih (by omega)
    have hc : Comes call s (fileHeader node) n u :=
      ⟨⟨ret, s', hheader, hret, hu⟩, hf.magic, hf.valid, hn⟩
    have hb := (ho.comes_behind hc).2
    obtain ⟨⟨placed, hp⟩, -⟩ := Progress.run ho hs hf he hheader hret hu (by omega)
    obtain ⟨_, _, -, -, hends⟩ := turn_spec ho.fd hb (fileHeader node) n
    rw [phdrSeen_file call ho.size (hf.starts.phdrs n hn)] at hends
    obtain ⟨t, ht⟩ :=
      hends.goes ((hp.passes_iff hf he ho.size ho.fd hb hc).mpr (haccepts n hn))
    exact ⟨t, Before.next hu ht⟩

/-- What can be read at an address is what the first segment with a page for it put there. -/
theorem Progress.byteAt (hp : Progress call node s (fileHeader node).phnum t placed) {w : Nat}
    (hold : pte s.heap.machine call.space.pml4 w &&& ptePresent = 0#64) {owner : Phdr} {i : Nat}
    (hfirst : firstPage call (segments node) w = some (owner, i)) :
    call.space.byteAt t.heap.machine w = some (image node owner (i * pageSize + w % pageSize)) := by
  obtain ⟨live, L, hs, hplaced⟩ := hp.sound
  have hfind := find_mappingsOf call placed w
  have hheaders : placed.map Prod.fst = segments node := hp.headers
  rw [hheaders, hfirst] at hfind
  rcases hfind with ⟨-, hnone⟩ | ⟨d, hd, j, hj, hmap, hpage⟩
  · cases hnone
  · obtain ⟨rfl, rfl⟩ := Prod.mk.inj (Option.some.inj hpage)
    have hpl := hplaced d hd
    have hbound := hs.heap.ok.bound
    have hinside := hpl.inside
    have hphys : u64 (d.2 * pageSize + i * pageSize) = (d.2 + i) * pageSize := by
      rw [← Nat.add_mul]
      exact u64_of_lt (by unfold pageSize; omega)
    have hentry : pte t.heap.machine call.space.pml4 w =
        BitVec.ofNat 64 ((d.2 + i) * pageSize) ||| segmentFlags d.1.flags := by
      rw [hp.entries w, entryAfter, if_neg (not_not.mpr hold), hmap, ← hphys]
      rfl
    have hframe : (pteGetAddr (pte t.heap.machine call.space.pml4 w)).toNat =
        (d.2 + i) * pageSize := by
      rw [hentry, pteGetAddr_entry (by omega) (segmentFlags_addr _), BitVec.toNat_ofNat]
      exact Nat.mod_eq_of_lt (by unfold pageSize; omega)
    have hset : ¬pte t.heap.machine call.space.pml4 w &&& ptePresent = 0#64 := by
      rw [hentry]
      exact present_or (segmentFlags_present _)
    have hplace : t.heap.machine.physToVirt ((d.2 + i) * pageSize) + w % pageSize =
        t.heap.machine.pageAt d.2 + (i * pageSize + w % pageSize) := by
      unfold Machine.physToVirt Machine.pageAt
      rw [Nat.add_mul]
      omega
    have hx : i * pageSize + w % pageSize < pageCount d.1 * pageSize := by
      have hle : (i + 1) * pageSize ≤ pageCount d.1 * pageSize := Nat.mul_le_mul_right _ hj
      have hlt : w % pageSize < pageSize := Nat.mod_lt _ (by decide)
      rw [Nat.succ_mul] at hle
      omega
    simp only [AddressSpace.byteAt, if_neg hset, hframe, hplace]
    rw [hpl.bytes _ hx]

theorem Progress.places_iff (hp : Progress call node s (fileHeader node).phnum t placed)
    (he : Enough call s node) (halign : pageSize ∣ call.loadBase)
    (hv : Vacant call s.heap.machine node) : Places call node t.heap.machine ↔
      ∀ phdr ∈ segments node, ∀ k < phdr.memsz, ∀ owner i,
        firstPage call (segments node) (address call phdr k) = some (owner, i) →
        image node owner (i * pageSize + address call phdr k % pageSize) = content node phdr k := by
  obtain ⟨live, L, hs, -⟩ := hp.sound
  refine forall_congr' fun phdr => forall_congr' fun hmem => forall_congr' fun k =>
    forall_congr' fun hk => ?_
  have hbyte : ∀ owner i, firstPage call (segments node) (address call phdr k) = some (owner, i) →
      call.space.byteAt t.heap.machine (address call phdr k) =
        some (image node owner (i * pageSize + address call phdr k % pageSize)) :=
    fun owner i => hp.byteAt (hv phdr hmem k hk)
  constructor
  · intro h owner i hfirst
    rw [hbyte owner i hfirst] at h
    exact Option.some.inj h
  · intro h
    have hfit := he.segments phdr hmem
    have hsome : firstPage call (segments node) (address call phdr k) ≠ none := by
      refine firstPage_some halign hmem ?_ hk
      have hbound := hs.heap.ok.bound
      unfold pageSize at hfit
      omega
    obtain ⟨⟨owner, i⟩, hfirst⟩ := Option.ne_none_iff_exists'.mp hsome
    rw [hbyte owner i hfirst, h owner i hfirst]

/-- A file that is loaded correctly. -/
theorem Loads.intact (h : Loads call s node) (ho : Opened call s a node)
    (hs : Sound Slab.sizes s.heap call.space.pml4 live L) (hf : Loadable node)
    (halign : pageSize ∣ call.loadBase) (hv : Vacant call s.heap.machine node)
    (he : Enough call s node) : Intact call node := by
  obtain ⟨ret, s', hheader, hret, -⟩ := fetchHeader_spec ho.fd ho.behind
  rw [headerSeen_file call hf.starts.header] at hheader
  obtain ⟨t, ht, hplaces⟩ := h
  obtain ⟨-, -, v, hbefore, rfl⟩ := (load_true hheader hret).mp ht
  obtain ⟨⟨placed, hp⟩, haccepts⟩ := Progress.run ho hs hf he hheader hret hbefore (le_refl _)
  exact ⟨haccepts, (hp.places_iff he halign hv).mp hplaces⟩

theorem Intact.loads (h : Intact call node) (ho : Opened call s a node)
    (hs : Sound Slab.sizes s.heap call.space.pml4 live L) (hf : Loadable node)
    (halign : pageSize ∣ call.loadBase) (hv : Vacant call s.heap.machine node)
    (he : Enough call s node) : Loads call s node := by
  obtain ⟨ret, s', hheader, hret, -⟩ := fetchHeader_spec ho.fd ho.behind
  rw [headerSeen_file call hf.starts.header] at hheader
  obtain ⟨v, hbefore⟩ := Progress.goes ho hs hf he hheader hret h.headers _ (le_refl _)
  obtain ⟨⟨placed, hp⟩, -⟩ := Progress.run ho hs hf he hheader hret hbefore (le_refl _)
  exact ⟨_, (load_true hheader hret).mpr ⟨hf.magic, hf.valid, v, hbefore, rfl⟩,
    (hp.places_iff he halign hv).mpr h.bytes⟩

/-- A file is loaded correctly exactly if no header makes the loader give up and the segments
agree on the pages that they share. -/
theorem load_places_iff (ho : Opened call s a node)
    (hs : Sound Slab.sizes s.heap call.space.pml4 live L) (hf : Loadable node)
    (halign : pageSize ∣ call.loadBase) (hv : Vacant call s.heap.machine node)
    (he : Enough call s node) : Loads call s node ↔ Intact call node :=
  ⟨fun h => h.intact ho hs hf halign hv he, fun h => h.loads ho hs hf halign hv he⟩

/-- No two pages of segments are mapped at one address. -/
def Unshared (call : ElfCall) (node : Node) : Prop :=
  ∀ x ∈ (segments node).flatMap pagesOf, ∀ y ∈ (segments node).flatMap pagesOf,
    SamePage (pageAddress call x.1 x.2) (pageAddress call y.1 y.2) → x = y

/-- Segments that share no page agree on every byte. -/
theorem Unshared.bytes (h : Unshared call node) (halign : pageSize ∣ call.loadBase)
    (hfits : ∀ phdr ∈ segments node, phdr.memsz + misalign phdr + 4095 < 2 ^ 64) :
    ∀ phdr ∈ segments node, ∀ k < phdr.memsz, ∀ owner i,
      firstPage call (segments node) (address call phdr k) = some (owner, i) →
      image node owner (i * pageSize + address call phdr k % pageSize) = content node phdr k := by
  intro phdr hmem k hk owner i hfirst
  obtain ⟨hpage, hfound⟩ := firstPage_holds hfirst
  have hown := samePage_address halign phdr k
  obtain ⟨rfl, rfl⟩ := Prod.mk.inj
    (h _ hpage _ (mem_pagesOf hmem (hfits phdr hmem) hk) (hfound.trans hown.symm))
  rw [address_mod halign, Nat.div_add_mod', image, if_neg (by omega), Nat.add_sub_cancel_left]

/-- The loader on a machine with a heap. -/
def heapLoader (vfs : Vfs) : Loader (Pmm.source 8 Vmm.bootPmm_limit) :=
  ⟨Heap.bootHeap, vfs, ⟨0, 0, 0, 0⟩, 0, []⟩

theorem loadSegment_granted {go : Bool} (h : loadSegment call phdr s = .ok (go, t))
    (hc : (s.heap.machine.calloc (pageCount phdr)).2.refused = false)
    (hm : (call.space.mapAll (s.heap.machine.calloc (pageCount phdr)).2
      (segmentMappings call phdr (s.heap.machine.calloc (pageCount phdr)).1)).refused = false) :
    t.heap.machine.refused = false := by
  simp only [loadSegment] at h
  split at h
  next =>
    cases h
    exact hc
  next =>
    rw [mapRange_segment] at h
    obtain ⟨⟨ret, bytes, u⟩, hu, h⟩ := Except.bind_eq_ok.mp h
    have hheap := readAt_heap hu
    have hu' : u.heap.machine.refused = false := by
      rw [hheap]
      exact hm
    cases bytes with
    | none =>
      cases h
      exact hu'
    | some bytes =>
      cases h
      exact hu'

theorem boot_opened (filesz : Byte) :
    Opened bootCall (heapLoader (segmentFile filesz)) 0 (oneSegment filesz) := by
  have hsize : 121 < 2 ^ 64 := by decide
  refine ⟨rfl, ⟨_, rfl, rfl, rfl, ?_, rfl⟩, hsize, rfl, rfl⟩
  exact fun h => by cases h

variable {filesz : Byte}

theorem oneSegment_header (hsz : filesz = 0#8 ∨ filesz = 1#8) :
    (fileHeader (oneSegment filesz)).phnum = 1 ∧
      (filePhdr (oneSegment filesz) 0).type = ptLoad ∧
      (filePhdr (oneSegment filesz) 0).memsz = 1 ∧ misalign (filePhdr (oneSegment filesz) 0) = 0 := by
  rcases hsz with rfl | rfl
  · decide
  · decide

theorem oneSegment_segments (hsz : filesz = 0#8 ∨ filesz = 1#8) {phdr : Phdr}
    (h : phdr ∈ segments (oneSegment filesz)) : phdr = filePhdr (oneSegment filesz) 0 := by
  obtain ⟨hcount, -⟩ := oneSegment_header hsz
  obtain ⟨i, hi, -, rfl⟩ := mem_segments.mp h
  rw [hcount] at hi
  rw [Nat.lt_one_iff.mp hi]

theorem oneSegment_loadable (hsz : filesz = 0#8 ∨ filesz = 1#8) : Loadable (oneSegment filesz) := by
  have hdisjoint : (segments (oneSegment filesz)).length ≤ 1 := by
    rcases hsz with rfl | rfl
    · decide
    · decide
  have hpairs : (segments (oneSegment filesz)).Pairwise fun p q =>
      ∀ x, ¬((p.vaddr ≤ x ∧ x < p.vaddr + p.memsz) ∧ q.vaddr ≤ x ∧ x < q.vaddr + q.memsz) := by
    cases hs : segments (oneSegment filesz) with
    | nil => exact List.Pairwise.nil
    | cons p rest =>
      rw [hs, List.length_cons] at hdisjoint
      rw [List.eq_nil_of_length_eq_zero (by omega : rest.length = 0)]
      exact List.pairwise_singleton _ p
  rcases hsz with rfl | rfl
  · exact ⟨⟨by decide, by decide, by decide, by decide⟩, by decide, by decide, hpairs⟩
  · exact ⟨⟨by decide, by decide, by decide, by decide⟩, by decide, by decide, hpairs⟩

theorem boot_vacant (filesz : Byte) :
    Vacant bootCall Heap.bootHeap.machine (oneSegment filesz) := by
  intro phdr _ k _
  have hsame := (Sound.init bootMachine_ok bootMachine_tables (by decide +kernel)).2
  have hpte : pte Heap.bootHeap.machine bootCall.space.pml4 (address bootCall phdr k) = 0#64 :=
    (hsame _).trans (Mmap.boot_pte _)
  rw [hpte]
  decide

theorem boot_granted (hsz : filesz = 0#8 ∨ filesz = 1#8) {h : Heap (Pmm.source 8 bootPmm_limit)}
    (hb : h = Heap.bootHeap) :
    (h.machine.calloc (pageCount (filePhdr (oneSegment filesz) 0))).2.refused = false ∧
    (bootCall.space.mapAll (h.machine.calloc (pageCount (filePhdr (oneSegment filesz) 0))).2
      (segmentMappings bootCall (filePhdr (oneSegment filesz) 0)
        (h.machine.calloc (pageCount (filePhdr (oneSegment filesz) 0))).1)).refused = false := by
  subst hb
  rcases hsz with rfl | rfl
  · decide +kernel
  · decide +kernel

theorem boot_enough (hsz : filesz = 0#8 ∨ filesz = 1#8) :
    Enough bootCall (heapLoader (segmentFile filesz)) (oneSegment filesz) := by
  obtain ⟨hcount, htype, hmemsz, hmis⟩ := oneSegment_header hsz
  have hf := oneSegment_loadable hsz
  have ho := boot_opened filesz
  have hbefore : Heap.bootHeap.machine.refused = false := by decide +kernel
  refine ⟨fun phdr hmem => ?_, fun i hi hinterp => ?_, hbefore, fun k u go t hc hturn => ?_⟩
  · rw [oneSegment_segments hsz hmem, hmemsz, hmis]
    decide
  · rw [hcount] at hi
    rw [Nat.lt_one_iff.mp hi, htype] at hinterp
    cases hinterp
  · have hk := hc.counted
    have hzero : k = 0 := by omega
    subst hzero
    obtain ⟨ret, s', hheader, -, hbefore⟩ := hc.fetched
    have hstart : u = s' := hbefore.unique Before.start
    obtain ⟨ret', v, hfetch, hret', -, hheap, -⟩ :=
      fetchPhdr_spec ho.fd (ho.comes_behind hc).2 (fileHeader (oneSegment filesz)) 0
    rw [phdrSeen_file bootCall ho.size (hf.starts.phdrs 0 hk)] at hfetch
    rw [turn_eq hfetch hret', loadPhdr, if_pos htype] at hturn
    have hboot : v.heap = Heap.bootHeap := by
      rw [hheap, hstart, fetchHeader_heap hheader, heapLoader]
    obtain ⟨hcalloc, hmapped⟩ := boot_granted hsz hboot
    exact loadSegment_granted hturn hcalloc hmapped

theorem boot_sound (filesz : Byte) : ∃ L,
    Sound Slab.sizes (heapLoader (segmentFile filesz)).heap bootCall.space.pml4 [] L :=
  (Sound.init bootMachine_ok bootMachine_tables (by decide +kernel)).1

theorem oneSegment_unshared : Unshared bootCall (oneSegment 1#8) := by
  have hlength : ((segments (oneSegment 1#8)).flatMap pagesOf).length ≤ 1 := by decide
  unfold Unshared
  cases hpages : (segments (oneSegment 1#8)).flatMap pagesOf with
  | nil => exact fun x hx => absurd hx List.not_mem_nil
  | cons p rest =>
    rw [hpages, List.length_cons] at hlength
    rw [List.eq_nil_of_length_eq_zero (by omega : rest.length = 0)]
    intro x hx y hy _
    rw [List.mem_singleton.mp hx, List.mem_singleton.mp hy]

theorem oneSegment_loaded : Loads bootCall (heapLoader (segmentFile 1#8)) (oneSegment 1#8) := by
  obtain ⟨L, hs⟩ := boot_sound 1#8
  have hcase : (1#8 : Byte) = 0#8 ∨ (1#8 : Byte) = 1#8 := Or.inr rfl
  refine (load_places_iff (boot_opened 1#8) hs (oneSegment_loadable hcase) (by decide)
    (boot_vacant 1#8) (boot_enough hcase)).mpr ⟨fun i hi => ?_, ?_⟩
  · obtain ⟨hcount, -⟩ := oneSegment_header hcase
    rw [hcount] at hi
    rw [Nat.lt_one_iff.mp hi]
    exact ⟨fun _ => by decide, fun _ _ => by decide⟩
  · refine oneSegment_unshared.bytes (by decide) fun phdr hmem => ?_
    rw [oneSegment_segments hcase hmem]
    decide

/-- A segment without a byte in the file makes the loader give up. -/
theorem bss_segment_not_loaded : Opened bootCall (heapLoader (segmentFile 0#8)) 0 (oneSegment 0#8) ∧
    (∃ L, Sound Slab.sizes (heapLoader (segmentFile 0#8)).heap bootCall.space.pml4 [] L) ∧
    Loadable (oneSegment 0#8) ∧ pageSize ∣ bootCall.loadBase ∧
    Vacant bootCall (heapLoader (segmentFile 0#8)).heap.machine (oneSegment 0#8) ∧
    Enough bootCall (heapLoader (segmentFile 0#8)) (oneSegment 0#8) ∧
    ¬Loads bootCall (heapLoader (segmentFile 0#8)) (oneSegment 0#8) := by
  obtain ⟨L, hs⟩ := boot_sound 0#8
  have ho := boot_opened 0#8
  have hcase : (0#8 : Byte) = 0#8 ∨ (0#8 : Byte) = 1#8 := Or.inl rfl
  have hf := oneSegment_loadable hcase
  have he := boot_enough hcase
  refine ⟨ho, ⟨L, hs⟩, hf, by decide, boot_vacant 0#8, he, fun h => ?_⟩
  have hintact := h.intact ho hs hf (by decide) (boot_vacant 0#8) he
  have hread := (hintact.headers 0 (by decide)).2 (by decide) (by decide)
  exact hread (by decide)

end Elf

end UmbraOS
