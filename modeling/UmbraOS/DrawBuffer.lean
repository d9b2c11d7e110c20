import Mathlib.Logic.Function.Basic
import UmbraOS.Words

namespace UmbraOS

/-- The framebuffer, in pixels of four bytes; the pixel `(x, y)` is number `y * width + x`. -/
structure Framebuffer where
  width : Nat
  height : Nat
  fits : 4 * (width * height) ≤ 2 ^ 64

/-- The pixels of the framebuffer and what lies behind it, and the indices that were written. -/
structure Drawing where
  pixels : Nat → BitVec 32
  writes : List Nat

namespace Drawing

variable (buffer : Nat → BitVec 32) (stride width : Nat)

/-- `framebuffer[y * framebuffer_width + x] = buffer[y * width + x]` -/
def drawPixel (d : Drawing) (y x : Nat) : Drawing :=
  ⟨Function.update d.pixels (u64 (y * stride + x)) (buffer (u64 (y * width + x))),
    d.writes ++ [u64 (y * stride + x)]⟩

/-- The first `count` turns of the inner loop. -/
def drawRow (d : Drawing) (count y : Nat) : Drawing :=
  (List.range count).foldl (fun d x => d.drawPixel buffer stride width y x) d

/-- The first `count` turns of the outer loop. -/
def drawRows (d : Drawing) (count : Nat) : Drawing :=
  (List.range count).foldl (fun d y => d.drawRow buffer stride width width y) d

/-- The buffer of the user lies outside the framebuffer. -/
def sysDrawFromBuffer (framebuffer : Framebuffer) (buffer : Nat → BitVec 32) (width height : BitVec 64)
    (pixels : Nat → BitVec 32) : Drawing :=
  drawRows buffer framebuffer.width width.toNat ⟨pixels, []⟩ height.toNat

variable {buffer stride width} {d : Drawing} {count y : Nat}

theorem drawPixel_same (d : Drawing) (y x : Nat) :
    (d.drawPixel buffer stride width y x).pixels (u64 (y * stride + x)) = buffer (u64 (y * width + x)) :=
  Function.update_self _ _ _

theorem drawPixel_other (d : Drawing) {y x p : Nat} (h : p ≠ u64 (y * stride + x)) :
    (d.drawPixel buffer stride width y x).pixels p = d.pixels p :=
  Function.update_of_ne h _ _

theorem drawRow_succ : d.drawRow buffer stride width (count + 1) y =
    (d.drawRow buffer stride width count y).drawPixel buffer stride width y count := by
  unfold drawRow
  rw [List.range_succ, List.foldl_append, List.foldl_cons, List.foldl_nil]

theorem drawRows_succ : d.drawRows buffer stride width (count + 1) =
    (d.drawRows buffer stride width count).drawRow buffer stride width width count := by
  unfold drawRows
  rw [List.range_succ, List.foldl_append, List.foldl_cons, List.foldl_nil]

theorem mem_drawRow_writes (i : Nat) : i ∈ (d.drawRow buffer stride width count y).writes ↔
    i ∈ d.writes ∨ ∃ x < count, i = u64 (y * stride + x) := by
  induction count with
  | zero => simp [drawRow]
  | succ count ih =>
    rw [drawRow_succ, drawPixel, List.mem_append, ih, List.mem_singleton, or_assoc]
    apply or_congr_right
    constructor
    · rintro (⟨x, hx, rfl⟩ | rfl)
      · exact ⟨x, Nat.lt_succ_of_lt hx, rfl⟩
      · exact ⟨count, Nat.lt_succ_self count, rfl⟩
    · rintro ⟨x, hx, rfl⟩
      rcases Nat.lt_succ_iff_lt_or_eq.mp hx with hlt | rfl
      · exact Or.inl ⟨x, hlt, rfl⟩
      · exact Or.inr rfl

theorem mem_drawRows_writes (i : Nat) : i ∈ (d.drawRows buffer stride width count).writes ↔
    i ∈ d.writes ∨ ∃ y < count, ∃ x < width, i = u64 (y * stride + x) := by
  induction count with
  | zero => simp [drawRows]
  | succ count ih =>
    rw [drawRows_succ, mem_drawRow_writes, ih, or_assoc]
    apply or_congr_right
    constructor
    · rintro (⟨y, hy, hx⟩ | hx)
      · exact ⟨y, Nat.lt_succ_of_lt hy, hx⟩
      · exact ⟨count, Nat.lt_succ_self count, hx⟩
    · rintro ⟨y, hy, hx⟩
      rcases Nat.lt_succ_iff_lt_or_eq.mp hy with hlt | rfl
      · exact Or.inl ⟨y, hlt, hx⟩
      · exact Or.inr hx

/-- A row is drawn where it begins in the framebuffer, however long it is. -/
theorem drawRow_pixels (hfit : y * stride + count ≤ 2 ^ 64) (p : Nat) :
    (d.drawRow buffer stride width count y).pixels p =
      if y * stride ≤ p ∧ p < y * stride + count then buffer (u64 (y * width + (p - y * stride)))
      else d.pixels p := by
  induction count with
  | zero =>
    rw [if_neg (by omega)]
    rfl
  | succ count ih =>
    have hindex : u64 (y * stride + count) = y * stride + count := u64_of_lt (by omega)
    rw [drawRow_succ]
    by_cases hlast : p = u64 (y * stride + count)
    · rw [if_pos (by omega), hlast, drawPixel_same, hindex, Nat.add_sub_cancel_left]
    · rw [drawPixel_other _ hlast, ih (by omega)]
      by_cases hin : y * stride ≤ p ∧ p < y * stride + count
      · rw [if_pos hin, if_pos (by omega)]
      · rw [if_neg hin, if_neg (by omega)]

/-- The rows above are out of the reach of the row that is drawn last. -/
theorem drawRows_pixels (hfit : (count - 1) * stride + width ≤ 2 ^ 64) {x : Nat} (hy : y < count)
    (hx : x < width) (hstride : x < stride) :
    (d.drawRows buffer stride width count).pixels (y * stride + x) = buffer (u64 (y * width + x)) := by
  induction count with
  | zero => cases hy
  | succ count ih =>
    rw [Nat.add_sub_cancel] at hfit
    rw [drawRows_succ, drawRow_pixels hfit]
    rcases Nat.lt_succ_iff_lt_or_eq.mp hy with hlt | rfl
    · have habove : (y + 1) * stride ≤ count * stride := Nat.mul_le_mul_right stride hlt
      have hprev : (count - 1) * stride ≤ count * stride := Nat.mul_le_mul_right stride (Nat.sub_le _ _)
      rw [Nat.succ_mul] at habove
      rw [if_neg (by omega)]
      exact ih (by omega) hlt
    · rw [if_pos (by omega), Nat.add_sub_cancel_left]

end Drawing

namespace Framebuffer

/-- What the system call is to do. -/
structure Draws (framebuffer : Framebuffer) (buffer : Nat → BitVec 32) (width height : BitVec 64)
    (d : Drawing) : Prop where
  inside : ∀ i ∈ d.writes, i < framebuffer.width * framebuffer.height
  visible : ∀ x y, x < min width.toNat framebuffer.width → y < min height.toNat framebuffer.height →
    d.pixels (y * framebuffer.width + x) = buffer (u64 (y * width.toNat + x))

/-- There is nothing to draw, or the last row ends in the framebuffer. -/
def Holds (framebuffer : Framebuffer) (width height : BitVec 64) : Prop :=
  width.toNat = 0 ∨ height.toNat = 0 ∨ (height.toNat - 1) * framebuffer.width + width.toNat ≤
    framebuffer.width * framebuffer.height

variable {framebuffer : Framebuffer} {width height : BitVec 64}

theorem index_lt (h : (height.toNat - 1) * framebuffer.width + width.toNat ≤
    framebuffer.width * framebuffer.height) {x y : Nat} (hy : y < height.toNat) (hx : x < width.toNat) :
    y * framebuffer.width + x < framebuffer.width * framebuffer.height := by
  have hrow : y * framebuffer.width ≤ (height.toNat - 1) * framebuffer.width :=
    Nat.mul_le_mul_right _ (by omega)
  omega

/-- If the last row does not end in the framebuffer, a row goes through the first index behind it. -/
theorem index_behind (h : ¬framebuffer.Holds width height) : ∃ y < height.toNat, ∃ x < width.toNat,
    y * framebuffer.width + x = framebuffer.width * framebuffer.height := by
  unfold Holds at h
  rw [not_or, not_or, Nat.not_le] at h
  obtain ⟨hwidth, hheight, hend⟩ := h
  by_cases htall : framebuffer.height < height.toNat
  · exact ⟨framebuffer.height, htall, 0, by omega, Nat.mul_comm _ _⟩
  · have hlast : (height.toNat - 1) * framebuffer.width ≤ framebuffer.height * framebuffer.width :=
      Nat.mul_le_mul_right _ (by omega)
    rw [Nat.mul_comm framebuffer.height] at hlast
    exact ⟨height.toNat - 1, by omega,
      framebuffer.width * framebuffer.height - (height.toNat - 1) * framebuffer.width, by omega, by omega⟩

/-- A row that is longer than those of the framebuffer runs into the next ones, which are drawn
later; only the end of the last row tells whether all goes well. -/
theorem draws_iff_holds (framebuffer : Framebuffer) (buffer pixels : Nat → BitVec 32)
    (width height : BitVec 64) :
    framebuffer.Draws buffer width height (Drawing.sysDrawFromBuffer framebuffer buffer width height pixels) ↔
      framebuffer.Holds width height := by
  have hfits := framebuffer.fits
  constructor
  · intro h
    by_contra hnot
    obtain ⟨y, hy, x, hx, hindex⟩ := index_behind hnot
    have hwritten : framebuffer.width * framebuffer.height ∈
        (Drawing.sysDrawFromBuffer framebuffer buffer width height pixels).writes := by
      refine (Drawing.mem_drawRows_writes _).mpr (Or.inr ⟨y, hy, x, hx, ?_⟩)
      rw [hindex, u64_of_lt (by omega)]
    exact Nat.lt_irrefl _ (h.inside _ hwritten)
  · intro h
    constructor
    · intro i hi
      rcases (Drawing.mem_drawRows_writes i).mp hi with hold | ⟨y, hy, x, hx, rfl⟩
      · cases hold
      · have hend := (h.resolve_left (by omega)).resolve_left (by omega)
        exact Nat.lt_of_le_of_lt (u64_le _) (index_lt hend hy hx)
    · intro x y hx hy
      rw [Nat.lt_min] at hx hy
      have hend := (h.resolve_left (by omega)).resolve_left (by omega)
      exact Drawing.drawRows_pixels (by omega) hy.1 hx.1 hx.2

/-- One row too many, on a framebuffer of two pixels. -/
theorem row_below_framebuffer :
    ¬∀ (framebuffer : Framebuffer) (buffer pixels : Nat → BitVec 32) (width height : BitVec 64),
      framebuffer.Draws buffer width height
        (Drawing.sysDrawFromBuffer framebuffer buffer width height pixels) := by
  intro h
  have hdraws := h ⟨2, 1, by decide⟩ (fun _ => 0xffffff#32) (fun _ => 0#32) 2#64 2#64
  exact absurd (hdraws.inside 2 (by decide)) (by decide)

end Framebuffer

end UmbraOS
