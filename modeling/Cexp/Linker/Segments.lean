import Cexp.Lib.Heap
import Cexp.Linker.Loaded

/-!
# Segments

The memory of a module: `cexpSegsAlloc` allocates a chunk for each segment that is not empty, and
`cexpSegsDelete` frees the chunks again. The chunks come from `malloc` or from the region manager;
what these promise is part of `SegmentSource`.

An allocation that fails leaves the segments before it with their chunks. Whether it fails or not,
the heap has the chunks of the segments and nothing else that is new (`cexpSegsAlloc_alloced`), and
deleting the segments frees them (`cexpSegsDelete_perm`).
-/

namespace Cexp

open CLib

variable {w : Nat}

/-! ## Layouts -/

/-- What `cexpSegsInit` and `cexpSegsMatch` make of a target. -/
structure SegmentLayout (w : Nat) where
  nsegs : Nat
  segOf : Asection w → Nat
  inside : ∀ s, segOf s < nsegs

/-- `cexpsegs-dflt.c` -/
def cexpSegsDflt : SegmentLayout w := ⟨1, cexpSegsMatchDflt, fun _ => Nat.one_pos⟩

/-- `cexpsegs-powerpc-rtems.c` -/
def cexpSegsPowerpc : SegmentLayout w where
  nsegs := 2
  segOf := cexpSegsMatchPowerpc
  inside := by
    intro s
    unfold cexpSegsMatchPowerpc
    split
    · exact Nat.two_pos
    · exact Nat.one_lt_two

/-- `malloc` and `rtems_region_get_segment`: the memory that is found for a segment. -/
structure SegmentSource (w : Nat) where
  get : Nat → Heap → BitVec w → Option (BitVec w)
  nonnull : ∀ {g : Nat} {h : Heap} {size a : BitVec w}, get g h size = some a → a ≠ 0
  fits : ∀ {g : Nat} {h : Heap} {size a : BitVec w}, get g h size = some a →
    a.toNat + size.toNat < 2 ^ w
  apart : ∀ {g : Nat} {h : Heap} {size a : BitVec w}, get g h size = some a →
    ∀ d ∈ h.chunks, Chunk.Apart ⟨a.toNat, size.toNat⟩ d

/-! ## Allocation -/

/-- The chunk of a segment, if it has one. -/
def CexpSegment.held (seg : CexpSegment w) : Option Chunk :=
  if seg.chunk = 0 then none else some ⟨seg.chunk.toNat, seg.size.toNat⟩

theorem SegmentSource.room (source : SegmentSource w) {g : Nat} {h : Heap} {size a : BitVec w}
    (hsize : size ≠ 0) (hget : source.get g h size = some a) :
    h.Room ⟨a.toNat, size.toNat⟩ where
  nonempty hzero := hsize (BitVec.eq_of_toNat_eq hzero)
  apart := source.apart hget

/-- `s->allocat(s)`. There is no result if it fails. -/
def allocat (source : SegmentSource w) (g : Nat) (seg : CexpSegment w) (h : Heap) :
    Option (CexpSegment w × Heap) :=
  if hsize : seg.size ≠ 0 then
    match hget : source.get g h seg.size with
    | none => none
    | some a => some ({ seg with chunk := a }, h.add _ (source.room hsize hget))
  else some ({ seg with chunk := 0 }, h)

/-- The loop of `cexpSegsAlloc`, over the segments `gs`. -/
def cexpSegsAlloc (source : SegmentSource w) (segs : Nat → CexpSegment w) (h : Heap) :
    List Nat → Bool × (Nat → CexpSegment w) × Heap
  | [] => (true, segs, h)
  | g :: gs =>
    match allocat source g (segs g) h with
    | none => (false, segs, h)
    | some (seg, h) => cexpSegsAlloc source (Function.update segs g seg) h gs

/-- What the segments hold. -/
def heldChunks (segs : Nat → CexpSegment w) (gs : List Nat) : List Chunk :=
  gs.filterMap fun g => (segs g).held

/-- `cexpSegsDelete`, for segments with chunks. There is no result if one of them is not
allocated. -/
def cexpSegsDelete (segs : Nat → CexpSegment w) (nsegs : Nat) (h : Heap) : Option Heap :=
  h.freeAll ((heldChunks segs (List.range nsegs)).map Chunk.addr)

/-- What `cexpSegsAlloc` does. -/
structure SegsAlloced (gs : List Nat) (segs : Nat → CexpSegment w) (h : Heap)
    (out : Bool × (Nat → CexpSegment w) × Heap) : Prop where
  size : ∀ g, (out.2.1 g).size = (segs g).size
  other : ∀ g ∉ gs, out.2.1 g = segs g
  held : out.2.2.chunks.Perm (heldChunks out.2.1 gs ++ h.chunks)
  empty : ∀ g ∈ gs, (segs g).size = 0 → (out.2.1 g).chunk = 0
  done : out.1 = true → ∀ g ∈ gs, (segs g).size ≠ 0 →
    (out.2.1 g).chunk ≠ 0 ∧ (out.2.1 g).chunk.toNat + (segs g).size.toNat < 2 ^ w

section

variable {source : SegmentSource w} {segs : Nat → CexpSegment w} {h h' : Heap} {g : Nat}
  {seg : CexpSegment w}

/-- What the allocation of one segment does. -/
structure Allocated (seg₀ seg : CexpSegment w) (h h' : Heap) : Prop where
  size : seg.size = seg₀.size
  heap : h'.chunks.Perm (seg.held.toList ++ h.chunks)
  empty : seg₀.size = 0 → seg.chunk = 0
  done : seg₀.size ≠ 0 → seg.chunk ≠ 0 ∧ seg.chunk.toNat + seg₀.size.toNat < 2 ^ w

theorem allocat_allocated {seg₀ : CexpSegment w} (hrun : allocat source g seg₀ h = some (seg, h')) :
    Allocated seg₀ seg h h' := by
  unfold allocat at hrun
  split at hrun
  · next hsize =>
    split at hrun
    · cases hrun
    · next a hget =>
      cases hrun
      have ha : a ≠ 0 := source.nonnull hget
      refine ⟨rfl, ?_, fun hzero => absurd hzero hsize, fun _ => ⟨ha, source.fits hget⟩⟩
      unfold CexpSegment.held
      rw [if_neg ha]
      exact .refl _
  · next hsize =>
    cases hrun
    exact ⟨rfl, .refl _, fun _ => rfl, fun hpos => absurd hpos hsize⟩

theorem heldChunks_none {gs : List Nat} (hnull : ∀ g ∈ gs, (segs g).chunk = 0) :
    heldChunks segs gs = [] := by
  unfold heldChunks
  rw [List.filterMap_eq_nil_iff]
  intro g hg
  exact if_pos (hnull g hg)

/-- An allocation that fails leaves the segments from there on without chunks. -/
theorem SegsAlloced.fail {gs : List Nat} (hnull : ∀ g ∈ gs, (segs g).chunk = 0) :
    SegsAlloced gs segs h (false, segs, h) := by
  refine ⟨fun _ => rfl, fun _ _ => rfl, ?_, fun g hg _ => hnull g hg, ?_⟩
  · rw [heldChunks_none hnull]
    exact .refl _
  · intro hfalse
    cases hfalse

/-- One more segment in front. -/
theorem SegsAlloced.cons {gs : List Nat} {out : Bool × (Nat → CexpSegment w) × Heap}
    (hg : g ∉ gs) (hhead : Allocated (segs g) seg h h')
    (htail : SegsAlloced gs (Function.update segs g seg) h' out) :
    SegsAlloced (g :: gs) segs h out := by
  have hother : ∀ k, k ≠ g → Function.update segs g seg k = segs k := fun k hk =>
    Function.update_of_ne hk seg segs
  have hsize : ∀ k, (Function.update segs g seg k).size = (segs k).size := by
    intro k
    by_cases hk : k = g
    · rw [hk, Function.update_self, hhead.size]
    · rw [hother k hk]
  have hseg : out.2.1 g = seg := by
    rw [htail.other g hg, Function.update_self]
  refine ⟨?_, ?_, ?_, ?_, ?_⟩
  · intro k
    rw [htail.size k, hsize k]
  · intro k hk
    rw [List.mem_cons, not_or] at hk
    rw [htail.other k hk.2, hother k hk.1]
  · have hheld : heldChunks out.2.1 (g :: gs) = seg.held.toList ++ heldChunks out.2.1 gs := by
      unfold heldChunks
      rw [List.filterMap_cons, hseg]
      cases seg.held with
      | none => rfl
      | some c => rfl
    rw [hheld, List.append_assoc]
    refine htail.held.trans ((hhead.heap.append_left _).trans ?_)
    rw [← List.append_assoc, ← List.append_assoc]
    exact List.perm_append_comm.append_right _
  · intro k hk hzero
    rcases List.mem_cons.mp hk with rfl | hk
    · rw [hseg]
      exact hhead.empty hzero
    · exact htail.empty k hk (by rw [hsize k]; exact hzero)
  · intro hok k hk hpos
    rcases List.mem_cons.mp hk with rfl | hk
    · rw [hseg]
      exact hhead.done hpos
    · have hdone := htail.done hok k hk (by rw [hsize k]; exact hpos)
      rw [hsize k] at hdone
      exact hdone

/-- Segments without chunks get theirs one after the other. -/
theorem cexpSegsAlloc_alloced {gs : List Nat} (hnodup : gs.Nodup)
    (hnull : ∀ g ∈ gs, (segs g).chunk = 0) :
    SegsAlloced gs segs h (cexpSegsAlloc source segs h gs) := by
  induction gs generalizing segs h with
  | nil =>
    refine ⟨fun _ => rfl, fun _ _ => rfl, .refl _, ?_, ?_⟩
    · intro g hg
      cases hg
    · intro _ g hg
      cases hg
  | cons g gs ih =>
    obtain ⟨hg, hrest⟩ := List.nodup_cons.mp hnodup
    unfold cexpSegsAlloc
    split
    · exact .fail hnull
    · next seg h₁ hallocat =>
      apply SegsAlloced.cons hg (allocat_allocated hallocat)
      apply ih hrest
      intro k hk
      have hne : k ≠ g := fun heq => hg (heq ▸ hk)
      rw [Function.update_of_ne hne]
      exact hnull k (List.mem_cons_of_mem g hk)

theorem SegsAlloced.held_iff {gs : List Nat} {out : Bool × (Nat → CexpSegment w) × Heap}
    (hout : SegsAlloced gs segs h out) {c : Chunk} :
    c ∈ heldChunks out.2.1 gs ↔ ∃ g ∈ gs, (out.2.1 g).chunk ≠ 0 ∧
      c = ⟨(out.2.1 g).chunk.toNat, (segs g).size.toNat⟩ := by
  unfold heldChunks CexpSegment.held
  rw [List.mem_filterMap]
  constructor
  · rintro ⟨k, hk, hc⟩
    split at hc
    · cases hc
    · next hne =>
      cases hc
      rw [hout.size k]
      exact ⟨k, hk, hne, rfl⟩
  · rintro ⟨k, hk, hne, rfl⟩
    refine ⟨k, hk, ?_⟩
    rw [if_neg hne, hout.size k]

/-- What has been allocated can be freed. -/
theorem cexpSegsDelete_perm {nsegs : Nat} {rest : List Chunk}
    (hheld : h.chunks.Perm (heldChunks segs (List.range nsegs) ++ rest)) :
    ∃ h', cexpSegsDelete segs nsegs h = some h' ∧ h'.chunks.Perm rest :=
  Heap.freeAll_perm hheld

end

/-! ## The memory of the segments -/

/-- A segment without sections is empty. -/
theorem countedSize_unused {segOf : Asection w → Nat} {sects : List (Asection w)} {g : Nat}
    (hg : ∀ s ∈ sects, segOf s ≠ g) : countedSize segOf sects g = 0 := by
  have hsame : ∀ (i : Nat) (ld : SegmentData w),
      (countFrom segOf i ld sects).segs g = ld.segs g := by
    induction sects with
    | nil => exact fun _ _ => rfl
    | cons s sects ih =>
      intro i ld
      rw [List.forall_mem_cons] at hg
      exact (ih hg.2 (i + 1) (sCount segOf ld i s)).trans (sCount_other (Ne.symm hg.1))
  unfold countedSize countAll
  rw [hsame]
  rfl

@[simp] theorem addSize_chunk (ld : SegmentData w) (g : Nat) (n : BitVec w) (k : Nat) :
    ((ld.addSize g n).segs k).chunk = (ld.segs k).chunk := by
  by_cases hk : k = g
  · subst hk
    rw [addSize_segs_self]
  · rw [addSize_segs_other hk]

/-- `s_count` does not allocate. -/
theorem sCount_chunk (segOf : Asection w → Nat) (ld : SegmentData w) (i : Nat) (s : Asection w)
    (g : Nat) : ((sCount segOf ld i s).segs g).chunk = (ld.segs g).chunk := by
  unfold sCount
  dsimp only
  split
  · split
    · split
      · simp
      · split
        · simp
        · simp
    · simp
  · rfl

theorem countAll_null (segOf : Asection w → Nat) (sects : List (Asection w)) (g : Nat) :
    ((countAll segOf sects).segs g).chunk = 0 := by
  have hcount : ∀ (i : Nat) (ld : SegmentData w),
      ((countFrom segOf i ld sects).segs g).chunk = (ld.segs g).chunk := by
    induction sects with
    | nil => exact fun _ _ => rfl
    | cons s sects ih =>
      exact fun i ld => (ih (i + 1) (sCount segOf ld i s)).trans (sCount_chunk segOf ld i s g)
  exact hcount 0 segmentInit

/-- The chunks of the segments are what the second pass over the sections relies on. -/
theorem segment_memory {layout : SegmentLayout w}
    {sects : List (Asection w)} {h : Heap} {out : Bool × (Nat → CexpSegment w) × Heap}
    (hout : SegsAlloced (List.range layout.nsegs) (countAll layout.segOf sects).segs h out)
    (hok : out.1 = true) :
    SegmentMemory (countedSize layout.segOf sects) fun g => (out.2.1 g).chunk := by
  have hin : ∀ g, countedSize layout.segOf sects g ≠ 0 → g ∈ List.range layout.nsegs := by
    intro g hg
    by_contra hno
    rw [List.mem_range] at hno
    refine hg (countedSize_unused fun s _ heq => hno ?_)
    rw [← heq]
    exact layout.inside s
  refine ⟨?_, ?_, ?_⟩
  · intro g hg
    exact (hout.done hok g (hin g hg) hg).1
  · intro g hg
    exact (hout.done hok g (hin g hg) hg).2
  · intro g k hne hg hk
    have hpairwise : (heldChunks out.2.1 (List.range layout.nsegs)).Pairwise Chunk.Apart := by
      have hperm := (hout.held.pairwise_iff fun hcd => Std.Symm.symm _ _ hcd).mp out.2.2.apart
      exact (List.pairwise_append.mp hperm).1
    unfold heldChunks at hpairwise
    rw [List.pairwise_filterMap] at hpairwise
    have hsymm : Std.Symm fun i j => ∀ c, (out.2.1 i).held = some c →
        ∀ d, (out.2.1 j).held = some d → c.Apart d :=
      ⟨fun i j hij c hc d hd => Std.Symm.symm _ _ (hij d hd c hc)⟩
    have hheld : ∀ i, countedSize layout.segOf sects i ≠ 0 → (out.2.1 i).held =
        some ⟨(out.2.1 i).chunk.toNat, (countedSize layout.segOf sects i).toNat⟩ := by
      intro i hi
      unfold CexpSegment.held
      rw [if_neg (hout.done hok i (hin i hi) hi).1, hout.size i]
      rfl
    exact hpairwise.forall (hin g hg) (hin k hk) hne _ (hheld g hg) _ (hheld k hk)

/-! ## Setting memory -/

/-- `memset` of a chunk -/
def memset (c : Chunk) (v : BitVec 8) (mem : ByteMem) : ByteMem := fun a =>
  if c.addr ≤ a ∧ a < c.addr + c.size then v else mem a

/-- `memset` of each segment that has a chunk -/
def memsetSegs (segs : Nat → CexpSegment w) (nsegs : Nat) (v : BitVec 8) (mem : ByteMem) :
    ByteMem :=
  (heldChunks segs (List.range nsegs)).foldl (fun mem c => memset c v mem) mem

/-- The memory of the segments. -/
def segPlaces (segs : Nat → CexpSegment w) (nsegs : Nat) : Set Nat :=
  {a | ∃ c ∈ heldChunks segs (List.range nsegs), a ∈ c.places}

theorem memsetSegs_outside (segs : Nat → CexpSegment w) (nsegs : Nat) (v : BitVec 8)
    (mem : ByteMem) : Set.EqOn (memsetSegs segs nsegs v mem) mem (segPlaces segs nsegs)ᶜ := by
  intro a ha
  have hout : ∀ c ∈ heldChunks segs (List.range nsegs), a ∉ c.places := fun c hc hin =>
    ha ⟨c, hc, hin⟩
  unfold memsetSegs
  generalize heldChunks segs (List.range nsegs) = cs at hout
  induction cs generalizing mem with
  | nil => rfl
  | cons c cs ih =>
    rw [List.forall_mem_cons] at hout
    rw [List.foldl_cons, ih _ hout.2]
    exact if_neg hout.1

end Cexp
