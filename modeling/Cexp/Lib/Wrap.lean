import Cexp.Lib.Layout

/-!
# Layouts whose pointer wraps

A pointer that moves over slots as a word does: modulo `M`. A slot moves it by a step that need
not be its size (`Slot.Cut`: the size cut to fewer bits and extended again). If such a layout
ends behind all of its slots and no two of them meet, then no step is less than a size and the
pointer never wraps (`wrap_exact`).

The idea is that a pointer that falls back behind an occupied range cannot get over it again
without a slot that meets it, and all alignments go down.
-/

namespace CLib

/-- A slot of `size` bytes that moves the pointer by `step`. -/
structure Slot where
  power : Nat
  size : Nat
  step : Nat

section

variable {M B : Nat}

def Slot.start (M : Nat) (s : Slot) (p : Nat) : Nat := alignUp (2 ^ s.power) p % M

def Slot.stop (M : Nat) (s : Slot) (p : Nat) : Nat := (s.start M p + s.step) % M

/-- The slots with their starts. -/
def wrapPlace (M p : Nat) : List Slot → List (Slot × Nat)
  | [] => []
  | s :: ss => (s, s.start M p) :: wrapPlace M (s.stop M p) ss

/-- The pointer at the end. -/
def wrapEnd (M p : Nat) : List Slot → Nat
  | [] => p
  | s :: ss => wrapEnd M (s.stop M p) ss

/-- A placed slot does not meet the range from `x` to `y`. -/
def Free (x y : Nat) (q : Slot × Nat) : Prop := q.1.size = 0 ∨ q.2 + q.1.size ≤ x ∨ y ≤ q.2

/-- Two placed slots do not meet. -/
def Apart (q r : Slot × Nat) : Prop := q.1.size = 0 ∨ Free q.2 (q.2 + q.1.size) r

/-- The step of a slot is its size, cut and extended again: `B` is the number that the lowest
bit that changes stands for. -/
structure Slot.Cut (M B : Nat) (s : Slot) : Prop where
  zero : s.size = 0 → s.step = 0
  less : s.step < s.size → s.step + B ≤ s.size
  more : s.size < s.step → M ≤ s.step + B ∧ B ≤ s.size
  power : 2 ^ s.power ≤ B
  dvd : 2 ^ s.power ∣ M

theorem Slot.Cut.exact {s : Slot} (h : s.Cut M B) (hlt : s.size < B) : s.step = s.size := by
  by_contra hne
  rcases Nat.lt_or_gt_of_ne hne with hless | hmore
  · have := h.less hless
    omega
  · have := (h.more hmore).2
    omega

theorem wrapEnd_lt {p : Nat} (hp : p < M) (ss : List Slot) : wrapEnd M p ss < M := by
  induction ss generalizing p with
  | nil => exact hp
  | cons s ss ih => exact ih (Nat.mod_lt _ (by omega))

/-- The starts are aligned. -/
theorem wrapPlace_dvd {p : Nat} {ss : List Slot} (hdvd : ∀ s ∈ ss, 2 ^ s.power ∣ M) :
    ∀ q ∈ wrapPlace M p ss, 2 ^ q.1.power ∣ q.2 := by
  induction ss generalizing p with
  | nil => exact List.forall_mem_nil _
  | cons s ss ih =>
    unfold wrapPlace
    rw [List.forall_mem_cons] at hdvd ⊢
    exact ⟨(Nat.dvd_mod_iff hdvd.1).mpr (dvd_alignUp _ p), ih hdvd.2⟩

theorem alignUp_alignUp {a b : Nat} (h : b ≤ a) (x : Nat) :
    alignUp (2 ^ b) (alignUp (2 ^ a) x) = alignUp (2 ^ a) x :=
  alignUp_of_dvd (Nat.two_pow_pos b) ((Nat.pow_dvd_pow 2 h).trans (dvd_alignUp _ x))

/-- A pointer inside an occupied range does not get out of it. -/
theorem wrapEnd_stuck {x y p : Nat} {ss : List Slot} (hx : x ≤ p) (hy : p < y) (hM : y ≤ M)
    (hup : ∀ s ∈ ss, alignUp (2 ^ s.power) p < y)
    (hdesc : ss.Pairwise fun s t => t.power ≤ s.power) (hcut : ∀ s ∈ ss, s.Cut M B)
    (hfree : ∀ q ∈ wrapPlace M p ss, Free x y q) : wrapEnd M p ss < y := by
  induction ss generalizing p with
  | nil => exact hy
  | cons s ss ih =>
    rw [List.pairwise_cons] at hdesc
    have hs := hup s List.mem_cons_self
    have hge := le_alignUp (Nat.two_pow_pos s.power) p
    have hstart : s.start M p = alignUp (2 ^ s.power) p := Nat.mod_eq_of_lt (by omega)
    have hempty : s.size = 0 := by
      rcases hfree _ List.mem_cons_self with h | h | h
      · exact h
      · dsimp only at h
        omega
      · dsimp only at h
        omega
    have hstop : s.stop M p = alignUp (2 ^ s.power) p := by
      rw [Slot.stop, hstart, (hcut s List.mem_cons_self).zero hempty]
      exact Nat.mod_eq_of_lt (by omega)
    unfold wrapEnd
    apply ih
    · omega
    · omega
    · intro t ht
      rw [hstop, alignUp_alignUp (hdesc.1 t ht)]
      exact hs
    · exact hdesc.2
    · exact fun t ht => hcut t (List.mem_cons_of_mem _ ht)
    · exact fun q hq => hfree q (List.mem_cons_of_mem _ hq)

/-- A pointer that falls back by no more than `B` behind an occupied range that starts at `n`
does not get over `n`, if there is another one in between. -/
theorem wrapEnd_below {n y u v p : Nat} {ss : List Slot} (hp : p ≤ n) (hB : n ≤ p + B)
    (hn : n < y) (hM : n < M) (hu : u < v) (hv : v ≤ n) (hnear : n < v + B)
    (hdvd : ∀ s ∈ ss, 2 ^ s.power ∣ n) (hcut : ∀ s ∈ ss, s.Cut M B)
    (hfree : ∀ q ∈ wrapPlace M p ss, Free n y q)
    (hfree' : ∀ q ∈ wrapPlace M p ss, Free u v q) : wrapEnd M p ss ≤ n := by
  induction ss generalizing p with
  | nil => exact hp
  | cons s ss ih =>
    have hge := le_alignUp (Nat.two_pow_pos s.power) p
    have hle := alignUp_le_of_dvd (hdvd s List.mem_cons_self) hp
    have hstart : s.start M p = alignUp (2 ^ s.power) p := Nat.mod_eq_of_lt (by omega)
    have hs := hcut s List.mem_cons_self
    have hhead := hfree _ List.mem_cons_self
    have hhead' := hfree' _ List.mem_cons_self
    unfold Free at hhead hhead'
    dsimp only at hhead hhead'
    have hstep : s.step = s.size := by
      rcases Nat.eq_zero_or_pos s.size with hzero | hpos
      · rw [hs.zero hzero, hzero]
      · apply hs.exact
        omega
    have hstop : s.stop M p = alignUp (2 ^ s.power) p + s.size := by
      rw [Slot.stop, hstart, hstep]
      exact Nat.mod_eq_of_lt (by omega)
    unfold wrapEnd
    apply ih
    · omega
    · omega
    · exact fun t ht => hdvd t (List.mem_cons_of_mem _ ht)
    · exact fun t ht => hcut t (List.mem_cons_of_mem _ ht)
    · exact fun q hq => hfree q (List.mem_cons_of_mem _ hq)
    · exact fun q hq => hfree' q (List.mem_cons_of_mem _ hq)

/-! ## Layouts that end behind their slots -/

/-- The block of a slot in a layout that does not wrap. -/
def Slot.block (s : Slot) : Option (Block Unit) := some ⟨(), s.power, s.step⟩

/-- The pointer at the end of a layout that does not wrap. -/
def exactEnd (p : Nat) (ss : List Slot) : Nat := (placeAll (fun _ => p) (ss.map Slot.block)).2 ()

theorem Block.advance_unit (b : Block Unit) (p : Nat) :
    b.advance (fun _ => p) = fun _ => alignUp (2 ^ b.power) p + b.extent := by
  funext u
  exact b.advance_region _

theorem exactEnd_cons (p : Nat) (s : Slot) (ss : List Slot) :
    exactEnd p (s :: ss) = exactEnd (alignUp (2 ^ s.power) p + s.step) ss := by
  unfold exactEnd
  rw [← Block.advance_unit ⟨(), s.power, s.step⟩]
  rfl

/-- A layout that ends behind its slots that are not empty, and whose slots do not meet. -/
structure EndsBehind (M p : Nat) (ss : List Slot) : Prop where
  inside : ∀ q ∈ wrapPlace M p ss, q.1.size ≠ 0 → q.2 + q.1.size ≤ wrapEnd M p ss
  apart : (wrapPlace M p ss).Pairwise Apart

/-- What has been placed in front of the pointer: nothing that is not empty; or a range that
starts at 0, and one that the pointer has not left by more than `B`, unless the pointer is near
the end of the words. -/
def History (M B p : Nat) (ss : List Slot) : Prop :=
  p = 0 ∨ (∃ y, 0 < y ∧ y ≤ wrapEnd M p ss ∧ ∀ q ∈ wrapPlace M p ss, Free 0 y q) ∧
    (M ≤ p + B ∨ ∃ x y, x < y ∧ y ≤ p ∧ (∀ s ∈ ss, alignUp (2 ^ s.power) p < y + B) ∧
      ∀ q ∈ wrapPlace M p ss, Free x y q)

section

variable {p : Nat} {s : Slot} {ss : List Slot}

theorem EndsBehind.tail (h : EndsBehind M p (s :: ss)) : EndsBehind M (s.stop M p) ss :=
  ⟨fun q hq => h.inside q (List.mem_cons_of_mem _ hq), (List.pairwise_cons.mp h.apart).2⟩

theorem EndsBehind.free_head (h : EndsBehind M p (s :: ss)) (hne : s.size ≠ 0) :
    ∀ q ∈ wrapPlace M (s.stop M p) ss, Free (s.start M p) (s.start M p + s.size) q := by
  intro q hq
  rcases (List.pairwise_cons.mp h.apart).1 q hq with hempty | hfree
  · exact absurd hempty hne
  · exact hfree

/-- The start of a slot does not wrap. -/
theorem EndsBehind.start_eq (hp : p < M) (hcut : ∀ t ∈ s :: ss, t.Cut M B)
    (hdesc : (s :: ss).Pairwise fun s t => t.power ≤ s.power) (hhist : History M B p (s :: ss)) :
    alignUp (2 ^ s.power) p < M := by
  by_contra hwrap
  have hs := hcut s List.mem_cons_self
  have hle := alignUp_le_of_dvd hs.dvd hp.le
  have heq : alignUp (2 ^ s.power) p = M := by omega
  have hzero : ∀ t : Slot, alignUp (2 ^ t.power) 0 = 0 := fun t =>
    alignUp_of_dvd (Nat.two_pow_pos _) (Nat.dvd_zero _)
  have hstart : s.start M p = s.start M 0 := by
    rw [Slot.start, Slot.start, heq, hzero, Nat.mod_self, Nat.zero_mod]
  have hstop : s.stop M p = s.stop M 0 := by rw [Slot.stop, Slot.stop, hstart]
  have hplace : wrapPlace M p (s :: ss) = wrapPlace M 0 (s :: ss) := by
    rw [wrapPlace, wrapPlace, hstart, hstop]
  have hend : wrapEnd M p (s :: ss) = wrapEnd M 0 (s :: ss) := by rw [wrapEnd, wrapEnd, hstop]
  rcases hhist with rfl | ⟨⟨y, hy, hyend, hfree⟩, _⟩
  · rw [hzero] at heq
    omega
  · rw [hplace] at hfree
    rw [hend] at hyend
    have hlt := wrapEnd_lt (show 0 < M by omega) (s :: ss)
    have hstuck := wrapEnd_stuck le_rfl hy (by omega)
      (fun t _ => by rw [hzero]; exact hy) hdesc hcut hfree
    omega

/-- The step of a slot is not less than its size. -/
theorem EndsBehind.size_le (h : EndsBehind M p (s :: ss)) (hp : p < M)
    (hcut : ∀ t ∈ s :: ss, t.Cut M B)
    (hdesc : (s :: ss).Pairwise fun s t => t.power ≤ s.power)
    (hstart : alignUp (2 ^ s.power) p < M) : s.size ≤ s.step := by
  by_contra hless
  have hs := hcut s List.mem_cons_self
  have hshort := hs.less (by omega)
  have heq : s.start M p = alignUp (2 ^ s.power) p := Nat.mod_eq_of_lt hstart
  have hinside : s.start M p + s.size ≤ wrapEnd M p (s :: ss) :=
    h.inside (s, s.start M p) List.mem_cons_self (show s.size ≠ 0 by omega)
  have hlt := wrapEnd_lt hp (s :: ss)
  have hfree := h.free_head (by omega)
  have hstop : s.stop M p = s.start M p + s.step := Nat.mod_eq_of_lt (by omega)
  have hstuck : wrapEnd M (s.stop M p) ss < s.start M p + s.size := by
    apply wrapEnd_stuck (x := s.start M p)
    · omega
    · omega
    · omega
    · intro t ht
      have hpow := (hcut t (List.mem_cons_of_mem _ ht)).power
      have hup := alignUp_le (2 ^ t.power) (s.stop M p)
      have hpos := Nat.two_pow_pos t.power
      omega
    · exact (List.pairwise_cons.mp hdesc).2
    · exact fun t ht => hcut t (List.mem_cons_of_mem _ ht)
    · exact hfree
  have hcons : wrapEnd M p (s :: ss) = wrapEnd M (s.stop M p) ss := rfl
  omega

/-- The pointer does not wrap behind a slot. -/
theorem EndsBehind.stop_lt (h : EndsBehind M p (s :: ss)) (hp : p < M)
    (hcut : ∀ t ∈ s :: ss, t.Cut M B)
    (hdesc : (s :: ss).Pairwise fun s t => t.power ≤ s.power) (hhist : History M B p (s :: ss))
    (hstart : alignUp (2 ^ s.power) p < M) (hstep : s.step < M) :
    alignUp (2 ^ s.power) p + s.step < M := by
  by_contra hwrap
  have hs := hcut s List.mem_cons_self
  have heq : s.start M p = alignUp (2 ^ s.power) p := Nat.mod_eq_of_lt hstart
  have hge := le_alignUp (Nat.two_pow_pos s.power) p
  have hpos := Nat.two_pow_pos s.power
  have hpower := hs.power
  have hlt := wrapEnd_lt hp (s :: ss)
  have hne : s.size ≠ 0 := by
    intro hempty
    have := hs.zero hempty
    omega
  have hinside : s.start M p + s.size ≤ wrapEnd M p (s :: ss) :=
    h.inside (s, s.start M p) List.mem_cons_self hne
  obtain ⟨hmore, hB⟩ := hs.more (by omega)
  have hback : s.stop M p = alignUp (2 ^ s.power) p + s.step - M := by
    rw [Slot.stop, heq, Nat.mod_eq_sub_mod (by omega)]
    exact Nat.mod_eq_of_lt (by omega)
  rcases hhist with rfl | ⟨_, hlast | ⟨x, y, hxy, hyp, hnear, hfree⟩⟩
  · have hzero : alignUp (2 ^ s.power) 0 = 0 := alignUp_of_dvd hpos (Nat.dvd_zero _)
    omega
  · omega
  · have hbelow : wrapEnd M (s.stop M p) ss ≤ s.start M p := by
      apply wrapEnd_below (B := B) (y := s.start M p + s.size) (u := x) (v := y)
      · omega
      · omega
      · omega
      · omega
      · exact hxy
      · omega
      · have := hnear s List.mem_cons_self
        omega
      · intro t ht
        rw [heq]
        have htpow := (List.pairwise_cons.mp hdesc).1 t ht
        exact (Nat.pow_dvd_pow 2 htpow).trans (dvd_alignUp _ p)
      · exact fun t ht => hcut t (List.mem_cons_of_mem _ ht)
      · exact h.free_head hne
      · exact fun q hq => hfree q (List.mem_cons_of_mem _ hq)
    have hcons : wrapEnd M p (s :: ss) = wrapEnd M (s.stop M p) ss := rfl
    omega

/-- The range that a slot has just taken, or the end of the words. -/
theorem History.behind (h : EndsBehind M p (s :: ss)) (hcut : ∀ t ∈ s :: ss, t.Cut M B)
    (hsize : s.size ≤ s.step) (hne : s.size ≠ 0)
    (hstop : s.stop M p = s.start M p + s.step) :
    M ≤ s.stop M p + B ∨ ∃ x y, x < y ∧ y ≤ s.stop M p ∧
      (∀ t ∈ ss, alignUp (2 ^ t.power) (s.stop M p) < y + B) ∧
      ∀ q ∈ wrapPlace M (s.stop M p) ss, Free x y q := by
  rcases Nat.lt_or_eq_of_le hsize with hmore | heq
  · have hs := (hcut s List.mem_cons_self).more hmore
    exact .inl (by omega)
  · refine .inr ⟨s.start M p, s.start M p + s.size, by omega, by omega, ?_, h.free_head hne⟩
    intro t ht
    have hpow := (hcut t (List.mem_cons_of_mem _ ht)).power
    have hup := alignUp_le (2 ^ t.power) (s.stop M p)
    have hpos := Nat.two_pow_pos t.power
    omega

theorem History.tail (hhist : History M B p (s :: ss)) (h : EndsBehind M p (s :: ss))
    (hcut : ∀ t ∈ s :: ss, t.Cut M B)
    (hdesc : (s :: ss).Pairwise fun s t => t.power ≤ s.power)
    (hsize : s.size ≤ s.step) (hstop : alignUp (2 ^ s.power) p + s.step < M) :
    History M B (s.stop M p) ss := by
  have hs := hcut s List.mem_cons_self
  have hge := le_alignUp (Nat.two_pow_pos s.power) p
  have hstart : s.start M p = alignUp (2 ^ s.power) p := Nat.mod_eq_of_lt (by omega)
  have hback : s.stop M p = s.start M p + s.step := by
    rw [Slot.stop, hstart]
    exact Nat.mod_eq_of_lt hstop
  rcases hhist with rfl | ⟨⟨y, hy, hyend, hfree⟩, hlast⟩
  · have hzero : alignUp (2 ^ s.power) 0 = 0 :=
      alignUp_of_dvd (Nat.two_pow_pos _) (Nat.dvd_zero _)
    by_cases hne : s.size = 0
    · left
      rw [hback, hstart, hzero, hs.zero hne]
    · refine .inr ⟨⟨s.size, by omega, ?_, ?_⟩, History.behind h hcut hsize hne hback⟩
      · have hinside : s.start M 0 + s.size ≤ wrapEnd M 0 (s :: ss) :=
          h.inside (s, s.start M 0) List.mem_cons_self hne
        rw [hstart, hzero, Nat.zero_add] at hinside
        exact hinside
      · have hhead := h.free_head hne
        rw [hstart, hzero, Nat.zero_add] at hhead
        exact hhead
  · refine .inr ⟨⟨y, hy, hyend, fun q hq => hfree q (List.mem_cons_of_mem _ hq)⟩, ?_⟩
    by_cases hne : s.size = 0
    · have hstep := hs.zero hne
      rcases hlast with hnear | ⟨x', y', hxy, hyp, hnear, hfree'⟩
      · exact .inl (by omega)
      · refine .inr ⟨x', y', hxy, by omega, ?_, fun q hq => hfree' q (List.mem_cons_of_mem _ hq)⟩
        intro t ht
        have htpow := (List.pairwise_cons.mp hdesc).1 t ht
        rw [hback, hstart, hstep, Nat.add_zero, alignUp_alignUp htpow]
        exact hnear s List.mem_cons_self
    · exact History.behind h hcut hsize hne hback

end

/-- The slots of an exact layout follow each other. -/
theorem exact_placed {p : Nat} {ss : List Slot} (hsize : ∀ s ∈ ss, s.size ≤ s.step)
    (hend : exactEnd p ss < M) :
    wrapEnd M p ss = exactEnd p ss ∧
      (∀ q ∈ wrapPlace M p ss, p ≤ q.2 ∧ q.2 + q.1.size ≤ exactEnd p ss) ∧
      (wrapPlace M p ss).Pairwise fun q r => q.2 + q.1.size ≤ r.2 := by
  induction ss generalizing p with
  | nil => exact ⟨rfl, List.forall_mem_nil _, List.Pairwise.nil⟩
  | cons s ss ih =>
    rw [exactEnd_cons] at hend ⊢
    have hge := le_alignUp (Nat.two_pow_pos s.power) p
    have hmono := le_placeAll (ss.map Slot.block)
      (fun _ => alignUp (2 ^ s.power) p + s.step) ()
    have hmono' : alignUp (2 ^ s.power) p + s.step ≤
        exactEnd (alignUp (2 ^ s.power) p + s.step) ss := hmono
    have hstart : s.start M p = alignUp (2 ^ s.power) p := Nat.mod_eq_of_lt (by omega)
    have hstop : s.stop M p = alignUp (2 ^ s.power) p + s.step := by
      rw [Slot.stop, hstart]
      exact Nat.mod_eq_of_lt (by omega)
    have hhead := hsize s List.mem_cons_self
    obtain ⟨heq, hrange, hfollow⟩ := ih (fun t ht => hsize t (List.mem_cons_of_mem _ ht)) hend
    unfold wrapPlace wrapEnd
    rw [hstart, hstop]
    refine ⟨heq, ?_, ?_⟩
    · rw [List.forall_mem_cons]
      refine ⟨⟨hge, by dsimp only; omega⟩, ?_⟩
      intro q hq
      have := hrange q hq
      omega
    · rw [List.pairwise_cons]
      refine ⟨?_, hfollow⟩
      intro q hq
      have := hrange q hq
      dsimp only
      omega

/-- A layout that ends behind its slots is exact. -/
theorem wrap_exact {p : Nat} {ss : List Slot} (h : EndsBehind M p ss) (hp : p < M)
    (hcut : ∀ s ∈ ss, s.Cut M B) (hstep : ∀ s ∈ ss, s.step < M)
    (hdesc : ss.Pairwise fun s t => t.power ≤ s.power) (hhist : History M B p ss) :
    (∀ s ∈ ss, s.size ≤ s.step) ∧ exactEnd p ss < M := by
  induction ss generalizing p with
  | nil => exact ⟨List.forall_mem_nil _, hp⟩
  | cons s ss ih =>
    have hstart := EndsBehind.start_eq hp hcut hdesc hhist
    have hsize := h.size_le hp hcut hdesc hstart
    have hstop := h.stop_lt hp hcut hdesc hhist hstart (hstep s List.mem_cons_self)
    have heq : s.stop M p = alignUp (2 ^ s.power) p + s.step := by
      rw [Slot.stop, Slot.start, Nat.mod_eq_of_lt hstart, Nat.mod_eq_of_lt hstop]
    have htail := hhist.tail h hcut hdesc hsize hstop
    obtain ⟨hsizes, hend⟩ := ih h.tail (by omega)
      (fun t ht => hcut t (List.mem_cons_of_mem _ ht))
      (fun t ht => hstep t (List.mem_cons_of_mem _ ht)) (List.pairwise_cons.mp hdesc).2 htail
    rw [heq] at hend
    rw [exactEnd_cons]
    exact ⟨List.forall_mem_cons.mpr ⟨hsize, hsizes⟩, hend⟩

/-- The layouts from 0 that end behind their slots are those whose steps are no less than the
sizes and that stay below `M`. -/
theorem endsBehind_iff {ss : List Slot} (hM : 0 < M) (hcut : ∀ s ∈ ss, s.Cut M B)
    (hstep : ∀ s ∈ ss, s.step < M) (hdesc : ss.Pairwise fun s t => t.power ≤ s.power) :
    EndsBehind M 0 ss ↔ (∀ s ∈ ss, s.size ≤ s.step) ∧ exactEnd 0 ss < M := by
  constructor
  · intro h
    exact wrap_exact h hM hcut hstep hdesc (.inl rfl)
  · rintro ⟨hsize, hend⟩
    obtain ⟨heq, hrange, hfollow⟩ := exact_placed hsize hend
    refine ⟨?_, hfollow.imp ?_⟩
    · intro q hq _
      rw [heq]
      exact (hrange q hq).2
    · intro q r hqr
      exact .inr (.inr (.inr hqr))

end

end CLib
