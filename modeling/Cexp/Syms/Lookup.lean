import Cexp.Syms.Squeeze
import Mathlib.Data.List.TakeWhile

/-!
# Looking names up

A lookup of an unversioned name is to find a symbol of that name, in whatever version. It
is a binary search with the comparison that also sorted the table, but the key compares
equal to all versions of its name, and a name that goes on differently compares as if it
came behind all of them. In the table it comes before them if its next character sorts
before the separator: `foo1`, `foo2`, `foo@v` are in order and `foo` is not found.

`lookup_iff_lookable` says for which lists of symbols lookups are sound and complete,
whatever `qsort` does with inconsistent comparisons and wherever `bsearch` looks first.
-/

namespace Cexp

open CLib

/-! ## Names and their versions -/

/-- A name without its version. -/
def unversioned (n : List UInt8) : List UInt8 := n.takeWhile (· ≠ separator)

theorem separator_notMem_unversioned (n : List UInt8) : separator ∉ unversioned n := by
  intro h
  simpa using List.mem_takeWhile_imp h

theorem matches_unversioned (n : List UInt8) : Matches (unversioned n) n := by
  have hsplit := List.takeWhile_append_dropWhile (p := (· ≠ separator)) (l := n)
  unfold Matches unversioned
  cases hd : n.dropWhile (· ≠ separator) with
  | nil =>
    rw [hd, List.append_nil] at hsplit
    exact .inl hsplit.symm
  | cons c v =>
    have hc : c = separator := by
      have hhead := List.head?_dropWhile_not (· ≠ separator) n
      rw [hd] at hhead
      simpa using hhead
    rw [hd, hc] at hsplit
    exact .inr ⟨v, hsplit.symm⟩

theorem unversioned_of_matches {k n : List UInt8} (hk : separator ∉ k) (h : Matches k n) :
    unversioned n = k := by
  have hall : ∀ c ∈ k, (decide (c ≠ separator)) = true := by
    intro c hc
    simp only [decide_eq_true_eq]
    rintro rfl
    exact hk hc
  unfold unversioned
  rcases h with rfl | ⟨v, rfl⟩
  · exact List.takeWhile_eq_self_iff.mpr hall
  · rw [List.takeWhile_append_of_pos hall]
    simp

theorem matches_unique {k k' n : List UInt8} (hk : separator ∉ k) (hk' : separator ∉ k')
    (h : Matches k n) (h' : Matches k' n) : k = k' := by
  rw [← unversioned_of_matches hk h, unversioned_of_matches hk' h']

theorem Matches.trans {a b c : List UInt8} (hab : Matches a b) (hbc : Matches b c) :
    Matches a c := by
  rcases hab with rfl | ⟨v, rfl⟩
  · exact hbc
  · rcases hbc with rfl | ⟨w, rfl⟩
    · exact .inr ⟨v, rfl⟩
    · exact .inr ⟨v ++ separator :: w, by simp⟩

theorem separator_notMem_marker : separator ∉ marker.bytes := by decide

/-- The marker has no version. -/
theorem eq_marker_of_matches {k : List UInt8} (h : Matches k marker.bytes) : k = marker.bytes := by
  rcases h with h | ⟨v, h⟩
  · exact h.symm
  · have hmem : separator ∈ marker.bytes := by
      rw [h]
      simp
    exact absurd hmem separator_notMem_marker

/-! ## More on comparisons -/

/-- No two names compare greater than each other. -/
theorem namecomp_not_pos_pos {cs : CharSign} {a b : List UInt8} (h₁ : 0 < namecomp cs a b) :
    ¬ 0 < namecomp cs b a := by
  cases parting a b with
  | same => simp at h₁
  | longer p y t =>
    rw [namecomp_longer] at h₁
    split at h₁ <;> omega
  | shorter p x s =>
    rw [namecomp_longer]
    split <;> omega
  | differ p x y s t hxy =>
    rw [namecomp_differ cs p s t hxy] at h₁
    rw [namecomp_differ cs p t s (Ne.symm hxy)]
    omega

/-- What comes behind a name comes behind its versions. -/
theorem namecomp_neg_matches {cs : CharSign} {k m n : List UInt8} (h : namecomp cs k m < 0)
    (hn : Matches m n) : namecomp cs k n < 0 := by
  rcases hn with rfl | ⟨v, rfl⟩
  · exact h
  · cases parting k m with
    | same => simp at h
    | longer p y t =>
      rw [namecomp_longer] at h
      rw [List.append_assoc, List.cons_append, namecomp_longer]
      exact h
    | shorter p x s =>
      rw [namecomp_shorter] at h
      have hx : x ≠ separator := by
        rintro rfl
        simp at h
      rw [namecomp_differ cs _ s v hx, CharSign.val_separator]
      omega
    | differ p x y s t hxy =>
      rw [namecomp_differ cs p s t hxy] at h
      rw [List.append_assoc, List.cons_append, namecomp_differ cs p s _ hxy]
      exact h

/-- A name behind `m` is behind all that continues `m`, unless it continues `m` itself. -/
theorem namecomp_pos_longer {cs : CharSign} {x m : List UInt8} (e : List UInt8)
    (h : 0 < namecomp cs x m) : 0 < namecomp cs x (m ++ e) ∨ ∃ c s, x = m ++ c :: s := by
  cases parting x m with
  | same => simp at h
  | longer p y t =>
    rw [namecomp_longer] at h
    split at h <;> omega
  | shorter p c s => exact .inr ⟨c, s, rfl⟩
  | differ p c d s t hcd =>
    left
    rw [namecomp_differ cs p s t hcd] at h
    rw [List.append_assoc, List.cons_append, namecomp_differ cs p s _ hcd]
    exact h

/-! ## The law and its condition -/

/-- Lookups in `entries` find exactly what `input` holds. -/
def Finds (cs : CharSign) (input entries : List CexpSym) : Prop :=
  ∀ (p : Probe) (name : CStr), separator ∉ name.bytes →
    ((∃ s, bsearch p (fun s => namecomp cs name.bytes s.bytes) entries = some s) ↔
      ∃ s ∈ input, Matches name.bytes s.bytes) ∧
    ∀ s, bsearch p (fun s => namecomp cs name.bytes s.bytes) entries = some s →
      Matches name.bytes s.bytes

/-- Lookups of unversioned names in the table `t` that was made of `input`: there is a
result iff `input` holds a symbol of that name, and the result has that name. -/
def LookupOk (cs : CharSign) (input : List CexpSym) (t : CexpSymTbl) : Prop :=
  ∀ (p : Probe) (name : CStr), separator ∉ name.bytes →
    ((∃ s, cexpSymTblLookup cs p name t = some s) ↔ ∃ s ∈ input, Matches name.bytes s.bytes) ∧
    ∀ s, cexpSymTblLookup cs p name t = some s → Matches name.bytes s.bytes

theorem lookupOk_iff (cs : CharSign) (input : List CexpSym) (t : CexpSymTbl) :
    LookupOk cs input t ↔ Finds cs input t.entries := Iff.rfl

/-- No versioned name is continued, as another name, by a character that sorts before the
separator. -/
def NoEarly (cs : CharSign) (l : List CexpSym) : Prop :=
  ∀ n ∈ l, ∀ m ∈ l, ∀ b v c s, separator ∉ b → n.bytes = b ++ separator :: v →
    m.bytes = b ++ c :: s → c ≠ separator → 64 < cs.val c

/-- The greatest name occurs once, or it is a version of the marker's name, so that the
marker does no harm. -/
def GreatestOnce (cs : CharSign) (l : List CexpSym) : Prop :=
  ∀ g ∈ l, (∀ n ∈ l, cexpNamecomp cs n g ≤ 0) → 2 ≤ (l.map CexpSym.bytes).count g.bytes →
    ∃ v, g.bytes = marker.bytes ++ separator :: v

/-- All symbols are versions of one name, which every search finds at once: either no two
of them compare equal, or the name is that of the marker. -/
def Alike (cs : CharSign) (l : List CexpSym) : Prop :=
  ∃ b, separator ∉ b ∧ (∀ s ∈ l, Matches b s.bytes) ∧
    (l.Pairwise (fun x y => cexpNamecomp cs x y ≠ 0 ∧ cexpNamecomp cs y x ≠ 0) ∨
      b = marker.bytes ∧ ∀ s ∈ l, s.bytes ≠ marker.bytes)

/-- There is a symbol, and the names are those of a table in which every search finds its way. -/
def Lookable (cs : CharSign) (l : List CexpSym) : Prop :=
  l ≠ [] ∧ (Regular cs l ∧ NoEarly cs l ∧ GreatestOnce cs l ∨ Alike cs l)

/-- Unversioned names of which none continues another. -/
theorem lookable_of_names {cs : CharSign} {l : List CexpSym} {names : List (List UInt8)}
    (h : l.map CexpSym.bytes = names) (hne : names ≠ []) (hsep : ∀ n ∈ names, separator ∉ n)
    (hapart : ∀ n ∈ names, ∀ m ∈ names, n <+: m → n = m) (hnodup : names.Nodup) :
    Lookable cs l := by
  subst h
  have hbytes : ∀ s ∈ l, s.bytes ∈ l.map CexpSym.bytes := fun s hs => List.mem_map_of_mem hs
  refine ⟨fun hnil => hne (by rw [hnil, List.map_nil]), .inl ⟨?_, ?_, ?_⟩⟩
  · intro a ha b hb c s hbs
    have heq := hapart _ (hbytes a ha) _ (hbytes b hb) ⟨c :: s, hbs.symm⟩
    have hlength := congrArg List.length hbs
    rw [← heq, List.length_append, List.length_cons] at hlength
    omega
  · intro n hn m _ b v c s _ hnv
    have hmem : separator ∈ n.bytes := by rw [hnv]; simp
    exact absurd hmem (hsep _ (hbytes n hn))
  · intro g _ _ hcount
    have hle := List.nodup_iff_count_le_one.mp hnodup g.bytes
    omega

/-! ## The condition is enough -/

section Sufficient

variable {cs : CharSign}

theorem finds_of_guides {input entries : List CexpSym}
    (hguides : ∀ k : CStr, separator ∉ k.bytes →
      Guides (fun s => namecomp cs k.bytes s.bytes) entries)
    (hsound : ∀ e ∈ entries, ∀ k, Matches k e.bytes → separator ∉ k →
      ∃ s ∈ input, Matches k s.bytes)
    (hcomplete : ∀ s ∈ input, ∃ e ∈ entries, e.bytes = s.bytes) : Finds cs input entries := by
  intro p name hsep
  have hfound : ∀ s, bsearch p (fun s => namecomp cs name.bytes s.bytes) entries = some s →
      s ∈ entries ∧ Matches name.bytes s.bytes := by
    intro s hs
    obtain ⟨hmem, h0⟩ := bsearch_sound hs
    exact ⟨hmem, (namecomp_eq_zero_iff name.noNul).mp h0⟩
  refine ⟨⟨fun ⟨s, hs⟩ => ?_, fun ⟨s, hs, hm⟩ => ?_⟩, fun s hs => (hfound s hs).2⟩
  · obtain ⟨hmem, hm⟩ := hfound s hs
    exact hsound s hmem _ hm hsep
  · obtain ⟨e, he, heq⟩ := hcomplete s hs
    refine bsearch_complete (hguides name hsep) he ?_
    rw [heq]
    exact (namecomp_eq_zero_iff name.noNul).mpr hm

/-- In a sorted list of the given names the comparisons guide every search. -/
theorem guides_of_sorted {l es : List CexpSym} (hreg : Regular cs l) (hearly : NoEarly cs l)
    (hmem : ∀ e ∈ es, e ∈ l) (hs : es.Pairwise fun x y => cexpNamecomp cs x y ≤ 0) {k : CStr}
    (hk : separator ∉ k.bytes) : Guides (fun s => namecomp cs k.bytes s.bytes) es := by
  refine hs.imp_of_mem fun {x y} hx hy hxy => ⟨fun hneg h0 => ?_, fun h0 => ?_⟩
  · have hm := (namecomp_eq_zero_iff k.noNul).mp h0
    rcases namecomp_neg_of_matches hm hneg hxy with ⟨c, s, hxs, hc, hy'⟩ | ⟨c, s, hks, hc⟩
    · rcases hy' with ⟨hyk, hle⟩ | ⟨v, hyv, hle⟩
      · obtain ⟨-, hpos⟩ := hreg y (hmem y hy) x (hmem x hx) c s (by rw [hyk]; exact hxs)
        omega
      · have := hearly y (hmem y hy) x (hmem x hx) k.bytes v c s hk hyv hxs hc
        omega
    · have hcont : ∃ t, y.bytes = x.bytes ++ c :: t := by
        rcases hm with h | ⟨v, h⟩
        · exact ⟨s, by rw [h, hks]⟩
        · exact ⟨s ++ separator :: v, by rw [h, hks]; simp⟩
      obtain ⟨t, ht⟩ := hcont
      obtain ⟨-, hpos⟩ := hreg x (hmem x hx) y (hmem y hy) c t ht
      omega
  · by_contra hpos
    have hm := (namecomp_eq_zero_iff k.noNul).mp h0
    have : 0 < cexpNamecomp cs x y := namecomp_pos_of_matches hm (not_le.mp hpos)
    omega

/-- The marker behind the versions of its own name does not misguide a search. -/
theorem guides_append_marker {l init : List CexpSym} {y m : CexpSym} {v : List UInt8}
    (hreg : Regular cs l) (hearly : NoEarly cs l) (hmem : ∀ e ∈ init ++ [y], e ∈ l)
    (hs : (init ++ [y]).Pairwise fun x z => cexpNamecomp cs x z ≤ 0)
    (hy : y.bytes = marker.bytes ++ separator :: v) (hmark : m.bytes = marker.bytes) {k : CStr}
    (hk : separator ∉ k.bytes) :
    Guides (fun s => namecomp cs k.bytes s.bytes) ((init ++ [y]) ++ [m]) := by
  have hguides := guides_of_sorted hreg hearly hmem hs hk
  unfold Guides
  rw [List.pairwise_append]
  refine ⟨hguides, List.pairwise_singleton _ _, fun x hx z hz => ?_⟩
  rw [List.mem_singleton.mp hz]
  simp only [hmark]
  have hxy : x = y ∨ x ∈ init := by
    rcases List.mem_append.mp hx with h | h
    · exact .inr h
    · exact .inl (List.mem_singleton.mp h)
  refine ⟨fun hneg h0 => ?_, fun h0 => ?_⟩
  · -- a search for the marker's name finds `y` before it could turn away from the marker
    have hkm := eq_marker_of_matches ((namecomp_eq_zero_iff k.noNul).mp h0)
    have hy0 : namecomp cs k.bytes y.bytes = 0 := by
      rw [namecomp_eq_zero_iff k.noNul, hkm]
      exact .inr ⟨v, hy⟩
    rcases hxy with rfl | hinit
    · omega
    · rw [Guides, List.pairwise_append] at hguides
      exact (hguides.2.2 x hinit y (by simp)).1 hneg hy0
  · by_contra hpos
    have hxm := (namecomp_eq_zero_iff k.noNul).mp h0
    have hle : namecomp cs x.bytes y.bytes ≤ 0 := by
      rcases hxy with rfl | hinit
      · simp
      · exact (List.pairwise_append.mp hs).2.2 x hinit y (by simp)
    have hpos' := namecomp_pos_of_matches hxm (show 0 < namecomp cs k.bytes marker.bytes by omega)
    rcases namecomp_pos_longer (separator :: v) hpos' with h | ⟨c, s, hxs⟩
    · rw [← hy] at h
      omega
    · by_cases hc : c = separator
      · subst hc
        have hkm := matches_unique hk separator_notMem_marker hxm (.inr ⟨s, hxs⟩)
        rw [hkm] at hpos
        simp at hpos
      · have h64 := hearly y (hmem y (by simp)) x (hmem x hx) marker.bytes v c s
          separator_notMem_marker hy hxs hc
        rw [hxs, hy, namecomp_differ cs _ s v hc, CharSign.val_separator] at hle
        omega

/-- Names of a regular list are covered by those that are kept. -/
theorem exists_kept {l : List CexpSym} (hreg : Regular cs l) {a : CexpSym} {rest : List CexpSym}
    (hmem : ∀ e ∈ a :: rest, e ∈ l) {x : CexpSym} (hx : x ∈ a :: rest) :
    ∃ z ∈ a :: kept cs a rest, z.bytes = x.bytes := by
  obtain ⟨z, hz, hzx⟩ := kept_covers cs a rest x hx
  refine ⟨z, hz, ?_⟩
  rcases hzx with rfl | h0
  · rfl
  · have hz' : z ∈ a :: rest := ((kept_sublist cs a rest).cons_cons a).subset hz
    exact hreg.eq_of_zero (hmem z hz') (hmem x hx) h0

/-- What makes the marker an entry: a name that occurs twice and is the greatest. -/
theorem lastKept_repeated {l : List CexpSym} (hreg : Regular cs l) {a : CexpSym}
    {rest : List CexpSym} (hperm : (a :: rest).Perm l)
    (hs : (a :: rest).Pairwise fun x y => cexpNamecomp cs x y ≤ 0)
    (hend : endsSame cs a false rest = true) :
    lastKept cs a rest ∈ l ∧ (∀ n ∈ l, cexpNamecomp cs n (lastKept cs a rest) ≤ 0) ∧
      2 ≤ (l.map CexpSym.bytes).count (lastKept cs a rest).bytes := by
  have hmem : ∀ e ∈ a :: rest, e ∈ l := fun e he => hperm.mem_iff.mp he
  rcases List.eq_nil_or_concat rest with rfl | ⟨r, z, rfl⟩
  · cases hend
  · rw [List.concat_eq_append] at *
    rw [endsSame_append, decide_eq_true_eq] at hend
    rw [lastKept_append, if_pos hend]
    have hy : lastKept cs a r ∈ a :: r := lastKept_mem cs a r
    have hyl : lastKept cs a r ∈ a :: (r ++ [z]) := by
      rw [← List.cons_append]
      exact List.mem_append_left _ hy
    have hz : z ∈ a :: (r ++ [z]) := by simp
    have hbytes := hreg.eq_of_zero (hmem _ hyl) (hmem z hz) hend
    refine ⟨hmem _ hyl, fun n hn => ?_, ?_⟩
    · unfold cexpNamecomp
      rw [hbytes]
      have hn' := hperm.mem_iff.mpr hn
      rw [← List.cons_append] at hn' hs
      rcases List.mem_append.mp hn' with h | h
      · exact (List.pairwise_append.mp hs).2.2 n h z (by simp)
      · rw [List.mem_singleton.mp h, namecomp_self]
    · rw [← (hperm.map CexpSym.bytes).count_eq, ← List.cons_append, List.map_append,
        List.count_append, List.map_singleton, ← hbytes, List.count_singleton_self]
      have : 0 < ((a :: r).map CexpSym.bytes).count (lastKept cs a r).bytes :=
        List.count_pos_iff.mpr (List.mem_map_of_mem hy)
      omega

/-- Lists whose comparisons are consistent. -/
theorem finds_of_regular {l : List CexpSym} (hreg : Regular cs l) (hearly : NoEarly cs l)
    (honce : GreatestOnce cs l) {m a : CexpSym} {rest : List CexpSym} (hm : m.bytes = marker.bytes)
    (hperm : (a :: rest).Perm l)
    (hs : (a :: rest).Pairwise fun x y => cexpNamecomp cs x y ≤ 0) :
    ∃ u, squeezed cs m a false rest = some u ∧ Finds cs l (a :: u) := by
  have hmem : ∀ e ∈ a :: rest, e ∈ l := fun e he => hperm.mem_iff.mp he
  have hsub : (a :: kept cs a rest).Sublist (a :: rest) := (kept_sublist cs a rest).cons_cons a
  have hkept : ∀ e ∈ a :: kept cs a rest, e ∈ l := fun e he => hmem e (hsub.subset he)
  have hsorted := hs.sublist hsub
  have hcomplete : ∀ s ∈ l, ∃ e ∈ a :: kept cs a rest, e.bytes = s.bytes := fun s hs =>
    exists_kept hreg hmem (hperm.mem_iff.mpr hs)
  rw [squeezed_eq]
  split
  · rename_i hend
    obtain ⟨hyl, hgreatest, hcount⟩ := lastKept_repeated hreg hperm hs hend
    obtain ⟨v, hv⟩ := honce _ hyl hgreatest hcount
    have hne : cexpNamecomp cs (lastKept cs a rest) m ≠ 0 := by
      unfold cexpNamecomp
      rw [hv, hm, namecomp_shorter, CharSign.val_separator]
      decide
    rw [if_neg hne]
    refine ⟨_, rfl, finds_of_guides (fun k hk => ?_) (fun e he k hek hk => ?_) fun s hs => ?_⟩
    · obtain ⟨init, hinit⟩ := kept_split cs a rest
      rw [← List.cons_append, hinit]
      rw [hinit] at hkept hsorted
      exact guides_append_marker hreg hearly hkept hsorted hv hm hk
    · rw [← List.cons_append] at he
      rcases List.mem_append.mp he with he | he
      · exact ⟨e, hkept e he, hek⟩
      · -- who finds the marker has asked for its name
        rw [List.mem_singleton.mp he, hm] at hek
        rw [eq_marker_of_matches hek]
        exact ⟨_, hyl, .inr ⟨v, hv⟩⟩
    · obtain ⟨e, he, heq⟩ := hcomplete s hs
      exact ⟨e, by rw [← List.cons_append]; exact List.mem_append_left _ he, heq⟩
  · refine ⟨_, rfl, finds_of_guides (fun k hk => guides_of_sorted hreg hearly hkept hsorted hk)
      (fun e he k hek _ => ⟨e, hkept e he, hek⟩) hcomplete⟩

/-- If all entries are versions of one name, every search for it ends at once. -/
theorem finds_of_matches {l entries : List CexpSym} {b : List UInt8} (hb : separator ∉ b)
    (hl : ∀ s ∈ l, Matches b s.bytes) (he : ∀ e ∈ entries, Matches b e.bytes)
    (hne : entries ≠ []) (hlne : l ≠ []) : Finds cs l entries := by
  have hsound : ∀ p name s, separator ∉ CStr.bytes name →
      bsearch p (fun s => namecomp cs name.bytes s.bytes) entries = some s →
      s ∈ entries ∧ Matches name.bytes s.bytes ∧ name.bytes = b := by
    intro p name s hsep hs
    obtain ⟨hmem, h0⟩ := bsearch_sound hs
    have hm := (namecomp_eq_zero_iff name.noNul).mp h0
    exact ⟨hmem, hm, matches_unique hsep hb hm (he s hmem)⟩
  intro p name hsep
  refine ⟨⟨fun ⟨s, hs⟩ => ?_, fun ⟨s, hs, hm⟩ => ?_⟩, fun s hs => (hsound p name s hsep hs).2.1⟩
  · obtain ⟨-, -, hname⟩ := hsound p name s hsep hs
    obtain ⟨x, hx⟩ := List.exists_mem_of_ne_nil l hlne
    exact ⟨x, hx, by rw [hname]; exact hl x hx⟩
  · have hname := matches_unique hsep hb hm (hl s hs)
    have hzero : ∀ e ∈ entries, namecomp cs name.bytes e.bytes = 0 := fun e hmem =>
      (namecomp_eq_zero_iff name.noNul).mpr (by rw [hname]; exact he e hmem)
    obtain ⟨x, hx⟩ := List.exists_mem_of_ne_nil entries hne
    refine bsearch_complete (List.Pairwise.imp_of_mem (R := fun _ _ => True) ?_ ?_) hx (hzero x hx)
    · intro x y hx hy _
      simp [hzero x hx, hzero y hy]
    · exact List.pairwise_of_forall fun _ _ => trivial

theorem finds_of_alike {l : List CexpSym} (halike : Alike cs l) {m a : CexpSym}
    {rest : List CexpSym} (hm : m.bytes = marker.bytes) (hperm : (a :: rest).Perm l) :
    ∃ u, squeezed cs m a false rest = some u ∧ Finds cs l (a :: u) := by
  obtain ⟨b, hb, hl, hcase⟩ := halike
  have hmem : ∀ e ∈ a :: rest, e ∈ l := fun e he => hperm.mem_iff.mp he
  have hlne : l ≠ [] := by
    rintro rfl
    exact absurd hperm.length_eq (by simp)
  rcases hcase with hdistinct | ⟨rfl, hplain⟩
  · have hne : (a :: rest).Pairwise fun x y => cexpNamecomp cs x y ≠ 0 ∧ cexpNamecomp cs y x ≠ 0 :=
      hperm.symm.pairwise hdistinct fun h => ⟨h.2, h.1⟩
    refine ⟨rest, squeezed_of_distinct cs m (hne.imp fun h => h.1), ?_⟩
    exact finds_of_matches hb hl (fun e he => hl e (hmem e he)) (by simp) hlne
  · have hkept : ∀ e ∈ a :: kept cs a rest, Matches marker.bytes e.bytes := fun e he =>
      hl e (hmem e (((kept_sublist cs a rest).cons_cons a).subset he))
    rw [squeezed_eq]
    split
    · have hne : cexpNamecomp cs (lastKept cs a rest) m ≠ 0 := by
        intro h0
        have h := (namecomp_eq_zero_iff (lastKept cs a rest).noNul).mp h0
        rw [hm] at h
        exact hplain _ (hmem _ (lastKept_mem cs a rest)) (eq_marker_of_matches h)
      rw [if_neg hne]
      refine ⟨_, rfl, finds_of_matches hb hl (fun e he => ?_) (by simp) hlne⟩
      rw [← List.cons_append] at he
      rcases List.mem_append.mp he with he | he
      · exact hkept e he
      · rw [List.mem_singleton.mp he, hm]
        exact .inl rfl
    · exact ⟨_, rfl, finds_of_matches hb hl hkept (by simp) hlne⟩

end Sufficient

/-! ## The condition is needed -/

section Necessary

variable {cs : CharSign}

/-- The lookups are as they should be for every result of `qsort`. -/
def FindsAll (cs : CharSign) (l : List CexpSym) (m : CexpSym) : Prop :=
  ∀ a rest, Sorts (cexpNamecomp cs) l (a :: rest) →
    ∃ u, squeezed cs m a false rest = some u ∧ Finds cs l (a :: u)

/-- A version-free prefix of a name, as a key. -/
def keyOf (s : CexpSym) (b : List UInt8) (h : Matches b s.bytes) : CStr where
  bytes := b
  noNul := by
    have hnul := s.noNul
    rcases h with h | ⟨v, h⟩
    · rwa [h] at hnul
    · rw [h] at hnul
      exact fun h0 => hnul (List.mem_append_left _ h0)

/-- An entry that turns the search to the left, with nothing that matches before it. -/
theorem not_finds_of_left (l₁ : List CexpSym) {l l₂ : List CexpSym} {s e : CexpSym} {b : List UInt8}
    (hb : separator ∉ b) (hs : s ∈ l) (hm : Matches b s.bytes) (he : namecomp cs b e.bytes < 0)
    (h₁ : ∀ x ∈ l₁, ¬ Matches b x.bytes) : ¬ Finds cs l (l₁ ++ e :: l₂) := by
  intro hf
  obtain ⟨r, hr⟩ := ((hf (.at l₁.length) (keyOf s b hm) hb).1).mpr ⟨s, hs, hm⟩
  rw [bsearch_at_left l₂ he fun x hx h0 =>
    h₁ x hx ((namecomp_eq_zero_iff (keyOf s b hm).noNul).mp h0)] at hr
  cases hr

/-- A last entry that turns the search to the right. -/
theorem not_finds_of_last {l l₁ : List CexpSym} {s e : CexpSym} {b : List UInt8}
    (hb : separator ∉ b) (hs : s ∈ l) (hm : Matches b s.bytes) (he : 0 < namecomp cs b e.bytes) :
    ¬ Finds cs l (l₁ ++ [e]) := by
  intro hf
  obtain ⟨r, hr⟩ := ((hf (.at l₁.length) (keyOf s b hm) hb).1).mpr ⟨s, hs, hm⟩
  rw [bsearch_at_last l₁ he] at hr
  cases hr

/-- If the marker is an entry it is found. -/
theorem matches_marker_of_finds {l l₁ : List CexpSym} {m : CexpSym} (hm : m.bytes = marker.bytes)
    (hf : Finds cs l (l₁ ++ [m])) : ∃ n ∈ l, Matches marker.bytes n.bytes := by
  refine ((hf (.at l₁.length) marker separator_notMem_marker).1).mp ⟨m, ?_⟩
  exact bsearch_at_hit l₁ [] (by rw [hm, namecomp_self])

theorem noEarly_of_finds {l : List CexpSym} {m : CexpSym} (hreg : Regular cs l)
    (hall : FindsAll cs l m) : NoEarly cs l := by
  intro n hn x hx b v c s hb hnb hxb hc
  by_contra hle
  obtain ⟨t, ht⟩ := exists_sorts (cexpNamecomp cs) l
  have hsorted := ht.sorted ((consistent_iff_regular cs l).mpr hreg)
  cases t with
  | nil => exact absurd (ht.perm.mem_iff.mpr hn) (by simp)
  | cons a rest =>
    obtain ⟨u, hu, hf⟩ := hall a rest ht
    have hmem : ∀ e ∈ a :: rest, e ∈ l := fun e he => ht.perm.mem_iff.mp he
    have hsub : (a :: kept cs a rest).Sublist (a :: rest) := (kept_sublist cs a rest).cons_cons a
    obtain ⟨e, he, hex⟩ := exists_kept hreg hmem (ht.perm.mem_iff.mpr hx)
    obtain ⟨l₁, l₂, hsplit⟩ := List.append_of_mem he
    have hu' : ∃ l₃, a :: u = l₁ ++ e :: l₃ := by
      rw [squeezed_eq] at hu
      split at hu
      · split at hu
        · cases hu
        · cases hu
          exact ⟨l₂ ++ [m], by rw [← List.cons_append, hsplit]; simp⟩
      · cases hu
        exact ⟨l₂, hsplit⟩
    obtain ⟨l₃, hu'⟩ := hu'
    rw [hu'] at hf
    refine not_finds_of_left l₁ hb hn (.inr ⟨v, hnb⟩) ?_ (fun y hy hby => ?_) hf
    · rw [hex, hxb, namecomp_longer, if_neg hc]
      decide
    · -- `y` is the unversioned name, or sorts behind `e`
      have hyl : y ∈ a :: kept cs a rest := by
        rw [hsplit]
        exact List.mem_append_left _ hy
      rcases hby with hy' | ⟨w, hy'⟩
      · exact (hreg y (hmem y (hsub.subset hyl)) n hn separator v (by rw [hy', hnb])).1 rfl
      · have hpair := hsorted.sublist hsub
        rw [hsplit, List.pairwise_append] at hpair
        have hye := hpair.2.2 y hy e (by simp)
        unfold cexpNamecomp at hye
        rw [hex, hxb, hy', namecomp_differ cs b w s (Ne.symm hc), CharSign.val_separator] at hye
        have : cs.val c ≠ 64 := fun h => hc (CharSign.val_inj cs (by simpa using h))
        omega

/-- A name that is not before the greatest one is the greatest one. -/
theorem bytes_of_greatest {l : List CexpSym} (hreg : Regular cs l) {g : CexpSym} (hg : g ∈ l)
    (hgreatest : ∀ n ∈ l, cexpNamecomp cs n g ≤ 0) {x : CexpSym} (hx : x ∈ l)
    (hle : cexpNamecomp cs g x ≤ 0) : x.bytes = g.bytes := by
  have hle' := hgreatest x hx
  rcases hreg.compare hg hx with ⟨h, -⟩ | ⟨h, -⟩ | ⟨-, h⟩
  · exact h.symm
  · rcases hreg.compare hx hg with ⟨h', -⟩ | ⟨h', -⟩ | ⟨-, h'⟩
    · exact h'
    · exact absurd h (nameLt_asymm h')
    · omega
  · omega

/-- If the greatest name is among sorted symbols, the last one that is kept has it. -/
theorem lastKept_greatest {l : List CexpSym} (hreg : Regular cs l) {g : CexpSym} (hg : g ∈ l)
    (hgreatest : ∀ n ∈ l, cexpNamecomp cs n g ≤ 0) {a : CexpSym} {r : List CexpSym}
    (hmem : ∀ e ∈ a :: r, e ∈ l)
    (hsorted : (a :: r).Pairwise fun x y => cexpNamecomp cs x y ≤ 0)
    {x : CexpSym} (hx : x ∈ a :: r) (hxg : x.bytes = g.bytes) :
    (lastKept cs a r).bytes = g.bytes := by
  obtain ⟨w, hw, hwx⟩ := exists_kept hreg hmem hx
  have hsub : (a :: kept cs a r).Sublist (a :: r) := (kept_sublist cs a r).cons_cons a
  have hsorted' := hsorted.sublist hsub
  obtain ⟨init, hinit⟩ := kept_split cs a r
  rw [hinit] at hw hsorted'
  rcases List.mem_append.mp hw with h | h
  · have hle := (List.pairwise_append.mp hsorted').2.2 w h (lastKept cs a r) (by simp)
    refine bytes_of_greatest hreg hg hgreatest (hmem _ (lastKept_mem cs a r)) ?_
    unfold cexpNamecomp at hle ⊢
    rwa [hwx, hxg] at hle
  · rw [← List.mem_singleton.mp h, hwx, hxg]

/-- If the marker is the last entry, the greatest name is a version of its name. -/
theorem unversioned_greatest_of_finds {l l₁ : List CexpSym} {m : CexpSym}
    (hm : m.bytes = marker.bytes) (hreg : Regular cs l) (hearly : NoEarly cs l) {g : CexpSym}
    (hg : g ∈ l) (hgreatest : ∀ n ∈ l, cexpNamecomp cs n g ≤ 0) (hf : Finds cs l (l₁ ++ [m])) :
    unversioned g.bytes = marker.bytes := by
  have hk := separator_notMem_unversioned g.bytes
  have hkg := matches_unversioned g.bytes
  rcases Int.lt_trichotomy (namecomp cs (unversioned g.bytes) marker.bytes) 0 with
    hneg | h0 | hpos
  · exfalso
    obtain ⟨n, hn, hmn⟩ := matches_marker_of_finds hm hf
    have hneg' := namecomp_neg_matches hneg hmn
    rcases namecomp_neg_of_matches hkg hneg' (hgreatest n hn) with
      ⟨c, s, hns, hc, hgk⟩ | ⟨c, s, hks, hc⟩
    · rcases hgk with ⟨hgk, hle⟩ | ⟨v, hgv, hle⟩
      · obtain ⟨-, hpos⟩ := hreg g hg n hn c s (by rw [hgk]; exact hns)
        omega
      · have := hearly g hg n hn _ v c s hk hgv hns hc
        omega
    · have hcont : ∃ t, g.bytes = n.bytes ++ c :: t := by
        rcases hkg with h | ⟨v, h⟩
        · exact ⟨s, by rw [h, hks]⟩
        · exact ⟨s ++ separator :: v, by rw [h, hks]; simp⟩
      obtain ⟨t, ht'⟩ := hcont
      obtain ⟨-, hpos⟩ := hreg n hn g hg c t ht'
      omega
  · have hnul := (keyOf g _ hkg).noNul
    exact eq_marker_of_matches ((namecomp_eq_zero_iff hnul).mp h0)
  · exact absurd hf (not_finds_of_last hk hg hkg (by rw [hm]; exact hpos))

theorem greatestOnce_of_finds {l : List CexpSym} {m : CexpSym} (hm : m.bytes = marker.bytes)
    (hreg : Regular cs l) (hearly : NoEarly cs l) (hall : FindsAll cs l m) :
    GreatestOnce cs l := by
  intro g hg hgreatest hcount
  obtain ⟨t, ht⟩ := exists_sorts (cexpNamecomp cs) l
  have hsorted := ht.sorted ((consistent_iff_regular cs l).mpr hreg)
  have hmem : ∀ e ∈ t, e ∈ l := fun e he => ht.perm.mem_iff.mp he
  rcases List.eq_nil_or_concat t with rfl | ⟨t', z, rfl⟩
  · exact absurd (ht.perm.mem_iff.mpr hg) (by simp)
  · rw [List.concat_eq_append] at *
    have hz : z.bytes = g.bytes := by
      rcases List.mem_append.mp (ht.perm.mem_iff.mpr hg) with h | h
      · exact bytes_of_greatest hreg hg hgreatest (hmem z (by simp))
          ((List.pairwise_append.mp hsorted).2.2 g h z (by simp))
      · rw [List.mem_singleton.mp h]
    cases t' with
    | nil =>
      rw [← (ht.perm.map CexpSym.bytes).count_eq] at hcount
      simp only [List.nil_append, List.map_singleton] at hcount
      have := List.count_le_length (a := g.bytes) (l := [z.bytes])
      simp only [List.length_singleton] at this
      omega
    | cons a r =>
      have hy : (lastKept cs a r).bytes = g.bytes := by
        -- the other symbol of that name is among those before
        rw [← (ht.perm.map CexpSym.bytes).count_eq, List.map_append, List.count_append,
          List.map_singleton, hz, List.count_singleton_self] at hcount
        have hpos : 0 < ((a :: r).map CexpSym.bytes).count g.bytes := by omega
        obtain ⟨x, hx, hxg⟩ := List.mem_map.mp (List.count_pos_iff.mp hpos)
        exact lastKept_greatest hreg hg hgreatest
          (fun e he => hmem e (List.mem_append_left _ he)) (List.pairwise_append.mp hsorted).1 hx
          hxg
      have hend : cexpNamecomp cs (lastKept cs a r) z = 0 := by
        unfold cexpNamecomp
        rw [hy, hz, namecomp_self]
      obtain ⟨u, hu, hf⟩ := hall a (r ++ [z]) (by simpa using ht)
      rw [squeezed_eq, endsSame_append, lastKept_append] at hu
      simp only [hend, decide_true, if_true] at hu
      split at hu
      · cases hu
      · rename_i hne
        cases hu
        unfold cexpNamecomp at hne
        rw [hy, hm] at hne
        rw [← List.cons_append] at hf
        have hkg := matches_unversioned g.bytes
        rw [unversioned_greatest_of_finds hm hreg hearly hg hgreatest hf] at hkg
        rcases hkg with h | h
        · rw [h] at hne
          simp at hne
        · exact h

/-- Two symbols of different names: one search for the one turns away from it at the other. -/
theorem unversioned_eq_of_finds {l : List CexpSym} {m : CexpSym} (hnot : ¬ Regular cs l)
    (hall : FindsAll cs l m) {x y : CexpSym} (hx : x ∈ l) (hy : y ∈ l) :
    unversioned x.bytes = unversioned y.bytes := by
  by_contra hne
  have hfirst : ∀ e ∈ l, ∀ s ∈ l, ¬ namecomp cs (unversioned s.bytes) e.bytes < 0 := by
    intro e he s hs hneg
    have hsorts : Sorts (cexpNamecomp cs) l (e :: l.erase e) :=
      ⟨(List.perm_cons_erase he).symm, fun hc =>
        absurd ((consistent_iff_regular cs l).mp hc) hnot⟩
    obtain ⟨u, -, hf⟩ := hall e _ hsorts
    exact not_finds_of_left [] (separator_notMem_unversioned _) hs
      (matches_unversioned s.bytes) hneg (by simp) hf
  have hpos : ∀ e ∈ l, ∀ s ∈ l, unversioned s.bytes ≠ unversioned e.bytes →
      0 < namecomp cs s.bytes e.bytes := by
    intro e he s hs hse
    have hm := matches_unversioned s.bytes
    rcases Int.lt_trichotomy (namecomp cs (unversioned s.bytes) e.bytes) 0 with h | h | h
    · exact absurd h (hfirst e he s hs)
    · have h' := (namecomp_eq_zero_iff (keyOf s _ hm).noNul).mp h
      exact absurd (unversioned_of_matches (separator_notMem_unversioned _) h').symm hse
    · exact namecomp_pos_of_matches hm h
  exact namecomp_not_pos_pos (hpos y hy x hx hne) (hpos x hx y hy (Ne.symm hne))

/-- A list in which some two symbols are not related. -/
theorem exists_pair_of_not_pairwise {α : Type} {R : α → α → Prop} {l : List α}
    (h : ¬ l.Pairwise R) : ∃ x y r, l.Perm (x :: y :: r) ∧ ¬ R x y := by
  induction l with
  | nil => exact absurd List.Pairwise.nil h
  | cons a l ih =>
    by_cases ha : ∀ b ∈ l, R a b
    · obtain ⟨x, y, r, hperm, hxy⟩ := ih fun hl => h (List.pairwise_cons.mpr ⟨ha, hl⟩)
      refine ⟨x, y, a :: r, (hperm.cons a).trans ?_, hxy⟩
      exact (List.Perm.swap x a (y :: r)).trans ((List.Perm.swap y a r).cons x)
    · obtain ⟨b, hb, hab⟩ : ∃ b ∈ l, ¬ R a b := by
        by_contra hno
        exact ha fun b hb => by_contra fun hn => hno ⟨b, hb, hn⟩
      obtain ⟨l₁, l₂, rfl⟩ := List.append_of_mem hb
      exact ⟨a, b, l₁ ++ l₂, List.Perm.cons a List.perm_middle, hab⟩

/-- A list that ends in two entries of which the first matches the second ends in one that
is not kept. -/
theorem endsSame_of_zero {a p q : CexpSym} {rest r : List CexpSym} (hr : a :: rest = r ++ [p, q])
    (h0 : cexpNamecomp cs p q = 0) : endsSame cs a false rest = true := by
  obtain ⟨r', rfl, hp⟩ : ∃ r', rest = r' ++ [q] ∧ ∃ init, a :: r' = init ++ [p] := by
    cases r with
    | nil =>
      simp only [List.nil_append, List.cons.injEq] at hr
      obtain ⟨rfl, rfl⟩ := hr
      exact ⟨[], rfl, [], rfl⟩
    | cons c r =>
      simp only [List.cons_append, List.cons.injEq] at hr
      obtain ⟨rfl, rfl⟩ := hr
      exact ⟨r ++ [p], by simp, a :: r, rfl⟩
  rw [endsSame_append, decide_eq_true_eq]
  obtain ⟨init, hinit⟩ := hp
  cases init with
  | nil =>
    simp only [List.nil_append, List.cons.injEq] at hinit
    obtain ⟨rfl, rfl⟩ := hinit
    exact h0
  | cons c init =>
    simp only [List.cons_append, List.cons.injEq] at hinit
    obtain ⟨rfl, rfl⟩ := hinit
    rw [lastKept_append]
    split
    · rename_i hy
      have hym := (namecomp_eq_zero_iff (lastKept cs a init).noNul).mp hy
      have hpq := (namecomp_eq_zero_iff p.noNul).mp h0
      exact (namecomp_eq_zero_iff (lastKept cs a init).noNul).mpr (hym.trans hpq)
    · exact h0

/-- If the first entry matches all others, the inner loop runs to the marker. -/
theorem squeezed_of_all_zero {m a : CexpSym} {rest : List CexpSym}
    (h : ∀ x ∈ rest, cexpNamecomp cs a x = 0) (hm : cexpNamecomp cs a m = 0) :
    squeezed cs m a true rest = none := by
  induction rest with
  | nil => rw [squeezed, if_pos hm]
  | cons b rest ih =>
    rw [squeezed, if_pos (h b (by simp))]
    exact ih fun x hx => h x (List.mem_cons_of_mem _ hx)

theorem alike_of_finds {l : List CexpSym} {m : CexpSym} (hm : m.bytes = marker.bytes)
    (hnot : ¬ Regular cs l) (hall : FindsAll cs l m) : Alike cs l := by
  have hsorts : ∀ t, t.Perm l → Sorts (cexpNamecomp cs) l t := fun t ht =>
    ⟨ht, fun hc => absurd ((consistent_iff_regular cs l).mp hc) hnot⟩
  cases l with
  | nil => exact absurd (fun a ha => by cases ha) hnot
  | cons x₀ l₀ =>
    have hmatch : ∀ s ∈ x₀ :: l₀, Matches (unversioned x₀.bytes) s.bytes := by
      intro s hs
      rw [unversioned_eq_of_finds hnot hall (x := x₀) (by simp) hs]
      exact matches_unversioned _
    have hsep := separator_notMem_unversioned x₀.bytes
    refine ⟨_, hsep, hmatch, ?_⟩
    by_contra hneither
    obtain ⟨hpair, hmark⟩ := not_or.mp hneither
    obtain ⟨x, y, r, hperm, hxy⟩ := exists_pair_of_not_pairwise hpair
    -- some order of the list ends in two entries of which one matches the other
    obtain ⟨p, q, hpq, h0⟩ : ∃ p q, (r ++ [p, q]).Perm (x₀ :: l₀) ∧ cexpNamecomp cs p q = 0 := by
      have hend : ∀ p q, (p :: q :: r).Perm (r ++ [p, q]) := fun p q =>
        (List.perm_append_comm : ([p, q] ++ r).Perm (r ++ [p, q]))
      by_cases h : cexpNamecomp cs x y = 0
      · exact ⟨x, y, ((hperm.trans (hend x y)).symm), h⟩
      · refine ⟨y, x, ((hperm.trans ((List.Perm.swap y x r).trans (hend y x))).symm), ?_⟩
        by_contra h'
        exact hxy ⟨h, h'⟩
    by_cases hb : unversioned x₀.bytes = marker.bytes
    · -- the unversioned marker is among several symbols: the inner loop runs past the array
      obtain ⟨e, he, hem⟩ : ∃ e ∈ x₀ :: l₀, e.bytes = marker.bytes := by
        by_contra hno
        exact hmark ⟨hb, fun s hs heq => hno ⟨s, hs, heq⟩⟩
      obtain ⟨u, hu, -⟩ := hall e _ (hsorts _ (List.perm_cons_erase he).symm)
      have hzero : ∀ s ∈ (x₀ :: l₀).erase e, cexpNamecomp cs e s = 0 := by
        intro s hs
        refine (namecomp_eq_zero_iff e.noNul).mpr ?_
        rw [hem, ← hb]
        exact hmatch s (List.mem_of_mem_erase hs)
      have hm0 : cexpNamecomp cs e m = 0 := by
        unfold cexpNamecomp
        rw [hem, hm, namecomp_self]
      have hlen : 2 ≤ (x₀ :: l₀).length := by
        rw [← hpq.length_eq]
        simp
      cases hrest : (x₀ :: l₀).erase e with
      | nil =>
        have := List.length_erase_of_mem he
        rw [hrest] at this
        simp only [List.length_nil] at this
        omega
      | cons c rest =>
        rw [hrest] at hu hzero
        rw [squeezed, if_pos (hzero c (by simp)),
          squeezed_of_all_zero (fun z hz => hzero z (List.mem_cons_of_mem _ hz)) hm0] at hu
        cases hu
    · obtain ⟨a, rest, har⟩ : ∃ a rest, r ++ [p, q] = a :: rest :=
        List.exists_cons_of_ne_nil (by simp)
      obtain ⟨u, hu, hf⟩ := hall a rest (hsorts _ (by rw [← har]; exact hpq))
      rw [squeezed_eq, endsSame_of_zero har.symm h0, if_pos rfl] at hu
      split at hu
      · cases hu
      · cases hu
        rw [← List.cons_append] at hf
        rcases Int.lt_trichotomy (namecomp cs (unversioned x₀.bytes) marker.bytes) 0 with
          hneg | hz | hpos
        · obtain ⟨n, hn, hmn⟩ := matches_marker_of_finds hm hf
          exact hb (matches_unique hsep separator_notMem_marker (hmatch n hn) hmn)
        · have hnul := (keyOf x₀ _ (hmatch x₀ (by simp))).noNul
          exact hb (eq_marker_of_matches ((namecomp_eq_zero_iff hnul).mp hz))
        · exact not_finds_of_last hsep (by simp) (hmatch x₀ (by simp)) (by rw [hm]; exact hpos) hf

end Necessary

/-! ## Tables -/

/-- The lookups in a sorted table, in terms of what was squeezed. -/
theorem lookupOk_sorted_iff {cs : CharSign} {t : CexpSymTbl} {entries rest : List CexpSym}
    {last a : CexpSym} (ht : t.Filled entries last) {qsort : List CexpSym → List CexpSym}
    (hq : qsort entries = a :: rest) (hperm : (a :: rest).Perm entries) :
    (∃ t', cexpSortSymTbl cs qsort t = some t' ∧ LookupOk cs entries t') ↔
      ∃ u, squeezed cs { last with name := some marker } a false rest = some u ∧
        Finds cs entries (a :: u) := by
  rw [cexpSortSymTbl_eq cs ht hq hperm.length_eq]
  have hent : ∀ u : List CexpSym, (CexpSymTbl.mk (u.length + 1)
      (a :: u ++ rest.drop u.length ++ [last])).entries = a :: u := by
    intro u
    simp [CexpSymTbl.entries]
  constructor
  · rintro ⟨t', ht', hok⟩
    obtain ⟨u, hu, rfl⟩ := Option.map_eq_some_iff.mp ht'
    rw [lookupOk_iff, hent] at hok
    exact ⟨u, hu, hok⟩
  · rintro ⟨u, hu, hok⟩
    refine ⟨_, by rw [hu]; rfl, ?_⟩
    rw [lookupOk_iff, hent]
    exact hok

/-- The law and its condition for a table that has been filled. -/
theorem lookup_filled_iff {cs : CharSign} {t : CexpSymTbl} {l : List CexpSym} {rest : CexpSym}
    (ht : t.Filled l { rest with name := none }) (hne : l ≠ []) :
    (∀ qsort, Sorts (cexpNamecomp cs) l (qsort l) →
      ∃ t', cexpSortSymTbl cs qsort t = some t' ∧ LookupOk cs l t') ↔ Lookable cs l := by
  constructor
  · intro h
    have hall : FindsAll cs l { rest with name := some marker } := by
      intro a r hs
      have hq : (fun _ : List CexpSym => a :: r) l = a :: r := rfl
      exact (lookupOk_sorted_iff ht hq hs.perm).mp (h (fun _ => a :: r) hs)
    refine ⟨hne, ?_⟩
    by_cases hreg : Regular cs l
    · have hearly := noEarly_of_finds hreg hall
      exact .inl ⟨hreg, hearly, greatestOnce_of_finds rfl hreg hearly hall⟩
    · exact .inr (alike_of_finds rfl hreg hall)
  · rintro ⟨-, hl⟩ qsort hs
    rcases hq : qsort l with _ | ⟨a, r⟩
    · rw [hq] at hs
      exact absurd hs.perm.symm.eq_nil hne
    · rw [hq] at hs
      rw [lookupOk_sorted_iff ht hq hs.perm]
      rcases hl with ⟨hreg, hearly, honce⟩ | halike
      · exact finds_of_regular hreg hearly honce rfl hs.perm
          (hs.sorted ((consistent_iff_regular cs l).mpr hreg))
      · exact finds_of_alike halike rfl hs.perm

/-- Lookup by name is sound and complete in the tables that `cexpCreateSymTbl` makes of a
list of symbols, whatever `qsort` does where its result is left open and wherever `bsearch`
looks first, iff the list is lookable; a list without symbols is not. -/
theorem lookup_iff_lookable {Ext : Type} (cs : CharSign) (filter : Ext → Option CStr)
    (assign : Ext → CexpSym → CexpSym) (rest : CexpSym) (syms : List Ext) :
    (∀ qsort, Sorts (cexpNamecomp cs) (acceptedSyms filter assign syms)
        (qsort (acceptedSyms filter assign syms)) →
      ∃ t, cexpCreateSymTbl cs qsort filter assign rest syms = some t ∧
        LookupOk cs (acceptedSyms filter assign syms) t) ↔
    Lookable cs (acceptedSyms filter assign syms) := by
  unfold cexpCreateSymTbl
  cases hadd : cexpAddSymTbl filter assign rest syms with
  | none =>
    -- no symbol is accepted: there is no array for the element that ends the table
    have hnil := cexpAddSymTbl_eq_none_iff.mp hadd
    rw [hnil]
    refine ⟨fun h => ?_, fun hl => (hl.1 rfl).elim⟩
    obtain ⟨t, ht, -⟩ := h id ⟨List.Perm.refl _, fun _ => List.Pairwise.nil⟩
    cases ht
  | some t =>
    have ht := cexpAddSymTbl_filled hadd
    have hne : acceptedSyms filter assign syms ≠ [] := fun hnil =>
      Option.some_ne_none t (hadd.symm.trans (cexpAddSymTbl_eq_none_iff.mpr hnil))
    exact lookup_filled_iff ht hne

/-- The names `foo`, `foo1`, `foo2` and `foo@v`. -/
def nameFoo : CStr := ⟨[0x66, 0x6f, 0x6f], by decide⟩
def nameFoo1 : CStr := ⟨[0x66, 0x6f, 0x6f, 0x31], by decide⟩
def nameFoo2 : CStr := ⟨[0x66, 0x6f, 0x6f, 0x32], by decide⟩
def nameFooV : CStr := ⟨[0x66, 0x6f, 0x6f, 0x40, 0x76], by decide⟩

/-- In the table `foo1`, `foo2`, `foo@v` the usual binary search does not find `foo`. -/
theorem lookup_misses_version :
    ¬ ∀ (cs : CharSign) (names : List CStr) (qsort : List CexpSym → List CexpSym),
      Sorts (cexpNamecomp cs) (names.map newSym) (qsort (names.map newSym)) →
      ∃ t, cexpCreateSymTbl cs qsort some (fun _ s => s) zeroSym names = some t ∧
        ∀ name : CStr, separator ∉ name.bytes →
          ((∃ s, cexpSymTblLookup cs .half name t = some s) ↔
            ∃ s ∈ names.map newSym, Matches name.bytes s.bytes) := by
  intro hall
  obtain ⟨t, ht, hok⟩ := hall .unsigned [nameFoo1, nameFoo2, nameFooV] id
    ⟨List.Perm.refl _, fun _ => by decide⟩
  have hid : id ([nameFoo1, nameFoo2, nameFooV].map newSym) =
      [nameFoo1, nameFoo2, nameFooV].map newSym := rfl
  have hsort := cexpSortSymTbl_of_distinct .unsigned
    (tableOf_filled [nameFoo1, nameFoo2, nameFooV]) hid (List.Perm.refl _) (by decide)
  rw [cexpCreateSymTbl, cexpAddSymTbl_tableOf (List.cons_ne_nil _ _), Option.bind_some] at ht
  cases hsort.symm.trans ht
  obtain ⟨s, hs⟩ := (hok nameFoo (by decide)).mpr ⟨newSym nameFooV, by simp, .inr ⟨[0x76], rfl⟩⟩
  have hnone : cexpSymTblLookup .unsigned .half nameFoo
      ⟨3, [nameFoo1, nameFoo2, nameFooV].map newSym ++ [zeroSym]⟩ = none := by decide
  exact absurd (hnone.symm.trans hs) (by simp)

end Cexp
