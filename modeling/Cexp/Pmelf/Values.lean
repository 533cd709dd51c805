import Cexp.Pmelf.Halts

/-!
# The array of values

The array of a table is allocated once, for the unused first entry and `capacity` values:
`avail` is never counted down, so it does not grow when it is full. As long as it is not full,
the entries of `map` are places in the array, every tag has its own and every value is found
under its tag (`PassKeeps`). Nothing is stored behind the array exactly if no table gets more
than `capacity` values (`values_kept_iff`).
-/

namespace Cexp

open CLib

variable {eh : ElfHost}

/-! ## What the array holds -/

/-- The entries of `map` are places in the array, and no two tags share one. -/
structure ValuesDistinct (patbl : AttributeTbl) : Prop where
  inside : ∀ tag, patbl.mapped tag ≠ 0 → patbl.mapped tag < patbl.vals.length
  distinct : ∀ tag tag', patbl.mapped tag ≠ 0 → patbl.mapped tag = patbl.mapped tag' → tag = tag'

/-- A tag with an entry has a value. -/
theorem ArrayKept.exists_stored {patbl : AttributeTbl} {arr : List (Nat × Attribute)}
    (h : ArrayKept patbl arr) {tag : Nat} (hmap : patbl.mapped tag ≠ 0) :
    ∃ (i : Nat) (att : Attribute), arr[i]? = some (tag, att) := by
  by_contra hnone
  refine hmap (h.rest tag ?_)
  intro att hmem
  obtain ⟨i, hi⟩ := List.mem_iff_getElem?.mp hmem
  exact hnone ⟨i, att, hi⟩

theorem ArrayKept.distinct {patbl : AttributeTbl} {arr : List (Nat × Attribute)}
    (h : ArrayKept patbl arr) : ValuesDistinct patbl where
  inside := by
    intro tag hmap
    obtain ⟨i, att, hi⟩ := h.exists_stored hmap
    obtain ⟨-, hplace, hval⟩ := h.stored i tag att hi
    rw [hplace]
    exact (List.getElem?_eq_some_iff.mp hval).1
  distinct := by
    intro tag tag' hmap heq
    obtain ⟨i, att, hi⟩ := h.exists_stored hmap
    obtain ⟨j, att', hj⟩ := h.exists_stored (heq ▸ hmap)
    have hplace := (h.stored i tag att hi).2.1
    have hplace' := (h.stored j tag' att' hj).2.1
    have hij : i = j := by omega
    rw [hij, hj] at hi
    exact (Prod.mk.inj (Option.some.inj hi)).1.symm

/-- There are as many entries in `map` as values. -/
theorem ArrayKept.arrayTags_length {patbl : AttributeTbl} {arr : List (Nat × Attribute)}
    (h : ArrayKept patbl arr) : patbl.arrayTags.length = arr.length := by
  have hnodup : (arr.map Prod.fst).Nodup := by
    rw [List.nodup_iff_getElem?_ne_getElem?]
    intro i j hij hj heq
    rw [List.length_map] at hj
    obtain ⟨⟨tag, att⟩, hgi⟩ : ∃ el, arr[i]? = some el :=
      ⟨_, List.getElem?_eq_getElem (hij.trans hj)⟩
    obtain ⟨⟨tag', att'⟩, hgj⟩ : ∃ el, arr[j]? = some el := ⟨_, List.getElem?_eq_getElem hj⟩
    rw [List.getElem?_map, List.getElem?_map, hgi, hgj] at heq
    have htag : tag = tag' := Option.some.inj heq
    have hplace := (h.stored i tag att hgi).2.1
    have hplace' := (h.stored j tag' att' hgj).2.1
    rw [htag] at hplace
    omega
  have hperm : patbl.arrayTags.Perm (arr.map Prod.fst) := by
    refine (List.perm_ext_iff_of_nodup (List.nodup_range.filter _) hnodup).mpr ?_
    intro tag
    rw [List.mem_filter, List.mem_range, List.mem_map, decide_eq_true_iff]
    constructor
    · rintro ⟨-, hmap⟩
      obtain ⟨i, att, hi⟩ := h.exists_stored hmap
      exact ⟨(tag, att), List.mem_of_getElem? hi, rfl⟩
    · rintro ⟨⟨tag, att⟩, hmem, rfl⟩
      obtain ⟨i, hi⟩ := List.mem_iff_getElem?.mp hmem
      obtain ⟨hin, hplace, -⟩ := h.stored i tag att hi
      exact ⟨inArray_le hin, by dsimp only; omega⟩
  rw [hperm.length_eq, List.length_map]

/-! ## A pass -/

/-- What a pass of the vendor reader does to the array: the tag in front of it gets its value,
and the values of all other tags stay. -/
structure PassKeeps (eh : ElfHost) (c c' : AttCursor) : Prop where
  distinct : ValuesDistinct c'.patbl
  values : ∃ a, c.Front eh a ∧ ∀ tag, c.patbl.pv.inArray tag = true →
    c'.patbl.getTagVal tag =
      if a.word eh = tag then a.value.toAttribute eh else c.patbl.getTagVal tag

theorem arrayPart_find_single {pv : AttVendor} {a : AttToken} {tag : Nat}
    (harr : pv.inArray tag = true) :
    ((arrayPart eh pv [a]).find? fun el => el.1 = tag).map Prod.snd =
      if a.word eh = tag then a.value.toAttribute eh else none := by
  unfold arrayPart
  rw [List.filterMap_cons, List.filterMap_nil]
  by_cases htag : a.word eh = tag
  · rw [htag, if_pos harr, if_pos rfl]
    cases a.value.toAttribute eh <;> simp
  · rw [if_neg htag]
    by_cases hin : pv.inArray (a.word eh) = true
    · rw [if_pos hin]
      cases a.value.toAttribute eh <;> simp [htag]
    · rw [if_neg hin]
      rfl

theorem pubAttribute_keeps {c c' : AttCursor} {arr : List (Nat × Attribute)}
    {occ : Nat → List Attribute} (hs : c.size < 2 ^ 32) (harr : ArrayKept c.patbl arr)
    (hlist : ListKept c.patbl occ) (hpass : pubAttribute eh c = .ok c') : PassKeeps eh c c' := by
  obtain ⟨a, hbuf, hle, hlt, -, htyped, hadd⟩ := pubAttribute_eq_ok hs hpass
  have harr' := harr.addToken hadd
  have hlist' := hlist.addToken hadd
  refine ⟨harr'.distinct, a, ⟨⟨_, hbuf⟩, hle, hlt, htyped⟩, ?_⟩
  intro tag htag
  have hpv := addToken_pv hadd
  obtain ⟨hfresh, -⟩ := addToken_cases hadd
  rw [getTagVal_kept harr' hlist', getTagVal_kept harr hlist, hpv, if_pos htag, if_pos htag,
    List.find?_append, Option.map_or, arrayPart_find_single htag]
  by_cases hsame : a.word eh = tag
  · have hzero : c.patbl.mapped tag = 0 := by
      by_contra hne
      rw [hsame] at hfresh
      exact hfresh ⟨htag, hne⟩
    have hnone : (arr.find? fun el => el.1 = tag) = none := by
      rw [List.find?_eq_none]
      rintro ⟨tag', att⟩ hmem hdec
      have htag' : tag' = tag := of_decide_eq_true hdec
      obtain ⟨i, hi⟩ := List.mem_iff_getElem?.mp hmem
      have hplace := (harr.stored i tag' att hi).2.1
      rw [htag', hzero] at hplace
      omega
    rw [if_pos hsame, if_pos hsame, hnone, Option.map_none, Option.none_or]
  · rw [if_neg hsame, if_neg hsame, Option.or_none]

/-! ## Room in the array -/

/-- A store behind the end of the array. -/
theorem addToken_overrun {patbl : AttributeTbl} {arr : List (Nat × Attribute)}
    (h : ArrayKept patbl arr) (a : AttToken) :
    addToken eh patbl a = .error .overrun ↔ patbl.fresh (a.word eh) ∧ a.value ≠ .none ∧
      patbl.pv.inArray (a.word eh) = true ∧ patbl.pv.capacity ≤ patbl.arrayTags.length := by
  unfold addToken
  by_cases hfresh : patbl.fresh (a.word eh)
  · rw [if_neg hfresh, and_iff_right hfresh, h.arrayTags_length]
    cases hatt : a.value.toAttribute eh with
    | none =>
      refine iff_of_false ?_ ?_
      · intro hkeep
        cases hkeep
      · rintro ⟨hval, -⟩
        exact hval (toAttribute_eq_none.mp hatt)
    | some att =>
      rw [and_iff_right (toAttribute_isSome hatt)]
      show AttributeTbl.store _ _ _ = _ ↔ _
      unfold AttributeTbl.store
      rw [AttributeTbl.grow_pv, AttributeTbl.grow_idx, h.idx]
      by_cases harr : patbl.pv.inArray (a.word eh) = true
      · rw [if_pos harr, and_iff_right harr, ((h.grow _).2 harr).1]
        by_cases hroom : arr.length + 1 < 1 + patbl.pv.capacity
        · rw [if_pos hroom]
          refine iff_of_false ?_ (by omega)
          intro hstore
          cases hstore
        · rw [if_neg hroom]
          exact iff_of_true rfl (by omega)
      · rw [if_neg harr]
        refine iff_of_false ?_ (fun hand => harr hand.1)
        intro hins
        split at hins
        · next e he =>
          rw [insertList_error he] at hins
          cases hins
        · cases hins
  · rw [if_pos (not_not.mp hfresh)]
    refine iff_of_false ?_ (fun hand => hfresh hand.1)
    intro hrej
    cases hrej

/-- The pass stores the attribute in front of it in the array. -/
structure AttCursor.Stores (eh : ElfHost) (c : AttCursor) (a : AttToken) : Prop where
  front : c.Front eh a
  valued : a.value ≠ .none
  inArray : c.patbl.pv.inArray (a.word eh) = true
  fresh : c.patbl.mapped (a.word eh) = 0

/-- In a run over the section nothing is stored behind the array, and every pass keeps the
values. -/
structure ValuesKept (eh : ElfHost) (known : KnownVendors) (b : AttBuffer) (needswap : Bool)
    (objName : CStr) : Prop where
  room : ∀ passes r, pmelfReadAttributeSet eh known b needswap objName passes = some r →
    r ≠ .error .overrun
  passes : ∀ c, PassReached eh known b needswap objName c → ∀ c', pubAttribute eh c = .ok c' →
    PassKeeps eh c c'

/-- A value only goes to the array of a table where there are less than `capacity` values. -/
def ArraysFit (eh : ElfHost) (known : KnownVendors) (b : AttBuffer) (needswap : Bool)
    (objName : CStr) : Prop :=
  ∀ c, PassReached eh known b needswap objName c → ∀ a, c.Stores eh a →
    c.patbl.arrayTags.length < c.patbl.pv.capacity

theorem notOverrun_readerHalts : ReaderHalts fun e => e ≠ .overrun where
  error c := by simp
  outside := by simp
  wrap := by simp
  overflow := by simp

/-- Where the arrays fit, no attribute is stored behind one. -/
theorem arraysFit_iff {known : KnownVendors} {b : AttBuffer} {needswap : Bool}
    {objName : CStr} (hnil : known.list ≠ []) :
    (∀ passes r, pmelfReadAttributeSet eh known b needswap objName passes = some r →
      r ≠ .error .overrun) ↔ ArraysFit eh known b needswap objName := by
  simp only [ne_error_iff]
  rw [reader_halts_iff notOverrun_readerHalts hnil]
  refine forall_congr' fun c => forall_congr' fun hreached => forall_congr' fun a => ?_
  obtain ⟨-, arr, harr⟩ := hreached.kept
  rw [← ne_error_iff, ne_eq, addToken_overrun harr]
  constructor
  · intro h hstores
    by_contra hfull
    refine h hstores.front ⟨?_, hstores.valued, hstores.inArray, Nat.not_lt.mp hfull⟩
    rintro ⟨-, hmap⟩
    exact hmap hstores.fresh
  · rintro h hfront ⟨hfresh, hval, hin, hfull⟩
    have hzero : c.patbl.mapped (a.word eh) = 0 := by
      by_contra hmap
      exact hfresh ⟨hin, hmap⟩
    have hroom := h ⟨hfront, hval, hin, hzero⟩
    omega

/-- The values of all tags are kept apart and inside of the arrays exactly if no array is full
when another value comes to it. -/
theorem values_kept_iff (eh : ElfHost) (known : KnownVendors) (b : AttBuffer) (needswap : Bool)
    (objName : CStr) :
    ValuesKept eh known b needswap objName ↔ ArraysFit eh known b needswap objName := by
  by_cases hnil : known.list = []
  · have hnone : ∀ c, ¬PassReached eh known b needswap objName c := by
      rintro c ⟨st, t, patbl, -, -, ⟨-, -, -, pv, l, hfind, -⟩, -⟩
      have hmem := (KnownVendors.find_some hfind).1
      rw [hnil] at hmem
      cases hmem
    refine iff_of_true ⟨?_, ?_⟩ ?_
    · intro passes r hr
      rw [pmelfReadAttributeSet, if_pos hnil] at hr
      cases hr
      rintro ⟨⟩
    · intro c hreached
      exact absurd hreached (hnone c)
    · intro c hreached
      exact absurd hreached (hnone c)
  · rw [← arraysFit_iff hnil]
    constructor
    · intro h
      exact h.room
    · intro hroom
      refine ⟨hroom, ?_⟩
      intro c hreached c' hpass
      obtain ⟨⟨occ, hlist⟩, arr, harr⟩ := hreached.kept
      exact pubAttribute_keeps hreached.size_lt harr hlist hpass

/-! ## An array that is full -/

/-- A vendor with the numeric tags 0 and 1 in the array, which has room for one value. -/
def twoTags : AttVendor where
  name := ⟨[118], by decide⟩
  maxTag := 1
  tagType := some fun _ => .num

/-- The values 5 and 7 for the tags 0 and 1. -/
def twoValues : AttBuffer := ⟨[65, 15, 0, 0, 0, 118, 0, 1, 9, 0, 0, 0, 0, 5, 1, 7], by decide⟩

theorem second_value_behind :
    ¬ValuesKept (plainElfHost .lp64 false) ⟨[twoTags], by simp⟩ twoValues false
      ⟨[], by decide⟩ := by
  intro h
  exact h.room 1 (.error .overrun) rfl rfl

end Cexp
