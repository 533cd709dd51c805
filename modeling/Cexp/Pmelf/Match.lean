import Mathlib.Data.Int.Bitwise
import Mathlib.Data.List.ReduceOption
import Cexp.Pmelf.Reader

/-!
# Attribute sets that match

`pmelf_match_attribute_set` compares the attribute sets of two objects: the sets of their
vendors first, then every two tables of the same vendor with the `file_attributes_match` of
this vendor. The one of PowerPC objects looks at the three tags of the ABI and at the
`Tag_Compat` elements of the lists.

What is printed is left out.
-/

namespace Cexp

open CLib

/-! ## The elements with `Tag_Compat` -/

def findCompat : List (Nat × Attribute) → List (Nat × Attribute)
  | [] => []
  | el :: next => if el.1 = Tag_Compat then el :: next else findCompat next

/-- `"gnu"` -/
def gnuToolchain : List UInt8 := [103, 110, 117]

/-- `flgsGt1` counts in an `int`. -/
def filterNongnu (flgsGt1 : Nat) : List (Nat × Attribute) → Except Halt Int
  | [] => .ok flgsGt1
  | el :: next =>
    if el.1 = Tag_Compat then
      if el.2.i > 0 then
        match el.2.s with
        | none => .ok (-1)
        | some s =>
          if s ≠ gnuToolchain then .ok (-1)
          else if el.2.i > 1 then
            match intSucc flgsGt1 with
            | .error e => .error e
            | .ok flgsGt1 => filterNongnu flgsGt1 next
          else filterNongnu flgsGt1 next
      else filterNongnu flgsGt1 next
    else .ok flgsGt1

/-- The inner loop of `filter_gt1`. -/
def flagFound (flg : Nat) : List (Nat × Attribute) → Bool
  | [] => false
  | pb :: pn =>
    if pb.1 ≠ Tag_Compat then false
    else if flg ≠ pb.2.i then flagFound flg pn
    else true

def filterGt1 : List (Nat × Attribute) → List (Nat × Attribute) → Int
  | [], _ => 0
  | pa :: next, elb =>
    if pa.1 = Tag_Compat then
      if pa.2.i > 1 then if flagFound pa.2.i elb then filterGt1 next elb else -1
      else filterGt1 next elb
    else 0

def pmelfPubFileAttributesMatchCompat (patbl pbtbl : AttributeTbl) : Except Halt Int := do
  let ela := findCompat patbl.lst
  let fla ← filterNongnu 0 ela
  if fla < 0 then return -1
  let elb := findCompat pbtbl.lst
  let flb ← filterNongnu 0 elb
  if flb < 0 then return -1
  if filterGt1 ela elb ≠ 0 ∨ filterGt1 elb ela ≠ 0 then return -1
  return 0

/-! ## PowerPC objects -/

def Tag_GNU_Power_ABI_FP : Nat := 4
def Tag_GNU_Power_ABI_Vector : Nat := 8
def Tag_GNU_Power_ABI_Struct_Return : Nat := 12

/-- The tags of `gnu_ppc_atts`. -/
def gnuPpcAtts : List Nat :=
  [Tag_GNU_Power_ABI_FP, Tag_GNU_Power_ABI_Vector, Tag_GNU_Power_ABI_Struct_Return]

def gnuPpcUnknown (tag : Nat) : Int :=
  if tag = Tag_Compat ∨ tag ∈ gnuPpcAtts then -1 else asInt tag

/-- The tags in the order of `filter_gnu_ppc_unknown`: those in the array, then the list. -/
def AttributeTbl.tags (patbl : AttributeTbl) : List Nat :=
  patbl.arrayTags ++ patbl.lst.map Prod.fst

/-- The first unknown tag, or -1. A tag from 2^31 on is a negative `int` and passes. -/
def filterGnuPpcUnknown (patbl : AttributeTbl) : Int :=
  ((patbl.tags.map gnuPpcUnknown).find? fun rval => 0 ≤ rval).getD (-1)

/-- One pass over `gnu_ppc_atts`, -1 for the `return`. -/
def matchTag (patbl pbtbl : AttributeTbl) (tag : Nat) : Int :=
  match patbl.getTagVal tag, pbtbl.getTagVal tag with
  | none, none => 0
  | none, some _ => -1
  | some _, none => -1
  | some a, some b =>
    let va := asInt a.i
    let vb := asInt b.i
    if va ≠ vb ∧ va ≠ 0 ∧ vb ≠ 0 then -1 else 0

def matchTags (patbl pbtbl : AttributeTbl) : List Nat → Except Halt Int
  | [] => pmelfPubFileAttributesMatchCompat patbl pbtbl
  | tag :: tags =>
    if matchTag patbl pbtbl tag < 0 then .ok (-1) else matchTags patbl pbtbl tags

def pmelfPpcFileAttributesMatch : Option AttributeTbl → Option AttributeTbl → Except Halt Int
  | none, none => .ok 0
  | some patbl, some pbtbl =>
    if filterGnuPpcUnknown patbl ≥ 0 then .ok (-1)
    else if filterGnuPpcUnknown pbtbl ≥ 0 then .ok (-1)
    else matchTags patbl pbtbl gnuPpcAtts
  | _, _ => .ok (-1)

/-! ## Attribute sets -/

/-- The type of a `file_attributes_match`. -/
abbrev MatchHandler := Option AttributeTbl → Option AttributeTbl → Except Halt Int

/-- The place of a vendor in `known_vendors`. -/
def KnownVendors.vidx (known : KnownVendors) (pv : AttVendor) : Int :=
  match known.list.findIdx? fun p => p.name = pv.name with
  | none => -1
  | some i => i

/-- The bits of the vendors. There is no bit for vendors behind the first 31. -/
def KnownVendors.vset (known : KnownVendors) (rval : Nat) :
    List (Option AttributeTbl) → Except Halt Int
  | [] => .ok rval
  | none :: slots => known.vset rval slots
  | some patbl :: slots =>
    let j := known.vidx patbl.pv
    if j < 0 then .ok (-1)
    else if 31 ≤ j then .error .overflow
    else known.vset (rval ||| 1 <<< j.toNat) slots

/-- The tables of the same vendor, in the order of the two loops over the slots. -/
def AttributeSet.common (pa pb : AttributeSet) : List (AttributeTbl × AttributeTbl) :=
  pa.attributes.reduceOption.flatMap fun a =>
    (pb.attributes.reduceOption.filter fun b => a.pv.name = b.pv.name).map fun b => (a, b)

/-- The calls of `file_attributes_match`, which is found by the name of the vendor. -/
def matchTables (handlers : CStr → Option MatchHandler) (rval : Int) :
    List (AttributeTbl × AttributeTbl) → Except Halt Int
  | [] => .ok rval
  | (a, b) :: tables =>
    match handlers a.pv.name with
    | none => .ok (-1)
    | some fileAttributesMatch => do
      let r ← fileAttributesMatch (some a) (some b)
      matchTables handlers (Int.lor rval r) tables

def pmelfMatchAttributeSet (known : KnownVendors) (handlers : CStr → Option MatchHandler) :
    Option AttributeSet → Option AttributeSet → Except Halt Int
  | none, none => .ok 0
  | some pa, some pb => do
    let vendorSetA ← known.vset 0 pa.attributes
    if vendorSetA < 0 then return -1
    let vendorSetB ← known.vset 0 pb.attributes
    if vendorSetB < 0 then return -1
    if vendorSetA ≠ vendorSetB then return -2
    matchTables handlers 0 (pa.common pb)
  | _, _ => .ok (-1)

/-- The `file_attributes_match` of the one vendor in the sources. -/
def ppcHandlers (vendor : CStr) : Option MatchHandler :=
  if vendor = pmelfAttributesVendorGnuPpc.name then some pmelfPpcFileAttributesMatch else none

/-! ## What matches -/

/-- The elements that the two filters look at. -/
def compatRun (lst : List (Nat × Attribute)) : List Attribute :=
  (lst.takeWhile fun el => el.1 = Tag_Compat).map Prod.snd

/-- No other toolchain is asked for, and the flags above 1 can be counted. -/
structure GnuOnly (atts : List Attribute) : Prop where
  gnu : ∀ att ∈ atts, 0 < att.i → att.s = some gnuToolchain
  few : (atts.countP fun att => 1 < att.i) < 2 ^ 31

/-- The flags above 1. -/
def bigFlags (atts : List Attribute) : Set Nat := {flg | 1 < flg ∧ ∃ att ∈ atts, att.i = flg}

/-- Two values of a tag. Zero stands for every value. -/
def SameValue (a b : Attribute) : Prop := asInt a.i = asInt b.i ∨ asInt a.i = 0 ∨ asInt b.i = 0

def AttributeTbl.compat (patbl : AttributeTbl) : List Attribute := compatRun (findCompat patbl.lst)

/-- A table that one can match at all. -/
structure Acceptable (patbl : AttributeTbl) : Prop where
  known : ∀ tag ∈ patbl.tags, gnuPpcUnknown tag < 0
  gnuOnly : GnuOnly patbl.compat

/-- What it means for the tables of two PowerPC objects to match. -/
structure PpcCompatible (patbl pbtbl : AttributeTbl) : Prop where
  left : Acceptable patbl
  right : Acceptable pbtbl
  values : ∀ tag ∈ gnuPpcAtts, Option.Rel SameValue (patbl.getTagVal tag) (pbtbl.getTagVal tag)
  flags : bigFlags patbl.compat = bigFlags pbtbl.compat

theorem SameValue.symm {a b : Attribute} (h : SameValue a b) : SameValue b a := by
  rcases h with heq | ha | hb
  · exact Or.inl heq.symm
  · exact Or.inr (Or.inr ha)
  · exact Or.inr (Or.inl hb)

theorem optionRel_symm {α : Type} {r : α → α → Prop} (hr : ∀ {a b}, r a b → r b a)
    {a b : Option α} (h : Option.Rel r a b) : Option.Rel r b a := by
  cases h with
  | some hab => exact Option.Rel.some (hr hab)
  | none => exact Option.Rel.none

theorem PpcCompatible.symm {patbl pbtbl : AttributeTbl} (h : PpcCompatible patbl pbtbl) :
    PpcCompatible pbtbl patbl where
  left := h.right
  right := h.left
  values := by
    intro tag htag
    exact optionRel_symm SameValue.symm (h.values tag htag)
  flags := h.flags.symm

/-! ## The filters -/

theorem compatRun_cons (el : Nat × Attribute) (next : List (Nat × Attribute)) :
    compatRun (el :: next) = if el.1 = Tag_Compat then el.2 :: compatRun next else [] := by
  unfold compatRun
  by_cases h : el.1 = Tag_Compat
  · rw [List.takeWhile_cons_of_pos (by simpa using h), if_pos h, List.map_cons]
  · rw [List.takeWhile_cons_of_neg (by simpa using h), if_neg h, List.map_nil]

theorem intSucc_eq_ok {l m : Nat} : intSucc l = .ok m ↔ l + 1 < 2 ^ 31 ∧ l + 1 = m := by
  unfold intSucc
  by_cases h : l + 1 < 2 ^ 31
  · rw [if_pos h, Except.ok.injEq]
    exact (and_iff_right h).symm
  · rw [if_neg h]
    exact iff_of_false (by intro he; cases he) (fun he => h he.1)

theorem filterNongnu_nonneg {flgsGt1 : Nat} (hlt : flgsGt1 < 2 ^ 31)
    (el : List (Nat × Attribute)) :
    (∃ fl, filterNongnu flgsGt1 el = .ok fl ∧ ¬fl < 0) ↔
      (∀ att ∈ compatRun el, 0 < att.i → att.s = some gnuToolchain) ∧
        flgsGt1 + ((compatRun el).countP fun att => 1 < att.i) < 2 ^ 31 := by
  induction el generalizing flgsGt1 with
  | nil =>
    refine iff_of_true ⟨flgsGt1, rfl, by omega⟩ ⟨?_, hlt⟩
    intro att hatt
    cases hatt
  | cons el next ih =>
    rw [compatRun_cons]
    unfold filterNongnu
    by_cases htag : el.1 = Tag_Compat
    · rw [if_pos htag, if_pos htag, List.forall_mem_cons, List.countP_cons]
      by_cases hpos : el.2.i > 0
      · rw [if_pos hpos]
        have hstop : ¬∃ fl, Except.ok (ε := Halt) (-1 : Int) = .ok fl ∧ ¬fl < 0 := by
          rintro ⟨fl, hfl, hnot⟩
          cases hfl
          exact hnot (by decide)
        cases hs : el.2.s with
        | none =>
          refine iff_of_false hstop ?_
          rintro ⟨⟨hgnu, -⟩, -⟩
          cases hgnu hpos
        | some s =>
          dsimp only
          by_cases hgnu : s = gnuToolchain
          · rw [if_neg (not_not_intro hgnu), hgnu]
            by_cases hbig : el.2.i > 1
            · rw [if_pos hbig, if_pos (decide_eq_true hbig), and_iff_right (fun _ => rfl)]
              by_cases hroom : flgsGt1 + 1 < 2 ^ 31
              · rw [intSucc_eq_ok.mpr ⟨hroom, rfl⟩]
                refine (ih hroom).trans (and_congr_right fun _ => ?_)
                omega
              · unfold intSucc
                rw [if_neg hroom]
                refine iff_of_false ?_ ?_
                · rintro ⟨fl, hfl, -⟩
                  cases hfl
                · rintro ⟨-, hfew⟩
                  omega
            · rw [if_neg hbig, if_neg (by simpa using hbig), and_iff_right (fun _ => rfl)]
              exact ih hlt
          · rw [if_pos hgnu]
            refine iff_of_false hstop ?_
            rintro ⟨⟨heq, -⟩, -⟩
            exact hgnu (Option.some.inj (heq hpos))
      · rw [if_neg hpos, if_neg (by simpa using fun h : 1 < el.2.i => hpos (by omega)),
          and_iff_right (fun h => absurd h hpos)]
        exact ih hlt
    · rw [if_neg htag, if_neg htag]
      refine iff_of_true ⟨flgsGt1, rfl, by omega⟩ ⟨?_, hlt⟩
      intro att hatt
      cases hatt

theorem flagFound_iff (flg : Nat) (elb : List (Nat × Attribute)) :
    flagFound flg elb = true ↔ ∃ att ∈ compatRun elb, att.i = flg := by
  induction elb with
  | nil => simp [flagFound, compatRun]
  | cons pb pn ih =>
    rw [compatRun_cons]
    unfold flagFound
    by_cases htag : pb.1 = Tag_Compat
    · rw [if_neg (not_not_intro htag), if_pos htag, List.exists_mem_cons_iff]
      by_cases hflg : flg = pb.2.i
      · rw [if_neg (not_not_intro hflg)]
        exact iff_of_true rfl (Or.inl hflg.symm)
      · rw [if_pos hflg, ih, or_iff_right (Ne.symm hflg)]
    · simp [htag]

theorem filterGt1_eq_zero (ela elb : List (Nat × Attribute)) :
    filterGt1 ela elb = 0 ↔ bigFlags (compatRun ela) ⊆ bigFlags (compatRun elb) := by
  induction ela with
  | nil => simp [filterGt1, compatRun, bigFlags]
  | cons pa next ih =>
    rw [compatRun_cons]
    unfold filterGt1
    by_cases htag : pa.1 = Tag_Compat
    · have hcons : bigFlags (pa.2 :: compatRun next) =
          {flg | 1 < flg ∧ pa.2.i = flg} ∪ bigFlags (compatRun next) := by
        ext flg
        simp only [bigFlags, List.exists_mem_cons_iff, Set.mem_union, Set.mem_ofPred_eq,
          and_or_left]
      rw [if_pos htag, if_pos htag, hcons, Set.union_subset_iff]
      by_cases hbig : pa.2.i > 1
      · rw [if_pos hbig]
        by_cases hfound : flagFound pa.2.i elb = true
        · rw [if_pos hfound, ih, and_iff_right]
          rintro flg ⟨h1, rfl⟩
          exact ⟨h1, (flagFound_iff _ _).mp hfound⟩
        · rw [if_neg hfound]
          refine iff_of_false (by decide) ?_
          rintro ⟨hsub, -⟩
          exact hfound ((flagFound_iff _ _).mpr (hsub ⟨hbig, rfl⟩).2)
      · rw [if_neg hbig, ih, and_iff_right]
        rintro flg ⟨h1, rfl⟩
        exact absurd h1 hbig
    · rw [if_neg htag, if_neg htag]
      exact iff_of_true rfl (by simp [bigFlags])

/-- The filter for other toolchains lets a list pass. -/
theorem filterNongnu_ok (el : List (Nat × Attribute)) :
    (∃ fl, filterNongnu 0 el = .ok fl ∧ ¬fl < 0) ↔ GnuOnly (compatRun el) := by
  rw [filterNongnu_nonneg (by decide), Nat.zero_add]
  exact ⟨fun h => ⟨h.1, h.2⟩, fun h => ⟨h.gnu, h.few⟩⟩

/-- Zero behind a test. -/
theorem stop_eq_zero {p : Prop} [Decidable p] {bad : Int} (hbad : bad ≠ 0)
    {y : Except Halt Int} : (if p then .ok bad else y) = .ok 0 ↔ ¬p ∧ y = .ok 0 := by
  by_cases hp : p
  · rw [if_pos hp]
    refine iff_of_false ?_ (fun h => h.1 hp)
    intro h
    exact hbad (Except.ok.inj h)
  · rw [if_neg hp, and_iff_right hp]

/-- Zero behind a test for a negative result. -/
theorem bind_nonneg_eq_zero {x : Except Halt Int} {bad : Int} (hbad : bad ≠ 0)
    {f : Int → Except Halt Int} :
    (x >>= fun r => if r < 0 then .ok bad else f r) = .ok 0 ↔
      ∃ r, x = .ok r ∧ ¬r < 0 ∧ f r = .ok 0 := by
  rw [bind_eq_ok]
  exact exists_congr fun r => and_congr_right fun _ => stop_eq_zero hbad

theorem nonneg_then_eq_zero {x y : Except Halt Int} {bad : Int} (hbad : bad ≠ 0) :
    (x >>= fun r => if r < 0 then .ok bad else y) = .ok 0 ↔
      (∃ r, x = .ok r ∧ ¬r < 0) ∧ y = .ok 0 := by
  rw [bind_nonneg_eq_zero hbad, ← exists_and_right]
  exact exists_congr fun r => and_assoc.symm

theorem pmelfPubFileAttributesMatchCompat_eq_zero (patbl pbtbl : AttributeTbl) :
    pmelfPubFileAttributesMatchCompat patbl pbtbl = .ok 0 ↔
      GnuOnly patbl.compat ∧ GnuOnly pbtbl.compat ∧
        bigFlags patbl.compat = bigFlags pbtbl.compat := by
  have hsub : ∀ x y : AttributeTbl, filterGt1 (findCompat x.lst) (findCompat y.lst) = 0 ↔
      bigFlags x.compat ⊆ bigFlags y.compat := fun x y => filterGt1_eq_zero _ _
  unfold pmelfPubFileAttributesMatchCompat
  refine (nonneg_then_eq_zero (by decide)).trans (and_congr (filterNongnu_ok _) ?_)
  refine (nonneg_then_eq_zero (by decide)).trans (and_congr (filterNongnu_ok _) ?_)
  refine (stop_eq_zero (by decide)).trans ?_
  rw [not_or, not_not, not_not, hsub, hsub, Set.Subset.antisymm_iff]
  exact and_iff_left rfl

/-! ## PowerPC tables -/

theorem filterGnuPpcUnknown_iff (patbl : AttributeTbl) :
    ¬filterGnuPpcUnknown patbl ≥ 0 ↔ ∀ tag ∈ patbl.tags, gnuPpcUnknown tag < 0 := by
  unfold filterGnuPpcUnknown
  cases hfind : (patbl.tags.map gnuPpcUnknown).find? fun rval => 0 ≤ rval with
  | none =>
    rw [List.find?_eq_none] at hfind
    refine iff_of_true (by decide) ?_
    intro tag htag
    simpa using hfind _ (List.mem_map_of_mem htag)
  | some rval =>
    have hge : 0 ≤ rval := by simpa using List.find?_some hfind
    obtain ⟨tag, htag, hrval⟩ := List.mem_map.mp (List.mem_of_find?_eq_some hfind)
    refine iff_of_false (not_not_intro hge) ?_
    intro hall
    have hneg := hall tag htag
    omega

theorem matchTag_iff (patbl pbtbl : AttributeTbl) (tag : Nat) :
    ¬matchTag patbl pbtbl tag < 0 ↔
      Option.Rel SameValue (patbl.getTagVal tag) (pbtbl.getTagVal tag) := by
  unfold matchTag
  cases patbl.getTagVal tag with
  | none =>
    cases pbtbl.getTagVal tag with
    | none => exact iff_of_true (by decide) Option.Rel.none
    | some b =>
      refine iff_of_false (not_not_intro (by show (-1 : Int) < 0; decide)) ?_
      intro h
      cases h
  | some a =>
    cases pbtbl.getTagVal tag with
    | none =>
      refine iff_of_false (not_not_intro (by show (-1 : Int) < 0; decide)) ?_
      intro h
      cases h
    | some b =>
      rw [Option.rel_some_some]
      unfold SameValue
      by_cases hne : asInt a.i ≠ asInt b.i ∧ asInt a.i ≠ 0 ∧ asInt b.i ≠ 0
      · refine iff_of_false (not_not_intro ?_) (by tauto)
        show (if _ then (-1 : Int) else 0) < 0
        rw [if_pos hne]
        decide
      · refine iff_of_true ?_ (by tauto)
        show ¬(if _ then (-1 : Int) else 0) < 0
        rw [if_neg hne]
        decide

theorem matchTags_eq_zero (patbl pbtbl : AttributeTbl) (tags : List Nat) :
    matchTags patbl pbtbl tags = .ok 0 ↔
      (∀ tag ∈ tags, Option.Rel SameValue (patbl.getTagVal tag) (pbtbl.getTagVal tag)) ∧
        pmelfPubFileAttributesMatchCompat patbl pbtbl = .ok 0 := by
  induction tags with
  | nil => simp [matchTags]
  | cons tag tags ih =>
    rw [matchTags, stop_eq_zero (by decide), matchTag_iff, ih, List.forall_mem_cons, and_assoc]

/-- The tables of two PowerPC objects match exactly if they are compatible. -/
theorem pmelfPpcFileAttributesMatch_eq_zero (patbl pbtbl : AttributeTbl) :
    pmelfPpcFileAttributesMatch (some patbl) (some pbtbl) = .ok 0 ↔
      PpcCompatible patbl pbtbl := by
  unfold pmelfPpcFileAttributesMatch
  rw [stop_eq_zero (by decide), stop_eq_zero (by decide), filterGnuPpcUnknown_iff,
    filterGnuPpcUnknown_iff, matchTags_eq_zero, pmelfPubFileAttributesMatchCompat_eq_zero]
  constructor
  · rintro ⟨ha, hb, hvalues, hgnua, hgnub, hflags⟩
    exact ⟨⟨ha, hgnua⟩, ⟨hb, hgnub⟩, hvalues, hflags⟩
  · intro h
    exact ⟨h.left.known, h.right.known, h.values, h.left.gnuOnly, h.right.gnuOnly, h.flags⟩

/-! ## Attribute sets -/

theorem lor_eq_zero (x y : Int) : Int.lor x y = 0 ↔ x = 0 ∧ y = 0 := by
  cases x with
  | ofNat m =>
    cases y with
    | ofNat n =>
      show ((m ||| n : Nat) : Int) = 0 ↔ (m : Int) = 0 ∧ (n : Int) = 0
      rw [Int.natCast_eq_zero, Int.natCast_eq_zero, Int.natCast_eq_zero, Nat.or_eq_zero_iff]
    | negSucc n => exact iff_of_false (by intro h; cases h) (by rintro ⟨-, h⟩; cases h)
  | negSucc m =>
    refine iff_of_false ?_ (by rintro ⟨h, -⟩; cases h)
    cases y with
    | ofNat n => intro h; cases h
    | negSucc n => intro h; cases h

/-- The call of a handler gives zero. -/
def TableMatch (handlers : CStr → Option MatchHandler) (a b : AttributeTbl) : Prop :=
  ∃ fileAttributesMatch, handlers a.pv.name = some fileAttributesMatch ∧
    fileAttributesMatch (some a) (some b) = .ok 0

theorem matchTables_eq_zero (handlers : CStr → Option MatchHandler) (rval : Int)
    (tables : List (AttributeTbl × AttributeTbl)) :
    matchTables handlers rval tables = .ok 0 ↔
      rval = 0 ∧ ∀ t ∈ tables, TableMatch handlers t.1 t.2 := by
  induction tables generalizing rval with
  | nil => simp [matchTables]
  | cons t tables ih =>
    rw [List.forall_mem_cons]
    unfold matchTables TableMatch
    cases hm : handlers t.1.pv.name with
    | none => simp
    | some fileAttributesMatch =>
      dsimp only
      rw [bind_eq_ok]
      constructor
      · rintro ⟨r, hr, htables⟩
        obtain ⟨hlor, hrest⟩ := (ih _).mp htables
        obtain ⟨hrval, rfl⟩ := (lor_eq_zero _ _).mp hlor
        exact ⟨hrval, ⟨fileAttributesMatch, rfl, hr⟩, hrest⟩
      · rintro ⟨hrval, ⟨_, hsome, hr⟩, hrest⟩
        cases hsome
        exact ⟨0, hr, (ih _).mpr ⟨(lor_eq_zero _ _).mpr ⟨hrval, rfl⟩, hrest⟩⟩

theorem mem_common {pa pb : AttributeSet} {t : AttributeTbl × AttributeTbl} :
    t ∈ pa.common pb ↔
      some t.1 ∈ pa.attributes ∧ some t.2 ∈ pb.attributes ∧ t.1.pv.name = t.2.pv.name := by
  obtain ⟨a, b⟩ := t
  rw [AttributeSet.common, List.mem_flatMap]
  constructor
  · rintro ⟨a', ha, hmem⟩
    obtain ⟨b', hb, heq⟩ := List.mem_map.mp hmem
    cases heq
    obtain ⟨hb, hname⟩ := List.mem_filter.mp hb
    exact ⟨List.reduceOption_mem_iff.mp ha, List.reduceOption_mem_iff.mp hb,
      of_decide_eq_true hname⟩
  · rintro ⟨ha, hb, hname⟩
    refine ⟨a, List.reduceOption_mem_iff.mpr ha, List.mem_map.mpr ⟨b, ?_, rfl⟩⟩
    exact List.mem_filter.mpr ⟨List.reduceOption_mem_iff.mpr hb, decide_eq_true hname⟩

/-- What it means for two attribute sets to match. -/
structure SetsMatch (known : KnownVendors) (handlers : CStr → Option MatchHandler)
    (pa pb : AttributeSet) : Prop where
  vendors : ∃ vendorSet, ¬vendorSet < 0 ∧ known.vset 0 pa.attributes = .ok vendorSet ∧
    known.vset 0 pb.attributes = .ok vendorSet
  tables : ∀ {a b}, some a ∈ pa.attributes → some b ∈ pb.attributes → a.pv.name = b.pv.name →
    TableMatch handlers a b

theorem pmelfMatchAttributeSet_eq_zero (known : KnownVendors)
    (handlers : CStr → Option MatchHandler) (pa pb : AttributeSet) :
    pmelfMatchAttributeSet known handlers (some pa) (some pb) = .ok 0 ↔
      SetsMatch known handlers pa pb := by
  unfold pmelfMatchAttributeSet
  refine (bind_nonneg_eq_zero (by decide)).trans ?_
  constructor
  · rintro ⟨va, ha, hva, hrest⟩
    obtain ⟨vb, hb, hvb, hrest⟩ := (bind_nonneg_eq_zero (by decide)).mp hrest
    obtain ⟨heq, hrest⟩ := (stop_eq_zero (by decide)).mp hrest
    obtain ⟨-, hall⟩ := (matchTables_eq_zero _ _ _).mp hrest
    refine ⟨⟨va, hva, ha, ?_⟩, ?_⟩
    · rw [hb, not_not.mp heq]
    · intro a b hma hmb hname
      exact hall (a, b) (mem_common.mpr ⟨hma, hmb, hname⟩)
  · intro h
    obtain ⟨v, hv, ha, hb⟩ := h.vendors
    refine ⟨v, ha, hv, (bind_nonneg_eq_zero (by decide)).mpr ⟨v, hb, hv, ?_⟩⟩
    refine (stop_eq_zero (by decide)).mpr ⟨not_not_intro rfl, ?_⟩
    refine (matchTables_eq_zero _ _ _).mpr ⟨rfl, ?_⟩
    intro t ht
    obtain ⟨ha, hb, hname⟩ := mem_common.mp ht
    exact h.tables ha hb hname

/-! ## The order of the two objects -/

/-- The handlers of all vendors look at both tables in the same way. -/
def SymmetricHandlers (handlers : CStr → Option MatchHandler) : Prop :=
  ∀ ⦃vendor fileAttributesMatch⦄, handlers vendor = some fileAttributesMatch →
    ∀ a b, fileAttributesMatch (some a) (some b) = .ok 0 →
      fileAttributesMatch (some b) (some a) = .ok 0

theorem SetsMatch.symm {known : KnownVendors} {handlers : CStr → Option MatchHandler}
    (hsymm : SymmetricHandlers handlers) {pa pb : AttributeSet}
    (h : SetsMatch known handlers pa pb) : SetsMatch known handlers pb pa where
  vendors := by
    obtain ⟨v, hv, ha, hb⟩ := h.vendors
    exact ⟨v, hv, hb, ha⟩
  tables := by
    intro b a hb ha hname
    obtain ⟨fileAttributesMatch, hsome, hzero⟩ := h.tables ha hb hname.symm
    exact ⟨fileAttributesMatch, hname ▸ hsome, hsymm hsome a b hzero⟩

theorem ppcHandlers_symmetric : SymmetricHandlers ppcHandlers := by
  intro vendor fileAttributesMatch hsome a b hzero
  unfold ppcHandlers at hsome
  split at hsome
  · cases hsome
    rw [pmelfPpcFileAttributesMatch_eq_zero] at hzero ⊢
    exact hzero.symm
  · cases hsome

theorem match_of_match {known : KnownVendors} {handlers : CStr → Option MatchHandler}
    (hsymm : SymmetricHandlers handlers) {pa pb : Option AttributeSet}
    (h : pmelfMatchAttributeSet known handlers pa pb = .ok 0) :
    pmelfMatchAttributeSet known handlers pb pa = .ok 0 := by
  cases pa with
  | none =>
    cases pb with
    | none => exact h
    | some pb => cases h
  | some pa =>
    cases pb with
    | none => cases h
    | some pb =>
      rw [pmelfMatchAttributeSet_eq_zero] at h ⊢
      exact h.symm hsymm

/-- Whether two attribute sets match does not depend on which object comes first. -/
theorem pmelfMatchAttributeSet_comm (known : KnownVendors) (pa pb : Option AttributeSet) :
    pmelfMatchAttributeSet known ppcHandlers pa pb = .ok 0 ↔
      pmelfMatchAttributeSet known ppcHandlers pb pa = .ok 0 :=
  ⟨match_of_match ppcHandlers_symmetric, match_of_match ppcHandlers_symmetric⟩

end Cexp
