import Cexp.Pmelf.Inside
import Cexp.Pmelf.Table
import Mathlib.Data.List.Nodup

/-!
# Attribute sets

The slots of a set are filled from the front, and every vendor has one table at most
(`SetShape`). A pass of `pmelf_read_attribute_set` reads a header and the attributes behind
it, and adds them to the table of their vendor (`subsection_eq_ok`); a section that is read to
its end is made of such subsections (`Walk`), and the lists of the tables hold what occurs in
them (`SetKept`).
-/

namespace Cexp

open CLib

variable {eh : ElfHost}

/-! ## Slots -/

/-- The tables of a set, in the order of their slots. -/
structure SetShape (known : KnownVendors) (rval : AttributeSet) (tables : List AttributeTbl) :
    Prop where
  attributes : rval.attributes =
    tables.map some ++ List.replicate (ATTR_MAX_VENDORS - tables.length) none
  length : tables.length ≤ ATTR_MAX_VENDORS
  names : (tables.map fun patbl => patbl.pv.name).Nodup
  known : ∀ patbl ∈ tables, patbl.pv ∈ known.list

theorem SetShape.start (known : KnownVendors) (objName : CStr) :
    SetShape known (SetState.start objName).rval [] :=
  ⟨rfl, Nat.zero_le _, List.nodup_nil, by simp⟩

theorem SetShape.mem {known : KnownVendors} {rval : AttributeSet} {tables : List AttributeTbl}
    (h : SetShape known rval tables) {patbl : AttributeTbl} :
    some patbl ∈ rval.attributes ↔ patbl ∈ tables := by
  rw [h.attributes]
  simp

theorem KnownVendors.find_some {known : KnownVendors} {name : CStr} {pv : AttVendor}
    (h : known.find name.bytes = some pv) : pv ∈ known.list ∧ pv.name = name := by
  have hname := List.find?_some h
  exact ⟨List.mem_of_find?_eq_some h, CStr.ext (by simpa using hname)⟩

theorem KnownVendors.eq_of_name {known : KnownVendors} {pv pv' : AttVendor}
    (h : pv ∈ known.list) (h' : pv' ∈ known.list) (hname : pv.name = pv'.name) : pv = pv' :=
  List.inj_on_of_nodup_map known.distinct h h' hname

theorem KnownVendors.find_mem {known : KnownVendors} {pv : AttVendor} (h : pv ∈ known.list) :
    known.find pv.name.bytes = some pv := by
  cases hfind : known.find pv.name.bytes with
  | none =>
    have := List.find?_eq_none.mp hfind pv h
    simp at this
  | some pv' =>
    obtain ⟨hmem, hname⟩ := find_some hfind
    rw [eq_of_name hmem h hname]

/-- The slot of a vendor: the one that its table has, or the first empty one. -/
theorem SetShape.slot {known : KnownVendors} {rval : AttributeSet} {tables : List AttributeTbl}
    (h : SetShape known rval tables) {pv : AttVendor} {l : Nat} {patbl : AttributeTbl}
    (hslot : rval.slot pv = .ok (l, patbl)) :
    (∃ hl : l < tables.length, tables[l] = patbl ∧ patbl.pv.name = pv.name) ∨
      (l = tables.length ∧ tables.length < ATTR_MAX_VENDORS ∧ patbl = .create pv ∧
        ∀ t ∈ tables, t.pv.name ≠ pv.name) := by
  let q : AttributeTbl → Bool := fun t => t.pv.name = pv.name
  have hidx : (rval.attributes.findIdx fun slot => slot.all fun t => t.pv.name = pv.name)
      = tables.findIdx q := by
    have hmap : (tables.map some).findIdx (fun slot => slot.all fun t => t.pv.name = pv.name)
        = tables.findIdx q := by
      rw [List.findIdx_map]
      rfl
    have hle : tables.findIdx q ≤ tables.length := List.findIdx_le_length
    rw [h.attributes, List.findIdx_append, hmap, List.length_map]
    split
    · rfl
    · cases ATTR_MAX_VENDORS - tables.length with
      | zero =>
        simp only [List.replicate_zero, List.findIdx_nil]
        omega
      | succ k =>
        rw [List.replicate_succ, List.findIdx_cons]
        simp only [Option.all_none, cond_true]
        omega
  unfold AttributeSet.slot at hslot
  dsimp only at hslot
  rw [hidx, h.attributes] at hslot
  by_cases hl : tables.findIdx q < tables.length
  · rw [List.getElem?_append_left (by simpa using hl), List.getElem?_map,
      List.getElem?_eq_getElem hl] at hslot
    have hq : q tables[tables.findIdx q] = true := List.findIdx_getElem
    cases hslot
    exact .inl ⟨hl, rfl, by simpa [q] using hq⟩
  · have hend : tables.findIdx q = tables.length := by
      have : tables.findIdx q ≤ tables.length := List.findIdx_le_length
      omega
    have hnone : ∀ t ∈ tables, t.pv.name ≠ pv.name := by
      intro t ht hname
      exact hl (List.findIdx_lt_length_of_exists ⟨t, ht, by simpa [q] using hname⟩)
    rw [hend, List.getElem?_append_right (by simp), List.length_map, Nat.sub_self] at hslot
    by_cases hroom : tables.length < ATTR_MAX_VENDORS
    · rw [List.getElem?_replicate_of_lt (by omega)] at hslot
      cases hslot
      exact .inr ⟨rfl, hroom, rfl, hnone⟩
    · have hzero : ATTR_MAX_VENDORS - tables.length = 0 := by omega
      rw [hzero] at hslot
      cases hslot

/-- The tables after a pass. -/
def setTable (tables : List AttributeTbl) (l : Nat) (patbl : AttributeTbl) : List AttributeTbl :=
  if l < tables.length then tables.set l patbl else tables ++ [patbl]

theorem SetShape.set {known : KnownVendors} {rval : AttributeSet} {tables : List AttributeTbl}
    (h : SetShape known rval tables) {pv : AttVendor} {l : Nat} {patbl patbl' : AttributeTbl}
    (hslot : rval.slot pv = .ok (l, patbl)) (hpv : pv ∈ known.list)
    (hpatbl : patbl'.pv = patbl.pv) :
    SetShape known { rval with attributes := rval.attributes.set l (some patbl') }
      (setTable tables l patbl') := by
  rcases h.slot hslot with ⟨hl, hget, hname⟩ | ⟨rfl, hroom, rfl, hnone⟩
  · have hnames : ((tables.set l patbl').map fun t => t.pv.name)
        = tables.map fun t => t.pv.name := by
      rw [List.map_set, hpatbl, ← hget]
      apply List.ext_getElem
      · simp
      · intro i h₁ h₂
        rw [List.getElem_set]
        split
        · next hi =>
          subst hi
          simp
        · rfl
    rw [setTable, if_pos hl]
    refine ⟨?_, by simpa using h.length, by rw [hnames]; exact h.names, ?_⟩
    · dsimp only
      rw [h.attributes, List.set_append_left _ _ (by simpa using hl), List.map_set, List.length_set]
    · intro t ht
      rcases List.mem_or_eq_of_mem_set ht with ht | rfl
      · exact h.known t ht
      · rw [hpatbl, ← hget]
        exact h.known _ (List.getElem_mem hl)
  · have hpos : ATTR_MAX_VENDORS - tables.length = (ATTR_MAX_VENDORS - (tables.length + 1)) + 1 := by
      omega
    rw [setTable, if_neg (Nat.lt_irrefl _)]
    refine ⟨?_, by rw [List.length_append, List.length_singleton]; omega, ?_, ?_⟩
    · dsimp only
      rw [h.attributes, List.set_append_right _ _ (by simp), List.length_map, Nat.sub_self, hpos,
        List.replicate_succ]
      simp
    · rw [List.map_append, List.nodup_append]
      refine ⟨h.names, by simp, ?_⟩
      intro a ha b hb
      obtain ⟨t, ht, rfl⟩ := List.mem_map.mp ha
      have hb' : b = patbl'.pv.name := by simpa using hb
      rw [hb', hpatbl]
      exact hnone t ht
    · intro t ht
      rcases List.mem_append.mp ht with ht | ht
      · exact h.known t ht
      · have ht' : t = patbl' := by simpa using ht
        rw [ht', hpatbl]
        exact hpv

/-- The table of the vendor is replaced or added, and the others stay. -/
theorem SetShape.mem_setTable {known : KnownVendors} {rval : AttributeSet}
    {tables : List AttributeTbl} (h : SetShape known rval tables) {pv : AttVendor} {l : Nat}
    {patbl patbl' u : AttributeTbl} (hslot : rval.slot pv = .ok (l, patbl)) :
    u ∈ setTable tables l patbl' ↔ u = patbl' ∨ (u ∈ tables ∧ u.pv.name ≠ pv.name) := by
  rcases h.slot hslot with ⟨hl, hget, hname⟩ | ⟨rfl, -, -, hname⟩
  · rw [setTable, if_pos hl]
    constructor
    · intro hu
      obtain ⟨i, hi, rfl⟩ := List.getElem_of_mem hu
      rw [List.getElem_set]
      split
      · exact .inl rfl
      · next hne =>
        rw [List.length_set] at hi
        refine .inr ⟨List.getElem_mem hi, fun hsame => hne ?_⟩
        have hmap : (tables.map fun t => t.pv.name)[l]? = (tables.map fun t => t.pv.name)[i]? := by
          rw [List.getElem?_map, List.getElem?_map, List.getElem?_eq_getElem hl,
            List.getElem?_eq_getElem hi, hget, Option.map_some, Option.map_some, hname, hsame]
        exact (List.getElem?_inj (by simpa using hl) h.names).mp hmap
    · rintro (rfl | ⟨hu, hne⟩)
      · exact List.mem_set hl u
      · obtain ⟨i, hi, rfl⟩ := List.getElem_of_mem hu
        have hil : l ≠ i := by
          rintro rfl
          exact hne (by rw [hget, hname])
        have hset : (tables.set l patbl')[i]? = some tables[i] := by
          rw [List.getElem?_set_ne hil, List.getElem?_eq_getElem hi]
        exact List.mem_of_getElem? hset
  · rw [setTable, if_neg (Nat.lt_irrefl _), List.mem_append, List.mem_singleton]
    constructor
    · rintro (hu | rfl)
      · exact .inr ⟨hu, hname u hu⟩
      · exact .inl rfl
    · rintro (rfl | ⟨hu, -⟩)
      · exact .inr rfl
      · exact .inl hu

/-! ## Subsections -/

/-- The subsection at `n`, as far as the reader goes over it. -/
structure SubsectionAt (eh : ElfHost) (known : KnownVendors) (b : AttBuffer) (needswap : Bool)
    (n : Nat) (t : HeaderToken) (pv : AttVendor) (as : List AttToken) : Prop where
  lt : n < b.size
  bytes : ∃ rest, b.at n = t.bytes (eh.fileBig needswap) ++ (attBytes as ++ rest)
  readable : t.Readable eh b n
  tag : t.tag.word eh 0 0 = Tag_File
  vendor : known.find t.name.bytes = some pv
  sublen : t.sublen = 4 + t.tag.bytes.length + (attBytes as).length
  typed : ∀ a ∈ as, a.Typed eh pv

/-- A pass of the reader. -/
theorem subsection_eq_ok {known : KnownVendors} {b : AttBuffer} {needswap : Bool}
    {st st' : SetState} (hn : st.n < b.size)
    (htables : ∀ l pv patbl, st.rval.slot pv = .ok (l, patbl) → pv ∈ known.list → patbl.pv = pv)
    (h : subsection eh known b needswap st = .ok st') :
    ∃ t pv as l patbl patbl', SubsectionAt eh known b needswap st.n t pv as ∧
      st.rval.slot pv = .ok (l, patbl) ∧ addTokens eh patbl as = .ok patbl' ∧
      st' = ⟨{ st.rval with attributes := st.rval.attributes.set l (some patbl') },
        eh.off (st.n + t.len + 1)⟩ := by
  obtain ⟨hd, hhd, h⟩ := bind_eq_ok.mp h
  obtain ⟨t, rest, hat, hr, rfl⟩ := readHeader_eq_ok hn hhd
  rw [HeaderToken.header] at h
  dsimp only at h
  by_cases htag : t.tag.word eh 0 0 = Tag_File
  · rw [if_pos htag] at h
    cases hfind : known.find t.name.bytes with
    | none =>
      rw [hfind] at h
      cases h
    | some pv =>
      rw [hfind] at h
      change (st.rval.slot pv >>= _) = _ at h
      obtain ⟨⟨l, patbl⟩, hslot, h⟩ := bind_eq_ok.mp h
      change (pmelfPubFileAttributesRead eh patbl _ _ >>= _) = _ at h
      obtain ⟨patbl', hread, h⟩ := bind_eq_ok.mp h
      have hsub : t.sublen - (4 + t.tag.bytes.length) < 2 ^ 32 :=
        (Nat.sub_le _ _).trans_lt t.sublen_lt
      obtain ⟨as, rest', hbuf, hsize, -, htyped, hadd⟩ :=
        pmelfPubFileAttributesRead_eq_ok hsub hread
      rw [AttBuffer.at_append hat] at hbuf
      have hpv := htables l pv patbl hslot (KnownVendors.find_some hfind).1
      have hle := hr.sublen
      refine ⟨t, pv, as, l, patbl, patbl', ⟨hn, ⟨rest', ?_⟩, hr, htag, hfind, by omega, ?_⟩, hslot,
        hadd, (Except.ok.inj h).symm⟩
      · rw [hat, hbuf]
      · rw [← hpv]
        exact htyped
  · rw [if_neg htag] at h
    split at h <;> cases h

/-- The section from `n` on is made of subsections, whose attributes are `ss`. -/
inductive Walk (eh : ElfHost) (known : KnownVendors) (b : AttBuffer) (needswap : Bool) :
    Nat → List (AttVendor × List AttToken) → Prop where
  | done (n : Nat) (h : b.size ≤ n) : Walk eh known b needswap n []
  | sub (n : Nat) (t : HeaderToken) (pv : AttVendor) (as : List AttToken)
      (ss : List (AttVendor × List AttToken))
      (h : SubsectionAt eh known b needswap n t pv as)
      (hss : Walk eh known b needswap (eh.off (n + t.len + 1)) ss) :
      Walk eh known b needswap n ((pv, as) :: ss)

theorem SubsectionAt.unique {known : KnownVendors} {b : AttBuffer} {needswap : Bool} {n : Nat}
    {t t' : HeaderToken} {pv pv' : AttVendor} {as as' : List AttToken}
    (h : SubsectionAt eh known b needswap n t pv as)
    (h' : SubsectionAt eh known b needswap n t' pv' as') : t = t' ∧ pv = pv' ∧ as = as' := by
  obtain ⟨rest, hbytes⟩ := h.bytes
  obtain ⟨rest', hbytes'⟩ := h'.bytes
  obtain ⟨rfl, hatts⟩ := HeaderToken.append_inj (hbytes.symm.trans hbytes')
  have hpv : pv = pv' := Option.some.inj (h.vendor.symm.trans h'.vendor)
  subst hpv
  have hsub := h.sublen
  have hsub' := h'.sublen
  exact ⟨rfl, rfl, attBytes_inj h.typed h'.typed hatts (by omega)⟩

theorem Walk.unique {known : KnownVendors} {b : AttBuffer} {needswap : Bool} {n : Nat}
    {ss ss' : List (AttVendor × List AttToken)} (h : Walk eh known b needswap n ss)
    (h' : Walk eh known b needswap n ss') : ss = ss' := by
  induction h generalizing ss' with
  | done n hn =>
    cases h' with
    | done => rfl
    | sub _ t pv as ss hsub =>
      have := hsub.lt
      omega
  | sub n t pv as ss hsub _ ih =>
    cases h' with
    | done _ hn =>
      have := hsub.lt
      omega
    | sub _ t' pv' as' ss' hsub' hss' =>
      obtain ⟨rfl, rfl, rfl⟩ := hsub.unique hsub'
      rw [ih hss']

/-- The values that a tag of a vendor has in subsections, in their order. -/
def vendorOccurrences (eh : ElfHost) (name : CStr) (tag : Nat)
    (ss : List (AttVendor × List AttToken)) : List Attribute :=
  ss.flatMap fun s => if s.1.name = name then occurrences eh tag s.2 else []

theorem vendorOccurrences_cons (name : CStr) (tag : Nat) (s : AttVendor × List AttToken)
    (ss : List (AttVendor × List AttToken)) :
    vendorOccurrences eh name tag (s :: ss) =
      vendorOccurrences eh name tag [s] ++ vendorOccurrences eh name tag ss := by
  simp [vendorOccurrences]

/-- The tables of a set hold the values `occ` of the vendors. -/
structure SetKept (known : KnownVendors) (rval : AttributeSet)
    (occ : CStr → Nat → List Attribute) : Prop where
  tables : ∃ tables, SetShape known rval tables ∧
    (∀ patbl ∈ tables, ListKept patbl (occ patbl.pv.name)) ∧
    ∀ name, (∀ patbl ∈ tables, patbl.pv.name ≠ name) → ∀ tag, occ name tag = []

theorem SetKept.start (known : KnownVendors) (objName : CStr) :
    SetKept known (SetState.start objName).rval fun _ _ => [] :=
  ⟨[], .start known objName, by simp, fun _ _ _ => rfl⟩

theorem SetKept.slot {known : KnownVendors} {rval : AttributeSet}
    {occ : CStr → Nat → List Attribute} (h : SetKept known rval occ) {l : Nat} {pv : AttVendor}
    {patbl : AttributeTbl} (hslot : rval.slot pv = .ok (l, patbl)) (hpv : pv ∈ known.list) :
    patbl.pv = pv ∧ ListKept patbl (occ pv.name) := by
  obtain ⟨tables, hshape, hkept, hnone⟩ := h.tables
  rcases hshape.slot hslot with ⟨hl, hget, hname⟩ | ⟨-, -, rfl, hname⟩
  · have hmem : patbl ∈ tables := hget ▸ List.getElem_mem hl
    have hpv' := KnownVendors.eq_of_name (hshape.known patbl hmem) hpv hname
    refine ⟨hpv', ?_⟩
    rw [← hpv']
    exact hkept patbl hmem
  · refine ⟨rfl, ?_⟩
    have hocc : occ pv.name = fun _ => [] := by
      funext tag
      exact hnone pv.name hname tag
    rw [hocc]
    exact ListKept.create pv

/-- A pass keeps what it reads. -/
theorem SetKept.subsection {known : KnownVendors} {b : AttBuffer} {needswap : Bool}
    {st st' : SetState} {occ : CStr → Nat → List Attribute} (h : SetKept known st.rval occ)
    (hn : st.n < b.size) (hpass : subsection eh known b needswap st = .ok st') :
    ∃ t pv as, SubsectionAt eh known b needswap st.n t pv as ∧
      st'.n = eh.off (st.n + t.len + 1) ∧
      SetKept known st'.rval fun name tag =>
        occ name tag ++ vendorOccurrences eh name tag [(pv, as)] := by
  obtain ⟨t, pv, as, l, patbl, patbl', hsub, hslot, hadd, rfl⟩ :=
    subsection_eq_ok hn (fun l pv patbl hslot hpv => (h.slot hslot hpv).1) hpass
  have hmem := (KnownVendors.find_some hsub.vendor).1
  obtain ⟨hpv, hlist⟩ := h.slot hslot hmem
  have hpv' : patbl'.pv = patbl.pv := addTokens_pv hadd
  obtain ⟨tables, hshape, hkept, hnone⟩ := h.tables
  have hshape' := hshape.set hslot hmem hpv'
  have hself : ListKept patbl' fun tag =>
      occ pv.name tag ++ vendorOccurrences eh pv.name tag [(pv, as)] := by
    have := hlist.addTokens hadd
    simpa [vendorOccurrences] using this
  have hother : ∀ name, name ≠ pv.name → ∀ tag,
      occ name tag ++ vendorOccurrences eh name tag [(pv, as)] = occ name tag := by
    intro name hname tag
    simp [vendorOccurrences, Ne.symm hname]
  refine ⟨t, pv, as, hsub, rfl, _, hshape', ?_, ?_⟩
  · intro u hu
    rcases (hshape.mem_setTable hslot).mp hu with rfl | ⟨hu, hname⟩
    · rw [hpv', hpv]
      exact hself
    · have hocc : (fun tag => occ u.pv.name tag ++ vendorOccurrences eh u.pv.name tag [(pv, as)])
          = occ u.pv.name := funext (hother _ hname)
      rw [hocc]
      exact hkept u hu
  · intro name hname tag
    have hne : name ≠ pv.name := by
      rintro rfl
      apply hname patbl' ((hshape.mem_setTable hslot).mpr (.inl rfl))
      rw [hpv', hpv]
    rw [hother name hne]
    apply hnone name
    intro u hu hsame
    exact hname u ((hshape.mem_setTable hslot).mpr (.inr ⟨hu, by rwa [hsame]⟩)) hsame

/-- A section that is read to its end is made of subsections, and the tables keep them. -/
theorem SetKept.loop {known : KnownVendors} {b : AttBuffer} {needswap : Bool} {k : Nat}
    {st st' : SetState} {occ : CStr → Nat → List Attribute} (h : SetKept known st.rval occ)
    (hloop : loop b.going (Cexp.subsection eh known b needswap) k st = some (.ok st')) :
    ∃ ss, Walk eh known b needswap st.n ss ∧
      SetKept known st'.rval fun name tag => occ name tag ++ vendorOccurrences eh name tag ss := by
  induction k generalizing st occ with
  | zero => cases hloop
  | succ k ih =>
    by_cases hn : st.n < b.size
    · have hgo : b.going st = true := decide_eq_true hn
      cases hpass : Cexp.subsection eh known b needswap st with
      | error e =>
        rw [loop_stop hgo hpass] at hloop
        cases hloop
      | ok st₁ =>
        rw [loop_pass ⟨hgo, hpass⟩] at hloop
        obtain ⟨t, pv, as, hsub, hnext, hkept⟩ := h.subsection hn hpass
        obtain ⟨ss, hwalk, hkept'⟩ := ih hkept hloop
        rw [hnext] at hwalk
        refine ⟨(pv, as) :: ss, .sub _ t pv as ss hsub hwalk, ?_⟩
        have hocc : (fun name tag => occ name tag ++ vendorOccurrences eh name tag ((pv, as) :: ss))
            = fun name tag => occ name tag ++ vendorOccurrences eh name tag [(pv, as)]
              ++ vendorOccurrences eh name tag ss := by
          funext name tag
          rw [vendorOccurrences_cons, List.append_assoc]
        rw [hocc]
        exact hkept'
    · have hstop : b.going st = false := decide_eq_false hn
      rw [loop_done hstop] at hloop
      cases hloop
      refine ⟨[], .done _ (by omega), ?_⟩
      simpa [vendorOccurrences] using h

theorem SetKept.reach {known : KnownVendors} {b : AttBuffer} {needswap : Bool}
    {st st' : SetState} {occ : CStr → Nat → List Attribute} (h : SetKept known st.rval occ)
    (hreach : SetReach eh known b needswap st st') : ∃ occ', SetKept known st'.rval occ' := by
  induction hreach with
  | refl => exact ⟨occ, h⟩
  | tail _ hpass ih =>
    obtain ⟨occ', h'⟩ := ih
    obtain ⟨t, pv, as, -, -, hkept⟩ := h'.subsection (of_decide_eq_true hpass.1) hpass.2
    exact ⟨_, hkept⟩

/-- What the tables hold after a successful read. -/
theorem readAttributeSet_kept {known : KnownVendors} {b : AttBuffer} {needswap : Bool}
    {objName : CStr} {passes : Nat} {set : AttributeSet}
    (h : pmelfReadAttributeSet eh known b needswap objName passes = some (.ok set)) :
    ∃ ss, Walk eh known b needswap 0 ss ∧
      SetKept known set fun name tag => vendorOccurrences eh name tag ss := by
  by_cases hnil : known.list = []
  · rw [pmelfReadAttributeSet, if_pos hnil] at h
    cases h
  · rw [pmelfReadAttributeSet_eq hnil] at h
    obtain ⟨r, hr, hmap⟩ := Option.map_eq_some_iff.mp h
    cases r with
    | error e => cases hmap
    | ok st =>
      obtain ⟨ss, hwalk, hkept⟩ := (SetKept.start known objName).loop hr
      cases hmap
      exact ⟨ss, hwalk, by simpa using hkept⟩

end Cexp
