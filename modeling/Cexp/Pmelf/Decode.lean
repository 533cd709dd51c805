import Cexp.Pmelf.Stream

/-!
# Decoding attribute streams

The reader is run on the streams of the grammar. A stream decodes if the reader accepts it
and the tables give back what it encodes (`AttStream.Decodes`). The reader takes the format
version for a part of every subsection, and it reads the first subsubsection of a subsection
only; so what decodes is a stream with one subsection whose later subsubsections say nothing
new (`AttStream.Readable`).
-/

namespace Cexp

open CLib

variable {eh : ElfHost}

/-! ## Attributes that find room -/

theorem addToken_ok {patbl : AttributeTbl} {arr : List (Nat × Attribute)}
    {occ : Nat → List Attribute} {a : AttToken} (harr : ArrayKept patbl arr)
    (hlist : ListKept patbl occ)
    (hfresh : patbl.pv.inArray (a.word eh) = true → ∀ att, (a.word eh, att) ∉ arr)
    (hroom : patbl.pv.inArray (a.word eh) = true → arr.length < patbl.pv.capacity)
    (hlst : patbl.pv.inArray (a.word eh) = false → (occ (a.word eh)).length < 2) :
    ∃ patbl', addToken eh patbl a = .ok patbl' := by
  have hnew : ¬(patbl.pv.inArray (a.word eh) = true ∧ patbl.mapped (a.word eh) ≠ 0) :=
    fun h => h.2 (harr.rest _ (hfresh h.1))
  rw [addToken, if_neg hnew]
  cases hatt : a.value.toAttribute eh with
  | none => exact ⟨_, rfl⟩
  | some att =>
    show ∃ patbl', AttributeTbl.store _ _ _ = .ok patbl'
    unfold AttributeTbl.store
    rw [AttributeTbl.grow_pv, AttributeTbl.grow_idx, AttributeTbl.grow_lst]
    by_cases hin : patbl.pv.inArray (a.word eh) = true
    · have hvals := ((harr.grow (a.word eh)).2 hin).1
      have hidx := harr.idx
      have hlt := hroom hin
      rw [if_pos hin, if_pos (by omega)]
      exact ⟨_, rfl⟩
    · have hin' : patbl.pv.inArray (a.word eh) = false := by simpa using hin
      obtain ⟨lst', hins, -⟩ := (hlist.kept _ hin').insert att (hlst hin')
      rw [if_neg hin, hins]
      exact ⟨_, rfl⟩

/-- Attributes are added if the array has room for them and no tag comes to the list a third
time. -/
theorem addTokens_ok {pv : AttVendor} {patbl : AttributeTbl} {arr : List (Nat × Attribute)}
    {occ : Nat → List Attribute} {as : List AttToken} (harr : ArrayKept patbl arr)
    (hlist : ListKept patbl occ) (hpv : patbl.pv = pv) (hknown : ∀ a ∈ as, a.Known pv)
    (hnodup : ((arr ++ arrayPart eh pv as).map Prod.fst).Nodup)
    (hroom : (arr ++ arrayPart eh pv as).length ≤ pv.capacity)
    (hlst : ∀ tag, pv.inArray tag = false → (occ tag ++ meanings tag as).length ≤ 2) :
    ∃ patbl', addTokens eh patbl as = .ok patbl' := by
  induction as generalizing patbl arr occ with
  | nil => exact ⟨patbl, rfl⟩
  | cons a as ih =>
    subst hpv
    have ha := hknown a (by simp)
    obtain ⟨att, hatt⟩ := ha.exists_meaning
    have hword : a.word eh = a.tag.value := ha.word
    have hpart : arrayPart eh patbl.pv (a :: as) = _ := arrayPart_known_cons ha hatt as
    obtain ⟨patbl', hadd⟩ : ∃ patbl', addToken eh patbl a = .ok patbl' := by
      apply addToken_ok harr hlist
      · intro hin att' hmem
        rw [hword] at hin hmem
        rw [hpart, if_pos hin, List.map_append, List.nodup_append] at hnodup
        exact hnodup.2.2 _ (List.mem_map.mpr ⟨_, hmem, rfl⟩) _ (by simp) rfl
      · intro hin
        rw [hword] at hin
        rw [hpart, if_pos hin, List.length_append, List.length_cons] at hroom
        omega
      · intro hin
        rw [hword] at hin
        have := hlst _ hin
        rw [meanings_cons hatt, if_pos rfl, List.length_append, List.length_cons] at this
        rw [hword]
        omega
    have hpv' := addToken_pv hadd
    have hsplit : arr ++ arrayPart eh patbl.pv [a] ++ arrayPart eh patbl.pv as =
        arr ++ arrayPart eh patbl.pv (a :: as) := by
      rw [List.append_assoc, ← arrayPart_cons]
    obtain ⟨patbl'', hadds⟩ := ih (harr.addToken hadd) (hlist.addToken hadd) hpv'
      (fun x hx => hknown x (List.mem_cons_of_mem _ hx)) (by rwa [hsplit]) (by rwa [hsplit])
      (by
        intro tag hin
        have hocc : occurrences eh tag [a] = meanings tag [a] :=
          occurrences_eq (fun x hx => by rwa [List.mem_singleton.mp hx]) tag
        rw [hocc, List.append_assoc, ← meanings_append]
        exact hlst tag hin)
    exact ⟨patbl'', by rw [addTokens_cons as hadd, hadds]⟩

/-! ## A pass over a subsection -/

/-- The subsection at `n` is read and its attributes are added. -/
theorem subsection_ok {known : KnownVendors} {b : AttBuffer} {needswap : Bool} {st : SetState}
    {t : HeaderToken} {pv : AttVendor} {as : List AttToken} {l : Nat}
    {patbl patbl' : AttributeTbl} (h : SubsectionAt eh known b needswap st.n t pv as)
    (hs : (attBytes as).length < 2 ^ 31) (hslot : st.rval.slot pv = .ok (l, patbl))
    (hpv : patbl.pv = pv) (hadd : addTokens eh patbl as = .ok patbl') :
    subsection eh known b needswap st =
      .ok ⟨{ st.rval with attributes := st.rval.attributes.set l (some patbl') },
        eh.off (st.n + t.len + 1)⟩ := by
  obtain ⟨rest, hat⟩ := h.bytes
  have hsub := h.sublen
  have hbuf : b.at (st.n + (t.bytes (eh.fileBig needswap)).length) = attBytes as ++ rest :=
    AttBuffer.at_append hat
  have hread : pmelfPubFileAttributesRead eh patbl (attBytes as ++ rest)
      (t.sublen - (4 + t.tag.bytes.length)) = .ok patbl' := by
    rw [pmelfPubFileAttributesRead_tokens (by omega) (by omega) (by rw [hpv]; exact h.typed), hadd]
  unfold subsection
  rw [readHeader_token hat h.readable]
  show (if t.tag.word eh 0 0 = Tag_File then _ else _) = _
  rw [if_pos h.tag]
  show orReject _ (known.find t.name.bytes) >>= _ = _
  rw [h.vendor]
  show st.rval.slot pv >>= _ = _
  rw [hslot]
  show pmelfPubFileAttributesRead eh patbl (b.at (st.n + _)) (t.sublen - _) >>= _ = _
  rw [hbuf, hread]
  rfl

/-- The slot of the first vendor. -/
theorem slot_start (objName : CStr) (pv : AttVendor) :
    (SetState.start objName).rval.slot pv = .ok (0, .create pv) := rfl

/-! ## Streams that decode -/

/-- The reader accepts the stream, and the tables of its vendors give back the first value
of every tag and no other one. -/
def AttStream.Decodes {known : KnownVendors} {big : Bool} (eh : ElfHost) (needswap : Bool)
    (objName : CStr) (s : AttStream known big) : Prop :=
  ∃ passes set, pmelfReadAttributeSet eh known s.buffer needswap objName passes = some (.ok set) ∧
    (∀ v ∈ s.subsections, ∃ patbl, some patbl ∈ set.attributes ∧ patbl.pv = v.pv) ∧
    ∀ patbl, some patbl ∈ set.attributes →
      ∀ tag, patbl.getTagVal tag = (s.values patbl.pv.name tag).head?

/-- A subsection that says nothing new after its first subsubsection. -/
structure VendorSubsection.Readable (big : Bool) (v : VendorSubsection) : Prop where
  name : 6 + v.pv.name.bytes.length < 2 ^ 31
  body : (v.body big).length < 2 ^ 31
  /-- the values that go to the array find room -/
  array : (v.first.attrs.filter fun a => v.pv.inArray a.tag.value).length ≤ v.pv.capacity
  /-- the list keeps two entries of a tag, the second one in front -/
  compat : (meanings Tag_Compat v.first.attrs).length ≤ 2 ∧
    ∀ x ∈ meanings Tag_Compat v.first.attrs, ∀ y ∈ meanings Tag_Compat v.first.attrs, x = y
  more : ∀ a ∈ v.more.flatMap SubSubsection.attrs, a.tag.value = Tag_Compat ∧
    meanings Tag_Compat v.first.attrs ≠ []

/-- One subsection behind the format version, which is readable. -/
def AttStream.Readable {known : KnownVendors} {big : Bool} (s : AttStream known big) : Prop :=
  ∃ v, s.subsections = [v] ∧ v.Readable big

/-- No vendor has the name of a vendor without its first character. Otherwise a length whose
first byte is the format version could be taken for the beginning of a subsection. -/
def KnownVendors.NoTails (known : KnownVendors) : Prop :=
  ∀ pv ∈ known.list, ∀ pv' ∈ known.list, pv.name.bytes.tail ≠ pv'.name.bytes

theorem noTails_ppc : ppcVendors.NoTails := by
  intro pv hpv pv' hpv'
  have h : pv = pmelfAttributesVendorGnuPpc := by simpa [ppcVendors] using hpv
  have h' : pv' = pmelfAttributesVendorGnuPpc := by simpa [ppcVendors] using hpv'
  subst h h'
  decide

section

variable {known : KnownVendors} {needswap : Bool} {s : AttStream known (eh.fileBig needswap)}
  {v : VendorSubsection} {vs : List VendorSubsection}

/-- The values of a vendor with one subsection. -/
theorem AttStream.values_single (hs : s.subsections = [v]) (tag : Nat) :
    s.values v.pv.name tag =
      meanings tag v.first.attrs ++ meanings tag (v.more.flatMap SubSubsection.attrs) := by
  rw [values, vendorAttrs, hs, List.flatMap_singleton, if_pos rfl, VendorSubsection.attrs,
    VendorSubsection.subs, List.flatMap_cons, meanings_append]

theorem AttStream.more_known (hv : v ∈ s.subsections) :
    ∀ a ∈ v.more.flatMap SubSubsection.attrs, a.Known v.pv := by
  intro a ha
  obtain ⟨u, hu, ha⟩ := List.mem_flatMap.mp ha
  exact s.attrs v hv a (List.mem_flatMap.mpr ⟨u, List.mem_cons_of_mem _ hu, ha⟩)

/-- A tag that is not the compatibility tag has one value at most. -/
theorem AttStream.values_le_one (hs : s.subsections = [v]) {tag : Nat} (htag : tag ≠ Tag_Compat) :
    (s.values v.pv.name tag).length ≤ 1 := by
  have hmem : v ∈ s.subsections := by simp [hs]
  have hvalues : s.values v.pv.name tag = meanings tag v.attrs := by
    rw [values, vendorAttrs, hs, List.flatMap_singleton, if_pos rfl]
  have hdistinct := s.distinct v.pv.name
  rw [vendorAttrs, hs, List.flatMap_singleton, if_pos rfl] at hdistinct
  have hcount := List.nodup_iff_count_le_one.mp hdistinct tag
  rw [List.count_filter (by simpa using htag)] at hcount
  rw [hvalues, meanings_length (s.attrs v hmem)]
  exact hcount

/-- The first subsubsection has the tags of the array once. -/
theorem AttStream.arrayPart_nodup (hs : s.subsections = [v]) :
    ((arrayPart eh v.pv v.first.attrs).map Prod.fst).Nodup := by
  have hmem : v ∈ s.subsections := by simp [hs]
  rw [arrayPart_tags (first_known hmem)]
  refine List.nodup_iff_count_le_one.mpr fun tag => ?_
  by_cases hin : v.pv.inArray tag = true
  · have htag : tag ≠ Tag_Compat := by
      rintro rfl
      simp [AttVendor.inArray] at hin
    have hle := s.values_le_one hs htag
    rw [s.values_single hs, List.length_append, meanings_length (first_known hmem)] at hle
    rw [List.count_filter hin]
    omega
  · rw [List.count_eq_zero.mpr]
    · exact Nat.zero_le _
    · intro hmem'
      exact hin (List.mem_filter.mp hmem').2

/-- The first value of a tag is the first one of the first subsubsection. -/
theorem AttStream.values_head (hs : s.subsections = [v]) (hr : v.Readable (eh.fileBig needswap))
    (tag : Nat) : (s.values v.pv.name tag).head? = (meanings tag v.first.attrs).head? := by
  rw [s.values_single hs]
  cases hfirst : meanings tag v.first.attrs with
  | cons x l => rfl
  | nil =>
    suffices hmore : meanings tag (v.more.flatMap SubSubsection.attrs) = [] by rw [hmore]; rfl
    refine List.filterMap_eq_nil_iff.mpr fun a ha => ?_
    obtain ⟨hcompat, hne⟩ := hr.more a ha
    refine if_neg ?_
    rintro rfl
    rw [hcompat] at hfirst
    exact hne hfirst

/-- The entry in front of the list is the first one, if a tag with two entries has equal
values. -/
theorem AttStream.values_last (hs : s.subsections = [v]) (hr : v.Readable (eh.fileBig needswap))
    (tag : Nat) : (meanings tag v.first.attrs).getLast? = (meanings tag v.first.attrs).head? := by
  by_cases htag : tag = Tag_Compat
  · subst htag
    obtain ⟨hle, heq⟩ := hr.compat
    rcases hl : meanings Tag_Compat v.first.attrs with _ | ⟨x, _ | ⟨y, l⟩⟩
    · rfl
    · rfl
    · rw [hl] at hle heq
      have hnil : l = [] := by
        apply List.eq_nil_of_length_eq_zero
        simp only [List.length_cons] at hle
        omega
      subst hnil
      rw [heq x (by simp) y (by simp)]
      rfl
  · have hle := s.values_le_one hs htag
    rw [s.values_single hs, List.length_append] at hle
    rcases hl : meanings tag v.first.attrs with _ | ⟨x, _ | ⟨y, l⟩⟩
    · rfl
    · rfl
    · rw [hl] at hle
      simp only [List.length_cons] at hle
      omega

theorem ElfHost.off_of_lt {x : Nat} (h : x < 2 ^ 32) : eh.off x = x := by
  have hpow : 2 ^ 32 ≤ 2 ^ eh.dm.longBits := by
    apply Nat.pow_le_pow_right (by omega)
    cases eh.dm <;> decide
  exact Nat.mod_eq_of_lt (by omega)

/-- What the tables of a stream with one subsection give back. -/
theorem AttStream.getTagVal_first (hs : s.subsections = [v]) {patbl : AttributeTbl}
    (hadd : addTokens eh (.create v.pv) v.first.attrs = .ok patbl) (tag : Nat) :
    patbl.getTagVal tag =
      if v.pv.inArray tag = true then (meanings tag v.first.attrs).head?
      else (meanings tag v.first.attrs).getLast? := by
  have hmem : v ∈ s.subsections := by simp [hs]
  have hknown := first_known hmem
  have hpatbl : patbl.pv = v.pv := addTokens_pv hadd
  rw [getTagVal_kept ((ArrayKept.create v.pv).addTokens hadd)
    ((ListKept.create v.pv).addTokens hadd), hpatbl]
  show (if _ then ((arrayPart eh v.pv v.first.attrs).find? _).map _
    else (occurrences eh tag v.first.attrs).getLast?) = _
  rw [occurrences_eq hknown]
  by_cases hin : v.pv.inArray tag = true
  · rw [if_pos hin, if_pos hin, arrayPart_find hknown hin]
  · rw [if_neg hin, if_neg hin]

/-- What the reader sees of a readable stream. -/
theorem AttStream.subsectionAt (hs : s.subsections = [v])
    (hr : v.Readable (eh.fileBig needswap)) :
    ∃ t, t.len = v.len (eh.fileBig needswap) ∧
      SubsectionAt eh known s.buffer needswap 0 t v.pv v.first.attrs := by
  have hmem : v ∈ s.subsections := by simp [hs]
  have hsize := s.size_cons hs
  have hlt : s.buffer.size < 2 ^ 32 := s.size_lt
  obtain ⟨t, hlen, hname, htag, hsub, hat⟩ := s.front hs
  have hbody := congrArg List.length (v.body_cons (eh.fileBig needswap))
  simp only [List.length_append] at hbody
  rw [List.flatMap_nil, List.length_nil, VendorSubsection.len] at hsize
  have hbodylt := hr.body
  refine ⟨t, hlen, ⟨by omega, ⟨_, hat⟩, ⟨?_, ?_, ?_, ?_⟩, ?_, ?_, ?_, ?_⟩⟩
  · rw [hlen, VendorSubsection.len, ElfHost.off_of_lt (by omega)]
    omega
  · have hlt' := hr.name
    rw [hname]
    omega
  · rw [hname, asInt_of_lt (by omega), htag]
    omega
  · rw [hsub, htag, SubSubsection.len]
    omega
  · rw [htag]
    exact file_first hmem
  · rw [hname]
    exact KnownVendors.find_mem (s.registered v hmem)
  · rw [hsub, htag, SubSubsection.len]
  · exact fun a ha => (first_known hmem a ha).typed

/-- A readable stream decodes. -/
theorem AttStream.Readable.decodes (h : s.Readable) (objName : CStr) :
    s.Decodes eh needswap objName := by
  obtain ⟨v, hs, hr⟩ := h
  have hmem : v ∈ s.subsections := by simp [hs]
  have hpv := s.registered v hmem
  have hknown := first_known hmem
  obtain ⟨t, hlen, hsub⟩ := s.subsectionAt hs hr
  have hlt : s.buffer.size < 2 ^ 32 := s.size_lt
  have hsize := s.size_cons hs
  rw [List.flatMap_nil, List.length_nil] at hsize
  have hbody := congrArg List.length (v.body_cons (eh.fileBig needswap))
  simp only [List.length_append] at hbody
  have hbodylt := hr.body
  have hatts : (attBytes v.first.attrs).length < 2 ^ 31 := by omega
  obtain ⟨patbl, hadd⟩ : ∃ patbl, addTokens eh (.create v.pv) v.first.attrs = .ok patbl := by
    refine addTokens_ok (.create v.pv) (.create v.pv) rfl hknown (s.arrayPart_nodup hs) ?_ ?_
    · show (arrayPart eh v.pv v.first.attrs).length ≤ v.pv.capacity
      rw [arrayPart_length hknown]
      exact hr.array
    · intro tag _
      by_cases htag : tag = Tag_Compat
      · rw [htag]
        exact hr.compat.1
      · have hle := s.values_le_one hs htag
        rw [s.values_single hs, List.length_append] at hle
        rw [List.nil_append]
        omega
  have hpass : subsection eh known s.buffer needswap (.start objName) = _ :=
    subsection_ok hsub hatts (slot_start objName v.pv) rfl hadd
  have hend : eh.off ((SetState.start objName).n + t.len + 1) = s.buffer.size := by
    show eh.off (0 + t.len + 1) = _
    rw [hlen, ElfHost.off_of_lt (by omega)]
    omega
  rw [hend] at hpass
  have hpatbl : patbl.pv = v.pv := addTokens_pv hadd
  have hshape := (SetShape.start known objName).set (slot_start objName v.pv) hpv hpatbl
  have htables : ∀ u, u ∈ setTable [] 0 patbl ↔ u = patbl ∨ (u ∈ [] ∧ u.pv.name ≠ v.pv.name) :=
    fun u => (SetShape.start known objName).mem_setTable (slot_start objName v.pv)
  let set : AttributeSet := { (SetState.start objName).rval with
    attributes := (SetState.start objName).rval.attributes.set 0 (some patbl) }
  have hgo : s.buffer.going (.start objName) = true := decide_eq_true hsub.lt
  have hstop : s.buffer.going ⟨set, s.buffer.size⟩ = false :=
    decide_eq_false (Nat.lt_irrefl s.buffer.size)
  refine ⟨2, set, ?_, ?_, ?_⟩
  · rw [pmelfReadAttributeSet_eq (List.ne_nil_of_mem hpv), loop_pass ⟨hgo, hpass⟩,
      loop_done hstop]
    rfl
  · intro v' hv'
    rw [hs, List.mem_singleton] at hv'
    subst hv'
    exact ⟨patbl, hshape.mem.mpr ((htables _).mpr (.inl rfl)), hpatbl⟩
  · intro u hu tag
    have hu' : u = patbl := by
      rcases (htables _).mp (hshape.mem.mp hu) with hu' | ⟨hu', -⟩
      · exact hu'
      · cases hu'
    subst hu'
    rw [s.getTagVal_first hs hadd, hpatbl, s.values_head hs hr, s.values_last hs hr, ite_self]

/-! ## Streams that do not decode -/

theorem AttStream.not_subsectionAt_nil (hs : s.subsections = []) {t : HeaderToken}
    {pv : AttVendor} {as : List AttToken} :
    ¬SubsectionAt eh known s.buffer needswap 0 t pv as := by
  intro h
  obtain ⟨rest, hat⟩ := h.bytes
  have hfront : s.buffer.at 0 = [FORMAT_VERSION_A] := by
    show FORMAT_VERSION_A :: s.subsections.flatMap (VendorSubsection.bytes _) = _
    rw [hs]
    rfl
  have hlen := congrArg List.length (hfront.symm.trans hat)
  rw [List.length_append, t.bytes_length, List.length_singleton] at hlen
  omega

/-- What stands behind the first subsection is no subsection for the reader. -/
theorem not_subsectionAt_second (htails : known.NoTails) {b : AttBuffer} {n : Nat}
    {big : Bool} {rest : List UInt8} (hv : v.pv ∈ known.list) (hat : b.at n = v.bytes big ++ rest)
    {t : HeaderToken} {pv : AttVendor} {as : List AttToken} :
    ¬SubsectionAt eh known b needswap n t pv as := by
  intro h
  obtain ⟨rest', hat'⟩ := h.bytes
  rw [hat, VendorSubsection.bytes, HeaderToken.bytes] at hat'
  obtain ⟨b₀, b₁, b₂, b₃, hb⟩ := exists_wordBytes big (v.len big)
  obtain ⟨c₀, c₁, c₂, c₃, hc⟩ := exists_wordBytes (eh.fileBig needswap) t.len
  rw [hb, hc] at hat'
  simp only [List.cons_append, List.append_assoc, List.nil_append, List.cons.injEq] at hat'
  obtain ⟨-, -, -, -, hname⟩ := hat'
  obtain ⟨hpv, hsame⟩ := KnownVendors.find_some h.vendor
  cases hbytes : v.pv.name.bytes with
  | nil => exact htails v.pv hv v.pv hv (by rw [hbytes]; rfl)
  | cons c l =>
    rw [hbytes, List.cons_append, List.cons.injEq] at hname
    have hnul : 0 ∉ l := by
      intro hmem
      apply v.pv.name.noNul
      rw [hbytes]
      exact List.mem_cons_of_mem _ hmem
    have heq : (⟨l, hnul⟩ : CStr) = t.name := (CStr.append_inj hname.2).1
    apply htails v.pv hv pv hpv
    rw [hbytes, hsame, ← heq]
    rfl

/-- What the reader finds at the beginning is the first subsubsection. -/
theorem AttStream.subsectionAt_first (hs : s.subsections = v :: vs) {t : HeaderToken}
    {pv : AttVendor} {as : List AttToken}
    (h : SubsectionAt eh known s.buffer needswap 0 t pv as) :
    t.len = v.len (eh.fileBig needswap) ∧ t.name = v.pv.name ∧ pv = v.pv ∧
      as = v.first.attrs := by
  have hmem : v ∈ s.subsections := by simp [hs]
  obtain ⟨rest, hat⟩ := h.bytes
  obtain ⟨t', hlen, hname, htag, hsub, hat'⟩ := s.front hs
  obtain ⟨rfl, hatts⟩ := HeaderToken.append_inj (hat.symm.trans hat')
  have hvendor := h.vendor
  rw [hname, KnownVendors.find_mem (s.registered v hmem)] at hvendor
  have hpv : v.pv = pv := Option.some.inj hvendor
  subst hpv
  refine ⟨hlen, hname, rfl, ?_⟩
  have hsub' := h.sublen
  rw [hsub, htag, SubSubsection.len] at hsub'
  exact attBytes_inj h.typed (fun a ha => (first_known hmem a ha).typed) hatts (by omega)

/-- A stream that is read has one subsection, and its first attributes are in a table. -/
theorem AttStream.read_single (htails : known.NoTails) {objName : CStr} {passes : Nat}
    {set : AttributeSet}
    (h : pmelfReadAttributeSet eh known s.buffer needswap objName passes = some (.ok set)) :
    ∃ v t patbl, s.subsections = [v] ∧
      SubsectionAt eh known s.buffer needswap 0 t v.pv v.first.attrs ∧
      addTokens eh (.create v.pv) v.first.attrs = .ok patbl ∧ some patbl ∈ set.attributes := by
  have hlt : s.buffer.size < 2 ^ 32 := s.size_lt
  have hpos : 0 < s.buffer.size := Nat.succ_pos _
  have hnil : known.list ≠ [] := by
    intro hnil
    rw [pmelfReadAttributeSet, if_pos hnil] at h
    cases h
  obtain ⟨ss, hwalk, hkept⟩ := readAttributeSet_kept h
  rw [pmelfReadAttributeSet_eq hnil] at h
  obtain ⟨r, hloop, hr⟩ := Option.map_eq_some_iff.mp h
  have hgo : s.buffer.going (.start objName) = true := decide_eq_true hpos
  cases hwalk with
  | done _ hn => omega
  | sub _ t pv as ss hsub hss =>
    cases hs : s.subsections with
    | nil => exact absurd hsub (s.not_subsectionAt_nil hs)
    | cons v vs =>
      have hmem : v ∈ s.subsections := by simp [hs]
      have hpv := s.registered v hmem
      have hsize := s.size_cons hs
      obtain ⟨hlen, -, rfl, rfl⟩ := s.subsectionAt_first hs hsub
      have hend : eh.off (0 + t.len + 1) = 1 + v.len (eh.fileBig needswap) := by
        rw [hlen, ElfHost.off_of_lt (by omega)]
        omega
      have hvs : vs = [] := by
        cases vs with
        | nil => rfl
        | cons w ws =>
          rw [hend] at hss
          have hat := s.at_second hs
          rw [List.flatMap_cons] at hat
          have hpos' : 0 < w.len (eh.fileBig needswap) := by
            rw [VendorSubsection.len]
            omega
          rw [List.flatMap_cons, List.length_append, w.bytes_length] at hsize
          cases hss with
          | done _ hn => omega
          | sub _ t' pv' as' ss' hsub' =>
            exact absurd hsub'
              (not_subsectionAt_second htails (s.registered w (by simp [hs])) hat)
      subst hvs
      rw [List.flatMap_nil, List.length_nil] at hsize
      cases passes with
      | zero => cases hloop
      | succ k =>
        cases hpass : subsection eh known s.buffer needswap (.start objName) with
        | error e =>
          rw [loop_stop hgo hpass] at hloop
          cases hloop
          cases hr
        | ok st =>
          obtain ⟨t', pv', as', l, patbl, patbl', hsub', hslot, hadd, rfl⟩ :=
            subsection_eq_ok hpos
              (fun l pv patbl hslot hpv => ((SetKept.start known objName).slot hslot hpv).1) hpass
          obtain ⟨rfl, rfl, rfl⟩ := hsub'.unique hsub
          rw [slot_start] at hslot
          cases hslot
          refine ⟨v, t', patbl', rfl, hsub, hadd, ?_⟩
          rw [loop_pass ⟨hgo, hpass⟩] at hloop
          have hstop : s.buffer.going ⟨{ (SetState.start objName).rval with
              attributes := (SetState.start objName).rval.attributes.set 0 (some patbl') },
              eh.off (0 + t'.len + 1)⟩ = false := by
            apply decide_eq_false
            show ¬eh.off (0 + t'.len + 1) < _
            rw [hend]
            omega
          cases k with
          | zero => cases hloop
          | succ k =>
            have hdone := (loop_done hstop k).symm.trans hloop
            rw [← Option.some.inj hdone] at hr
            cases hr
            simp [SetState.start, ATTR_MAX_VENDORS]

/-- A stream that decodes is readable. -/
theorem AttStream.Decodes.readable (htails : known.NoTails) {objName : CStr}
    (h : s.Decodes eh needswap objName) : s.Readable := by
  obtain ⟨passes, set, hread, -, hvals⟩ := h
  obtain ⟨v, t, patbl, hs, hsub, hadd, hmemset⟩ := s.read_single htails hread
  have hmem : v ∈ s.subsections := by simp [hs]
  have hknown := first_known hmem
  have hpatbl : patbl.pv = v.pv := addTokens_pv hadd
  have hsize := s.size_cons hs
  have hlt : s.buffer.size < 2 ^ 32 := s.size_lt
  rw [List.flatMap_nil, List.length_nil, VendorSubsection.len] at hsize
  obtain ⟨-, hname, -, -⟩ := s.subsectionAt_first hs hsub
  have hfirst : ∀ tag, (if v.pv.inArray tag = true then (meanings tag v.first.attrs).head?
      else (meanings tag v.first.attrs).getLast?) = (s.values v.pv.name tag).head? := by
    intro tag
    rw [← s.getTagVal_first hs hadd, hvals patbl hmemset, hpatbl]
  refine ⟨v, hs, ?_, ?_, ?_, ?_, ?_⟩
  · have hreadable := hsub.readable.name
    rw [hname] at hreadable
    omega
  · have hreadable := hsub.readable.tag
    have hpos := t.tag.bytes_pos
    rw [hname] at hreadable
    have := asInt_ge_lt hpos hreadable (by omega)
    omega
  · have hroom := ((ArrayKept.create v.pv).addTokens hadd).room
    rw [hpatbl] at hroom
    change (arrayPart eh v.pv v.first.attrs).length ≤ _ at hroom
    rwa [arrayPart_length hknown] at hroom
  · have hin : v.pv.inArray Tag_Compat = false := by simp [AttVendor.inArray]
    have hlen := (((ListKept.create v.pv).addTokens hadd).kept Tag_Compat
      (by rw [hpatbl]; exact hin)).length
    change (occurrences eh Tag_Compat v.first.attrs).length ≤ 2 at hlen
    rw [occurrences_eq hknown] at hlen
    refine ⟨hlen, ?_⟩
    have heq := hfirst Tag_Compat
    rw [hin, if_neg (by simp), s.values_single hs] at heq
    rcases hl : meanings Tag_Compat v.first.attrs with _ | ⟨x, _ | ⟨y, l⟩⟩
    · simp
    · simp
    · rw [hl] at heq hlen
      have hnil : l = [] := by
        apply List.eq_nil_of_length_eq_zero
        simp only [List.length_cons] at hlen
        omega
      subst hnil
      have hxy : y = x := Option.some.inj heq
      simp [hxy]
  · intro a ha
    obtain ⟨att, hatt⟩ := (s.more_known hmem a ha).exists_meaning
    have hmore : att ∈ meanings a.tag.value (v.more.flatMap SubSubsection.attrs) :=
      List.mem_filterMap.mpr ⟨a, ha, by rw [if_pos rfl, hatt]⟩
    have hne : meanings a.tag.value v.first.attrs ≠ [] := by
      intro hnil
      have heq := hfirst a.tag.value
      rw [hnil, s.values_single hs, hnil, List.nil_append] at heq
      simp only [List.head?_nil, List.getLast?_nil, ite_self] at heq
      rw [List.head?_eq_none_iff.mp heq.symm] at hmore
      cases hmore
    have htag : a.tag.value = Tag_Compat := by
      by_contra htag
      have hle := s.values_le_one hs htag
      rw [s.values_single hs, List.length_append] at hle
      have hpos := List.length_pos_of_mem hmore
      have hpos' := List.length_pos_of_ne_nil hne
      omega
    rw [htag] at hne
    exact ⟨htag, hne⟩

end

/-! ## Streams of the PowerPC vendor -/

theorem small_last (d : Fin 128) : (Uleb.last d).value < 2 ^ 32 := d.isLt.trans (by decide)

theorem known_gnu_num {t : Fin 128} (d : Fin 128) (ht : t = 4 ∨ t = 8) :
    AttToken.Known pmelfAttributesVendorGnuPpc ⟨.last t, .num (.last d)⟩ := by
  refine ⟨small_last t, small_last d, ?_, by simp⟩
  rcases ht with rfl | rfl <;> rfl

theorem known_gnu_compat (d : Fin 128) (s : CStr) :
    AttToken.Known pmelfAttributesVendorGnuPpc ⟨.last 32, .both (.last d) s⟩ :=
  ⟨small_last 32, small_last d, rfl, by simp⟩

/-- The compatibility entry with the number 1 and the vendor itself. -/
def compatGnu : AttToken := ⟨.last 32, .both (.last 1) pmelfAttributesVendorGnuPpc.name⟩

/-- The tags 4 and 8 and the compatibility tag, which comes again in a second subsubsection. -/
def gnuStream : AttStream ppcVendors ((plainElfHost .lp64 false).fileBig false) where
  subsections := [⟨pmelfAttributesVendorGnuPpc,
    ⟨.last 1, [⟨.last 4, .num (.last 1)⟩, ⟨.last 8, .num (.last 2)⟩, compatGnu]⟩,
    [⟨.last 1, [compatGnu]⟩]⟩]
  registered := by simp [ppcVendors]
  file := by simp [VendorSubsection.subs, Uleb.value, Tag_File]
  attrs := by
    intro v hv a ha
    have hv' := List.mem_singleton.mp hv
    subst hv'
    have ha' : a = ⟨.last 4, .num (.last 1)⟩ ∨ a = ⟨.last 8, .num (.last 2)⟩ ∨ a = compatGnu := by
      simpa [VendorSubsection.attrs, VendorSubsection.subs] using ha
    rcases ha' with rfl | rfl | rfl
    · exact known_gnu_num 1 (.inl rfl)
    · exact known_gnu_num 2 (.inr rfl)
    · exact known_gnu_compat 1 _
  distinct := by
    intro name
    unfold vendorAttrs
    rw [List.flatMap_singleton]
    split
    · decide
    · decide
  size_lt := by decide

/-- A readable stream decodes, and where no vendor name is the tail of another one nothing
else does. -/
theorem attribute_stream (eh : ElfHost) (known : KnownVendors) (needswap : Bool) (objName : CStr)
    (s : AttStream known (eh.fileBig needswap)) :
    (s.Readable → s.Decodes eh needswap objName) ∧
      (known.NoTails → s.Decodes eh needswap objName → s.Readable) :=
  ⟨fun h => h.decodes objName, fun htails h => h.readable htails⟩

theorem attribute_stream_gnu :
    gnuStream.Decodes (plainElfHost .lp64 false) false ⟨[], by decide⟩ := by
  refine (attribute_stream _ ppcVendors false _ gnuStream).1 ⟨_, rfl, ?_⟩
  refine ⟨by decide, by decide, by decide, ⟨by decide, ?_⟩, ?_⟩
  · decide
  · decide

/-! ## A stream whose second subsubsection is lost -/

/-- The tag 4 in the first subsubsection, and the tag 8 in the second one. -/
def twoSubSubsections : AttStream ppcVendors ((plainElfHost .lp64 false).fileBig false) where
  subsections := [⟨pmelfAttributesVendorGnuPpc, ⟨.last 1, [⟨.last 4, .num (.last 1)⟩]⟩,
    [⟨.last 1, [⟨.last 8, .num (.last 1)⟩]⟩]⟩]
  registered := by simp [ppcVendors]
  file := by simp [VendorSubsection.subs, Uleb.value, Tag_File]
  attrs := by
    intro v hv a ha
    have hv' := List.mem_singleton.mp hv
    subst hv'
    have ha' : a = ⟨.last 4, .num (.last 1)⟩ ∨ a = ⟨.last 8, .num (.last 1)⟩ := by
      simpa [VendorSubsection.attrs, VendorSubsection.subs] using ha
    rcases ha' with rfl | rfl
    · exact known_gnu_num 1 (.inl rfl)
    · exact known_gnu_num 1 (.inr rfl)
  distinct := by
    intro name
    unfold vendorAttrs
    rw [List.flatMap_singleton]
    split
    · decide
    · decide
  size_lt := by decide

theorem second_subSubsection_lost :
    ¬twoSubSubsections.Decodes (plainElfHost .lp64 false) false ⟨[], by decide⟩ := by
  intro h
  obtain ⟨v, hs, hr⟩ := h.readable noTails_ppc
  cases hs
  have htag := (hr.more ⟨.last 8, .num (.last 1)⟩ (by simp)).1
  cases htag

end Cexp
