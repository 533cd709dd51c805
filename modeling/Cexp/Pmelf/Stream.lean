import Cexp.Pmelf.Sets

/-!
# Attribute streams

The grammar of `attrP.h`, for streams with file attributes only: a format version, and behind
it vendor subsections, each with one or more subsubsections. An `AttStream` is such a stream
for registered vendors, with numbers of at most 32 bits; what it encodes (`AttStream.values`)
is said without the reader.
-/

namespace Cexp

open CLib

variable {eh : ElfHost}

/-! ## The grammar -/

/-- The attribute that the values stand for. -/
def AttValue.meaning : AttValue → Option Attribute
  | none => Option.none
  | num i => some ⟨i.value, Option.none⟩
  | str s => some ⟨0, some s.bytes⟩
  | both i s => some ⟨i.value, some s.bytes⟩

/-- Numbers have at most 32 bits. -/
def AttValue.Small : AttValue → Prop
  | none => True
  | num i => i.value < 2 ^ 32
  | str _ => True
  | both i _ => i.value < 2 ^ 32

structure SubSubsection where
  tag : Uleb
  attrs : List AttToken

/-- The length includes the tag and itself. -/
def SubSubsection.len (s : SubSubsection) : Nat :=
  4 + s.tag.bytes.length + (attBytes s.attrs).length

def SubSubsection.bytes (big : Bool) (s : SubSubsection) : List UInt8 :=
  s.tag.bytes ++ (wordBytes big s.len ++ attBytes s.attrs)

/-- A subsection of a vendor, with one subsubsection at least. -/
structure VendorSubsection where
  pv : AttVendor
  first : SubSubsection
  more : List SubSubsection

namespace VendorSubsection

def subs (v : VendorSubsection) : List SubSubsection := v.first :: v.more

def body (big : Bool) (v : VendorSubsection) : List UInt8 :=
  v.subs.flatMap (SubSubsection.bytes big)

/-- The length includes itself. -/
def len (big : Bool) (v : VendorSubsection) : Nat :=
  4 + (v.pv.name.bytes.length + 1) + (v.body big).length

def bytes (big : Bool) (v : VendorSubsection) : List UInt8 :=
  wordBytes big (v.len big) ++ (v.pv.name.bytes ++ 0 :: v.body big)

def attrs (v : VendorSubsection) : List AttToken := v.subs.flatMap SubSubsection.attrs

theorem bytes_length (big : Bool) (v : VendorSubsection) : (v.bytes big).length = v.len big := by
  rw [bytes, List.length_append, wordBytes_length, List.length_append, List.length_cons, len]
  omega

theorem body_cons (big : Bool) (v : VendorSubsection) :
    v.body big = v.first.tag.bytes ++ (wordBytes big v.first.len ++
      (attBytes v.first.attrs ++ v.more.flatMap (SubSubsection.bytes big))) := by
  rw [body, subs, List.flatMap_cons, SubSubsection.bytes, List.append_assoc, List.append_assoc]

end VendorSubsection

/-- The attributes of a vendor in subsections, in their order. -/
def vendorAttrs (name : CStr) (vs : List VendorSubsection) : List AttToken :=
  vs.flatMap fun v => if v.pv.name = name then v.attrs else []

/-- The values of a tag among attributes, in their order. -/
def meanings (tag : Nat) (as : List AttToken) : List Attribute :=
  as.filterMap fun a => if a.tag.value = tag then a.value.meaning else none

/-- An attribute of a known tag, with the values that the vendor announces. -/
structure AttToken.Known (pv : AttVendor) (a : AttToken) : Prop where
  tag : a.tag.value < 2 ^ 32
  value : a.value.Small
  type : pv.attType a.tag.value = a.value.type
  valued : a.value ≠ .none

/-- A stream with file attributes of registered vendors. Only the compatibility tag comes
more than once. -/
structure AttStream (known : KnownVendors) (big : Bool) where
  subsections : List VendorSubsection
  registered : ∀ v ∈ subsections, v.pv ∈ known.list
  file : ∀ v ∈ subsections, ∀ s ∈ v.subs, s.tag.value = Tag_File
  attrs : ∀ v ∈ subsections, ∀ a ∈ v.attrs, a.Known v.pv
  distinct : ∀ name, (((vendorAttrs name subsections).map fun a => a.tag.value).filter
    fun tag => tag ≠ Tag_Compat).Nodup
  size_lt : (FORMAT_VERSION_A :: subsections.flatMap (VendorSubsection.bytes big)).length < 2 ^ 32

namespace AttStream

variable {known : KnownVendors} {big : Bool}

def buffer (s : AttStream known big) : AttBuffer :=
  ⟨FORMAT_VERSION_A :: s.subsections.flatMap (VendorSubsection.bytes big), s.size_lt⟩

/-- The values that the stream gives to a tag of a vendor. -/
def values (s : AttStream known big) (name : CStr) (tag : Nat) : List Attribute :=
  meanings tag (vendorAttrs name s.subsections)

end AttStream

/-! ## What the reader makes of the numbers -/

theorem Uleb.word_value {u : Uleb} (h : u.value < 2 ^ 32) : u.word eh 0 0 = u.value := by
  rw [u.word_eq (by simp) (by simpa using h)]
  simp

namespace AttToken.Known

variable {pv : AttVendor} {a : AttToken}

theorem word (h : a.Known pv) : a.word eh = a.tag.value := Uleb.word_value h.tag

theorem typed (h : a.Known pv) : a.Typed eh pv := by
  rw [AttToken.Typed, h.word]
  exact h.type

theorem toAttribute (h : a.Known pv) : a.value.toAttribute eh = a.value.meaning := by
  have hsmall := h.value
  cases hv : a.value with
  | none => rfl
  | num i =>
    rw [hv] at hsmall
    rw [AttValue.toAttribute, Uleb.word_value hsmall, AttValue.meaning]
  | str s => rfl
  | both i s =>
    rw [hv] at hsmall
    rw [AttValue.toAttribute, Uleb.word_value hsmall, AttValue.meaning]

theorem exists_meaning (h : a.Known pv) : ∃ att, a.value.meaning = some att := by
  have hvalued := h.valued
  cases hv : a.value with
  | none => exact absurd hv hvalued
  | num i => exact ⟨_, rfl⟩
  | str s => exact ⟨_, rfl⟩
  | both i s => exact ⟨_, rfl⟩

end AttToken.Known

/-! ## The values of known attributes -/

theorem meanings_append (tag : Nat) (as as' : List AttToken) :
    meanings tag (as ++ as') = meanings tag as ++ meanings tag as' := List.filterMap_append

theorem occurrences_eq {pv : AttVendor} {as : List AttToken} (h : ∀ a ∈ as, a.Known pv)
    (tag : Nat) : occurrences eh tag as = meanings tag as := by
  apply List.filterMap_congr
  intro a ha
  rw [(h a ha).word, (h a ha).toAttribute]

theorem meanings_cons {a : AttToken} {att : Attribute} (hatt : a.value.meaning = some att)
    (tag : Nat) (as : List AttToken) :
    meanings tag (a :: as) =
      if a.tag.value = tag then att :: meanings tag as else meanings tag as := by
  unfold meanings
  by_cases htag : a.tag.value = tag
  · simp [htag, hatt]
  · simp [htag]

/-- A tag has as many values as it has attributes. -/
theorem meanings_length {pv : AttVendor} {as : List AttToken} (h : ∀ a ∈ as, a.Known pv)
    (tag : Nat) : (meanings tag as).length = (as.map fun a => a.tag.value).count tag := by
  induction as with
  | nil => rfl
  | cons a as ih =>
    obtain ⟨att, hatt⟩ := (h a (by simp)).exists_meaning
    have ih := ih fun x hx => h x (List.mem_cons_of_mem _ hx)
    rw [meanings_cons hatt, List.map_cons, List.count_cons, ← ih]
    by_cases htag : a.tag.value = tag
    · simp [htag]
    · simp [htag]

theorem arrayPart_known_cons {pv : AttVendor} {a : AttToken} {att : Attribute} (ha : a.Known pv)
    (hatt : a.value.meaning = some att) (as : List AttToken) :
    arrayPart eh pv (a :: as) =
      if pv.inArray a.tag.value = true then (a.tag.value, att) :: arrayPart eh pv as
      else arrayPart eh pv as := by
  unfold arrayPart
  rw [List.filterMap_cons, ha.word, ha.toAttribute, hatt]
  by_cases harr : pv.inArray a.tag.value = true
  · simp [harr]
  · simp [harr]

/-- What goes to the array is found there by its tag. -/
theorem arrayPart_find {pv : AttVendor} {as : List AttToken} (h : ∀ a ∈ as, a.Known pv)
    {tag : Nat} (htag : pv.inArray tag = true) :
    ((arrayPart eh pv as).find? fun el => el.1 = tag).map Prod.snd = (meanings tag as).head? := by
  induction as with
  | nil => rfl
  | cons a as ih =>
    have ha := h a (by simp)
    obtain ⟨att, hatt⟩ := ha.exists_meaning
    have ih := ih fun x hx => h x (List.mem_cons_of_mem _ hx)
    rw [arrayPart_known_cons ha hatt, meanings_cons hatt]
    by_cases hsame : a.tag.value = tag
    · rw [hsame, if_pos htag, if_pos rfl, List.find?_cons_of_pos (by simp)]
      rfl
    · rw [if_neg hsame, ← ih]
      by_cases harr : pv.inArray a.tag.value = true
      · rw [if_pos harr, List.find?_cons_of_neg (by simpa using hsame)]
      · rw [if_neg harr]

theorem arrayPart_tags {pv : AttVendor} {as : List AttToken} (h : ∀ a ∈ as, a.Known pv) :
    (arrayPart eh pv as).map Prod.fst =
      (as.map fun a => a.tag.value).filter fun tag => pv.inArray tag := by
  induction as with
  | nil => rfl
  | cons a as ih =>
    have ha := h a (by simp)
    obtain ⟨att, hatt⟩ := ha.exists_meaning
    have ih := ih fun x hx => h x (List.mem_cons_of_mem _ hx)
    rw [arrayPart_known_cons ha hatt, List.map_cons]
    by_cases harr : pv.inArray a.tag.value = true
    · rw [if_pos harr, List.map_cons, ih, List.filter_cons_of_pos harr]
    · rw [if_neg harr, ih, List.filter_cons_of_neg harr]

theorem arrayPart_length {pv : AttVendor} {as : List AttToken} (h : ∀ a ∈ as, a.Known pv) :
    (arrayPart eh pv as).length = (as.filter fun a => pv.inArray a.tag.value).length := by
  have hlen : ((arrayPart eh pv as).map Prod.fst).length = _ :=
    congrArg List.length (arrayPart_tags h)
  rw [List.length_map, List.filter_map, List.length_map] at hlen
  exact hlen

/-! ## Streams and headers -/

namespace AttStream

variable {known : KnownVendors} {big : Bool}

/-- The front of a stream is what the reader takes for a header, and behind it are the
attributes of the first subsubsection. -/
theorem front {s : AttStream known big} {v : VendorSubsection} {vs : List VendorSubsection}
    (hs : s.subsections = v :: vs) :
    ∃ t : HeaderToken, t.len = v.len big ∧ t.name = v.pv.name ∧ t.tag = v.first.tag ∧
      t.sublen = v.first.len ∧
      s.buffer.at 0 = t.bytes big ++ (attBytes v.first.attrs ++
        (v.more.flatMap (SubSubsection.bytes big) ++ vs.flatMap (VendorSubsection.bytes big))) := by
  have hsize := s.size_lt
  rw [hs, List.flatMap_cons, List.length_cons, List.length_append, v.bytes_length] at hsize
  have hbody := congrArg List.length (v.body_cons big)
  simp only [List.length_append] at hbody
  have hword := wordBytes_length big v.first.len
  refine ⟨⟨v.len big, v.pv.name, v.first.tag, v.first.len, by omega, ?_⟩, rfl, rfl, rfl, rfl, ?_⟩
  · rw [VendorSubsection.len] at hsize
    rw [SubSubsection.len]
    omega
  · have hbytes : v.bytes big = wordBytes big (v.len big) ++ (v.pv.name.bytes ++ 0 ::
        (v.first.tag.bytes ++ (wordBytes big v.first.len ++
          (attBytes v.first.attrs ++ v.more.flatMap (SubSubsection.bytes big))))) := by
      rw [← v.body_cons]
      rfl
    show FORMAT_VERSION_A :: s.subsections.flatMap (VendorSubsection.bytes big) = _
    rw [hs, List.flatMap_cons, hbytes, HeaderToken.bytes, HeaderToken.tail]
    simp

theorem size_cons {s : AttStream known big} {v : VendorSubsection} {vs : List VendorSubsection}
    (hs : s.subsections = v :: vs) :
    s.buffer.size =
      1 + v.len big + (vs.flatMap (VendorSubsection.bytes big)).length := by
  show (FORMAT_VERSION_A :: s.subsections.flatMap (VendorSubsection.bytes big)).length = _
  rw [hs, List.flatMap_cons, List.length_cons, List.length_append, v.bytes_length]
  omega

/-- Behind the first subsection. -/
theorem at_second {s : AttStream known big} {v : VendorSubsection} {vs : List VendorSubsection}
    (hs : s.subsections = v :: vs) :
    s.buffer.at (1 + v.len big) = vs.flatMap (VendorSubsection.bytes big) := by
  have hfront : s.buffer.at 0 = (FORMAT_VERSION_A :: v.bytes big) ++
      vs.flatMap (VendorSubsection.bytes big) := by
    show FORMAT_VERSION_A :: s.subsections.flatMap (VendorSubsection.bytes big) = _
    rw [hs, List.flatMap_cons, List.cons_append]
  have hat := AttBuffer.at_append hfront
  rw [List.length_cons, v.bytes_length] at hat
  rw [← hat]
  congr 1
  omega

theorem file_first {s : AttStream known big} {v : VendorSubsection} (hv : v ∈ s.subsections) :
    v.first.tag.word eh 0 0 = Tag_File := by
  have hfile := s.file v hv v.first (by simp [VendorSubsection.subs])
  rw [Uleb.word_value (by rw [hfile]; decide), hfile]

theorem first_known {s : AttStream known big} {v : VendorSubsection} (hv : v ∈ s.subsections) :
    ∀ a ∈ v.first.attrs, a.Known v.pv := fun a ha =>
  s.attrs v hv a (List.mem_flatMap.mpr ⟨v.first, by simp [VendorSubsection.subs], ha⟩)

end AttStream

end Cexp
