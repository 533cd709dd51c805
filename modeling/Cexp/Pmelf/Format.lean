import Cexp.Pmelf.Reader

/-!
# The attribute format

The format that `attrP.h` describes, in its smallest pieces: numbers of variable length
(`Uleb`), strings, the values of an attribute, an attribute, and the header that the reader
expects in front of the attributes. A piece knows its bytes, and for each piece there is
what the reader does with its bytes (`readValue_value`, `pubAttribute_token`,
`readHeader_token`) and that it accepts nothing but the bytes of a piece (`readValue_eq_ok`,
`readHeader_eq_ok`).
-/

namespace Cexp

open CLib

variable {eh : ElfHost}

/-! ## Words -/

theorem wordBytes_length (big : Bool) (w : Nat) : (wordBytes big w).length = 4 := by
  cases big <;> rfl

theorem exists_wordBytes (big : Bool) (w : Nat) :
    ∃ b₀ b₁ b₂ b₃, wordBytes big w = [b₀, b₁, b₂, b₃] := by
  cases big <;> exact ⟨_, _, _, _, rfl⟩

/-- Four bytes are the bytes of the word that they mean. -/
theorem wordBytes_fileWord (big : Bool) (b₀ b₁ b₂ b₃ : UInt8) :
    wordBytes big (fileWord big b₀ b₁ b₂ b₃) = [b₀, b₁, b₂, b₃] := by
  have hbytes : ∀ c₀ c₁ c₂ c₃ : UInt8,
      [UInt8.ofNat (wordLE c₀ c₁ c₂ c₃), UInt8.ofNat (wordLE c₀ c₁ c₂ c₃ / 2 ^ 8),
        UInt8.ofNat (wordLE c₀ c₁ c₂ c₃ / 2 ^ 16), UInt8.ofNat (wordLE c₀ c₁ c₂ c₃ / 2 ^ 24)]
        = [c₀, c₁, c₂, c₃] := by
    intro c₀ c₁ c₂ c₃
    have h₀ := c₀.toNat_lt
    have h₁ := c₁.toNat_lt
    have h₂ := c₂.toNat_lt
    have h₃ := c₃.toNat_lt
    simp only [List.cons.injEq, and_true, ← UInt8.toNat_inj, UInt8.toNat_ofNat', wordLE]
    omega
  cases big with
  | false => exact hbytes b₀ b₁ b₂ b₃
  | true =>
    show List.reverse _ = _
    rw [fileWord, if_pos rfl, hbytes]
    rfl

theorem pmelfGetword_wordBytes (needswap : Bool) {w : Nat} (hw : w < 2 ^ 32)
    (rest : List UInt8) {x : Nat} (h₄ : 4 ≤ x) (hx : x < 2 ^ 32) (nm : WordName) :
    pmelfGetword eh needswap (wordBytes (eh.fileBig needswap) w ++ rest) (asInt x) nm = .ok w := by
  obtain ⟨b₀, b₁, b₂, b₃, hb⟩ := exists_wordBytes (eh.fileBig needswap) w
  rw [hb]
  exact (pmelfGetword_cons needswap b₀ b₁ b₂ b₃ rest h₄ hx nm).trans
    (congrArg _ (fileWord_wordBytes hw hb))

/-- A word is read inside the buffer: it is at its front, or the buffer is too short. -/
theorem pmelfGetword_buffer (eh : ElfHost) (needswap : Bool) (buf : List UInt8)
    (hbuf : buf.length < 2 ^ 32) (nm : WordName) :
    (∃ w rest, w < 2 ^ 32 ∧ buf = wordBytes (eh.fileBig needswap) w ++ rest ∧
      pmelfGetword eh needswap buf (asInt buf.length) nm = .ok w) ∨
    (buf.length < 4 ∧ pmelfGetword eh needswap buf (asInt buf.length) nm = reject (.word nm)) := by
  by_cases h : buf.length < 4
  · exact .inr ⟨h, pmelfGetword_short h nm⟩
  · obtain ⟨b₀, b₁, b₂, b₃, rest, rfl⟩ : ∃ b₀ b₁ b₂ b₃ rest, buf = b₀ :: b₁ :: b₂ :: b₃ :: rest := by
      rcases buf with _ | ⟨b₀, _ | ⟨b₁, _ | ⟨b₂, _ | ⟨b₃, rest⟩⟩⟩⟩
      · simp at h
      · simp at h
      · simp at h
      · simp at h
      · exact ⟨b₀, b₁, b₂, b₃, rest, rfl⟩
    refine .inl ⟨_, rest, fileWord_lt _ _ _ _ _, ?_, pmelfGetword_cons needswap b₀ b₁ b₂ b₃ rest
      (by omega) hbuf nm⟩
    rw [wordBytes_fileWord]
    rfl

/-! ## Values -/

/-- The values of an attribute, as they stand in a stream. -/
inductive AttValue where
  | none
  | num (i : Uleb)
  | str (s : CStr)
  | both (i : Uleb) (s : CStr)
  deriving DecidableEq

namespace AttValue

def type : AttValue → AttType
  | none => .none
  | num _ => .num
  | str _ => .str
  | both _ _ => .both

def bytes : AttValue → List UInt8
  | none => []
  | num i => i.bytes
  | str s => s.bytes ++ [0]
  | both i s => i.bytes ++ (s.bytes ++ [0])

/-- What the reader makes of the values. -/
def toAttribute (eh : ElfHost) : AttValue → Option Attribute
  | none => Option.none
  | num i => some ⟨i.word eh 0 0, Option.none⟩
  | str s => some ⟨0, some s.bytes⟩
  | both i s => some ⟨i.word eh 0 0, some s.bytes⟩

end AttValue

theorem readUleb_ok (c : Complaint) (u : Uleb) (rest : List UInt8) {size : Nat}
    (h : u.bytes.length ≤ size) (hs : size < 2 ^ 31) :
    readUleb eh c (u.bytes ++ rest) size = .ok (u.word eh 0 0, rest, size - u.bytes.length) := by
  rw [readUleb_uleb, asInt_of_lt hs, if_pos (by omega)]

theorem readStr_ok (s : CStr) (rest : List UInt8) (size : Nat) (h : s.bytes.length < size) :
    readStr (s.bytes ++ [0] ++ rest) size = .ok (s.bytes, rest, size - (s.bytes.length + 1)) := by
  rw [List.append_assoc, List.singleton_append, readStr_str _ _ s.noNul, if_pos h]

theorem readStr_eq_ok {buf : List UInt8} {size : Nat} {r : List UInt8 × List UInt8 × Nat}
    (h : readStr buf size = .ok r) :
    ∃ (s : CStr) (rest : List UInt8), buf = s.bytes ++ [0] ++ rest ∧ s.bytes.length < size ∧
      r = (s.bytes, rest, size - (s.bytes.length + 1)) := by
  rcases exists_str buf with ⟨str, rest, hstr, rfl⟩ | hs
  · rw [readStr_str str rest hstr] at h
    split at h
    · next hlt => exact ⟨⟨str, hstr⟩, rest, by simp, hlt, (Except.ok.inj h).symm⟩
    · split at h <;> cases h
  · rw [readStr_endless hs] at h
    split at h <;> cases h

theorem readValue_value (eh : ElfHost) (tag : Nat) (v : AttValue) (rest : List UInt8) (size : Nat)
    (h : v.bytes.length ≤ size) (hs : size < 2 ^ 31) :
    readValue eh tag v.type (v.bytes ++ rest) size =
      .ok (v.toAttribute eh, rest, size - v.bytes.length) := by
  cases v with
  | none => rfl
  | num i =>
    have hi : readUleb eh .ivalue (i.bytes ++ rest) size = _ := readUleb_ok .ivalue i rest h hs
    simp only [AttValue.type, AttValue.bytes, readValue, hi, AttValue.toAttribute]
    rfl
  | str s =>
    have hlen : s.bytes.length + 1 ≤ size := by simpa [AttValue.bytes] using h
    have hstr := readStr_ok s rest size hlen
    simp only [AttValue.type, AttValue.bytes, readValue, hstr, AttValue.toAttribute]
    simp [bind, Except.bind, pure, Except.pure]
  | both i s =>
    have hlen : i.bytes.length + (s.bytes.length + 1) ≤ size := by simpa [AttValue.bytes] using h
    have hi : readUleb eh .ivalue (i.bytes ++ (s.bytes ++ [0] ++ rest)) size = _ :=
      readUleb_ok .ivalue i _ (by omega) hs
    have hstr := readStr_ok s rest (size - i.bytes.length) (by omega)
    have hsub : size - i.bytes.length - (s.bytes.length + 1)
        = size - (i.bytes ++ (s.bytes ++ [0])).length := by
      simp only [List.length_append, List.length_singleton]
      omega
    rw [hsub] at hstr
    simp only [AttValue.type, AttValue.bytes, readValue, AttValue.toAttribute]
    rw [List.append_assoc, hi]
    show readStr _ _ >>= _ = _
    rw [hstr]
    rfl

theorem readValue_eq_ok {tag : Nat} {tagt : AttType} {buf buf' : List UInt8} {size size' : Nat}
    {att : Option Attribute} (h : readValue eh tag tagt buf size = .ok (att, buf', size')) :
    ∃ v : AttValue, v.type = tagt ∧ buf = v.bytes ++ buf' ∧ v.bytes.length ≤ size ∧
      att = v.toAttribute eh ∧ size' = size - v.bytes.length := by
  cases tagt with
  | unknown => cases h
  | none =>
    cases h
    exact ⟨.none, rfl, rfl, Nat.zero_le _, rfl, rfl⟩
  | num =>
    obtain ⟨r, hi, h⟩ := bind_eq_ok.mp h
    obtain ⟨i, rest, rfl, hle, rfl⟩ := readUleb_eq_ok hi
    cases h
    have := asInt_le size
    exact ⟨.num i, rfl, rfl, by simp only [AttValue.bytes]; omega, rfl, rfl⟩
  | str =>
    obtain ⟨r, hs, h⟩ := bind_eq_ok.mp h
    obtain ⟨s, rest, rfl, hlt, rfl⟩ := readStr_eq_ok hs
    cases h
    refine ⟨.str s, rfl, rfl, ?_, rfl, by simp [AttValue.bytes]⟩
    rw [AttValue.bytes, List.length_append, List.length_singleton]
    exact hlt
  | both =>
    obtain ⟨r, hi, h⟩ := bind_eq_ok.mp h
    obtain ⟨i, rest, rfl, hle, rfl⟩ := readUleb_eq_ok hi
    obtain ⟨r, hs, h⟩ := bind_eq_ok.mp h
    obtain ⟨s, rest', rfl, hlt, rfl⟩ := readStr_eq_ok hs
    cases h
    have := asInt_le size
    refine ⟨.both i s, rfl, by simp [AttValue.bytes], ?_, rfl, ?_⟩
    · simp only [AttValue.bytes, List.length_append, List.length_singleton]
      omega
    · simp only [AttValue.bytes, List.length_append, List.length_singleton]
      omega

/-! ## Pieces are told apart -/

theorem Uleb.append_inj {u u' : Uleb} {r r' : List UInt8} (h : u.bytes ++ r = u'.bytes ++ r') :
    u = u' ∧ r = r' := by
  have hlast : ∀ d d' : Fin 128, UInt8.ofNat d = UInt8.ofNat d' → d = d' := by
    intro d d' hd
    have := congrArg UInt8.toNat hd
    simp only [UInt8.toNat_ofNat'] at this
    omega
  have hmore : ∀ d d' : Fin 128, UInt8.ofNat (d + 128) = UInt8.ofNat (d' + 128) → d = d' := by
    intro d d' hd
    have := congrArg UInt8.toNat hd
    simp only [UInt8.toNat_ofNat'] at this
    omega
  have hmix : ∀ d d' : Fin 128, UInt8.ofNat d ≠ UInt8.ofNat (d' + 128) := by
    intro d d' hd
    apply (digit_last d).2
    rw [hd]
    exact (digit_more d').2
  induction u generalizing u' with
  | last d =>
    cases u' with
    | last d' =>
      obtain ⟨hd, hr⟩ := List.cons.inj h
      exact ⟨by rw [hlast d d' hd], hr⟩
    | more d' u' => exact absurd (List.cons.inj h).1 (hmix d d')
  | more d u ih =>
    cases u' with
    | last d' => exact absurd (List.cons.inj h).1.symm (hmix d' d)
    | more d' u' =>
      obtain ⟨hd, hr⟩ := List.cons.inj h
      obtain ⟨rfl, rfl⟩ := ih hr
      exact ⟨by rw [hmore d d' hd], rfl⟩

theorem CStr.append_inj {s s' : CStr} {r r' : List UInt8}
    (h : s.bytes ++ 0 :: r = s'.bytes ++ 0 :: r') : s = s' ∧ r = r' := by
  obtain ⟨l, hl⟩ := s
  obtain ⟨l', hl'⟩ := s'
  dsimp only at h
  have hgen : l = l' ∧ r = r' := by
    induction l generalizing l' with
    | nil =>
      cases l' with
      | nil => exact ⟨rfl, (List.cons.inj h).2⟩
      | cons c l' =>
        have hc : 0 = c := (List.cons.inj h).1
        exact absurd (by simp [hc]) hl'
    | cons c l ih =>
      cases l' with
      | nil =>
        have hc : c = 0 := (List.cons.inj h).1
        exact absurd (by simp [hc]) hl
      | cons c' l' =>
        obtain ⟨rfl, htail⟩ := List.cons.inj h
        obtain ⟨rfl, hr⟩ := ih (fun hm => hl (List.mem_cons_of_mem _ hm)) l'
          (fun hm => hl' (List.mem_cons_of_mem _ hm)) htail
        exact ⟨rfl, hr⟩
  exact ⟨CStr.ext hgen.1, hgen.2⟩

theorem wordBytes_inj {big : Bool} {w w' : Nat} (hw : w < 2 ^ 32) (hw' : w' < 2 ^ 32)
    (h : wordBytes big w = wordBytes big w') : w = w' := by
  obtain ⟨b₀, b₁, b₂, b₃, hb⟩ := exists_wordBytes big w
  rw [← fileWord_wordBytes hw hb, ← fileWord_wordBytes hw' (h ▸ hb)]

theorem wordBytes_append_inj {big : Bool} {w w' : Nat} {r r' : List UInt8} (hw : w < 2 ^ 32)
    (hw' : w' < 2 ^ 32) (h : wordBytes big w ++ r = wordBytes big w' ++ r') :
    w = w' ∧ r = r' := by
  obtain ⟨hword, hr⟩ := List.append_inj h (by rw [wordBytes_length, wordBytes_length])
  exact ⟨wordBytes_inj hw hw' hword, hr⟩

theorem AttValue.append_inj {v v' : AttValue} {r r' : List UInt8} (htype : v.type = v'.type)
    (h : v.bytes ++ r = v'.bytes ++ r') : v = v' ∧ r = r' := by
  have hstr : ∀ (s s' : CStr) {r r' : List UInt8},
      s.bytes ++ [0] ++ r = s'.bytes ++ [0] ++ r' → s = s' ∧ r = r' := by
    intro s s' r r' h
    rw [List.append_assoc, List.append_assoc] at h
    exact CStr.append_inj h
  cases v with
  | none =>
    cases v' with
    | none => exact ⟨rfl, h⟩
    | _ => cases htype
  | num i =>
    cases v' with
    | num i' =>
      obtain ⟨rfl, hr⟩ := Uleb.append_inj h
      exact ⟨rfl, hr⟩
    | _ => cases htype
  | str s =>
    cases v' with
    | str s' =>
      obtain ⟨rfl, hr⟩ := hstr s s' h
      exact ⟨rfl, hr⟩
    | _ => cases htype
  | both i s =>
    cases v' with
    | both i' s' =>
      have hassoc : i.bytes ++ (s.bytes ++ [0] ++ r) = i'.bytes ++ (s'.bytes ++ [0] ++ r') := by
        have hboth : i.bytes ++ (s.bytes ++ [0]) ++ r = i'.bytes ++ (s'.bytes ++ [0]) ++ r' := h
        rwa [List.append_assoc, List.append_assoc i'.bytes] at hboth
      obtain ⟨rfl, htail⟩ := Uleb.append_inj hassoc
      obtain ⟨rfl, hr⟩ := hstr s s' htail
      exact ⟨rfl, hr⟩
    | _ => cases htype

/-! ## Attributes -/

/-- A public attribute: a tag and its values. -/
structure AttToken where
  tag : Uleb
  value : AttValue
  deriving DecidableEq

def AttToken.bytes (a : AttToken) : List UInt8 := a.tag.bytes ++ a.value.bytes

def AttToken.word (eh : ElfHost) (a : AttToken) : Nat := a.tag.word eh 0 0

/-- The tag is not in the array yet. -/
def AttributeTbl.fresh (patbl : AttributeTbl) (tag : Nat) : Prop :=
  ¬(patbl.pv.inArray tag = true ∧ patbl.mapped tag ≠ 0)

@[simp] theorem AttributeTbl.grow_pv (patbl : AttributeTbl) (tag : Nat) :
    (patbl.grow tag).pv = patbl.pv := by
  unfold grow
  split <;> rfl

@[simp] theorem AttributeTbl.grow_map (patbl : AttributeTbl) (tag : Nat) :
    (patbl.grow tag).map = patbl.map := by
  unfold grow
  split <;> rfl

@[simp] theorem AttributeTbl.grow_lst (patbl : AttributeTbl) (tag : Nat) :
    (patbl.grow tag).lst = patbl.lst := by
  unfold grow
  split <;> rfl

@[simp] theorem AttributeTbl.grow_idx (patbl : AttributeTbl) (tag : Nat) :
    (patbl.grow tag).idx = patbl.idx := by
  unfold grow
  split <;> rfl

@[simp] theorem AttributeTbl.grow_mapped (patbl : AttributeTbl) (tag tag' : Nat) :
    (patbl.grow tag).mapped tag' = patbl.mapped tag' := by
  unfold mapped
  rw [grow_map]

/-- A pass of the vendor reader after the tag. -/
def afterTag (eh : ElfHost) (patbl : AttributeTbl) (tag : Nat) (buf : List UInt8) (size : Nat) :
    Except Halt AttCursor := do
  let (att, buf, size) ← readValue eh tag (patbl.pv.attType tag) buf size
  let patbl ← (patbl.grow tag).keep tag att
  return ⟨patbl, buf, size⟩

theorem pubAttribute_tag {c : AttCursor} {u : Uleb} {rest : List UInt8}
    (hbuf : c.buf = u.bytes ++ rest) (hle : (u.bytes.length : Int) ≤ asInt c.size)
    (hfresh : c.patbl.fresh (u.word eh 0 0)) :
    pubAttribute eh c =
      afterTag eh c.patbl (u.word eh 0 0) rest (c.size - u.bytes.length) := by
  have hu := readUleb_uleb eh .tag u rest c.size
  rw [if_pos hle, ← hbuf] at hu
  have hdup : ¬((c.patbl.grow (u.word eh 0 0)).pv.inArray (u.word eh 0 0) = true ∧
      (c.patbl.grow (u.word eh 0 0)).mapped (u.word eh 0 0) ≠ 0) := by
    simpa [AttributeTbl.fresh] using hfresh
  unfold pubAttribute
  rw [hu]
  show (if _ then _ else _) = _
  rw [if_neg hdup, afterTag, AttributeTbl.grow_pv]

theorem pubAttribute_dup {c : AttCursor} {u : Uleb} {rest : List UInt8}
    (hbuf : c.buf = u.bytes ++ rest) (hle : (u.bytes.length : Int) ≤ asInt c.size)
    (hdup : ¬c.patbl.fresh (u.word eh 0 0)) :
    pubAttribute eh c = reject (.alreadyDefined (u.word eh 0 0)) := by
  have hu := readUleb_uleb eh .tag u rest c.size
  rw [if_pos hle, ← hbuf] at hu
  have hdup : ((c.patbl.grow (u.word eh 0 0)).pv.inArray (u.word eh 0 0) = true ∧
      (c.patbl.grow (u.word eh 0 0)).mapped (u.word eh 0 0) ≠ 0) := by
    simpa [AttributeTbl.fresh] using hdup
  unfold pubAttribute
  rw [hu]
  show (if _ then _ else _) = _
  rw [if_pos hdup]

/-- A pass over an attribute of a tag that is not in the array yet, with the values that
the vendor announces. -/
theorem pubAttribute_token {c : AttCursor} {a : AttToken} {rest : List UInt8}
    (hbuf : c.buf = a.bytes ++ rest) (hle : a.bytes.length ≤ c.size) (hs : c.size < 2 ^ 31)
    (hfresh : c.patbl.fresh (a.word eh)) (htype : c.patbl.pv.attType (a.word eh) = a.value.type) :
    pubAttribute eh c =
      ((c.patbl.grow (a.word eh)).keep (a.word eh) (a.value.toAttribute eh)).map
        fun patbl => ⟨patbl, rest, c.size - a.bytes.length⟩ := by
  have hlen : a.bytes.length = a.tag.bytes.length + a.value.bytes.length := List.length_append
  have hbuf' : c.buf = a.tag.bytes ++ (a.value.bytes ++ rest) := by
    rw [hbuf, AttToken.bytes, List.append_assoc]
  rw [pubAttribute_tag hbuf' (by rw [asInt_of_lt hs]; omega) hfresh]
  have hv := readValue_value eh (a.word eh) a.value rest
    (c.size - a.tag.bytes.length) (by omega) (by omega)
  have hsub : c.size - a.tag.bytes.length - a.value.bytes.length = c.size - a.bytes.length := by
    omega
  rw [hsub, ← htype] at hv
  unfold afterTag
  rw [show a.tag.word eh 0 0 = a.word eh from rfl, hv]
  show AttributeTbl.keep _ _ _ >>= _ = _
  cases (c.patbl.grow (a.word eh)).keep (a.word eh) (a.value.toAttribute eh) <;> rfl

/-! ## Headers -/

/-- What the reader expects at the beginning of a subsection. -/
structure HeaderToken where
  len : Nat
  name : CStr
  tag : Uleb
  sublen : Nat
  len_lt : len < 2 ^ 32
  sublen_lt : sublen < 2 ^ 32

namespace HeaderToken

/-- The bytes behind the vendor name, with its null byte. -/
def tail (big : Bool) (t : HeaderToken) : List UInt8 := t.tag.bytes ++ wordBytes big t.sublen

def bytes (big : Bool) (t : HeaderToken) : List UInt8 :=
  FORMAT_VERSION_A :: (wordBytes big t.len ++ (t.name.bytes ++ 0 :: t.tail big))

theorem tail_length (big : Bool) (t : HeaderToken) :
    (t.tail big).length = t.tag.bytes.length + 4 := by
  rw [tail, List.length_append, wordBytes_length]

theorem bytes_length (big : Bool) (t : HeaderToken) :
    (t.bytes big).length = 6 + t.name.bytes.length + (t.tag.bytes.length + 4) := by
  rw [bytes, List.length_cons, List.length_append, wordBytes_length, List.length_append,
    List.length_cons, tail_length]
  omega

/-- The header that the reader finds when the bytes begin at `n`. -/
def header (eh : ElfHost) (big : Bool) (t : HeaderToken) (n : Nat) : AttHeader where
  len := t.len
  vendorName := t.name.bytes
  tag := t.tag.word eh 0 0
  sublen := t.sublen - (4 + t.tag.bytes.length)
  n := n + (t.bytes big).length

end HeaderToken

theorem HeaderToken.append_inj {big : Bool} {t t' : HeaderToken} {r r' : List UInt8}
    (h : t.bytes big ++ r = t'.bytes big ++ r') : t = t' ∧ r = r' := by
  obtain ⟨len, name, tag, sublen, hlen, hsub⟩ := t
  obtain ⟨len', name', tag', sublen', hlen', hsub'⟩ := t'
  simp only [bytes, tail, List.cons_append, List.append_assoc, List.cons.injEq, true_and] at h
  obtain ⟨rfl, hname⟩ := wordBytes_append_inj hlen hlen' h
  obtain ⟨rfl, htag⟩ := CStr.append_inj hname
  obtain ⟨rfl, hword⟩ := Uleb.append_inj htag
  obtain ⟨rfl, hr⟩ := wordBytes_append_inj hsub hsub' hword
  exact ⟨rfl, hr⟩

theorem AttBuffer.at_length (b : AttBuffer) (n : Nat) : (b.at n).length = b.size - n :=
  List.length_drop ..

theorem AttBuffer.at_append {b : AttBuffer} {n : Nat} {front rest : List UInt8}
    (h : b.at n = front ++ rest) : b.at (n + front.length) = rest := by
  unfold AttBuffer.at at h ⊢
  rw [← List.drop_drop, h, List.drop_left]

theorem nameScan_str (bsize : Nat) (name rest : List UInt8) (h : 0 ∉ name) {l : Nat}
    (hl : l < 2 ^ 31) (hb : l + name.length < bsize) :
    nameScan bsize l (name ++ 0 :: rest) =
      if l + name.length < 2 ^ 31 then .ok (l + name.length) else .error .overflow := by
  induction name generalizing l with
  | nil =>
    rw [List.length_nil, Nat.add_zero, if_pos hl]
    simp [nameScan]
  | cons c name ih =>
    obtain ⟨hc, hname⟩ := not_or.mp (List.mem_cons.not.mp h)
    rw [List.length_cons] at hb ⊢
    rw [List.cons_append, nameScan, if_neg (Ne.symm hc)]
    by_cases hl' : l + 1 < 2 ^ 31
    · have hlen : l + 1 + name.length = l + (name.length + 1) := by omega
      simp only [intSucc, if_pos hl']
      rw [if_neg (by omega), ih hname hl' (by omega), hlen]
    · simp only [intSucc, if_neg hl']
      rw [if_neg (by omega)]

theorem nameScan_endless (bsize : Nat) (s : List UInt8) (h : 0 ∉ s) {l : Nat}
    (hl : l < 2 ^ 31) (hb : l + s.length = bsize) :
    nameScan bsize l s =
      if s = [] then .error .outside
      else if bsize < 2 ^ 31 then reject .vendorName else .error .overflow := by
  induction s generalizing l with
  | nil => rfl
  | cons c s ih =>
    obtain ⟨hc, hs⟩ := not_or.mp (List.mem_cons.not.mp h)
    rw [List.length_cons] at hb
    rw [nameScan, if_neg (Ne.symm hc), if_neg (List.cons_ne_nil _ _)]
    by_cases hl' : l + 1 < 2 ^ 31
    · simp only [intSucc, if_pos hl']
      by_cases hlast : l + 1 ≥ bsize
      · rw [if_pos hlast, if_pos (by omega)]
      · have hnil : s ≠ [] := by
          rintro rfl
          simp only [List.length_nil] at hb
          omega
        rw [if_neg hlast, ih hs hl' (by omega), if_neg hnil]
    · simp only [intSucc, if_neg hl']
      rw [if_neg (by omega)]

/-- The end of a vendor name that is in the buffer. -/
theorem vendorNameEnd_str {b : AttBuffer} {n : Nat} (name : CStr) {rest : List UInt8}
    (h : b.at n = name.bytes ++ 0 :: rest) :
    vendorNameEnd b n =
      if n < 2 ^ 31 then
        if n + name.bytes.length < 2 ^ 31 then .ok (n + name.bytes.length) else .error .overflow
      else .error .outside := by
  have hlen := b.at_length n
  have hlt : b.size < 2 ^ 32 := b.size_lt
  rw [h, List.length_append, List.length_cons] at hlen
  unfold vendorNameEnd
  by_cases hn : n < 2 ^ 31
  · rw [if_neg (by rw [asInt_of_lt hn]; omega), if_pos hn, h,
      nameScan_str b.size name.bytes rest name.noNul hn (by omega)]
  · rw [if_pos (asInt_neg (by omega) (by omega)), if_neg hn]

theorem vendorNameEnd_endless {b : AttBuffer} {n : Nat} (h : 0 ∉ b.at n) (hn : n ≤ b.size) :
    vendorNameEnd b n =
      if n < 2 ^ 31 ∧ b.at n ≠ [] then
        if b.size < 2 ^ 31 then reject .vendorName else .error .overflow
      else .error .outside := by
  have hlen := b.at_length n
  have hlt : b.size < 2 ^ 32 := b.size_lt
  unfold vendorNameEnd
  by_cases hn' : n < 2 ^ 31
  · rw [if_neg (by rw [asInt_of_lt hn']; omega), nameScan_endless b.size _ h hn' (by omega)]
    by_cases hnil : b.at n = []
    · rw [if_pos hnil, if_neg (fun hc => hc.2 hnil)]
    · rw [if_neg hnil]
      exact (if_pos ⟨hn', hnil⟩).symm
  · rw [if_pos (asInt_neg (by omega) (by omega)), if_neg (fun hc => hn' hc.1)]

theorem vendorNameEnd_eq_ok {b : AttBuffer} {n l : Nat} (hn : n ≤ b.size)
    (h : vendorNameEnd b n = .ok l) :
    ∃ (name : CStr) (rest : List UInt8), b.at n = name.bytes ++ 0 :: rest ∧ n < 2 ^ 31 ∧
      l = n + name.bytes.length := by
  rcases exists_str (b.at n) with ⟨str, rest, hstr, hs⟩ | hs
  · rw [vendorNameEnd_str ⟨str, hstr⟩ hs] at h
    split at h
    · next hlt =>
      split at h
      · exact ⟨⟨str, hstr⟩, rest, hs, hlt, (Except.ok.inj h).symm⟩
      · cases h
    · cases h
  · rw [vendorNameEnd_endless hs hn] at h
    split at h
    · split at h <;> cases h
    · cases h

theorem minus_ok {a b : Nat} (h : b ≤ a) : minus a b = .ok (a - b) := by
  rw [minus, if_neg (by omega)]

theorem minus_eq_ok {a b c : Nat} (h : minus a b = .ok c) : b ≤ a ∧ c = a - b := by
  unfold minus at h
  split at h
  · cases h
  · exact ⟨by omega, (Except.ok.inj h).symm⟩

theorem readLen_cons {b : AttBuffer} {needswap : Bool} {n : Nat} {rest : List UInt8}
    (h : b.at n = FORMAT_VERSION_A :: rest) :
    readLen eh b needswap n =
      (pmelfGetword eh needswap rest (asInt rest.length) .subsection >>= fun len =>
        if eh.off (n + len + 1) > b.size then reject .subsectionLength else pure len) := by
  have hlen := b.at_length n
  rw [h, List.length_cons] at hlen
  have hfront : b.at n = [FORMAT_VERSION_A] ++ rest := h
  have hat : b.at (n + 1) = rest := AttBuffer.at_append hfront
  have hleft : b.size - (n + 1) = rest.length := by omega
  have hversion : formatVersion b n = .ok () := by
    rw [formatVersion, h]
    rfl
  unfold readLen
  rw [hversion, hat, minus_ok (by omega), hleft]
  rfl

theorem readLen_token {b : AttBuffer} {needswap : Bool} {n len : Nat} {rest : List UInt8}
    (hlen : len < 2 ^ 32)
    (h : b.at n = FORMAT_VERSION_A :: (wordBytes (eh.fileBig needswap) len ++ rest))
    (hoff : eh.off (n + len + 1) ≤ b.size) : readLen eh b needswap n = .ok len := by
  have hsize := b.at_length n
  have hlt : b.size < 2 ^ 32 := b.size_lt
  have hword := wordBytes_length (eh.fileBig needswap) len
  rw [h, List.length_cons] at hsize
  rw [readLen_cons h, pmelfGetword_wordBytes needswap hlen rest
    (by rw [List.length_append]; omega) (by omega)]
  exact if_neg (by omega)

theorem readLen_eq_ok {b : AttBuffer} {needswap : Bool} {n len : Nat}
    (h : readLen eh b needswap n = .ok len) :
    len < 2 ^ 32 ∧ eh.off (n + len + 1) ≤ b.size ∧ ∃ rest,
      b.at n = FORMAT_VERSION_A :: (wordBytes (eh.fileBig needswap) len ++ rest) := by
  obtain ⟨_, hv, -⟩ := bind_eq_ok.mp h
  have hsize := b.at_length n
  have hlt : b.size < 2 ^ 32 := b.size_lt
  unfold formatVersion at hv
  cases hat : b.at n with
  | nil => rw [hat] at hv; cases hv
  | cons v rest =>
    rw [hat] at hv
    dsimp only at hv
    split at hv
    · cases hv
    · next hA =>
      rw [not_ne_iff.mp hA] at hat
      rw [hat, List.length_cons] at hsize
      rw [readLen_cons hat] at h
      rcases pmelfGetword_buffer eh needswap rest (by omega) .subsection with
        ⟨w, rest', hw, hrest, hget⟩ | ⟨-, hget⟩
      · rw [hget] at h
        change (if _ then _ else _) = _ at h
        split at h
        · cases h
        · next hoff =>
          cases h
          exact ⟨hw, by omega, rest', by rw [not_ne_iff.mp hA, hrest]⟩
      · rw [hget] at h
        cases h

/-- The tag at the offset `n`, up to the length of the subsubsection. -/
theorem readTag_uleb {b : AttBuffer} {needswap : Bool} {n : Nat} {u : Uleb} {rest : List UInt8}
    (hn : n ≤ b.size) (h : b.at n = u.bytes ++ rest)
    (hint : (u.bytes.length : Int) ≤ asInt (b.size - n)) :
    readTag eh b needswap n =
      (pmelfGetword eh needswap rest (asInt rest.length) .subsubsection >>= fun sublen =>
        minus sublen (4 + u.bytes.length) >>= fun sublen =>
          pure (u.word eh 0 0, sublen, n + u.bytes.length + 4)) := by
  have hsize := b.at_length n
  rw [h, List.length_append] at hsize
  have hat : b.at (n + u.bytes.length) = rest := AttBuffer.at_append h
  have hleft : b.size - (n + u.bytes.length) = rest.length := by omega
  have hu : pmelfGuleb128 eh (u.bytes ++ rest) (asInt (b.size - n)) = _ :=
    guleb128_uleb eh _ u rest 0 0 0
  rw [Nat.zero_add, if_pos hint] at hu
  unfold readTag
  rw [minus_ok hn]
  show pmelfGuleb128 _ _ _ >>= _ = _
  rw [h, hu]
  show minus _ _ >>= _ = _
  rw [minus_ok (by have := u.bytes_pos; omega), hleft, hat]
  rfl

/-- Nothing but a tag passes the test of `pmelf_guleb128`. -/
theorem readTag_reject {b : AttBuffer} {needswap : Bool} {n : Nat} (hn : n ≤ b.size)
    (h : ¬∃ (u : Uleb) (rest : List UInt8), b.at n = u.bytes ++ rest ∧
      (u.bytes.length : Int) ≤ asInt (b.size - n)) :
    readTag eh b needswap n = reject .sectionTag := by
  have hnone : pmelfGuleb128 eh (b.at n) (asInt (b.size - n)) = .ok none := by
    rcases exists_uleb (b.at n) with ⟨u, rest, hs⟩ | hs
    · have hu : pmelfGuleb128 eh (u.bytes ++ rest) (asInt (b.size - n)) = _ :=
        guleb128_uleb eh _ u rest 0 0 0
      rw [hs, hu, Nat.zero_add, if_neg (fun hle => h ⟨u, rest, hs, hle⟩)]
    · have hu : pmelfGuleb128 eh (b.at n) (asInt (b.size - n)) = _ :=
        guleb128_endless eh _ _ hs 0 0 0
      have hle := asInt_le (b.size - n)
      rw [hu, b.at_length, Nat.zero_add, if_pos hle]
  unfold readTag
  rw [minus_ok hn]
  show pmelfGuleb128 _ _ _ >>= _ = _
  rw [hnone]
  rfl

theorem readTag_token {b : AttBuffer} {needswap : Bool} {n sublen : Nat} {u : Uleb}
    {rest : List UInt8} (hn : n ≤ b.size) (hsub : sublen < 2 ^ 32)
    (h : b.at n = u.bytes ++ (wordBytes (eh.fileBig needswap) sublen ++ rest))
    (hint : (u.bytes.length : Int) ≤ asInt (b.size - n)) :
    readTag eh b needswap n =
      (minus sublen (4 + u.bytes.length) >>= fun sublen =>
        pure (u.word eh 0 0, sublen, n + u.bytes.length + 4)) := by
  have hsize := b.at_length n
  have hlt : b.size < 2 ^ 32 := b.size_lt
  have hword := wordBytes_length (eh.fileBig needswap) sublen
  rw [h, List.length_append] at hsize
  rw [readTag_uleb hn h hint, pmelfGetword_wordBytes needswap hsub rest
    (by rw [List.length_append]; omega) (by omega)]
  rfl

theorem readTag_eq_ok {b : AttBuffer} {needswap : Bool} {n : Nat} (hn : n ≤ b.size)
    {r : Nat × Nat × Nat} (h : readTag eh b needswap n = .ok r) :
    ∃ (u : Uleb) (sublen : Nat) (rest : List UInt8), sublen < 2 ^ 32 ∧
      b.at n = u.bytes ++ (wordBytes (eh.fileBig needswap) sublen ++ rest) ∧
      (u.bytes.length : Int) ≤ asInt (b.size - n) ∧ 4 + u.bytes.length ≤ sublen ∧
      r = (u.word eh 0 0, sublen - (4 + u.bytes.length), n + u.bytes.length + 4) := by
  by_cases hu : ∃ (u : Uleb) (rest : List UInt8), b.at n = u.bytes ++ rest ∧
      (u.bytes.length : Int) ≤ asInt (b.size - n)
  · obtain ⟨u, rest, hat, hint⟩ := hu
    have hsize := b.at_length n
    have hlt : b.size < 2 ^ 32 := b.size_lt
    rw [hat, List.length_append] at hsize
    rw [readTag_uleb hn hat hint] at h
    rcases pmelfGetword_buffer eh needswap rest (by omega) .subsubsection with
      ⟨w, rest', hw, hrest, hget⟩ | ⟨-, hget⟩
    · rw [hget] at h
      change (minus w _ >>= _) = _ at h
      obtain ⟨sublen, hmin, h⟩ := bind_eq_ok.mp h
      obtain ⟨hle, rfl⟩ := minus_eq_ok hmin
      cases h
      exact ⟨u, w, rest', hw, by rw [hat, hrest], hint, hle, rfl⟩
    · rw [hget] at h
      cases h
  · rw [readTag_reject hn hu] at h
    cases h

/-- What the lengths of a header have to satisfy to be read at the offset `n`. -/
structure HeaderToken.Readable (eh : ElfHost) (b : AttBuffer) (t : HeaderToken) (n : Nat) :
    Prop where
  len : eh.off (n + t.len + 1) ≤ b.size
  name : n + 6 + t.name.bytes.length < 2 ^ 31
  tag : (t.tag.bytes.length : Int) ≤ asInt (b.size - (n + 6 + t.name.bytes.length))
  sublen : 4 + t.tag.bytes.length ≤ t.sublen

theorem HeaderToken.at_name {b : AttBuffer} {big : Bool} {t : HeaderToken} {n : Nat}
    {rest : List UInt8} (h : b.at n = t.bytes big ++ rest) :
    b.at (n + 1 + 4) = t.name.bytes ++ 0 :: (t.tail big ++ rest) := by
  have hfront : b.at n = (FORMAT_VERSION_A :: wordBytes big t.len) ++
      (t.name.bytes ++ 0 :: (t.tail big ++ rest)) := by
    rw [h, bytes]
    simp
  have hat := AttBuffer.at_append hfront
  rwa [List.length_cons, wordBytes_length] at hat

theorem HeaderToken.at_tag {b : AttBuffer} {big : Bool} {t : HeaderToken} {n : Nat}
    {rest : List UInt8} (h : b.at n = t.bytes big ++ rest) :
    b.at (n + 6 + t.name.bytes.length) =
      t.tag.bytes ++ (wordBytes big t.sublen ++ rest) := by
  have hfront : b.at (n + 1 + 4) = (t.name.bytes ++ [0]) ++ (t.tail big ++ rest) := by
    rw [at_name h]
    simp
  have hat := AttBuffer.at_append hfront
  have hpos : n + 1 + 4 + (t.name.bytes ++ [0]).length = n + 6 + t.name.bytes.length := by
    rw [List.length_append, List.length_singleton]
    omega
  rw [hpos] at hat
  rw [hat, tail, List.append_assoc]

/-- Behind the length of the subsection. -/
theorem AttBuffer.at_len {b : AttBuffer} {big : Bool} {n len : Nat} {rest : List UInt8}
    (h : b.at n = FORMAT_VERSION_A :: (wordBytes big len ++ rest)) : b.at (n + 1 + 4) = rest := by
  have hfront : b.at n = (FORMAT_VERSION_A :: wordBytes big len) ++ rest := h
  have hat := AttBuffer.at_append hfront
  rwa [List.length_cons, wordBytes_length] at hat

theorem readHeader_len {b : AttBuffer} {needswap : Bool} {n len : Nat} {rest : List UInt8}
    (hlen : len < 2 ^ 32)
    (h : b.at n = FORMAT_VERSION_A :: (wordBytes (eh.fileBig needswap) len ++ rest))
    (hoff : eh.off (n + len + 1) ≤ b.size) :
    readHeader eh b needswap n =
      (vendorNameEnd b (n + 1 + 4) >>= fun l =>
        intSucc l >>= fun n' =>
          readTag eh b needswap n' >>= fun r =>
            pure ⟨len, (b.at (n + 1 + 4)).take (l - (n + 1 + 4)), r.1, r.2.1, r.2.2⟩) := by
  unfold readHeader
  rw [readLen_token hlen h hoff]
  rfl

theorem readHeader_name {b : AttBuffer} {needswap : Bool} {n len : Nat} {name : CStr}
    {rest : List UInt8} (hlen : len < 2 ^ 32)
    (h : b.at n = FORMAT_VERSION_A :: (wordBytes (eh.fileBig needswap) len ++
      (name.bytes ++ 0 :: rest)))
    (hoff : eh.off (n + len + 1) ≤ b.size) (hname : n + 6 + name.bytes.length < 2 ^ 31) :
    readHeader eh b needswap n =
      (readTag eh b needswap (n + 6 + name.bytes.length) >>= fun r =>
        pure ⟨len, name.bytes, r.1, r.2.1, r.2.2⟩) := by
  have hat := AttBuffer.at_len h
  have hend := vendorNameEnd_str _ hat
  rw [if_pos (by omega), if_pos (by omega)] at hend
  have hsucc : intSucc (n + 1 + 4 + name.bytes.length) = .ok (n + 6 + name.bytes.length) := by
    rw [intSucc, if_pos (by omega)]
    congr 1
    omega
  have htake : (b.at (n + 1 + 4)).take (n + 1 + 4 + name.bytes.length - (n + 1 + 4))
      = name.bytes := by
    rw [hat, Nat.add_sub_cancel_left, List.take_left]
  rw [readHeader_len hlen h hoff, hend]
  show intSucc _ >>= _ = _
  rw [hsucc]
  show readTag _ _ _ _ >>= _ = _
  rw [htake]

/-- The header that stands at the offset `n` is read. -/
theorem readHeader_token {b : AttBuffer} {needswap : Bool} {n : Nat} {t : HeaderToken}
    {rest : List UInt8} (h : b.at n = t.bytes (eh.fileBig needswap) ++ rest)
    (hr : t.Readable eh b n) :
    readHeader eh b needswap n = .ok (t.header eh (eh.fileBig needswap) n) := by
  have hsize := b.at_length n
  rw [h, List.length_append, t.bytes_length] at hsize
  have hlenat : b.at n = FORMAT_VERSION_A :: (wordBytes (eh.fileBig needswap) t.len ++
      (t.name.bytes ++ 0 :: (t.tail (eh.fileBig needswap) ++ rest))) := by
    rw [h, HeaderToken.bytes]
    simp
  rw [readHeader_name t.len_lt hlenat hr.len hr.name,
    readTag_token (by omega) t.sublen_lt (HeaderToken.at_tag h) hr.tag, minus_ok hr.sublen]
  have hn : n + 6 + t.name.bytes.length + t.tag.bytes.length + 4
      = n + (6 + t.name.bytes.length + (t.tag.bytes.length + 4)) := by omega
  rw [HeaderToken.header, t.bytes_length, ← hn]
  rfl

/-- Nothing but a header is read as one. -/
theorem readHeader_eq_ok {b : AttBuffer} {needswap : Bool} {n : Nat} {hd : AttHeader}
    (hn : n < b.size) (h : readHeader eh b needswap n = .ok hd) :
    ∃ (t : HeaderToken) (rest : List UInt8), b.at n = t.bytes (eh.fileBig needswap) ++ rest ∧
      t.Readable eh b n ∧ hd = t.header eh (eh.fileBig needswap) n := by
  obtain ⟨len, hl, h⟩ := bind_eq_ok.mp h
  obtain ⟨hlen, hoff, rest, hat⟩ := readLen_eq_ok hl
  have hsize := b.at_length n
  rw [hat, List.length_cons, List.length_append, wordBytes_length] at hsize
  have hat' := AttBuffer.at_len hat
  obtain ⟨l, hend, h⟩ := bind_eq_ok.mp h
  obtain ⟨name, rest', hname, hpos, rfl⟩ := vendorNameEnd_eq_ok (by omega) hend
  obtain ⟨n', hsucc, h⟩ := bind_eq_ok.mp h
  unfold intSucc at hsucc
  split at hsucc
  · next hlt =>
    cases hsucc
    have hrest := b.at_length (n + 1 + 4)
    rw [hname, List.length_append, List.length_cons] at hrest
    have hend' : n + 1 + 4 + name.bytes.length + 1 = n + 6 + name.bytes.length := by omega
    rw [hend'] at h hlt
    obtain ⟨r, htag, h⟩ := bind_eq_ok.mp h
    obtain ⟨u, sublen, rest'', hsub, hat'', hint, hle, rfl⟩ := readTag_eq_ok (by omega) htag
    cases h
    let t : HeaderToken := ⟨len, name, u, sublen, hlen, hsub⟩
    have hafter : rest' = t.tail (eh.fileBig needswap) ++ rest'' := by
      have hfront : b.at (n + 1 + 4) = (name.bytes ++ [0]) ++ rest' := by rw [hname]; simp
      have hcut := AttBuffer.at_append hfront
      have hpos' : n + 1 + 4 + (name.bytes ++ [0]).length = n + 6 + name.bytes.length := by
        rw [List.length_append, List.length_singleton]
        omega
      rw [hpos', hat''] at hcut
      rw [← hcut, HeaderToken.tail, List.append_assoc]
    refine ⟨t, rest'', ?_, ⟨hoff, hlt, hint, hle⟩, ?_⟩
    · rw [hat, ← hat', hname, hafter, HeaderToken.bytes]
      simp [t]
    · have htake : (b.at (n + 1 + 4)).take (n + 1 + 4 + name.bytes.length - (n + 1 + 4))
          = name.bytes := by
        rw [hname, Nat.add_sub_cancel_left, List.take_left]
      rw [htake, HeaderToken.header, t.bytes_length]
      congr 1
      simp only [t]
      omega
  · cases hsucc

end Cexp
