import Cexp.Lib.Loop
import Cexp.Pmelf.Bytes
import Cexp.Syms.Table

/-!
# The object-attribute reader

`pmelf_read_attribute_set` walks over the subsections of a `.gnu_attributes` section and
hands the attributes of each one to the reader of its vendor, which for every vendor of the
sources is `pmelf_pub_file_attributes_read`. Attributes with a tag up to `max_tag` are kept
in the array `vals`, which the bytes of `map` index, all others in a list.

Memory does not run out.
-/

namespace Cexp

open CLib

/-! ## Vendors and tables -/

def Tag_File : Nat := 1
def Tag_Section : Nat := 2
def Tag_Symbol : Nat := 3
def Tag_Compat : Nat := 32

/-- `'A'` -/
def FORMAT_VERSION_A : UInt8 := 65

def CHUNKSZ : Nat := 30

def ATTR_MAX_VENDORS : Nat := 5

/-- `Pmelf_pub_attribute_t` -/
inductive AttType where
  | unknown
  | none
  | num
  | str
  | both
  deriving DecidableEq, Repr

/-- `Pmelf_attribute_vendor`, as far as reading goes. -/
structure AttVendor where
  name : CStr
  maxTag : Nat
  tagType : Option (Nat → AttType)

/-- The tags whose attributes are in the array. -/
def AttVendor.inArray (pv : AttVendor) (tag : Nat) : Bool := tag ≤ pv.maxTag && tag ≠ Tag_Compat

def AttVendor.attType (pv : AttVendor) (tag : Nat) : AttType :=
  if tag = Tag_Compat then .both
  else
    match pv.tagType with
    | Option.none => .unknown
    | some tagType => tagType tag

/-- The list `known_vendors`. A vendor is identified by its name. -/
structure KnownVendors where
  list : List AttVendor
  distinct : (list.map AttVendor.name).Nodup

/-- `pmelf_attributes_vendor_register` -/
def KnownVendors.register (known : KnownVendors) (pv : AttVendor) : Option KnownVendors :=
  if h : pv.name ∈ known.list.map AttVendor.name then none
  else some ⟨pv :: known.list, List.nodup_cons.mpr ⟨h, known.distinct⟩⟩

/-- The scan of `known_vendors` with `strcmp`. -/
def KnownVendors.find (known : KnownVendors) (vendorName : List UInt8) : Option AttVendor :=
  known.list.find? fun pv => pv.name.bytes = vendorName

/-- `Pmelf_pub_attribute`, with the string that `s` points to. -/
structure Attribute where
  i : Nat
  s : Option (List UInt8)
  deriving DecidableEq, Repr

/-- `Pmelf_attribute_tbl` -/
structure AttributeTbl where
  pv : AttVendor
  vals : List Attribute
  avail : Nat
  idx : Nat
  lst : List (Nat × Attribute)
  map : List Nat

namespace AttributeTbl

/-- A table as `pmelf_read_attribute_set` creates it. -/
def create (pv : AttVendor) : AttributeTbl where
  pv := pv
  vals := []
  avail := 0
  idx := 1
  lst := []
  map := List.replicate (pv.maxTag + 1) 0

/-- `realloc` of the array of values. -/
def realloc (vals : List Attribute) (n : Nat) : List Attribute :=
  (vals ++ List.replicate (n - vals.length) (⟨0, none⟩ : Attribute)).take n

def grow (patbl : AttributeTbl) (tag : Nat) : AttributeTbl :=
  if patbl.avail = 0 ∧ patbl.pv.inArray tag then
    let csz := if CHUNKSZ < patbl.pv.maxTag then CHUNKSZ else patbl.pv.maxTag
    { patbl with
      vals := realloc patbl.vals (patbl.idx + csz)
      avail := (patbl.avail + csz) % 2 ^ 8 }
  else patbl

def mapped (patbl : AttributeTbl) (tag : Nat) : Nat := patbl.map.getD tag 0

/-- The tags that have an entry in `map`. -/
def arrayTags (patbl : AttributeTbl) : List Nat :=
  (List.range (patbl.pv.maxTag + 1)).filter fun tag => patbl.mapped tag ≠ 0

/-- The insertion of a list element. If two elements with the tag are already there, the
loop that looks for the last one tests the same pointer in every pass. -/
def insertList (tag : Nat) (att : Attribute) :
    List (Nat × Attribute) → Except Halt (List (Nat × Attribute))
  | [] => .ok [(tag, att)]
  | el :: lst =>
    if el.1 = tag then
      match lst with
      | next :: _ => if next.1 = tag then .error .hang else .ok ((tag, att) :: el :: lst)
      | [] => .ok ((tag, att) :: el :: lst)
    else
      match insertList tag att lst with
      | .error e => .error e
      | .ok lst => .ok (el :: lst)

def store (patbl : AttributeTbl) (tag : Nat) (att : Attribute) : Except Halt AttributeTbl :=
  if patbl.pv.inArray tag then
    if patbl.idx < patbl.vals.length then
      .ok { patbl with
        map := patbl.map.set tag patbl.idx
        vals := patbl.vals.set patbl.idx att
        idx := (patbl.idx + 1) % 2 ^ 8 }
    else .error .overrun
  else
    match insertList tag att patbl.lst with
    | .error e => .error e
    | .ok lst => .ok { patbl with lst := lst }

/-- `pmelf_attribute_get_tag_val`, nothing for -1. -/
def getTagVal (patbl : AttributeTbl) (tag : Nat) : Option Attribute :=
  if patbl.pv.inArray tag ∧ patbl.mapped tag ≠ 0 then
    some (patbl.vals.getD (patbl.mapped tag) ⟨0, none⟩)
  else (patbl.lst.find? fun el => el.1 = tag).map Prod.snd

end AttributeTbl

/-! ## The vendor reader -/

/-- The variables of `pmelf_pub_file_attributes_read`. -/
structure AttCursor where
  patbl : AttributeTbl
  buf : List UInt8
  size : Nat

/-- A number is read and `buf` and `size` go on behind it. -/
def readUleb (eh : ElfHost) (c : Complaint) (buf : List UInt8) (size : Nat) :
    Except Halt (Nat × List UInt8 × Nat) := do
  let (n, x) ← orReject c (← pmelfGuleb128 eh buf (asInt size))
  let size ← minus size n
  return (x, buf.drop n, size)

/-- A string is read and `buf` and `size` go on behind it. -/
def readStr (buf : List UInt8) (size : Nat) : Except Halt (List UInt8 × List UInt8 × Nat) := do
  let l ← orReject .svalue (← strScan size 0 buf)
  let size' ← minus size l
  return (buf.take (l - 1), buf.drop l, size')

/-- The values of an attribute, none if the tag has no value. -/
def readValue (eh : ElfHost) (tag : Nat) (tagt : AttType) (buf : List UInt8) (size : Nat) :
    Except Halt (Option Attribute × List UInt8 × Nat) :=
  match tagt with
  | .unknown => reject (.unknownTag tag)
  | .none => .ok (none, buf, size)
  | .num => do
    let (ival, buf, size) ← readUleb eh .ivalue buf size
    return (some ⟨ival, none⟩, buf, size)
  | .both => do
    let (ival, buf, size) ← readUleb eh .ivalue buf size
    let (sval, buf, size) ← readStr buf size
    return (some ⟨ival, some sval⟩, buf, size)
  | .str => do
    let (sval, buf, size) ← readStr buf size
    return (some ⟨0, some sval⟩, buf, size)

/-- What happens to a value: the `continue` of the `none` type skips the store. -/
def AttributeTbl.keep (patbl : AttributeTbl) (tag : Nat) :
    Option Attribute → Except Halt AttributeTbl
  | none => .ok patbl
  | some att => patbl.store tag att

/-- One pass of `while ( size )`. -/
def pubAttribute (eh : ElfHost) (c : AttCursor) : Except Halt AttCursor := do
  let (tag, buf, size) ← readUleb eh .tag c.buf c.size
  let patbl := c.patbl.grow tag
  if patbl.pv.inArray tag ∧ patbl.mapped tag ≠ 0 then reject (.alreadyDefined tag)
  else
    let (att, buf, size) ← readValue eh tag (patbl.pv.attType tag) buf size
    let patbl ← patbl.keep tag att
    return ⟨patbl, buf, size⟩

/-! ## Steps forward -/

section

variable {eh : ElfHost}

theorem asInt_le (x : Nat) : asInt x ≤ x := by
  unfold asInt
  split <;> omega

variable (eh) in
/-- A number at the front of the buffer is read if it ends within the size. -/
theorem readUleb_uleb (c : Complaint) (u : Uleb) (rest : List UInt8) (size : Nat) :
    readUleb eh c (u.bytes ++ rest) size =
      if (u.bytes.length : Int) ≤ asInt size then
        .ok (u.word eh 0 0, rest, size - u.bytes.length)
      else reject c := by
  have hread : pmelfGuleb128 eh (u.bytes ++ rest) (asInt size) = _ :=
    guleb128_uleb eh (asInt size) u rest 0 0 0
  have hle := asInt_le size
  unfold readUleb
  rw [hread, Nat.zero_add]
  by_cases h : (u.bytes.length : Int) ≤ asInt size
  · have hmin : ¬size < u.bytes.length := by omega
    rw [if_pos h, if_pos h]
    simp [orReject, minus, hmin, bind, Except.bind, pure, Except.pure]
  · rw [if_neg h, if_neg h]
    rfl

theorem readUleb_endless (c : Complaint) {buf : List UInt8} {size : Nat}
    (h : ∀ v ∈ buf, ∃ d : Fin 128, v = UInt8.ofNat (d + 128)) :
    readUleb eh c buf size =
      if asInt size ≤ (buf.length : Nat) then reject c else .error .outside := by
  have hread : pmelfGuleb128 eh buf (asInt size) = _ :=
    guleb128_endless eh (asInt size) buf h 0 0 0
  unfold readUleb
  rw [hread, Nat.zero_add]
  by_cases h : asInt size ≤ (buf.length : Nat)
  · rw [if_pos h, if_pos h]
    rfl
  · rw [if_neg h, if_neg h]
    rfl

/-- What was read stands at the front of the buffer. -/
theorem readUleb_eq_ok {c : Complaint} {buf : List UInt8} {size : Nat}
    {r : Nat × List UInt8 × Nat} (h : readUleb eh c buf size = .ok r) :
    ∃ (u : Uleb) (rest : List UInt8), buf = u.bytes ++ rest ∧
      (u.bytes.length : Int) ≤ asInt size ∧
      r = (u.word eh 0 0, rest, size - u.bytes.length) := by
  rcases exists_uleb buf with ⟨u, rest, rfl⟩ | hs
  · rw [readUleb_uleb] at h
    split at h
    · next hle => exact ⟨u, rest, rfl, hle, (Except.ok.inj h).symm⟩
    · cases h
  · rw [readUleb_endless c hs] at h
    split at h <;> cases h

/-- A string at the front of the buffer. Without a byte left, a terminator is still read. -/
theorem readStr_str (str rest : List UInt8) (h : 0 ∉ str) (size : Nat) :
    readStr (str ++ 0 :: rest) size =
      if str.length < size then .ok (str, rest, size - (str.length + 1))
      else if str = [] then .error .wrap
      else reject .svalue := by
  unfold readStr
  rw [strScan_str size str rest h 0, Nat.zero_add]
  by_cases hlt : str.length < size
  · have hmin : ¬size < str.length + 1 := by omega
    rw [if_pos (.inr hlt), if_pos hlt]
    simp [orReject, minus, hmin, bind, Except.bind, pure, Except.pure]
  · rw [if_neg hlt]
    by_cases hnil : str = []
    · have hmin : size < str.length + 1 := by omega
      rw [if_pos (.inl hnil), if_pos hnil]
      simp [orReject, minus, hmin, bind, Except.bind]
    · rw [if_neg (by simp only [hnil, hlt, or_self, not_false_eq_true]), if_neg hnil]
      rfl

theorem readStr_endless {buf : List UInt8} (h : 0 ∉ buf) (size : Nat) :
    readStr buf size =
      if buf ≠ [] ∧ buf.length ≥ size then reject .svalue else .error .outside := by
  unfold readStr
  rw [strScan_endless size buf h 0, Nat.zero_add]
  by_cases hs : buf ≠ [] ∧ buf.length ≥ size
  · rw [if_pos hs, if_pos hs]
    rfl
  · rw [if_neg hs, if_neg hs]
    rfl

theorem readStr_size_le {buf : List UInt8} {size : Nat} {r : List UInt8 × List UInt8 × Nat}
    (h : readStr buf size = .ok r) : r.2.2 ≤ size := by
  rcases exists_str buf with ⟨str, rest, hstr, rfl⟩ | hs
  · rw [readStr_str str rest hstr] at h
    split at h
    · rw [← Except.ok.inj h]
      exact Nat.sub_le _ _
    · split at h <;> cases h
  · rw [readStr_endless hs] at h
    split at h <;> cases h

theorem readUleb_size_lt {c : Complaint} {buf : List UInt8} {size : Nat}
    {r : Nat × List UInt8 × Nat} (h : readUleb eh c buf size = .ok r) : r.2.2 < size := by
  obtain ⟨u, rest, -, hle, rfl⟩ := readUleb_eq_ok h
  have hpos := u.bytes_pos
  have hint := asInt_le size
  dsimp only
  omega

theorem readValue_size_le {tag : Nat} {tagt : AttType} {buf : List UInt8} {size : Nat}
    {r : Option Attribute × List UInt8 × Nat} (h : readValue eh tag tagt buf size = .ok r) :
    r.2.2 ≤ size := by
  cases tagt with
  | unknown => cases h
  | none =>
    cases h
    exact Nat.le_refl _
  | num =>
    obtain ⟨⟨ival, buf', size'⟩, hi, h⟩ := bind_eq_ok.mp h
    cases h
    exact (readUleb_size_lt hi).le
  | str =>
    obtain ⟨⟨sval, buf', size'⟩, hs, h⟩ := bind_eq_ok.mp h
    cases h
    exact readStr_size_le hs
  | both =>
    obtain ⟨⟨ival, buf', size'⟩, hi, h⟩ := bind_eq_ok.mp h
    obtain ⟨⟨sval, buf'', size''⟩, hs, h⟩ := bind_eq_ok.mp h
    cases h
    exact (readStr_size_le hs).trans (readUleb_size_lt hi).le

/-- Every pass of the vendor reader makes the size smaller. -/
theorem pubAttribute_size_lt {c c' : AttCursor} (h : pubAttribute eh c = .ok c') :
    c'.size < c.size := by
  unfold pubAttribute at h
  obtain ⟨⟨tag, buf, size⟩, ht, h⟩ := bind_eq_ok.mp h
  have hlt := readUleb_size_lt ht
  dsimp only at h hlt
  split at h
  · cases h
  · obtain ⟨⟨att, buf', size'⟩, hv, h⟩ := bind_eq_ok.mp h
    have hle := readValue_size_le hv
    obtain ⟨patbl, -, h⟩ := bind_eq_ok.mp h
    cases h
    exact hle.trans_lt hlt

end

def AttCursor.going (c : AttCursor) : Bool := c.size ≠ 0

def pmelfPubFileAttributesRead (eh : ElfHost) (patbl : AttributeTbl) (buf : List UInt8)
    (size : Nat) : Except Halt AttributeTbl :=
  (whileLoop AttCursor.going (pubAttribute eh) AttCursor.size
    (fun _ _ h => pubAttribute_size_lt h.2) ⟨patbl, buf, size⟩).map AttCursor.patbl

/-! ## Attribute sets -/

/-- `Pmelf_attribute_set_` -/
structure AttributeSet where
  attributes : List (Option AttributeTbl)
  objName : CStr

/-- A buffer with a section; its length is `bsize`. -/
structure AttBuffer where
  bytes : List UInt8
  size_lt : bytes.length < 2 ^ 32

def AttBuffer.size (b : AttBuffer) : Nat := b.bytes.length

/-- The pointer `b + n`. -/
def AttBuffer.at (b : AttBuffer) (n : Nat) : List UInt8 := b.bytes.drop n

/-- What a pass of `pmelf_read_attribute_set` reads before it looks at the tag: `n` is where
the attributes begin, and `sublen` their size. -/
structure AttHeader where
  len : Nat
  vendorName : List UInt8
  tag : Nat
  sublen : Nat
  n : Nat
  deriving DecidableEq, Repr

/-- `l + 1` of an `int`. -/
def intSucc (l : Nat) : Except Halt Nat := if l + 1 < 2 ^ 31 then .ok (l + 1) else .error .overflow

/-- The scan for the end of the vendor name, which `l` goes over. -/
def nameScan (bsize : Nat) (l : Nat) (s : List UInt8) : Except Halt Nat :=
  match s with
  | [] => .error .outside
  | c :: s =>
    if c = 0 then .ok l
    else
      match intSucc l with
      | .error e => .error e
      | .ok l => if l ≥ bsize then reject .vendorName else nameScan bsize l s

/-- The scan begins with `l = n`, and a negative `l` is no index. -/
def vendorNameEnd (b : AttBuffer) (n : Nat) : Except Halt Nat :=
  if asInt n < 0 then .error .outside else nameScan b.size n (b.at n)

/-- `v = b[n]` -/
def formatVersion (b : AttBuffer) (n : Nat) : Except Halt Unit :=
  match b.at n with
  | [] => .error .outside
  | v :: _ => if v ≠ FORMAT_VERSION_A then reject (.formatVersion v) else .ok ()

/-- The format version and the length of the subsection. -/
def readLen (eh : ElfHost) (b : AttBuffer) (needswap : Bool) (nbeg : Nat) : Except Halt Nat := do
  formatVersion b nbeg
  let left ← minus b.size (nbeg + 1)
  let len ← pmelfGetword eh needswap (b.at (nbeg + 1)) (asInt left) .subsection
  if eh.off (nbeg + len + 1) > b.size then reject .subsectionLength else return len

/-- The tag and the length of the subsubsection, which includes byte count for tag and
length itself, and the offset behind them. -/
def readTag (eh : ElfHost) (b : AttBuffer) (needswap : Bool) (n : Nat) :
    Except Halt (Nat × Nat × Nat) := do
  let left ← minus b.size n
  let (l, tag) ← orReject .sectionTag (← pmelfGuleb128 eh (b.at n) (asInt left))
  let left ← minus b.size (n + l)
  let sublen ← pmelfGetword eh needswap (b.at (n + l)) (asInt left) .subsubsection
  let sublen ← minus sublen (4 + l)
  return (tag, sublen, n + l + 4)

def readHeader (eh : ElfHost) (b : AttBuffer) (needswap : Bool) (nbeg : Nat) :
    Except Halt AttHeader := do
  let len ← readLen eh b needswap nbeg
  let n := nbeg + 1 + 4
  let l ← vendorNameEnd b n
  let vendorName := (b.at n).take (l - n)
  let n ← intSucc l
  let (tag, sublen, n) ← readTag eh b needswap n
  return ⟨len, vendorName, tag, sublen, n⟩

/-- The first slot that is empty or belongs to the vendor, and the table to be filled. -/
def AttributeSet.slot (rval : AttributeSet) (pv : AttVendor) : Except Halt (Nat × AttributeTbl) :=
  let l := rval.attributes.findIdx fun slot => slot.all fun patbl => patbl.pv.name = pv.name
  match rval.attributes[l]? with
  | some (some patbl) => .ok (l, patbl)
  | some none => .ok (l, .create pv)
  | none => reject .vendorSlots

/-- The variables of `pmelf_read_attribute_set` at the head of a pass. -/
structure SetState where
  rval : AttributeSet
  n : Nat

/-- One pass of `while ( n < bsize )`. -/
def subsection (eh : ElfHost) (known : KnownVendors) (b : AttBuffer) (needswap : Bool)
    (st : SetState) : Except Halt SetState := do
  let h ← readHeader eh b needswap st.n
  if h.tag = Tag_File then
    let pv ← orReject (.noHandlers h.vendorName) (known.find h.vendorName)
    let (l, patbl) ← st.rval.slot pv
    let patbl ← pmelfPubFileAttributesRead eh patbl (b.at h.n) h.sublen
    return ⟨{ st.rval with attributes := st.rval.attributes.set l (some patbl) },
      eh.off (st.n + h.len + 1)⟩
  else if h.tag = Tag_Section ∨ h.tag = Tag_Symbol then reject (.notSupported h.tag)
  else reject (.unsupportedTag h.tag)

def SetState.start (objName : CStr) : SetState where
  rval := ⟨List.replicate ATTR_MAX_VENDORS none, objName⟩
  n := 0

def AttBuffer.going (b : AttBuffer) (st : SetState) : Bool := st.n < b.size

/-- At most `passes` passes of the loop. -/
def pmelfReadAttributeSet (eh : ElfHost) (known : KnownVendors) (b : AttBuffer)
    (needswap : Bool) (objName : CStr) (passes : Nat) : Option (Except Halt AttributeSet) :=
  if known.list = [] then some (reject .noVendors)
  else
    (loop b.going (subsection eh known b needswap) passes (.start objName)).map
      fun r => r.map SetState.rval

/-! ## The vendor of PowerPC objects -/

def pmelfPpcAttributeTagT (tag : Nat) : AttType :=
  if tag = Tag_Compat then .both
  else if tag = 4 ∨ tag = 8 ∨ tag = 12 then .num
  else .unknown

def pmelfAttributesVendorGnuPpc : AttVendor where
  name := ⟨[103, 110, 117], by decide⟩
  maxTag := 10
  tagType := some pmelfPpcAttributeTagT

/-- What `bfd_init` registers. -/
def ppcVendors : KnownVendors := ⟨[pmelfAttributesVendorGnuPpc], by simp⟩

end Cexp
