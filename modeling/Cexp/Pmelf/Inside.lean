import Cexp.Pmelf.Format

/-!
# Where the attribute reader reads

A run of the reader is inside its buffer if nothing stops it but an error return (or an
endless loop): no byte behind the section is read, no counter goes below zero, no `int`
overflows and nothing is stored behind the array of values (`Inside`).

For every piece of the reader there is a condition on the bytes in front of it that is
equivalent to its being inside. The bytes fit if the end of the section is not reached before
the reader notices that the declared size is used up, and if every declared size is large
enough for what is subtracted from it (`readUleb_inside`, `readStr_inside`,
`pubAttribute_inside`, `readHeader_inside`). A loop is inside if its body is at the head of
every pass (`whileLoop_halts`), which gives the condition for the whole reader
(`reader_inside_iff`).
-/

namespace Cexp

open CLib

variable {eh : ElfHost}

/-! ## Computations that stay inside -/

def Halt.harmless : Halt → Bool
  | .error _ => true
  | .hang => true
  | .outside => false
  | .wrap => false
  | .overflow => false
  | .overrun => false

/-- Every halt of a computation has the property `p`. -/
def Halts {α : Type} (p : Halt → Prop) (x : Except Halt α) : Prop := ∀ e, x = .error e → p e

section Halts

variable {α β : Type} {p : Halt → Prop}

theorem halts_ok (a : α) : Halts p (.ok a : Except Halt α) := by
  intro e h
  cases h

theorem halts_error (e : Halt) : Halts p (.error e : Except Halt α) ↔ p e := by
  constructor
  · intro h
    exact h e rfl
  · intro h e' he
    cases he
    exact h

theorem halts_bind {x : Except Halt α} {f : α → Except Halt β} :
    Halts p (x >>= f) ↔ Halts p x ∧ ∀ a, x = .ok a → Halts p (f a) := by
  cases x with
  | error e =>
    show Halts p (.error e) ↔ _
    simp [halts_error]
  | ok a =>
    show Halts p (f a) ↔ _
    simp [halts_ok]

theorem halts_map {x : Except Halt α} {f : α → β} : Halts p (x.map f) ↔ Halts p x := by
  cases x with
  | error e => simp [Except.map, halts_error]
  | ok a => simp [Except.map, halts_ok]

theorem loop_halts {σ : Type} {test : σ → Bool} {body : σ → Except Halt σ} {s : σ} :
    (∀ k r, loop test body k s = some r → Halts p r) ↔
      ∀ t, Reach test body s t → test t = true → Halts p (body t) := by
  constructor
  · intro h t hst ht e he
    obtain ⟨k, hk⟩ := loop_error_iff.mpr ⟨t, hst, ht, he⟩
    exact h k _ hk e rfl
  · intro h k r hr e he
    subst he
    obtain ⟨t, hst, ht, hb⟩ := loop_error_iff.mp ⟨k, hr⟩
    exact h t hst ht e hb

theorem whileLoop_halts {σ : Type} {test : σ → Bool} {body : σ → Except Halt σ} {μ : σ → Nat}
    {hμ : ∀ s t, Pass test body s t → μ t < μ s} {s : σ} :
    Halts p (whileLoop test body μ hμ s) ↔
      ∀ t, Reach test body s t → test t = true → Halts p (body t) := by
  constructor
  · intro h t hst ht e he
    exact h e (whileLoop_error_iff.mpr ⟨t, hst, ht, he⟩)
  · intro h e he
    obtain ⟨t, hst, ht, hb⟩ := whileLoop_error_iff.mp he
    exact h t hst ht e hb

end Halts

def Inside {α : Type} (x : Except Halt α) : Prop := Halts (fun e => e.harmless = true) x

@[simp] theorem inside_ok {α : Type} (a : α) : Inside (.ok a : Except Halt α) := halts_ok a

@[simp] theorem inside_pure {α : Type} (a : α) : Inside (pure a : Except Halt α) := halts_ok a

@[simp] theorem inside_error {α : Type} (e : Halt) :
    Inside (.error e : Except Halt α) ↔ e.harmless = true := halts_error e

@[simp] theorem inside_reject {α : Type} (c : Complaint) : Inside (reject c : Except Halt α) :=
  (inside_error _).mpr rfl

theorem inside_bind {α β : Type} {x : Except Halt α} {f : α → Except Halt β} :
    Inside (x >>= f) ↔ Inside x ∧ ∀ a, x = .ok a → Inside (f a) := halts_bind

theorem inside_map {α β : Type} {x : Except Halt α} {f : α → β} :
    Inside (x.map f) ↔ Inside x := halts_map

/-! ## Numbers, strings and values -/

theorem uleb_not_endless (u : Uleb) (rest : List UInt8)
    (h : ∀ v ∈ u.bytes ++ rest, ∃ d : Fin 128, v = UInt8.ofNat (d + 128)) : False := by
  induction u with
  | last d =>
    obtain ⟨d', hd⟩ := h (UInt8.ofNat d) (by simp [Uleb.bytes])
    apply (digit_last d).2
    rw [hd]
    exact (digit_more d').2
  | more d u ih =>
    apply ih
    intro v hv
    exact h v (List.mem_cons_of_mem _ hv)

/-- The number ends in the buffer, or the size does not go beyond the buffer. -/
def UlebInside (buf : List UInt8) (size : Nat) : Prop :=
  asInt size ≤ (buf.length : Nat) ∨ ∃ (u : Uleb) (rest : List UInt8), buf = u.bytes ++ rest

theorem readUleb_inside {c : Complaint} {buf : List UInt8} {size : Nat} :
    Inside (readUleb eh c buf size) ↔ UlebInside buf size := by
  unfold UlebInside
  rcases exists_uleb buf with ⟨u, rest, rfl⟩ | hs
  · have hin : Inside (readUleb eh c (u.bytes ++ rest) size) := by
      rw [readUleb_uleb]
      split <;> simp
    exact ⟨fun _ => .inr ⟨u, rest, rfl⟩, fun _ => hin⟩
  · rw [readUleb_endless c hs]
    constructor
    · intro h
      split at h
      · next hle => exact .inl hle
      · exact absurd ((inside_error _).mp h) (by decide)
    · rintro (hle | ⟨u, rest, rfl⟩)
      · rw [if_pos hle]
        exact inside_reject _
      · exact (uleb_not_endless u rest hs).elim

/-- The string ends in the buffer, or the size does not go beyond the buffer. With no size
left a byte is read all the same; it must be there and not end the string. -/
def StrInside (buf : List UInt8) (size : Nat) : Prop :=
  if size = 0 then ∃ c rest, buf = c :: rest ∧ c ≠ 0 else size ≤ buf.length ∨ 0 ∈ buf

theorem readStr_inside {buf : List UInt8} {size : Nat} :
    Inside (readStr buf size) ↔ StrInside buf size := by
  unfold StrInside
  rcases exists_str buf with ⟨str, rest, hstr, rfl⟩ | hs
  · rw [readStr_str str rest hstr]
    by_cases hlt : str.length < size
    · rw [if_pos hlt, if_neg (by omega)]
      simp
    · rw [if_neg hlt]
      cases str with
      | nil =>
        have hzero : size = 0 := by simpa using hlt
        rw [if_pos rfl, if_pos hzero]
        constructor
        · intro h
          exact absurd ((inside_error _).mp h) (by decide)
        · rintro ⟨c, rest', hc, hne⟩
          cases hc
          exact absurd rfl hne
      | cons c str =>
        have hne : c ≠ 0 := by
          rintro rfl
          exact hstr (by simp)
        rw [if_neg (List.cons_ne_nil _ _)]
        split
        · exact ⟨fun _ => ⟨c, _, rfl, hne⟩, fun _ => inside_reject _⟩
        · simp
  · rw [readStr_endless hs]
    cases buf with
    | nil => by_cases hz : size = 0 <;> simp [hz, Halt.harmless]
    | cons c buf =>
      have hne : c ≠ 0 := by
        rintro rfl
        exact hs (by simp)
      by_cases hz : size = 0
      · rw [if_pos ⟨List.cons_ne_nil _ _, by omega⟩, if_pos hz]
        exact ⟨fun _ => ⟨c, _, rfl, hne⟩, fun _ => inside_reject _⟩
      · rw [if_neg hz]
        by_cases hle : (c :: buf).length ≥ size
        · rw [if_pos ⟨List.cons_ne_nil _ _, hle⟩]
          exact ⟨fun _ => .inl hle, fun _ => inside_reject _⟩
        · rw [if_neg (fun h => hle h.2), inside_error]
          constructor
          · intro h
            cases h
          · rintro (h | h)
            · exact absurd h hle
            · exact absurd h hs

def ValueInside : AttType → List UInt8 → Nat → Prop
  | .unknown, _, _ => True
  | .none, _, _ => True
  | .num, buf, size => UlebInside buf size
  | .str, buf, size => StrInside buf size
  | .both, buf, size => UlebInside buf size ∧ ∀ (u : Uleb) (rest : List UInt8),
      buf = u.bytes ++ rest → (u.bytes.length : Int) ≤ asInt size →
      StrInside rest (size - u.bytes.length)

theorem readValue_inside {tag : Nat} {tagt : AttType} {buf : List UInt8} {size : Nat} :
    Inside (readValue eh tag tagt buf size) ↔ ValueInside tagt buf size := by
  cases tagt with
  | unknown => simp [readValue, ValueInside]
  | none => simp [readValue, ValueInside]
  | num =>
    unfold readValue ValueInside
    rw [inside_bind, readUleb_inside]
    simp
  | str =>
    unfold readValue ValueInside
    rw [inside_bind, readStr_inside]
    simp
  | both =>
    unfold readValue ValueInside
    rw [inside_bind, readUleb_inside]
    refine and_congr_right fun _ => ?_
    constructor
    · rintro h u rest rfl hle
      have hu := readUleb_uleb eh .ivalue u rest size
      rw [if_pos hle] at hu
      exact readStr_inside.mp (inside_bind.mp (h _ hu)).1
    · intro h r hr
      obtain ⟨u, rest, hbuf, hle, rfl⟩ := readUleb_eq_ok hr
      exact inside_bind.mpr ⟨readStr_inside.mpr (h u rest hbuf hle), fun _ _ => inside_pure _⟩

/-! ## Attributes -/

theorem insertList_error {tag : Nat} {att : Attribute} {lst : List (Nat × Attribute)} {e : Halt}
    (h : AttributeTbl.insertList tag att lst = .error e) : e = .hang := by
  induction lst with
  | nil => cases h
  | cons el lst ih =>
    unfold AttributeTbl.insertList at h
    split at h
    · split at h
      · split at h
        · exact (Except.error.inj h).symm
        · cases h
      · cases h
    · split at h
      · next e' he =>
        cases h
        exact ih he
      · cases h

theorem store_inside {patbl : AttributeTbl} {tag : Nat} {att : Attribute} :
    Inside (patbl.store tag att) ↔
      (patbl.pv.inArray tag = true → patbl.idx < patbl.vals.length) := by
  unfold AttributeTbl.store
  by_cases harr : patbl.pv.inArray tag = true
  · rw [if_pos harr]
    by_cases hroom : patbl.idx < patbl.vals.length
    · rw [if_pos hroom]
      simp [hroom]
    · rw [if_neg hroom, inside_error]
      constructor
      · intro h
        cases h
      · intro h
        exact absurd (h harr) hroom
  · rw [if_neg harr]
    refine ⟨fun _ h => absurd h harr, fun _ => ?_⟩
    split
    · next e he =>
      rw [inside_error, insertList_error he]
      rfl
    · exact inside_ok _

/-- What the bytes in front of a pass of the vendor reader must be like. -/
structure EntryInside (eh : ElfHost) (c : AttCursor) : Prop where
  tag : UlebInside c.buf c.size
  /-- the value of a tag that is accepted -/
  value : ∀ (u : Uleb) (rest : List UInt8), c.buf = u.bytes ++ rest →
    (u.bytes.length : Int) ≤ asInt c.size → c.patbl.fresh (u.word eh 0 0) →
    ValueInside (c.patbl.pv.attType (u.word eh 0 0)) rest (c.size - u.bytes.length)
  /-- there is room for an attribute that is kept in the array -/
  room : ∀ (a : AttToken) (rest : List UInt8), c.buf = a.bytes ++ rest →
    a.bytes.length ≤ c.size → c.size < 2 ^ 31 → c.patbl.fresh (a.word eh) →
    c.patbl.pv.attType (a.word eh) = a.value.type → a.value ≠ .none →
    c.patbl.pv.inArray (a.word eh) = true → c.patbl.idx < (c.patbl.grow (a.word eh)).vals.length

theorem toAttribute_isSome {v : AttValue} {att : Attribute} (h : v.toAttribute eh = some att) :
    v ≠ .none := by
  rintro rfl
  cases h

theorem pubAttribute_inside {c : AttCursor} (hs : c.size < 2 ^ 32) :
    Inside (pubAttribute eh c) ↔ EntryInside eh c := by
  constructor
  · intro h
    refine ⟨readUleb_inside.mp (inside_bind.mp h).1, ?_, ?_⟩
    · intro u rest hbuf hle hfresh
      rw [pubAttribute_tag hbuf hle hfresh] at h
      exact readValue_inside.mp (inside_bind.mp h).1
    · intro a rest hbuf hle hlt hfresh htype hval harr
      rw [pubAttribute_token hbuf hle hlt hfresh htype, inside_map] at h
      cases hatt : a.value.toAttribute eh with
      | none => cases hv : a.value <;> simp_all [AttValue.toAttribute]
      | some att =>
        rw [hatt] at h
        have := store_inside.mp h
        rw [AttributeTbl.grow_pv, AttributeTbl.grow_idx] at this
        exact this harr
  · intro h
    refine inside_bind.mpr ⟨readUleb_inside.mpr h.tag, fun r hr => ?_⟩
    obtain ⟨u, rest, hbuf, hle, rfl⟩ := readUleb_eq_ok hr
    by_cases hfresh : c.patbl.fresh (u.word eh 0 0)
    · have hpass := pubAttribute_tag hbuf hle hfresh
      unfold pubAttribute at hpass
      rw [hr] at hpass
      change (if _ then _ else _) = _ at hpass
      show Inside (if _ then _ else _)
      rw [hpass]
      refine inside_bind.mpr ⟨readValue_inside.mpr (h.value u rest hbuf hle hfresh), ?_⟩
      rintro ⟨att, buf', size'⟩ hv
      refine inside_bind.mpr ⟨?_, fun _ _ => inside_pure _⟩
      cases att with
      | none => exact inside_ok _
      | some att =>
        obtain ⟨v, htype, rfl, hvle, hatt, -⟩ := readValue_eq_ok hv
        refine store_inside.mpr ?_
        rw [AttributeTbl.grow_pv, AttributeTbl.grow_idx]
        intro harr
        have hint := asInt_le c.size
        exact h.room ⟨u, v⟩ buf' (by rw [hbuf, AttToken.bytes, List.append_assoc])
          (by rw [AttToken.bytes, List.length_append]; dsimp only; omega)
          (asInt_ge_lt u.bytes_pos hle hs) hfresh htype.symm (toAttribute_isSome hatt.symm) harr
    · have hpass := pubAttribute_dup hbuf hle hfresh
      unfold pubAttribute at hpass
      rw [hr] at hpass
      change (if _ then _ else _) = _ at hpass
      show Inside (if _ then _ else _)
      rw [hpass]
      exact inside_reject _

/-- The states at the head of the passes of the vendor reader. -/
def AttReach (eh : ElfHost) : AttCursor → AttCursor → Prop :=
  Reach AttCursor.going (pubAttribute eh)

theorem AttReach.size_le {c c' : AttCursor} (h : AttReach eh c c') : c'.size ≤ c.size := by
  induction h with
  | refl => exact Nat.le_refl _
  | tail _ hpass ih => exact (pubAttribute_size_lt hpass.2).le.trans ih

theorem pmelfPubFileAttributesRead_inside {patbl : AttributeTbl} {buf : List UInt8} {size : Nat}
    (hs : size < 2 ^ 32) :
    Inside (pmelfPubFileAttributesRead eh patbl buf size) ↔
      ∀ c, AttReach eh ⟨patbl, buf, size⟩ c → c.size ≠ 0 → EntryInside eh c := by
  unfold pmelfPubFileAttributesRead
  rw [inside_map]
  refine whileLoop_halts.trans (forall_congr' fun c => forall_congr' fun hc => ?_)
  have hlt : c.size < 2 ^ 32 := (AttReach.size_le hc).trans_lt hs
  have hin : Inside (pubAttribute eh c) ↔ _ := pubAttribute_inside hlt
  rw [AttCursor.going, decide_eq_true_iff]
  exact imp_congr_right fun _ => hin

/-! ## Headers -/

theorem readLen_inside {b : AttBuffer} {needswap : Bool} {n : Nat} (hn : n < b.size) :
    Inside (readLen eh b needswap n) := by
  have hlen := b.at_length n
  have hlt : b.size < 2 ^ 32 := b.size_lt
  cases hat : b.at n with
  | nil =>
    rw [hat, List.length_nil] at hlen
    omega
  | cons v rest =>
    by_cases hv : v = FORMAT_VERSION_A
    · subst hv
      rw [hat, List.length_cons] at hlen
      rw [readLen_cons hat]
      rcases pmelfGetword_buffer eh needswap rest (by omega) .subsection with
        ⟨w, rest', -, -, hget⟩ | ⟨-, hget⟩
      · rw [hget]
        show Inside (if _ then _ else _)
        split <;> simp
      · rw [hget]
        exact inside_reject _
    · have hversion : formatVersion b n = reject (.formatVersion v) := by
        rw [formatVersion, hat]
        exact if_pos hv
      unfold readLen
      rw [hversion]
      exact inside_reject _

theorem vendorNameEnd_inside {b : AttBuffer} {n : Nat} (hn : n ≤ b.size) :
    Inside (vendorNameEnd b n >>= intSucc) ↔
      b.at n ≠ [] ∧ (0 ∉ b.at n → b.size < 2 ^ 31) ∧ ∀ (name : CStr) (rest : List UInt8),
        b.at n = name.bytes ++ 0 :: rest → n + name.bytes.length + 1 < 2 ^ 31 := by
  have hlen := b.at_length n
  rcases exists_str (b.at n) with ⟨str, rest, hstr, hs⟩ | hs
  · have hne : b.at n ≠ [] := by
      rw [hs]
      simp
    have hmem : 0 ∈ b.at n := by
      rw [hs]
      simp
    have hend := vendorNameEnd_str ⟨str, hstr⟩ hs
    constructor
    · intro h
      refine ⟨hne, fun h0 => absurd hmem h0, fun name rest' hname => ?_⟩
      rw [vendorNameEnd_str _ hname] at h
      split at h
      · split at h
        · by_contra hge
          have hover : intSucc (n + name.bytes.length) = .error .overflow := if_neg hge
          change Inside (intSucc _) at h
          rw [hover] at h
          exact absurd ((inside_error _).mp h) (by decide)
        · exact absurd ((inside_error _).mp h) (by decide)
      · exact absurd ((inside_error _).mp h) (by decide)
    · rintro ⟨-, -, hname⟩
      have hlt := hname ⟨str, hstr⟩ rest hs
      dsimp only at hlt
      rw [hend, if_pos (by omega), if_pos (by dsimp only; omega)]
      show Inside (if _ then _ else _)
      rw [if_pos (by dsimp only; omega)]
      exact inside_ok _
  · have hend := vendorNameEnd_endless hs hn
    have hnone : ∀ (name : CStr) (rest : List UInt8), b.at n = name.bytes ++ 0 :: rest → False := by
      intro name rest hname
      apply hs
      rw [hname]
      simp
    rw [hend]
    constructor
    · intro h
      split at h
      · next hpos =>
        split at h
        · next hlt => exact ⟨hpos.2, fun _ => hlt, fun name rest hname => (hnone name rest hname).elim⟩
        · exact absurd ((inside_error _).mp h) (by decide)
      · exact absurd ((inside_error _).mp h) (by decide)
    · rintro ⟨hne, hlt, -⟩
      have hlt' := hlt hs
      rw [if_pos ⟨by omega, hne⟩, if_pos hlt']
      exact inside_reject _

theorem readTag_inside {b : AttBuffer} {needswap : Bool} {n : Nat} (hn : n ≤ b.size) :
    Inside (readTag eh b needswap n) ↔
      ∀ (u : Uleb) (sublen : Nat) (rest : List UInt8), sublen < 2 ^ 32 →
        b.at n = u.bytes ++ (wordBytes (eh.fileBig needswap) sublen ++ rest) →
        (u.bytes.length : Int) ≤ asInt (b.size - n) → 4 + u.bytes.length ≤ sublen := by
  have hsize := b.at_length n
  have hlt : b.size < 2 ^ 32 := b.size_lt
  constructor
  · intro h u sublen rest hsub hat hint
    rw [readTag_token hn hsub hat hint] at h
    by_contra hge
    have hwrap : minus sublen (4 + u.bytes.length) = .error .wrap := if_pos (by omega)
    rw [hwrap] at h
    exact absurd ((inside_error _).mp h) (by decide)
  · intro h
    by_cases hu : ∃ (u : Uleb) (rest : List UInt8), b.at n = u.bytes ++ rest ∧
        (u.bytes.length : Int) ≤ asInt (b.size - n)
    · obtain ⟨u, rest, hat, hint⟩ := hu
      rw [hat, List.length_append] at hsize
      rw [readTag_uleb hn hat hint]
      rcases pmelfGetword_buffer eh needswap rest (by omega) .subsubsection with
        ⟨w, rest', hw, hrest, hget⟩ | ⟨-, hget⟩
      · rw [hget]
        show Inside (minus w _ >>= _)
        rw [minus_ok (h u w rest' hw (by rw [hat, hrest]) hint)]
        exact inside_ok _
      · rw [hget]
        exact inside_reject _
    · rw [readTag_reject hn hu]
      exact inside_reject _

/-- What the bytes at the beginning of a subsection must be like: `name` and `sublen` are
about those whose length does not exceed the section. -/
structure HeaderInside (eh : ElfHost) (b : AttBuffer) (needswap : Bool) (n : Nat) : Prop where
  name : ∀ (len : Nat) (rest : List UInt8), len < 2 ^ 32 →
    b.at n = FORMAT_VERSION_A :: (wordBytes (eh.fileBig needswap) len ++ rest) →
    eh.off (n + len + 1) ≤ b.size →
    rest ≠ [] ∧ (0 ∉ rest → b.size < 2 ^ 31) ∧ ∀ (name : CStr) (rest' : List UInt8),
      rest = name.bytes ++ 0 :: rest' → n + 6 + name.bytes.length < 2 ^ 31
  sublen : ∀ (t : HeaderToken) (rest : List UInt8),
    b.at n = t.bytes (eh.fileBig needswap) ++ rest → eh.off (n + t.len + 1) ≤ b.size →
    (t.tag.bytes.length : Int) ≤ asInt (b.size - (n + 6 + t.name.bytes.length)) →
    4 + t.tag.bytes.length ≤ t.sublen

theorem inside_assoc {α β γ : Type} {x : Except Halt α} {f : α → Except Halt β}
    {g : α → β → Except Halt γ} :
    Inside (x >>= fun a => f a >>= g a) ↔
      Inside (x >>= f) ∧ ∀ a b, x = .ok a → f a = .ok b → Inside (g a b) := by
  constructor
  · intro h
    obtain ⟨hx, hf⟩ := inside_bind.mp h
    refine ⟨inside_bind.mpr ⟨hx, fun a ha => (inside_bind.mp (hf a ha)).1⟩, fun a b ha hb => ?_⟩
    exact (inside_bind.mp (hf a ha)).2 b hb
  · rintro ⟨hxf, hg⟩
    obtain ⟨hx, hf⟩ := inside_bind.mp hxf
    exact inside_bind.mpr ⟨hx, fun a ha => inside_bind.mpr ⟨hf a ha, fun b hb => hg a b ha hb⟩⟩

theorem HeaderToken.at_front {b : AttBuffer} {big : Bool} {t : HeaderToken} {n : Nat}
    {rest : List UInt8} (h : b.at n = t.bytes big ++ rest) :
    b.at n = FORMAT_VERSION_A :: (wordBytes big t.len ++
      (t.name.bytes ++ 0 :: (t.tail big ++ rest))) := by
  rw [h, bytes]
  simp

theorem readHeader_inside {b : AttBuffer} {needswap : Bool} {n : Nat} (hn : n < b.size) :
    Inside (readHeader eh b needswap n) ↔ HeaderInside eh b needswap n := by
  have hsize := b.at_length n
  constructor
  · intro h
    refine ⟨fun len rest hlen hat hoff => ?_, fun t rest hat hoff hint => ?_⟩
    · rw [readHeader_len hlen hat hoff, inside_assoc] at h
      rw [hat, List.length_cons, List.length_append, wordBytes_length] at hsize
      have hname := (vendorNameEnd_inside (n := n + 1 + 4) (by omega)).mp h.1
      rw [AttBuffer.at_len hat] at hname
      refine ⟨hname.1, hname.2.1, fun name rest' hrest => ?_⟩
      have := hname.2.2 name rest' hrest
      omega
    · have hfront := HeaderToken.at_front hat
      rw [hat, List.length_append, t.bytes_length] at hsize
      by_cases hname : n + 6 + t.name.bytes.length < 2 ^ 31
      · rw [readHeader_name t.len_lt hfront hoff hname] at h
        exact (readTag_inside (by omega)).mp (inside_bind.mp h).1 t.tag t.sublen rest t.sublen_lt
          (HeaderToken.at_tag hat) hint
      · rw [readHeader_len t.len_lt hfront hoff, inside_assoc] at h
        have hend := ((vendorNameEnd_inside (n := n + 1 + 4) (by omega)).mp h.1).2.2 t.name _
          (AttBuffer.at_len hfront)
        omega
  · intro h
    refine inside_bind.mpr ⟨readLen_inside hn, fun len hl => ?_⟩
    obtain ⟨hlen, hoff, rest, hat⟩ := readLen_eq_ok hl
    obtain ⟨hne, hlt, hname⟩ := h.name len rest hlen hat hoff
    have hrest := AttBuffer.at_len hat
    rw [hat, List.length_cons, List.length_append, wordBytes_length] at hsize
    have hend : Inside (vendorNameEnd b (n + 1 + 4) >>= intSucc) := by
      rw [vendorNameEnd_inside (by omega), hrest]
      refine ⟨hne, hlt, fun name rest' hr => ?_⟩
      have := hname name rest' hr
      omega
    refine inside_assoc.mpr ⟨hend, fun l n' hl' hn' => ?_⟩
    obtain ⟨name, rest', hbytes, -, rfl⟩ := vendorNameEnd_eq_ok (by omega) hl'
    have hend' := b.at_length (n + 1 + 4)
    rw [hbytes, List.length_append, List.length_cons] at hend'
    unfold intSucc at hn'
    split at hn'
    · cases hn'
      have hpos : n + 1 + 4 + name.bytes.length + 1 = n + 6 + name.bytes.length := by omega
      rw [hpos]
      refine inside_bind.mpr ⟨?_, fun _ _ => inside_pure _⟩
      rw [readTag_inside (by omega)]
      intro u sublen rest'' hsub hat' hint
      apply h.sublen ⟨len, name, u, sublen, hlen, hsub⟩ rest'' _ hoff hint
      have hafter : rest' = u.bytes ++ (wordBytes (eh.fileBig needswap) sublen ++ rest'') := by
        have hfront : b.at (n + 1 + 4) = (name.bytes ++ [0]) ++ rest' := by
          rw [hbytes]
          simp
        have hcut := AttBuffer.at_append hfront
        rw [List.length_append, List.length_singleton, ← Nat.add_assoc, hpos, hat'] at hcut
        exact hcut.symm
      rw [hat, ← hrest, hbytes, hafter, HeaderToken.bytes, HeaderToken.tail]
      simp
    · cases hn'

/-! ## The reader -/

/-- The states at the head of the passes of `pmelf_read_attribute_set`. -/
def SetReach (eh : ElfHost) (known : KnownVendors) (b : AttBuffer) (needswap : Bool) :
    SetState → SetState → Prop :=
  Reach b.going (subsection eh known b needswap)

/-- The vendor reader is called for the table `patbl`, with what stands at `n` as header. -/
def VendorCall (eh : ElfHost) (known : KnownVendors) (b : AttBuffer) (needswap : Bool)
    (st : SetState) (t : HeaderToken) (patbl : AttributeTbl) : Prop :=
  (∃ rest, b.at st.n = t.bytes (eh.fileBig needswap) ++ rest) ∧ t.Readable eh b st.n ∧
    t.tag.word eh 0 0 = Tag_File ∧
    ∃ pv l, known.find t.name.bytes = some pv ∧ st.rval.slot pv = .ok (l, patbl)

/-- The attributes of the subsection that begins at `n`. -/
def HeaderToken.cursor (eh : ElfHost) (b : AttBuffer) (needswap : Bool) (t : HeaderToken)
    (n : Nat) (patbl : AttributeTbl) : AttCursor :=
  ⟨patbl, b.at (n + (t.bytes (eh.fileBig needswap)).length), t.sublen - (4 + t.tag.bytes.length)⟩

/-- What the bytes in front of a pass of `pmelf_read_attribute_set` must be like. -/
structure SubsectionInside (eh : ElfHost) (known : KnownVendors) (b : AttBuffer)
    (needswap : Bool) (st : SetState) : Prop where
  header : HeaderInside eh b needswap st.n
  attributes : ∀ t patbl, VendorCall eh known b needswap st t patbl →
    ∀ c, AttReach eh (t.cursor eh b needswap st.n patbl) c → c.size ≠ 0 → EntryInside eh c

theorem slot_halts {p : Halt → Prop} (hp : ∀ c, p (.error c)) (rval : AttributeSet)
    (pv : AttVendor) : Halts p (rval.slot pv) := by
  unfold AttributeSet.slot
  dsimp only
  split
  · exact halts_ok _
  · exact halts_ok _
  · exact (halts_error _).mpr (hp _)

/-- A pass halts where its header or the attributes do, or with an error return. -/
theorem subsection_halts {p : Halt → Prop} (hp : ∀ c, p (.error c)) {known : KnownVendors}
    {b : AttBuffer} {needswap : Bool} {st : SetState} (hn : st.n < b.size) :
    Halts p (subsection eh known b needswap st) ↔
      Halts p (readHeader eh b needswap st.n) ∧
        ∀ t patbl, VendorCall eh known b needswap st t patbl →
          Halts p (pmelfPubFileAttributesRead eh patbl (t.cursor eh b needswap st.n patbl).buf
            (t.cursor eh b needswap st.n patbl).size) := by
  constructor
  · intro h
    obtain ⟨hh, h⟩ := halts_bind.mp h
    refine ⟨hh, ?_⟩
    rintro t patbl ⟨⟨rest, hat⟩, hr, htag, pv, l, hfind, hslot⟩
    have hsub := h _ (readHeader_token hat hr)
    rw [HeaderToken.header] at hsub
    dsimp only at hsub
    rw [if_pos htag, hfind] at hsub
    change Halts p (st.rval.slot pv >>= _) at hsub
    rw [hslot] at hsub
    change Halts p (pmelfPubFileAttributesRead eh patbl _ _ >>= _) at hsub
    exact (halts_bind.mp hsub).1
  · rintro ⟨hh, h⟩
    refine halts_bind.mpr ⟨hh, fun hd hhd => ?_⟩
    obtain ⟨t, rest, hat, hr, rfl⟩ := readHeader_eq_ok hn hhd
    rw [HeaderToken.header]
    dsimp only
    by_cases htag : t.tag.word eh 0 0 = Tag_File
    · rw [if_pos htag]
      cases hfind : known.find t.name.bytes with
      | none => exact (halts_error _).mpr (hp _)
      | some pv =>
        show Halts p (st.rval.slot pv >>= _)
        refine halts_bind.mpr ⟨slot_halts hp _ _, ?_⟩
        rintro ⟨l, patbl⟩ hslot
        refine halts_bind.mpr ⟨?_, fun _ _ => halts_ok _⟩
        exact h t patbl ⟨⟨rest, hat⟩, hr, htag, pv, l, hfind, hslot⟩
    · rw [if_neg htag]
      split
      · exact (halts_error _).mpr (hp _)
      · exact (halts_error _).mpr (hp _)

theorem HeaderToken.cursor_size (b : AttBuffer) (needswap : Bool) (t : HeaderToken) (n : Nat)
    (patbl : AttributeTbl) : (t.cursor eh b needswap n patbl).size < 2 ^ 32 :=
  (Nat.sub_le _ _).trans_lt t.sublen_lt

theorem subsection_inside {known : KnownVendors} {b : AttBuffer} {needswap : Bool}
    {st : SetState} (hn : st.n < b.size) :
    Inside (subsection eh known b needswap st) ↔ SubsectionInside eh known b needswap st := by
  have hiff : Inside (subsection eh known b needswap st) ↔ _ :=
    subsection_halts (fun _ => rfl) hn
  refine hiff.trans ⟨fun h => ⟨(readHeader_inside hn).mp h.1, fun t patbl hcall => ?_⟩,
    fun h => ⟨(readHeader_inside hn).mpr h.header, fun t patbl hcall => ?_⟩⟩
  · exact (pmelfPubFileAttributesRead_inside (t.cursor_size b needswap _ _)).mp (h.2 t patbl hcall)
  · exact (pmelfPubFileAttributesRead_inside (t.cursor_size b needswap _ _)).mpr
      (h.attributes t patbl hcall)

theorem pmelfReadAttributeSet_eq {known : KnownVendors} (hnil : known.list ≠ []) (b : AttBuffer)
    (needswap : Bool) (objName : CStr) (passes : Nat) :
    pmelfReadAttributeSet eh known b needswap objName passes =
      (loop b.going (subsection eh known b needswap) passes (.start objName)).map
        fun r => r.map SetState.rval := if_neg hnil

/-- Reading a section stays inside it if and only if the bytes in front of every pass fit. -/
theorem reader_inside_iff (eh : ElfHost) (known : KnownVendors) (b : AttBuffer)
    (needswap : Bool) (objName : CStr) :
    (∀ passes r, pmelfReadAttributeSet eh known b needswap objName passes = some r → Inside r) ↔
      known.list = [] ∨ ∀ st, SetReach eh known b needswap (.start objName) st →
        st.n < b.size → SubsectionInside eh known b needswap st := by
  by_cases hnil : known.list = []
  · refine ⟨fun _ => .inl hnil, fun _ passes r hr => ?_⟩
    rw [pmelfReadAttributeSet, if_pos hnil] at hr
    cases hr
    exact inside_reject _
  · have hloop : (∀ k r, loop b.going (subsection eh known b needswap) k (.start objName) =
        some r → Inside r) ↔ _ := loop_halts
    constructor
    · intro h
      refine .inr fun st hst hn => ?_
      refine (subsection_inside hn).mp (hloop.mp ?_ st hst (decide_eq_true hn))
      intro k r hr
      exact inside_map.mp (h k _ (by rw [pmelfReadAttributeSet_eq hnil, hr]; rfl))
    · intro h passes r hr
      have h := h.resolve_left hnil
      rw [pmelfReadAttributeSet_eq hnil] at hr
      obtain ⟨r', hr', rfl⟩ := Option.map_eq_some_iff.mp hr
      refine inside_map.mpr (hloop.mpr ?_ passes r' hr')
      intro st hst hn
      exact (subsection_inside (of_decide_eq_true hn)).mpr (h st hst (of_decide_eq_true hn))

/-! ## A section that is read beyond its end -/

/-- A host whose over-wide shifts give zero. -/
def plainElfHost (dm : DataModel) (bigEndian : Bool) : ElfHost where
  dm := dm
  bigEndian := bigEndian
  wideShl _ _ := 0
  wideShl_zero _ := rfl

/-- A subsection of four bytes, with no vendor name behind its length. -/
def headerOnly : AttBuffer := ⟨[65, 4, 0, 0, 0], by decide⟩

theorem vendor_name_outside :
    ¬∀ passes r, pmelfReadAttributeSet (plainElfHost .lp64 false) ppcVendors headerOnly false
      ⟨[], by decide⟩ passes = some r → Inside r := by
  intro h
  exact absurd (h 1 (.error .outside) rfl .outside rfl) (by decide)

end Cexp
