import Cexp.Pmelf.Sets

/-!
# What stops the attribute reader

Reading numbers, strings and headers ends with an error return, outside of the section or
with a counter that leaves its range. Every other way to stop comes from an attribute that is
added to a table, so a property of halts that the first ones have is one of the attributes
that the reader meets (`reader_halts_iff`). What holds of an empty table and is kept by every
attribute holds of the tables of all these passes (`PassReached.invariant`).
-/

namespace Cexp

open CLib

variable {eh : ElfHost}

/-- A computation that does not stop with a halt. -/
theorem ne_error_iff {α : Type} {e : Halt} {x : Except Halt α} :
    x ≠ .error e ↔ Halts (fun e' => e' ≠ e) x := by
  constructor
  · rintro hne e' rfl rfl
    exact hne rfl
  · rintro h rfl
    exact h e rfl rfl

theorem toAttribute_eq_none {v : AttValue} : v.toAttribute eh = none ↔ v = .none := by
  cases v <;> simp [AttValue.toAttribute]

/-! ## Numbers, strings and headers -/

/-- A property that all halts of the reader have before it looks at a table. -/
structure ReaderHalts (p : Halt → Prop) : Prop where
  error : ∀ c, p (.error c)
  outside : p .outside
  wrap : p .wrap
  overflow : p .overflow

section

variable {p : Halt → Prop} (hp : ReaderHalts p)

include hp

theorem halts_reject {α : Type} (c : Complaint) : Halts p (reject c : Except Halt α) :=
  (halts_error _).mpr (hp.error c)

theorem minus_halts (a b : Nat) : Halts p (minus a b) := by
  unfold minus
  split
  · exact (halts_error _).mpr hp.wrap
  · exact halts_ok _

theorem orReject_halts {α : Type} (c : Complaint) (x : Option α) : Halts p (orReject c x) := by
  cases x with
  | none => exact halts_reject hp c
  | some a => exact halts_ok a

theorem readUleb_halts (c : Complaint) (buf : List UInt8) (size : Nat) :
    Halts p (readUleb eh c buf size) := by
  rcases exists_uleb buf with ⟨u, rest, rfl⟩ | hs
  · rw [readUleb_uleb]
    split
    · exact halts_ok _
    · exact halts_reject hp c
  · rw [readUleb_endless c hs]
    split
    · exact halts_reject hp c
    · exact (halts_error _).mpr hp.outside

theorem readStr_halts (buf : List UInt8) (size : Nat) : Halts p (readStr buf size) := by
  rcases exists_str buf with ⟨str, rest, hstr, rfl⟩ | hs
  · rw [readStr_str str rest hstr]
    split
    · exact halts_ok _
    · split
      · exact (halts_error _).mpr hp.wrap
      · exact halts_reject hp _
  · rw [readStr_endless hs]
    split
    · exact halts_reject hp _
    · exact (halts_error _).mpr hp.outside

theorem readValue_halts (tag : Nat) (tagt : AttType) (buf : List UInt8) (size : Nat) :
    Halts p (readValue eh tag tagt buf size) := by
  cases tagt with
  | unknown => exact halts_reject hp _
  | none => exact halts_ok _
  | num => exact halts_bind.mpr ⟨readUleb_halts hp _ _ _, fun _ _ => halts_ok _⟩
  | str => exact halts_bind.mpr ⟨readStr_halts hp _ _, fun _ _ => halts_ok _⟩
  | both =>
    refine halts_bind.mpr ⟨readUleb_halts hp _ _ _, fun _ _ => ?_⟩
    exact halts_bind.mpr ⟨readStr_halts hp _ _, fun _ _ => halts_ok _⟩

theorem pmelfGetword_halts (needswap : Bool) (b : List UInt8) (sz : Int) (nm : WordName) :
    Halts p (pmelfGetword eh needswap b sz nm) := by
  unfold pmelfGetword
  split
  · exact halts_reject hp _
  · split
    · split <;> exact halts_ok _
    · exact (halts_error _).mpr hp.outside

theorem pmelfGuleb128_halts (s : List UInt8) (sz : Int) : Halts p (pmelfGuleb128 eh s sz) := by
  unfold pmelfGuleb128
  rcases exists_uleb s with ⟨u, rest, rfl⟩ | hs
  · rw [guleb128_uleb]
    split <;> exact halts_ok _
  · rw [guleb128_endless eh sz s hs]
    split
    · exact halts_ok _
    · exact (halts_error _).mpr hp.outside

theorem intSucc_halts (l : Nat) : Halts p (intSucc l) := by
  unfold intSucc
  split
  · exact halts_ok _
  · exact (halts_error _).mpr hp.overflow

theorem vendorNameEnd_halts {b : AttBuffer} {n : Nat} (hn : n ≤ b.size) :
    Halts p (vendorNameEnd b n) := by
  have hover : Halts p (.error .overflow : Except Halt Nat) := (halts_error _).mpr hp.overflow
  rcases exists_str (b.at n) with ⟨str, rest, hstr, hs⟩ | hs
  · rw [vendorNameEnd_str ⟨str, hstr⟩ hs]
    split
    · split
      · exact halts_ok _
      · exact hover
    · exact (halts_error _).mpr hp.outside
  · rw [vendorNameEnd_endless hs hn]
    split
    · split
      · exact halts_reject hp _
      · exact hover
    · exact (halts_error _).mpr hp.outside

theorem readTag_halts (b : AttBuffer) (needswap : Bool) (n : Nat) :
    Halts p (readTag eh b needswap n) := by
  refine halts_bind.mpr ⟨minus_halts hp _ _, fun _ _ => ?_⟩
  refine halts_bind.mpr ⟨pmelfGuleb128_halts hp _ _, fun _ _ => ?_⟩
  refine halts_bind.mpr ⟨orReject_halts hp _ _, fun _ _ => ?_⟩
  refine halts_bind.mpr ⟨minus_halts hp _ _, fun _ _ => ?_⟩
  refine halts_bind.mpr ⟨pmelfGetword_halts hp _ _ _ _, fun _ _ => ?_⟩
  exact halts_bind.mpr ⟨minus_halts hp _ _, fun _ _ => halts_ok _⟩

theorem readHeader_halts {b : AttBuffer} {needswap : Bool} {n : Nat} (hn : n < b.size) :
    Halts p (readHeader eh b needswap n) := by
  have hlen : Halts p (readLen eh b needswap n) := by
    refine halts_bind.mpr ⟨?_, fun _ _ => ?_⟩
    · unfold formatVersion
      split
      · exact (halts_error _).mpr hp.outside
      · split
        · exact halts_reject hp _
        · exact halts_ok _
    · refine halts_bind.mpr ⟨minus_halts hp _ _, fun _ _ => ?_⟩
      refine halts_bind.mpr ⟨pmelfGetword_halts hp _ _ _ _, fun _ _ => ?_⟩
      split
      · exact halts_reject hp _
      · exact halts_ok _
  refine halts_bind.mpr ⟨hlen, fun len hl => ?_⟩
  obtain ⟨-, -, rest, hat⟩ := readLen_eq_ok hl
  have hsize := b.at_length n
  rw [hat, List.length_cons, List.length_append, wordBytes_length] at hsize
  refine halts_bind.mpr ⟨vendorNameEnd_halts hp (by omega), fun _ _ => ?_⟩
  refine halts_bind.mpr ⟨intSucc_halts hp _, fun _ _ => ?_⟩
  exact halts_bind.mpr ⟨readTag_halts hp _ _ _, fun _ _ => halts_ok _⟩

/-! ## Attributes -/

/-- The attribute in front of a pass of the vendor reader. -/
structure AttCursor.Front (eh : ElfHost) (c : AttCursor) (a : AttToken) : Prop where
  bytes : ∃ rest, c.buf = a.bytes ++ rest
  le : a.bytes.length ≤ c.size
  lt : c.size < 2 ^ 31
  typed : a.Typed eh c.patbl.pv

/-- A pass halts where the attribute in front of it is added. -/
theorem pubAttribute_halts {c : AttCursor} (hs : c.size < 2 ^ 32) :
    Halts p (pubAttribute eh c) ↔ ∀ a, c.Front eh a → Halts p (addToken eh c.patbl a) := by
  constructor
  · intro h a hfront
    obtain ⟨rest, hbuf⟩ := hfront.bytes
    rw [addToken_eq hbuf hfront.le hfront.lt hfront.typed, halts_map] at h
    exact h
  · intro h
    cases ht : readUleb eh .tag c.buf c.size with
    | error e =>
      unfold pubAttribute
      rw [ht]
      exact (halts_error e).mpr (readUleb_halts hp _ _ _ e ht)
    | ok r =>
      obtain ⟨u, rest, hbuf, hle, rfl⟩ := readUleb_eq_ok ht
      by_cases hfresh : c.patbl.fresh (u.word eh 0 0)
      · cases hv : readValue eh (u.word eh 0 0) (c.patbl.pv.attType (u.word eh 0 0)) rest
            (c.size - u.bytes.length) with
        | error e =>
          rw [pubAttribute_tag hbuf hle hfresh]
          unfold afterTag
          rw [hv]
          exact (halts_error e).mpr (readValue_halts hp _ _ _ _ e hv)
        | ok r =>
          obtain ⟨att, buf', size'⟩ := r
          obtain ⟨v, htype, rfl, hvle, -, -⟩ := readValue_eq_ok hv
          have hint := asInt_le c.size
          have hlen : (u.bytes ++ v.bytes).length ≤ c.size := by
            rw [List.length_append]
            omega
          have hbytes : c.buf = AttToken.bytes ⟨u, v⟩ ++ buf' := by
            rw [hbuf, AttToken.bytes, List.append_assoc]
          have hlt : c.size < 2 ^ 31 := asInt_ge_lt u.bytes_pos hle hs
          have hadd := h ⟨u, v⟩ ⟨⟨buf', hbytes⟩, hlen, hlt, htype.symm⟩
          rw [addToken_eq hbytes hlen hlt htype.symm, halts_map]
          exact hadd
      · rw [pubAttribute_dup hbuf hle hfresh]
        exact halts_reject hp _

end

/-! ## Passes -/

/-- A pass of a vendor reader in a run over the section. -/
def PassReached (eh : ElfHost) (known : KnownVendors) (b : AttBuffer) (needswap : Bool)
    (objName : CStr) (c : AttCursor) : Prop :=
  ∃ st t patbl, SetReach eh known b needswap (.start objName) st ∧ st.n < b.size ∧
    VendorCall eh known b needswap st t patbl ∧
    AttReach eh (t.cursor eh b needswap st.n patbl) c ∧ c.size ≠ 0

section

variable {known : KnownVendors} {b : AttBuffer} {needswap : Bool} {objName : CStr}

theorem PassReached.size_lt {c : AttCursor} (h : PassReached eh known b needswap objName c) :
    c.size < 2 ^ 32 := by
  obtain ⟨st, t, patbl, -, -, -, hreach, -⟩ := h
  exact (AttReach.size_le hreach).trans_lt (t.cursor_size _ _ _ _)

/-- Where the run halts, adding an attribute halts. -/
theorem reader_halts_iff {p : Halt → Prop} (hp : ReaderHalts p) (hnil : known.list ≠ []) :
    (∀ passes r, pmelfReadAttributeSet eh known b needswap objName passes = some r →
      Halts p r) ↔
    ∀ c, PassReached eh known b needswap objName c → ∀ a, c.Front eh a →
      Halts p (addToken eh c.patbl a) := by
  have hloop : (∀ k r, loop b.going (subsection eh known b needswap) k (.start objName) =
      some r → Halts p r) ↔ _ := loop_halts
  have hread : (∀ passes r, pmelfReadAttributeSet eh known b needswap objName passes = some r →
      Halts p r) ↔ ∀ k r, loop b.going (subsection eh known b needswap) k (.start objName) =
      some r → Halts p r := by
    refine forall_congr' fun k => ?_
    rw [pmelfReadAttributeSet_eq hnil]
    constructor
    · intro h r hr
      rw [hr] at h
      exact halts_map.mp (h _ rfl)
    · intro h r hr
      obtain ⟨r', hr', rfl⟩ := Option.map_eq_some_iff.mp hr
      exact halts_map.mpr (h r' hr')
  rw [hread, hloop]
  constructor
  · rintro h c ⟨st, t, patbl, hst, hn, hcall, hc, hsize⟩
    have hsub := ((subsection_halts hp.error hn).mp (h st hst (decide_eq_true hn))).2 t patbl hcall
    have hpass := whileLoop_halts.mp (halts_map.mp hsub) c hc (decide_eq_true hsize)
    exact (pubAttribute_halts hp
      (PassReached.size_lt ⟨st, t, patbl, hst, hn, hcall, hc, hsize⟩)).mp hpass
  · intro h st hst hgo
    have hn : st.n < b.size := of_decide_eq_true hgo
    refine (subsection_halts hp.error hn).mpr ⟨readHeader_halts hp hn, ?_⟩
    intro t patbl hcall
    refine halts_map.mpr (whileLoop_halts.mpr ?_)
    intro c hc hsize
    have hreached : PassReached eh known b needswap objName c :=
      ⟨st, t, patbl, hst, hn, hcall, hc, of_decide_eq_true hsize⟩
    exact (pubAttribute_halts hp hreached.size_lt).mpr (h c hreached)
/-! ## Invariants of the tables -/

theorem slot_table {rval : AttributeSet} {pv : AttVendor} {l : Nat} {patbl : AttributeTbl}
    (h : rval.slot pv = .ok (l, patbl)) : some patbl ∈ rval.attributes ∨ patbl = .create pv := by
  unfold AttributeSet.slot at h
  dsimp only at h
  split at h
  · next hget =>
    cases h
    exact .inl (List.mem_of_getElem? hget)
  · cases h
    exact .inr rfl
  · cases h

section

variable {I : AttributeTbl → Prop}

theorem addTokens_invariant
    (hadd : ∀ {patbl patbl' : AttributeTbl} {a : AttToken}, I patbl →
      addToken eh patbl a = .ok patbl' → I patbl')
    {patbl patbl' : AttributeTbl} {as : List AttToken} (h : I patbl)
    (hrun : addTokens eh patbl as = .ok patbl') : I patbl' := by
  induction as generalizing patbl with
  | nil =>
    cases hrun
    exact h
  | cons a as ih =>
    unfold addTokens at hrun
    split at hrun
    · cases hrun
    · next hone => exact ih (hadd h hone) hrun

variable (hcreate : ∀ pv, I (.create pv))
  (hadd : ∀ {patbl patbl' : AttributeTbl} {a : AttToken}, I patbl →
    addToken eh patbl a = .ok patbl' → I patbl')

include hcreate hadd

/-- The tables of a set in a run. -/
theorem SetReach.invariant {st : SetState}
    (h : SetReach eh known b needswap (.start objName) st) :
    ∀ patbl, some patbl ∈ st.rval.attributes → I patbl := by
  induction h with
  | refl =>
    intro patbl hmem
    have hnone := List.eq_of_mem_replicate hmem
    cases hnone
  | @tail st₁ st₂ hst hpass ih =>
    obtain ⟨occ, hkept⟩ := (SetKept.start known objName).reach hst
    obtain ⟨t, pv, as, l, patbl₁, patbl₂, -, hslot, hrun, rfl⟩ :=
      subsection_eq_ok (of_decide_eq_true hpass.1)
        (fun l pv patbl hslot hpv => (hkept.slot hslot hpv).1) hpass.2
    intro patbl hmem
    rcases List.mem_or_eq_of_mem_set hmem with hmem | heq
    · exact ih patbl hmem
    · cases heq
      refine addTokens_invariant hadd ?_ hrun
      rcases slot_table hslot with hold | rfl
      · exact ih patbl₁ hold
      · exact hcreate pv

/-- The table in a pass of a run. -/
theorem PassReached.invariant {c : AttCursor}
    (h : PassReached eh known b needswap objName c) : I c.patbl := by
  obtain ⟨st, t, patbl, hst, hn, hcall, hreach, -⟩ := h
  have hstart : I patbl := by
    obtain ⟨-, -, -, pv, l, -, hslot⟩ := hcall
    rcases slot_table hslot with hold | rfl
    · exact SetReach.invariant hcreate hadd hst patbl hold
    · exact hcreate pv
  induction hreach with
  | refl => exact hstart
  | @tail c₁ c₂ hc hpass ih =>
    have hlt : c₁.size < 2 ^ 32 :=
      (AttReach.size_le hc).trans_lt (t.cursor_size b needswap st.n patbl)
    obtain ⟨a, -, -, -, -, -, hone⟩ := pubAttribute_eq_ok hlt hpass.2
    exact hadd ih hone

end

/-- What the lists and the arrays of all tables hold. -/
theorem PassReached.kept {c : AttCursor} (h : PassReached eh known b needswap objName c) :
    (∃ occ, ListKept c.patbl occ) ∧ ∃ arr, ArrayKept c.patbl arr := by
  refine PassReached.invariant (I := fun patbl => (∃ occ, ListKept patbl occ) ∧
    ∃ arr, ArrayKept patbl arr) ?_ ?_ h
  · intro pv
    exact ⟨⟨_, ListKept.create pv⟩, ⟨_, ArrayKept.create pv⟩⟩
  · rintro patbl patbl' a ⟨⟨occ, hlist⟩, ⟨arr, harr⟩⟩ hone
    exact ⟨⟨_, hlist.addToken hone⟩, ⟨_, harr.addToken hone⟩⟩


end

end Cexp
