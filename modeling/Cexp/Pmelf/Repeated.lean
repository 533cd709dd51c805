import Cexp.Pmelf.Halts

/-!
# Repeated attributes

Tags above `max_tag` and the compatibility tag are kept in the list of a table, where they
may be repeated. The insertion puts the second entry of a tag before the first one and never
ends when there are two, so reading ends, with the entries of every tag in the order of the
section, if no tag comes a third time and a tag that comes twice comes with equal values
(`attribute_lists`). On a host whose `Pmelf_Off` has 32 bits the length of a subsection may
also lead back to an offset that has been passed (`NoWrap`).
-/

namespace Cexp

open CLib

variable {eh : ElfHost}

/-! ## Where a loop does not end -/

def NoHang {α : Type} (x : Except Halt α) : Prop := Halts (fun e => e ≠ .hang) x

/-- The attribute in front of a pass does not come to the list a third time. -/
def StoreEnds (eh : ElfHost) (c : AttCursor) : Prop :=
  ∀ (a : AttToken) (rest : List UInt8), c.buf = a.bytes ++ rest → a.bytes.length ≤ c.size →
    c.size < 2 ^ 31 → a.Typed eh c.patbl.pv → a.value ≠ .none →
    c.patbl.pv.inArray (a.word eh) = false →
    (c.patbl.lst.filter fun el => el.1 = a.word eh).length < 2

/-- Adding an attribute is endless for the third one of a tag only. -/
theorem addToken_hang {patbl : AttributeTbl} {occ : Nat → List Attribute}
    (hk : ListKept patbl occ) (a : AttToken) :
    addToken eh patbl a = .error .hang ↔ a.value ≠ .none ∧
      patbl.pv.inArray (a.word eh) = false ∧
      2 ≤ (patbl.lst.filter fun el => el.1 = a.word eh).length := by
  unfold addToken
  by_cases harr : patbl.pv.inArray (a.word eh) = true
  · have hne : ¬(patbl.pv.inArray (a.word eh) = false) := by simp [harr]
    refine ⟨fun h => ?_, fun h => absurd h.2.1 hne⟩
    split at h
    · cases h
    · cases hatt : a.value.toAttribute eh with
      | none =>
        rw [hatt] at h
        cases h
      | some att =>
        rw [hatt] at h
        change AttributeTbl.store _ _ _ = _ at h
        unfold AttributeTbl.store at h
        rw [AttributeTbl.grow_pv, if_pos harr] at h
        split at h <;> cases h
  · have harr' : patbl.pv.inArray (a.word eh) = false := by simpa using harr
    rw [if_neg fun h => harr h.1]
    have hkept := hk.kept (a.word eh) harr'
    have hcount : (patbl.lst.filter fun el => el.1 = a.word eh).length
        = (occ (a.word eh)).length := by
      rw [hkept.grouped.filter, List.length_map, List.length_reverse]
    rw [hcount]
    cases hatt : a.value.toAttribute eh with
    | none =>
      constructor
      · intro h
        cases h
      · intro h
        exact absurd (toAttribute_eq_none.mp hatt) h.1
    | some att =>
      have hne : a.value ≠ .none := toAttribute_isSome hatt
      show AttributeTbl.store _ _ _ = _ ↔ _
      unfold AttributeTbl.store
      rw [AttributeTbl.grow_pv, if_neg harr, AttributeTbl.grow_lst]
      constructor
      · intro h
        refine ⟨hne, harr', ?_⟩
        by_contra hlt
        obtain ⟨lst', hins, -⟩ := hkept.insert att (by omega)
        rw [hins] at h
        cases h
      · rintro ⟨-, -, htwo⟩
        rw [hkept.hang _ (by have := hkept.length; omega)]

/-- At no point of a subsection an attribute comes to the list a third time. -/
def SubsectionEnds (eh : ElfHost) (known : KnownVendors) (b : AttBuffer) (needswap : Bool)
    (st : SetState) : Prop :=
  ∀ t patbl, VendorCall eh known b needswap st t patbl →
    ∀ c, AttReach eh (t.cursor eh b needswap st.n patbl) c → c.size ≠ 0 → StoreEnds eh c

/-! ## Reading a section -/

/-- No subsection length makes the offset of the next subsection wrap around. -/
def NoWrap (eh : ElfHost) (known : KnownVendors) (b : AttBuffer) (needswap : Bool)
    (objName : CStr) : Prop :=
  ∀ st, SetReach eh known b needswap (.start objName) st → st.n < b.size →
    ∀ t rest, b.at st.n = HeaderToken.bytes (eh.fileBig needswap) t ++ rest →
      st.n + t.len + 1 < 2 ^ eh.dm.longBits

theorem noWrap_lp64 {known : KnownVendors} {b : AttBuffer} {needswap : Bool} {objName : CStr}
    (h : eh.dm = .lp64) : NoWrap eh known b needswap objName := by
  intro st _ hn t _ _
  have hpow : 2 ^ eh.dm.longBits = 2 ^ 64 := by
    rw [h]
    rfl
  have hlt := b.size_lt
  have hlen := t.len_lt
  have hn' : st.n < b.bytes.length := hn
  rw [hpow]
  omega

/-- Reading ends, and after a successful read the entries of every tag that is kept in the
list stand next to each other in the order of the section. -/
def ListsWellFormed (eh : ElfHost) (known : KnownVendors) (b : AttBuffer) (needswap : Bool)
    (objName : CStr) : Prop :=
  (∃ passes r, pmelfReadAttributeSet eh known b needswap objName passes = some r ∧
    r ≠ .error .hang) ∧
  ∀ passes set, pmelfReadAttributeSet eh known b needswap objName passes = some (.ok set) →
    ∃ ss, Walk eh known b needswap 0 ss ∧
      ∀ patbl, some patbl ∈ set.attributes → ∀ tag, patbl.pv.inArray tag = false →
        Grouped patbl.lst tag (vendorOccurrences eh patbl.pv.name tag ss)

/-- What a section must be like for the lists to be well-formed. -/
structure ListsFit (eh : ElfHost) (known : KnownVendors) (b : AttBuffer) (needswap : Bool)
    (objName : CStr) : Prop where
  /-- no tag comes to a list a third time -/
  ends : ∀ st, SetReach eh known b needswap (.start objName) st → st.n < b.size →
    SubsectionEnds eh known b needswap st
  /-- in a section that is accepted, a tag that comes twice comes with equal values -/
  equal : ∀ passes set, pmelfReadAttributeSet eh known b needswap objName passes =
      some (.ok set) → ∀ ss, Walk eh known b needswap 0 ss →
    ∀ pv ∈ known.list, ∀ tag, pv.inArray tag = false →
      ∀ u v, vendorOccurrences eh pv.name tag ss = [u, v] → u = v

theorem notHang_readerHalts : ReaderHalts fun e => e ≠ .hang where
  error c := by simp
  outside := by simp
  wrap := by simp
  overflow := by simp

/-- The attribute in front of a pass ends up in the list exactly if it comes there for the
first or the second time. -/
theorem storeEnds_iff {c : AttCursor} {occ : Nat → List Attribute} (hk : ListKept c.patbl occ) :
    StoreEnds eh c ↔ ∀ a, c.Front eh a → NoHang (addToken eh c.patbl a) := by
  constructor
  · rintro h a ⟨⟨rest, hbuf⟩, hle, hlt, htyped⟩ e he rfl
    obtain ⟨hval, harr, htwo⟩ := (addToken_hang hk a).mp he
    have hone := h a rest hbuf hle hlt htyped hval harr
    omega
  · intro h a rest hbuf hle hlt htyped hval harr
    by_contra hge
    have hhang := (addToken_hang hk a).mpr ⟨hval, harr, by omega⟩
    exact h a ⟨⟨rest, hbuf⟩, hle, hlt, htyped⟩ .hang hhang rfl

/-- The reader is stopped by the list insertion exactly if a tag comes to a list a third
time. -/
theorem read_hang_iff {known : KnownVendors} {b : AttBuffer} {needswap : Bool} {objName : CStr}
    (hnil : known.list ≠ []) :
    (∀ passes r, pmelfReadAttributeSet eh known b needswap objName passes = some r →
      r ≠ .error .hang) ↔
    ∀ st, SetReach eh known b needswap (.start objName) st → st.n < b.size →
      SubsectionEnds eh known b needswap st := by
  simp only [ne_error_iff]
  rw [reader_halts_iff notHang_readerHalts hnil]
  constructor
  · intro h st hst hn t patbl hcall c hc hsize
    have hreached : PassReached eh known b needswap objName c :=
      ⟨st, t, patbl, hst, hn, hcall, hc, hsize⟩
    obtain ⟨⟨occ, hk⟩, -⟩ := hreached.kept
    exact (storeEnds_iff hk).mpr (h c hreached)
  · intro h c hreached
    obtain ⟨⟨occ, hk⟩, -⟩ := hreached.kept
    obtain ⟨st, t, patbl, hst, hn, hcall, hc, hsize⟩ := hreached
    exact (storeEnds_iff hk).mp (h st hst hn t patbl hcall c hc hsize)

/-- Without a wrap-around every pass moves on in the section. -/
theorem read_ends {known : KnownVendors} {b : AttBuffer} {needswap : Bool} {objName : CStr}
    (hwrap : NoWrap eh known b needswap objName) :
    ∃ passes r, pmelfReadAttributeSet eh known b needswap objName passes = some r := by
  by_cases hnil : known.list = []
  · exact ⟨0, _, if_pos hnil⟩
  · have hsome : (loop b.going (subsection eh known b needswap) (b.size + 1)
        (.start objName)).isSome = true := by
      refine loop_measure (fun st => b.size - st.n) ?_ (Nat.lt_succ_of_le (Nat.sub_le _ _))
      intro st st' hst hpass
      have hn : st.n < b.size := of_decide_eq_true hpass.1
      obtain ⟨occ, hk⟩ := (SetKept.start known objName).reach hst
      obtain ⟨t, pv, as, hsub, hnext, -⟩ := hk.subsection hn hpass.2
      obtain ⟨rest, hbytes⟩ := hsub.bytes
      have hlt := hwrap st hst hn t _ hbytes
      have hoff : eh.off (st.n + t.len + 1) = st.n + t.len + 1 := Nat.mod_eq_of_lt hlt
      rw [hnext, hoff]
      omega
    obtain ⟨r, hr⟩ := Option.isSome_iff_exists.mp hsome
    exact ⟨b.size + 1, _, by rw [pmelfReadAttributeSet_eq hnil, hr]; rfl⟩

/-- If the lists come out well-formed, the section fits; and a section that fits comes out
with well-formed lists if no length makes an offset wrap around, which on a host with 64 bit
offsets (`noWrap_lp64`) does not happen. -/
theorem attribute_lists (eh : ElfHost) (known : KnownVendors) (b : AttBuffer) (needswap : Bool)
    (objName : CStr) :
    (ListsWellFormed eh known b needswap objName → ListsFit eh known b needswap objName) ∧
    (ListsFit eh known b needswap objName → NoWrap eh known b needswap objName →
      ListsWellFormed eh known b needswap objName) := by
  constructor
  · rintro ⟨⟨passes, r, hr, hne⟩, hlists⟩
    constructor
    · by_cases hnil : known.list = []
      · rintro st - - t patbl ⟨-, -, -, pv, l, hfind, -⟩
        have hmem := (KnownVendors.find_some hfind).1
        rw [hnil] at hmem
        cases hmem
      · refine (read_hang_iff hnil).mp ?_
        rintro passes' r' hr' rfl
        apply hne
        rw [pmelfReadAttributeSet_eq hnil] at hr hr'
        obtain ⟨s, hs, rfl⟩ := Option.map_eq_some_iff.mp hr
        obtain ⟨s', hs', hs''⟩ := Option.map_eq_some_iff.mp hr'
        have h₁ := loop_mono hs passes'
        have h₂ := loop_mono hs' passes
        rw [Nat.add_comm, h₁] at h₂
        rw [Option.some.inj h₂]
        exact hs''
    · intro passes' set hset ss hwalk pv hpv tag harr u v hocc
      obtain ⟨ss', hwalk', hgrouped⟩ := hlists passes' set hset
      obtain ⟨ss'', hwalk'', hkept⟩ := readAttributeSet_kept hset
      have h₁ := hwalk.unique hwalk'
      have h₂ := hwalk.unique hwalk''
      subst h₁ h₂
      obtain ⟨tables, hshape, hlist, hnone⟩ := hkept.tables
      by_cases hex : ∃ patbl ∈ tables, patbl.pv.name = pv.name
      · obtain ⟨patbl, hmem, hname⟩ := hex
        have hpv' := KnownVendors.eq_of_name (hshape.known patbl hmem) hpv hname
        rw [← hpv'] at harr hocc
        have hin := hgrouped patbl (hshape.mem.mpr hmem) tag harr
        have hrev := ((hlist patbl hmem).kept tag harr).grouped
        have heq := hin.unique hrev
        change _ = (vendorOccurrences eh patbl.pv.name tag ss).reverse at heq
        rw [hocc] at heq
        exact (List.cons.inj heq).1
      · have hempty := hnone pv.name (fun patbl hmem hname => hex ⟨patbl, hmem, hname⟩) tag
        rw [hocc] at hempty
        cases hempty
  · rintro ⟨hends, hequal⟩ hwrap
    obtain ⟨passes, r, hr⟩ := read_ends hwrap
    constructor
    · refine ⟨passes, r, hr, ?_⟩
      by_cases hnil : known.list = []
      · rw [pmelfReadAttributeSet, if_pos hnil] at hr
        cases hr
        rintro ⟨⟩
      · exact (read_hang_iff hnil).mpr hends passes r hr
    · intro passes' set hset
      obtain ⟨ss, hwalk, hkept⟩ := readAttributeSet_kept hset
      refine ⟨ss, hwalk, ?_⟩
      obtain ⟨tables, hshape, hlist, -⟩ := hkept.tables
      intro patbl hmem tag harr
      have hmem' := hshape.mem.mp hmem
      have hk := (hlist patbl hmem').kept tag harr
      have hrev : (vendorOccurrences eh patbl.pv.name tag ss).reverse =
          vendorOccurrences eh patbl.pv.name tag ss := by
        have hlen := hk.length
        have heq := hequal passes' set hset ss hwalk patbl.pv (hshape.known patbl hmem') tag harr
        rcases hocc : vendorOccurrences eh patbl.pv.name tag ss with _ | ⟨u, _ | ⟨v, _ | ⟨w, l⟩⟩⟩
        · rfl
        · rfl
        · rw [heq u v hocc]
          rfl
        · change (vendorOccurrences eh patbl.pv.name tag ss).length ≤ 2 at hlen
          rw [hocc] at hlen
          simp at hlen
      rw [← hrev]
      exact hk.grouped

/-! ## A section that is read forever -/

/-- Three compatibility attributes with the values (1, "a"), (2, "b") and (3, "c"). -/
def threeCompat : AttBuffer :=
  ⟨[65, 25, 0, 0, 0, 103, 110, 117, 0, 1, 17, 0, 0, 0, 32, 1, 97, 0, 32, 2, 98, 0, 32, 3, 99, 0],
    by decide⟩

theorem third_entry_endless :
    ¬ListsWellFormed (plainElfHost .lp64 false) ppcVendors threeCompat false
      ⟨[], by decide⟩ := by
  rintro ⟨⟨passes, r, hr, hne⟩, -⟩
  have hpass : subsection (plainElfHost .lp64 false) ppcVendors threeCompat false
      (.start ⟨[], by decide⟩) = .error .hang := rfl
  have hgo : threeCompat.going (.start ⟨[], by decide⟩) = true := rfl
  rw [pmelfReadAttributeSet_eq (by decide)] at hr
  cases passes with
  | zero => cases hr
  | succ passes =>
    rw [loop_stop hgo hpass] at hr
    cases hr
    exact hne rfl

end Cexp
