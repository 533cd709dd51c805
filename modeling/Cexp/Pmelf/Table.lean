import Cexp.Pmelf.Format

/-!
# Attribute tables

What a table holds after attributes have been stored in it. The list of a table keeps the
entries of a tag next to each other (`Grouped`), but a new entry goes before the one that is
there, and there is no place for a third one (`Kept`). The array has room for the first
`capacity` attributes, whatever their tags (`ArrayKept`).
-/

namespace Cexp

open CLib

/-! ## The list -/

/-- The entries of a tag stand next to each other and have the given values. -/
def Grouped (lst : List (Nat × Attribute)) (tag : Nat) (vals : List Attribute) : Prop :=
  ∃ pre post, lst = pre ++ vals.map (Prod.mk tag) ++ post ∧ ∀ el ∈ pre ++ post, el.1 ≠ tag

theorem Grouped.filter {lst : List (Nat × Attribute)} {tag : Nat} {vals : List Attribute}
    (h : Grouped lst tag vals) :
    (lst.filter fun el => el.1 = tag) = vals.map (Prod.mk tag) := by
  obtain ⟨pre, post, rfl, hother⟩ := h
  have hpre : (pre.filter fun el => el.1 = tag) = [] := by
    apply List.filter_eq_nil_iff.mpr
    intro el hel
    simpa using hother el (List.mem_append_left _ hel)
  have hpost : (post.filter fun el => el.1 = tag) = [] := by
    apply List.filter_eq_nil_iff.mpr
    intro el hel
    simpa using hother el (List.mem_append_right _ hel)
  rw [List.filter_append, List.filter_append, hpre, hpost, List.append_nil, List.nil_append]
  apply List.filter_eq_self.mpr
  intro el hel
  obtain ⟨v, -, rfl⟩ := List.mem_map.mp hel
  simp

theorem Grouped.unique {lst : List (Nat × Attribute)} {tag : Nat} {vals vals' : List Attribute}
    (h : Grouped lst tag vals) (h' : Grouped lst tag vals') : vals = vals' := by
  have hmap := h.filter.symm.trans h'.filter
  exact List.map_injective_iff.mpr (fun a b hab => (Prod.mk.inj hab).2) hmap

theorem Grouped.find {lst : List (Nat × Attribute)} {tag : Nat} {vals : List Attribute}
    (h : Grouped lst tag vals) : (lst.find? fun el => el.1 = tag).map Prod.snd = vals.head? := by
  rw [← List.head?_filter, h.filter]
  cases vals <;> rfl

section Insert

variable {tag : Nat} {att : Attribute}

open AttributeTbl

theorem insertList_cons {el : Nat × Attribute} (lst : List (Nat × Attribute)) (h : el.1 ≠ tag) :
    insertList tag att (el :: lst) = (insertList tag att lst).map (el :: ·) := by
  conv_lhs => unfold insertList
  rw [if_neg h]
  cases insertList tag att lst <;> rfl

theorem insertList_right (l₁ l₂ : List (Nat × Attribute)) (h : ∀ el ∈ l₁, el.1 ≠ tag) :
    insertList tag att (l₁ ++ l₂) = (insertList tag att l₂).map (l₁ ++ ·) := by
  induction l₁ with
  | nil =>
    rw [List.nil_append]
    cases insertList tag att l₂ <;> rfl
  | cons el l₁ ih =>
    have ih := ih fun x hx => h x (List.mem_cons_of_mem _ hx)
    rw [List.cons_append, insertList_cons _ (h el (by simp)), ih]
    cases insertList tag att l₂ <;> rfl

/-- A new entry goes to the end of the list or before an entry of its tag. -/
theorem insertList_place {lst lst' : List (Nat × Attribute)}
    (h : insertList tag att lst = .ok lst') :
    ∃ l₁ l₂, lst = l₁ ++ l₂ ∧ lst' = l₁ ++ (tag, att) :: l₂ ∧ ∀ el ∈ l₂.head?, el.1 = tag := by
  induction lst generalizing lst' with
  | nil =>
    cases h
    exact ⟨[], [], rfl, rfl, by simp⟩
  | cons el lst ih =>
    by_cases hel : el.1 = tag
    · unfold insertList at h
      rw [if_pos hel] at h
      have hlst' : lst' = (tag, att) :: el :: lst := by
        split at h
        · split at h
          · cases h
          · exact (Except.ok.inj h).symm
        · exact (Except.ok.inj h).symm
      exact ⟨[], el :: lst, rfl, hlst', by simpa using hel⟩
    · rw [insertList_cons lst hel] at h
      cases hins : insertList tag att lst with
      | error e =>
        rw [hins] at h
        cases h
      | ok lst₁ =>
        rw [hins] at h
        obtain ⟨l₁, l₂, rfl, rfl, hhead⟩ := ih hins
        cases h
        exact ⟨el :: l₁, l₂, rfl, rfl, hhead⟩

/-- The entries of other tags stay next to each other. -/
theorem Grouped.insert_other {lst lst' : List (Nat × Attribute)} {tag' : Nat}
    {vals : List Attribute} (h : Grouped lst tag' vals) (hne : tag' ≠ tag)
    (hins : insertList tag att lst = .ok lst') : Grouped lst' tag' vals := by
  obtain ⟨pre, post, hlst, hother⟩ := h
  obtain ⟨l₁, l₂, hplace, rfl, hhead⟩ := insertList_place hins
  rw [hplace] at hlst
  rcases List.append_eq_append_iff.mp hlst with ⟨x, hx, hl₂⟩ | ⟨x, hl₁, hpost⟩
  · -- the place is before the end of the entries of the other tag
    rcases List.append_eq_append_iff.mp hx with ⟨y, hl₁, hmid⟩ | ⟨y, hpre, hxy⟩
    · cases x with
      | nil =>
        rw [List.append_nil] at hmid
        refine ⟨pre, (tag, att) :: post, by rw [hl₁, hl₂, hmid]; simp, ?_⟩
        intro el hel
        rcases List.mem_append.mp hel with hel | hel
        · exact hother el (List.mem_append_left _ hel)
        · rcases List.mem_cons.mp hel with rfl | hel
          · exact hne.symm
          · exact hother el (List.mem_append_right _ hel)
      | cons el x =>
        -- the entry before which the new one goes would have the other tag
        exfalso
        have htag : el.1 = tag := hhead el (by rw [hl₂]; simp)
        have hmem : el ∈ vals.map (Prod.mk tag') := by
          rw [hmid]
          simp
        obtain ⟨v, -, rfl⟩ := List.mem_map.mp hmem
        exact hne htag
    · refine ⟨l₁ ++ (tag, att) :: y, post, by rw [hl₂, hxy]; simp, ?_⟩
      intro el hel
      simp only [hpre, List.append_assoc, List.cons_append, List.mem_append, List.mem_cons]
        at hel hother
      rcases hel with hel | rfl | hel | hel
      · exact hother el (.inl hel)
      · exact hne.symm
      · exact hother el (.inr (.inl hel))
      · exact hother el (.inr (.inr hel))
  · refine ⟨pre, x ++ (tag, att) :: l₂, by rw [hl₁]; simp, ?_⟩
    intro el hel
    simp only [hpost, List.mem_append, List.mem_cons] at hel hother
    rcases hel with hel | hel | rfl | hel
    · exact hother el (.inl hel)
    · exact hother el (.inr (.inl hel))
    · exact hne.symm
    · exact hother el (.inr (.inr hel))

theorem insertList_none {lst : List (Nat × Attribute)} (h : ∀ el ∈ lst, el.1 ≠ tag) :
    insertList tag att lst = .ok (lst ++ [(tag, att)]) := by
  have : insertList tag att (lst ++ []) = _ := insertList_right lst [] h
  rwa [List.append_nil] at this

/-- The new entry goes before the one that is there. -/
theorem insertList_one {l₁ l₂ : List (Nat × Attribute)} {v : Attribute}
    (h₁ : ∀ el ∈ l₁, el.1 ≠ tag) (h₂ : ∀ el ∈ l₂, el.1 ≠ tag) :
    insertList tag att (l₁ ++ (tag, v) :: l₂) = .ok (l₁ ++ (tag, att) :: (tag, v) :: l₂) := by
  rw [insertList_right l₁ _ h₁]
  have hins : insertList tag att ((tag, v) :: l₂) = .ok ((tag, att) :: (tag, v) :: l₂) := by
    cases l₂ with
    | nil => simp [insertList]
    | cons next l₂ =>
      have hnext := h₂ next (by simp)
      simp [insertList, hnext]
  rw [hins]
  rfl

theorem insertList_two {l₁ l₂ : List (Nat × Attribute)} {v w : Attribute}
    (h₁ : ∀ el ∈ l₁, el.1 ≠ tag) :
    insertList tag att (l₁ ++ (tag, v) :: (tag, w) :: l₂) = .error .hang := by
  rw [insertList_right l₁ _ h₁]
  have hins : insertList tag att ((tag, v) :: (tag, w) :: l₂) = .error .hang := by
    simp [insertList]
  rw [hins]
  rfl

/-- The list holds the values `occ` of a tag, which came in this order. -/
structure Kept (lst : List (Nat × Attribute)) (tag : Nat) (occ : List Attribute) : Prop where
  length : occ.length ≤ 2
  grouped : Grouped lst tag occ.reverse

theorem Kept.nil {tag : Nat} : Kept [] tag [] :=
  ⟨by simp, [], [], by simp, by simp⟩

variable (att) in
/-- A third entry of a tag is not inserted. -/
theorem Kept.hang {lst : List (Nat × Attribute)} {occ : List Attribute} (h : Kept lst tag occ)
    (hocc : occ.length = 2) : insertList tag att lst = .error .hang := by
  obtain ⟨-, pre, post, hlst, hother⟩ := h
  match occ, hocc with
  | [v, w], _ =>
    have : lst = pre ++ (tag, w) :: (tag, v) :: post := by simpa using hlst
    rw [this, insertList_two fun el hel => hother el (List.mem_append_left _ hel)]

theorem Kept.insert_other {lst lst' : List (Nat × Attribute)} {tag' : Nat} {occ : List Attribute}
    (h : Kept lst tag' occ) (hne : tag' ≠ tag) (hins : insertList tag att lst = .ok lst') :
    Kept lst' tag' occ :=
  ⟨h.length, h.grouped.insert_other hne hins⟩

variable (att) in
/-- The first and the second entry of a tag are inserted. -/
theorem Kept.insert {lst : List (Nat × Attribute)} {occ : List Attribute} (h : Kept lst tag occ)
    (hocc : occ.length < 2) :
    ∃ lst', insertList tag att lst = .ok lst' ∧ Kept lst' tag (occ ++ [att]) := by
  obtain ⟨-, pre, post, hlst, hother⟩ := h
  match occ, hocc with
  | [], _ =>
    have hlst : lst = pre ++ post := by simpa using hlst
    have hnone : ∀ el ∈ lst, el.1 ≠ tag := by
      rw [hlst]
      exact hother
    exact ⟨_, insertList_none hnone, by simp, lst, [], by simp, by simpa using hnone⟩
  | [v], _ =>
    have hlst : lst = pre ++ (tag, v) :: post := by simpa using hlst
    have hpre : ∀ el ∈ pre, el.1 ≠ tag := fun el hel => hother el (List.mem_append_left _ hel)
    have hpost : ∀ el ∈ post, el.1 ≠ tag := fun el hel => hother el (List.mem_append_right _ hel)
    have hins : insertList tag att (pre ++ (tag, v) :: post) = _ := insertList_one hpre hpost
    rw [← hlst] at hins
    exact ⟨_, hins, by simp, pre, post, by simp, hother⟩

end Insert

/-! ## Reading attributes into a table -/

variable {eh : ElfHost}

/-- An attribute is added to a table. -/
def addToken (eh : ElfHost) (patbl : AttributeTbl) (a : AttToken) : Except Halt AttributeTbl :=
  if patbl.pv.inArray (a.word eh) ∧ patbl.mapped (a.word eh) ≠ 0 then
    reject (.alreadyDefined (a.word eh))
  else (patbl.grow (a.word eh)).keep (a.word eh) (a.value.toAttribute eh)

def addTokens (eh : ElfHost) : AttributeTbl → List AttToken → Except Halt AttributeTbl
  | patbl, [] => .ok patbl
  | patbl, a :: as =>
    match addToken eh patbl a with
    | .error e => .error e
    | .ok patbl' => addTokens eh patbl' as

theorem addTokens_cons {patbl patbl' : AttributeTbl} {a : AttToken} (as : List AttToken)
    (h : addToken eh patbl a = .ok patbl') :
    addTokens eh patbl (a :: as) = addTokens eh patbl' as := by
  rw [addTokens, h]

def attBytes (as : List AttToken) : List UInt8 := as.flatMap AttToken.bytes

@[simp] theorem attBytes_nil : attBytes [] = [] := rfl

@[simp] theorem attBytes_cons (a : AttToken) (as : List AttToken) :
    attBytes (a :: as) = a.bytes ++ attBytes as := rfl

/-- The vendor announces the values that the attribute has. -/
def AttToken.Typed (eh : ElfHost) (pv : AttVendor) (a : AttToken) : Prop :=
  pv.attType (a.word eh) = a.value.type

theorem AttToken.bytes_pos (a : AttToken) : 0 < a.bytes.length := by
  have := a.tag.bytes_pos
  rw [bytes, List.length_append]
  omega

theorem addToken_eq {c : AttCursor} {a : AttToken} {rest : List UInt8}
    (hbuf : c.buf = a.bytes ++ rest) (hle : a.bytes.length ≤ c.size) (hs : c.size < 2 ^ 31)
    (htype : a.Typed eh c.patbl.pv) :
    pubAttribute eh c =
      (addToken eh c.patbl a).map fun patbl => ⟨patbl, rest, c.size - a.bytes.length⟩ := by
  by_cases hfresh : c.patbl.fresh (a.word eh)
  · rw [pubAttribute_token hbuf hle hs hfresh htype, addToken, if_neg hfresh]
  · have hlen : a.bytes.length = a.tag.bytes.length + a.value.bytes.length := List.length_append
    have hbuf' : c.buf = a.tag.bytes ++ (a.value.bytes ++ rest) := by
      rw [hbuf, AttToken.bytes, List.append_assoc]
    rw [pubAttribute_dup hbuf' (by rw [asInt_of_lt hs]; omega) hfresh, addToken,
      if_pos (not_not.mp hfresh)]
    rfl

/-- A pass of the vendor reader that does not stop it reads an attribute. -/
theorem pubAttribute_eq_ok {c c' : AttCursor} (hs : c.size < 2 ^ 32)
    (h : pubAttribute eh c = .ok c') :
    ∃ a : AttToken, c.buf = a.bytes ++ c'.buf ∧ a.bytes.length ≤ c.size ∧ c.size < 2 ^ 31 ∧
      c'.size = c.size - a.bytes.length ∧ a.Typed eh c.patbl.pv ∧
      addToken eh c.patbl a = .ok c'.patbl := by
  obtain ⟨r, ht, -⟩ := bind_eq_ok.mp h
  obtain ⟨u, rest, hbuf, hle, rfl⟩ := readUleb_eq_ok ht
  have hlt : c.size < 2 ^ 31 := asInt_ge_lt u.bytes_pos hle hs
  have hint := asInt_le c.size
  by_cases hfresh : c.patbl.fresh (u.word eh 0 0)
  · rw [pubAttribute_tag hbuf hle hfresh] at h
    obtain ⟨⟨att, buf', size'⟩, hv, h⟩ := bind_eq_ok.mp h
    obtain ⟨patbl, hkeep, h⟩ := bind_eq_ok.mp h
    cases h
    obtain ⟨v, htype, rfl, hvle, rfl, rfl⟩ := readValue_eq_ok hv
    refine ⟨⟨u, v⟩, ?_, ?_, hlt, ?_, htype.symm, ?_⟩
    · rw [hbuf, AttToken.bytes, List.append_assoc]
    · rw [AttToken.bytes, List.length_append]
      dsimp only
      omega
    · rw [AttToken.bytes, List.length_append]
      dsimp only
      omega
    · exact (if_neg hfresh).trans hkeep
  · rw [pubAttribute_dup hbuf hle hfresh] at h
    cases h

theorem store_pv {patbl patbl' : AttributeTbl} {tag : Nat} {att : Attribute}
    (h : patbl.store tag att = .ok patbl') : patbl'.pv = patbl.pv := by
  unfold AttributeTbl.store at h
  split at h
  · split at h
    · cases h
      rfl
    · cases h
  · split at h
    · cases h
    · cases h
      rfl

theorem addToken_pv {patbl patbl' : AttributeTbl} {a : AttToken}
    (h : addToken eh patbl a = .ok patbl') : patbl'.pv = patbl.pv := by
  unfold addToken at h
  split at h
  · cases h
  · cases hatt : a.value.toAttribute eh with
    | none =>
      rw [hatt] at h
      cases h
      exact AttributeTbl.grow_pv _ _
    | some att =>
      rw [hatt] at h
      exact (store_pv h).trans (AttributeTbl.grow_pv _ _)

theorem addTokens_pv {patbl patbl' : AttributeTbl} {as : List AttToken}
    (h : addTokens eh patbl as = .ok patbl') : patbl'.pv = patbl.pv := by
  induction as generalizing patbl with
  | nil =>
    cases h
    rfl
  | cons a as ih =>
    unfold addTokens at h
    split at h
    · cases h
    · next hadd => exact (ih h).trans (addToken_pv hadd)

/-- The vendor reader adds the attributes that fill the subsubsection. -/
theorem pmelfPubFileAttributesRead_tokens {patbl : AttributeTbl} {as : List AttToken}
    {rest : List UInt8} {size : Nat} (hsize : size = (attBytes as).length) (hs : size < 2 ^ 31)
    (htyped : ∀ a ∈ as, a.Typed eh patbl.pv) :
    pmelfPubFileAttributesRead eh patbl (attBytes as ++ rest) size = addTokens eh patbl as := by
  have hloop : ∃ k, loop AttCursor.going (pubAttribute eh) k ⟨patbl, attBytes as ++ rest, size⟩ =
      some ((addTokens eh patbl as).map fun patbl => ⟨patbl, rest, 0⟩) := by
    induction as generalizing patbl size with
    | nil =>
      have hzero : size = 0 := hsize
      subst hzero
      exact ⟨1, loop_done rfl 0⟩
    | cons a as ih =>
      have hlen : (attBytes (a :: as)).length = a.bytes.length + (attBytes as).length := by simp
      have hpos := a.bytes_pos
      have hgo : AttCursor.going ⟨patbl, attBytes (a :: as) ++ rest, size⟩ = true := by
        simp only [AttCursor.going, ne_eq, decide_eq_true_eq]
        omega
      have hbuf : attBytes (a :: as) ++ rest = a.bytes ++ (attBytes as ++ rest) := by simp
      have hle : a.bytes.length ≤ size := by omega
      have hpass : pubAttribute eh ⟨patbl, attBytes (a :: as) ++ rest, size⟩ = _ :=
        addToken_eq hbuf hle hs (htyped a (by simp))
      cases hadd : addToken eh patbl a with
      | error e =>
        rw [hadd] at hpass
        refine ⟨1, ?_⟩
        rw [loop_stop hgo hpass, addTokens, hadd]
        rfl
      | ok patbl' =>
        rw [hadd] at hpass
        have hpv := addToken_pv hadd
        have htyped' : ∀ x ∈ as, x.Typed eh patbl'.pv := by
          intro x hx
          rw [hpv]
          exact htyped x (List.mem_cons_of_mem _ hx)
        have hsize' : size - a.bytes.length = (attBytes as).length := by omega
        obtain ⟨k, hk⟩ := ih hsize' (by omega) htyped'
        refine ⟨k + 1, ?_⟩
        rw [loop_pass ⟨hgo, hpass⟩, addTokens_cons as hadd]
        exact hk
  obtain ⟨k, hk⟩ := hloop
  unfold pmelfPubFileAttributesRead
  rw [whileLoop_unique hk]
  cases addTokens eh patbl as <;> rfl

/-- What the vendor reader accepts is made of attributes. -/
theorem pmelfPubFileAttributesRead_eq_ok {patbl patbl' : AttributeTbl} {buf : List UInt8}
    {size : Nat} (hs : size < 2 ^ 32)
    (h : pmelfPubFileAttributesRead eh patbl buf size = .ok patbl') :
    ∃ (as : List AttToken) (rest : List UInt8), buf = attBytes as ++ rest ∧
      size = (attBytes as).length ∧ (size ≠ 0 → size < 2 ^ 31) ∧
      (∀ a ∈ as, a.Typed eh patbl.pv) ∧ addTokens eh patbl as = .ok patbl' := by
  obtain ⟨c', hw, rfl⟩ : ∃ c', whileLoop AttCursor.going (pubAttribute eh) AttCursor.size
      (fun _ _ h => pubAttribute_size_lt h.2) ⟨patbl, buf, size⟩ = .ok c' ∧ c'.patbl = patbl' := by
    unfold pmelfPubFileAttributesRead at h
    cases hw : whileLoop AttCursor.going (pubAttribute eh) AttCursor.size
        (fun _ _ h => pubAttribute_size_lt h.2) ⟨patbl, buf, size⟩ with
    | error e =>
      rw [hw] at h
      cases h
    | ok c' =>
      rw [hw] at h
      exact ⟨c', rfl, Except.ok.inj h⟩
  obtain ⟨hreach, hend⟩ := whileLoop_ok_iff.mp hw
  have hzero : c'.size = 0 := by simpa [AttCursor.going] using hend
  have hgen : ∀ c, Reach AttCursor.going (pubAttribute eh) c c' → c.size < 2 ^ 32 →
      ∃ (as : List AttToken) (rest : List UInt8), c.buf = attBytes as ++ rest ∧
        c.size = (attBytes as).length ∧ (c.size ≠ 0 → c.size < 2 ^ 31) ∧
        (∀ a ∈ as, a.Typed eh c.patbl.pv) ∧ addTokens eh c.patbl as = .ok c'.patbl := by
    intro c hc
    induction hc using Relation.ReflTransGen.head_induction_on with
    | refl => exact fun _ => ⟨[], c'.buf, rfl, hzero, fun hne => absurd hzero hne, by simp, rfl⟩
    | @head c d hpass _ ih =>
      intro hs
      obtain ⟨a, hbuf, hle, hlt, hsize, htype, hadd⟩ := pubAttribute_eq_ok hs hpass.2
      obtain ⟨as, rest, hbuf', hsize', -, htypes, hadds⟩ := ih (by omega)
      have hpv := addToken_pv hadd
      refine ⟨a :: as, rest, ?_, ?_, fun _ => hlt, ?_, ?_⟩
      · rw [hbuf, hbuf', attBytes_cons, List.append_assoc]
      · rw [attBytes_cons, List.length_append]
        omega
      · intro x hx
        rcases List.mem_cons.mp hx with rfl | hx
        · exact htype
        · rw [← hpv]
          exact htypes x hx
      · rw [addTokens_cons as hadd]
        exact hadds
  exact hgen _ hreach hs

/-- Bytes are attributes of a vendor in one way only. -/
theorem attBytes_inj {pv : AttVendor} {as as' : List AttToken} {r r' : List UInt8}
    (h : ∀ a ∈ as, a.Typed eh pv) (h' : ∀ a ∈ as', a.Typed eh pv)
    (hbytes : attBytes as ++ r = attBytes as' ++ r')
    (hlen : (attBytes as).length = (attBytes as').length) : as = as' := by
  induction as generalizing as' with
  | nil =>
    cases as' with
    | nil => rfl
    | cons a' as' =>
      have := a'.bytes_pos
      rw [attBytes_nil, attBytes_cons, List.length_append, List.length_nil] at hlen
      omega
  | cons a as ih =>
    cases as' with
    | nil =>
      have := a.bytes_pos
      rw [attBytes_nil, attBytes_cons, List.length_append, List.length_nil] at hlen
      omega
    | cons a' as' =>
      obtain ⟨tag, value⟩ := a
      obtain ⟨tag', value'⟩ := a'
      simp only [attBytes_cons, AttToken.bytes, List.append_assoc] at hbytes
      obtain ⟨rfl, hvalue⟩ := Uleb.append_inj hbytes
      have htype : value.type = value'.type :=
        (h ⟨tag, value⟩ (by simp)).symm.trans (h' ⟨tag, value'⟩ (by simp))
      obtain ⟨rfl, hrest⟩ := AttValue.append_inj htype hvalue
      rw [attBytes_cons, attBytes_cons, List.length_append, List.length_append] at hlen
      rw [ih (fun a ha => h a (List.mem_cons_of_mem _ ha))
        (fun a ha => h' a (List.mem_cons_of_mem _ ha)) hrest (by omega)]

/-! ## What a table keeps -/

/-- The values of a tag among attributes, in their order. -/
def occurrences (eh : ElfHost) (tag : Nat) (as : List AttToken) : List Attribute :=
  as.filterMap fun a => if a.word eh = tag then a.value.toAttribute eh else none

theorem occurrences_cons (tag : Nat) (a : AttToken) (as : List AttToken) :
    occurrences eh tag (a :: as) = occurrences eh tag [a] ++ occurrences eh tag as := by
  unfold occurrences
  rw [← List.filterMap_append]
  rfl

/-- The list of a table holds the values `occ`. -/
structure ListKept (patbl : AttributeTbl) (occ : Nat → List Attribute) : Prop where
  kept : ∀ tag, patbl.pv.inArray tag = false → Kept patbl.lst tag (occ tag)
  tags : ∀ el ∈ patbl.lst, patbl.pv.inArray el.1 = false

theorem ListKept.create (pv : AttVendor) : ListKept (.create pv) fun _ => [] :=
  ⟨fun _ _ => Kept.nil, by simp [AttributeTbl.create]⟩

theorem occurrences_single (tag : Nat) (a : AttToken) :
    occurrences eh tag [a] = if a.word eh = tag then (a.value.toAttribute eh).toList else [] := by
  unfold occurrences
  by_cases htag : a.word eh = tag
  · cases hatt : a.value.toAttribute eh <;> simp [htag, hatt]
  · simp [htag]

/-- What adding an attribute does: it has no value, or it goes to the array, or to the
list. -/
theorem addToken_cases {patbl patbl' : AttributeTbl} {a : AttToken}
    (h : addToken eh patbl a = .ok patbl') :
    patbl.fresh (a.word eh) ∧
    ((a.value.toAttribute eh = none ∧ patbl' = patbl.grow (a.word eh)) ∨
    (∃ att, a.value.toAttribute eh = some att ∧ patbl.pv.inArray (a.word eh) = true ∧
      (patbl.grow (a.word eh)).idx < (patbl.grow (a.word eh)).vals.length ∧
      patbl' = { patbl.grow (a.word eh) with
        map := patbl.map.set (a.word eh) patbl.idx
        vals := (patbl.grow (a.word eh)).vals.set patbl.idx att
        idx := (patbl.idx + 1) % 2 ^ 8 }) ∨
    (∃ att lst', a.value.toAttribute eh = some att ∧ patbl.pv.inArray (a.word eh) = false ∧
      AttributeTbl.insertList (a.word eh) att patbl.lst = .ok lst' ∧
      patbl' = { patbl with lst := lst' })) := by
  unfold addToken at h
  split at h
  · cases h
  · next hfresh =>
    refine ⟨hfresh, ?_⟩
    cases hatt : a.value.toAttribute eh with
    | none =>
      rw [hatt] at h
      exact .inl ⟨rfl, (Except.ok.inj h).symm⟩
    | some att =>
      rw [hatt] at h
      change AttributeTbl.store _ _ _ = _ at h
      unfold AttributeTbl.store at h
      rw [AttributeTbl.grow_pv] at h
      by_cases harr : patbl.pv.inArray (a.word eh) = true
      · rw [if_pos harr] at h
        split at h
        · next hroom =>
          refine .inr (.inl ⟨att, rfl, harr, hroom, ?_⟩)
          rw [← Except.ok.inj h, AttributeTbl.grow_idx, AttributeTbl.grow_map]
          simp only [AttributeTbl.grow_pv]
        · cases h
      · have harr' : patbl.pv.inArray (a.word eh) = false := by simpa using harr
        have hgrow : patbl.grow (a.word eh) = patbl := by
          unfold AttributeTbl.grow
          rw [if_neg fun hg => harr hg.2]
        rw [if_neg harr, hgrow] at h
        split at h
        · cases h
        · next lst' hins => exact .inr (.inr ⟨att, lst', rfl, harr', hins, (Except.ok.inj h).symm⟩)

theorem ListKept.addToken {patbl patbl' : AttributeTbl} {occ : Nat → List Attribute}
    {a : AttToken} (h : ListKept patbl occ) (hadd : addToken eh patbl a = .ok patbl') :
    ListKept patbl' fun tag => occ tag ++ occurrences eh tag [a] := by
  obtain ⟨-, ⟨hatt, rfl⟩ | ⟨att, hatt, harr, -, rfl⟩ | ⟨att, lst', hatt, harr, hins, rfl⟩⟩ :=
    addToken_cases hadd
  · have hocc : (fun tag => occ tag ++ occurrences eh tag [a]) = occ := by
      funext tag
      rw [occurrences_single, hatt, Option.toList_none, ite_self, List.append_nil]
    rw [hocc]
    refine ⟨fun tag => ?_, fun el hel => ?_⟩
    · rw [AttributeTbl.grow_pv, AttributeTbl.grow_lst]
      exact h.kept tag
    · rw [AttributeTbl.grow_pv]
      rw [AttributeTbl.grow_lst] at hel
      exact h.tags el hel
  · refine ⟨fun tag htag => ?_, fun el hel => ?_⟩
    · have htag' : patbl.pv.inArray tag = false := by
        rw [← AttributeTbl.grow_pv patbl (a.word eh)]
        exact htag
      have hne : ¬a.word eh = tag := by
        rintro rfl
        rw [harr] at htag'
        cases htag'
      show Kept (patbl.grow (a.word eh)).lst tag (occ tag ++ occurrences eh tag [a])
      rw [AttributeTbl.grow_lst, occurrences_single, if_neg hne, List.append_nil]
      exact h.kept tag htag'
    · have hel' : el ∈ (patbl.grow (a.word eh)).lst := hel
      rw [AttributeTbl.grow_lst] at hel'
      have := h.tags el hel'
      rwa [← AttributeTbl.grow_pv patbl (a.word eh)] at this
  · refine ⟨fun tag htag => ?_, fun el hel => ?_⟩
    · have hk := h.kept tag htag
      show Kept lst' tag (occ tag ++ occurrences eh tag [a])
      rw [occurrences_single, hatt, Option.toList_some]
      by_cases heq : a.word eh = tag
      · rw [if_pos heq]
        rw [heq] at hins
        by_cases htwo : (occ tag).length < 2
        · obtain ⟨lst'', hins', hk'⟩ := hk.insert att htwo
          rw [hins] at hins'
          cases hins'
          exact hk'
        · have hhang := hk.hang att (by have := hk.length; omega)
          rw [hins] at hhang
          cases hhang
      · rw [if_neg heq, List.append_nil]
        exact hk.insert_other (Ne.symm heq) hins
    · obtain ⟨l₁, l₂, hlst, rfl, -⟩ := insertList_place hins
      have hel' : el ∈ l₁ ++ (a.word eh, att) :: l₂ := hel
      rcases List.mem_append.mp hel' with hel' | hel'
      · exact h.tags el (by rw [hlst]; exact List.mem_append_left _ hel')
      · rcases List.mem_cons.mp hel' with rfl | hel'
        · exact harr
        · exact h.tags el (by rw [hlst]; exact List.mem_append_right _ hel')

theorem ListKept.addTokens {patbl patbl' : AttributeTbl} {occ : Nat → List Attribute}
    {as : List AttToken} (h : ListKept patbl occ) (hadd : addTokens eh patbl as = .ok patbl') :
    ListKept patbl' fun tag => occ tag ++ occurrences eh tag as := by
  induction as generalizing patbl occ with
  | nil =>
    cases hadd
    simpa [occurrences] using h
  | cons a as ih =>
    unfold Cexp.addTokens at hadd
    split at hadd
    · cases hadd
    · next patbl₁ hone =>
      have hk := ih (h.addToken hone) hadd
      have hocc : (fun tag => occ tag ++ occurrences eh tag (a :: as))
          = fun tag => occ tag ++ occurrences eh tag [a] ++ occurrences eh tag as := by
        funext tag
        rw [occurrences_cons, List.append_assoc]
      rw [hocc]
      exact hk

/-! ## The array -/

/-- The number of values that there is room for. -/
def AttVendor.capacity (pv : AttVendor) : Nat :=
  if CHUNKSZ < pv.maxTag then CHUNKSZ else pv.maxTag

theorem AttVendor.capacity_le (pv : AttVendor) : pv.capacity ≤ 30 := by
  unfold capacity CHUNKSZ
  split <;> omega

/-- The array of a table holds the values of `arr`, which came in this order. -/
structure ArrayKept (patbl : AttributeTbl) (arr : List (Nat × Attribute)) : Prop where
  idx : patbl.idx = arr.length + 1
  room : arr.length ≤ patbl.pv.capacity
  grown : (patbl.avail = 0 ∧ arr = []) ∨
    (patbl.avail ≠ 0 ∧ patbl.vals.length = 1 + patbl.pv.capacity)
  map : patbl.map.length = patbl.pv.maxTag + 1
  stored : ∀ i tag att, arr[i]? = some (tag, att) →
    patbl.pv.inArray tag = true ∧ patbl.mapped tag = i + 1 ∧ patbl.vals[i + 1]? = some att
  rest : ∀ tag, (∀ att, (tag, att) ∉ arr) → patbl.mapped tag = 0

theorem ArrayKept.create (pv : AttVendor) : ArrayKept (.create pv) [] where
  idx := rfl
  room := Nat.zero_le _
  grown := .inl ⟨rfl, rfl⟩
  map := List.length_replicate
  stored i tag att h := by simp at h
  rest tag _ := by
    unfold AttributeTbl.mapped AttributeTbl.create
    by_cases htag : tag < pv.maxTag + 1
    · simp [htag]
    · rw [List.getD_eq_getElem?_getD, List.getElem?_eq_none (by simpa using htag)]
      rfl

/-- Before an attribute is stored in the array, there is an array. -/
theorem ArrayKept.grow {patbl : AttributeTbl} {arr : List (Nat × Attribute)}
    (h : ArrayKept patbl arr) (tag : Nat) :
    ArrayKept (patbl.grow tag) arr ∧ (patbl.pv.inArray tag = true →
      (patbl.grow tag).vals.length = 1 + patbl.pv.capacity ∧
        (patbl.pv.capacity ≠ 0 → (patbl.grow tag).avail ≠ 0)) := by
  by_cases hgrow : patbl.avail = 0 ∧ patbl.pv.inArray tag = true
  · have harr : arr = [] := by
      rcases h.grown with ⟨-, harr⟩ | ⟨hne, -⟩
      · exact harr
      · exact absurd hgrow.1 hne
    subst harr
    have heq : patbl.grow tag = { patbl with
        vals := AttributeTbl.realloc patbl.vals (patbl.idx + patbl.pv.capacity)
        avail := (patbl.avail + patbl.pv.capacity) % 2 ^ 8 } := if_pos hgrow
    have hcap := patbl.pv.capacity_le
    have hidx : patbl.idx = 1 := h.idx
    have hlen : (AttributeTbl.realloc patbl.vals (patbl.idx + patbl.pv.capacity)).length
        = 1 + patbl.pv.capacity := by
      unfold AttributeTbl.realloc
      rw [List.length_take, List.length_append, List.length_replicate, hidx]
      omega
    have havail : (patbl.avail + patbl.pv.capacity) % 2 ^ 8 = patbl.pv.capacity := by
      rw [hgrow.1]
      omega
    rw [heq, havail]
    refine ⟨⟨h.idx, h.room, ?_, h.map, fun i tag att hi => by simp at hi, h.rest⟩, fun _ =>
      ⟨hlen, fun hne => hne⟩⟩
    by_cases hzero : patbl.pv.capacity = 0
    · exact .inl ⟨hzero, rfl⟩
    · exact .inr ⟨hzero, hlen⟩
  · have heq : patbl.grow tag = patbl := if_neg hgrow
    rw [heq]
    refine ⟨h, fun harr => ?_⟩
    rcases h.grown with ⟨hzero, -⟩ | ⟨hne, hlen⟩
    · exact absurd ⟨hzero, harr⟩ hgrow
    · exact ⟨hlen, fun _ => hne⟩

theorem inArray_le {pv : AttVendor} {tag : Nat} (h : pv.inArray tag = true) :
    tag < pv.maxTag + 1 := by
  unfold AttVendor.inArray at h
  simp only [Bool.and_eq_true, decide_eq_true_eq] at h
  omega

/-- Another value in the array. -/
theorem ArrayKept.store {patbl : AttributeTbl} {arr : List (Nat × Attribute)}
    (h : ArrayKept patbl arr) (tag : Nat) (att : Attribute) (harr : patbl.pv.inArray tag = true)
    (hfresh : patbl.mapped tag = 0) (hroom : arr.length < patbl.pv.capacity)
    (havail : patbl.avail ≠ 0) :
    ArrayKept { patbl with
      map := patbl.map.set tag patbl.idx
      vals := patbl.vals.set patbl.idx att
      idx := (patbl.idx + 1) % 2 ^ 8 } (arr ++ [(tag, att)]) := by
  have hcap := patbl.pv.capacity_le
  have hidx := h.idx
  have hlen : patbl.vals.length = 1 + patbl.pv.capacity := by
    rcases h.grown with ⟨hzero, -⟩ | ⟨-, hlen⟩
    · exact absurd hzero havail
    · exact hlen
  have hlt : tag < patbl.map.length := by
    rw [h.map]
    exact inArray_le harr
  have hmapped : ∀ tag', (patbl.map.set tag patbl.idx).getD tag' 0 =
      if tag' = tag then patbl.idx else patbl.mapped tag' := by
    intro tag'
    unfold AttributeTbl.mapped
    rw [List.getD_eq_getElem?_getD, List.getD_eq_getElem?_getD]
    by_cases heq : tag' = tag
    · subst heq
      rw [if_pos rfl, List.getElem?_set_self hlt]
      rfl
    · rw [if_neg heq, List.getElem?_set_ne (Ne.symm heq)]
  refine ⟨?_, ?_, .inr ⟨havail, by simpa using hlen⟩, by simpa using h.map, ?_, ?_⟩
  · show (patbl.idx + 1) % 2 ^ 8 = _
    rw [List.length_append, List.length_singleton]
    omega
  · show _ ≤ patbl.pv.capacity
    rw [List.length_append, List.length_singleton]
    omega
  · intro i tag' att' hi
    show _ ∧ (patbl.map.set tag patbl.idx).getD tag' 0 = i + 1 ∧
      (patbl.vals.set patbl.idx att)[i + 1]? = some att'
    rw [hmapped]
    rcases Nat.lt_trichotomy i arr.length with hlt' | rfl | hgt
    · rw [List.getElem?_append_left hlt'] at hi
      obtain ⟨hin, hmap, hval⟩ := h.stored i tag' att' hi
      have hne : tag' ≠ tag := by
        rintro rfl
        rw [hfresh] at hmap
        omega
      rw [if_neg hne, List.getElem?_set_ne (by omega)]
      exact ⟨hin, hmap, hval⟩
    · rw [List.getElem?_append_right (Nat.le_refl _), Nat.sub_self,
        List.getElem?_cons_zero] at hi
      cases hi
      rw [if_pos rfl, ← hidx, List.getElem?_set_self (by omega)]
      exact ⟨harr, rfl, rfl⟩
    · rw [List.getElem?_eq_none (by rw [List.length_append, List.length_singleton]; omega)] at hi
      cases hi
  · intro tag' hnot
    show (patbl.map.set tag patbl.idx).getD tag' 0 = 0
    have hne : tag' ≠ tag := by
      rintro rfl
      exact hnot att (by simp)
    rw [hmapped, if_neg hne]
    exact h.rest tag' fun att' hmem => hnot att' (List.mem_append_left _ hmem)

/-- The attributes that go to the array. -/
def arrayPart (eh : ElfHost) (pv : AttVendor) (as : List AttToken) : List (Nat × Attribute) :=
  as.filterMap fun a =>
    if pv.inArray (a.word eh) then (a.value.toAttribute eh).map (Prod.mk (a.word eh)) else none

theorem arrayPart_cons (pv : AttVendor) (a : AttToken) (as : List AttToken) :
    arrayPart eh pv (a :: as) = arrayPart eh pv [a] ++ arrayPart eh pv as := by
  unfold arrayPart
  rw [← List.filterMap_append]
  rfl

theorem ArrayKept.addToken {patbl patbl' : AttributeTbl} {arr : List (Nat × Attribute)}
    {a : AttToken} (h : ArrayKept patbl arr) (hadd : addToken eh patbl a = .ok patbl') :
    ArrayKept patbl' (arr ++ arrayPart eh patbl.pv [a]) := by
  obtain ⟨hgrown, hvals⟩ := h.grow (a.word eh)
  obtain ⟨hfresh, ⟨hatt, rfl⟩ | ⟨att, hatt, harr, hroom, rfl⟩ |
    ⟨att, lst', hatt, harr, hins, rfl⟩⟩ := addToken_cases hadd
  · have hpart : arrayPart eh patbl.pv [a] = [] := by simp [arrayPart, hatt]
    rw [hpart, List.append_nil]
    exact hgrown
  · have hpart : arrayPart eh patbl.pv [a] = [(a.word eh, att)] := by
      simp [arrayPart, hatt, harr]
    obtain ⟨hlen, havail⟩ := hvals harr
    rw [hlen, AttributeTbl.grow_idx, h.idx] at hroom
    have hzero : patbl.mapped (a.word eh) = 0 := by
      by_contra hne
      exact hfresh ⟨harr, hne⟩
    have hstore := hgrown.store (a.word eh) att (by rwa [AttributeTbl.grow_pv])
      (by rwa [AttributeTbl.grow_mapped]) (by rw [AttributeTbl.grow_pv]; omega)
      (havail (by omega))
    rw [hpart]
    rw [AttributeTbl.grow_map, AttributeTbl.grow_idx] at hstore
    exact hstore
  · have hpart : arrayPart eh patbl.pv [a] = [] := by simp [arrayPart, harr]
    rw [hpart, List.append_nil]
    exact ⟨h.idx, h.room, h.grown, h.map, h.stored, h.rest⟩

theorem ArrayKept.addTokens {patbl patbl' : AttributeTbl} {arr : List (Nat × Attribute)}
    {as : List AttToken} (h : ArrayKept patbl arr) (hadd : addTokens eh patbl as = .ok patbl') :
    ArrayKept patbl' (arr ++ arrayPart eh patbl.pv as) := by
  induction as generalizing patbl arr with
  | nil =>
    cases hadd
    simpa [arrayPart] using h
  | cons a as ih =>
    unfold Cexp.addTokens at hadd
    split at hadd
    · cases hadd
    · next patbl₁ hone =>
      have hk := ih (h.addToken hone) hadd
      rw [addToken_pv hone, List.append_assoc, ← arrayPart_cons] at hk
      exact hk

/-- What `pmelf_attribute_get_tag_val` finds in a table. -/
theorem getTagVal_kept {patbl : AttributeTbl} {arr : List (Nat × Attribute)}
    {occ : Nat → List Attribute} (harr : ArrayKept patbl arr) (hlist : ListKept patbl occ)
    (tag : Nat) :
    patbl.getTagVal tag =
      if patbl.pv.inArray tag = true then (arr.find? fun el => el.1 = tag).map Prod.snd
      else (occ tag).getLast? := by
  unfold AttributeTbl.getTagVal
  by_cases hin : patbl.pv.inArray tag = true
  · rw [if_pos hin]
    cases hfind : arr.find? fun el => el.1 = tag with
    | none =>
      have hzero : patbl.mapped tag = 0 := by
        apply harr.rest
        intro att hmem
        have := List.find?_eq_none.mp hfind (tag, att) hmem
        simp at this
      have hnone : (patbl.lst.find? fun el => el.1 = tag) = none := by
        apply List.find?_eq_none.mpr
        intro el hel heq
        have htag : el.1 = tag := by simpa using heq
        have := hlist.tags el hel
        rw [htag, hin] at this
        cases this
      rw [if_neg fun h => h.2 hzero, hnone]
    | some el =>
      obtain ⟨tag', att⟩ := el
      have htag : tag' = tag := by simpa using List.find?_some hfind
      subst htag
      obtain ⟨i, hi, hget⟩ := List.getElem_of_mem (List.mem_of_find?_eq_some hfind)
      obtain ⟨-, hmap, hval⟩ := harr.stored i tag' att (by rw [List.getElem?_eq_getElem hi, hget])
      rw [if_pos ⟨hin, by omega⟩, hmap, List.getD_eq_getElem?_getD, hval]
      rfl
  · have hin' : patbl.pv.inArray tag = false := by simpa using hin
    rw [if_neg fun h => hin h.1, if_neg hin, (hlist.kept tag hin').grouped.find,
      List.head?_reverse]

end Cexp
