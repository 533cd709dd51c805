import Cexp.Pmelf.Bytes

/-!
# The number of dynamic symbols

The link maps of the dynamic linker do not say how many symbols an object has. `cb` of the link-map
reader takes the number from the hash table: from the head of the last bucket that is not empty it
follows the chain to its end.

The symbols of a table are sorted by buckets (`GnuHash.ordered`), so this chain is the last one
(`lastBucket_heads`), and the number is right (`cbGnuNdsyms_eq`) as far as the `int` of the loops
goes: with more than `2 ^ 31` buckets the first loop does not run, with `2 ^ 31` hashed symbols the
index of the second one overflows, and the sum with `symndx` is one of 32 bits.

The table is modelled by its words of 32 bits; a word of the filter, an `ElfW(Addr)`, has `aw` of
them. Only the table itself can be read.
-/

namespace Cexp

open CLib

/-! ## The reader -/

inductive LinkMapHalt where
  /-- no hash table was found: the reader gives up -/
  | noHash
  /-- a word outside of the table is read -/
  | outside
  /-- an `int` overflows -/
  | overflow
  deriving DecidableEq, Repr

/-- The loop that looks for the last bucket that is not empty; `k` buckets are left. -/
def lastBucket (gnu_hash : List Nat) : Nat → Except LinkMapHalt Nat
  | 0 => .ok 0
  | k + 1 =>
    match gnu_hash[k]? with
    | none => .error .outside
    | some ndsyms => if ndsyms = 0 then lastBucket gnu_hash k else .ok ndsyms

/-- `i++` -/
def nextIndex (i : Nat) : Except LinkMapHalt Nat :=
  if i + 1 < 2 ^ 31 then .ok (i + 1) else .error .overflow

/-- The loop that follows a chain from the element `i`, with which the words begin. -/
def chainEnd : List Nat → Nat → Except LinkMapHalt Nat
  | [], _ => .error .outside
  | w :: gnu_hash, i =>
    if w &&& 1 = 0 then do
      let i ← nextIndex i
      chainEnd gnu_hash i
    else .ok i

/-- The branch of `cb` for `DT_GNU_HASH`: `ndsyms` and `hhdr.symndx`. -/
def cbGnuNdsyms (aw : Nat) : List Nat → Except LinkMapHalt (Nat × Nat)
  | nbuckets :: symndx :: maskwords :: _shift2 :: gnu_hash => do
    let gnu_hash := gnu_hash.drop (maskwords * aw) -- skip filter
    -- the difference is unsigned; it is converted to an `int` index
    let ndsyms ← lastBucket gnu_hash (asInt (nbuckets + (2 ^ 32 - 1)) + 1).toNat
    let gnu_hash := gnu_hash.drop nbuckets -- skip the bucket area
    if symndx ≤ ndsyms then
      let i := asInt (ndsyms - symndx)
      if i < 0 then .error .outside
      else
        let i ← chainEnd (gnu_hash.drop i.toNat) i.toNat
        let i ← nextIndex i
        return ((i + symndx) % 2 ^ 32, symndx)
    else return (symndx % 2 ^ 32, symndx)
  | _ => .error .outside

/-- `nsyms` and `firstsym` of the link map of an object that has the given hash tables. -/
def cbNdsyms (aw : Nat) (gnu_hash hash : Option (List Nat)) : Except LinkMapHalt (Nat × Nat) :=
  match gnu_hash, hash with
  | some gnu_hash, _ => cbGnuNdsyms aw gnu_hash
  | none, some hash =>
    -- the number of chains equals the number of symbols
    match hash[1]? with
    | some ndsyms => .ok (ndsyms, 0)
    | none => .error .outside
  | none, none => .error .noHash

/-! ## The table -/

/-- The symbols of a bucket that is not empty, by their hash values without the lowest bit. -/
structure HashGroup where
  bucket : Nat
  hashes : List Nat
  last : Nat
  deriving DecidableEq

def HashGroup.size (g : HashGroup) : Nat := g.hashes.length + 1

/-- The chain of a bucket: the lowest bit is set in its last word. -/
def HashGroup.words (g : HashGroup) : List Nat := g.hashes.map (2 * ·) ++ [2 * g.last + 1]

/-- A table with the symbols of its buckets. -/
structure GnuHash where
  nbuckets : Nat
  symndx : Nat
  maskwords : Nat
  shift2 : Nat
  filter : List Nat
  groups : List HashGroup
  deriving DecidableEq

/-- The head of the bucket `k`, if the first of the groups begins with the symbol `start`. -/
def bucketHead (k : Nat) : Nat → List HashGroup → Nat
  | _, [] => 0
  | start, g :: gs => if g.bucket = k then start else bucketHead k (start + g.size) gs

namespace GnuHash

def heads (t : GnuHash) : List Nat :=
  (List.range t.nbuckets).map fun k => bucketHead k t.symndx t.groups

def chain (t : GnuHash) : List Nat := t.groups.flatMap HashGroup.words

def words (t : GnuHash) : List Nat :=
  t.nbuckets :: t.symndx :: t.maskwords :: t.shift2 :: (t.filter ++ (t.heads ++ t.chain))

/-- The number of dynamic symbols: those in front of the hashed ones and these. -/
def count (t : GnuHash) : Nat := t.symndx + t.chain.length

/-- The symbols are sorted by buckets, and the table is one of words. -/
structure WellFormed (aw : Nat) (t : GnuHash) : Prop where
  symndx : 1 ≤ t.symndx
  filter : t.filter.length = t.maskwords * aw
  bucket : ∀ g ∈ t.groups, g.bucket < t.nbuckets
  ordered : t.groups.Pairwise fun g h => g.bucket < h.bucket
  word : ∀ w ∈ t.words, w < 2 ^ 32

end GnuHash

theorem HashGroup.length_words (g : HashGroup) : g.words.length = g.size := by
  simp [words, size]

/-! ## The last bucket -/

theorem bucketHead_none {k start : Nat} {gs : List HashGroup} (h : ∀ g ∈ gs, g.bucket ≠ k) :
    bucketHead k start gs = 0 := by
  induction gs generalizing start with
  | nil => rfl
  | cons g gs ih =>
    rw [List.forall_mem_cons] at h
    rw [bucketHead, if_neg h.1]
    exact ih h.2

/-- The head of the last group is behind all of the others. -/
theorem bucketHead_last {start : Nat} {gs : List HashGroup} {l : HashGroup}
    (h : ∀ g ∈ gs, g.bucket ≠ l.bucket) :
    bucketHead l.bucket start (gs ++ [l]) = start + (gs.flatMap HashGroup.words).length := by
  induction gs generalizing start with
  | nil =>
    rw [List.nil_append, bucketHead, if_pos rfl]
    rfl
  | cons g gs ih =>
    rw [List.forall_mem_cons] at h
    rw [List.cons_append, bucketHead, if_neg h.1, ih h.2, List.flatMap_cons, List.length_append,
      g.length_words, Nat.add_assoc]

/-- Above all groups the buckets are empty. -/
theorem lastBucket_above {rest : List Nat} {f : Nat → Nat} {n k b : Nat} (hk : k ≤ n) (hb : b ≤ k)
    (h : ∀ j, b ≤ j → j < k → f j = 0) :
    lastBucket ((List.range n).map f ++ rest) k = lastBucket ((List.range n).map f ++ rest) b := by
  induction k with
  | zero =>
    obtain rfl := Nat.le_zero.mp hb
    rfl
  | succ k ih =>
    rcases Nat.lt_or_eq_of_le hb with hlt | rfl
    · have hget : ((List.range n).map f ++ rest)[k]? = some 0 := by
        rw [List.getElem?_append_left (by simpa using Nat.lt_of_succ_le hk), List.getElem?_map,
          List.getElem?_range (by omega), Option.map_some, h k (by omega) (Nat.lt_succ_self k)]
      rw [lastBucket, hget]
      dsimp only
      rw [if_pos rfl]
      exact ih (by omega) (by omega) fun j hj hjk => h j hj (by omega)
    · rfl

section

variable {aw : Nat} {t : GnuHash}

theorem lastBucket_none (ht : t.groups = []) {k : Nat} (hk : k ≤ t.nbuckets) :
    lastBucket (t.heads ++ t.chain) k = .ok 0 := by
  have hzero : ∀ j, 0 ≤ j → j < k → bucketHead j t.symndx t.groups = 0 := by
    intro j _ _
    rw [ht]
    rfl
  rw [GnuHash.heads, lastBucket_above hk (Nat.zero_le k) hzero]
  rfl

/-- The head of the last group, in the bucket area. -/
theorem head_last (ht : t.WellFormed aw) {gs : List HashGroup} {l : HashGroup}
    (hgs : t.groups = gs ++ [l]) :
    (t.heads ++ t.chain)[l.bucket]? = some (t.symndx + (gs.flatMap HashGroup.words).length) := by
  have hordered := ht.ordered
  rw [hgs, List.pairwise_append] at hordered
  have hl : l.bucket < t.nbuckets := ht.bucket l (by rw [hgs]; simp)
  have hhead : bucketHead l.bucket t.symndx (gs ++ [l]) =
      t.symndx + (gs.flatMap HashGroup.words).length :=
    bucketHead_last fun g hg => (hordered.2.2 g hg l List.mem_cons_self).ne
  rw [GnuHash.heads, List.getElem?_append_left (by simpa using hl), List.getElem?_map,
    List.getElem?_range hl, Option.map_some, hgs, hhead]

/-- The loop over the buckets finds the head of the last chain. -/
theorem lastBucket_heads (ht : t.WellFormed aw) {gs : List HashGroup} {l : HashGroup}
    (hgs : t.groups = gs ++ [l]) :
    lastBucket (t.heads ++ t.chain) t.nbuckets =
      .ok (t.symndx + (gs.flatMap HashGroup.words).length) := by
  have hordered := ht.ordered
  rw [hgs, List.pairwise_append] at hordered
  have hl : l.bucket < t.nbuckets := ht.bucket l (by rw [hgs]; simp)
  have hempty : ∀ j, l.bucket + 1 ≤ j → j < t.nbuckets →
      bucketHead j t.symndx t.groups = 0 := by
    intro j hj _
    apply bucketHead_none
    intro g hg
    rw [hgs, List.mem_append, List.mem_singleton] at hg
    rcases hg with hg | rfl
    · have := hordered.2.2 g hg l List.mem_cons_self
      omega
    · omega
  have hpos := ht.symndx
  rw [GnuHash.heads, lastBucket_above (Nat.le_refl _) hl hempty, ← GnuHash.heads, lastBucket,
    head_last ht hgs]
  dsimp only
  rw [if_neg (by omega)]

/-! ## The chain -/

/-- The walk along a chain ends at its last word, if the index does not overflow there. -/
theorem chainEnd_words (hashes : List Nat) (last : Nat) {i : Nat} (hi : i < 2 ^ 31) :
    chainEnd (hashes.map (2 * ·) ++ [2 * last + 1]) i =
      if i + hashes.length < 2 ^ 31 then .ok (i + hashes.length) else .error .overflow := by
  induction hashes generalizing i with
  | nil =>
    have hodd : (2 * last + 1) &&& 1 ≠ 0 := by
      rw [Nat.and_one_is_mod]
      omega
    rw [List.map_nil, List.nil_append, chainEnd, if_neg hodd]
    exact (if_pos hi).symm
  | cons hash hashes ih =>
    have heven : 2 * hash &&& 1 = 0 := by
      rw [Nat.and_one_is_mod]
      omega
    rw [List.map_cons, List.cons_append, chainEnd, if_pos heven, nextIndex, List.length_cons]
    by_cases hnext : i + 1 < 2 ^ 31
    · rw [if_pos hnext]
      show chainEnd _ (i + 1) = _
      rw [ih hnext, Nat.add_assoc, Nat.add_comm 1]
    · rw [if_neg hnext, if_neg (by omega)]
      rfl

/-! ## The number of symbols -/

/-- What the reader does after its first loop. -/
def gnuChain (t : GnuHash) (ndsyms : Nat) : Except LinkMapHalt (Nat × Nat) :=
  if t.symndx ≤ ndsyms then
    let i := asInt (ndsyms - t.symndx)
    if i < 0 then .error .outside
    else do
      let i ← chainEnd (t.chain.drop i.toNat) i.toNat
      let i ← nextIndex i
      return ((i + t.symndx) % 2 ^ 32, t.symndx)
  else return (t.symndx % 2 ^ 32, t.symndx)

theorem GnuHash.length_heads (t : GnuHash) : t.heads.length = t.nbuckets := by
  simp [heads]

/-- The reader on the words of a table. -/
theorem cbGnuNdsyms_words (ht : t.WellFormed aw) :
    cbGnuNdsyms aw t.words =
      lastBucket (t.heads ++ t.chain) (asInt (t.nbuckets + (2 ^ 32 - 1)) + 1).toNat >>=
        gnuChain t := by
  have hfilter : (t.filter ++ (t.heads ++ t.chain)).drop (t.maskwords * aw) = t.heads ++ t.chain :=
    List.drop_left' ht.filter
  have hheads : (t.heads ++ t.chain).drop t.nbuckets = t.chain := List.drop_left' t.length_heads
  rw [GnuHash.words, cbGnuNdsyms, hfilter, hheads]
  rfl

/-- The number of buckets as the loop counts them. -/
theorem bucket_index {n : Nat} (hn : n < 2 ^ 32) :
    (asInt (n + (2 ^ 32 - 1)) + 1).toNat = if n ≤ 2 ^ 31 then n else 0 := by
  rw [asInt]
  split <;> split <;> omega

/-- The count from the last chain is right if and only if the index and the sum fit. -/
theorem gnuChain_last (ht : t.WellFormed aw) {gs : List HashGroup} {l : HashGroup}
    (hgs : t.groups = gs ++ [l]) :
    gnuChain t (t.symndx + (gs.flatMap HashGroup.words).length) = .ok (t.count, t.symndx) ↔
      t.chain.length < 2 ^ 31 ∧ t.count < 2 ^ 32 := by
  have hchain : t.chain = gs.flatMap HashGroup.words ++ l.words := by
    rw [GnuHash.chain, hgs, List.flatMap_append, List.flatMap_singleton]
  have hlen : t.chain.length = (gs.flatMap HashGroup.words).length + l.hashes.length + 1 := by
    rw [hchain, List.length_append, l.length_words, HashGroup.size, Nat.add_assoc]
  have hword : t.symndx + (gs.flatMap HashGroup.words).length < 2 ^ 32 := by
    apply ht.word
    have hmem := List.mem_of_getElem? (head_last ht hgs)
    simp only [GnuHash.words, List.mem_cons, List.mem_append] at hmem ⊢
    tauto
  generalize hstart : (gs.flatMap HashGroup.words).length = start at *
  rw [gnuChain, if_pos (Nat.le_add_right _ _), Nat.add_sub_cancel_left]
  dsimp only
  rcases Nat.lt_or_ge start (2 ^ 31) with hlow | hhigh
  · have hdrop : t.chain.drop start = l.hashes.map (2 * ·) ++ [2 * l.last + 1] := by
      rw [hchain]
      exact List.drop_left' hstart
    rw [asInt_of_lt hlow, if_neg (by omega), Int.toNat_natCast, hdrop, chainEnd_words _ _ hlow]
    by_cases hfit : t.chain.length < 2 ^ 31
    · -- the index behind the chain is the number of hashed symbols
      have hnext : nextIndex (start + l.hashes.length) = .ok t.chain.length := by
        rw [nextIndex, ← hlen, if_pos hfit]
      have hrun : (Except.ok ((t.chain.length + t.symndx) % 2 ^ 32, t.symndx) :
          Except LinkMapHalt (Nat × Nat)) = .ok (t.count, t.symndx) ↔ t.count < 2 ^ 32 := by
        rw [Except.ok.injEq, Prod.mk.injEq, and_iff_left rfl, GnuHash.count,
          Nat.add_comm t.symndx]
        omega
      rw [if_pos (by omega), and_iff_right hfit, ← hrun, ok_bind, hnext]
      rfl
    · refine iff_of_false (fun hrun => ?_) fun h => hfit h.1
      obtain ⟨i, hi, hrun⟩ := bind_eq_ok.mp hrun
      obtain ⟨j, hj, -⟩ := bind_eq_ok.mp hrun
      split at hi
      · cases hi
        rw [nextIndex, if_neg (by omega)] at hj
        cases hj
      · cases hi
  · rw [if_pos (asInt_neg hhigh (by omega))]
    refine iff_of_false (by simp) fun h => ?_
    omega

theorem GnuHash.WellFormed.nbuckets_lt (ht : t.WellFormed aw) : t.nbuckets < 2 ^ 32 :=
  ht.word _ List.mem_cons_self

/-- Without the head of a chain the hashed symbols are not counted. -/
theorem gnuChain_zero (ht : t.WellFormed aw) : gnuChain t 0 = .ok (t.symndx, t.symndx) := by
  have hsymndx : t.symndx < 2 ^ 32 := ht.word _ (List.mem_cons_of_mem _ List.mem_cons_self)
  have hpos := ht.symndx
  rw [gnuChain, if_neg (by omega), Nat.mod_eq_of_lt hsymndx]
  rfl

/-- The loop over the buckets does not run for a number of them that is negative as an `int`. -/
theorem cbGnuNdsyms_many (ht : t.WellFormed aw) (h : 2 ^ 31 < t.nbuckets) :
    cbGnuNdsyms aw t.words = .ok (t.symndx, t.symndx) := by
  rw [cbGnuNdsyms_words ht, bucket_index ht.nbuckets_lt, if_neg (by omega)]
  exact gnuChain_zero ht

end

/-! ## The reader on well-formed tables -/

/-- The reader gives the number of symbols, with reads inside of the table only, if and only if no
symbol is hashed or the `int`s that count buckets and symbols fit. -/
theorem cbNdsyms_count {aw : Nat} {t : GnuHash} (ht : t.WellFormed aw) (hash : Option (List Nat)) :
    cbNdsyms aw (some t.words) hash = .ok (t.count, t.symndx) ↔
      t.groups = [] ∨ (t.nbuckets ≤ 2 ^ 31 ∧ t.chain.length < 2 ^ 31 ∧ t.count < 2 ^ 32) := by
  rw [cbNdsyms]
  rcases List.eq_nil_or_concat' t.groups with hnil | ⟨gs, l, hgs⟩
  · refine iff_of_true ?_ (Or.inl hnil)
    have hcount : t.count = t.symndx := by
      rw [GnuHash.count, GnuHash.chain, hnil]
      rfl
    rw [cbGnuNdsyms_words ht, bucket_index ht.nbuckets_lt,
      lastBucket_none hnil (by split <;> omega), hcount]
    exact gnuChain_zero ht
  · have hne : t.groups ≠ [] := by
      rw [hgs]
      exact List.concat_ne_nil l gs
    rw [or_iff_right hne]
    by_cases hbuckets : t.nbuckets ≤ 2 ^ 31
    · rw [cbGnuNdsyms_words ht, bucket_index ht.nbuckets_lt, if_pos hbuckets,
        and_iff_right hbuckets, lastBucket_heads ht hgs]
      exact gnuChain_last ht hgs
    · refine iff_of_false (fun hrun => ?_) fun h => hbuckets h.1
      have hlen : 0 < t.chain.length := by
        rw [GnuHash.chain, hgs, List.flatMap_append, List.flatMap_singleton, List.length_append,
          l.length_words, HashGroup.size]
        omega
      rw [cbGnuNdsyms_many ht (Nat.not_le.mp hbuckets), Except.ok.injEq, Prod.mk.injEq,
        GnuHash.count] at hrun
      omega

/-- A table of three symbols in two of its three buckets. -/
def threeSymbols : GnuHash :=
  ⟨3, 2, 1, 6, [0x101, 0x8004], [⟨0, [0x51], 0x87⟩, ⟨2, [], 0x5a⟩]⟩

theorem threeSymbols_wellFormed : threeSymbols.WellFormed 2 where
  symndx := by decide
  filter := rfl
  bucket := by simp [threeSymbols]
  ordered := by simp [threeSymbols]
  word := by
    have hwords : threeSymbols.words =
        [3, 2, 1, 6, 0x101, 0x8004, 2, 0, 4, 0xa2, 0x10f, 0xb5] := rfl
    rw [hwords]
    simp

/-- Two symbols in front and three that are hashed. -/
theorem cbNdsyms_three : cbNdsyms 2 (some threeSymbols.words) none = .ok (5, 2) :=
  (cbNdsyms_count threeSymbols_wellFormed none).mpr
    (Or.inr ⟨by decide, by decide, by decide⟩)

/-- A table with one symbol, which is in the first of its buckets. -/
def inFirstBucket (nbuckets : Nat) : GnuHash := ⟨nbuckets, 1, 0, 0, [], [⟨0, [], 0⟩]⟩

theorem inFirstBucket_wellFormed {n aw : Nat} (hpos : 0 < n) (hn : n < 2 ^ 32) :
    (inFirstBucket n).WellFormed aw where
  symndx := Nat.le_refl 1
  filter := (Nat.zero_mul aw).symm
  bucket := by simpa [inFirstBucket] using hpos
  ordered := List.pairwise_singleton _ _
  word := by
    intro w hw
    simp only [GnuHash.words, GnuHash.heads, GnuHash.chain, inFirstBucket, List.mem_cons,
      List.mem_append, List.mem_map] at hw
    rcases hw with rfl | rfl | rfl | rfl | hw | ⟨k, -, rfl⟩ | hw
    · exact hn
    · decide
    · decide
    · decide
    · cases hw
    · rw [bucketHead]
      split
      · decide
      · exact Nat.two_pow_pos 32
    · have hone : w = 1 := by simpa [HashGroup.words] using hw
      rw [hone]
      decide

/-- The symbol in the first of `2 ^ 31 + 1` buckets is not counted. -/
theorem cbNdsyms_many_buckets : ¬ ∀ (aw : Nat) (t : GnuHash), t.WellFormed aw →
    cbNdsyms aw (some t.words) none = .ok (t.count, t.symndx) := by
  intro h
  have hwf : (inFirstBucket (2 ^ 31 + 1)).WellFormed 2 :=
    inFirstBucket_wellFormed (by decide) (by decide)
  have hrun := h 2 _ hwf
  rw [cbNdsyms, cbGnuNdsyms_many hwf (Nat.lt_succ_self _), Except.ok.injEq, Prod.mk.injEq] at hrun
  exact absurd hrun.1 (by decide)

end Cexp
