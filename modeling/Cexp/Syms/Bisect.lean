import Cexp.Syms.Address

/-!
# The search for an address

`cexpSymTblLkAddrIdx` adds up both ends of its interval as `int`s. Among more than `2 ^ 30` entries
the sum overflows when the search climbs past entry `climb n 0`, the last of its middles below
`2 ^ 30` (`lkAddrLoop_climb`); among fewer it never does. The first end is the number of the last
entry, converted to an `int`: the search covers the entries up to that one only (`covered`), which
in tables of more than `2 ^ 31` entries are not all. If there is a stream, then the entries around
the result are printed, and three more sums have to fit.

`lkAddrIdx_found` says what a search that ends has found, `lkAddrIdx_isSome_iff` when it ends.
-/

namespace Cexp

theorem intResult_eq_some {z w : Int} :
    intResult z = some w ↔ (-2 ^ 31 ≤ z ∧ z < 2 ^ 31) ∧ z = w := by
  rw [intResult]
  split
  · next h => rw [Option.some.injEq, and_iff_right h]
  · next h => exact iff_of_false (Option.some_ne_none w).symm fun hand => h hand.1

/-- How many entries the search covers. -/
def covered (nentries : Nat) : Nat := (lastIdx nentries).toNat + 1

theorem lastIdx_lt (n : Nat) : lastIdx n < n ∧ lastIdx n < 2 ^ 31 ∨ n = 0 := by
  rw [lastIdx, Int.bmod_def]
  split <;> omega

theorem covered_le {n : Nat} (h : 0 < n) : covered n ≤ n := by
  have hlt := lastIdx_lt n
  rw [covered]
  omega

theorem covered_le_int {n : Nat} (h : 0 < n) : covered n ≤ 2 ^ 31 := by
  have hlt := lastIdx_lt n
  rw [covered]
  omega

theorem covered_of_le {n : Nat} (h : 0 < n) (hint : n ≤ 2 ^ 31) : covered n = n := by
  rw [covered, lastIdx, Int.bmod_def]
  split <;> omega

/-! ## The loop -/

section

variable {t : CexpAddrTbl} {addr : BitVec 64} {n : Nat}

/-- Of the first `n` entries, all those behind `hi` are above the address, and `lo` is not, unless
it is where the search began. -/
structure Bracket (t : CexpAddrTbl) (addr : BitVec 64) (n lo hi : Nat) : Prop where
  le : lo ≤ hi
  below : lo = 0 ∨ ∃ a, t.ptv lo = some a ∧ a ≤ addr
  above : ∀ k a, hi < k → k < n → t.ptv k = some a → addr < a

theorem above_of_le (ht : t.Indexed) {i j : Nat} {a b : BitVec 64} (hij : i ≤ j)
    (ha : t.ptv i = some a) (hb : t.ptv j = some b) (h : addr < a) : addr < b := by
  have hle := BitVec.le_def.mp (ht.sorted i j a b hij ha hb)
  exact BitVec.lt_def.mpr (Nat.lt_of_lt_of_le (BitVec.lt_def.mp h) hle)

/-- Where the loop ends, both ends are together. -/
theorem lkAddrLoop_spec (ht : t.Indexed) {lo hi r : Nat} (h : Bracket t addr n lo hi)
    (hrun : lkAddrLoop addr t lo hi = some r) : r ≤ hi ∧ Bracket t addr n r r := by
  induction hk : hi - lo using Nat.strong_induction_on generalizing lo hi with
  | _ k ih =>
    rw [lkAddrLoop] at hrun
    split at hrun
    · next hlt =>
      split at hrun
      · rw [Nat.shiftRight_one] at hrun
        dsimp only at hrun
        split at hrun
        · cases hrun
        · next a ha =>
          split at hrun
          · next habove =>
            -- the middle entry and those behind it are above
            obtain ⟨hle, hbr⟩ := ih _ (by omega) ⟨by omega, h.below,
              fun j b hj _ hb => above_of_le ht (by omega) ha hb habove⟩ hrun rfl
            exact ⟨by omega, hbr⟩
          · next hnot =>
            exact ih _ (by omega)
              ⟨by omega, .inr ⟨a, ha, BitVec.not_lt.mp hnot⟩, h.above⟩ hrun rfl
      · cases hrun
    · next hge =>
      cases hrun
      have heq : hi = r := Nat.le_antisymm (Nat.not_lt.mp hge) h.le
      subst heq
      exact ⟨Nat.le_refl hi, h⟩

/-- Below `2 ^ 30` the sums do not overflow. -/
theorem lkAddrLoop_small {lo hi : Nat} (hin : ∀ k ≤ hi, (t.ptv k).isSome = true)
    (h : hi < 2 ^ 30) : (lkAddrLoop addr t lo hi).isSome = true := by
  induction hk : hi - lo using Nat.strong_induction_on generalizing lo hi with
  | _ k ih =>
    rw [lkAddrLoop]
    split
    · next hlt =>
      obtain ⟨a, ha⟩ := Option.isSome_iff_exists.mp (hin ((lo + hi + 1) / 2) (by omega))
      rw [if_pos (by omega), Nat.shiftRight_one]
      dsimp only
      rw [ha]
      dsimp only
      split
      · exact ih _ (by omega) (fun j hj => hin j (by omega)) (by omega) rfl
      · exact ih _ (by omega) hin h rfl
    · rfl

/-- Where the search is after its last step to the right without an overflow, if it does not step
to the left. -/
def climb (n lo : Nat) : Nat :=
  if lo + n < 2 ^ 31 ∧ lo + 1 < n then climb n ((lo + n) / 2) else lo
termination_by n - lo
decreasing_by omega

theorem le_climb (n lo : Nat) : lo ≤ climb n lo := by
  induction hk : n - lo using Nat.strong_induction_on generalizing lo with
  | _ k ih =>
    rw [climb]
    split
    · have := ih _ (by omega) ((lo + n) / 2) rfl
      omega
    · exact Nat.le_refl lo

theorem climb_lt {n lo : Nat} (h : lo < n) : climb n lo < n := by
  induction hk : n - lo using Nat.strong_induction_on generalizing lo with
  | _ k ih =>
    rw [climb]
    split
    · exact ih _ (by omega) (by omega) rfl
    · exact h

theorem climb_small {n lo : Nat} (h : lo < 2 ^ 30) : climb n lo < 2 ^ 30 := by
  induction hk : n - lo using Nat.strong_induction_on generalizing lo with
  | _ k ih =>
    rw [climb]
    split
    · exact ih _ (by omega) (by omega) rfl
    · exact h

/-- Among many entries the sums overflow if the entry that the search climbs to is not above the
address. -/
theorem lkAddrLoop_climb (ht : t.Indexed) (hbig : 2 ^ 30 < n) (hn : n ≤ t.nentries) {lo : Nat}
    (hlo : lo + 1 < n) (hbelow : lo = 0 ∨ ∃ a, t.ptv lo = some a ∧ a ≤ addr) (hint : n < 2 ^ 31) :
    (lkAddrLoop addr t lo (n - 1)).isSome = true ↔
      ∀ a, t.ptv (climb n lo) = some a → addr < a := by
  induction hk : n - lo using Nat.strong_induction_on generalizing lo with
  | _ k ih =>
    rw [lkAddrLoop, if_pos (by omega), climb]
    have hsum : lo + (n - 1) + 1 = lo + n := by omega
    rw [hsum]
    by_cases hfit : lo + n < 2 ^ 31
    · rw [if_pos hfit, if_pos ⟨hfit, hlo⟩, Nat.shiftRight_one]
      obtain ⟨a, ha⟩ := Option.isSome_iff_exists.mp
        (ht.ptv_isSome_iff.mpr (show (lo + n) / 2 < t.nentries by omega))
      dsimp only
      rw [ha]
      dsimp only
      split
      · next habove =>
        -- to the left of the middle the numbers are small; what lies behind it is above
        refine iff_of_true ?_ fun b hb => above_of_le ht (le_climb _ _) ha hb habove
        exact lkAddrLoop_small (fun j hj => ht.ptv_isSome_iff.mpr (by omega)) (by omega)
      · next hnot =>
        exact ih _ (by omega) (by omega) (.inr ⟨a, ha, BitVec.not_lt.mp hnot⟩) rfl
    · rw [if_neg hfit, if_neg fun h => hfit h.1]
      refine iff_of_false Bool.false_ne_true fun h => ?_
      obtain ⟨a, ha, hle⟩ := hbelow.resolve_left (by omega)
      exact absurd (h a ha) (BitVec.not_lt.mpr hle)

/-- The sums of the search fit. -/
def SearchFits (addr : BitVec 64) (t : CexpAddrTbl) : Prop :=
  covered t.nentries ≤ 2 ^ 30 ∨ covered t.nentries < 2 ^ 31 ∧
    ∀ a, t.ptv (climb (covered t.nentries) 0) = some a → addr < a

theorem lkAddrLoop_isSome_iff (ht : t.Indexed) (hpos : 0 < t.nentries) :
    (lkAddrLoop addr t 0 (covered t.nentries - 1)).isSome = true ↔ SearchFits addr t := by
  have hle := covered_le hpos
  rcases Nat.lt_or_ge (2 ^ 30) (covered t.nentries) with hbig | hsmall
  · rw [SearchFits, or_iff_right (by omega)]
    rcases Nat.lt_or_eq_of_le (covered_le_int hpos) with hlt | heq
    · rw [and_iff_right hlt]
      exact lkAddrLoop_climb ht hbig hle (by omega) (.inl rfl) hlt
    · -- the first sum is too large
      refine iff_of_false ?_ fun h => by omega
      rw [lkAddrLoop, if_pos (by omega), if_neg (by omega)]
      exact Bool.false_ne_true
  · refine iff_of_true (lkAddrLoop_small (fun k hk => ?_) (by omega)) (.inl hsmall)
    have hone : 1 ≤ covered t.nentries := Nat.succ_pos _
    exact ht.ptv_isSome_iff.mpr (by omega)

theorem bracket_first (addr : BitVec 64) (t : CexpAddrTbl) (n : Nat) :
    Bracket t addr n 0 (n - 1) :=
  ⟨Nat.zero_le _, .inl rfl, fun k a hk hn _ => by omega⟩

/-- What a search that ends has found: the last of the entries that it covers which is not above
the address, or the first one. Its number is small. -/
theorem lkAddrLoop_found (ht : t.Indexed) (hpos : 0 < t.nentries) {r : Nat}
    (h : lkAddrLoop addr t 0 (covered t.nentries - 1) = some r) :
    r < covered t.nentries ∧ r < 2 ^ 30 ∧ Bracket t addr (covered t.nentries) r r := by
  obtain ⟨hle, hbr⟩ := lkAddrLoop_spec ht (bracket_first addr t _) h
  have hone : 1 ≤ covered t.nentries := Nat.succ_pos _
  refine ⟨by omega, ?_, hbr⟩
  rcases (lkAddrLoop_isSome_iff ht hpos).mp (Option.isSome_of_eq_some h) with hsmall | ⟨-, hclimb⟩
  · omega
  · rcases hbr.below with rfl | ⟨a, ha, hnot⟩
    · decide
    · have hin := climb_lt hone
      obtain ⟨b, hb⟩ := Option.isSome_iff_exists.mp (ht.ptv_isSome_iff.mpr
        (hin.trans_le (covered_le hpos)))
      have hsmall := @climb_small (covered t.nentries) 0 (by decide)
      by_contra hge
      exact absurd (above_of_le ht (by omega) hb ha (hclimb b hb)) (BitVec.not_lt.mpr hnot)

/-! ## The function without printing -/

theorem lkAddrIdx_quiet (addr : BitVec 64) (margin : Int) (t : CexpAddrTbl) :
    cexpSymTblLkAddrIdx addr margin false t =
      (lkAddrLoop addr t 0 (covered t.nentries - 1)).map (·, []) := by
  rw [cexpSymTblLkAddrIdx, covered, Nat.add_sub_cancel]
  cases lkAddrLoop addr t 0 (lastIdx t.nentries).toNat with
  | none => rfl
  | some r => rfl

/-- The search ends if and only if its sums fit. -/
theorem lkAddrIdx_isSome_iff (ht : t.Indexed) (hpos : 0 < t.nentries) (margin : Int) :
    (∃ r, cexpSymTblLkAddrIdx addr margin false t = some r) ↔ SearchFits addr t := by
  rw [← lkAddrLoop_isSome_iff ht hpos, lkAddrIdx_quiet, ← Option.isSome_iff_exists,
    Option.isSome_map]

theorem lkAddrIdx_found (ht : t.Indexed) (hpos : 0 < t.nentries) {margin : Int}
    {r : Nat × List CexpSym} (h : cexpSymTblLkAddrIdx addr margin false t = some r) :
    r.1 < covered t.nentries ∧ r.1 < 2 ^ 30 ∧ Bracket t addr (covered t.nentries) r.1 r.1 := by
  rw [lkAddrIdx_quiet] at h
  obtain ⟨r, hr, rfl⟩ := Option.map_eq_some_iff.mp h
  exact lkAddrLoop_found ht hpos hr

end

/-! ## The highest index -/

section

variable {t : CexpAddrTbl} {addr : BitVec 64}

/-- `r` is the highest index of an entry that is not above the address, or 0 if there is none. -/
structure Highest (t : CexpAddrTbl) (addr : BitVec 64) (r : Nat) : Prop where
  inside : r < t.nentries
  highest : ∀ k a, t.ptv k = some a → a ≤ addr → k ≤ r
  below : (∃ a, t.ptv r = some a ∧ a ≤ addr) ∨ r = 0

/-- The search ends, with reads inside of the index only, and gives the highest index. -/
def FindsHighest (addr : BitVec 64) (margin : Int) (f : Bool) (t : CexpAddrTbl) : Prop :=
  ∃ r printed, cexpSymTblLkAddrIdx addr margin f t = some (r, printed) ∧ Highest t addr r

/-- The entries that the search does not cover are above the address. -/
def CoversAll (addr : BitVec 64) (t : CexpAddrTbl) : Prop :=
  ∀ k a, covered t.nentries ≤ k → t.ptv k = some a → addr < a

/-- The number of the last entry that is printed. -/
def lastPrinted (margin : Int) (n r : Nat) : Int :=
  if (n : Int) ≤ (r + margin) % 2 ^ 64 then lastIdx n else r + margin

/-- The margin fits before and behind the entry `r`, and so does the number behind the last one
that is printed. -/
def PrintFits (margin : Int) (n r : Nat) : Prop :=
  r + margin.natAbs < 2 ^ 31 ∧
    ((r - margin : Int) ≤ lastPrinted margin n r → lastPrinted margin n r + 1 < 2 ^ 31)

/-- The margin fits around the entry that is to be found. -/
def MarginFits (addr : BitVec 64) (margin : Int) (t : CexpAddrTbl) : Prop :=
  ∀ r, Highest t addr r → PrintFits margin t.nentries r

theorem Highest.unique {r r' : Nat} (h : Highest t addr r) (h' : Highest t addr r') : r = r' := by
  have hle : ∀ {i j : Nat}, Highest t addr i → Highest t addr j → i ≤ j := by
    intro i j hi hj
    rcases hi.below with ⟨a, ha, hnot⟩ | rfl
    · exact hj.highest i a ha hnot
    · exact Nat.zero_le j
  exact Nat.le_antisymm (hle h h') (hle h' h)

/-- What the search has found is the highest index if and only if it covers all that matters. -/
theorem Bracket.highest_iff {r : Nat} (hpos : 0 < t.nentries) (hr : r < covered t.nentries)
    (h : Bracket t addr (covered t.nentries) r r) : Highest t addr r ↔ CoversAll addr t := by
  constructor
  · intro hhigh k a hk ha
    by_contra hnot
    have := hhigh.highest k a ha (BitVec.not_lt.mp hnot)
    omega
  · intro hall
    refine ⟨hr.trans_le (covered_le hpos), fun k a ha hle => ?_, h.below.symm⟩
    by_contra hlt
    rcases Nat.lt_or_ge k (covered t.nentries) with hk | hk
    · exact absurd (h.above k a (by omega) hk ha) (BitVec.not_lt.mpr hle)
    · exact absurd (hall k a hk ha) (BitVec.not_lt.mpr hle)

/-- The entries from `lo` to `hi` are printed if and only if the number behind them fits. -/
theorem lkAddrPrint_isSome_iff (ht : t.Indexed) {lo hi : Int} (hlo : 0 ≤ lo)
    (hhi : hi < t.nentries) (hint : hi < 2 ^ 31) :
    (lkAddrPrint t lo hi).isSome = true ↔ (lo ≤ hi → hi + 1 < 2 ^ 31) := by
  induction hn : (hi + 1 - lo).toNat using Nat.strong_induction_on generalizing lo with
  | _ n ih =>
    rw [lkAddrPrint]
    split
    · next hle =>
      obtain ⟨_, s, -, -, -, hs⟩ := ht.sym_isSome (show lo.toNat < t.nentries by omega)
      rw [imp_iff_right hle, hs]
      show ((intResult (lo + 1)).bind _).isSome = true ↔ _
      by_cases hfit : lo + 1 < 2 ^ 31
      · rw [intResult_eq_some.mpr ⟨⟨by omega, hfit⟩, rfl⟩, Option.bind_some]
        have hrest := ih _ (by omega) (show 0 ≤ lo + 1 by omega) rfl
        have hend : ((lkAddrPrint t (lo + 1) hi).bind fun printed => some (s :: printed)).isSome =
            (lkAddrPrint t (lo + 1) hi).isSome := by
          cases lkAddrPrint t (lo + 1) hi <;> rfl
        exact ((Bool.coe_iff_coe.mpr hend).trans hrest).trans ⟨fun h => by omega, fun h _ => h⟩
      · have hnone : intResult (lo + 1) = none := if_neg fun h => hfit h.2
        rw [hnone]
        exact iff_of_false Bool.false_ne_true (by omega)
    · next hgt => exact iff_of_true rfl fun hle => absurd hle hgt

/-- The printing after the search. -/
theorem lkAddrIdx_stream {r : Nat} {margin : Int}
    (hloop : lkAddrLoop addr t 0 (covered t.nentries - 1) = some r) :
    cexpSymTblLkAddrIdx addr margin true t =
      (intResult (r - margin)).bind fun lo => (intResult (r + margin)).bind fun hi =>
        (lkAddrPrint t (if lo < 0 then 0 else lo)
          (if (t.nentries : Int) ≤ hi % 2 ^ 64 then lastIdx t.nentries else hi)).bind
            fun printed => some (r, printed) := by
  rw [covered, Nat.add_sub_cancel] at hloop
  rw [cexpSymTblLkAddrIdx, hloop]
  rfl

/-- With a stream the function ends if and only if the margin fits. -/
theorem lkAddrIdx_margin (ht : t.Indexed) {r : Nat} {margin : Int} (hr : r < t.nentries)
    (hloop : lkAddrLoop addr t 0 (covered t.nentries - 1) = some r) :
    (∃ printed, cexpSymTblLkAddrIdx addr margin true t = some (r, printed)) ↔
      PrintFits margin t.nentries r := by
  have hlast := lastIdx_lt t.nentries
  rw [lkAddrIdx_stream hloop, PrintFits]
  by_cases hfit : r + margin.natAbs < 2 ^ 31
  · have hprint := @lkAddrPrint_isSome_iff t ht (if (r : Int) - margin < 0 then 0 else r - margin)
      (lastPrinted margin t.nentries r) (by split <;> omega)
      (by rw [lastPrinted]; split <;> omega) (by rw [lastPrinted]; split <;> omega)
    have hfirst : ((if (r : Int) - margin < 0 then 0 else r - margin) ≤
        lastPrinted margin t.nentries r → lastPrinted margin t.nentries r + 1 < 2 ^ 31) ↔
        ((r - margin : Int) ≤ lastPrinted margin t.nentries r →
          lastPrinted margin t.nentries r + 1 < 2 ^ 31) := by
      split <;> omega
    rw [intResult_eq_some.mpr ⟨⟨by omega, by omega⟩, rfl⟩, Option.bind_some,
      intResult_eq_some.mpr ⟨⟨by omega, by omega⟩, rfl⟩, Option.bind_some, and_iff_right hfit,
      ← hfirst, ← hprint, lastPrinted, Option.isSome_iff_exists]
    refine exists_congr fun printed => ?_
    rw [Option.bind_eq_some_iff]
    constructor
    · rintro ⟨_, hrun, heq⟩
      cases heq
      exact hrun
    · exact fun hrun => ⟨printed, hrun, rfl⟩
  · refine iff_of_false ?_ fun h => hfit h.1
    rintro ⟨printed, hrun⟩
    obtain ⟨lo, hlo, hrun⟩ := Option.bind_eq_some_iff.mp hrun
    obtain ⟨hi, hhi, -⟩ := Option.bind_eq_some_iff.mp hrun
    have hlo' := (intResult_eq_some.mp hlo).1
    have hhi' := (intResult_eq_some.mp hhi).1
    omega

/-- With a stream the function gives the number that the loop leaves. -/
theorem lkAddrIdx_loop {r : Nat} {margin : Int} {f : Bool} {printed : List CexpSym}
    (hrun : cexpSymTblLkAddrIdx addr margin f t = some (r, printed)) :
    lkAddrLoop addr t 0 (covered t.nentries - 1) = some r := by
  cases f with
  | false =>
    rw [lkAddrIdx_quiet] at hrun
    obtain ⟨mid, hmid, heq⟩ := Option.map_eq_some_iff.mp hrun
    cases heq
    exact hmid
  | true =>
    cases hmid : lkAddrLoop addr t 0 (covered t.nentries - 1) with
    | none =>
      rw [covered, Nat.add_sub_cancel] at hmid
      rw [cexpSymTblLkAddrIdx, hmid] at hrun
      cases hrun
    | some mid =>
      rw [lkAddrIdx_stream hmid] at hrun
      obtain ⟨lo, -, hrun⟩ := Option.bind_eq_some_iff.mp hrun
      obtain ⟨hi, -, hrun⟩ := Option.bind_eq_some_iff.mp hrun
      obtain ⟨ss, -, heq⟩ := Option.bind_eq_some_iff.mp hrun
      cases heq
      rfl

/-- The loop ends with the highest index if and only if its sums fit and it covers all that
matters. -/
theorem lkAddrLoop_highest (ht : t.Indexed) (hpos : 0 < t.nentries) :
    (∃ r, lkAddrLoop addr t 0 (covered t.nentries - 1) = some r ∧ Highest t addr r) ↔
      SearchFits addr t ∧ CoversAll addr t := by
  rw [← lkAddrLoop_isSome_iff ht hpos]
  constructor
  · rintro ⟨r, hr, hhigh⟩
    obtain ⟨hlt, -, hbr⟩ := lkAddrLoop_found ht hpos hr
    exact ⟨Option.isSome_of_eq_some hr, (hbr.highest_iff hpos hlt).mp hhigh⟩
  · rintro ⟨hends, hall⟩
    obtain ⟨r, hr⟩ := Option.isSome_iff_exists.mp hends
    obtain ⟨hlt, -, hbr⟩ := lkAddrLoop_found ht hpos hr
    exact ⟨r, hr, (hbr.highest_iff hpos hlt).mpr hall⟩

/-- `cexpSymTblLkAddrIdx` ends with the highest index if and only if the sums of its search fit and
those of its printing, and it covers all that matters. -/
theorem lkAddrIdx_finds (ht : t.Indexed) (hpos : 0 < t.nentries) (addr : BitVec 64) (margin : Int)
    (f : Bool) : FindsHighest addr margin f t ↔
      (SearchFits addr t ∧ CoversAll addr t) ∧ (f = true → MarginFits addr margin t) := by
  rw [← lkAddrLoop_highest ht hpos]
  constructor
  · rintro ⟨r, printed, hrun, hhigh⟩
    have hr := lkAddrIdx_loop hrun
    refine ⟨⟨r, hr, hhigh⟩, ?_⟩
    rintro rfl r' hhigh'
    rw [hhigh'.unique hhigh]
    exact (lkAddrIdx_margin ht hhigh.inside hr).mp ⟨printed, hrun⟩
  · rintro ⟨⟨r, hr, hhigh⟩, hmargin⟩
    cases f with
    | false =>
      refine ⟨r, [], ?_, hhigh⟩
      rw [lkAddrIdx_quiet, hr]
      rfl
    | true =>
      obtain ⟨printed, hrun⟩ :=
        (lkAddrIdx_margin ht hhigh.inside hr).mpr (hmargin rfl r hhigh)
      exact ⟨r, printed, hrun, hhigh⟩

/-- The search for the highest address climbs to the end, and that has to be the last entry. -/
theorem nentries_le_of_fits (ht : t.Indexed) (hpos : 0 < t.nentries)
    (hfits : SearchFits (BitVec.allOnes 64) t) (hall : CoversAll (BitVec.allOnes 64) t) :
    t.nentries ≤ 2 ^ 30 := by
  have hnone : ∀ k < t.nentries, ¬ ∀ a, t.ptv k = some a → BitVec.allOnes 64 < a := by
    intro k hk h
    obtain ⟨a, ha⟩ := Option.isSome_iff_exists.mp (ht.ptv_isSome_iff.mpr hk)
    have hlt := BitVec.lt_def.mp (h a ha)
    rw [BitVec.toNat_allOnes] at hlt
    have := a.isLt
    omega
  have hcov : t.nentries ≤ covered t.nentries := by
    by_contra hlt
    exact hnone _ (Nat.not_le.mp hlt) fun a ha => hall _ a (Nat.le_refl _) ha
  rcases hfits with hsmall | ⟨-, hclimb⟩
  · omega
  · exact absurd hclimb (hnone _ ((climb_lt (Nat.succ_pos _)).trans_le (covered_le hpos)))

/-- All addresses are found in a table if and only if it has no more than `2 ^ 30` entries. -/
theorem finds_all_iff (ht : t.Indexed) (hpos : 0 < t.nentries) :
    (∀ addr, SearchFits addr t ∧ CoversAll addr t) ↔ t.nentries ≤ 2 ^ 30 := by
  constructor
  · exact fun h => nentries_le_of_fits ht hpos (h _).1 (h _).2
  · intro hle addr
    have hcov := covered_of_le hpos (hle.trans (by decide))
    refine ⟨.inl (by omega), fun k a hk ha => ?_⟩
    have := ht.ptv_isSome_iff.mp (Option.isSome_of_eq_some ha)
    omega

end

/-! ## The search as a whole -/

/-- A table of `n` entries that are all the same. -/
def flatTbl (n : Nat) (s : CexpSym) : CexpAddrTbl where
  nentries := n
  syms := List.replicate n s
  aindex := List.range n

theorem flatTbl_indexed (n : Nat) (s : CexpSym) : (flatTbl n s).Indexed := by
  have hptv : ∀ i a, (flatTbl n s).ptv i = some a → a = s.value.ptv := by
    intro i a ha
    obtain ⟨s', hs', rfl⟩ := Option.map_eq_some_iff.mp ha
    obtain ⟨slot, -, hget⟩ := Option.bind_eq_some_iff.mp hs'
    rw [List.eq_of_mem_replicate (List.mem_of_getElem? hget)]
  refine ⟨List.Perm.refl _, (List.length_replicate).ge, ?_⟩
  intro i j a b _ ha hb
  rw [hptv i a ha, hptv j b hb]
  exact BitVec.le_refl _

/-- A symbol for such tables. -/
def flatSym : CexpSym := ⟨some CStr.empty, ⟨0, CexpType.TVoid⟩, 0, 0, 0⟩

/-- The search in an index gives the highest index if and only if its sums and those of the printing
fit and the entries that it does not cover are above the address. It does so for all addresses,
without printing, if and only if there are no more than `2 ^ 30` entries. -/
theorem lkAddrIdx_highest {t : CexpAddrTbl} (ht : t.Indexed) (hpos : 0 < t.nentries) :
    (∀ addr margin f, FindsHighest addr margin f t ↔
      (SearchFits addr t ∧ CoversAll addr t) ∧ (f = true → MarginFits addr margin t)) ∧
    ((∀ addr, FindsHighest addr 0 false t) ↔ t.nentries ≤ 2 ^ 30) := by
  refine ⟨lkAddrIdx_finds ht hpos, ?_⟩
  rw [← finds_all_iff ht hpos]
  apply forall_congr'
  intro addr
  rw [lkAddrIdx_finds ht hpos, and_iff_left fun h => absurd h Bool.false_ne_true]

/-- In a table of three equal entries the last one is found. -/
theorem lkAddrIdx_highest_flat : FindsHighest 0x1000 0 false (flatTbl 3 flatSym) :=
  ((lkAddrIdx_highest (flatTbl_indexed 3 flatSym) (Nat.succ_pos 2)).2.mpr (by decide)) 0x1000

/-- In a table of `2 ^ 30 + 1` entries the highest address is not found. -/
theorem lkAddrIdx_large : ¬ ∀ t : CexpAddrTbl, t.Indexed → 0 < t.nentries →
    ∀ addr, FindsHighest addr 0 false t := by
  intro h
  have hindexed := flatTbl_indexed (2 ^ 30 + 1) flatSym
  have hpos : 0 < 2 ^ 30 + 1 := Nat.succ_pos _
  have hall := h _ hindexed hpos (BitVec.allOnes 64)
  obtain ⟨⟨hfits, hcov⟩, -⟩ := (lkAddrIdx_finds hindexed hpos _ 0 false).mp hall
  exact absurd (nentries_le_of_fits hindexed hpos hfits hcov) (show ¬ 2 ^ 30 + 1 ≤ 2 ^ 30 by decide)

end Cexp
