import Cexp.Pmelf.Bytes

/-!
# Numbers of variable length of any length

`pmelf_guleb128` shifts each seven-bit digit to its place in a word of 32 bits. The first five
digits are right up to the width of the word (`or_shl`), and a digit that is zero is right at all
places. What a digit that is not zero adds behind the fifth place is up to the target: the shift
is by 32 or more. So targets agree on the low 32 bits of a number if and only if it is below
`2 ^ 35`, or these bits are all set, which no digit can change (`word_all_iff`).

The counter of the shifts is an `int`, too; it overflows when the bytes read times seven do.
-/

namespace Cexp

/-! ## The loop with its `int` -/

/-- The loop of `pmelf_guleb128`, with the overflow of `shft`. -/
def guleb128Int (eh : ElfHost) (sz : Int) (n shft rval : Nat) (s : List UInt8) :
    Except Halt (Option (Nat × Nat)) :=
  if sz ≤ n then .ok none
  else
    match s with
    | [] => .error .outside
    | v :: s =>
      if 2 ^ 31 ≤ shft + 7 then .error .overflow
      else if v &&& 0x80 ≠ 0 then
        guleb128Int eh sz (n + 1) (shft + 7) (rval ||| eh.shl (v &&& 0x7f).toNat shft) s
      else .ok (some (n + 1, rval ||| eh.shl (v &&& 0x7f).toNat shft))

/-- `pmelf_guleb128`: the number of bytes read and the number decoded, nothing for a return
of -1. -/
def pmelfGuleb128Int (eh : ElfHost) (s : List UInt8) (sz : Int) :
    Except Halt (Option (Nat × Nat)) :=
  guleb128Int eh sz 0 0 0 s

/-- The number of bytes up to the first one that ends a group. -/
def groupLen : List UInt8 → Nat
  | [] => 0
  | v :: s => if v &&& 0x80 ≠ 0 then groupLen s + 1 else 1

theorem groupLen_uleb (u : Uleb) (rest : List UInt8) :
    groupLen (u.bytes ++ rest) = u.bytes.length := by
  induction u with
  | last d =>
    rw [Uleb.bytes, List.cons_append, groupLen, if_neg (digit_last d).2]
    rfl
  | more d u ih =>
    rw [Uleb.bytes, List.cons_append, groupLen, if_pos (digit_more d).2, ih]
    rfl

theorem groupLen_endless {s : List UInt8} (hs : ∀ v ∈ s, ∃ d : Fin 128, v = UInt8.ofNat (d + 128)) :
    groupLen s = s.length := by
  induction s with
  | nil => rfl
  | cons v s ih =>
    rw [List.forall_mem_cons] at hs
    obtain ⟨⟨d, rfl⟩, hrest⟩ := hs
    rw [groupLen, if_pos (digit_more d).2, ih hrest]
    rfl

/-- The loop is the one with an unbounded counter until seven times the bytes read overflow. -/
theorem guleb128Int_eq (eh : ElfHost) {sz : Int} {s : List UInt8} {n shft rval : Nat}
    (hshft : shft < 2 ^ 31) :
    guleb128Int eh sz n shft rval s =
      if shft + 7 * min (groupLen s) (sz - n).toNat < 2 ^ 31 then guleb128 eh sz n shft rval s
      else .error .overflow := by
  induction s generalizing n shft rval with
  | nil =>
    rw [guleb128Int, guleb128, groupLen, Nat.zero_min, Nat.mul_zero, Nat.add_zero, if_pos hshft]
  | cons v s ih =>
    rw [guleb128Int, guleb128, groupLen]
    by_cases hsz : sz ≤ n
    · have hnone : (sz - n).toNat = 0 := by omega
      rw [if_pos hsz, if_pos hsz, hnone, Nat.min_zero, Nat.mul_zero, Nat.add_zero, if_pos hshft]
    · have hleft : (sz - n).toNat = (sz - (n + 1 : Nat)).toNat + 1 := by omega
      rw [if_neg hsz, if_neg hsz, hleft]
      by_cases hover : 2 ^ 31 ≤ shft + 7
      · rw [if_pos hover, if_neg]
        split <;> omega
      · rw [if_neg hover]
        split
        · rw [ih (Nat.not_le.mp hover), Nat.succ_min_succ, Nat.mul_succ, Nat.add_comm (7 * _) 7,
            ← Nat.add_assoc]
        · rw [if_pos (by omega)]

/-! ## The digits -/

/-- A digit at its place, added to the bits below it: the digits of the first five places are right
up to the width of the word. -/
theorem or_shl (eh : ElfHost) {x d i : Nat} (hx : x < 2 ^ (7 * i)) (hd : 2 ^ (7 * i) * d < 2 ^ 35) :
    x % 2 ^ 32 ||| eh.shl d (7 * i) = (x + 2 ^ (7 * i) * d) % 2 ^ 32 := by
  rcases Nat.lt_or_ge i 5 with hi | hi
  · rw [ElfHost.shl, if_pos (by omega), Nat.shiftLeft_eq, ← Nat.or_mod_two_pow, Nat.or_comm,
      Nat.mul_comm, ← Nat.two_pow_add_eq_or_of_lt hx, Nat.add_comm]
  · -- there is no room for a digit behind the fifth place
    have hpow : 2 ^ 35 ≤ 2 ^ (7 * i) := Nat.pow_le_pow_right (by decide) (by omega)
    have hzero : d = 0 := by
      rcases Nat.eq_zero_or_pos d with hd₀ | hd₀
      · exact hd₀
      · have := Nat.le_mul_of_pos_right (2 ^ (7 * i)) hd₀
        omega
    rw [hzero, ElfHost.shl, if_neg (by omega), eh.wideShl_zero, Nat.zero_mod, Nat.or_zero,
      Nat.mul_zero, Nat.add_zero]

theorem digit_place {x i : Nat} (hx : x < 2 ^ (7 * i)) (d : Fin 128) :
    x + 2 ^ (7 * i) * d < 2 ^ (7 * (i + 1)) := by
  have hle : 2 ^ (7 * i) * d.val ≤ 2 ^ (7 * i) * 127 := Nat.mul_le_mul_left _ (by omega)
  rw [Nat.mul_succ, Nat.pow_add]
  omega

/-- The value of the digits at their places, the first one split off. -/
theorem value_place (i : Nat) (d : Fin 128) (u : Uleb) :
    2 ^ (7 * i) * (Uleb.more d u).value
      = 2 ^ (7 * i) * d + 2 ^ (7 * (i + 1)) * u.value := by
  rw [Uleb.value, Nat.mul_succ, Nat.pow_add]
  ring

theorem Uleb.value_lt (u : Uleb) : u.value < 128 ^ u.bytes.length := by
  induction u with
  | last d => exact d.isLt
  | more d u ih =>
    have hlen : (Uleb.more d u).bytes.length = u.bytes.length + 1 := rfl
    rw [hlen, Nat.pow_succ, Uleb.value]
    omega

/-- Numbers below `2 ^ 35` are right on all targets. -/
theorem Uleb.word_mod (eh : ElfHost) (u : Uleb) {i x : Nat} (hx : x < 2 ^ (7 * i))
    (h : 2 ^ (7 * i) * u.value < 2 ^ 35) :
    u.word eh (7 * i) (x % 2 ^ 32) = (x + 2 ^ (7 * i) * u.value) % 2 ^ 32 := by
  induction u generalizing i x with
  | last d => exact or_shl eh hx h
  | more d u ih =>
    rw [value_place] at h ⊢
    rw [Uleb.word, or_shl eh hx (by omega), ← Nat.add_assoc]
    exact ih (digit_place hx d) (by omega)

/-- A word with all bits set stays so. -/
theorem or_full {x : Nat} (h : x < 2 ^ 32) : (2 ^ 32 - 1) ||| x = 2 ^ 32 - 1 := by
  apply Nat.eq_of_testBit_eq
  intro i
  rw [Nat.testBit_or, Nat.testBit_two_pow_sub_one]
  by_cases hi : i < 32
  · rw [decide_eq_true hi, Bool.true_or]
  · rw [Nat.testBit_lt_two_pow (Nat.lt_of_lt_of_le h (Nat.pow_le_pow_right (by decide)
      (Nat.not_lt.mp hi))), Bool.or_false]

theorem ElfHost.shl_zero (eh : ElfHost) (shft : Nat) : eh.shl 0 shft = 0 := by
  rw [ElfHost.shl, Nat.zero_shiftLeft, eh.wideShl_zero, ite_self]
  rfl

theorem ElfHost.shl_lt (eh : ElfHost) (d shft : Nat) : eh.shl d shft < 2 ^ 32 := by
  rw [ElfHost.shl]
  split <;> exact Nat.mod_lt _ (Nat.two_pow_pos 32)

theorem Uleb.word_full (eh : ElfHost) (u : Uleb) (shft : Nat) :
    u.word eh shft (2 ^ 32 - 1) = 2 ^ 32 - 1 := by
  induction u generalizing shft with
  | last d => exact or_full (eh.shl_lt d shft)
  | more d u ih =>
    rw [Uleb.word, or_full (eh.shl_lt d shft)]
    exact ih _

/-- A long number after its first five digits: what is left is `u'`, and `x'` are the bits so
far. -/
theorem Uleb.exists_tail (eh : ElfHost) (u : Uleb) {i x : Nat} (hx : x < 2 ^ (7 * i)) (hi : i ≤ 5)
    (h : 2 ^ 35 ≤ x + 2 ^ (7 * i) * u.value) :
    ∃ (u' : Uleb) (x' : Nat), x' < 2 ^ 35 ∧ x + 2 ^ (7 * i) * u.value = x' + 2 ^ 35 * u'.value ∧
      u.word eh (7 * i) (x % 2 ^ 32) = u'.word eh 35 (x' % 2 ^ 32) := by
  rcases Nat.lt_or_eq_of_le hi with hlt | rfl
  · induction u generalizing i x with
    | last d =>
      have hplace := digit_place hx d
      have hpow : 2 ^ (7 * (i + 1)) ≤ 2 ^ 35 := Nat.pow_le_pow_right (by decide) (by omega)
      have hvalue : (Uleb.last d).value = d := rfl
      rw [hvalue] at h
      omega
    | more d u ih =>
      have hplace := digit_place hx d
      have hpow : 2 ^ (7 * (i + 1)) ≤ 2 ^ 35 := Nat.pow_le_pow_right (by decide) (by omega)
      rw [value_place, ← Nat.add_assoc] at h ⊢
      rw [Uleb.word, or_shl eh hx (by omega)]
      rcases Nat.lt_or_eq_of_le (Nat.succ_le_of_lt hlt) with hlt' | heq
      · exact ih hplace (Nat.succ_le_of_lt hlt) h hlt'
      · obtain rfl := Nat.succ.inj heq
        exact ⟨u, _, hplace, rfl, rfl⟩
  · exact ⟨u, x, hx, rfl, rfl⟩

/-- A host whose over-wide shifts set all bits. -/
def fullElfHost : ElfHost where
  dm := .lp64
  bigEndian := false
  wideShl v _ := if v = 0 then 0 else 2 ^ 32 - 1
  wideShl_zero _ := rfl

theorem fullElfHost_shl {d shft : Nat} (hshft : 32 ≤ shft) (hd : d ≠ 0) :
    fullElfHost.shl d shft = 2 ^ 32 - 1 := by
  have hwide : fullElfHost.wideShl d shft = 2 ^ 32 - 1 := if_neg hd
  rw [ElfHost.shl, if_neg (Nat.not_lt.mpr hshft), hwide]
  rfl

theorem Uleb.word_fullElfHost (u : Uleb) {shft r : Nat} (hshft : 32 ≤ shft) (hr : r < 2 ^ 32)
    (h : u.value ≠ 0) : u.word fullElfHost shft r = 2 ^ 32 - 1 := by
  induction u generalizing shft with
  | last d =>
    have hd : d.val ≠ 0 := h
    rw [Uleb.word, fullElfHost_shl hshft hd, Nat.or_comm]
    exact or_full hr
  | more d u ih =>
    rw [Uleb.word]
    by_cases hd : d.val = 0
    · have hrest : u.value ≠ 0 := by
        intro hzero
        rw [Uleb.value, hd, hzero] at h
        exact h rfl
      rw [hd, ElfHost.shl_zero, Nat.or_zero]
      exact ih (by omega) hrest
    · rw [fullElfHost_shl hshft hd, Nat.or_comm, or_full hr]
      exact u.word_full _ _

/-- All targets agree on the low bits of a number if and only if it has no digits behind the fifth
one, or all of these bits are set. -/
theorem Uleb.word_all_iff (u : Uleb) :
    (∀ eh, u.word eh 0 0 = u.value % 2 ^ 32) ↔
      u.value < 2 ^ 35 ∨ u.value % 2 ^ 32 = 2 ^ 32 - 1 := by
  have htail : ∀ eh : ElfHost, 2 ^ 35 ≤ u.value → ∃ (u' : Uleb) (x : Nat), u'.value ≠ 0 ∧
      x % 2 ^ 32 = u.value % 2 ^ 32 ∧ u.word eh 0 0 = u'.word eh 35 (x % 2 ^ 32) := by
    intro eh hlong
    obtain ⟨u', x, hx, hsum, hword⟩ :=
      u.exists_tail eh (i := 0) (x := 0) Nat.zero_lt_one (Nat.zero_le 5) (by omega)
    exact ⟨u', x, by omega, by omega, hword⟩
  constructor
  · intro h
    rcases Nat.lt_or_ge u.value (2 ^ 35) with hshort | hlong
    · exact Or.inl hshort
    · obtain ⟨u', x, hne, -, hword⟩ := htail fullElfHost hlong
      rw [h, u'.word_fullElfHost (by decide) (Nat.mod_lt _ (Nat.two_pow_pos 32)) hne] at hword
      exact Or.inr hword
  · intro h eh
    rcases Nat.lt_or_ge u.value (2 ^ 35) with hshort | hlong
    · have hword := u.word_mod eh (i := 0) (x := 0) Nat.zero_lt_one (by omega)
      rw [Nat.mul_zero, Nat.pow_zero, Nat.one_mul, Nat.zero_add] at hword
      exact hword
    · obtain ⟨u', x, -, hx, hword⟩ := htail eh hlong
      have hfull := h.resolve_left (by omega)
      rw [hword, hx, hfull]
      exact u'.word_full eh 35

/-! ## Decoding -/

/-- `s` begins with the group `u`, which ends within `sz` bytes. -/
def GroupWithin (s : List UInt8) (sz : Int) (u : Uleb) : Prop :=
  ∃ rest, s = u.bytes ++ rest ∧ (u.bytes.length : Int) ≤ sz

/-- The length of the first group is returned if it ends within `sz` bytes, with the low 32 bits
of the number, and an error otherwise. -/
structure Decodes (eh : ElfHost) (s : List UInt8) (sz : Int) : Prop where
  group : ∀ u, GroupWithin s sz u →
    pmelfGuleb128Int eh s sz = .ok (some (u.bytes.length, u.value % 2 ^ 32))
  truncated : (¬ ∃ u, GroupWithin s sz u) → pmelfGuleb128Int eh s sz = .ok none

/-- The counter of the shifts does not overflow. -/
def ShiftsFit (s : List UInt8) (sz : Int) : Prop := 7 * min (groupLen s) sz.toNat < 2 ^ 31

instance (s : List UInt8) (sz : Int) : Decidable (ShiftsFit s sz) :=
  inferInstanceAs (Decidable (_ < _))

theorem pmelfGuleb128Int_eq (eh : ElfHost) (s : List UInt8) (sz : Int) :
    pmelfGuleb128Int eh s sz =
      if ShiftsFit s sz then pmelfGuleb128 eh s sz else .error .overflow := by
  have h := @guleb128Int_eq eh sz s 0 0 0 (Nat.two_pow_pos 31)
  rw [Nat.zero_add, Nat.cast_zero, Int.sub_zero] at h
  exact h

theorem GroupWithin.decoded {s : List UInt8} {sz : Int} {u : Uleb} (h : GroupWithin s sz u)
    (eh : ElfHost) : pmelfGuleb128 eh s sz = .ok (some (u.bytes.length, u.word eh 0 0)) := by
  obtain ⟨rest, rfl, hlen⟩ := h
  rw [pmelfGuleb128, guleb128_uleb, Nat.zero_add, if_pos hlen]

theorem pmelfGuleb128_truncated {s : List UInt8} {sz : Int} (hsz : sz ≤ s.length)
    (h : ¬ ∃ u, GroupWithin s sz u) (eh : ElfHost) : pmelfGuleb128 eh s sz = .ok none := by
  rcases exists_uleb s with ⟨u, rest, rfl⟩ | hs
  · have hlen : ¬ (u.bytes.length : Int) ≤ sz := fun hle => h ⟨u, rest, rfl, hle⟩
    rw [pmelfGuleb128, guleb128_uleb, Nat.zero_add, if_neg hlen]
  · rw [pmelfGuleb128, guleb128_endless eh sz s hs, Nat.zero_add, if_pos hsz]

/-- A result of any kind shows that the counter has not overflowed. -/
theorem Decodes.shiftsFit {eh : ElfHost} {s : List UInt8} {sz : Int} (h : Decodes eh s sz) :
    ShiftsFit s sz := by
  by_contra hover
  have herr := pmelfGuleb128Int_eq eh s sz
  rw [if_neg hover] at herr
  by_cases hgroup : ∃ u, GroupWithin s sz u
  · obtain ⟨u, hu⟩ := hgroup
    rw [h.group u hu] at herr
    cases herr
  · rw [h.truncated hgroup] at herr
    cases herr

/-- `pmelf_guleb128` decodes the first group of a buffer of `sz` bytes on all targets if and only if
the counter of its shifts does not overflow, and the number of a group that ends within the buffer
is below `2 ^ 35` or has all of its low 32 bits set. -/
theorem guleb128_decodes {s : List UInt8} {sz : Int} (hsz : sz ≤ s.length) :
    (∀ eh, Decodes eh s sz) ↔ ShiftsFit s sz ∧
      ∀ u, GroupWithin s sz u → u.value < 2 ^ 35 ∨ u.value % 2 ^ 32 = 2 ^ 32 - 1 := by
  constructor
  · intro h
    have hfit := (h fullElfHost).shiftsFit
    refine ⟨hfit, fun u hu => u.word_all_iff.mp fun eh => ?_⟩
    have hrun := (h eh).group u hu
    rw [pmelfGuleb128Int_eq, if_pos hfit, hu.decoded, Except.ok.injEq, Option.some.injEq,
      Prod.mk.injEq] at hrun
    exact hrun.2
  · intro ⟨hfit, hvalue⟩ eh
    constructor
    · intro u hu
      rw [pmelfGuleb128Int_eq, if_pos hfit, hu.decoded, u.word_all_iff.mpr (hvalue u hu)]
    · intro hnone
      rw [pmelfGuleb128Int_eq, if_pos hfit, pmelfGuleb128_truncated hsz hnone]

/-- A host that shifts by the low five bits of the distance. -/
def maskElfHost : ElfHost where
  dm := .lp64
  bigEndian := false
  wideShl v s := v <<< (s % 32)
  wideShl_zero _ := Nat.zero_shiftLeft _

/-- The number 1 with four digits of padding. -/
theorem guleb128_decodes_padded : Decodes maskElfHost [0x81, 0x80, 0x80, 0x80, 0] 5 := by
  have hall : ∀ eh, Decodes eh [0x81, 0x80, 0x80, 0x80, 0] 5 := by
    apply (guleb128_decodes (Int.le_refl 5)).mpr
    refine ⟨by decide, fun u hu => Or.inl ?_⟩
    obtain ⟨_, _, hlen⟩ := hu
    exact Nat.lt_of_lt_of_le u.value_lt
      (Nat.pow_le_pow_right (by decide) (show u.bytes.length ≤ 5 by omega))
  exact hall maskElfHost

/-- The sixth digit of `2 ^ 35` gets to the place of 8. -/
theorem guleb128_sixth_digit :
    ¬ ∀ (eh : ElfHost) (s : List UInt8) (sz : Int), sz ≤ s.length → Decodes eh s sz := by
  intro h
  have hu : GroupWithin [0x80, 0x80, 0x80, 0x80, 0x80, 1] 6
      (.more 0 (.more 0 (.more 0 (.more 0 (.more 0 (.last 1)))))) := ⟨[], rfl, Int.le_refl 6⟩
  have hrun := (h maskElfHost [0x80, 0x80, 0x80, 0x80, 0x80, 1] 6 (Int.le_refl 6)).group _ hu
  exact absurd hrun (by decide)

end Cexp
