import Cexp.Grammar.LexerCursor

/-!
# The scratch buffer of the lexer

What a token puts into the scratch buffer is its text, and a NUL where it is a string of C. Every
kind of token has its own way to see that there is room. Two of them miss a case: a number with as
many digits before its point as the buffer takes hides from `scanfrac` that there is no room for a
fraction (`LongFraction`), and the escape sequences of a string are not counted as long as they are
known (`LongEscapes`). All other tokens fit, or are rejected (`lexer_buffer_iff`).
-/

namespace Cexp

open CLib

/-! ## The texts of the tokens -/

def signText : List UInt8 → List UInt8
  | c :: _ => if chr c = '-' ∨ chr c = '+' then [c] else []
  | [] => []

/-- `E`, a sign and digits. -/
def exponentText : List UInt8 → List UInt8
  | c :: rest =>
    if isE c then
      69 :: signText rest ++ (rest.drop (signText rest).length).takeWhile isdigit
    else []
  | [] => []

def fracText (chpt : List UInt8) : List UInt8 :=
  chpt.takeWhile isdigit ++ exponentText (chpt.dropWhile isdigit)

/-- The point of a number and what comes behind it. -/
def pointText : List UInt8 → List UInt8
  | c :: rest => if chr c = '.' then c :: fracText rest else []
  | [] => []

/-- Only the first digit of a hex or an octal number is kept. -/
def numberText : List UInt8 → List UInt8
  | c :: rest =>
    if chr c = '0' then c :: pointText rest
    else (c :: rest).takeWhile isdigit ++ pointText ((c :: rest).dropWhile isdigit)
  | [] => []

/-- The string that a literal stands for, behind its opening quote, if it is closed. -/
def stringText : List UInt8 → Option (List UInt8)
  | [] => none
  | c :: rest =>
    if chr c = '\\' then
      match rest with
      | [] => none
      | e :: rest =>
        match strEscape e with
        | some x => (stringText rest).map (x :: ·)
        | none => if e = 0 then none else (stringText rest).map (c :: e :: ·)
    else if chr c = '"' then some []
    else if c = 0 then none
    else (stringText rest).map (c :: ·)

/-- What the token at the cursor has to put into the buffer, without the NUL. -/
def tokenText (chpt : List UInt8) : List UInt8 :=
  match chpt.dropWhile isBlank with
  | [] => []
  | c :: rest =>
    if isdigit c then numberText (c :: rest)
    else if chr c = '.' then pointText (c :: rest)
    else if isalpha c || ISIDENTCHAR c then (c :: rest).takeWhile isIdent
    else if chr c = '"' then (stringText rest).getD []
    else []

/-- All bytes are written inside of the buffer, and a text that is too long is rejected. -/
def Fits (text : List UInt8) (r : Lexed) : Prop :=
  r.sbuf.length ≤ sbufSize ∧ (sbufSize < text.length + 1 → r.token.isError)

theorem Fits.of_text {text : List UInt8} {r : Lexed} (hsbuf : r.sbuf.length ≤ sbufSize)
    (htext : text.length + 1 ≤ sbufSize) : Fits text r :=
  ⟨hsbuf, fun h => absurd htext (Nat.not_le.mpr h)⟩

theorem Fits.of_error {text : List UInt8} {r : Lexed} (hsbuf : r.sbuf.length ≤ sbufSize)
    (herror : r.token.isError) : Fits text r := ⟨hsbuf, fun _ => herror⟩

/-! ## Fractions -/

/-- `size` tells how much is left of the buffer, with a byte for the NUL. -/
structure Room (size : Int) (sbuf : List UInt8) : Prop where
  pos : 0 < size
  sum : sbuf.length + size = (sbufSize - 1 : Nat)

theorem Room.length_lt {size : Int} {sbuf : List UInt8} (h : Room size sbuf) :
    sbuf.length < sbufSize - 1 := by
  have hpos := h.pos
  have hsum := h.sum
  omega

theorem Room.length_push {size : Int} {sbuf : List UInt8} (h : Room size sbuf) (c : UInt8) :
    (sbuf ++ [c]).length < sbufSize := by
  have hlt := h.length_lt
  rw [List.length_append, List.length_singleton]
  omega

theorem Room.push {size : Int} {sbuf : List UInt8} (h : Room size sbuf) (hsize : size - 1 ≠ 0)
    (c : UInt8) : Room (size - 1) (sbuf ++ [c]) := by
  have hpos := h.pos
  have hsum := h.sum
  have hlen : (sbuf ++ [c]).length = sbuf.length + 1 := List.length_append
  exact ⟨by omega, by omega⟩

/-- A step of `scanfrac` has rejected the number, or `text` is in the buffer. -/
def FracFits (text chpt : List UInt8) : Except Lexed (Int × List UInt8 × List UInt8) → Prop
  | .error r => r.sbuf.length ≤ sbufSize ∧ r.token.isError
  | .ok (size, sbuf, chpt') => Room size sbuf ∧ sbuf = text ∧ chpt' = chpt

theorem Room.fits_error {size : Int} {sbuf : List UInt8} (h : Room size sbuf) (c : UInt8)
    (text chpt chpt' : List UInt8) : FracFits text chpt (.error (prerr (sbuf ++ [c]) chpt')) :=
  ⟨(h.length_push c).le, rfl⟩

theorem fracDigits_fits {size : Int} {sbuf mem : List UInt8} (hroom : Room size sbuf)
    {r : Except Lexed (Int × List UInt8 × List UInt8)} (hr : fracDigits size sbuf mem = some r) :
    FracFits (sbuf ++ mem.takeWhile isdigit) (mem.dropWhile isdigit) r := by
  induction mem generalizing size sbuf with
  | nil => cases hr
  | cons c rest ih =>
    rw [fracDigits] at hr
    by_cases hc : isdigit c = true
    · have hmore : (isdigit c && size ≠ 0) = true := by simp [hc, hroom.pos.ne']
      rw [if_pos hmore] at hr
      rw [List.takeWhile_cons_of_pos hc, List.dropWhile_cons_of_pos hc, List.append_cons]
      split at hr
      · cases hr
        exact hroom.fits_error c _ _ _
      · next hsize => exact ih (hroom.push hsize c) hr
    · rw [if_neg (by simp [hc])] at hr
      cases hr
      rw [List.takeWhile_cons_of_neg hc, List.dropWhile_cons_of_neg hc, List.append_nil]
      exact ⟨hroom, rfl, rfl⟩

theorem fracSign_fits {size : Int} {sbuf mem : List UInt8} (hroom : Room size sbuf)
    {r : Except Lexed (Int × List UInt8 × List UInt8)} (hr : fracSign size sbuf mem = some r) :
    FracFits (sbuf ++ signText mem) (mem.drop (signText mem).length) r := by
  cases mem with
  | nil => cases hr
  | cons c rest =>
    rw [fracSign] at hr
    rw [signText]
    split at hr
    · next hsign =>
      rw [if_pos hsign]
      split at hr
      · cases hr
        exact hroom.fits_error c _ _ _
      · next hsize =>
        cases hr
        exact ⟨hroom.push hsize c, rfl, rfl⟩
    · next hsign =>
      cases hr
      rw [if_neg hsign, List.append_nil]
      exact ⟨hroom, rfl, rfl⟩

/-- A fraction that is not rejected is in the buffer completely. -/
theorem fracLoop_fits {size : Int} {sbuf mem : List UInt8} (hroom : Room size sbuf)
    {r : Except Lexed (Int × List UInt8 × List UInt8)} (hr : fracLoop size sbuf mem = some r) :
    ∃ chpt, FracFits (sbuf ++ fracText mem) chpt r := by
  obtain ⟨r', hdigits, hr⟩ := Option.bind_eq_some_iff.mp hr
  have hfits := fracDigits_fits hroom hdigits
  rw [fracText, ← List.append_assoc]
  match r', hfits with
  | .error r', hfits =>
    cases hr
    exact ⟨[], hfits⟩
  | .ok (size', sbuf', []), _ => cases hr
  | .ok (size', sbuf', c :: rest), ⟨hroom', htext, hchpt⟩ =>
    rw [← htext, ← hchpt, exponentText]
    dsimp only at hr
    split at hr
    · next hE =>
      rw [if_pos hE]
      split at hr
      · cases hr
        exact ⟨[], hroom'.fits_error 69 _ _ _⟩
      · next hsize =>
        obtain ⟨r'', hsign, hr⟩ := Option.bind_eq_some_iff.mp hr
        have hfits' := fracSign_fits (hroom'.push hsize 69) hsign
        match r'', hfits' with
        | .error r'', hfits' =>
          cases hr
          exact ⟨[], hfits'⟩
        | .ok (size'', sbuf'', chpt''), ⟨hroom'', htext', hchpt'⟩ =>
          have hfits'' := fracDigits_fits hroom'' hr
          rw [htext', hchpt', List.append_assoc, List.append_assoc, List.singleton_append,
            ← List.cons_append] at hfits''
          exact ⟨_, hfits''⟩
    · next hE =>
      cases hr
      rw [if_neg hE, List.append_nil]
      exact ⟨_, hroom', rfl, rfl⟩

theorem fracEnd_sbuf (E : LexEnv) (sbuf chpt : List UInt8) :
    (fracEnd E sbuf chpt).sbuf = sbuf ++ [0] := by
  rw [fracEnd]
  split <;> rfl

theorem fracText_of_other {c : UInt8} (h : ¬(isdigit c || isE c) = true) (rest : List UInt8) :
    fracText (c :: rest) = [] := by
  rw [Bool.or_eq_true, not_or] at h
  rw [fracText, List.takeWhile_cons_of_neg h.1, List.dropWhile_cons_of_neg h.1, exponentText,
    if_neg h.2]
  rfl

/-- With room for the point and a byte more, `scanfrac` sees that the rest does not fit. -/
theorem scanfrac_fits {E : LexEnv} {size : Int} {sbuf : List UInt8} (hroom : Room size sbuf)
    (hsize : size - 1 ≠ 0) {rejectLonely : Bool} {c : UInt8} {rest : List UInt8} {r : Lexed}
    (hr : scanfrac E sbuf size rejectLonely (c :: rest) = some r) :
    Fits (sbuf ++ c :: fracText rest) r := by
  have hroom' := hroom.push hsize c
  cases rest with
  | nil => cases hr
  | cons d rest =>
    rw [scanfrac] at hr
    split at hr
    · obtain ⟨r', hloop, hr⟩ := Option.bind_eq_some_iff.mp hr
      obtain ⟨chpt, hfits⟩ := fracLoop_fits hroom' hloop
      rw [← List.append_cons] at hfits
      rcases r' with r' | ⟨size', sbuf', chpt'⟩
      · cases hr
        exact .of_error hfits.1 hfits.2
      · obtain ⟨hroom'', htext, -⟩ := hfits
        cases hr
        have hlt := hroom''.length_lt
        apply Fits.of_text
        · rw [fracEnd_sbuf]
          exact (hroom''.length_push 0).le
        · rw [← htext]
          omega
    · next hother =>
      have htext : (sbuf ++ c :: fracText (d :: rest)).length + 1 ≤ sbufSize := by
        rw [fracText_of_other hother]
        exact (hroom.length_push c)
      split at hr
      · cases hr
        exact .of_text (hroom.length_push c).le htext
      · cases hr
        refine .of_text ?_ htext
        rw [fracEnd_sbuf]
        exact (hroom'.length_push 0).le

/-! ### A buffer that is full behind the point -/

/-- What has been written is longer than `n`, or not shorter with a NUL to come. -/
def Longer (n : Nat) : Except Lexed (Int × List UInt8 × List UInt8) → Prop
  | .error r => n < r.sbuf.length
  | .ok (_, sbuf, _) => n ≤ sbuf.length

theorem length_push (sbuf : List UInt8) (c : UInt8) : (sbuf ++ [c]).length = sbuf.length + 1 :=
  List.length_append

theorem fracDigits_longer {n : Nat} {size : Int} {sbuf mem : List UInt8} (hn : n ≤ sbuf.length)
    {r : Except Lexed (Int × List UInt8 × List UInt8)} (hr : fracDigits size sbuf mem = some r) :
    Longer n r := by
  induction mem generalizing size sbuf with
  | nil => cases hr
  | cons c rest ih =>
    rw [fracDigits] at hr
    have hpush : n < (sbuf ++ [c]).length := by
      rw [length_push]
      omega
    split at hr
    · split at hr
      · cases hr
        exact hpush
      · exact ih hpush.le hr
    · cases hr
      exact hn

theorem fracSign_longer {n : Nat} {size : Int} {sbuf mem : List UInt8} (hn : n ≤ sbuf.length)
    {r : Except Lexed (Int × List UInt8 × List UInt8)} (hr : fracSign size sbuf mem = some r) :
    Longer n r := by
  cases mem with
  | nil => cases hr
  | cons c rest =>
    rw [fracSign] at hr
    have hpush : n < (sbuf ++ [c]).length := by
      rw [length_push]
      omega
    split at hr
    · split at hr
      · cases hr
        exact hpush
      · cases hr
        exact hpush.le
    · cases hr
      exact hn

/-- The documented behaviour of `strtod` on digits and a point: it reads all of them. -/
def ReadsPoint (strtod : List UInt8 → BitVec 64 × Nat) : Prop :=
  ∀ digits, digits ≠ [] → (∀ d ∈ digits, isdigit d) →
    (strtod (digits ++ [46])).2 = digits.length + 1

theorem fracEnd_point {E : LexEnv} (hstrtod : ReadsPoint E.strtod) {digits : List UInt8}
    (hne : digits ≠ []) (hdigits : ∀ d ∈ digits, isdigit d) (chpt : List UInt8) :
    (fracEnd E (digits ++ [46]) chpt).token.isError = false := by
  have hend : (digits ++ [46] ++ [0])[(E.strtod (digits ++ [46])).2]? = some (0 : UInt8) := by
    rw [hstrtod digits hne hdigits, ← length_push digits 46]
    exact List.getElem?_concat_length
  rw [fracEnd, if_pos hend]
  rfl

theorem isdigit_of_isE {c : UInt8} (h : isE c) : isdigit c = false := by
  rw [isE, Bool.or_eq_true, decide_eq_true_iff, decide_eq_true_iff] at h
  rcases h with h | h
  · rw [(chr_eq_iff 69).mp h]
    rfl
  · rw [(chr_eq_iff 101).mp h]
    rfl

/-- The exponent is written behind the end of the buffer. -/
theorem fracLoop_exponent {size : Int} (hsize : size - 1 ≠ 0) {sbuf : List UInt8} {d : UInt8}
    (hE : isE d) {rest : List UInt8} {r : Except Lexed (Int × List UInt8 × List UInt8)}
    (hr : fracLoop size sbuf (d :: rest) = some r) : Longer (sbuf.length + 1) r := by
  have hdigit : ¬(isdigit d && size ≠ 0) = true := by simp [isdigit_of_isE hE]
  rw [fracLoop, fracDigits, if_neg hdigit, Option.bind_eq_bind, Option.bind_some] at hr
  dsimp only at hr
  rw [if_pos hE, if_neg hsize] at hr
  obtain ⟨r', hsign, hr⟩ := Option.bind_eq_some_iff.mp hr
  have hlonger := fracSign_longer (length_push sbuf 69).ge hsign
  rcases r' with r' | ⟨size', sbuf', chpt'⟩
  · cases hr
    exact hlonger
  · exact fracDigits_longer hlonger hr

/-- With room for the point only, a fraction is cut off or gets over the end of the buffer. -/
theorem scanfrac_full {E : LexEnv} (hstrtod : ReadsPoint E.strtod) {digits : List UInt8}
    (hlen : digits.length = sbufSize - 2) (hdigits : ∀ d ∈ digits, isdigit d) {d : UInt8}
    {rest : List UInt8} {r : Lexed} (hr : scanfrac E digits 1 false (46 :: d :: rest) = some r) :
    Fits (digits ++ 46 :: fracText (d :: rest)) r ↔ ¬(isdigit d || isE d) = true := by
  have hne : digits ≠ [] := by
    intro hnil
    rw [hnil] at hlen
    cases hlen
  have hpoint : (digits ++ [46]).length = sbufSize - 1 := by
    rw [length_push, hlen]
    rfl
  rw [scanfrac] at hr
  split at hr
  · next hmore =>
    refine iff_of_false ?_ (not_not.mpr hmore)
    rintro ⟨hsbuf, herror⟩
    obtain ⟨r', hloop, hr⟩ := Option.bind_eq_some_iff.mp hr
    by_cases hE : isE d = true
    · have hlonger := fracLoop_exponent (by decide) hE hloop
      rw [hpoint] at hlonger
      rcases r' with r' | ⟨size', sbuf', chpt'⟩
      · cases hr
        exact absurd hsbuf (Nat.not_le.mpr hlonger)
      · cases hr
        rw [fracEnd_sbuf, length_push] at hsbuf
        exact absurd hlonger (Nat.not_le.mpr hsbuf)
    · -- the digits behind the point are left to the next token
      have hdigit : isdigit d = true := by simpa [hE] using hmore
      have hzero : ¬(isdigit d && (1 : Int) - 1 ≠ 0) = true := by simp
      rw [fracLoop, fracDigits, if_neg hzero, Option.bind_eq_bind, Option.bind_some] at hloop
      dsimp only at hloop
      rw [if_neg hE] at hloop
      cases hloop
      cases hr
      have hlong : sbufSize < (digits ++ 46 :: fracText (d :: rest)).length + 1 := by
        rw [fracText, List.takeWhile_cons_of_pos hdigit]
        simp only [List.length_append, List.length_cons, hlen, sbufSize]
        omega
      have hnot := fracEnd_point hstrtod hne hdigits (d :: rest)
      rw [herror hlong] at hnot
      cases hnot
  · next hother =>
    refine iff_of_true ?_ hother
    rw [if_neg (by decide)] at hr
    cases hr
    rw [fracText_of_other hother]
    apply Fits.of_text
    · rw [fracEnd_sbuf, length_push, hpoint]
      rfl
    · rw [hpoint]
      rfl

/-! ## Numbers -/

theorem decLoop_digits {limit num : Nat} {sbuf : List UInt8} {c : UInt8} {rest : List UInt8}
    (hc : isdigit c) (hlimit : 0 < limit) {r : Nat × Nat × List UInt8 × List UInt8}
    (hr : decLoop limit num sbuf (c :: rest) = some r) :
    r.2.2.1.length + r.1 = sbuf.length + limit ∧
      r.2.2.1 <+: sbuf ++ (c :: rest).takeWhile isdigit ∧
      (r.1 ≠ 0 → r.2.2.1 = sbuf ++ (c :: rest).takeWhile isdigit ∧
        r.2.2.2 = (c :: rest).dropWhile isdigit) := by
  induction rest generalizing limit num sbuf c with
  | nil => cases hr
  | cons d rest ih =>
    rw [decLoop] at hr
    rw [List.takeWhile_cons_of_pos hc, List.dropWhile_cons_of_pos hc, List.append_cons]
    split at hr
    · next hmore =>
      rw [Bool.and_eq_true, decide_eq_true_iff] at hmore
      obtain ⟨hsum, hprefix, hall⟩ := ih hmore.1 (Nat.pos_of_ne_zero hmore.2) hr
      rw [length_push] at hsum
      exact ⟨by omega, hprefix, hall⟩
    · next hstop =>
      cases hr
      refine ⟨?_, List.prefix_append _ _, ?_⟩
      · dsimp only
        rw [length_push]
        omega
      · intro hlimit'
        have hd : ¬isdigit d = true := by simpa [hlimit'] using hstop
        rw [List.takeWhile_cons_of_neg hd, List.dropWhile_cons_of_neg hd, List.append_nil]
        exact ⟨rfl, rfl⟩

/-- A number of base 10 with as many digits as fit in the buffer with the point, and a fraction. -/
def LongNumber (text : List UInt8) : Prop :=
  (text.takeWhile isdigit).length = sbufSize - 2 ∧
    ∃ c rest, text.dropWhile isdigit = 46 :: c :: rest ∧ (isdigit c || isE c) = true

theorem decNumber_fits {E : LexEnv} (hstrtod : ReadsPoint E.strtod) {c : UInt8}
    {rest : List UInt8} (hc : isdigit c) (hzero : chr c ≠ '0') {r : Lexed}
    (hr : decNumber E (sbufSize - 1) (c :: rest) = some r) :
    Fits (numberText (c :: rest)) r ↔ ¬LongNumber (c :: rest) := by
  obtain ⟨⟨limit, num, sbuf, chpt⟩, hloop, hr⟩ := Option.bind_eq_some_iff.mp hr
  obtain ⟨hsum, hprefix, hall⟩ := decLoop_digits hc (by decide) hloop
  rw [List.nil_append] at hprefix hall
  dsimp only at hsum hprefix hall
  rw [List.length_nil, Nat.zero_add] at hsum
  rw [numberText, if_neg hzero]
  cases chpt with
  | nil => cases hr
  | cons d chpt =>
    dsimp only at hr
    split at hr
    · -- there are too many digits
      next hlimit =>
      cases hr
      refine iff_of_true (.of_error ?_ rfl) ?_
      · change sbuf.length ≤ sbufSize
        omega
      · intro hlong
        have hle := hprefix.length_le
        rw [hlong.1] at hle
        simp only [sbufSize] at hle hsum
        omega
    · next hlimit =>
      obtain ⟨htake, hdrop⟩ := hall hlimit
      rw [← htake, ← hdrop, pointText]
      have hlt : sbuf.length + 1 < sbufSize := by
        simp only [sbufSize] at hsum ⊢
        omega
      split at hr
      · next hdot =>
        have hd : d = 46 := (chr_eq_iff 46).mp hdot
        rw [if_pos hdot]
        rw [LongNumber, ← htake, ← hdrop, hd]
        rw [hd] at hr
        by_cases hone : limit = 1
        · have hlen : sbuf.length = sbufSize - 2 := by omega
          have hdigits : ∀ d ∈ sbuf, isdigit d := by
            rw [htake]
            exact fun _ => List.mem_takeWhile_imp
          rw [hone] at hr
          cases chpt with
          | nil => cases hr
          | cons e chpt =>
            rw [scanfrac_full hstrtod hlen hdigits hr, not_iff_not]
            constructor
            · intro he
              exact ⟨hlen, e, chpt, rfl, he⟩
            · rintro ⟨-, c', rest', heq, he⟩
              cases heq
              exact he
        · have hroom : Room limit sbuf := ⟨by omega, by omega⟩
          refine iff_of_true (scanfrac_fits hroom (by omega) hr) ?_
          rintro ⟨hlen, -⟩
          omega
      · next hdot =>
        cases hr
        rw [if_neg hdot, List.append_nil]
        refine iff_of_true (.of_text (Nat.le_of_lt (Nat.lt_of_succ_lt hlt)) hlt.le) ?_
        intro hlong
        obtain ⟨-, c', rest', hdrop', -⟩ := hlong
        rw [← hdrop] at hdrop'
        cases hdrop'
        exact hdot rfl

theorem zeroNumber_fits {E : LexEnv} {c : UInt8} {rest : List UInt8} (hzero : chr c = '0')
    {r : Lexed} (hr : zeroNumber E (sbufSize - 1) (c :: rest) = some r) :
    Fits (numberText (c :: rest)) r := by
  rw [numberText, if_pos hzero]
  have hone : ∀ r : Lexed, r.sbuf = [c] → Fits (c :: []) r := by
    intro r hsbuf
    apply Fits.of_text
    · rw [hsbuf, List.length_singleton]
      decide
    · rw [List.length_singleton]
      decide
  cases rest with
  | nil => cases hr
  | cons d rest =>
    rw [zeroNumber] at hr
    rw [pointText]
    split at hr
    · next hx =>
      obtain ⟨r', -, rfl⟩ := Option.map_eq_some_iff.mp hr
      rw [if_neg (by rw [hx]; decide)]
      exact hone _ rfl
    · split at hr
      · next hdot =>
        have hroom : Room (sbufSize - 1 - 1 : Nat) [c] := ⟨by decide, rfl⟩
        rw [if_pos hdot]
        exact scanfrac_fits hroom (by decide) hr
      · next hdot =>
        obtain ⟨r', -, rfl⟩ := Option.map_eq_some_iff.mp hr
        rw [if_neg hdot]
        exact hone _ rfl

theorem point_fits {E : LexEnv} {c : UInt8} {rest : List UInt8} (hdot : chr c = '.') {r : Lexed}
    (hr : scanfrac E [] (sbufSize - 1 : Nat) true (c :: rest) = some r) :
    Fits (pointText (c :: rest)) r := by
  have hroom : Room (sbufSize - 1 : Nat) [] := ⟨by decide, rfl⟩
  rw [pointText, if_pos hdot]
  exact scanfrac_fits hroom (by decide) hr

/-! ## Identifiers -/

theorem identLoop_name {limit : Nat} {sbuf : List UInt8} {c : UInt8} {rest : List UInt8}
    (hlimit : 0 < limit) {r : Nat × List UInt8 × List UInt8}
    (hr : identLoop limit sbuf (c :: rest) = some r) :
    r.2.1.length ≤ sbuf.length + limit ∧
      (r.1 ≠ 0 → r.2.1 = sbuf ++ c :: rest.takeWhile isIdent) := by
  induction rest generalizing limit sbuf c with
  | nil => cases hr
  | cons d rest ih =>
    rw [identLoop] at hr
    split at hr
    · next hd =>
      rw [List.takeWhile_cons_of_pos hd, List.append_cons]
      split at hr
      · next hmore =>
        obtain ⟨hle, hname⟩ := ih hmore hr
        rw [length_push] at hle
        exact ⟨by omega, hname⟩
      · next hstop =>
        cases hr
        refine ⟨?_, fun h => absurd (Nat.eq_zero_of_not_pos hstop) h⟩
        dsimp only
        rw [length_push]
        omega
    · next hd =>
      cases hr
      rw [List.takeWhile_cons_of_neg hd]
      refine ⟨?_, fun _ => rfl⟩
      dsimp only
      rw [length_push]
      omega

theorem identifier_fits {E : LexEnv} {tbl : List (Option (List UInt8))} {c : UInt8}
    {rest : List UInt8} (hc : isIdent c) {r : Lexed × List (Option (List UInt8))}
    (hr : identifier E tbl (sbufSize - 1) (c :: rest) = some r) :
    Fits ((c :: rest).takeWhile isIdent) r.1 := by
  obtain ⟨⟨limit, sbuf, chpt⟩, hloop, hr⟩ := Option.bind_eq_some_iff.mp hr
  obtain ⟨hle, hname⟩ := identLoop_name (by decide) hloop
  have hnul : (sbuf ++ [0]).length ≤ sbufSize := by
    rw [length_push]
    rw [List.length_nil, Nat.zero_add] at hle
    exact Nat.succ_le_succ hle
  dsimp only at hr
  split at hr
  · cases hr
    exact .of_error hnul rfl
  · next hlimit =>
    cases hr
    refine .of_text hnul ?_
    rw [List.takeWhile_cons_of_pos hc, ← List.nil_append (c :: _), ← hname hlimit,
      ← length_push sbuf 0]
    exact hnul

/-! ## Strings -/

/-- Text of a string that takes `n` bytes. -/
inductive StrText : Nat → List UInt8 → Prop where
  | nil : StrText 0 []
  | char {n : Nat} {c : UInt8} {text : List UInt8} : chr c ≠ '\\' → chr c ≠ '"' → c ≠ 0 →
      StrText n text → StrText (n + 1) (c :: text)
  | known {n : Nat} {c e x : UInt8} {text : List UInt8} : chr c = '\\' → strEscape e = some x →
      StrText n text → StrText (n + 1) (c :: e :: text)
  | unknown {n : Nat} {c e : UInt8} {text : List UInt8} : chr c = '\\' → strEscape e = none →
      e ≠ 0 → StrText n text → StrText (n + 2) (c :: e :: text)

/-- `n` escape sequences that are known. -/
inductive Escapes : Nat → List UInt8 → Prop where
  | nil : Escapes 0 []
  | cons {n : Nat} {c e x : UInt8} {text : List UInt8} : chr c = '\\' → strEscape e = some x →
      Escapes n text → Escapes (n + 1) (c :: e :: text)

/-- How many bytes are written for what comes next. -/
def nextWidth : List UInt8 → Nat
  | c :: e :: _ => if chr c = '\\' ∧ strEscape e = none then 2 else 1
  | _ => 1

/-- The string has escape sequences that begin where there is room for more, and with what comes
behind them they end behind the end of the buffer. -/
def LongString (text : List UInt8) : Prop :=
  ∃ m k pre escapes tail, text = pre ++ (escapes ++ tail) ∧ StrText m pre ∧ m + 3 < sbufSize ∧
    Escapes k escapes ∧ sbufSize < m + k + nextWidth tail

/-- The same with `n` bytes in the buffer; the escape sequences may have begun before. -/
def LongFrom (n : Nat) (text : List UInt8) : Prop :=
  ∃ m k pre escapes tail, text = pre ++ (escapes ++ tail) ∧ StrText m pre ∧
    (pre = [] ∨ n + m + 3 < sbufSize) ∧ Escapes k escapes ∧ sbufSize < n + m + k + nextWidth tail

theorem longFrom_zero (text : List UInt8) : LongFrom 0 text ↔ LongString text := by
  constructor
  · rintro ⟨m, k, pre, escapes, tail, htext, hpre, hroom, hescapes, hlong⟩
    rw [Nat.zero_add] at hroom hlong
    refine ⟨m, k, pre, escapes, tail, htext, hpre, ?_, hescapes, hlong⟩
    rcases hroom with rfl | hroom
    · cases hpre
      decide
    · exact hroom
  · rintro ⟨m, k, pre, escapes, tail, htext, hpre, hroom, hescapes, hlong⟩
    rw [← Nat.zero_add m] at hroom hlong
    exact ⟨m, k, pre, escapes, tail, htext, hpre, .inr hroom, hescapes, hlong⟩

theorem nextWidth_pos (text : List UInt8) : 0 < nextWidth text := by
  unfold nextWidth
  split
  · split <;> decide
  · decide

/-- No check is made behind an escape sequence that is known. -/
theorem longFrom_known {n : Nat} {c e x : UInt8} {rest : List UInt8} (hc : chr c = '\\')
    (he : strEscape e = some x) : LongFrom n (c :: e :: rest) ↔ LongFrom (n + 1) rest := by
  constructor
  · rintro ⟨m, k, pre, escapes, tail, htext, hpre, hroom, hescapes, hlong⟩
    cases hpre with
    | nil =>
      cases hescapes with
      | nil =>
        have hwidth : nextWidth (c :: e :: rest) = 1 := by simp [nextWidth, he]
        have hpos := nextWidth_pos rest
        rw [List.nil_append, List.nil_append] at htext
        rw [← htext, hwidth] at hlong
        exact ⟨0, 0, [], [], rest, rfl, .nil, .inl rfl, .nil, by omega⟩
      | cons _ _ hescapes =>
        cases htext
        exact ⟨0, _, [], _, tail, rfl, .nil, .inl rfl, hescapes, by omega⟩
    | char hc' =>
      obtain ⟨rfl, -⟩ := List.cons.inj htext
      exact absurd hc hc'
    | known _ _ hpre =>
      cases htext
      have hroom' := hroom.resolve_left (List.cons_ne_nil _ _)
      exact ⟨_, k, _, escapes, tail, rfl, hpre, .inr (by omega), hescapes, by omega⟩
    | unknown _ he' =>
      cases htext
      rw [he] at he'
      cases he'
  · rintro ⟨m, k, pre, escapes, tail, rfl, hpre, hroom, hescapes, hlong⟩
    rcases hroom with rfl | hroom
    · exact ⟨m, k + 1, [], c :: e :: escapes, tail, rfl, hpre, .inl rfl, .cons hc he hescapes,
        by omega⟩
    · exact ⟨m + 1, k, c :: e :: pre, escapes, tail, rfl, .known hc he hpre, .inr (by omega),
        hescapes, by omega⟩

theorem nextWidth_char {c : UInt8} (hc : chr c ≠ '\\') (rest : List UInt8) :
    nextWidth (c :: rest) = 1 := by
  cases rest with
  | nil => rfl
  | cons e rest => rw [nextWidth, if_neg fun h => hc h.1]

theorem nextWidth_unknown {c e : UInt8} (hc : chr c = '\\') (he : strEscape e = none)
    (rest : List UInt8) : nextWidth (c :: e :: rest) = 2 := if_pos ⟨hc, he⟩

/-- Behind a plain character the loop goes on if there is room for more. -/
theorem longFrom_char {n : Nat} {c : UInt8} {rest : List UInt8} (hc : chr c ≠ '\\') :
    LongFrom n (c :: rest) ↔ sbufSize < n + 1 ∨
      chr c ≠ '"' ∧ c ≠ 0 ∧ n + 1 + 3 < sbufSize ∧ LongFrom (n + 1) rest := by
  constructor
  · rintro ⟨m, k, pre, escapes, tail, htext, hpre, hroom, hescapes, hlong⟩
    cases hpre with
    | nil =>
      cases hescapes with
      | nil =>
        rw [List.nil_append, List.nil_append] at htext
        rw [← htext, nextWidth_char hc] at hlong
        exact .inl hlong
      | cons hc' =>
        obtain ⟨rfl, -⟩ := List.cons.inj htext
        exact absurd hc' hc
    | char _ hquote hnul hpre =>
      cases htext
      have hroom' := hroom.resolve_left (List.cons_ne_nil _ _)
      exact .inr ⟨hquote, hnul, by omega, _, k, _, escapes, tail, rfl, hpre, .inr (by omega),
        hescapes, by omega⟩
    | known hc' =>
      obtain ⟨rfl, -⟩ := List.cons.inj htext
      exact absurd hc' hc
    | unknown hc' =>
      obtain ⟨rfl, -⟩ := List.cons.inj htext
      exact absurd hc' hc
  · rintro (hlong | ⟨hquote, hnul, hmore, hrest⟩)
    · rw [← nextWidth_char hc rest] at hlong
      exact ⟨0, 0, [], [], c :: rest, rfl, .nil, .inl rfl, .nil, hlong⟩
    · obtain ⟨m, k, pre, escapes, tail, rfl, hpre, hroom, hescapes, hlong⟩ := hrest
      refine ⟨m + 1, k, c :: pre, escapes, tail, rfl, .char hc hquote hnul hpre, .inr ?_, hescapes,
        by omega⟩
      rcases hroom with rfl | hroom
      · cases hpre
        omega
      · omega

/-- The same behind an escape sequence that is not known. -/
theorem longFrom_unknown {n : Nat} {c e : UInt8} {rest : List UInt8} (hc : chr c = '\\')
    (he : strEscape e = none) :
    LongFrom n (c :: e :: rest) ↔ sbufSize < n + 2 ∨
      e ≠ 0 ∧ n + 2 + 3 < sbufSize ∧ LongFrom (n + 2) rest := by
  constructor
  · rintro ⟨m, k, pre, escapes, tail, htext, hpre, hroom, hescapes, hlong⟩
    cases hpre with
    | nil =>
      cases hescapes with
      | nil =>
        rw [List.nil_append, List.nil_append] at htext
        rw [← htext, nextWidth_unknown hc he] at hlong
        exact .inl hlong
      | cons _ he' =>
        cases htext
        rw [he] at he'
        cases he'
    | char hc' =>
      obtain ⟨rfl, -⟩ := List.cons.inj htext
      exact absurd hc hc'
    | known _ he' =>
      cases htext
      rw [he] at he'
      cases he'
    | unknown _ _ hnul hpre =>
      cases htext
      have hroom' := hroom.resolve_left (List.cons_ne_nil _ _)
      exact .inr ⟨hnul, by omega, _, k, _, escapes, tail, rfl, hpre, .inr (by omega), hescapes,
        by omega⟩
  · rintro (hlong | ⟨hnul, hmore, hrest⟩)
    · rw [← nextWidth_unknown hc he rest] at hlong
      exact ⟨0, 0, [], [], c :: e :: rest, rfl, .nil, .inl rfl, .nil, hlong⟩
    · obtain ⟨m, k, pre, escapes, tail, rfl, hpre, hroom, hescapes, hlong⟩ := hrest
      refine ⟨m + 2, k, c :: e :: pre, escapes, tail, rfl, .unknown hc he hnul hpre, .inr ?_,
        hescapes, by omega⟩
      rcases hroom with rfl | hroom
      · cases hpre
        omega
      · omega

/-- The loop writes behind the end of the buffer exactly on a string that is too long. -/
theorem strLoop_overruns {E : LexEnv} {start : Nat} {limit : Int} {sbuf mem : List UInt8}
    (hlimit : sbuf.length + limit = (sbufSize - 1 : Nat)) {r : Lexed}
    (hr : strLoop E start limit sbuf mem = some r) :
    sbufSize < r.sbuf.length ↔ LongFrom sbuf.length mem := by
  have hsize : ((sbufSize - 1 : Nat) : Int) = 999 := rfl
  have hsize' : sbufSize = 1000 := rfl
  fun_induction strLoop E start limit sbuf mem with
  | case1 => cases hr
  | case2 => cases hr
  | case3 limit sbuf c limit' hc e rest x hx ih =>
    rw [longFrom_known hc hx, ← length_push sbuf x]
    apply ih _ hr
    rw [length_push]
    omega
  | case4 limit sbuf c limit' hc e rest hx limit'' hmore ih =>
    have hlen : (sbuf ++ [c, e]).length = sbuf.length + 2 := List.length_append
    rw [longFrom_unknown hc hx, ← hlen]
    refine (ih (by omega) hr).trans ?_
    constructor
    · intro hlong
      exact .inr ⟨hmore.1, by omega, hlong⟩
    · rintro (hlong | ⟨-, -, hlong⟩)
      · omega
      · exact hlong
  | case5 limit sbuf c limit' hc e rest hx limit'' hstop =>
    have hlen : (sbuf ++ [c, e]).length = sbuf.length + 2 := List.length_append
    cases hr
    rw [longFrom_unknown hc hx, ← hlen]
    refine (or_iff_left ?_).symm
    rintro ⟨hnul, hmore, -⟩
    exact hstop ⟨hnul, by omega⟩
  | case6 limit sbuf c rest hc hquote =>
    cases hr
    rw [longFrom_char hc, ← length_push sbuf 0]
    refine (or_iff_left ?_).symm
    rintro ⟨hquote', -⟩
    exact hquote' hquote
  | case7 limit sbuf c rest limit' hc hquote hmore ih =>
    have hlen := length_push sbuf c
    rw [longFrom_char hc, ← hlen]
    refine (ih (by omega) hr).trans ?_
    constructor
    · intro hlong
      exact .inr ⟨hquote, hmore.1, by omega, hlong⟩
    · rintro (hlong | ⟨-, -, -, hlong⟩)
      · omega
      · exact hlong
  | case8 limit sbuf c rest limit' hc hquote hstop =>
    have hlen := length_push sbuf c
    cases hr
    rw [longFrom_char hc, ← hlen]
    refine (or_iff_left ?_).symm
    rintro ⟨-, hnul, hmore, -⟩
    exact hstop ⟨hnul, by omega⟩

theorem stringText_char {c : UInt8} (hc : chr c ≠ '\\') (rest : List UInt8) :
    stringText (c :: rest) =
      if chr c = '"' then some [] else if c = 0 then none
      else (stringText rest).map (c :: ·) := by
  rw [stringText.eq_def]
  exact if_neg hc

/-- A string that is not rejected is in the buffer completely. -/
theorem strLoop_text {E : LexEnv} {start : Nat} {limit : Int} {sbuf mem : List UInt8} {r : Lexed}
    (hr : strLoop E start limit sbuf mem = some r) (herror : r.token.isError = false) :
    ∃ text, stringText mem = some text ∧ r.sbuf = sbuf ++ text ++ [0] := by
  fun_induction strLoop E start limit sbuf mem with
  | case1 => cases hr
  | case2 => cases hr
  | case3 limit sbuf c limit' hc e rest x hx ih =>
    obtain ⟨text, htext, hsbuf⟩ := ih hr
    exact ⟨x :: text, by simp [stringText, hc, hx, htext], by simp [hsbuf]⟩
  | case4 limit sbuf c limit' hc e rest hx limit'' hmore ih =>
    obtain ⟨text, htext, hsbuf⟩ := ih hr
    exact ⟨c :: e :: text, by simp [stringText, hc, hx, hmore.1, htext], by simp [hsbuf]⟩
  | case5 =>
    cases hr
    cases herror
  | case6 limit sbuf c rest hc hquote =>
    cases hr
    exact ⟨[], by rw [stringText_char hc, if_pos hquote], by simp [strEnd]⟩
  | case7 limit sbuf c rest limit' hc hquote hmore ih =>
    obtain ⟨text, htext, hsbuf⟩ := ih hr
    exact ⟨c :: text, by simp [stringText_char hc, hquote, hmore.1, htext], by simp [hsbuf]⟩
  | case8 =>
    cases hr
    cases herror

theorem string_fits {E : LexEnv} {start : Nat} {mem : List UInt8} {r : Lexed}
    (hr : strLoop E start (sbufSize - 1 : Nat) [] mem = some r) :
    Fits ((stringText mem).getD []) r ↔ ¬LongString mem := by
  have hover := strLoop_overruns (by simp) hr
  rw [List.length_nil, longFrom_zero] at hover
  rw [← hover, Nat.not_lt]
  constructor
  · intro h
    exact h.1
  · intro hsbuf
    refine ⟨hsbuf, fun hlong => ?_⟩
    by_contra herror
    obtain ⟨text, htext, hlen⟩ := strLoop_text hr (by simpa using herror)
    rw [htext, Option.getD_some, ← length_push text 0] at hlong
    rw [hlen, List.nil_append] at hsbuf
    exact absurd hsbuf (Nat.not_le.mpr hlong)

/-! ## The lexer -/

/-- The token at the cursor is a long number, and it does not begin with `0`. -/
def LongFraction (chpt : List UInt8) : Prop :=
  (chpt.dropWhile isBlank).head? ≠ some 48 ∧ LongNumber (chpt.dropWhile isBlank)

/-- The token at the cursor is a string that is too long. -/
def LongEscapes (chpt : List UInt8) : Prop :=
  (chpt.dropWhile isBlank).head? = some 34 ∧ LongString (chpt.dropWhile isBlank).tail

theorem LongNumber.isdigit {c : UInt8} {rest : List UInt8} (h : LongNumber (c :: rest)) :
    isdigit c = true := by
  by_contra hc
  have hlen := h.1
  rw [List.takeWhile_cons_of_neg hc] at hlen
  cases hlen

theorem charEnd_sbuf {num : UInt8} {msgs : List String} {mem : List UInt8} {r : Lexed}
    (hr : charEnd num msgs mem = some r) : r.sbuf = [] := by
  cases mem with
  | nil => cases hr
  | cons c rest =>
    rw [charEnd] at hr
    split at hr
    · cases hr
      rfl
    · cases hr
      rfl

theorem charConst_sbuf {mem : List UInt8} {r : Lexed} (hr : charConst mem = some r) :
    r.sbuf = [] := by
  unfold charConst at hr
  split at hr
  · cases hr
  · split at hr
    · split at hr
      · cases hr
      · exact charEnd_sbuf hr
    · exact charEnd_sbuf hr

theorem shiftOp_sbuf {token : Token} {mem : List UInt8} {r : Lexed}
    (hr : shiftOp token mem = some r) : r.sbuf = [] := by
  cases mem with
  | nil => cases hr
  | cons c rest =>
    rw [shiftOp] at hr
    split at hr
    · cases hr
      rfl
    · split at hr
      · cases hr
        rfl
      · cases hr
        rfl

theorem special_sbuf {E : LexEnv} {mem : List UInt8} {r : Lexed} (hr : special E mem = some r) :
    r.sbuf = [] := by
  unfold special at hr
  split at hr
  · cases hr
  · split at hr
    · cases hr
      rfl
    · split at hr
      · cases hr
      · split at hr
        · obtain ⟨chpt, -, rfl⟩ := Option.map_eq_some_iff.mp hr
          rfl
        · split at hr
          · exact shiftOp_sbuf hr
          · cases hr
            rfl

theorem fits_nil {r : Lexed} (h : r.sbuf = []) : Fits [] r := by
  apply Fits.of_text
  · rw [h]
    decide
  · decide

theorem isIdent_of_alpha {c : UInt8} (h : (isalpha c || ISIDENTCHAR c) = true) :
    isIdent c = true := by
  rw [Bool.or_eq_true] at h
  rw [isIdent, isalnum, Char.isAlphanum, Bool.or_eq_true, Bool.or_eq_true]
  rcases h with h | h
  · exact .inl (.inl h)
  · exact .inr h

/-- What a call keeps, and when. -/
theorem yylex_fits_iff {E : LexEnv} (hstrtod : ReadsPoint E.strtod)
    {tbl : List (Option (List UInt8))} {chpt : List UInt8}
    {r : Lexed × List (Option (List UInt8))} (hr : yylex E tbl chpt = some r) :
    Fits (tokenText chpt) r.1 ↔ ¬LongFraction chpt ∧ ¬LongEscapes chpt := by
  rw [yylex] at hr
  rw [tokenText, LongFraction, LongEscapes]
  cases hchpt : chpt.dropWhile isBlank with
  | nil =>
    rw [hchpt] at hr
    cases hr
  | cons c rest =>
    rw [hchpt] at hr
    dsimp only at hr ⊢
    have hnumber : ¬isdigit c = true → ¬LongNumber (c :: rest) := fun hc h => hc h.isdigit
    split at hr
    · next hquote =>
      -- a character constant
      obtain ⟨r', hconst, rfl⟩ := Option.map_eq_some_iff.mp hr
      have hc : c = 39 := (chr_eq_iff 39).mp hquote
      subst hc
      refine iff_of_true (fits_nil (charConst_sbuf hconst)) ⟨fun h => ?_, fun h => ?_⟩
      · exact hnumber (by decide) h.2
      · cases h.1
    · split at hr
      · next hdigit =>
        have hstring : ¬((c :: rest).head? = some 34 ∧ LongString (c :: rest).tail) := by
          rintro ⟨hc, -⟩
          cases hc
          cases hdigit
        rw [if_pos hdigit, and_iff_left hstring]
        split at hr
        · next hzero =>
          obtain ⟨r', hr', rfl⟩ := Option.map_eq_some_iff.mp hr
          have hc : c = 48 := (chr_eq_iff 48).mp hzero
          refine iff_of_true (zeroNumber_fits hzero hr') fun h => h.1 ?_
          rw [hc]
          rfl
        · next hzero =>
          obtain ⟨r', hr', rfl⟩ := Option.map_eq_some_iff.mp hr
          rw [decNumber_fits hstrtod hdigit hzero hr', not_iff_not]
          refine ⟨fun h => ⟨fun hc => ?_, h⟩, fun h => h.2⟩
          cases hc
          exact hzero rfl
      · next hdigit =>
        have hfraction : ¬((c :: rest).head? ≠ some 48 ∧ LongNumber (c :: rest)) :=
          fun h => hnumber hdigit h.2
        rw [if_neg hdigit, and_iff_right hfraction]
        have hstring : chr c ≠ '"' →
            ¬((c :: rest).head? = some 34 ∧ LongString (c :: rest).tail) := by
          rintro hc ⟨hc', -⟩
          cases hc'
          exact hc rfl
        split at hr
        · next hdot =>
          obtain ⟨r', hr', rfl⟩ := Option.map_eq_some_iff.mp hr
          rw [if_pos hdot]
          exact iff_of_true (point_fits hdot hr') (hstring (by rw [hdot]; decide))
        · next hdot =>
          rw [if_neg hdot]
          split at hr
          · next halpha =>
            have hc : chr c ≠ '"' := by
              intro hc
              rw [(chr_eq_iff 34).mp hc] at halpha
              cases halpha
            rw [if_pos halpha]
            exact iff_of_true (identifier_fits (isIdent_of_alpha halpha) hr) (hstring hc)
          · next halpha =>
            rw [if_neg halpha]
            split at hr
            · next hquote =>
              obtain ⟨r', hr', rfl⟩ := Option.map_eq_some_iff.mp hr
              have hc : c = 34 := (chr_eq_iff 34).mp hquote
              rw [if_pos hquote, string_fits hr', not_iff_not, hc]
              exact (and_iff_right rfl).symm
            · next hquote =>
              obtain ⟨r', hr', rfl⟩ := Option.map_eq_some_iff.mp hr
              rw [if_neg hquote]
              exact iff_of_true (fits_nil (special_sbuf hr')) (hstring hquote)

/-- A character constant is neither. -/
theorem not_long_of_openQuote {chpt : List UInt8} (h : OpenQuote chpt) :
    ¬LongFraction chpt ∧ ¬LongEscapes chpt := by
  have hquote : ∀ rest, chpt.dropWhile isBlank = 39 :: rest →
      ¬LongFraction chpt ∧ ¬LongEscapes chpt := by
    intro rest hchpt
    rw [LongFraction, LongEscapes, hchpt]
    constructor
    · rintro ⟨-, hlong⟩
      cases hlong.isdigit
    · rintro ⟨hhead, -⟩
      cases hhead
  obtain ⟨beyond, h | h⟩ := h
  · exact hquote _ h
  · exact hquote _ h

theorem StrText.le_length {m : Nat} {text : List UInt8} (h : StrText m text) :
    m ≤ text.length := by
  induction h with
  | nil => exact Nat.le_refl 0
  | char _ _ _ _ ih =>
    rw [List.length_cons]
    omega
  | known _ _ _ ih =>
    rw [List.length_cons, List.length_cons]
    omega
  | unknown _ _ _ _ ih =>
    rw [List.length_cons, List.length_cons]
    omega

theorem Escapes.le_length {k : Nat} {text : List UInt8} (h : Escapes k text) :
    k ≤ text.length := by
  induction h with
  | nil => exact Nat.le_refl 0
  | cons _ _ _ ih =>
    rw [List.length_cons, List.length_cons]
    omega

theorem nextWidth_le (text : List UInt8) : nextWidth text ≤ 2 := by
  unfold nextWidth
  split
  · split <;> omega
  · omega

/-- What is shorter than the buffer has no token that is too long. -/
theorem not_long_of_short {chpt : List UInt8} (h : chpt.length < sbufSize - 2) :
    ¬LongFraction chpt ∧ ¬LongEscapes chpt := by
  have hdrop : (chpt.dropWhile isBlank).length ≤ chpt.length :=
    (List.dropWhile_suffix _).length_le
  constructor
  · rintro ⟨-, hdigits, -⟩
    have hle := (List.takeWhile_prefix isdigit (l := chpt.dropWhile isBlank)).length_le
    omega
  · rintro ⟨-, m, k, pre, escapes, tail, htext, hpre, -, hescapes, hlong⟩
    have hlen := congrArg List.length htext
    rw [List.length_append, List.length_append, List.length_tail] at hlen
    have hm := hpre.le_length
    have hk := hescapes.le_length
    have hwidth := nextWidth_le tail
    omega

/-- Every call that is made on a line, with a NUL ahead, keeps to the buffer. -/
def BufferSafe (E : LexEnv) (line : CStr) (beyond : List UInt8) : Prop :=
  ∀ chpt, LexRun (line.inMemory beyond) chpt → 0 ∈ chpt → ∀ tbl r, yylex E tbl chpt = some r →
    Fits (tokenText chpt) r.1

theorem BufferSafe.not_long {E : LexEnv} (hstrtod : ReadsPoint E.strtod) {line : CStr}
    {beyond : List UInt8} (h : BufferSafe E line beyond) {chpt : List UInt8}
    (hrun : LexRun (line.inMemory beyond) chpt) (hnul : 0 ∈ chpt) :
    ¬LongFraction chpt ∧ ¬LongEscapes chpt := by
  by_cases hopen : OpenQuote chpt
  · exact not_long_of_openQuote hopen
  · obtain ⟨r, hr, -⟩ := yylex_stays E [] hnul hopen
    exact (yylex_fits_iff hstrtod hr).mp (h chpt hrun hnul [] r hr)

/-- The buffer is not overrun, and no text that is too long is accepted, exactly if no call comes to
a fraction behind a full buffer or to a string with too many escape sequences. -/
theorem lexer_buffer_iff {E : LexEnv} (hstrtod : ReadsPoint E.strtod) (line : CStr)
    (beyond : List UInt8) :
    BufferSafe E line beyond ↔ ∀ chpt, LexRun (line.inMemory beyond) chpt → 0 ∈ chpt →
      ¬LongFraction chpt ∧ ¬LongEscapes chpt := by
  constructor
  · intro h chpt hrun hnul
    exact h.not_long hstrtod hrun hnul
  · intro h chpt hrun hnul tbl r hr
    exact (yylex_fits_iff hstrtod hr).mpr (h chpt hrun hnul)

theorem readsPoint_default : ReadsPoint (default : LexEnv).strtod := by
  intro digits _ _
  exact length_push digits 46

/-- `"\n" 1.5` -/
theorem lexer_buffer_short :
    BufferSafe default ⟨[34, 92, 110, 34, 32, 49, 46, 53], by decide⟩ [] := by
  refine (lexer_buffer_iff readsPoint_default _ _).mpr fun chpt hrun _ => ?_
  obtain ⟨rest, hrest, rfl⟩ := (lexesInside_of_no_quote (by decide)).inside chpt hrun
  have hle := hrest.length_le
  apply not_long_of_short
  rw [List.length_append]
  exact Nat.lt_of_le_of_lt (Nat.add_le_add_right hle 1) (by decide)

theorem escapes_replicate (n : Nat) : Escapes n (List.replicate n [92, 110]).flatten := by
  induction n with
  | zero => exact .nil
  | succ n ih => exact .cons rfl rfl ih

/-- A literal of `n` newlines, each an escape sequence. -/
def newlines (n : Nat) : CStr where
  bytes := 34 :: (List.replicate n [92, 110]).flatten ++ [34]
  noNul := by simp

/-- `n` digits, a point and a digit. -/
def ones (n : Nat) : CStr where
  bytes := List.replicate n 49 ++ [46, 53]
  noNul := by simp

theorem newlines_long {n : Nat} (hn : sbufSize ≤ n) (beyond : List UInt8) :
    LongEscapes ((newlines n).inMemory beyond) := by
  refine ⟨rfl, 0, n, [], _, 34 :: 0 :: beyond, ?_, .nil, by decide, escapes_replicate n, ?_⟩
  · exact List.append_assoc _ _ _
  · rw [nextWidth_char (by decide)]
    omega

theorem ones_long (beyond : List UInt8) :
    LongFraction ((ones (sbufSize - 2)).inMemory beyond) := by
  have hdigits : ∀ d ∈ List.replicate (sbufSize - 2) (49 : UInt8), isdigit d := by
    intro d hd
    rw [List.eq_of_mem_replicate hd]
    rfl
  have hhead : List.replicate (sbufSize - 2) (49 : UInt8) = 49 :: List.replicate 997 49 := rfl
  have hmem : (ones (sbufSize - 2)).inMemory beyond =
      List.replicate (sbufSize - 2) 49 ++ (46 :: 53 :: 0 :: beyond) := List.append_assoc _ _ _
  have hblank : ((ones (sbufSize - 2)).inMemory beyond).dropWhile isBlank =
      List.replicate (sbufSize - 2) 49 ++ (46 :: 53 :: 0 :: beyond) := by
    rw [hmem, hhead, List.cons_append, List.dropWhile_cons_of_neg (by decide)]
  rw [LongFraction, LongNumber, hblank, List.takeWhile_append_of_pos hdigits,
    List.dropWhile_append_of_pos hdigits, List.takeWhile_cons_of_neg (by decide),
    List.dropWhile_cons_of_neg (by decide), List.append_nil, List.length_replicate]
  refine ⟨?_, rfl, 53, 0 :: beyond, rfl, rfl⟩
  rw [hhead]
  intro hzero
  cases hzero

/-- 1000 newlines do not fit with their NUL, and 998 digits fill the buffer before the fraction. -/
theorem newlines_overrun :
    ¬BufferSafe default (newlines 1000) [] ∧ ¬BufferSafe default (ones 998) [] := by
  constructor
  · intro h
    have hlong := h.not_long readsPoint_default .refl (by simp [CStr.inMemory])
    exact hlong.2 (newlines_long (Nat.le_refl _) [])
  · intro h
    have hlong := h.not_long readsPoint_default .refl (by simp [CStr.inMemory])
    exact hlong.1 (ones_long [])

end Cexp
