import Cexp.Grammar.Lexer
import Cexp.Lib.Cursor
import Mathlib.Logic.Relation

/-!
# The cursor of the lexer

All loops of the lexer stop at the NUL that ends the line, and all branches but one look at a
character before they move the cursor behind it. The exception is a character constant: behind its
quote it takes a character, and one more behind a backslash, whatever they are (`OpenQuote`). The
lexer stays in a line, and is done with it in time, exactly if no call comes to this
(`lexer_inside_iff`).
-/

namespace Cexp

open CLib

theorem chr_injective : Function.Injective chr := by
  intro c d h
  have hval : (chr c).val = (chr d).val := congrArg Char.val h
  exact UInt8.toUInt32_inj.mp hval

theorem chr_eq_iff {c : UInt8} (d : UInt8) : chr c = chr d ↔ c = d := chr_injective.eq_iff

/-- A character of a class that NUL does not belong to. -/
theorem ne_nul {p : UInt8 → Bool} (hp : p 0 = false) {c : UInt8} (hc : p c = true) : c ≠ 0 := by
  rintro rfl
  rw [hp] at hc
  cases hc

theorem ne_nul_of_chr {c : UInt8} {x : Char} (hc : chr c = x) (hx : chr 0 ≠ x) : c ≠ 0 := by
  intro hnul
  rw [hnul] at hc
  exact hx hc

theorem nul_mem_rest {c : UInt8} {rest : List UInt8} (hc : c ≠ 0) (h : 0 ∈ c :: rest) :
    0 ∈ rest := List.mem_of_ne_of_mem hc.symm h

/-! ## The loops stop at the end of the line -/

theorem hexLoop_scans (num : Nat) {mem : List UInt8} (h : 0 ∈ mem) :
    Scans 0 mem Prod.snd (hexLoop num mem) := by
  induction mem generalizing num with
  | nil => exact absurd h List.not_mem_nil
  | cons c rest ih =>
    rw [hexLoop]
    split
    · next hdigit =>
      have hc : c ≠ 0 := ne_nul rfl hdigit
      exact (ih _ (nul_mem_rest hc h)).cons hc
    · exact .here rfl

theorem octLoop_scans (num : Nat) {mem : List UInt8} (h : 0 ∈ mem) :
    Scans 0 mem Prod.snd (octLoop num mem) := by
  induction mem generalizing num with
  | nil => exact absurd h List.not_mem_nil
  | cons c rest ih =>
    rw [octLoop]
    split
    · next hdigit =>
      have hc : c ≠ 0 := ne_nul (p := fun c => '0' ≤ chr c && chr c < '8') rfl hdigit
      exact (ih _ (nul_mem_rest hc h)).cons hc
    · exact .here rfl

theorem decLoop_scans (limit num : Nat) (sbuf : List UInt8) (c : UInt8) {rest : List UInt8}
    (h : 0 ∈ rest) : Scans 0 rest (fun r => r.2.2.2) (decLoop limit num sbuf (c :: rest)) := by
  induction rest generalizing limit num sbuf c with
  | nil => exact absurd h List.not_mem_nil
  | cons d rest ih =>
    rw [decLoop]
    split
    · next hmore =>
      rw [Bool.and_eq_true] at hmore
      have hd : d ≠ 0 := ne_nul rfl hmore.1
      exact (ih _ _ _ d (nul_mem_rest hd h)).cons hd
    · exact .here rfl

theorem identLoop_scans (limit : Nat) (sbuf : List UInt8) (c : UInt8) {rest : List UInt8}
    (h : 0 ∈ rest) : Scans 0 rest (fun r => r.2.2) (identLoop limit sbuf (c :: rest)) := by
  induction rest generalizing limit sbuf c with
  | nil => exact absurd h List.not_mem_nil
  | cons d rest ih =>
    rw [identLoop]
    split
    · next hmore =>
      split
      · have hd : d ≠ 0 := ne_nul rfl hmore
        exact (ih _ _ d (nul_mem_rest hd h)).cons hd
      · exact .here rfl
    · exact .here rfl

theorem commentLoop_scans (rv : UInt8) {mem : List UInt8} (h : 0 ∈ mem) :
    Scans 0 mem id (commentLoop rv mem) := by
  induction mem generalizing rv with
  | nil => exact absurd h List.not_mem_nil
  | cons c rest ih =>
    rw [commentLoop]
    split
    · next hmore => exact (ih c (nul_mem_rest hmore.1 h)).cons hmore.1
    · exact .here rfl

/-- Where a step of `scanfrac` leaves the cursor. -/
def fracCursor : Except Lexed (Int × List UInt8 × List UInt8) → List UInt8
  | .error r => r.chpt
  | .ok (_, _, chpt) => chpt

theorem fracDigits_scans (size : Int) (sbuf : List UInt8) {mem : List UInt8} (h : 0 ∈ mem) :
    Scans 0 mem fracCursor (fracDigits size sbuf mem) := by
  induction mem generalizing size sbuf with
  | nil => exact absurd h List.not_mem_nil
  | cons c rest ih =>
    rw [fracDigits]
    split
    · next hmore =>
      rw [Bool.and_eq_true] at hmore
      have hc : c ≠ 0 := ne_nul rfl hmore.1
      split
      · exact .here rfl
      · exact (ih _ _ (nul_mem_rest hc h)).cons hc
    · exact .here rfl

theorem fracSign_scans (size : Int) (sbuf : List UInt8) {mem : List UInt8} (h : 0 ∈ mem) :
    Scans 0 mem fracCursor (fracSign size sbuf mem) := by
  cases mem with
  | nil => exact absurd h List.not_mem_nil
  | cons c rest =>
    rw [fracSign]
    split
    · next hsign =>
      have hc : c ≠ 0 := by
        rintro rfl
        exact absurd hsign (by decide)
      split
      · exact .here rfl
      · exact .cons hc (.here rfl)
    · exact .here rfl

theorem fracLoop_scans (size : Int) (sbuf : List UInt8) {mem : List UInt8} (h : 0 ∈ mem) :
    Scans 0 mem fracCursor (fracLoop size sbuf mem) := by
  apply Scans.bind h (fracDigits_scans size sbuf h)
  intro r _ hr
  match r with
  | .error r => exact .here rfl
  | .ok (_, _, []) => exact absurd hr List.not_mem_nil
  | .ok (size, sbuf, c :: rest) =>
    dsimp only
    split
    · next hE =>
      have hc : c ≠ 0 := ne_nul rfl hE
      have hrest : 0 ∈ rest := nul_mem_rest hc hr
      split
      · exact .here rfl
      · apply Scans.cons hc
        apply Scans.bind hrest (fracSign_scans _ _ hrest)
        intro r _ hr
        match r with
        | .error r => exact .here rfl
        | .ok (size, sbuf, chpt) => exact fracDigits_scans size sbuf hr
    · exact .here rfl

@[simp] theorem fracEnd_chpt (E : LexEnv) (sbuf chpt : List UInt8) :
    (fracEnd E sbuf chpt).chpt = chpt := by
  rw [fracEnd]
  split <;> rfl

theorem scanfrac_scans (E : LexEnv) (sbuf : List UInt8) (size : Int) (rejectLonely : Bool)
    (c : UInt8) {rest : List UInt8} (h : 0 ∈ rest) :
    Scans 0 rest Lexed.chpt (scanfrac E sbuf size rejectLonely (c :: rest)) := by
  cases rest with
  | nil => exact absurd h List.not_mem_nil
  | cons d rest =>
    rw [scanfrac]
    split
    · apply Scans.bind h (fracLoop_scans _ _ h)
      intro r _ _
      match r with
      | .error r => exact .here rfl
      | .ok (_, sbuf, chpt) => exact .here (fracEnd_chpt E sbuf chpt)
    · split
      · exact .here rfl
      · exact .here (fracEnd_chpt E _ _)

/-! ## The branches -/

theorem zeroNumber_scans (E : LexEnv) (limit : Nat) (c : UInt8) {rest : List UInt8}
    (h : 0 ∈ rest) : Scans 0 rest Lexed.chpt (zeroNumber E limit (c :: rest)) := by
  cases rest with
  | nil => exact absurd h List.not_mem_nil
  | cons d rest =>
    rw [zeroNumber]
    split
    · next hx =>
      have hd : d ≠ 0 := ne_nul_of_chr hx (by decide)
      exact .cons hd ((hexLoop_scans 0 (nul_mem_rest hd h)).map fun _ => rfl)
    · split
      · next hdot =>
        have hd : d ≠ 0 := ne_nul_of_chr hdot (by decide)
        exact .cons hd (scanfrac_scans E _ _ _ d (nul_mem_rest hd h))
      · exact (octLoop_scans 0 h).map fun _ => rfl

theorem decNumber_scans (E : LexEnv) (limit : Nat) (c : UInt8) {rest : List UInt8}
    (h : 0 ∈ rest) : Scans 0 rest Lexed.chpt (decNumber E limit (c :: rest)) := by
  apply Scans.bind h (decLoop_scans limit 0 [] c h)
  intro r _ hr
  match r with
  | (_, _, _, []) => exact absurd hr List.not_mem_nil
  | (limit, num, sbuf, d :: rest) =>
    dsimp only
    split
    · exact .here rfl
    · split
      · next hdot =>
        have hd : d ≠ 0 := ne_nul_of_chr hdot (by decide)
        exact .cons hd (scanfrac_scans E _ _ _ d (nul_mem_rest hd hr))
      · exact .here rfl

theorem identifier_scans (E : LexEnv) (tbl : List (Option (List UInt8))) (limit : Nat)
    (c : UInt8) {rest : List UInt8} (h : 0 ∈ rest) :
    Scans 0 rest (fun r => r.1.chpt) (identifier E tbl limit (c :: rest)) := by
  apply Scans.bind h (identLoop_scans limit [] c h)
  intro r _ _
  obtain ⟨limit, sbuf, chpt⟩ := r
  dsimp only
  split
  · exact .here rfl
  · exact .here rfl

theorem strEscape_ne_nul {e x : UInt8} (h : strEscape e = some x) : e ≠ 0 := by
  intro hnul
  rw [hnul] at h
  cases h

theorem strLoop_scans (E : LexEnv) (start : Nat) (limit : Int) (sbuf : List UInt8)
    {mem : List UInt8} (h : 0 ∈ mem) :
    Scans 0 mem Lexed.chpt (strLoop E start limit sbuf mem) := by
  have hslash : ∀ {c : UInt8}, chr c = '\\' → c ≠ 0 := fun hc => ne_nul_of_chr hc (by decide)
  fun_induction strLoop E start limit sbuf mem with
  | case1 => exact absurd h List.not_mem_nil
  | case2 _ _ c hc => exact absurd (nul_mem_rest (hslash hc) h) List.not_mem_nil
  | case3 _ _ c _ hc e rest x hx ih =>
    -- an escape sequence that is known
    have he : e ≠ 0 := strEscape_ne_nul hx
    exact .cons (hslash hc) ((ih (nul_mem_rest he (nul_mem_rest (hslash hc) h))).cons he)
  | case4 _ _ c _ hc e rest _ _ hmore ih =>
    exact .cons (hslash hc)
      ((ih (nul_mem_rest hmore.1 (nul_mem_rest (hslash hc) h))).cons hmore.1)
  | case5 _ _ c _ hc => exact .cons (hslash hc) (.here rfl)
  | case6 _ _ c rest _ hc => exact .cons (ne_nul_of_chr hc (by decide)) (.here rfl)
  | case7 _ _ c rest _ _ _ hmore ih => exact (ih (nul_mem_rest hmore.1 h)).cons hmore.1
  | case8 => exact .here rfl

theorem shiftOp_scans (token : Token) {mem : List UInt8} (h : 0 ∈ mem) :
    Scans 0 mem Lexed.chpt (shiftOp token mem) := by
  cases mem with
  | nil => exact absurd h List.not_mem_nil
  | cons c rest =>
    have heq : ∀ {p : Prop}, p ∧ chr c = '=' → c ≠ 0 := fun hc => ne_nul_of_chr hc.2 (by decide)
    rw [shiftOp]
    split
    · next hc => exact .cons (heq hc) (.here rfl)
    · split
      · next hc => exact .cons (heq hc) (.here rfl)
      · exact .here rfl

theorem doubleOp_nul (rv : UInt8) : doubleOp rv 0 = none := by
  have hnul : ∀ x : Char, x ≠ '\x00' → chr 0 ≠ x := fun x hx h => hx h.symm
  unfold doubleOp
  split <;> first | rfl | exact absurd ‹chr 0 = _› (hnul _ (by decide))

theorem special_scans (E : LexEnv) {c : UInt8} (hc : c ≠ 0) {rest : List UInt8} (h : 0 ∈ rest) :
    Scans 0 rest Lexed.chpt (special E (c :: rest)) := by
  cases rest with
  | nil => exact absurd h List.not_mem_nil
  | cons d rest =>
    rw [special, if_neg hc]
    split
    · exact (commentLoop_scans c h).map fun _ => rfl
    · split
      · next token hop =>
        have hd : d ≠ 0 := by
          intro hnul
          rw [hnul, doubleOp_nul] at hop
          cases hop
        exact .cons hd (shiftOp_scans token (nul_mem_rest hd h))
      · exact .here rfl

/-- The end of a character constant does not pass the end of the line. -/
theorem charEnd_scans (num : UInt8) (msgs : List String) {mem : List UInt8} (h : 0 ∈ mem) :
    Scans 0 mem Lexed.chpt (charEnd num msgs mem) := by
  cases mem with
  | nil => exact absurd h List.not_mem_nil
  | cons c rest =>
    rw [charEnd]
    split
    · exact .here rfl
    · next hc => exact .cons (ne_nul_of_chr (not_not.mp hc) (by decide)) (.here rfl)

/-! ## One call -/

/-- All that is left of the line is blanks and `'`, or blanks and `'\`. -/
def OpenQuote (chpt : List UInt8) : Prop :=
  ∃ beyond, chpt.dropWhile isBlank = 39 :: 0 :: beyond ∨
    chpt.dropWhile isBlank = 39 :: 92 :: 0 :: beyond

theorem charConst_scans {rest : List UInt8} (h : 0 ∈ rest)
    (hend : ∀ beyond, rest ≠ 0 :: beyond ∧ rest ≠ 92 :: 0 :: beyond) :
    Scans 0 rest Lexed.chpt (charConst rest) := by
  cases rest with
  | nil => exact absurd h List.not_mem_nil
  | cons c rest =>
    have hc : c ≠ 0 := by
      rintro rfl
      exact (hend rest).1 rfl
    have hrest := nul_mem_rest hc h
    unfold charConst
    dsimp only
    split
    · next hslash =>
      have hc' : c = 92 := (chr_eq_iff 92).mp hslash
      cases rest with
      | nil => exact absurd hrest List.not_mem_nil
      | cons e rest =>
        have he : e ≠ 0 := by
          rintro rfl
          exact (hend rest).2 (hc' ▸ rfl)
        exact .cons hc (.cons he (charEnd_scans _ _ (nul_mem_rest he hrest)))
    · exact .cons hc (charEnd_scans _ _ hrest)

theorem yylex_at_end (E : LexEnv) (tbl : List (Option (List UInt8))) {chpt beyond : List UInt8}
    (h : chpt.dropWhile isBlank = 0 :: beyond) :
    yylex E tbl chpt = some (⟨.char 10, 0 :: beyond, [], []⟩, tbl) := by
  rw [yylex, h]
  rfl

/-- A call that is not at the end of the line reads a character, and it does not pass the end. -/
theorem yylex_scans (E : LexEnv) (tbl : List (Option (List UInt8))) {chpt : List UInt8}
    (h : 0 ∈ chpt) (hopen : ¬OpenQuote chpt) {c : UInt8} {rest : List UInt8}
    (hchpt : chpt.dropWhile isBlank = c :: rest) (hc : c ≠ 0) :
    Scans 0 rest (fun r => r.1.chpt) (yylex E tbl chpt) := by
  have hrest : 0 ∈ rest := by
    have hdrop := (Before.dropWhile (rfl : isBlank 0 = false) chpt).stop_mem h
    rw [hchpt] at hdrop
    exact nul_mem_rest hc hdrop
  have hpair : ∀ {o : Option Lexed}, Scans 0 rest Lexed.chpt o →
      Scans 0 rest (fun r : Lexed × List (Option (List UInt8)) => r.1.chpt) (o.map (·, tbl)) :=
    fun ho => ho.map fun _ => rfl
  rw [yylex, hchpt]
  dsimp only
  split
  · next hquote =>
    have hc' : c = 39 := (chr_eq_iff 39).mp hquote
    refine hpair (charConst_scans hrest fun beyond => ⟨?_, ?_⟩)
    · rintro rfl
      exact hopen ⟨beyond, .inl (hc' ▸ hchpt)⟩
    · rintro rfl
      exact hopen ⟨beyond, .inr (hc' ▸ hchpt)⟩
  · split
    · split
      · exact hpair (zeroNumber_scans E _ c hrest)
      · exact hpair (decNumber_scans E _ c hrest)
    · split
      · exact hpair (scanfrac_scans E _ _ _ c hrest)
      · split
        · exact identifier_scans E tbl _ c hrest
        · split
          · exact hpair (strLoop_scans E _ _ _ hrest)
          · exact hpair (special_scans E hc hrest)

theorem yylex_stays (E : LexEnv) (tbl : List (Option (List UInt8))) {chpt : List UInt8}
    (h : 0 ∈ chpt) (hopen : ¬OpenQuote chpt) :
    Scans 0 chpt (fun r => r.1.chpt) (yylex E tbl chpt) := by
  have hdrop := Before.dropWhile (rfl : isBlank 0 = false) chpt
  cases hchpt : chpt.dropWhile isBlank with
  | nil =>
    have hmem := hdrop.stop_mem h
    rw [hchpt] at hmem
    exact absurd hmem List.not_mem_nil
  | cons c rest =>
    rw [hchpt] at hdrop
    apply Scans.before hdrop
    by_cases hc : c = 0
    · rw [hc] at hchpt
      rw [yylex_at_end E tbl hchpt, hc]
      exact .here rfl
    · exact .cons hc (yylex_scans E tbl h hopen hchpt hc)

/-- A call reads at least one character. -/
theorem yylex_consumes (E : LexEnv) (tbl : List (Option (List UInt8))) {chpt : List UInt8}
    (h : 0 ∈ chpt) (hopen : ¬OpenQuote chpt) (hhead : chpt.head? ≠ some 0)
    {r : Lexed × List (Option (List UInt8))} (hr : yylex E tbl chpt = some r) :
    r.1.chpt.length < chpt.length := by
  obtain ⟨read, hread, hdrop⟩ := Before.dropWhile (rfl : isBlank 0 = false) chpt
  have hlen := congrArg List.length hdrop
  rw [List.length_append] at hlen
  cases hchpt : chpt.dropWhile isBlank with
  | nil =>
    rw [hdrop, hchpt, List.append_nil] at h
    exact absurd h hread
  | cons c rest =>
    rw [hchpt, List.length_cons] at hlen
    by_cases hc : c = 0
    · -- only blanks are left, and there is one
      rw [hc] at hchpt
      rw [yylex_at_end E tbl hchpt] at hr
      cases hr
      cases read with
      | nil =>
        rw [List.nil_append, hchpt] at hdrop
        rw [hdrop] at hhead
        exact absurd rfl hhead
      | cons b read =>
        rw [List.length_cons] at hlen ⊢
        omega
    · obtain ⟨r', hr', hbefore⟩ := yylex_scans E tbl h hopen hchpt hc
      rw [hr] at hr'
      cases hr'
      have hle : r.1.chpt.length ≤ rest.length := hbefore.length_le
      omega

theorem charEnd_length {num : UInt8} {msgs : List String} {mem : List UInt8} {r : Lexed}
    (h : charEnd num msgs mem = some r) : r.chpt.length ≤ mem.length := by
  cases mem with
  | nil => cases h
  | cons c rest =>
    rw [charEnd] at h
    split at h
    · cases h
      exact Nat.le_refl _
    · cases h
      exact Nat.le_succ _

theorem yylex_quote (E : LexEnv) (tbl : List (Option (List UInt8))) {chpt rest : List UInt8}
    (h : chpt.dropWhile isBlank = 39 :: rest) :
    yylex E tbl chpt = (charConst rest).map (·, tbl) := by
  rw [yylex, h]
  rfl

/-- A character constant at the end of the line takes the cursor behind it. -/
theorem yylex_openQuote {E : LexEnv} {tbl : List (Option (List UInt8))} {chpt beyond : List UInt8}
    (h : chpt.dropWhile isBlank = 39 :: 0 :: beyond ∨
      chpt.dropWhile isBlank = 39 :: 92 :: 0 :: beyond)
    {r : Lexed × List (Option (List UInt8))} (hr : yylex E tbl chpt = some r) :
    r.1.chpt.length ≤ beyond.length := by
  rcases h with h | h
  · rw [yylex_quote E tbl h] at hr
    obtain ⟨r', hr', rfl⟩ := Option.map_eq_some_iff.mp hr
    exact charEnd_length hr'
  · rw [yylex_quote E tbl h] at hr
    obtain ⟨r', hr', rfl⟩ := Option.map_eq_some_iff.mp hr
    exact charEnd_length hr'

/-! ## Runs on a line -/

/-- What is in memory from the start of a line on, with `beyond` behind its NUL. -/
def CStr.inMemory (line : CStr) (beyond : List UInt8) : List UInt8 := line.bytes ++ 0 :: beyond

/-- A call of `yylex`, with any symbols, variables and strings. -/
def LexStep (chpt chpt' : List UInt8) : Prop :=
  ∃ E tbl r tbl', yylex E tbl chpt = some (r, tbl') ∧ r.chpt = chpt'

/-- A sequence of calls. -/
abbrev LexRun : List UInt8 → List UInt8 → Prop := Relation.ReflTransGen LexStep

/-- The cursor never passes the end of the line, each call that is not at the end reads a character
or returns an error, and the end is reached. -/
structure LexesInside (line : CStr) (beyond : List UInt8) : Prop where
  inside : ∀ chpt, LexRun (line.inMemory beyond) chpt →
    ∃ rest, rest <:+ line.bytes ∧ chpt = rest ++ 0 :: beyond
  reads : ∀ chpt, LexRun (line.inMemory beyond) chpt → ∀ E tbl, (yylex E tbl chpt).isSome
  consumes : ∀ chpt, LexRun (line.inMemory beyond) chpt → chpt ≠ 0 :: beyond →
    ∀ E tbl r, yylex E tbl chpt = some r → r.1.chpt.length < chpt.length ∨ r.1.token.isError
  ends : ∀ chpts : Nat → List UInt8, chpts 0 = line.inMemory beyond →
    (∀ n, LexStep (chpts n) (chpts (n + 1))) → ∃ n ≤ line.bytes.length, chpts n = 0 :: beyond
  completes : ∀ E tbl, ∃ token,
    quoteLoop E (line.bytes.length + 1) tbl (line.inMemory beyond) = some token

section

variable {line : CStr} {beyond : List UInt8}

/-- One step from inside of a line. -/
theorem lexStep_inside {rest : List UInt8} (hrest : rest <:+ line.bytes)
    (hopen : ¬OpenQuote (rest ++ 0 :: beyond)) {chpt : List UInt8}
    (hstep : LexStep (rest ++ 0 :: beyond) chpt) :
    ∃ rest', rest' <:+ rest ∧ chpt = rest' ++ 0 :: beyond := by
  obtain ⟨E, tbl, r, tbl', hr, rfl⟩ := hstep
  obtain ⟨r', hr', hbefore⟩ := yylex_stays E tbl (by simp) hopen
  rw [hr] at hr'
  cases hr'
  exact hbefore.line fun hnul => line.noNul (hrest.subset hnul)

theorem lexRun_suffix
    (hopen : ∀ rest, rest <:+ line.bytes → LexRun (line.inMemory beyond) (rest ++ 0 :: beyond) →
      ¬OpenQuote (rest ++ 0 :: beyond))
    {chpt : List UInt8} (hrun : LexRun (line.inMemory beyond) chpt) :
    ∃ rest, rest <:+ line.bytes ∧ chpt = rest ++ 0 :: beyond := by
  induction hrun with
  | refl => exact ⟨line.bytes, List.suffix_refl _, rfl⟩
  | tail hrun hstep ih =>
    obtain ⟨rest, hrest, rfl⟩ := ih
    obtain ⟨rest', hrest', hchpt⟩ := lexStep_inside hrest (hopen rest hrest hrun) hstep
    exact ⟨rest', hrest'.trans hrest, hchpt⟩

theorem lexRun_inside (hopen : ∀ chpt, LexRun (line.inMemory beyond) chpt → ¬OpenQuote chpt)
    {chpt : List UInt8} (hrun : LexRun (line.inMemory beyond) chpt) :
    ∃ rest, rest <:+ line.bytes ∧ chpt = rest ++ 0 :: beyond :=
  lexRun_suffix (fun _ _ h => hopen _ h) hrun

theorem head_ne_nul {rest : List UInt8} (hrest : rest <:+ line.bytes) (hne : rest ≠ []) :
    (rest ++ 0 :: beyond).head? ≠ some 0 := by
  cases rest with
  | nil => exact absurd rfl hne
  | cons c rest =>
    intro h
    cases h
    exact line.noNul (hrest.subset List.mem_cons_self)

/-- A reached cursor that is not at the end of the line gets nearer to it. -/
theorem lexRun_consumes (hopen : ∀ chpt, LexRun (line.inMemory beyond) chpt → ¬OpenQuote chpt)
    {chpt : List UInt8} (hrun : LexRun (line.inMemory beyond) chpt) (hne : chpt ≠ 0 :: beyond)
    {E : LexEnv} {tbl : List (Option (List UInt8))} {r : Lexed × List (Option (List UInt8))}
    (hr : yylex E tbl chpt = some r) : r.1.chpt.length < chpt.length := by
  obtain ⟨rest, hrest, rfl⟩ := lexRun_inside hopen hrun
  refine yylex_consumes E tbl (by simp) (hopen _ hrun) (head_ne_nul hrest ?_) hr
  rintro rfl
  exact hne rfl

theorem lexRun_ends (hopen : ∀ chpt, LexRun (line.inMemory beyond) chpt → ¬OpenQuote chpt)
    {chpts : Nat → List UInt8} (hstart : chpts 0 = line.inMemory beyond)
    (hsteps : ∀ n, LexStep (chpts n) (chpts (n + 1))) :
    ∃ n ≤ line.bytes.length, chpts n = 0 :: beyond := by
  have hrun : ∀ n, LexRun (line.inMemory beyond) (chpts n) := by
    intro n
    induction n with
    | zero =>
      rw [hstart]
    | succ n ih => exact ih.tail (hsteps n)
  -- what is left of the line
  have hless : ∀ n, (chpts n).length - (beyond.length + 1) ≠ 0 →
      (chpts (n + 1)).length - (beyond.length + 1) < (chpts n).length - (beyond.length + 1) := by
    intro n hn
    obtain ⟨E, tbl, r, tbl', hr, hchpt⟩ := hsteps n
    have hlt := lexRun_consumes hopen (hrun n) (by
      intro hend
      rw [hend, List.length_cons] at hn
      omega) hr
    rw [hchpt] at hlt
    omega
  obtain ⟨n, hn, hzero⟩ := exists_eq_zero_of_lt hless
  refine ⟨n, ?_, ?_⟩
  · rw [hstart, CStr.inMemory, List.length_append, List.length_cons] at hn
    omega
  · obtain ⟨rest, -, hchpt⟩ := lexRun_inside hopen (hrun n)
    rw [hchpt, List.length_append, List.length_cons] at hzero
    rw [hchpt, List.length_eq_zero_iff.mp (by omega : rest.length = 0), List.nil_append]

theorem quoteLoop_ends (hopen : ∀ chpt, LexRun (line.inMemory beyond) chpt → ¬OpenQuote chpt)
    (E : LexEnv) (fuel : Nat) (tbl : List (Option (List UInt8))) {chpt : List UInt8}
    (hrun : LexRun (line.inMemory beyond) chpt) (hfuel : chpt.length < fuel + (beyond.length + 1)) :
    ∃ token, quoteLoop E fuel tbl chpt = some token := by
  induction fuel generalizing tbl chpt with
  | zero =>
    obtain ⟨rest, -, rfl⟩ := lexRun_inside hopen hrun
    rw [List.length_append, List.length_cons] at hfuel
    omega
  | succ fuel ih =>
    rw [quoteLoop]
    by_cases hend : chpt = 0 :: beyond
    · have hnewline := yylex_at_end E tbl (by rw [hend]; rfl : chpt.dropWhile isBlank = 0 :: beyond)
      exact ⟨.char 10, by rw [hnewline]; rfl⟩
    · obtain ⟨rest, hrest, hchpt⟩ := lexRun_inside hopen hrun
      obtain ⟨⟨r, tbl'⟩, hr, -⟩ := yylex_stays E tbl (by simp [hchpt]) (hopen _ hrun)
      have hlt : r.chpt.length < chpt.length := lexRun_consumes hopen hrun hend hr
      rw [hr, Option.bind_eq_bind, Option.bind_some]
      dsimp only
      split
      · exact ih tbl' (hrun.tail ⟨E, tbl, r, tbl', hr, rfl⟩) (by omega)
      · exact ⟨r.token, rfl⟩

/-- The quote of `OpenQuote` is the end of the line. -/
theorem openQuote_beyond {rest beyond' : List UInt8} (hrest : rest <:+ line.bytes)
    (hquote : (rest ++ 0 :: beyond).dropWhile isBlank = 39 :: 0 :: beyond' ∨
      (rest ++ 0 :: beyond).dropWhile isBlank = 39 :: 92 :: 0 :: beyond') : beyond' = beyond := by
  have hbefore : Before 0 (rest ++ 0 :: beyond) (0 :: beyond') := by
    have hdrop := Before.dropWhile (rfl : isBlank 0 = false) (rest ++ 0 :: beyond)
    rcases hquote with hquote | hquote
    · rw [hquote] at hdrop
      exact hdrop.trans (.cons (by decide) (.refl _))
    · rw [hquote] at hdrop
      exact hdrop.trans (.cons (by decide) (.cons (by decide) (.refl _)))
  have hnul : 0 ∉ rest := fun hmem => line.noNul (hrest.subset hmem)
  obtain ⟨rest', hrest', heq⟩ := hbefore.line hnul
  cases rest' with
  | nil =>
    cases heq
    rfl
  | cons c rest' =>
    cases heq
    exact absurd (hrest'.subset List.mem_cons_self) hnul

/-- Where the cursor has come to a quote at the end of the line, it gets behind the end. -/
theorem openQuote_leaves (h : LexesInside line beyond) {chpt : List UInt8}
    (hrun : LexRun (line.inMemory beyond) chpt) : ¬OpenQuote chpt := by
  intro hopen
  obtain ⟨rest, hrest, rfl⟩ := h.inside chpt hrun
  obtain ⟨beyond', hquote⟩ := hopen
  obtain ⟨⟨r, tbl⟩, hr⟩ := Option.isSome_iff_exists.mp (h.reads _ hrun default [])
  have hle : r.chpt.length ≤ beyond'.length := yylex_openQuote hquote hr
  obtain ⟨rest', -, hchpt⟩ := h.inside r.chpt (hrun.tail ⟨default, [], r, tbl, hr, rfl⟩)
  rw [openQuote_beyond hrest hquote, hchpt, List.length_append, List.length_cons] at hle
  omega

/-- A line on which no call comes to a quote at the end is read to its end. -/
theorem lexesInside_of_not_openQuote
    (hopen : ∀ chpt, LexRun (line.inMemory beyond) chpt → ¬OpenQuote chpt) :
    LexesInside line beyond where
  inside := fun chpt hrun => lexRun_inside hopen hrun
  reads := by
    intro chpt hrun E tbl
    obtain ⟨rest, -, hchpt⟩ := lexRun_inside hopen hrun
    obtain ⟨r, hr, -⟩ := yylex_stays E tbl (by simp [hchpt]) (hopen _ hrun)
    rw [hr, Option.isSome_some]
  consumes := fun chpt hrun hne E tbl r hr => .inl (lexRun_consumes hopen hrun hne hr)
  ends := fun chpts hstart hsteps => lexRun_ends hopen hstart hsteps
  completes := by
    intro E tbl
    apply quoteLoop_ends hopen E _ tbl .refl
    rw [CStr.inMemory, List.length_append, List.length_cons]
    omega

/-- A line without a quote is read to its end. -/
theorem lexesInside_of_no_quote (hquote : 39 ∉ line.bytes) : LexesInside line beyond := by
  have hno : ∀ rest, rest <:+ line.bytes → ¬OpenQuote (rest ++ 0 :: beyond) := by
    rintro rest hrest ⟨beyond', hopen⟩
    have hbeyond := openQuote_beyond hrest hopen
    have hread := List.takeWhile_append_dropWhile (p := isBlank) (l := rest ++ 0 :: beyond)
    rw [hbeyond] at hopen
    apply hquote
    apply hrest.subset
    rcases hopen with hopen | hopen
    · rw [hopen, List.append_cons] at hread
      rw [← List.append_cancel_right hread]
      simp
    · rw [hopen, List.append_cons, List.append_cons] at hread
      rw [← List.append_cancel_right hread]
      simp
  apply lexesInside_of_not_openQuote
  intro chpt hrun
  obtain ⟨rest, hrest, rfl⟩ := lexRun_suffix (fun rest hrest _ => hno rest hrest) hrun
  exact hno rest hrest

end

/-- The lexer stays in a line exactly if it does not come to a quote at its end. -/
theorem lexer_inside_iff (line : CStr) (beyond : List UInt8) :
    LexesInside line beyond ↔ ∀ chpt, LexRun (line.inMemory beyond) chpt → ¬OpenQuote chpt := by
  constructor
  · intro h chpt hrun
    exact openQuote_leaves h hrun
  · intro hopen
    exact lexesInside_of_not_openQuote hopen

/-- Behind a lone quote the cursor is behind the end of the line. -/
theorem lone_quote_leaves : ¬LexesInside ⟨[39], by decide⟩ [88, 0] :=
  fun h => openQuote_leaves h .refl ⟨[88, 0], .inl rfl⟩

end Cexp
