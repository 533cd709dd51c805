import Cexp.Grammar.LexerCursor

/-!
# Lines that source a script

`getp` looks for the name of a script in a line that begins with `.` or `<`. It walks over the line
with pointers; they are modelled by what is in memory from there on, and there is no result where
they would go behind the end of that. The manual says that the text between matching quotes is the
name, or else the first word, and that what follows is ignored; but `getp` does not accept a line in
which something follows (`getp_documented`).
-/

namespace Cexp

open CLib

/-- The text that a buffer holds is a string up to its first null byte. -/
def textOf (buf : List UInt8) : List UInt8 := buf.takeWhile (· != 0)

/-! ## The scanner -/

/-- `isspace` in the C locale. -/
def isspace (c : UInt8) : Bool := c = 32 || (9 ≤ c && c ≤ 13)

def isQuote (c : UInt8) : Bool := chr c = '\'' || chr c = '"'

/-- `skipsp` -/
def skipsp : List UInt8 → Option (List UInt8)
  | [] => none
  | c :: rest => if c ≠ 0 ∧ isBlank c = true then skipsp rest else some (c :: rest)

/-- `strchr` with the number of characters in front of the one that was found. -/
def strchr (term : UInt8) : List UInt8 → Option (Option Nat)
  | [] => none
  | c :: rest =>
    if c = term then some (some 0)
    else if c = 0 then some none
    else (strchr term rest).map (Option.map (· + 1))

/-- `for ( e=p; *e && !isspace((int)*e); e++ )` with the number of passes. -/
def wordLoop : List UInt8 → Option Nat
  | [] => none
  | c :: rest => if c ≠ 0 ∧ isspace c = false then (wordLoop rest).map (· + 1) else some 0

/-- Is there nothing behind the name but white space? -/
def checkTrailing : List UInt8 → Option Bool
  | [] => none
  | c :: rest =>
    if c = 0 then some true else if isspace c then checkTrailing rest else some false

/-- What `getp` finds: the memory from the name on, the length of the name that `endp` delimits, and
whether there is a warning about `<`. -/
structure Source where
  p : List UInt8
  len : Nat
  warn : Bool
  deriving DecidableEq

def Source.path (r : Source) : List UInt8 := r.p.take r.len

/-- `getp` from the label `check_trailing` on: `e` and `t` are offsets from `p`. -/
def getpTrailing (warn : Bool) (p : List UInt8) (e t : Nat) : Option (Option Source) :=
  (checkTrailing (p.drop t)).map fun ok => if ok then some ⟨p, e, warn⟩ else none

/-- `getp` where the name is delimited by white space. -/
def getpWord (warn : Bool) (p : List UInt8) : Option (Option Source) :=
  (wordLoop p).bind fun e => getpTrailing warn p e e

/-- `getp` behind the first character. -/
def getpArg (warn : Bool) (p : List UInt8) : Option (Option Source) :=
  (skipsp p).bind fun p =>
    match p with
    | [] => none
    | term :: rest =>
      if isQuote term then
        (strchr term rest).bind fun found =>
          match found with
          | some e => getpTrailing warn rest e (e + 1)
          -- no terminator found; treat normally
          | none => getpWord warn (term :: rest)
      else getpWord warn (term :: rest)

/-- `getp` -/
def getp : List UInt8 → Option (Option Source)
  | [] => none
  | c :: p =>
    if chr c = '<' then getpArg true p
    else if chr c = '.' then
      match p with
      | [] => none
      | d :: rest => if isspace d ∨ isQuote d then getpArg false (d :: rest) else some none
    else some none

/-! ## The rule -/

/-- The argument is in quotes that match. -/
def quoted : List UInt8 → Bool
  | [] => false
  | q :: s => isQuote q && q ∈ s

/-- The text between the quotes, or the first word. -/
def documentedPath : List UInt8 → List UInt8
  | [] => []
  | q :: s =>
    if quoted (q :: s) then s.takeWhile (· != q) else (q :: s).takeWhile fun c => !isspace c

/-- What follows the text between the quotes, or the first word. -/
def trailing : List UInt8 → List UInt8
  | [] => []
  | q :: s =>
    if quoted (q :: s) then (s.dropWhile (· != q)).drop 1
    else (q :: s).dropWhile fun c => !isspace c

/-- The argument without the opening quote. -/
def pathStart : List UInt8 → List UInt8
  | [] => []
  | q :: s => if quoted (q :: s) then s else q :: s

/-- The argument of a line, if the line is of the right form, and whether that is deprecated. -/
def sourceArg : List UInt8 → Option (Bool × List UInt8)
  | [] => none
  | c :: s =>
    if chr c = '<' then some (true, s.dropWhile isBlank)
    else if chr c = '.' ∧ s.head?.any (fun d => isspace d || isQuote d) then
      some (false, s.dropWhile isBlank)
    else none

/-- `.`, blanks, and an argument with any text behind it. -/
structure SourceLine where
  blanks : List UInt8
  arg : List UInt8
  blanks_ne : blanks ≠ []
  blank : ∀ b ∈ blanks, isBlank b = true
  noNul : 0 ∉ arg
  arg_first : arg.head?.any (fun c => !isspace c) = true

def SourceLine.bytes (line : SourceLine) : List UInt8 := 46 :: line.blanks ++ line.arg

/-- The line is accepted, and its name is the one that the manual says. -/
def Documented (line : SourceLine) : Prop :=
  ∃ r, getp (line.bytes ++ [0]) = some (some r) ∧ r.path = documentedPath line.arg

/-! ## Strings -/

section

variable {s beyond : List UInt8} {c : UInt8}

theorem textOf_eq {buf : List UInt8} (h : 0 ∉ buf) : textOf buf = buf := by
  apply List.takeWhile_eq_self_iff.mpr
  intro c hc
  apply bne_iff_ne.mpr
  rintro rfl
  exact h hc

theorem isspace_zero : isspace 0 = false := rfl

theorem isQuote_zero : isQuote 0 = false := rfl

theorem isBlank_iff : isBlank c = true ↔ c = 32 ∨ c = 9 := by
  rw [isBlank, Bool.or_eq_true, decide_eq_true_eq, decide_eq_true_eq]
  exact or_congr (chr_eq_iff 32) (chr_eq_iff 9)

theorem isQuote_iff : isQuote c = true ↔ c = 39 ∨ c = 34 := by
  rw [isQuote, Bool.or_eq_true, decide_eq_true_eq, decide_eq_true_eq]
  exact or_congr (chr_eq_iff 39) (chr_eq_iff 34)

theorem isspace_of_isBlank (h : isBlank c = true) : isspace c = true := by
  rcases isBlank_iff.mp h with rfl | rfl <;> rfl

/-- A string without null bytes in front of its null byte. -/
theorem noNul_cons (h : 0 ∉ c :: s) : c ≠ 0 ∧ 0 ∉ s := by
  rw [List.mem_cons, not_or] at h
  exact ⟨Ne.symm h.1, h.2⟩

theorem noNul_dropWhile (h : 0 ∉ s) (p : UInt8 → Bool) : 0 ∉ s.dropWhile p :=
  fun hmem => h ((List.dropWhile_suffix p).subset hmem)

theorem skipsp_eq (h : 0 ∉ s) (beyond : List UInt8) :
    skipsp (s ++ 0 :: beyond) = some (s.dropWhile isBlank ++ 0 :: beyond) := by
  induction s with
  | nil => rfl
  | cons c s ih =>
    obtain ⟨hc, hs⟩ := noNul_cons h
    rw [List.cons_append, skipsp, List.dropWhile_cons]
    by_cases hblank : isBlank c = true
    · rw [if_pos ⟨hc, hblank⟩, if_pos hblank, ih hs]
    · rw [if_neg (fun hand => hblank hand.2), if_neg hblank, List.cons_append]

theorem strchr_eq (h : 0 ∉ s) (hc : c ≠ 0) (beyond : List UInt8) :
    strchr c (s ++ 0 :: beyond) =
      some (if c ∈ s then some (s.takeWhile (· != c)).length else none) := by
  induction s with
  | nil =>
    rw [List.nil_append, strchr, if_neg hc.symm, if_pos rfl, if_neg List.not_mem_nil]
  | cons d s ih =>
    obtain ⟨hd, hs⟩ := noNul_cons h
    rw [List.cons_append, strchr, List.takeWhile_cons]
    by_cases hdc : d = c
    · simp [hdc]
    · rw [if_neg hdc, if_neg hd, ih hs, if_pos (bne_iff_ne.mpr hdc)]
      by_cases hmem : c ∈ s <;> simp [hmem, Ne.symm hdc]

theorem wordLoop_eq (h : 0 ∉ s) (beyond : List UInt8) :
    wordLoop (s ++ 0 :: beyond) = some (s.takeWhile fun c => !isspace c).length := by
  induction s with
  | nil => rfl
  | cons c s ih =>
    obtain ⟨hc, hs⟩ := noNul_cons h
    rw [List.cons_append, wordLoop, List.takeWhile_cons, ih hs]
    by_cases hspace : isspace c = true <;> simp [hspace, hc]

theorem checkTrailing_eq (h : 0 ∉ s) (beyond : List UInt8) :
    checkTrailing (s ++ 0 :: beyond) = some (s.all isspace) := by
  induction s with
  | nil => rfl
  | cons c s ih =>
    obtain ⟨hc, hs⟩ := noNul_cons h
    rw [List.cons_append, checkTrailing, List.all_cons, if_neg hc, ih hs]
    by_cases hspace : isspace c = true <;> simp [hspace]

theorem getpTrailing_eq (path : List UInt8) {rest : List UInt8} (h : 0 ∉ rest) (warn : Bool)
    (beyond : List UInt8) (e t : Nat) (ht : t = path.length) :
    getpTrailing warn (path ++ rest ++ 0 :: beyond) e t =
      some (if rest.all isspace then some ⟨path ++ rest ++ 0 :: beyond, e, warn⟩ else none) := by
  rw [getpTrailing, List.append_assoc, ht, List.drop_left, checkTrailing_eq h, Option.map_some]

theorem getpWord_eq (h : 0 ∉ s) (warn : Bool) (beyond : List UInt8) :
    getpWord warn (s ++ 0 :: beyond) =
      some (if (s.dropWhile fun c => !isspace c).all isspace then
        some ⟨s ++ 0 :: beyond, (s.takeWhile fun c => !isspace c).length, warn⟩ else none) := by
  rw [getpWord, wordLoop_eq h, Option.bind_some]
  have htrailing := getpTrailing_eq (s.takeWhile fun c => !isspace c)
    (noNul_dropWhile h fun c => !isspace c) warn beyond
    (s.takeWhile fun c => !isspace c).length _ rfl
  rwa [List.takeWhile_append_dropWhile] at htrailing

theorem quoted_mem {arg : List UInt8} (h : quoted arg = true) :
    ∃ q s, arg = q :: s ∧ isQuote q = true ∧ q ∈ s := by
  cases arg with
  | nil => cases h
  | cons q s =>
    rw [quoted, Bool.and_eq_true, decide_eq_true_eq] at h
    exact ⟨q, s, rfl, h⟩

theorem not_isspace_of_isQuote (h : isQuote c = true) : isspace c = false := by
  rcases isQuote_iff.mp h with rfl | rfl <;> rfl

theorem not_isBlank_of_isQuote (h : isQuote c = true) : isBlank c = false := by
  rcases isQuote_iff.mp h with rfl | rfl <;> rfl

/-- A character that ends a run is not part of it. -/
theorem run_snoc {p : UInt8 → Bool} {c : UInt8} (hc : p c = false) (s : List UInt8) :
    (s ++ [c]).takeWhile p = s.takeWhile p ∧ (s ++ [c]).dropWhile p = s.dropWhile p ++ [c] := by
  induction s with
  | nil => simp [hc]
  | cons d s ih =>
    rw [List.cons_append, List.takeWhile_cons, List.takeWhile_cons, List.dropWhile_cons,
      List.dropWhile_cons, ih.1, ih.2]
    by_cases hd : p d = true <;> simp [hd]

/-- The run in front of the first `c`. -/
theorem run_ne {a : List UInt8} (h : c ∉ a) (b : List UInt8) :
    (a ++ c :: b).takeWhile (· != c) = a ∧ (a ++ c :: b).dropWhile (· != c) = c :: b := by
  induction a with
  | nil => simp
  | cons d a ih =>
    rw [List.mem_cons, not_or] at h
    have hd : (d != c) = true := bne_iff_ne.mpr (Ne.symm h.1)
    rw [List.cons_append, List.takeWhile_cons, if_pos hd, List.dropWhile_cons, if_pos hd,
      (ih h.2).1, (ih h.2).2]
    exact ⟨rfl, rfl⟩

theorem notMem_takeWhile_ne (c : UInt8) (s : List UInt8) : c ∉ s.takeWhile (· != c) := by
  intro hmem
  have hne := List.mem_takeWhile_imp hmem
  simp at hne

/-- A text from its beginning to a character of it, and behind that. -/
theorem takeWhile_ne_append (h : c ∈ s) :
    s.takeWhile (· != c) ++ [c] ++ (s.dropWhile (· != c)).drop 1 = s := by
  induction s with
  | nil => cases h
  | cons d s ih =>
    by_cases hdc : d = c
    · simp [hdc]
    · have hs := (List.mem_cons.mp h).resolve_left (Ne.symm hdc)
      have hne : (d != c) = true := bne_iff_ne.mpr hdc
      rw [List.takeWhile_cons, if_pos hne, List.dropWhile_cons, if_pos hne, List.cons_append,
        List.cons_append, ih hs]

/-- What `getp` finds in an argument. -/
def foundIn (warn : Bool) (arg beyond : List UInt8) : Option Source :=
  if (trailing arg).all isspace then
    some ⟨pathStart arg ++ 0 :: beyond, (documentedPath arg).length, warn⟩
  else none

theorem getpArg_eq (h : 0 ∉ s) (warn : Bool) (beyond : List UInt8) :
    getpArg warn (s ++ 0 :: beyond) = some (foundIn warn (s.dropWhile isBlank) beyond) := by
  rw [getpArg, skipsp_eq h, Option.bind_some]
  have hdrop := noNul_dropWhile h isBlank
  generalize s.dropWhile isBlank = arg at hdrop ⊢
  cases arg with
  | nil => rfl
  | cons q arg =>
    obtain ⟨hq, harg⟩ := noNul_cons hdrop
    dsimp only [List.cons_append]
    rw [foundIn, trailing, pathStart, documentedPath, quoted]
    by_cases hquote : isQuote q = true
    · rw [if_pos hquote, strchr_eq harg hq, Option.bind_some]
      by_cases hmem : q ∈ arg
      · -- the quotes match
        simp only [hmem, hquote, decide_true, Bool.and_true, if_true]
        have hsplit := takeWhile_ne_append hmem
        have hrest : 0 ∉ (arg.dropWhile (· != q)).drop 1 :=
          fun h0 => noNul_dropWhile harg _ (List.mem_of_mem_drop h0)
        have htrailing := getpTrailing_eq (arg.takeWhile (· != q) ++ [q]) hrest warn beyond
          (arg.takeWhile (· != q)).length _ List.length_append.symm
        rwa [hsplit] at htrailing
      · simp only [hmem, decide_false, Bool.and_false, if_false, Bool.false_eq_true]
        exact getpWord_eq hdrop warn beyond
    · simp only [hquote, Bool.false_and, Bool.false_eq_true, if_false]
      exact getpWord_eq hdrop warn beyond

/-- What `getp` finds in a line. -/
theorem getp_eq (h : 0 ∉ s) (beyond : List UInt8) :
    getp (s ++ 0 :: beyond) =
      some ((sourceArg s).bind fun (warn, arg) => foundIn warn arg beyond) := by
  cases s with
  | nil => rfl
  | cons c s =>
    obtain ⟨hc, hs⟩ := noNul_cons h
    rw [List.cons_append, getp.eq_def, sourceArg]
    dsimp only
    by_cases hlt : chr c = '<'
    · rw [if_pos hlt, if_pos hlt, getpArg_eq hs]
      rfl
    · rw [if_neg hlt, if_neg hlt]
      by_cases hdot : chr c = '.'
      · rw [if_pos hdot]
        cases s with
        | nil => simp [isspace_zero, isQuote_zero]
        | cons d s =>
          dsimp only [List.cons_append]
          rw [← List.cons_append, getpArg_eq hs]
          by_cases hd : isspace d = true ∨ isQuote d = true
          · simp [hdot, hd]
          · simp [hdot, hd]
      · simp [hdot]

theorem documentedPath_word {arg : List UInt8} (h : quoted arg = false) :
    documentedPath arg = (arg.takeWhile fun c => !isspace c) ∧
      trailing arg = (arg.dropWhile fun c => !isspace c) ∧ pathStart arg = arg := by
  cases arg with
  | nil => exact ⟨rfl, rfl, rfl⟩
  | cons q s =>
    rw [documentedPath, trailing, pathStart, h]
    exact ⟨rfl, rfl, rfl⟩

theorem documentedPath_quoted {q : UInt8} (h : quoted (q :: s) = true) :
    documentedPath (q :: s) = s.takeWhile (· != q) ∧
      trailing (q :: s) = (s.dropWhile (· != q)).drop 1 ∧ pathStart (q :: s) = s := by
  rw [documentedPath, trailing, pathStart, h]
  exact ⟨rfl, rfl, rfl⟩

/-- A newline behind the argument does not matter. -/
theorem documentedPath_newline {arg : List UInt8} (h : 10 ∉ arg) :
    documentedPath (arg ++ [10]) = documentedPath arg ∧
      trailing (arg ++ [10]) = trailing arg ++ [10] := by
  obtain ⟨htake, hdrop⟩ :=
    run_snoc (c := 10) (p := fun c => !isspace c) (show (!isspace 10) = false from rfl) arg
  cases hquoted : quoted arg with
  | false =>
    have hquoted' : quoted (arg ++ [10]) = false := by
      cases arg with
      | nil => rfl
      | cons q s =>
        rw [quoted] at hquoted
        rw [List.cons_append, quoted]
        by_cases hquote : isQuote q = true
        · have hne : q ≠ 10 := by
            rintro rfl
            exact h List.mem_cons_self
          rw [hquote, Bool.true_and, decide_eq_false_iff_not] at hquoted ⊢
          rw [List.mem_append, List.mem_singleton]
          exact fun hor => hor.elim hquoted hne
        · rw [Bool.eq_false_iff.mpr hquote, Bool.false_and]
    obtain ⟨hpath, htrailing, -⟩ := documentedPath_word hquoted
    obtain ⟨hpath', htrailing', -⟩ := documentedPath_word hquoted'
    rw [hpath, htrailing, hpath', htrailing', htake, hdrop]
    exact ⟨rfl, rfl⟩
  | true =>
    obtain ⟨q, s, rfl, hquote, hmem⟩ := quoted_mem hquoted
    have hquoted' : quoted (q :: (s ++ [10])) = true := by
      rw [quoted, hquote, Bool.true_and, decide_eq_true_eq]
      exact List.mem_append_left _ hmem
    obtain ⟨hpath, htrailing, -⟩ := documentedPath_quoted hquoted
    obtain ⟨hpath', htrailing', -⟩ := documentedPath_quoted hquoted'
    have hrun := run_ne (notMem_takeWhile_ne q s) ((s.dropWhile (· != q)).drop 1)
    have hrun' := run_ne (notMem_takeWhile_ne q s) ((s.dropWhile (· != q)).drop 1 ++ [10])
    have hsplit := takeWhile_ne_append hmem
    rw [List.append_assoc, List.singleton_append] at hsplit
    rw [← List.cons_append, ← List.append_assoc, hsplit] at hrun'
    rw [List.cons_append, hpath, htrailing, hpath', htrailing', hrun'.1, hrun'.2]
    exact ⟨rfl, rfl⟩

theorem pathStart_eq (arg : List UInt8) : ∃ close, close.length ≤ 1 ∧
    pathStart arg = documentedPath arg ++ close ++ trailing arg := by
  cases arg with
  | nil => exact ⟨[], Nat.zero_le _, rfl⟩
  | cons q s =>
    rw [pathStart, documentedPath, trailing]
    by_cases hquoted : quoted (q :: s) = true
    · have hmem : q ∈ s := by
        rw [quoted, Bool.and_eq_true, decide_eq_true_eq] at hquoted
        exact hquoted.2
      refine ⟨[q], Nat.le_refl _, ?_⟩
      rw [if_pos hquoted, if_pos hquoted, if_pos hquoted]
      exact (takeWhile_ne_append hmem).symm
    · refine ⟨[], Nat.zero_le _, ?_⟩
      rw [if_neg hquoted, if_neg hquoted, if_neg hquoted, List.append_nil]
      exact List.takeWhile_append_dropWhile.symm

/-- The name of an argument that is accepted is the one that the manual says. -/
theorem foundIn_map_path (warn : Bool) (arg beyond : List UInt8) :
    (foundIn warn arg beyond).map Source.path =
      if (trailing arg).all isspace then some (documentedPath arg) else none := by
  rw [foundIn]
  split
  · obtain ⟨close, -, hstart⟩ := pathStart_eq arg
    rw [Option.map_some, Source.path, hstart, List.append_assoc, List.append_assoc]
    exact congrArg some List.take_left
  · rfl

/-- A scan of any line stays inside of the line. -/
theorem getp_inside (h : 0 ∉ s) : (getp (s ++ [0])).isSome = true := by
  rw [getp_eq h]
  rfl

theorem sourceArg_bytes (line : SourceLine) : sourceArg line.bytes = some (false, line.arg) := by
  have hdot : chr 46 = '.' := by decide
  have hlt : chr 46 ≠ '<' := by decide
  have hdrop : (line.blanks ++ line.arg).dropWhile isBlank = line.arg := by
    rw [List.dropWhile_append_of_pos line.blank]
    have hfirst := line.arg_first
    cases harg : line.arg with
    | nil => rfl
    | cons c arg =>
      rw [harg, List.head?_cons, Option.any_some, Bool.not_eq_true'] at hfirst
      rw [List.dropWhile_cons, if_neg]
      intro hblank
      rw [isspace_of_isBlank hblank] at hfirst
      cases hfirst
  have hhead : (line.blanks ++ line.arg).head?.any (fun d => isspace d || isQuote d) = true := by
    cases hblanks : line.blanks with
    | nil => exact absurd hblanks line.blanks_ne
    | cons b bs =>
      have hb : isBlank b = true := line.blank b (by rw [hblanks]; exact List.mem_cons_self)
      rw [List.cons_append, List.head?_cons, Option.any_some, isspace_of_isBlank hb, Bool.true_or]
  rw [SourceLine.bytes, List.cons_append, sourceArg, if_neg hlt, hdrop, if_pos ⟨hdot, hhead⟩]

theorem SourceLine.bytes_noNul (line : SourceLine) : 0 ∉ line.bytes := by
  rw [SourceLine.bytes, List.cons_append, List.mem_cons, List.mem_append, not_or, not_or]
  refine ⟨by decide, ?_, line.noNul⟩
  intro hmem
  have hblank := line.blank 0 hmem
  cases hblank

end

/-- `getp` accepts a line if only white space comes behind the name that the manual says, and finds
that name. -/
theorem getp_documented (line : SourceLine) : ∃ found, getp (line.bytes ++ [0]) = some found ∧
    found.map Source.path =
      if (trailing line.arg).all isspace then some (documentedPath line.arg) else none := by
  refine ⟨foundIn false line.arg [], ?_, ?_⟩
  · rw [getp_eq line.bytes_noNul, sourceArg_bytes, Option.bind_some]
  · exact foundIn_map_path false line.arg []

/-- `. a b c` -/
def threeWords : SourceLine :=
  ⟨[32], [97, 32, 98, 32, 99], by decide, List.forall_mem_singleton.mpr rfl, by decide, by decide⟩

/-- The line is not accepted, though the manual says that the name is `a`. -/
theorem three_words_rejected : ¬Documented threeWords := by
  rintro ⟨r, hr, -⟩
  have hnone : getp (threeWords.bytes ++ [0]) = some none := by decide
  rw [hnone] at hr
  cases hr

end Cexp
