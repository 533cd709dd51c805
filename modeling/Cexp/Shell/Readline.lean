import Cexp.Lib.Fill
import Cexp.Syms.Table

/-!
# The fallback line editor

`readline_r` without a line editing library. It reads characters into a buffer of `LINEBUFSZ` bytes;
a cursor goes back and forth with the editing keys. It stays inside of the buffer. But when the text
has filled the buffer, the loop ends without a null byte behind the text (`readline_r_edits_iff`).
-/

namespace Cexp

open CLib

/-- `LINEBUFSZ` -/
def lineBufSz : Nat := 500

/-- `TABSZ` -/
def tabSz : Nat := 4

/-- The characters that the editor looks for: backspace, tab, end of line, `Ctrl-D` and `Ctrl-U`. -/
def keyBS : UInt8 := 8
def keyTab : UInt8 := 9
def keyLF : UInt8 := 10
def keyCR : UInt8 := 13
def keyEOT : UInt8 := 4
def keyKill : UInt8 := 21

/-! ## The editor -/

/-- The buffer and the offset of the cursor. -/
structure LineEditor where
  buf : List UInt8
  cp : Nat
  deriving DecidableEq

/-- `*cp++ = c` -/
def LineEditor.putc (s : LineEditor) (c : UInt8) : Option LineEditor :=
  (put s.buf s.cp c).map fun buf => ⟨buf, s.cp + 1⟩

/-- `while ( i-->0 && cp < rval+LINEBUFSZ-1 )` -/
def tabLoop : Nat → LineEditor → Option LineEditor
  | 0, s => some s
  | i + 1, s => if s.cp < lineBufSz - 1 then (s.putc 32).bind (tabLoop i) else some s

/-- `while ( cp>rval )` -/
def killLoop (buf : List UInt8) : Nat → LineEditor
  | 0 => ⟨buf, 0⟩
  | cp + 1 => killLoop buf cp

/-- A character that does not end the line. -/
def editKey (c : UInt8) (s : LineEditor) : Option LineEditor :=
  if c = keyBS then some (if s.cp > 0 then { s with cp := s.cp - 1 } else s)
  else if c = keyKill then some (killLoop s.buf s.cp)
  else if c = keyTab then tabLoop (tabSz - s.cp % tabSz) s
  else s.putc c

/-- The loop over the characters. It gives nothing if it ends with an end of file or with `Ctrl-D`,
and there is no result if it writes outside of the buffer. -/
def editLoop : List UInt8 → LineEditor → Option (Option LineEditor)
  | [], s => if s.cp < lineBufSz - 1 then some none else some (some s)
  | c :: input, s =>
    if s.cp < lineBufSz - 1 then
      if c = keyCR ∨ c = keyLF then
        (put s.buf s.cp 0).map fun buf => some ⟨buf, lineBufSz⟩
      else if c = keyEOT then some none
      else (editKey c s).bind (editLoop input)
    else some (some s)

/-- What `malloc` gives. -/
abbrev LineBuf := { buf : List UInt8 // buf.length = lineBufSz }

/-- `readline_r` -/
def readlineR (malloc : Option LineBuf) (input : List UInt8) : Option (Option (List UInt8)) :=
  match malloc with
  | none => some none
  | some rval => (editLoop input ⟨rval, 0⟩).map fun s => s.map LineEditor.buf

/-! ## The text -/

/-- What a key does with the text. -/
def applyKey (text : List UInt8) (c : UInt8) : List UInt8 :=
  if c = keyBS then text.dropLast
  else if c = keyKill then []
  else if c = keyTab then
    text ++ List.replicate (min (tabSz - text.length % tabSz) (lineBufSz - 1 - text.length)) 32
  else text ++ [c]

/-- How a line ends: without a text, at the end of the line, or because the buffer is full. -/
inductive LineEnd where
  | bail
  | line (text : List UInt8)
  | full (text : List UInt8)
  deriving DecidableEq

/-- The keys are applied in their order. -/
def applyKeys : List UInt8 → List UInt8 → LineEnd
  | text, [] => if text.length < lineBufSz - 1 then .bail else .full text
  | text, c :: input =>
    if text.length < lineBufSz - 1 then
      if c = keyCR ∨ c = keyLF then .line text
      else if c = keyEOT then .bail
      else applyKeys (applyKey text c) input
    else .full text

def LineEnd.text : LineEnd → Option (List UInt8)
  | bail => none
  | line text => some text
  | full text => some text

/-- `readline_r` gives the text with a null byte behind it, or nothing if there is none. -/
def EditsLine (malloc : Option LineBuf) (input : List UInt8) : Prop :=
  match malloc.bind fun _ => (applyKeys [] input).text with
  | none => readlineR malloc input = some none
  | some text => ∃ rest, readlineR malloc input = some (some (text ++ 0 :: rest))

/-- The text fills the buffer. -/
def FillsLine (input : List UInt8) : Prop := ∃ text, applyKeys [] input = .full text

/-! ## The cursor and the text -/

section

variable {block : LineBuf} {s s' : LineEditor} {text : List UInt8}

/-- The text is in front of the cursor, and the last byte of the buffer has not been written. -/
structure LineEditor.Shows (block : LineBuf) (s : LineEditor) (text : List UInt8) : Prop where
  length : s.buf.length = lineBufSz
  cp : s.cp = text.length
  room : text.length ≤ lineBufSz - 1
  text : s.buf.take s.cp = text
  last : s.buf[lineBufSz - 1]? = block.val[lineBufSz - 1]?

theorem LineEditor.Shows.start (block : LineBuf) :
    LineEditor.Shows block ⟨block, 0⟩ [] :=
  ⟨block.property, rfl, Nat.zero_le _, rfl, rfl⟩

theorem LineEditor.Shows.putc (h : s.Shows block text) (hroom : text.length < lineBufSz - 1)
    (c : UInt8) : ∃ s', s.putc c = some s' ∧ s'.Shows block (text ++ [c]) := by
  have hcp : s.cp < s.buf.length := by
    rw [h.cp, h.length]
    omega
  refine ⟨⟨s.buf.set s.cp c, s.cp + 1⟩, ?_, ?_⟩
  · rw [LineEditor.putc, put, if_pos hcp, Option.map_some]
  · refine ⟨?_, ?_, ?_, ?_, ?_⟩
    · rw [List.length_set, h.length]
    · rw [List.length_append, List.length_singleton, h.cp]
    · rw [List.length_append, List.length_singleton]
      omega
    · exact (take_succ_set hcp c).trans (congrArg (· ++ [c]) h.text)
    · rw [← h.last]
      apply List.getElem?_set_ne
      rw [h.cp]
      omega

theorem LineEditor.Shows.dropLast (h : s.Shows block text) :
    LineEditor.Shows block { s with cp := s.cp - 1 } text.dropLast := by
  refine ⟨h.length, ?_, ?_, ?_, h.last⟩
  · rw [List.length_dropLast, ← h.cp]
  · rw [List.length_dropLast]
    exact (Nat.sub_le _ _).trans h.room
  · have htext := h.text
    rw [← htext, List.dropLast_eq_take, List.take_take, List.length_take, h.length]
    have hcp := h.cp
    have hroom := h.room
    have hsize : lineBufSz = 500 := rfl
    congr 1
    dsimp only
    omega

theorem LineEditor.Shows.clear (h : s.Shows block text) :
    LineEditor.Shows block ⟨s.buf, 0⟩ [] :=
  ⟨h.length, rfl, Nat.zero_le _, rfl, h.last⟩

theorem killLoop_eq (buf : List UInt8) (cp : Nat) : killLoop buf cp = ⟨buf, 0⟩ := by
  induction cp with
  | zero => rfl
  | succ cp ih => rw [killLoop, ih]

/-- A tab is cut at the end of the buffer. -/
theorem LineEditor.Shows.tabLoop (h : s.Shows block text) (i : Nat) :
    ∃ s', tabLoop i s = some s' ∧
      s'.Shows block (text ++ List.replicate (min i (lineBufSz - 1 - text.length)) 32) := by
  induction i generalizing s text with
  | zero =>
    rw [Nat.zero_min, List.replicate_zero, List.append_nil]
    exact ⟨s, rfl, h⟩
  | succ i ih =>
    rw [Cexp.tabLoop, h.cp]
    by_cases hroom : text.length < lineBufSz - 1
    · obtain ⟨s₁, hput, hshows⟩ := h.putc hroom 32
      obtain ⟨s', hloop, hshows'⟩ := ih hshows
      have hmin : min (i + 1) (lineBufSz - 1 - text.length) =
          min i (lineBufSz - 1 - (text ++ [32]).length) + 1 := by
        rw [List.length_append, List.length_singleton]
        omega
      rw [if_pos hroom, hput, Option.bind_some, hmin, List.replicate_succ, List.append_cons]
      exact ⟨s', hloop, hshows'⟩
    · have hzero : lineBufSz - 1 - text.length = 0 := by omega
      rw [if_neg hroom, hzero, Nat.min_zero, List.replicate_zero, List.append_nil]
      exact ⟨s, rfl, h⟩

/-- What a key does. -/
theorem LineEditor.Shows.editKey (h : s.Shows block text) (hroom : text.length < lineBufSz - 1)
    (c : UInt8) : ∃ s', editKey c s = some s' ∧ s'.Shows block (applyKey text c) := by
  rw [Cexp.editKey, applyKey]
  by_cases hbs : c = keyBS
  · rw [if_pos hbs, if_pos hbs]
    refine ⟨_, rfl, ?_⟩
    by_cases hcp : s.cp > 0
    · rw [if_pos hcp]
      exact h.dropLast
    · have hnil : text = [] := by
        apply List.length_eq_zero_iff.mp
        rw [← h.cp]
        omega
      rw [if_neg hcp, hnil, List.dropLast_nil, ← hnil]
      exact h
  · rw [if_neg hbs, if_neg hbs]
    by_cases hkill : c = keyKill
    · rw [if_pos hkill, if_pos hkill, killLoop_eq]
      exact ⟨_, rfl, h.clear⟩
    · rw [if_neg hkill, if_neg hkill]
      by_cases htab : c = keyTab
      · rw [if_pos htab, if_pos htab, h.cp]
        exact h.tabLoop _
      · rw [if_neg htab, if_neg htab]
        exact h.putc hroom c

/-- The line is ended by a null byte. -/
theorem LineEditor.Shows.put_nul (h : s.Shows block text) (hroom : text.length < lineBufSz - 1) :
    ∃ rest, put s.buf s.cp 0 = some (text ++ 0 :: rest) := by
  obtain ⟨s', hput, hshows⟩ := h.putc hroom 0
  obtain ⟨buf, hbuf, rfl⟩ := Option.map_eq_some_iff.mp hput
  refine ⟨buf.drop (s.cp + 1), ?_⟩
  have htext := hshows.text
  dsimp only at htext
  rw [hbuf, List.append_cons, ← htext, List.take_append_drop]

/-- How the loop ends. -/
theorem LineEditor.Shows.editLoop (h : s.Shows block text) (input : List UInt8) :
    match applyKeys text input with
    | .bail => editLoop input s = some none
    | .line text' => ∃ rest cp, editLoop input s = some (some ⟨text' ++ 0 :: rest, cp⟩)
    | .full text' => ∃ s', editLoop input s = some (some s') ∧ s'.Shows block text' ∧
        text'.length = lineBufSz - 1 := by
  induction input generalizing s text with
  | nil =>
    rw [applyKeys, Cexp.editLoop, h.cp]
    by_cases hroom : text.length < lineBufSz - 1
    · rw [if_pos hroom, if_pos hroom]
    · rw [if_neg hroom, if_neg hroom]
      exact ⟨s, rfl, h, Nat.le_antisymm h.room (Nat.not_lt.mp hroom)⟩
  | cons c input ih =>
    rw [applyKeys, Cexp.editLoop, h.cp]
    by_cases hroom : text.length < lineBufSz - 1
    · rw [if_pos hroom, if_pos hroom]
      by_cases hend : c = keyCR ∨ c = keyLF
      · obtain ⟨rest, hput⟩ := h.put_nul hroom
        rw [h.cp] at hput
        rw [if_pos hend, if_pos hend, hput]
        exact ⟨rest, lineBufSz, rfl⟩
      · rw [if_neg hend, if_neg hend]
        by_cases heot : c = keyEOT
        · rw [if_pos heot, if_pos heot]
        · obtain ⟨s', hkey, hshows⟩ := h.editKey hroom c
          rw [if_neg heot, if_neg heot, hkey, Option.bind_some]
          exact ih hshows
    · rw [if_neg hroom, if_neg hroom]
      exact ⟨s, rfl, h, Nat.le_antisymm h.room (Nat.not_lt.mp hroom)⟩

/-- Behind a text that fills the buffer is what was there before. -/
theorem LineEditor.Shows.full (h : s.Shows block text) (hlength : text.length = lineBufSz - 1) :
    (∃ rest, s.buf = text ++ 0 :: rest) ↔ block.val[lineBufSz - 1]? = some 0 := by
  have hbuf : text ++ s.buf.drop (lineBufSz - 1) = s.buf := by
    rw [← hlength, ← h.cp]
    conv_lhs => rw [← h.text]
    exact List.take_append_drop _ _
  rw [← h.last, ← List.head?_drop, ← hbuf, ← hlength, List.drop_left]
  constructor
  · rintro ⟨rest, hrest⟩
    rw [List.append_cancel_left hrest]
    rfl
  · intro hhead
    obtain ⟨rest, hrest⟩ := List.head?_eq_some_iff.mp hhead
    exact ⟨rest, by rw [hrest]⟩

end

/-- A text that fills the buffer. -/
theorem edits_full (block : LineBuf) {input text : List UInt8}
    (hkeys : applyKeys [] input = .full text) :
    (readlineR (some block) input).isSome = true ∧
      (EditsLine (some block) input ↔ block.val[lineBufSz - 1]? = some 0) := by
  have hloop := (LineEditor.Shows.start block).editLoop input
  rw [hkeys] at hloop
  obtain ⟨s, hrun, hshows, hlength⟩ := hloop
  rw [EditsLine.eq_def, readlineR.eq_def, Option.bind_some, hkeys]
  dsimp only [LineEnd.text]
  rw [hrun, Option.map_some, Option.map_some, ← hshows.full hlength]
  refine ⟨rfl, ?_⟩
  constructor
  · rintro ⟨rest, hrest⟩
    exact ⟨rest, Option.some.inj (Option.some.inj hrest)⟩
  · rintro ⟨rest, hrest⟩
    exact ⟨rest, by rw [hrest]⟩

/-- A line that ends in time, or not at all. -/
theorem edits_line (malloc : Option LineBuf) {input : List UInt8} (hfull : ¬FillsLine input) :
    (readlineR malloc input).isSome = true ∧ EditsLine malloc input := by
  cases malloc with
  | none => exact ⟨rfl, rfl⟩
  | some block =>
    have hloop := (LineEditor.Shows.start block).editLoop input
    rw [EditsLine.eq_def, readlineR.eq_def, Option.bind_some]
    cases hkeys : applyKeys [] input with
    | bail =>
      rw [hkeys] at hloop
      dsimp only [LineEnd.text] at hloop ⊢
      rw [hloop]
      exact ⟨rfl, rfl⟩
    | line text =>
      rw [hkeys] at hloop
      obtain ⟨rest, cp, hrun⟩ := hloop
      dsimp only [LineEnd.text]
      rw [hrun]
      exact ⟨rfl, rest, rfl⟩
    | full text => exact absurd ⟨text, hkeys⟩ hfull

/-- The editor writes inside of the buffer. It gives what the keys make exactly if the text does not
fill the buffer, or a null byte was behind it before. -/
theorem readline_r_edits_iff (malloc : Option LineBuf) (input : List UInt8) :
    (readlineR malloc input).isSome = true ∧
      (EditsLine malloc input ↔ ¬FillsLine input ∨
        ∀ block ∈ malloc, block.val[lineBufSz - 1]? = some 0) := by
  by_cases hfull : FillsLine input
  · obtain ⟨text, hkeys⟩ := hfull
    cases malloc with
    | none =>
      refine ⟨rfl, iff_of_true rfl (Or.inr ?_)⟩
      intro block hblock
      cases hblock
    | some block =>
      obtain ⟨hsome, hiff⟩ := edits_full block hkeys
      refine ⟨hsome, hiff.trans ?_⟩
      constructor
      · intro hzero
        right
        intro block' hblock'
        cases hblock'
        exact hzero
      · rintro (hnot | hzero)
        · exact absurd ⟨text, hkeys⟩ hnot
        · exact hzero block rfl
  · obtain ⟨hsome, hedits⟩ := edits_line malloc hfull
    exact ⟨hsome, iff_of_true hedits (Or.inl hfull)⟩

/-- 499 times the character `a`. -/
def longInput : List UInt8 := List.replicate (lineBufSz - 1) 97

/-- Memory without null bytes. -/
def fullOfOnes : LineBuf := ⟨List.replicate lineBufSz 1, List.length_replicate⟩

theorem applyKeys_replicate (n : Nat) {text : List UInt8} (h : text.length + n = lineBufSz - 1) :
    applyKeys text (List.replicate n 97) = .full (text ++ List.replicate n 97) := by
  induction n generalizing text with
  | zero =>
    rw [List.replicate_zero, applyKeys, if_neg (by omega), List.append_nil]
  | succ n ih =>
    have hnext : (text ++ [97]).length + n = lineBufSz - 1 := by
      rw [List.length_append, List.length_singleton]
      omega
    have hkey : applyKey text 97 = text ++ [97] := rfl
    rw [List.replicate_succ, applyKeys, if_pos (by omega), if_neg (by decide), if_neg (by decide),
      hkey, ih hnext, List.append_assoc, List.singleton_append]

/-- There is no null byte behind the 499 characters. -/
theorem long_line_unterminated : ¬EditsLine (some fullOfOnes) longInput := by
  have hkeys : applyKeys [] longInput = .full longInput := by
    rw [longInput, applyKeys_replicate _ (Nat.zero_add _), List.nil_append]
  rw [(edits_full fullOfOnes hkeys).2, fullOfOnes, List.getElem?_replicate, if_pos (by decide)]
  intro hzero
  cases hzero

end Cexp
