import Cexp.Ctyps.Types
import Cexp.Syms.Table

/-!
# The lexer

`yylex` of `cexp.y` reads one token at the cursor `chpt` of the parser context. The cursor is
modelled by what is in memory from there on, and there is no result where the lexer would read
behind the end of that. `getch` moves the cursor without looking.

Most tokens are collected in the scratch buffer `sbuf`. The model keeps the bytes that have been
written to it: the lexer writes behind the last one or over it, so they are written at the indices
below their number, whether or not the buffer is large enough.

The tables of symbols, variables and strings and `strtod` are parameters.
-/

namespace Cexp

/-! ## Characters -/

def chr (c : UInt8) : Char := Char.ofUInt8 c

/-- The character classes of the C locale. -/
def isdigit (c : UInt8) : Bool := (chr c).isDigit
def isalpha (c : UInt8) : Bool := (chr c).isAlpha
def isalnum (c : UInt8) : Bool := (chr c).isAlphanum
def isxdigit (c : UInt8) : Bool :=
  isdigit c || ('a' ≤ chr c && chr c ≤ 'f') || ('A' ≤ chr c && chr c ≤ 'F')

def ISIDENTCHAR (c : UInt8) : Bool := chr c = '_' || chr c = '@'

/-- `'E'==toupper(ch)` -/
def isE (c : UInt8) : Bool := chr c = 'E' || chr c = 'e'

/-! ## Tokens -/

/-- The tokens of the grammar with their semantic values. `char` stands for any other character,
`INCOMPLETE_STRING n` for the number `LEXERR_INCOMPLETE_STRING - n`. -/
inductive Token where
  | NUMBER (v : CexpTypedVal)
  | STR_CONST (v : CexpTypedVal)
  | FUNC (s : CexpSym)
  | VAR (s : CexpSym)
  | UVAR (s : CexpSym)
  | IDENT (lstr : Nat)
  | KW_CHAR | KW_SHORT | KW_INT | KW_LONG | KW_FLOAT | KW_DOUBLE
  | MODOP (op : CexpBinOp)
  | PP | MM | AND | OR | SHL | SHR | EQ | NE | LE | GE
  | char (c : Int)
  | LEXERR
  | INCOMPLETE_STRING (n : Nat)
  deriving DecidableEq

/-- The tokens that are not in the grammar and stop the parser. -/
def Token.isError : Token → Bool
  | .LEXERR => true
  | .INCOMPLETE_STRING _ => true
  | _ => false

/-- What the lexer uses of the rest of the program. `cexpStrLookup` gives the address of a string,
`strtod` the value of a text and how much of it was read, and `malloc` tells whether there is
memory. -/
structure LexEnv where
  dm : DataModel
  cs : CharSign
  cexpSymLookup : List UInt8 → Option CexpSym
  cexpVarLookup : List UInt8 → Option CexpSym
  cexpStrLookup : List UInt8 → BitVec 64
  strtod : List UInt8 → BitVec 64 × Nat
  malloc : Nat → Bool

/-- No symbols and no variables, and all texts are numbers. -/
instance : Inhabited LexEnv where
  default :=
    { dm := .lp64
      cs := .signed
      cexpSymLookup := fun _ => none
      cexpVarLookup := fun _ => none
      cexpStrLookup := fun _ => 1
      strtod := fun text => (0, text.length)
      malloc := fun _ => true }

/-- What one call leaves: the token, the cursor, the scratch buffer and the messages. -/
structure Lexed where
  token : Token
  chpt : List UInt8
  sbuf : List UInt8
  msgs : List String

/-- `sizeof(pa->sbuf)` -/
def sbufSize : Nat := 1000

/-- `prerr` -/
def prerr (sbuf chpt : List UInt8) : Lexed := ⟨.LEXERR, chpt, sbuf, ["(yylex): buffer overflow\n"]⟩

/-! ## Numbers -/

/-- `unsigned long` -/
def numberToken (dm : DataModel) (num : Nat) : Token :=
  .NUMBER ⟨CexpValU.l dm (BitVec.ofNat 64 num), CexpType.TULong dm⟩

/-- The value of an escape sequence in a character constant, and whether it is known. -/
def charEscape (c : UInt8) : UInt8 × Bool :=
  match chr c with
  | 't' => (9, true)
  | 'n' => (10, true)
  | 'r' => (13, true)
  | '0' => (0, true)
  | 'f' => (12, true)
  | '\\' => (92, true)
  | '\'' => (39, true)
  | _ => (c, false)

/-- The end of a character constant. -/
def charEnd (num : UInt8) (msgs : List String) : List UInt8 → Option Lexed
  | [] => none
  | c :: rest =>
    let token := Token.NUMBER ⟨num.toNat, CexpType.TUChar⟩
    if chr c ≠ '\'' then some ⟨token, c :: rest, [], msgs ++ [": missing closing '\n"]⟩
    else some ⟨token, rest, [], msgs⟩

/-- A character constant, behind its opening quote. -/
def charConst : List UInt8 → Option Lexed
  | [] => none
  | c :: rest =>
    if chr c = '\\' then
      match rest with
      | [] => none
      | e :: rest =>
        let (num, known) := charEscape e
        charEnd num (if known then [] else [": unknown escape sequence, using unescaped char\n"])
          rest
    else charEnd c [] rest

def hexDigit (c : UInt8) : Nat :=
  if 'a' ≤ chr c then c.toNat - 97 + 10 else if 'A' ≤ chr c then c.toNat - 65 + 10 else c.toNat - 48

def hexLoop (num : Nat) : List UInt8 → Option (Nat × List UInt8)
  | [] => none
  | c :: rest =>
    if isxdigit c then hexLoop (num <<< 4 + hexDigit c) rest else some (num, c :: rest)

def octLoop (num : Nat) : List UInt8 → Option (Nat × List UInt8)
  | [] => none
  | c :: rest =>
    if '0' ≤ chr c && chr c < '8' then octLoop (num <<< 3 + (c.toNat - 48)) rest
    else some (num, c :: rest)

/-- The loop over the digits of a number of base 10; the first is not checked again. -/
def decLoop (limit num : Nat) (sbuf : List UInt8) :
    List UInt8 → Option (Nat × Nat × List UInt8 × List UInt8)
  | [] => none
  | [_] => none
  | c :: d :: rest =>
    let sbuf := sbuf ++ [c]
    let num := 10 * num + (c.toNat - 48)
    if isdigit d && limit - 1 ≠ 0 then decLoop (limit - 1) num sbuf (d :: rest)
    else some (limit - 1, num, sbuf, d :: rest)

/-! ### Fractions

`size` is what is left of the buffer. It is an `int`, and it can get below zero.
-/

/-- A step of `scanfrac` ends the call, or it goes on with the size, the buffer and the cursor. -/
abbrev FracStep := Option (Except Lexed (Int × List UInt8 × List UInt8))

/-- The inner loop of `scanfrac`. -/
def fracDigits (size : Int) (sbuf : List UInt8) : List UInt8 → FracStep
  | [] => none
  | c :: rest =>
    if isdigit c && size ≠ 0 then
      if size - 1 = 0 then some (.error (prerr (sbuf ++ [c]) (c :: rest)))
      else fracDigits (size - 1) (sbuf ++ [c]) rest
    else some (.ok (size, sbuf, c :: rest))

/-- The sign of the exponent. -/
def fracSign (size : Int) (sbuf : List UInt8) : List UInt8 → FracStep
  | [] => none
  | c :: rest =>
    if chr c = '-' ∨ chr c = '+' then
      if size - 1 = 0 then some (.error (prerr (sbuf ++ [c]) (c :: rest)))
      else some (.ok (size - 1, sbuf ++ [c], rest))
    else some (.ok (size, sbuf, c :: rest))

/-- The outer loop of `scanfrac`: once more after an exponent, which comes once at most. -/
def fracLoop (size : Int) (sbuf chpt : List UInt8) : FracStep := do
  match ← fracDigits size sbuf chpt with
  | .error r => return .error r
  | .ok (_, _, []) => none
  | .ok (size, sbuf, c :: rest) =>
    if isE c then
      if size - 1 = 0 then return .error (prerr (sbuf ++ [69]) (c :: rest))
      else match ← fracSign (size - 1) (sbuf ++ [69]) rest with
        | .error r => return .error r
        | .ok (size, sbuf, chpt) => fracDigits size sbuf chpt
    else return .ok (size, sbuf, c :: rest)

/-- The end of `scanfrac`. -/
def fracEnd (E : LexEnv) (sbuf chpt : List UInt8) : Lexed :=
  let r := E.strtod sbuf
  if (sbuf ++ [0])[r.2]? = some 0 then
    ⟨.NUMBER ⟨r.1, CexpType.TDouble⟩, chpt, sbuf ++ [0], []⟩
  else ⟨.LEXERR, chpt, sbuf ++ [0], []⟩

def scanfrac (E : LexEnv) (sbuf : List UInt8) (size : Int) (rejectLonely : Bool) :
    List UInt8 → Option Lexed
  | [] => none
  | [_] => none
  | c :: d :: rest =>
    if isdigit d || isE d then do
      match ← fracLoop (size - 1) (sbuf ++ [c]) (d :: rest) with
      | .error r => return r
      | .ok (_, sbuf, chpt) => return fracEnd E sbuf chpt
    else if rejectLonely then some ⟨.char 46, d :: rest, sbuf ++ [c], []⟩
    else some (fracEnd E (sbuf ++ [c]) (d :: rest))

/-- A number that begins with `0`: hex, octal or fractional. -/
def zeroNumber (E : LexEnv) (limit : Nat) : List UInt8 → Option Lexed
  | [] => none
  | [_] => none
  | c :: d :: rest =>
    if chr d = 'x' then
      (hexLoop 0 rest).map fun r => ⟨numberToken E.dm r.1, r.2, [c], []⟩
    else if chr d = '.' then scanfrac E [c] (limit - 1 : Nat) false (d :: rest)
    else (octLoop 0 (d :: rest)).map fun r => ⟨numberToken E.dm r.1, r.2, [c], []⟩

/-- A number of base 10. -/
def decNumber (E : LexEnv) (limit : Nat) (chpt : List UInt8) : Option Lexed := do
  match ← decLoop limit 0 [] chpt with
  | (_, _, _, []) => none
  | (limit, num, sbuf, c :: rest) =>
    if limit = 0 then return prerr sbuf (c :: rest)
    else if chr c = '.' then scanfrac E sbuf limit false (c :: rest)
    else return ⟨numberToken E.dm num, c :: rest, sbuf, []⟩

/-! ## Identifiers -/

/-- `lstAddString` on the line string table, with the place of the string. -/
def lstAddString (E : LexEnv) (string : List UInt8) :
    List (Option (List UInt8)) → Option Nat × List (Option (List UInt8))
  | [] => (none, [])
  | none :: tbl =>
    if E.malloc (string.length + 1) then (some 0, some string :: tbl)
    else
      let (i, tbl) := lstAddString E string tbl
      (i.map (· + 1), none :: tbl)
  | some s :: tbl =>
    if string = s then (some 0, some s :: tbl)
    else
      let (i, tbl) := lstAddString E string tbl
      (i.map (· + 1), some s :: tbl)

def isIdent (c : UInt8) : Bool := isalnum c || ISIDENTCHAR c

/-- The loop over the characters of an identifier; the first is not checked again. -/
def identLoop (limit : Nat) (sbuf : List UInt8) :
    List UInt8 → Option (Nat × List UInt8 × List UInt8)
  | [] => none
  | [_] => none
  | c :: d :: rest =>
    if isIdent d then
      if 0 < limit - 1 then identLoop (limit - 1) (sbuf ++ [c]) (d :: rest)
      else some (limit - 1, sbuf ++ [c], d :: rest)
    else some (limit, sbuf ++ [c], d :: rest)

def keywords : List (String × Token) :=
  [("char", .KW_CHAR), ("short", .KW_SHORT), ("int", .KW_INT), ("long", .KW_LONG),
    ("float", .KW_FLOAT), ("double", .KW_DOUBLE)]

/-- The token of an identifier, the line string table and the messages. -/
def identToken (E : LexEnv) (tbl : List (Option (List UInt8))) (name : List UInt8) :
    Token × List (Option (List UInt8)) × List String :=
  match keywords.find? fun k => k.1.toUTF8.toList = name with
  | some k => (k.2, tbl, [])
  | none => match E.cexpSymLookup name with
    | some s => (if s.value.type.funq then .FUNC s else .VAR s, tbl, [])
    | none => match E.cexpVarLookup name with
      | some s => (.UVAR s, tbl, [])
      | none => match lstAddString E name tbl with
        | (some i, tbl) => (.IDENT i, tbl, [])
        | (none, tbl) => (.LEXERR, tbl, ["Cexp: Line String Table exhausted\n"])

def identifier (E : LexEnv) (tbl : List (Option (List UInt8))) (limit : Nat)
    (chpt : List UInt8) : Option (Lexed × List (Option (List UInt8))) := do
  let (limit, sbuf, chpt) ← identLoop limit [] chpt
  if limit = 0 then return (prerr (sbuf ++ [0]) chpt, tbl)
  else
    let (token, tbl, msgs) := identToken E tbl sbuf
    return (⟨token, chpt, sbuf ++ [0], msgs⟩, tbl)

/-! ## Strings -/

/-- The escape sequences of a string: what is put over the backslash. -/
def strEscape (c : UInt8) : Option UInt8 :=
  match chr c with
  | 'n' => some 10
  | 'r' => some 13
  | 't' => some 9
  | '"' => some 34
  | '\\' => some 92
  | '0' => some 0
  | _ => none

/-- The string is not closed, or there is no room: the code tells how far it is from its start. -/
def incomplete (start : Nat) (sbuf chpt : List UInt8) : Option Lexed :=
  some ⟨.INCOMPLETE_STRING (start - chpt.length), chpt, sbuf, []⟩

/-- The string is closed. -/
def strEnd (E : LexEnv) (sbuf chpt : List UInt8) : Lexed :=
  let p := E.cexpStrLookup (sbuf.takeWhile (· ≠ 0))
  ⟨if p ≠ 0 then .STR_CONST ⟨p, CexpType.TUCharP⟩ else .LEXERR, chpt, sbuf ++ [0], []⟩

/-- The loop over the characters of a string, from `skipit` on; `start` is the length of what is in
memory from `strStart` on. An escape sequence that is known goes back to `skipit` and passes the
check of the limit. -/
def strLoop (E : LexEnv) (start : Nat) (limit : Int) (sbuf : List UInt8) :
    List UInt8 → Option Lexed
  | [] => none
  | c :: rest =>
    let limit := limit - 1
    if chr c = '\\' then
      match rest with
      | [] => none
      | e :: rest =>
        match strEscape e with
        | some x => strLoop E start limit (sbuf ++ [x]) rest
        | none =>
          let limit := limit - 1
          if e ≠ 0 ∧ 2 < limit then strLoop E start limit (sbuf ++ [c, e]) rest
          else incomplete start (sbuf ++ [c, e]) (e :: rest)
    else if chr c = '"' then some (strEnd E sbuf rest)
    else if c ≠ 0 ∧ 2 < limit then strLoop E start limit (sbuf ++ [c]) rest
    else incomplete start (sbuf ++ [c]) (c :: rest)

/-! ## Operators and comments -/

/-- The rest of a comment. -/
def commentLoop (rv : UInt8) : List UInt8 → Option (List UInt8)
  | [] => none
  | c :: rest => if c ≠ 0 ∧ chr rv ≠ '\n' then commentLoop c rest else some (c :: rest)

/-- The operators of two characters. -/
def doubleOp (rv c : UInt8) : Option Token :=
  match chr rv, chr c with
  | '+', '+' => some .PP
  | '-', '-' => some .MM
  | '&', '&' => some .AND
  | '|', '|' => some .OR
  | '<', '<' => some .SHL
  | '>', '>' => some .SHR
  | '=', '=' => some .EQ
  | '!', '=' => some .NE
  | '<', '=' => some .LE
  | '>', '=' => some .GE
  | '+', '=' => some (.MODOP .OAdd)
  | '-', '=' => some (.MODOP .OSub)
  | '*', '=' => some (.MODOP .OMul)
  | '/', '=' => some (.MODOP .ODiv)
  | '%', '=' => some (.MODOP .OMod)
  | '&', '=' => some (.MODOP .OAnd)
  | '^', '=' => some (.MODOP .OXor)
  | '|', '=' => some (.MODOP .OOr)
  | _, _ => none

/-- A shift that is followed by `=`. -/
def shiftOp (token : Token) : List UInt8 → Option Lexed
  | [] => none
  | c :: rest =>
    if token = .SHL ∧ chr c = '=' then some ⟨.MODOP .OShL, rest, [], []⟩
    else if token = .SHR ∧ chr c = '=' then some ⟨.MODOP .OShR, rest, [], []⟩
    else some ⟨token, c :: rest, [], []⟩

/-- Any other character. The end of the line is a newline for the parser. -/
def special (E : LexEnv) : List UInt8 → Option Lexed
  | [] => none
  | rv :: rest =>
    if rv = 0 then some ⟨.char 10, rv :: rest, [], []⟩
    else match rest with
      | [] => none
      | c :: rest =>
        if chr rv = '#' ∨ (chr c = '/' ∧ chr rv = '/') then
          (commentLoop rv (c :: rest)).map fun chpt => ⟨.char 10, chpt, [], []⟩
        else match doubleOp rv c with
          | some token => shiftOp token rest
          | none => some ⟨.char (E.cs.val rv), c :: rest, [], []⟩

/-! ## The lexer -/

def isBlank (c : UInt8) : Bool := chr c = ' ' || chr c = '\t'

/-- `yylex` on the line string table and the cursor. -/
def yylex (E : LexEnv) (tbl : List (Option (List UInt8))) (chpt : List UInt8) :
    Option (Lexed × List (Option (List UInt8))) :=
  let limit := sbufSize - 1
  match chpt.dropWhile isBlank with
  | [] => none
  | c :: rest =>
    if chr c = '\'' then (charConst rest).map (·, tbl)
    else if isdigit c then
      if chr c = '0' then (zeroNumber E limit (c :: rest)).map (·, tbl)
      else (decNumber E limit (c :: rest)).map (·, tbl)
    else if chr c = '.' then (scanfrac E [] limit true (c :: rest)).map (·, tbl)
    else if isalpha c || ISIDENTCHAR c then identifier E tbl limit (c :: rest)
    else if chr c = '"' then (strLoop E rest.length limit [] rest).map (·, tbl)
    else (special E (c :: rest)).map (·, tbl)

/-- Is the number of the token above zero? -/
def Token.positive : Token → Bool
  | .char c => 0 < c
  | token => !token.isError

/-- The loop of `cexpSymComplete` over the tokens of a line, with the token that ends it. `fuel`
bounds the number of turns. -/
def quoteLoop (E : LexEnv) (fuel : Nat) (tbl : List (Option (List UInt8))) (chpt : List UInt8) :
    Option Token :=
  match fuel with
  | 0 => none
  | fuel + 1 => do
    let (r, tbl) ← yylex E tbl chpt
    if r.token.positive ∧ r.token ≠ .char 10 then quoteLoop E fuel tbl r.chpt
    else return r.token

end Cexp
