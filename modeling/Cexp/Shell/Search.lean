import Cexp.Lib.Fill
import Cexp.Shell.Getp

/-!
# Searching a file

`cexpSearchFile` looks for a file in the directories of a search path. The names to try are put
together in a buffer of `MAXPATHLEN` bytes, one after the other, while the path is split at its
colons. What is tried and what is found is what the list of all names says (`cexpSearchFile_order`).
-/

namespace Cexp

open CLib

/-- `ENOENT` -/
def enoent : Nat := 2

section

-- `fopen` gives a stream or an error number
variable {File : Type} (fopen : List UInt8 → Except Nat File)

/-! ## The buffer -/

/-- `strcat`, if there is a string in the buffer. -/
def strcat (buf s : List UInt8) : Option (List UInt8) :=
  if 0 ∈ buf then putAll buf (textOf buf).length (s ++ [0]) else none

/-- The name of the file in the directory in front of the colon at `col`, or at the end of the path.
There is no result if it is written outside of the buffer. -/
def composeName (buf path fname : List UInt8) (col : Option Nat) : Option (List UInt8) :=
  (match col with
    | some n => (putAll buf 0 (path.take n)).bind fun buf => put buf n 0
    | none => putAll buf 0 (path ++ [0])).bind fun fullname =>
  -- don't append a separator if the prefix is empty
  (if fullname.head? = some 0 then some fullname else strcat fullname [47]).bind fun fullname =>
  strcat fullname fname

/-! ## The loop -/

/-- What the loop leaves: the stream, the buffer and the names that were tried. -/
structure FileSearch (File : Type) where
  f : Option File
  fullname : List UInt8
  tried : List (List UInt8)

theorem strchr_lt {path : List UInt8} {n : Nat} (h : strchr 58 (path ++ [0]) = some (some n)) :
    n < path.length := by
  induction path generalizing n with
  | nil => cases h
  | cons c path ih =>
    rw [List.cons_append, strchr] at h
    rw [List.length_cons]
    split at h
    · cases h
      exact Nat.succ_pos _
    · split at h
      · cases h
      · obtain ⟨found, hfound, hmap⟩ := Option.map_eq_some_iff.mp h
        obtain ⟨m, rfl, rfl⟩ := Option.map_eq_some_iff.mp hmap
        exact Nat.succ_lt_succ (ih hfound)

/-- The loop over the directories of `path`. -/
def searchLoop (fname path buf : List UInt8) (tried : List (List UInt8)) :
    Option (FileSearch File) :=
  match _hcol : strchr 58 (path ++ [0]) with
  | none => none
  | some col =>
    match composeName buf path fname col with
    | none => none
    | some buf =>
      match fopen (textOf buf) with
      | .ok f => some ⟨some f, buf, tried ++ [textOf buf]⟩
      | .error errno =>
        -- stop searching; file seems to be there but unreadable
        if errno ≠ enoent then some ⟨none, buf, tried ++ [textOf buf]⟩
        else match col with
          | none => some ⟨none, buf, tried ++ [textOf buf]⟩
          | some n => searchLoop fname (path.drop (n + 1)) buf (tried ++ [textOf buf])
  termination_by path.length
  decreasing_by
    have hn := strchr_lt _hcol
    rw [List.length_drop]
    omega

/-! ## The function -/

/-- The argument `pfullname`: it may be null, the address of a null pointer or that of a pointer to
a buffer. -/
inductive FullName (maxPathLen : Nat) where
  | null
  | unset
  | buffer (buf : { buf : List UInt8 // maxPathLen ≤ buf.length })

/-- What `cexpSearchFile` leaves: the stream, the string at `*pfullname` and the names that were
tried. -/
structure SearchResult (File : Type) where
  f : Option File
  fullname : Option (List UInt8)
  tried : List (List UInt8)

variable {maxPathLen : Nat}

/-- The buffer that is used: that of the caller, or a new one, if there is memory. -/
def FullName.block (pfullname : FullName maxPathLen)
    (malloc : Option { buf : List UInt8 // maxPathLen ≤ buf.length }) : Option (List UInt8) :=
  match pfullname with
  | .buffer buf => some buf
  | _ => malloc.map Subtype.val

/-- What the caller has in `*pfullname` after the search. -/
def FullName.after (pfullname : FullName maxPathLen) (r : FileSearch File) : Option (List UInt8) :=
  match pfullname with
  | .null => none
  | .unset => if r.f.isSome then some (textOf r.fullname) else none
  | .buffer _ => some (textOf r.fullname)

/-- The path that the loop begins with. It is empty where the name is not to be searched for, and
null if there is nothing to search in. -/
def searchPath (path : Option CStr) (fname : CStr) : Option (List UInt8) :=
  match path with
  | none => some []
  | some path =>
    if 47 ∈ fname.bytes then some [] else if path.bytes = [] then none else some path.bytes

/-- `cexpSearchFile` -/
def cexpSearchFile (malloc : Option { buf : List UInt8 // maxPathLen ≤ buf.length })
    (path : Option CStr) (fname : CStr) (pfullname : FullName maxPathLen) :
    Option (SearchResult File) :=
  match pfullname.block malloc with
  | none => some ⟨none, none, []⟩
  | some buf =>
    match searchPath path fname with
    | none => some ⟨none, pfullname.after ⟨(none : Option File), buf, []⟩, []⟩
    | some path => (searchLoop fopen fname.bytes path buf []).map fun r =>
      ⟨r.f, pfullname.after r, r.tried⟩

/-! ## The names to try -/

/-- The name of the file in a directory. -/
def candidate (fname dir : List UInt8) : List UInt8 :=
  if dir = [] then fname else dir ++ 47 :: fname

/-- The names in the order of the path. -/
def candidates (path : Option CStr) (fname : CStr) : List (List UInt8) :=
  match path with
  | none => [fname.bytes]
  | some path =>
    if 47 ∈ fname.bytes then [fname.bytes]
    else if path.bytes = [] then []
    else (path.bytes.splitOn 58).map (candidate fname.bytes)

/-- There is no such file. -/
def missing (name : List UInt8) : Bool :=
  match fopen name with
  | .ok _ => false
  | .error errno => errno = enoent

/-- The first name at which the search stops, and those in front of it. -/
def triedNames (names : List (List UInt8)) : List (List UInt8) :=
  names.takeWhile (missing fopen) ++ (names.dropWhile (missing fopen)).take 1

/-- The file with the first name that is there, if it can be opened. -/
def firstFile (names : List (List UInt8)) : Option (List UInt8 × File) :=
  (names.dropWhile (missing fopen)).head?.bind fun name => (fopen name).toOption.map (name, ·)

/-! ## Strings in the buffer -/

/-- A string is in the buffer. -/
def HasString (buf s : List UInt8) : Prop := 0 ∉ s ∧ ∃ rest, buf = s ++ 0 :: rest

theorem HasString.textOf {buf s : List UInt8} (h : HasString buf s) : textOf buf = s := by
  obtain ⟨hnul, rest, rfl⟩ := h
  rw [Cexp.textOf]
  exact (run_ne hnul rest).1

/-- A string that is written over the end of another one. -/
theorem putAll_string {a b rest : List UInt8} (ha : 0 ∉ a) (hb : 0 ∉ b)
    (hfits : b.length < rest.length) :
    ∃ buf, putAll (a ++ rest) a.length (b ++ [0]) = some buf ∧ HasString buf (a ++ b) ∧
      buf.length = (a ++ rest).length := by
  have hle : a.length + (b ++ [0]).length ≤ (a ++ rest).length := by
    rw [List.length_append, List.length_append, List.length_singleton]
    omega
  refine ⟨_, putAll_some hle, ⟨?_, rest.drop (b.length + 1), ?_⟩, length_overlay hle⟩
  · rw [List.mem_append, not_or]
    exact ⟨ha, hb⟩
  · rw [overlay, List.take_left, List.drop_append, List.drop_eq_nil_of_le (by omega),
      List.nil_append, List.length_append, List.length_singleton, Nat.add_sub_cancel_left,
      List.append_assoc, List.append_assoc, List.append_assoc, List.singleton_append]

theorem strcat_string {buf a b : List UInt8} (ha : HasString buf a) (hb : 0 ∉ b)
    (hfits : (a ++ b).length < buf.length) :
    ∃ buf', strcat buf b = some buf' ∧ HasString buf' (a ++ b) ∧ buf'.length = buf.length := by
  have htext := ha.textOf
  obtain ⟨hnul, rest, rfl⟩ := ha
  rw [List.length_append, List.length_append] at hfits
  have hmem : 0 ∈ a ++ 0 :: rest := List.mem_append_right a List.mem_cons_self
  rw [strcat, if_pos hmem, htext]
  exact putAll_string hnul hb (by omega)

/-- The part of the path that is copied. -/
def dirOf (path : List UInt8) (col : Option Nat) : List UInt8 :=
  match col with
  | some n => path.take n
  | none => path

/-- The directory is copied to the beginning of the buffer. -/
theorem copyDir_string {buf path : List UInt8} {col : Option Nat}
    (hdir : 0 ∉ dirOf path col) (hcol : ∀ n, col = some n → n ≤ path.length)
    (hfits : (dirOf path col).length < buf.length) :
    ∃ buf', (match col with
        | some n => (putAll buf 0 (path.take n)).bind fun buf => put buf n 0
        | none => putAll buf 0 (path ++ [0])) = some buf' ∧ HasString buf' (dirOf path col) ∧
      buf'.length = buf.length := by
  have hwrite := putAll_string (a := []) (b := dirOf path col) List.not_mem_nil hdir hfits
  cases col with
  | none => exact hwrite
  | some n =>
    have hn : (path.take n).length = n := by
      rw [List.length_take]
      exact Nat.min_eq_left (hcol n rfl)
    rw [dirOf, List.length_nil, List.nil_append, List.nil_append, putAll_append, hn,
      Nat.zero_add] at hwrite
    simp only [putAll_singleton] at hwrite
    exact hwrite

/-- The name is appended to the directory, with a separator if there is a directory. -/
theorem appendName_string {buf dir fname : List UInt8} (hstring : HasString buf dir)
    (hfname : 0 ∉ fname) (hfits : (candidate fname dir).length < buf.length) :
    ∃ buf', ((if buf.head? = some 0 then some buf else strcat buf [47]).bind
        fun fullname => strcat fullname fname) = some buf' ∧
      HasString buf' (candidate fname dir) ∧ buf'.length = buf.length := by
  cases dir with
  | nil =>
    have hhead : buf.head? = some 0 := by
      obtain ⟨-, rest, rfl⟩ := hstring
      rfl
    rw [if_pos hhead, Option.bind_some]
    exact strcat_string hstring hfname hfits
  | cons c dir =>
    have hhead : buf.head? ≠ some 0 := by
      obtain ⟨hnul, rest, rfl⟩ := hstring
      intro hzero
      cases hzero
      exact hnul List.mem_cons_self
    have hname : candidate fname (c :: dir) = c :: dir ++ [47] ++ fname := by
      rw [List.append_assoc]
      exact if_neg (List.cons_ne_nil c dir)
    rw [hname] at hfits ⊢
    have hprefix : (c :: dir ++ [47]).length < buf.length := by
      rw [List.length_append] at hfits
      omega
    obtain ⟨buf₁, hcat, hstring₁, hlength₁⟩ :=
      strcat_string hstring (show (0 : UInt8) ∉ [47] by decide) hprefix
    obtain ⟨buf₂, hcat', hstring₂, hlength₂⟩ :=
      strcat_string hstring₁ hfname (by rw [hlength₁]; exact hfits)
    rw [if_neg hhead, hcat, Option.bind_some]
    exact ⟨buf₂, hcat', hstring₂, hlength₂.trans hlength₁⟩

theorem length_dir_le (fname dir : List UInt8) : dir.length ≤ (candidate fname dir).length := by
  rw [candidate]
  split
  · next hnil =>
    rw [hnil]
    exact Nat.zero_le _
  · rw [List.length_append]
    exact Nat.le_add_right ..

theorem composeName_string {buf path fname : List UInt8} {col : Option Nat}
    (hpath : 0 ∉ path) (hfname : 0 ∉ fname) (hcol : ∀ n, col = some n → n ≤ path.length)
    (hfits : (candidate fname (dirOf path col)).length < buf.length) :
    ∃ buf', composeName buf path fname col = some buf' ∧
      textOf buf' = candidate fname (dirOf path col) ∧ buf'.length = buf.length := by
  have hdir : 0 ∉ dirOf path col := by
    cases col with
    | none => exact hpath
    | some n => exact fun hmem => hpath (List.mem_of_mem_take hmem)
  obtain ⟨buf₁, hcopy, hstring₁, hlength₁⟩ :=
    copyDir_string hdir hcol ((length_dir_le fname _).trans_lt hfits)
  rw [← hlength₁] at hfits
  obtain ⟨buf₂, happend, hstring₂, hlength₂⟩ := appendName_string hstring₁ hfname hfits
  rw [composeName.eq_def, hcopy, Option.bind_some]
  exact ⟨buf₂, happend, hstring₂.textOf, hlength₂.trans hlength₁⟩

/-- A buffer has the length that names may have. -/
theorem FullName.length_block (pfullname : FullName maxPathLen)
    {malloc : Option { buf : List UInt8 // maxPathLen ≤ buf.length }} {buf : List UInt8}
    (h : pfullname.block malloc = some buf) : maxPathLen ≤ buf.length := by
  have hmalloc : malloc.map Subtype.val = some buf → maxPathLen ≤ buf.length := by
    intro hmap
    obtain ⟨b, -, rfl⟩ := Option.map_eq_some_iff.mp hmap
    exact b.property
  cases pfullname with
  | null => exact hmalloc h
  | unset => exact hmalloc h
  | buffer b =>
    cases h
    exact b.property

/-- The directories of the path that the loop begins with give the names to try. -/
theorem searchPath_candidates (path : Option CStr) (fname : CStr) :
    match searchPath path fname with
    | none => candidates path fname = []
    | some dirs => 0 ∉ dirs ∧
        (dirs.splitOn 58).map (candidate fname.bytes) = candidates path fname := by
  rw [searchPath.eq_def, candidates.eq_def]
  cases path with
  | none => exact ⟨List.not_mem_nil, rfl⟩
  | some path =>
    dsimp only
    by_cases hslash : 47 ∈ fname.bytes
    · rw [if_pos hslash, if_pos hslash]
      exact ⟨List.not_mem_nil, rfl⟩
    · rw [if_neg hslash, if_neg hslash]
      by_cases hempty : path.bytes = []
      · rw [if_pos hempty, if_pos hempty]
      · rw [if_neg hempty, if_neg hempty]
        exact ⟨path.noNul, rfl⟩

/-! ## The order of the search -/

variable {fopen : List UInt8 → Except Nat File}

theorem missing_error {name : List UInt8} {errno : Nat} (h : fopen name = .error errno) :
    missing fopen name = decide (errno = enoent) := by
  rw [missing, h]

theorem missing_ok {name : List UInt8} {f : File} (h : fopen name = .ok f) :
    missing fopen name = false := by
  rw [missing, h]

theorem tried_missing {name : List UInt8} (h : missing fopen name = true)
    (names : List (List UInt8)) :
    triedNames fopen (name :: names) = name :: triedNames fopen names ∧
      firstFile fopen (name :: names) = firstFile fopen names := by
  rw [triedNames, triedNames, firstFile, firstFile, List.takeWhile_cons, if_pos h,
    List.dropWhile_cons, if_pos h]
  exact ⟨rfl, rfl⟩

theorem tried_found {name : List UInt8} (h : missing fopen name = false)
    (names : List (List UInt8)) : triedNames fopen (name :: names) = [name] ∧
      firstFile fopen (name :: names) = (fopen name).toOption.map (name, ·) := by
  have hnot : ¬missing fopen name = true := by
    rw [h]
    exact Bool.false_ne_true
  rw [triedNames, firstFile, List.takeWhile_cons, if_neg hnot, List.dropWhile_cons, if_neg hnot]
  exact ⟨rfl, rfl⟩

/-- The loop has dealt with these names: those up to the one at which it stopped were tried, and a
file that was opened has its name in the buffer. -/
structure FileSearch.Searches (fopen : List UInt8 → Except Nat File) (names : List (List UInt8))
    (tried : List (List UInt8)) (r : FileSearch File) : Prop where
  tried : r.tried = tried ++ triedNames fopen names
  f : r.f = (firstFile fopen names).map Prod.snd
  fullname : ∀ found, firstFile fopen names = some found → textOf r.fullname = found.1

/-- The loop stops at a name. -/
theorem FileSearch.Searches.stop {name buf : List UInt8} (hname : textOf buf = name)
    (hmissing : missing fopen name = false) (names tried : List (List UInt8)) :
    FileSearch.Searches fopen (name :: names) tried
      ⟨(fopen name).toOption, buf, tried ++ [name]⟩ := by
  obtain ⟨htried, hfirst⟩ := tried_found hmissing names
  refine ⟨by rw [htried], ?_, ?_⟩
  · rw [hfirst, Option.map_map]
    exact Option.map_id'.symm
  · intro found hfound
    rw [hfirst] at hfound
    obtain ⟨f, -, rfl⟩ := Option.map_eq_some_iff.mp hfound
    exact hname

/-- The loop goes on. -/
theorem FileSearch.Searches.next {name : List UInt8} (hmissing : missing fopen name = true)
    {names tried : List (List UInt8)} {r : FileSearch File}
    (h : r.Searches fopen names (tried ++ [name])) : r.Searches fopen (name :: names) tried := by
  obtain ⟨htried, hfirst⟩ := tried_missing hmissing names
  refine ⟨?_, by rw [hfirst, h.f], by rw [hfirst]; exact h.fullname⟩
  rw [htried, h.tried, List.append_assoc, List.singleton_append]

/-- There are no more names. -/
theorem FileSearch.Searches.last (fopen : List UInt8 → Except Nat File) (buf : List UInt8)
    (tried : List (List UInt8)) : FileSearch.Searches fopen [] tried ⟨none, buf, tried⟩ := by
  refine ⟨(List.append_nil _).symm, rfl, ?_⟩
  intro found hfound
  cases hfound

/-- The names in front of and behind the first colon. -/
theorem splitOn_colon (path : List UInt8) :
    path.splitOn 58 = dirOf path (if 58 ∈ path then
        some (path.takeWhile (· != 58)).length else none) ::
      if 58 ∈ path then (path.drop ((path.takeWhile (· != 58)).length + 1)).splitOn 58 else [] := by
  by_cases hmem : 58 ∈ path
  · rw [if_pos hmem, if_pos hmem, dirOf]
    have hnot := notMem_takeWhile_ne 58 path
    have hsplit := takeWhile_ne_append hmem
    generalize path.takeWhile (· != 58) = dir at hnot hsplit ⊢
    generalize (path.dropWhile (· != 58)).drop 1 = rest at hsplit
    rw [List.append_assoc, List.singleton_append] at hsplit
    subst hsplit
    rw [List.splitOn_append_cons_self_of_not_mem hnot, List.take_left, List.drop_append,
      List.drop_eq_nil_of_le (Nat.le_succ _), List.nil_append, Nat.add_sub_cancel_left]
    rfl
  · rw [if_neg hmem, if_neg hmem, dirOf, List.splitOn_eq_singleton hmem]

/-- A pass of the loop. -/
theorem searchLoop_pass (fopen : List UInt8 → Except Nat File) {fname path buf buf' : List UInt8}
    {col : Option Nat} (hcol : strchr 58 (path ++ [0]) = some col)
    (hcompose : composeName buf path fname col = some buf') (tried : List (List UInt8)) :
    searchLoop fopen fname path buf tried =
      if missing fopen (textOf buf') then
        match col with
        | none => some ⟨none, buf', tried ++ [textOf buf']⟩
        | some n => searchLoop fopen fname (path.drop (n + 1)) buf' (tried ++ [textOf buf'])
      else some ⟨(fopen (textOf buf')).toOption, buf', tried ++ [textOf buf']⟩ := by
  rw [searchLoop]
  split
  · next hnone =>
    rw [hcol] at hnone
    cases hnone
  · next col' hcol' =>
    rw [hcol] at hcol'
    cases hcol'
    rw [hcompose]
    dsimp only
    cases hopen : fopen (textOf buf') with
    | ok f =>
      rw [missing_ok hopen]
      rfl
    | error errno =>
      rw [missing_error hopen]
      by_cases herrno : errno = enoent
      · cases col <;> simp [herrno]
      · simp [herrno, Except.toOption]

/-- The loop tries the names of the directories of a path in their order. -/
theorem searchLoop_searches (fopen : List UInt8 → Except Nat File) {fname : List UInt8}
    (hfname : 0 ∉ fname) {path buf : List UInt8} (hpath : 0 ∉ path)
    (hfits : ∀ name ∈ (path.splitOn 58).map (candidate fname), name.length < buf.length)
    (tried : List (List UInt8)) : ∃ r, searchLoop fopen fname path buf tried = some r ∧
      r.Searches fopen ((path.splitOn 58).map (candidate fname)) tried := by
  induction hn : path.length using Nat.strongRecOn generalizing path buf tried with
  | ind n ih =>
    have hsplit := splitOn_colon path
    have hchr := strchr_eq hpath (show (58 : UInt8) ≠ 0 by decide) []
    generalize hcol : (if 58 ∈ path then some (path.takeWhile (· != 58)).length else none) = col
      at hsplit hchr
    rw [hsplit, List.map_cons] at hfits ⊢
    have hle : ∀ n, col = some n → n ≤ path.length := by
      rintro n rfl
      exact (strchr_lt hchr).le
    obtain ⟨buf', hcompose, hname, hlength⟩ :=
      composeName_string hpath hfname hle (hfits _ List.mem_cons_self)
    rw [searchLoop_pass fopen hchr hcompose, hname]
    generalize candidate fname (dirOf path col) = name at hname
    cases hmissing : missing fopen name with
    | false =>
      rw [if_neg Bool.false_ne_true]
      exact ⟨_, rfl, FileSearch.Searches.stop hname hmissing _ tried⟩
    | true =>
      rw [if_pos rfl]
      by_cases hmem : 58 ∈ path
      · rw [if_pos hmem] at hcol hfits ⊢
        subst hcol
        have hlt := strchr_lt hchr
        have hshort : (path.drop ((path.takeWhile (· != 58)).length + 1)).length < n := by
          rw [List.length_drop]
          omega
        have hfits' : ∀ name' ∈ ((path.drop ((path.takeWhile (· != 58)).length + 1)).splitOn
            58).map (candidate fname), name'.length < buf'.length := by
          intro name' hname'
          rw [hlength]
          exact hfits name' (List.mem_cons_of_mem _ hname')
        obtain ⟨r, hrun, hsearch⟩ := ih _ hshort
          (fun h0 => hpath (List.mem_of_mem_drop h0)) hfits' (tried ++ [name]) rfl
        exact ⟨r, hrun, hsearch.next hmissing⟩
      · rw [if_neg hmem] at hcol ⊢
        subst hcol
        exact ⟨_, rfl, (FileSearch.Searches.last fopen buf' _).next hmissing⟩

end

/-- What a search does whose names fit into the buffer. Without memory for a buffer it tries
nothing. Otherwise it tries the names in their order up to the first that is there, opens it if that
is possible, and then the name that it gives is the one that it has opened. -/
theorem cexpSearchFile_order {File : Type} (fopen : List UInt8 → Except Nat File) (maxPathLen : Nat)
    (malloc : Option { buf : List UInt8 // maxPathLen ≤ buf.length }) (path : Option CStr)
    (fname : CStr) (pfullname : FullName maxPathLen)
    (hfits : ∀ name ∈ candidates path fname, name.length < maxPathLen) :
    ∃ r, cexpSearchFile fopen malloc path fname pfullname = some r ∧
      if pfullname.block malloc = none then r.f = none ∧ r.tried = []
      else r.tried = triedNames fopen (candidates path fname) ∧
        r.f = (firstFile fopen (candidates path fname)).map Prod.snd ∧
        ∀ found, firstFile fopen (candidates path fname) = some found →
          pfullname ≠ .null → r.fullname = some found.1 := by
  rw [cexpSearchFile.eq_def]
  cases hblock : pfullname.block malloc with
  | none =>
    refine ⟨_, rfl, ?_⟩
    rw [if_pos rfl]
    exact ⟨rfl, rfl⟩
  | some buf =>
    have hlength := pfullname.length_block hblock
    have hpath := searchPath_candidates path fname
    dsimp only
    cases hsearch : searchPath path fname with
    | none =>
      rw [hsearch] at hpath
      refine ⟨_, rfl, ?_⟩
      rw [if_neg (Option.some_ne_none buf), hpath]
      refine ⟨rfl, rfl, ?_⟩
      intro found hfound
      cases hfound
    | some dirs =>
      rw [hsearch] at hpath
      obtain ⟨hnul, hnames⟩ := hpath
      rw [← hnames] at hfits ⊢
      obtain ⟨r, hrun, htried, hf, hfullname⟩ := searchLoop_searches fopen fname.noNul
        hnul (fun name hname => (hfits name hname).trans_le hlength) []
      dsimp only
      rw [hrun, Option.map_some]
      refine ⟨_, rfl, ?_⟩
      rw [if_neg (Option.some_ne_none buf)]
      refine ⟨htried, hf, ?_⟩
      intro found hfound hnull
      dsimp only
      rw [← hfullname found hfound]
      cases pfullname with
      | null => exact absurd rfl hnull
      | unset =>
        rw [FullName.after, hf, hfound]
        rfl
      | buffer buf => rfl

/-- Only the file `x` is there. -/
def onlyX (name : List UInt8) : Except Nat Unit := if name = [120] then .ok () else .error enoent

/-- `/a:` -/
def dirA : CStr := ⟨[47, 97, 58], by decide⟩

/-- `x` -/
def nameX : CStr := ⟨[120], by decide⟩

def eightBytes : { buf : List UInt8 // 8 ≤ buf.length } := ⟨List.replicate 8 1, by decide⟩

/-- With the path `/a:` the name `/a/x` is tried first, and then `x` is opened. -/
theorem cexpSearchFile_order_cwd :
    ∃ r, cexpSearchFile onlyX (some eightBytes) (some dirA) nameX .unset = some r ∧
      r.f = some () ∧ r.tried = [[47, 97, 47, 120], [120]] ∧ r.fullname = some [120] := by
  obtain ⟨r, hrun, h⟩ := cexpSearchFile_order onlyX 8 (some eightBytes) (some dirA) nameX .unset
    (by decide)
  have hblock : FullName.unset.block (some eightBytes) ≠ none := Option.some_ne_none _
  have hfirst : firstFile onlyX (candidates (some dirA) nameX) = some ([120], ()) := rfl
  rw [if_neg hblock, hfirst] at h
  obtain ⟨htried, hf, hfullname⟩ := h
  refine ⟨r, hrun, hf, htried, ?_⟩
  refine hfullname _ rfl ?_
  intro hnull
  cases hnull

end Cexp
