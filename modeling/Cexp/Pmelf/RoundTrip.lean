import Cexp.Pmelf.Codec

/-!
# Round trips of records

A put routine writes the image of a record in the byte order of the file, and a get routine reads a
record from such an image (`putRecord_eq`, `getRecord_eq`). So what was written is read again and
what was read is written again. The header routines check the header, and the one that reads checks
more: it rejects some headers that were written (`headers_round_trip`).
-/

namespace Cexp

open CLib CLib.Image

/-! ## Streams -/

namespace ElfStream

variable {s : ElfStream} {data rest : List UInt8} {n : Nat}

theorem drop_overwrite (file : List UInt8) (pos : Nat) (data : List UInt8) :
    (overwrite file pos data).drop pos = data ++ file.drop (pos + data.length) := by
  cases data with
  | nil => rfl
  | cons b data =>
    have hlen : (file.take pos ++ List.replicate (pos - file.length) 0).length = pos := by
      rw [List.length_append, List.length_take, List.length_replicate]
      omega
    rw [overwrite, List.append_assoc, List.append_assoc, ← List.append_assoc,
      List.drop_left' hlen]
    rfl

theorem sread_ok (hr : s.readable = true) (hdrop : s.file.drop s.pos = data ++ rest)
    (hn : data.length = n) : s.sread n = .ok (data, { s with pos := s.pos + n }) := by
  have hlen := congrArg List.length hdrop
  rw [List.length_drop, List.length_append] at hlen
  rw [sread, if_pos, hdrop, List.take_left' hn]
  by_cases h0 : n = 0
  · exact .inl h0
  · exact .inr ⟨hr, by omega⟩

theorem sread_length {b : List UInt8} {s' : ElfStream} (h : s.sread n = .ok (b, s')) :
    b.length = n ∧ b = (s.file.drop s.pos).take n ∧ s' = { s with pos := s.pos + n } := by
  rw [sread] at h
  split at h
  · cases h
    refine ⟨?_, rfl, rfl⟩
    rw [List.length_take, List.length_drop]
    omega
  · cases h

end ElfStream

/-! ## Records -/

section

variable {α : Type} {img : Bool → Image α} {swap swap' : α → α} {big : Bool} {s : ElfStream}

/-- A put routine writes the record in the byte order of the file, and leaves the caller's alone. -/
theorem putRecord_eq (hf : Flips img swap) (p own : α) :
    putRecord (img big) swap s p own = (s.swrite ((img (big != s.needswap)).write p), p) := by
  cases hs : s.needswap with
  | false =>
    rw [Bool.bne_false, putRecord, hs]
    rfl
  | true =>
    rw [Bool.bne_true, ← hf.write, putRecord, hs]
    rfl

/-- What is read is swapped to be read in the byte order of the file. -/
theorem read_swapped (hf : Flips img swap) {b : List UInt8} (hb : b.length = (img big).size)
    (needswap : Bool) :
    (if needswap = true then swap ((img big).read b) else (img big).read b) =
      (img (big != needswap)).read b := by
  cases needswap with
  | false =>
    rw [Bool.bne_false]
    rfl
  | true =>
    rw [Bool.bne_true]
    exact hf.read hb

/-- A get routine reads a record in the byte order of the file. -/
theorem getRecord_eq (hf : Flips img swap) :
    getRecord (img big) swap s = (s.sread (img big).size).map fun r =>
      (r.2, (img (big != s.needswap)).read r.1) := by
  rw [getRecord]
  cases hread : s.sread (img big).size with
  | error e => rfl
  | ok r =>
    obtain ⟨b, s'⟩ := r
    obtain ⟨hlen, -, rfl⟩ := ElfStream.sread_length hread
    exact congrArg Except.ok (Prod.ext rfl (read_swapped hf hlen s.needswap))

theorem getRecord_ok (hf : Flips img swap) {r : α} {rest : List UInt8} (hr : s.readable = true)
    (hdrop : s.file.drop s.pos = (img (big != s.needswap)).write r ++ rest) :
    getRecord (img big) swap s = .ok ({ s with pos := s.pos + (img big).size }, r) := by
  have hlen := (img (big != s.needswap)).length_write r
  rw [getRecord_eq hf, ElfStream.sread_ok hr hdrop (hlen.trans (hf.size_eq _ _))]
  exact congrArg Except.ok (Prod.ext rfl (Image.read_write _ r))

/-- The routines for one kind of records agree, whatever the byte orders are. -/
structure RoundTrips (put : ElfStream → α → α → Except ElfError ElfStream × α)
    (get : ElfStream → Except ElfError (ElfStream × α)) : Prop where
  /-- The caller's record stays as it is. -/
  source : ∀ s r own, (put s r own).2 = r
  /-- What was written is read again, from the same place and with the same byte order. -/
  putGet : ∀ s r own, s.writable = true → ∃ s', (put s r own).1 = .ok s' ∧
    ∀ t : ElfStream, t.readable = true → t.file = s'.file → t.pos = s.pos →
      t.needswap = s.needswap → get t = .ok ({ t with pos := s'.pos }, r)
  /-- What was read is written with the bytes that it was read from. -/
  getPut : ∀ t t' r, get t = .ok (t', r) → ∀ (s : ElfStream) own, s.writable = true →
    s.needswap = t.needswap → ∃ s', (put s r own).1 = .ok s' ∧
      s'.pos - s.pos = t'.pos - t.pos ∧
      (s'.file.drop s.pos).take (s'.pos - s.pos) = (t.file.drop t.pos).take (t'.pos - t.pos)

theorem swrite_ok {data : List UInt8} (hw : s.writable = true) :
    s.swrite data = .ok { s with
      file := ElfStream.overwrite s.file s.pos data
      pos := s.pos + data.length } := if_pos hw

theorem records_round_trip (hput : Flips img swap) (hget : Flips img swap') :
    RoundTrips (putRecord (img big) swap) (getRecord (img big) swap') := by
  constructor
  · intro s r own
    rw [putRecord_eq hput]
  · intro s r own hw
    refine ⟨_, by rw [putRecord_eq hput, swrite_ok hw], ?_⟩
    intro t ht hfile hpos hswap
    have hlen := (img (big != s.needswap)).length_write r
    have hdrop : t.file.drop t.pos = (img (big != t.needswap)).write r ++
        s.file.drop (s.pos + ((img (big != s.needswap)).write r).length) := by
      rw [hfile, hpos, hswap]
      exact ElfStream.drop_overwrite _ _ _
    rw [getRecord_ok hget ht hdrop, hpos, hlen, hput.size_eq big (big != s.needswap)]
  · intro t t' r hread s own hw hswap
    rw [getRecord_eq hget] at hread
    cases hb : t.sread (img big).size with
    | error e =>
      rw [hb] at hread
      cases hread
    | ok x =>
      obtain ⟨b, t''⟩ := x
      rw [hb] at hread
      cases hread
      obtain ⟨hlen, hbytes, rfl⟩ := ElfStream.sread_length hb
      have hsize : b.length = (img (big != t.needswap)).size :=
        hlen.trans (hput.size_eq _ _)
      refine ⟨_, by rw [putRecord_eq hput, swrite_ok hw], ?_, ?_⟩
      · rw [hswap, Image.write_read _ b hsize]
        simp [hlen]
      · have hdrop := ElfStream.drop_overwrite s.file s.pos b
        rw [hswap, Image.write_read _ b hsize, hdrop]
        simp [hlen, ← hbytes]

theorem putshdr32_round_trip (big : Bool) : RoundTrips (pmelfPutshdr32 big) (pmelfGetshdr32 big) :=
  records_round_trip Elf32Shdr.flips_put Elf32Shdr.flips_get

theorem putshdr64_round_trip (big : Bool) : RoundTrips (pmelfPutshdr64 big) (pmelfGetshdr64 big) :=
  records_round_trip Elf64Shdr.flips_put Elf64Shdr.flips_get

theorem putsym32_round_trip (big : Bool) : RoundTrips (pmelfPutsym32 big) (pmelfGetsym32 big) :=
  records_round_trip (Elf32Sym.flips fun _ => rfl) (Elf32Sym.flips fun _ => rfl)

theorem putsym64_round_trip (big : Bool) : RoundTrips (pmelfPutsym64 big) (pmelfGetsym64 big) :=
  records_round_trip (Elf64Sym.flips fun _ => rfl) (Elf64Sym.flips fun _ => rfl)

end

/-! ## Headers -/

section

variable {w : Nat}

/-- What a put routine asks of a header. -/
structure ElfEhdr.Accepted (clss : UInt8) (r : ElfEhdr w) : Prop where
  magic : r.e_ident.val.take 4 = ELFMAG
  clss : identAt r.e_ident EI_CLASS = clss
  version : identAt r.e_ident EI_VERSION = EV_CURRENT

/-- What the reader asks of the rest of it. -/
structure ElfEhdr.Consistent (shdrsz phdrsz : Nat) (r : ElfEhdr w) : Prop where
  shentsize : 0 < r.e_shnum.toNat → r.e_shentsize.toNat = shdrsz
  phentsize : 0 < r.e_phnum.toNat → r.e_phentsize.toNat = phdrsz
  shstrndx : 0 < r.e_shnum.toNat → 0 < r.e_shstrndx.toNat ∧ r.e_shstrndx.toNat < r.e_shnum.toNat
  machine : r.e_machine ∈ supportedMachines

theorem checkTop_ok {shdrsz phdrsz : Nat} {r : ElfEhdr w} (h : r.Consistent shdrsz phdrsz) :
    checkTop shdrsz phdrsz r = .ok () := by
  rw [checkTop, if_neg, if_neg, if_neg]
  · intro hbad
    have hndx := h.shstrndx hbad.1
    omega
  · exact fun hbad => hbad.2 (h.phentsize hbad.1)
  · exact fun hbad => hbad.2 (h.shentsize hbad.1)

theorem consistent_of_checkTop {shdrsz phdrsz : Nat} {r : ElfEhdr w}
    (h : checkTop shdrsz phdrsz r = .ok ()) (hmachine : r.e_machine ∈ supportedMachines) :
    r.Consistent shdrsz phdrsz := by
  rw [checkTop] at h
  split at h
  · cases h
  · split at h
    · cases h
    · split at h
      · cases h
      · refine ⟨?_, ?_, ?_, hmachine⟩
        · intro hnum
          by_contra hne
          exact absurd ⟨hnum, hne⟩ ‹¬(0 < r.e_shnum.toNat ∧ _)›
        · intro hnum
          by_contra hne
          exact absurd ⟨hnum, hne⟩ ‹¬(0 < r.e_phnum.toNat ∧ _)›
        · intro hnum
          omega

variable {addr : Bool → Image (BitVec w)} {swap swap' : ElfEhdr w → ElfEhdr w} {big : Bool}
  {s t : ElfStream} {r : ElfEhdr w} {rest : List UInt8} {shdrsz phdrsz : Nat}

/-- The image of a header begins with `e_ident`. -/
theorem ElfEhdr.write_eq (addr : Bool → Image (BitVec w)) (big : Bool) (r : ElfEhdr w) :
    ∃ top, (ElfEhdr.image addr big).write r = r.e_ident.val ++ top := ⟨_, rfl⟩

theorem ElfEhdr.read_ident {ident top : List UInt8} (big : Bool) (hident : ident.length = EI_NIDENT) :
    ((ElfEhdr.image addr big).read (ident ++ top)).e_ident = ⟨ident, hident⟩ := by
  have htake : (ident ++ top).take EI_NIDENT = ident := List.take_left' hident
  change (Image.bytes EI_NIDENT).read ((ident ++ top).take EI_NIDENT) = _
  rw [htake]
  exact dif_pos hident

theorem getehdrTop_eq (hf : Flips (ElfEhdr.image addr) swap) (hr : s.readable = true)
    {top : List UInt8} (hdrop : s.file.drop s.pos = top ++ rest)
    (hwrite : (ElfEhdr.image addr (big != s.needswap)).write r = r.e_ident.val ++ top) :
    getehdrTop (ElfEhdr.image addr big) swap shdrsz phdrsz s r.e_ident =
      (checkTop shdrsz phdrsz r).map fun _ =>
        ({ s with pos := s.pos + ((ElfEhdr.image addr big).size - EI_NIDENT) }, r) := by
  have hsize := hf.size_eq (big != s.needswap) big
  have hlen : (r.e_ident.val ++ top).length = (ElfEhdr.image addr big).size := by
    rw [← hwrite, Image.length_write, hsize]
  have htop : top.length = (ElfEhdr.image addr big).size - EI_NIDENT := by
    rw [List.length_append, r.e_ident.property] at hlen
    omega
  have hread := read_swapped hf hlen s.needswap
  rw [← hwrite, Image.read_write] at hread
  rw [getehdrTop, ElfStream.sread_ok hr hdrop htop]
  change (do
    checkTop shdrsz phdrsz (if s.needswap = true then swap ((ElfEhdr.image addr big).read
      (r.e_ident.val ++ top)) else (ElfEhdr.image addr big).read (r.e_ident.val ++ top))
    return _) = _
  rw [← hwrite, hread]
  cases checkTop shdrsz phdrsz r with
  | error e => rfl
  | ok u => rfl

theorem getehdrTop_inv (hf : Flips (ElfEhdr.image addr) swap) {e_ident : ElfIdent}
    {s' : ElfStream}
    (h : getehdrTop (ElfEhdr.image addr big) swap shdrsz phdrsz s e_ident = .ok (s', r)) :
    r.e_ident = e_ident ∧ checkTop shdrsz phdrsz r = .ok () ∧
      ∃ top rest, s.file.drop s.pos = top ++ rest ∧
        (ElfEhdr.image addr (big != s.needswap)).write r = e_ident.val ++ top := by
  obtain ⟨⟨b, s₁⟩, hb, h⟩ := bind_eq_ok.mp h
  obtain ⟨hlen, hbytes, rfl⟩ := ElfStream.sread_length hb
  obtain ⟨u, hcheck, h⟩ := bind_eq_ok.mp h
  obtain ⟨-, hr⟩ := Prod.mk.inj (Except.ok.inj h)
  have hbig : EI_NIDENT ≤ (ElfEhdr.image addr big).size := by
    obtain ⟨top, htop⟩ := ElfEhdr.write_eq addr big r
    have hlength := (ElfEhdr.image addr big).length_write r
    rw [htop, List.length_append, r.e_ident.property] at hlength
    omega
  have hfull : (e_ident.val ++ b).length = (ElfEhdr.image addr big).size := by
    rw [List.length_append, e_ident.property, hlen]
    omega
  have hread : (ElfEhdr.image addr (big != s.needswap)).read (e_ident.val ++ b) = r :=
    (read_swapped hf hfull s.needswap).symm.trans hr
  refine ⟨?_, ?_, b, s.file.drop (s.pos + b.length), ?_, ?_⟩
  · rw [← hread]
    exact ElfEhdr.read_ident _ e_ident.property
  · rw [← hr]
    exact hcheck
  · rw [← List.drop_drop, hlen, hbytes, List.take_append_drop]
  · rw [← hread, Image.write_read _ _ (hfull.trans (hf.size_eq _ _))]

/-- How `pmelf_getehdr` goes on behind `e_ident`. -/
theorem pmelfGetehdr_ident {e_ident : ElfIdent} (hr : t.readable = true)
    (hfile : t.file = e_ident.val ++ rest) (hmagic : e_ident.val.take 4 = ELFMAG)
    (hversion : identAt e_ident EI_VERSION = EV_CURRENT) :
    pmelfGetehdr big t = (do
      let (s, hdr) ← getehdrClass big { t with
        pos := EI_NIDENT
        needswap := needswapOf big e_ident
        clss := identAt e_ident EI_CLASS } e_ident
      if s.machine ∈ supportedMachines then return (s, hdr) else .error (.machine s.machine)) := by
  have hseek : t.seek 0 = .ok { t with pos := 0 } := if_pos (Nat.two_pow_pos 63)
  have hread : ElfStream.sread { t with pos := 0 } EI_NIDENT =
      .ok (e_ident.val, { t with pos := EI_NIDENT }) :=
    ElfStream.sread_ok hr hfile e_ident.property
  have hident : (Image.bytes EI_NIDENT).read e_ident.val = e_ident := Image.read_write _ e_ident
  rw [pmelfGetehdr, hseek, ok_bind, hread, ok_bind]
  dsimp only
  rw [hident, if_neg (not_not.mpr hmagic), if_neg (not_not.mpr hversion)]

/-- The header reader on files of one class. -/
structure ReadsClass (big : Bool) (clss : UInt8) (addr : Bool → Image (BitVec w))
    (swap : ElfEhdr w → ElfEhdr w) (shdrsz phdrsz : Nat) (wrap : ElfEhdr w → ElfHdr) : Prop where
  forth : ∀ s e_ident, s.clss = clss → getehdrClass big s e_ident = (do
    let (s, r) ← getehdrTop (ElfEhdr.image addr big) swap shdrsz phdrsz s e_ident
    return ({ s with machine := r.e_machine }, wrap r))
  back : ∀ s e_ident s' r, getehdrClass big s e_ident = .ok (s', wrap r) → s.clss = clss
  inj : ∀ r r', wrap r = wrap r' → r = r'

theorem readsClass32 (big : Bool) :
    ReadsClass big ELFCLASS32 word32 Elf32Ehdr.getSwap 40 32 ElfHdr.e32 := by
  refine ⟨fun s e_ident hs => if_pos hs, ?_, fun _ _ => ElfHdr.e32.inj⟩
  intro s e_ident s' r h
  by_contra hs
  rw [getehdrClass, if_neg hs] at h
  split at h
  · obtain ⟨x, -, h⟩ := bind_eq_ok.mp h
    cases h
  · cases h

theorem readsClass64 (big : Bool) :
    ReadsClass big ELFCLASS64 word64 Elf64Ehdr.getSwap 64 56 ElfHdr.e64 := by
  refine ⟨?_, ?_, fun _ _ => ElfHdr.e64.inj⟩
  · intro s e_ident hs
    have hne : s.clss ≠ ELFCLASS32 := by
      rw [hs]
      exact fun h => absurd (congrArg UInt8.toNat h) (Nat.succ_ne_self 1)
    rw [getehdrClass, if_neg hne]
    exact if_pos hs
  · intro s e_ident s' r h
    by_contra hs
    rw [getehdrClass] at h
    split at h
    · obtain ⟨x, -, h⟩ := bind_eq_ok.mp h
      cases h
    · cases h

variable {clss : UInt8} {wrap : ElfEhdr w → ElfHdr}

/-- Reading a file that begins with a header. -/
theorem pmelfGetehdr_eq (hc : ReadsClass big clss addr swap shdrsz phdrsz wrap)
    (hf : Flips (ElfEhdr.image addr) swap) (hacc : r.Accepted clss) (hr : t.readable = true)
    (hfile : t.file =
      (ElfEhdr.image addr (big != needswapOf big r.e_ident)).write r ++ rest) :
    pmelfGetehdr big t = (do
      checkTop shdrsz phdrsz r
      if r.e_machine ∈ supportedMachines then return ({ t with
          pos := EI_NIDENT + ((ElfEhdr.image addr big).size - EI_NIDENT)
          needswap := needswapOf big r.e_ident
          clss := clss
          machine := r.e_machine }, wrap r)
      else .error (.machine r.e_machine)) := by
  obtain ⟨top, htop⟩ := ElfEhdr.write_eq addr (big != needswapOf big r.e_ident) r
  rw [htop, List.append_assoc] at hfile
  have hdrop : t.file.drop EI_NIDENT = top ++ rest := by
    rw [hfile, List.drop_left' r.e_ident.property]
  have hread : getehdrTop (ElfEhdr.image addr big) swap shdrsz phdrsz { t with
      pos := EI_NIDENT
      needswap := needswapOf big r.e_ident
      clss := clss } r.e_ident = _ := getehdrTop_eq hf hr hdrop htop
  rw [pmelfGetehdr_ident hr hfile hacc.magic hacc.version, hacc.clss, hc.forth _ _ rfl, hread]
  cases checkTop shdrsz phdrsz r with
  | error e => rfl
  | ok u => rfl

theorem pmelfGetehdr_inv (hc : ReadsClass big clss addr swap shdrsz phdrsz wrap)
    (hf : Flips (ElfEhdr.image addr) swap) {t' : ElfStream}
    (h : pmelfGetehdr big t = .ok (t', wrap r)) :
    r.Accepted clss ∧ r.Consistent shdrsz phdrsz ∧ ∃ rest, t.file =
      (ElfEhdr.image addr (big != needswapOf big r.e_ident)).write r ++ rest := by
  have hseek : t.seek 0 = .ok { t with pos := 0 } := if_pos (Nat.two_pow_pos 63)
  rw [pmelfGetehdr, hseek, ok_bind] at h
  obtain ⟨⟨b, s₁⟩, hb, h⟩ := bind_eq_ok.mp h
  obtain ⟨hlen, hbytes, rfl⟩ := ElfStream.sread_length hb
  dsimp only at h
  generalize hident : (Image.bytes EI_NIDENT).read b = e_ident at h
  have hval : e_ident.val = b := by
    rw [← hident]
    exact Image.write_read (Image.bytes EI_NIDENT) b hlen
  split at h
  · cases h
  rename_i hmagic
  split at h
  · cases h
  rename_i hversion
  obtain ⟨⟨s₂, hdr⟩, hclass, h⟩ := bind_eq_ok.mp h
  dsimp only at h
  split at h
  · rename_i hmachine
    obtain ⟨rfl, rfl⟩ := Prod.mk.inj (Except.ok.inj h)
    have hclss := hc.back _ _ _ _ hclass
    rw [hc.forth _ _ hclss] at hclass
    obtain ⟨⟨s₃, r₃⟩, htop, hclass⟩ := bind_eq_ok.mp hclass
    obtain ⟨rfl, hwrap⟩ := Prod.mk.inj (Except.ok.inj hclass)
    obtain rfl := hc.inj _ _ hwrap
    obtain ⟨rfl, hcheck, top, rest, hdrop, hwrite⟩ := getehdrTop_inv hf htop
    refine ⟨⟨not_not.mp hmagic, hclss, not_not.mp hversion⟩,
      consistent_of_checkTop hcheck hmachine, rest, ?_⟩
    have hdrop' : t.file.drop EI_NIDENT = top ++ rest := by
      rw [← hdrop, Nat.zero_add]
    rw [hwrite, List.append_assoc, ← hdrop', hval, hbytes, List.drop_zero, List.take_append_drop]
  · cases h

/-- The header routines of one class agree on the headers that the reader accepts. -/
structure HeaderRoundTrips (big : Bool) (clss : UInt8) (size shdrsz phdrsz : Nat)
    (wrap : ElfEhdr w → ElfHdr)
    (put : ElfStream → ElfEhdr w → ElfEhdr w → Except ElfError ElfStream × ElfEhdr w) : Prop where
  source : ∀ s r own, (put s r own).2 = r
  /-- A header at the beginning of a file is read again if it is consistent, and rejected if not. -/
  putGet : ∀ s r own, s.writable = true → s.pos = 0 → r.Accepted clss →
    ∃ s', (put s r own).1 = .ok s' ∧ ∀ t : ElfStream, t.readable = true → t.file = s'.file →
      (r.Consistent shdrsz phdrsz → ∃ t', pmelfGetehdr big t = .ok (t', wrap r)) ∧
      (¬r.Consistent shdrsz phdrsz → ∃ e, pmelfGetehdr big t = .error e)
  getPut : ∀ t t' r, pmelfGetehdr big t = .ok (t', wrap r) → ∀ (s : ElfStream) own,
    s.writable = true → ∃ s', (put s r own).1 = .ok s' ∧
      (s'.file.drop s.pos).take size = t.file.take size

theorem putehdr_eq {other : ElfError} (hf : Flips (ElfEhdr.image addr) swap)
    (hacc : r.Accepted clss) (own : ElfEhdr w) :
    putehdr big clss other (putRecord (ElfEhdr.image addr big) swap) s r own =
      (ElfStream.swrite { s with needswap := needswapOf big r.e_ident }
        ((ElfEhdr.image addr (big != needswapOf big r.e_ident)).write r), r) := by
  rw [putehdr, if_neg (not_not.mpr hacc.magic), if_neg (not_not.mpr hacc.clss),
    if_neg (not_not.mpr hacc.version), putRecord_eq hf]

theorem putehdr_ok {other : ElfError} (hf : Flips (ElfEhdr.image addr) swap)
    (hacc : r.Accepted clss) (own : ElfEhdr w) (hw : s.writable = true) :
    (putehdr big clss other (putRecord (ElfEhdr.image addr big) swap) s r own).1 = .ok { s with
      file := ElfStream.overwrite s.file s.pos
        ((ElfEhdr.image addr (big != needswapOf big r.e_ident)).write r)
      pos := s.pos + ((ElfEhdr.image addr (big != needswapOf big r.e_ident)).write r).length
      needswap := needswapOf big r.e_ident } := by
  rw [putehdr_eq hf hacc]
  exact if_pos hw

theorem putehdr_source {other : ElfError} (hf : Flips (ElfEhdr.image addr) swap) (s : ElfStream)
    (r own : ElfEhdr w) :
    (putehdr big clss other (putRecord (ElfEhdr.image addr big) swap) s r own).2 = r := by
  rw [putehdr]
  split
  · rfl
  · split
    · rfl
    · split
      · rfl
      · rw [putRecord_eq hf]

theorem header_round_trip {other : ElfError} {size : Nat}
    (hc : ReadsClass big clss addr swap' shdrsz phdrsz wrap)
    (hput : Flips (ElfEhdr.image addr) swap) (hget : Flips (ElfEhdr.image addr) swap')
    (himage : (ElfEhdr.image addr big).size = size) :
    HeaderRoundTrips big clss size shdrsz phdrsz wrap
      (putehdr big clss other (putRecord (ElfEhdr.image addr big) swap)) := by
  refine ⟨putehdr_source hput, ?_, ?_⟩
  · intro s r own hw hpos hacc
    refine ⟨_, putehdr_ok hput hacc own hw, ?_⟩
    intro t ht hfile
    have hdrop := ElfStream.drop_overwrite s.file s.pos
      ((ElfEhdr.image addr (big != needswapOf big r.e_ident)).write r)
    rw [hpos, List.drop_zero, ← hpos] at hdrop
    have heq := pmelfGetehdr_eq hc hget hacc ht (hfile.trans hdrop)
    constructor
    · intro hcons
      rw [heq, checkTop_ok hcons, ok_bind, if_pos hcons.machine]
      exact ⟨_, rfl⟩
    · intro hcons
      cases hres : pmelfGetehdr big t with
      | error e => exact ⟨e, rfl⟩
      | ok x =>
        rw [heq] at hres
        obtain ⟨u, hcheck, hres⟩ := bind_eq_ok.mp hres
        split at hres
        · exact absurd (consistent_of_checkTop hcheck ‹_›) hcons
        · cases hres
  · intro t t' r hread s own hw
    obtain ⟨hacc, -, rest, hfile⟩ := pmelfGetehdr_inv hc hget hread
    refine ⟨_, putehdr_ok hput hacc own hw, ?_⟩
    have hsize := ((ElfEhdr.image addr (big != needswapOf big r.e_ident)).length_write r).trans
      ((hput.size_eq _ big).trans himage)
    rw [ElfStream.drop_overwrite, List.take_left' hsize, hfile, List.take_left' hsize]

end

/-- Records of all kinds are read as they were written and written as they were read. -/
theorem codecs_round_trip (big : Bool) :
    RoundTrips (pmelfPutshdr32 big) (pmelfGetshdr32 big) ∧
    RoundTrips (pmelfPutshdr64 big) (pmelfGetshdr64 big) ∧
    RoundTrips (pmelfPutsym32 big) (pmelfGetsym32 big) ∧
    RoundTrips (pmelfPutsym64 big) (pmelfGetsym64 big) ∧
    HeaderRoundTrips big ELFCLASS32 52 40 32 .e32 (pmelfPutehdr32 big) ∧
    HeaderRoundTrips big ELFCLASS64 64 64 56 .e64 (pmelfPutehdr64 big) :=
  ⟨putshdr32_round_trip big, putshdr64_round_trip big, putsym32_round_trip big,
    putsym64_round_trip big,
    header_round_trip (readsClass32 big) Elf32Ehdr.flips_put Elf32Ehdr.flips_get
      (Elf32Ehdr.size_image big),
    header_round_trip (readsClass64 big) Elf64Ehdr.flips_put Elf64Ehdr.flips_get
      (Elf64Ehdr.size_image big)⟩

/-- A header of class 32 for a machine that the reader does not know, with most significant bytes
first. -/
def foreignHeader : Elf32Ehdr where
  e_ident := ⟨[0x7f, 69, 76, 70, 1, 2, 1, 0, 0, 0, 0, 0, 0, 0, 0, 0], rfl⟩
  e_type := 1
  e_machine := 40
  e_version := 1
  e_entry := 0
  e_phoff := 0
  e_shoff := 0
  e_flags := 0
  e_ehsize := 52
  e_phentsize := 0
  e_phnum := 0
  e_shentsize := 0
  e_shnum := 0
  e_shstrndx := 0

theorem foreignHeader_rejected :
    ∃ s, (pmelfPutehdr32 false (pmelfNewstrm [] false true) foreignHeader foreignHeader).1 = .ok s ∧
      pmelfGetehdr false (pmelfNewstrm s.file true false) = .error (.machine 40) := ⟨_, rfl, rfl⟩

end Cexp
