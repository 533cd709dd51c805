import Mathlib.Data.List.Basic
import Mathlib.Tactic.Ring

/-!
# Images of records

A record of fixed size has an image, a list of bytes of that length, from which it can be read
again. Images of words are in one of the two byte orders; images of records are put together from
those of the fields. A function that reverses the bytes of words takes the image in one order to the
image in the other (`Image.Flips`), field by field.
-/

namespace CLib

/-! ## Bytes of words -/

/-- The lowest `n` bytes, the lowest one first. -/
def leBytes : Nat → Nat → List UInt8
  | 0, _ => []
  | n + 1, x => UInt8.ofNat x :: leBytes n (x / 256)

def ofLE : List UInt8 → Nat
  | [] => 0
  | b :: l => b.toNat + 256 * ofLE l

theorem leBytes_length (n x : Nat) : (leBytes n x).length = n := by
  induction n generalizing x with
  | zero => rfl
  | succ n ih => rw [leBytes, List.length_cons, ih]

theorem ofLE_lt (l : List UInt8) : ofLE l < 256 ^ l.length := by
  induction l with
  | nil => exact Nat.one_pos
  | cons b l ih =>
    have hb := b.toNat_lt
    rw [ofLE, List.length_cons, Nat.pow_succ]
    omega

theorem ofLE_leBytes {n x : Nat} (hx : x < 256 ^ n) : ofLE (leBytes n x) = x := by
  induction n generalizing x with
  | zero =>
    rw [Nat.pow_zero] at hx
    rw [leBytes, ofLE]
    omega
  | succ n ih =>
    rw [Nat.pow_succ] at hx
    have hrest : x / 256 < 256 ^ n := by omega
    have hmod : x % 256 + 256 * (x / 256) = x := Nat.mod_add_div x 256
    rw [leBytes, ofLE, ih hrest, UInt8.toNat_ofNat']
    exact hmod

theorem leBytes_ofLE (l : List UInt8) : leBytes l.length (ofLE l) = l := by
  induction l with
  | nil => rfl
  | cons b l ih =>
    have hb := b.toNat_lt
    have hlow : UInt8.ofNat (b.toNat + 256 * ofLE l) = b := by
      apply UInt8.toNat_inj.mp
      rw [UInt8.toNat_ofNat']
      omega
    have hhigh : (b.toNat + 256 * ofLE l) / 256 = ofLE l := by omega
    rw [List.length_cons, leBytes, ofLE, hlow, hhigh, ih]

/-- `f` reverses the bytes of words of `n` bytes. -/
def Reverses (n : Nat) (f : Nat → Nat) : Prop := ∀ l, l.length = n → f (ofLE l) = ofLE l.reverse

theorem Reverses.leBytes {n x : Nat} {f : Nat → Nat} (hf : Reverses n f) (hx : x < 256 ^ n) :
    leBytes n (f x) = (leBytes n x).reverse := by
  have hlen := leBytes_length n x
  have hrev := leBytes_ofLE (CLib.leBytes n x).reverse
  rw [List.length_reverse, hlen, ← hf _ hlen, ofLE_leBytes hx] at hrev
  exact hrev

theorem Reverses.lt {n x : Nat} {f : Nat → Nat} (hf : Reverses n f) (hx : x < 256 ^ n) :
    f x < 256 ^ n := by
  have hlen := leBytes_length n x
  have hlt := ofLE_lt (CLib.leBytes n x).reverse
  rw [List.length_reverse, hlen, ← hf _ hlen, ofLE_leBytes hx] at hlt
  exact hlt

theorem ofLE_append (l₁ l₂ : List UInt8) :
    ofLE (l₁ ++ l₂) = ofLE l₁ + 256 ^ l₁.length * ofLE l₂ := by
  induction l₁ with
  | nil => simp [ofLE]
  | cons b l ih =>
    rw [List.cons_append, ofLE, ofLE, ih, List.length_cons, Nat.pow_succ]
    ring

/-- Words of twice the size: the reversed halves change places. -/
theorem reverses_halves {n : Nat} {f g : Nat → Nat} (hf : Reverses n f)
    (hg : ∀ lo hi, lo < 256 ^ n → hi < 256 ^ n → g (lo + 256 ^ n * hi) = f hi + 256 ^ n * f lo) :
    Reverses (2 * n) g := by
  intro l hl
  have hlo : (l.take n).length = n := by
    rw [List.length_take, hl]
    omega
  have hhi : (l.drop n).length = n := by
    rw [List.length_drop, hl]
    omega
  have hltlo := ofLE_lt (l.take n)
  have hlthi := ofLE_lt (l.drop n)
  rw [hlo] at hltlo
  rw [hhi] at hlthi
  have hsplit := ofLE_append (l.take n) (l.drop n)
  rw [List.take_append_drop, hlo] at hsplit
  have hrev : l.reverse = (l.drop n).reverse ++ (l.take n).reverse := by
    rw [← List.reverse_append, List.take_append_drop]
  rw [hsplit, hg _ _ hltlo hlthi, hf _ hlo, hf _ hhi, hrev, ofLE_append, List.length_reverse, hhi]

/-! ## Images -/

/-- How values of a type are written as a fixed number of bytes. -/
structure Image (α : Type) where
  size : Nat
  write : α → List UInt8
  read : List UInt8 → α
  length_write : ∀ a, (write a).length = size
  read_write : ∀ a, read (write a) = a
  write_read : ∀ l, l.length = size → write (read l) = l

namespace Image

variable {α β : Type}

/-- Bytes in the order of words with the highest byte first, or last. -/
def ordered (big : Bool) (l : List UInt8) : List UInt8 := if big then l.reverse else l

theorem ordered_length (big : Bool) (l : List UInt8) : (ordered big l).length = l.length := by
  cases big
  · rfl
  · exact List.length_reverse

theorem ordered_ordered (big : Bool) (l : List UInt8) : ordered big (ordered big l) = l := by
  cases big
  · rfl
  · exact List.reverse_reverse l

theorem ordered_reverse (big : Bool) (l : List UInt8) : ordered big l.reverse = ordered (!big) l := by
  cases big
  · rfl
  · exact List.reverse_reverse l

theorem two_pow_eq {w : Nat} (hw : 8 ∣ w) : 2 ^ w = 256 ^ (w / 8) := by
  obtain ⟨n, rfl⟩ := hw
  rw [Nat.mul_div_cancel_left n (Nat.succ_pos 7), Nat.pow_mul]

/-- Words of whole bytes. -/
def word (big : Bool) (w : Nat) (hw : 8 ∣ w) : Image (BitVec w) where
  size := w / 8
  write v := ordered big (leBytes (w / 8) v.toNat)
  read l := BitVec.ofNat w (ofLE (ordered big l))
  length_write v := by rw [ordered_length, leBytes_length]
  read_write v := by
    rw [ordered_ordered, ofLE_leBytes (two_pow_eq hw ▸ v.isLt), BitVec.ofNat_toNat,
      BitVec.setWidth_eq]
  write_read l hl := by
    have hlen : (ordered big l).length = w / 8 := (ordered_length big l).trans hl
    have hlt := ofLE_lt (ordered big l)
    rw [hlen, ← two_pow_eq hw] at hlt
    rw [BitVec.toNat_ofNat, Nat.mod_eq_of_lt hlt, ← hlen, leBytes_ofLE, ordered_ordered]

/-- A byte. -/
def u8 : Image UInt8 where
  size := 1
  write b := [b]
  read l := l.headD 0
  length_write _ := rfl
  read_write _ := rfl
  write_read l hl := by
    obtain ⟨b, rfl⟩ := List.length_eq_one_iff.mp hl
    rfl

/-- An array of bytes. -/
def bytes (n : Nat) : Image {l : List UInt8 // l.length = n} where
  size := n
  write a := a.val
  read l := if hl : l.length = n then ⟨l, hl⟩ else ⟨List.replicate n 0, List.length_replicate⟩
  length_write a := a.property
  read_write a := dif_pos a.property
  write_read l hl := by rw [dif_pos hl]

/-- Two fields, one behind the other. -/
def prod (p : Image α) (q : Image β) : Image (α × β) where
  size := p.size + q.size
  write a := p.write a.1 ++ q.write a.2
  read l := (p.read (l.take p.size), q.read (l.drop p.size))
  length_write a := by rw [List.length_append, p.length_write, q.length_write]
  read_write a := by
    have hlen := p.length_write a.1
    rw [List.take_left' hlen, List.drop_left' hlen, p.read_write, q.read_write]
  write_read l hl := by
    have htake : (l.take p.size).length = p.size := by
      rw [List.length_take, hl]
      omega
    have hdrop : (l.drop p.size).length = q.size := by
      rw [List.length_drop, hl]
      omega
    rw [p.write_read _ htake, q.write_read _ hdrop, List.take_append_drop]

/-- The fields of a structure. -/
def map (p : Image α) (f : α → β) (g : β → α) (hfg : ∀ b, f (g b) = b) (hgf : ∀ a, g (f a) = a) :
    Image β where
  size := p.size
  write b := p.write (g b)
  read l := f (p.read l)
  length_write b := p.length_write (g b)
  read_write b := by rw [p.read_write, hfg]
  write_read l hl := by rw [hgf, p.write_read l hl]

@[simp] theorem size_word (big : Bool) (w : Nat) (hw : 8 ∣ w) : (word big w hw).size = w / 8 := rfl

@[simp] theorem size_u8 : u8.size = 1 := rfl

@[simp] theorem size_bytes (n : Nat) : (bytes n).size = n := rfl

@[simp] theorem size_prod (p : Image α) (q : Image β) : (p.prod q).size = p.size + q.size := rfl

@[simp] theorem size_map (p : Image α) (f : α → β) (g : β → α) (hfg : ∀ b, f (g b) = b)
    (hgf : ∀ a, g (f a) = a) : (p.map f g hfg hgf).size = p.size := rfl

/-! ## The two byte orders -/

/-- A function on numbers, for words. -/
def onWord {w : Nat} (f : Nat → Nat) (v : BitVec w) : BitVec w := BitVec.ofNat w (f v.toNat)

/-- The images in the two byte orders, highest byte first for `true`, are exchanged by `swap`. -/
structure Flips (img : Bool → Image α) (swap : α → α) : Prop where
  size : ∀ big, (img big).size = (img false).size
  write : ∀ big a, (img big).write (swap a) = (img !big).write a

namespace Flips

variable {img : Bool → Image α} {img' : Bool → Image β} {swap : α → α} {swap' : β → β}

theorem size_eq (h : Flips img swap) (big big' : Bool) : (img big).size = (img big').size :=
  (h.size big).trans (h.size big').symm

theorem read (h : Flips img swap) {big : Bool} {l : List UInt8} (hl : l.length = (img big).size) :
    swap ((img big).read l) = (img !big).read l := by
  have hswap := h.write (!big) ((img big).read l)
  rw [Bool.not_not, (img big).write_read l hl] at hswap
  rw [← (img !big).read_write (swap _), hswap]

theorem word {w : Nat} {f : Nat → Nat} (hw : 8 ∣ w) (hf : Reverses (w / 8) f) :
    Flips (fun big => Image.word big w hw) (onWord f) := by
  refine ⟨fun _ => rfl, ?_⟩
  intro big v
  have hv : v.toNat < 256 ^ (w / 8) := two_pow_eq hw ▸ v.isLt
  have hlt : f v.toNat < 2 ^ w := two_pow_eq hw ▸ hf.lt hv
  change ordered big (leBytes (w / 8) (BitVec.ofNat w (f v.toNat)).toNat) =
    ordered (!big) (leBytes (w / 8) v.toNat)
  rw [BitVec.toNat_ofNat, Nat.mod_eq_of_lt hlt, hf.leBytes hv, ordered_reverse]

/-- Bytes have one image. -/
theorem const (p : Image α) : Flips (fun _ => p) id := ⟨fun _ => rfl, fun _ _ => rfl⟩

theorem prod (h : Flips img swap) (h' : Flips img' swap') :
    Flips (fun big => (img big).prod (img' big)) (Prod.map swap swap') := by
  constructor
  · intro big
    exact congrArg₂ (· + ·) (h.size big) (h'.size big)
  · intro big a
    exact congrArg₂ (· ++ ·) (h.write big a.1) (h'.write big a.2)

theorem map {f : α → β} {g : β → α} {hfg : ∀ b, f (g b) = b} {hgf : ∀ a, g (f a) = a}
    (h : Flips img swap) (hswap : ∀ b, g (swap' b) = swap (g b)) :
    Flips (fun big => (img big).map f g hfg hgf) swap' := by
  refine ⟨h.size, ?_⟩
  intro big b
  change (img big).write (g (swap' b)) = (img !big).write (g b)
  rw [hswap, h.write]

end Flips

/-! ## Tables of records -/

theorem length_table (img : Image α) (l : List α) :
    (l.flatMap img.write).length = l.length * img.size := by
  induction l with
  | nil => exact (Nat.zero_mul img.size).symm
  | cons a l ih =>
    rw [List.flatMap_cons, List.length_append, img.length_write, ih, List.length_cons, Nat.succ_mul,
      Nat.add_comm]

theorem drop_table (img : Image α) (l : List α) (n : Nat) :
    (l.flatMap img.write).drop (n * img.size) = (l.drop n).flatMap img.write := by
  induction n generalizing l with
  | zero => rw [Nat.zero_mul, List.drop_zero, List.drop_zero]
  | succ n ih =>
    cases l with
    | nil => rw [List.flatMap_nil, List.drop_nil, List.drop_nil, List.flatMap_nil]
    | cons a l =>
      rw [Nat.succ_mul, Nat.add_comm, ← List.drop_drop, List.flatMap_cons,
        List.drop_left' (img.length_write a), ih, List.drop_succ_cons]

/-- A record is found at its place. -/
theorem take_drop_table (img : Image α) {l : List α} {n : Nat} {a : α} (h : l[n]? = some a) :
    ((l.flatMap img.write).drop (n * img.size)).take img.size = img.write a := by
  obtain ⟨hn, rfl⟩ := List.getElem?_eq_some_iff.mp h
  rw [img.drop_table, List.drop_eq_getElem_cons hn, List.flatMap_cons,
    List.take_left' (img.length_write _)]

/-- The records of a table of `n` records. -/
def readTable (img : Image α) : Nat → List UInt8 → List α
  | 0, _ => []
  | n + 1, l => img.read (l.take img.size) :: readTable img n (l.drop img.size)

/-- A loop over the `n` records of a table that replaces each one by its value under `f`. -/
def modifyTable (img : Image α) (f : α → α) : Nat → List UInt8 → List UInt8
  | 0, l => l
  | n + 1, l => img.write (f (img.read (l.take img.size))) ++
      modifyTable img f n (l.drop img.size)

theorem readTable_table (img : Image α) (l : List α) :
    img.readTable l.length (l.flatMap img.write) = l := by
  induction l with
  | nil => rfl
  | cons a l ih =>
    rw [List.length_cons, List.flatMap_cons, readTable, List.take_left' (img.length_write a),
      List.drop_left' (img.length_write a), img.read_write, ih]

theorem length_readTable (img : Image α) (n : Nat) (l : List UInt8) :
    (img.readTable n l).length = n := by
  induction n generalizing l with
  | zero => rfl
  | succ n ih => rw [readTable, List.length_cons, ih]

/-- Bytes are a table of records. -/
theorem table_readTable (img : Image α) {n : Nat} {l : List UInt8} (hl : l.length = n * img.size) :
    (img.readTable n l).flatMap img.write = l := by
  induction n generalizing l with
  | zero =>
    rw [Nat.zero_mul] at hl
    rw [List.length_eq_zero_iff.mp hl]
    rfl
  | succ n ih =>
    rw [Nat.succ_mul] at hl
    have htake : (l.take img.size).length = img.size := by
      rw [List.length_take]
      omega
    have hdrop : (l.drop img.size).length = n * img.size := by
      rw [List.length_drop]
      omega
    rw [readTable, List.flatMap_cons, img.write_read _ htake, ih hdrop, List.take_append_drop]

/-- The record at a position of a file. -/
def recordAt (img : Image α) (file : List UInt8) (pos : Nat) : α :=
  img.read ((file.drop pos).take img.size)

theorem recordAt_append (img : Image α) (pos n : Nat) (file : List UInt8) :
    img.recordAt file (pos + n) = img.recordAt (file.drop pos) n := by
  unfold recordAt
  rw [List.drop_drop]

/-- A record inside of a part of a file. -/
theorem recordAt_take (img : Image α) {n size : Nat} (file : List UInt8) (h : n + img.size ≤ size) :
    img.recordAt (file.take size) n = img.recordAt file n := by
  unfold recordAt
  rw [List.drop_take, List.take_take, Nat.min_eq_left (by omega)]

theorem table_inj (img : Image α) {l l' : List α} (hlen : l.length = l'.length)
    (h : l.flatMap img.write = l'.flatMap img.write) : l = l' := by
  rw [← img.readTable_table l, h, hlen, img.readTable_table]

theorem modifyTable_table (img : Image α) (f : α → α) (l : List α) :
    img.modifyTable f l.length (l.flatMap img.write) = (l.map f).flatMap img.write := by
  induction l with
  | nil => rfl
  | cons a l ih =>
    rw [List.length_cons, List.flatMap_cons, modifyTable, List.take_left' (img.length_write a),
      List.drop_left' (img.length_write a), img.read_write, ih, List.map_cons, List.flatMap_cons]

theorem length_modifyTable (img : Image α) (f : α → α) {n : Nat} {l : List UInt8}
    (hl : n * img.size ≤ l.length) : (img.modifyTable f n l).length = l.length := by
  induction n generalizing l with
  | zero => rfl
  | succ n ih =>
    rw [Nat.succ_mul] at hl
    have hdrop : n * img.size ≤ (l.drop img.size).length := by
      rw [List.length_drop]
      omega
    rw [modifyTable, List.length_append, img.length_write, ih hdrop, List.length_drop]
    omega

/-- The loop keeps a table exactly if it keeps every record. -/
theorem modifyTable_eq_self (img : Image α) (f : α → α) {n : Nat} {l : List UInt8}
    (hl : l.length = n * img.size) :
    img.modifyTable f n l = l ↔ ∀ a ∈ img.readTable n l, f a = a := by
  have htable := img.table_readTable hl
  have hrun := img.modifyTable_table f (img.readTable n l)
  rw [length_readTable, htable] at hrun
  have hmap : ((img.readTable n l).map f).flatMap img.write = l ↔
      (img.readTable n l).map f = (img.readTable n l).map id := by
    rw [List.map_id]
    constructor
    · intro h
      exact img.table_inj (List.length_map _) (h.trans htable.symm)
    · intro h
      rw [h, htable]
  rw [hrun, hmap, List.map_inj_left]
  rfl

section

variable {img : Bool → Image α} {swap : α → α}

theorem Flips.table (h : Flips img swap) (big : Bool) (l : List α) :
    (l.map swap).flatMap (img big).write = l.flatMap (img !big).write := by
  rw [List.flatMap_map]
  exact List.flatMap_congr fun a _ => h.write big a

/-- Swapping all records of a table changes its byte order. -/
theorem Flips.modifyTable (h : Flips img swap) (big : Bool) (l : List α) :
    (img big).modifyTable swap l.length (l.flatMap (img !big).write) =
      l.flatMap (img big).write := by
  have hrun := (img big).modifyTable_table swap (l.map swap)
  rw [List.length_map, h.table, h.table, h.table, Bool.not_not] at hrun
  exact hrun

end

end Image

end CLib
