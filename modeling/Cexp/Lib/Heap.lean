import Mathlib.Data.List.Pairwise
import Mathlib.Data.Set.Lattice
import Mathlib.Order.CompletePartialOrder

/-!
# Heaps

A heap is the list of the chunks of memory that are allocated. They are not empty and do not meet,
so an address tells which chunk is freed (`Heap.free_perm`), and what is allocated and freed again
leaves the heap as it was (`Heap.freeAll_perm`). When every chunk belongs to an owner
(`Heap.OwnedBy`), the chunks of different owners do not meet, and an owner that goes leaves the
chunks of the others.
-/

namespace CLib

/-- A piece of memory. -/
structure Chunk where
  addr : Nat
  size : Nat
  deriving DecidableEq

namespace Chunk

def places (c : Chunk) : Set Nat := {a | c.addr ≤ a ∧ a < c.addr + c.size}

def Apart (c d : Chunk) : Prop := c.addr + c.size ≤ d.addr ∨ d.addr + d.size ≤ c.addr

instance (c d : Chunk) : Decidable (c.Apart d) := inferInstanceAs (Decidable (_ ∨ _))

variable {c d : Chunk}

instance : Std.Symm Apart := ⟨fun _ _ => Or.symm⟩

theorem Apart.disjoint (h : c.Apart d) : Disjoint c.places d.places := by
  rw [Set.disjoint_left]
  rintro a ⟨hc, hc'⟩ ⟨hd, hd'⟩
  unfold Apart at h
  omega

theorem Apart.addr_ne (h : c.Apart d) (hc : c.size ≠ 0) (hd : d.size ≠ 0) : c.addr ≠ d.addr := by
  unfold Apart at h
  omega

end Chunk

/-- The chunks that are allocated. -/
structure Heap where
  chunks : List Chunk
  nonempty : ∀ c ∈ chunks, c.size ≠ 0
  apart : chunks.Pairwise Chunk.Apart

namespace Heap

def empty : Heap := ⟨[], List.forall_mem_nil _, .nil⟩

/-- The chunk can be allocated. -/
structure Room (h : Heap) (c : Chunk) : Prop where
  nonempty : c.size ≠ 0
  apart : ∀ d ∈ h.chunks, c.Apart d

instance (h : Heap) (c : Chunk) : Decidable (h.Room c) :=
  decidable_of_iff (c.size ≠ 0 ∧ ∀ d ∈ h.chunks, c.Apart d)
    ⟨fun ⟨hsize, hapart⟩ => ⟨hsize, hapart⟩, fun ⟨hsize, hapart⟩ => ⟨hsize, hapart⟩⟩

def add (h : Heap) (c : Chunk) (hroom : h.Room c) : Heap where
  chunks := c :: h.chunks
  nonempty := List.forall_mem_cons.mpr ⟨hroom.nonempty, h.nonempty⟩
  apart := List.pairwise_cons.mpr ⟨hroom.apart, h.apart⟩

/-- The heap without the chunk at the address. There is no result if there is none. -/
def free (h : Heap) (addr : Nat) : Option Heap :=
  if h.chunks.any fun c => c.addr = addr then
    some {
      chunks := h.chunks.eraseP fun c => c.addr = addr
      nonempty := fun c hc => h.nonempty c (List.mem_of_mem_eraseP hc)
      apart := h.apart.sublist List.eraseP_sublist }
  else none

def freeAll (h : Heap) (addrs : List Nat) : Option Heap := addrs.foldlM free h

variable {h h' : Heap} {c d : Chunk}

/-- The chunk at an address is the only one there. -/
theorem eq_of_addr (hc : c ∈ h.chunks) (hd : d ∈ h.chunks) (haddr : c.addr = d.addr) : c = d := by
  by_contra hne
  have hapart : c.Apart d := h.apart.forall hc hd hne
  exact hapart.addr_ne (h.nonempty c hc) (h.nonempty d hd) haddr

/-- A chunk that is allocated can be freed. -/
theorem free_perm (hc : c ∈ h.chunks) :
    ∃ h', h.free c.addr = some h' ∧ h.chunks.Perm (c :: h'.chunks) := by
  obtain ⟨d, l₁, l₂, -, hd, hchunks, herase⟩ :=
    List.exists_of_eraseP (p := fun d => d.addr = c.addr) hc (decide_eq_true rfl)
  have hsame : d = c := by
    apply eq_of_addr _ hc (of_decide_eq_true hd)
    rw [hchunks]
    exact List.mem_append_right _ List.mem_cons_self
  have hany : (h.chunks.any fun d => d.addr = c.addr) = true :=
    List.any_eq_true.mpr ⟨c, hc, decide_eq_true rfl⟩
  refine ⟨_, if_pos hany, ?_⟩
  show h.chunks.Perm (c :: h.chunks.eraseP _)
  rw [herase, hchunks, hsame]
  exact List.perm_middle

/-- Chunks that are allocated can be freed one after the other. -/
theorem freeAll_perm {cs rest : List Chunk} (hperm : h.chunks.Perm (cs ++ rest)) :
    ∃ h', h.freeAll (cs.map Chunk.addr) = some h' ∧ h'.chunks.Perm rest := by
  induction cs generalizing h with
  | nil => exact ⟨h, rfl, hperm⟩
  | cons c cs ih =>
    obtain ⟨h₁, hfree, hfirst⟩ := free_perm (hperm.mem_iff.mpr List.mem_cons_self)
    obtain ⟨h', hall, hrest⟩ := ih (List.Perm.cons_inv (hfirst.symm.trans hperm))
    refine ⟨h', ?_, hrest⟩
    unfold freeAll at hall ⊢
    rw [List.map_cons, List.foldlM_cons, hfree]
    exact hall

/-! ## Owners -/

/-- Every chunk belongs to one of the owners, who hold nothing else. -/
def OwnedBy {ω : Type*} (h : Heap) (held : ω → List Chunk) (owners : List ω) : Prop :=
  h.chunks.Perm (owners.flatMap held)

variable {ω : Type*} {held : ω → List Chunk} {owners l₁ l₂ : List ω} {o : ω}

theorem ownedBy_single : h.OwnedBy held [o] ↔ h.chunks.Perm (held o) := by
  unfold OwnedBy
  rw [List.flatMap_singleton]

/-- A new owner, who holds what has been allocated. -/
theorem OwnedBy.concat (howned : h.OwnedBy held owners)
    (hnew : h'.chunks.Perm (held o ++ h.chunks)) : h'.OwnedBy held (owners ++ [o]) := by
  unfold OwnedBy at howned ⊢
  rw [List.flatMap_append, List.flatMap_singleton]
  exact hnew.trans ((howned.append_left _).trans List.perm_append_comm)

/-- The chunks of one owner, and those of the others. -/
theorem OwnedBy.perm (howned : h.OwnedBy held (l₁ ++ o :: l₂)) :
    h.chunks.Perm (held o ++ (l₁ ++ l₂).flatMap held) :=
  howned.trans (List.perm_middle.flatMap_right held)

/-- What an owner holds does not meet what another one holds. -/
theorem OwnedBy.apart (howned : h.OwnedBy held owners) :
    owners.Pairwise fun o p => ∀ c ∈ held o, ∀ d ∈ held p, c.Apart d := by
  have hpairwise := (howned.pairwise_iff fun hcd => Std.Symm.symm _ _ hcd).mp h.apart
  exact (List.pairwise_flatMap.mp hpairwise).2

/-- Nor what all others hold. -/
theorem OwnedBy.apart_others (howned : h.OwnedBy held (l₁ ++ o :: l₂)) :
    ∀ p ∈ l₁ ++ l₂, ∀ c ∈ held o, ∀ d ∈ held p, c.Apart d := by
  have hpairwise := (List.pairwise_middle fun hop c hc d hd =>
    Std.Symm.symm _ _ (hop d hd c hc)).mp howned.apart
  exact (List.pairwise_cons.mp hpairwise).1

/-- An owner can give back everything. -/
theorem OwnedBy.release (howned : h.OwnedBy held (l₁ ++ o :: l₂)) :
    ∃ h', h.freeAll ((held o).map Chunk.addr) = some h' ∧ h'.OwnedBy held (l₁ ++ l₂) :=
  freeAll_perm howned.perm

end Heap

end CLib
