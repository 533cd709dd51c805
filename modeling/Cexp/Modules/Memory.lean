import Cexp.Linker.Load

/-!
# The memory of all modules

Loads and unloads, one after the other. In every run the heap has the segments of the modules that
are loaded and what it had at first: nothing is lost when a load fails or a module is unloaded, and
nothing is freed twice. The first module is the system module and has no segments. Each of the
others still has the image that its load has made, in memory of its own, and can be unloaded
(`loads_own_memory`).

The heap is that of the segments; what a module does with its own memory is not part of a run.
-/

namespace Cexp

open CLib

variable {w : Nat}

/-! ## Runs -/

/-- A module in memory, with the memory as its load has left it. -/
structure MemModule (w : Nat) where
  file : LinkedFile w
  segs : Nat → CexpSegment w
  image : ByteMem

structure MemState (w : Nat) where
  heap : Heap
  mem : ByteMem
  mods : List (MemModule w)

inductive MemAct (w : Nat) where
  | load (f : LinkedFile w)
  | unload (i : Nat)

section

variable (source : SegmentSource w) (layout : SegmentLayout w)

/-- What `cexpModuleLoad` and `cexpModuleUnload` do with the memory. A file has been linked against
the modules that are there. The system module is not unloaded; the segments of another one are
cleared before they are freed. -/
def memStep (s : MemState w) : MemAct w → Option (MemState w)
  | .load f =>
    if f.modules.length = s.mods.length then
      (loadFile source layout f s.heap s.mem).map fun out =>
        { heap := out.heap
          mem := out.mem
          mods := if out.loaded then s.mods ++ [⟨f, out.segs, out.mem⟩] else s.mods }
    else none
  | .unload 0 => some s
  | .unload (i + 1) =>
    match s.mods[i + 1]? with
    | none => some s
    | some m => (cexpSegsDelete m.segs layout.nsegs s.heap).map fun h =>
      { heap := h
        mem := memsetSegs m.segs layout.nsegs 0 s.mem
        mods := s.mods.eraseIdx (i + 1) }

def runMem (s : MemState w) (acts : List (MemAct w)) : Option (MemState w) :=
  acts.foldlM (memStep source layout) s

end

/-- What a module holds, and what the heap had at first. -/
def ownerChunks (layout : SegmentLayout w) (h : Heap) : Option (MemModule w) → List Chunk
  | none => h.chunks
  | some m => heldChunks m.segs (List.range layout.nsegs)

/-- The heap has the segments of the modules and what it had at first, and nobody has lost
anything. -/
structure MemOk (layout : SegmentLayout w) (s₀ s : MemState w) : Prop where
  owned : s.heap.OwnedBy (ownerChunks layout s₀.heap) (none :: s.mods.map some)
  images : ∀ m ∈ s.mods, ∃ mem, LoadImage layout m.file m.segs mem m.image
  system : ∀ m ∈ s.mods.head?, heldChunks m.segs (List.range layout.nsegs) = []
  kept : ∀ m ∈ s.mods, Set.EqOn s.mem m.image (segPlaces m.segs layout.nsegs)
  others : ∀ c ∈ s₀.heap.chunks, Set.EqOn s.mem s₀.mem c.places

section

variable {source : SegmentSource w} {layout : SegmentLayout w} {s₀ s s' : MemState w}
  {acts : List (MemAct w)}

theorem memOk_init (hmods : s₀.mods = []) : MemOk layout s₀ s₀ where
  owned := by
    rw [hmods, List.map_nil, Heap.ownedBy_single]
    exact .refl _
  images m hm := by
    rw [hmods] at hm
    cases hm
  system m hm := by
    rw [hmods] at hm
    cases hm
  kept m hm := by
    rw [hmods] at hm
    cases hm
  others _ _ := Set.eqOn_refl _ _

namespace MemOk

theorem first_mem (hok : MemOk layout s₀ s) {c : Chunk} (hc : c ∈ s₀.heap.chunks) :
    c ∈ s.heap.chunks :=
  hok.owned.mem_iff.mpr (List.mem_flatMap.mpr ⟨none, List.mem_cons_self, hc⟩)

theorem held_mem (hok : MemOk layout s₀ s) {m : MemModule w} (hm : m ∈ s.mods) {c : Chunk}
    (hc : c ∈ heldChunks m.segs (List.range layout.nsegs)) : c ∈ s.heap.chunks := by
  refine hok.owned.mem_iff.mpr (List.mem_flatMap.mpr ⟨some m, ?_, hc⟩)
  exact List.mem_cons_of_mem none (List.mem_map_of_mem hm)

/-- A load that leaves the chunks of the heap alone leaves the modules alone. -/
theorem kept_load (hok : MemOk layout s₀ s) {mem : ByteMem}
    (hkept : ∀ c ∈ s.heap.chunks, Set.EqOn mem s.mem c.places) {m : MemModule w}
    (hm : m ∈ s.mods) : Set.EqOn mem m.image (segPlaces m.segs layout.nsegs) := by
  intro a ha
  obtain ⟨c, hc, hac⟩ := ha
  exact (hkept c (hok.held_mem hm hc) hac).trans (hok.kept m hm ⟨c, hc, hac⟩)

theorem load (hlong : 32 ≤ w) (hw : w ≤ 64) (hok : MemOk layout s₀ s) {f : LinkedFile w}
    (hplace : f.modules ≠ [] → f.Placeable layout)
    (hstep : memStep source layout s (.load f) = some s') : MemOk layout s₀ s' := by
  obtain ⟨hlength, hstep⟩ := Option.ite_none_right_eq_some.mp hstep
  obtain ⟨out, hrun, rfl⟩ := Option.map_eq_some_iff.mp hstep
  obtain ⟨hkept, hcases⟩ := loadFile_cases hlong hw hplace hrun
  have hothers : ∀ c ∈ s₀.heap.chunks, Set.EqOn out.mem s₀.mem c.places := fun c hc =>
    (hkept c (hok.first_mem hc)).trans (hok.others c hc)
  rcases hcases with ⟨hfailed, hheap⟩ | ⟨hloaded, hheld, himage⟩
  · rw [hfailed]
    exact ⟨hheap.trans hok.owned, hok.images, hok.system, fun m hm => hok.kept_load hkept hm,
      hothers⟩
  · rw [if_pos hloaded]
    refine ⟨?_, ?_, ?_, ?_, hothers⟩
    · have howned := hok.owned.concat (o := some ⟨f, out.segs, out.mem⟩) hheld.heap
      rw [List.map_append]
      exact howned
    · intro m hm
      rcases List.mem_append.mp hm with hm | hm
      · exact hok.images m hm
      · rw [List.mem_singleton.mp hm]
        exact ⟨s.mem, himage⟩
    · intro m hm
      cases hmods : s.mods with
      | nil =>
        rw [hmods, List.nil_append] at hm
        cases hm
        rw [hmods, List.length_nil, List.length_eq_zero_iff] at hlength
        exact himage.system hlength
      | cons m' ms =>
        rw [hmods] at hm
        cases hm
        exact hok.system m (by rw [hmods]; rfl)
    · intro m hm
      rcases List.mem_append.mp hm with hm | hm
      · exact hok.kept_load hkept hm
      · rw [List.mem_singleton.mp hm]
        exact Set.eqOn_refl _ _

/-- The segments of a module can be deleted, and then the heap has those of the others. -/
theorem unload (source : SegmentSource w) (hok : MemOk layout s₀ s) (i : Nat) :
    ∃ s', memStep source layout s (.unload i) = some s' ∧
      (0 < i → s'.mods = s.mods.eraseIdx i) ∧ MemOk layout s₀ s' := by
  cases i with
  | zero => exact ⟨s, rfl, fun h => absurd h (Nat.lt_irrefl 0), hok⟩
  | succ i =>
  unfold memStep
  dsimp only
  cases hm : s.mods[i + 1]? with
  | none =>
    have hlength := List.getElem?_eq_none_iff.mp hm
    exact ⟨s, rfl, fun _ => (List.eraseIdx_of_length_le hlength).symm, hok⟩
  | some m =>
    obtain ⟨hi, hget⟩ := List.getElem?_eq_some_iff.mp hm
    have hmods : s.mods = s.mods.take (i + 1) ++ m :: s.mods.drop (i + 1 + 1) := by
      rw [← hget, List.getElem_cons_drop, List.take_append_drop]
    have herase : s.mods.eraseIdx (i + 1) =
        s.mods.take (i + 1) ++ s.mods.drop (i + 1 + 1) := List.eraseIdx_eq_take_drop_succ ..
    have howned : s.heap.OwnedBy (ownerChunks layout s₀.heap)
        ((none :: (s.mods.take (i + 1)).map some) ++
          some m :: (s.mods.drop (i + 1 + 1)).map some) := by
      have hall := hok.owned
      rw [hmods, List.map_append] at hall
      exact hall
    obtain ⟨h', hfree, hrest⟩ := howned.release
    -- what is cleared belongs to nobody else
    have hcleared : ∀ o ∈ (none :: (s.mods.take (i + 1)).map some) ++
        (s.mods.drop (i + 1 + 1)).map some, ∀ c ∈ ownerChunks layout s₀.heap o,
          Set.EqOn (memsetSegs m.segs layout.nsegs 0 s.mem) s.mem c.places := by
      intro o ho c hc a hac
      refine memsetSegs_outside m.segs layout.nsegs 0 s.mem ?_
      rintro ⟨d, hd, had⟩
      exact Set.disjoint_left.mp (howned.apart_others o ho d hd c hc).disjoint had hac
    refine ⟨⟨h', memsetSegs m.segs layout.nsegs 0 s.mem, s.mods.eraseIdx (i + 1)⟩, ?_, fun _ => rfl,
      ?_⟩
    · have hdelete : cexpSegsDelete m.segs layout.nsegs s.heap = some h' := hfree
      dsimp only
      rw [hdelete, Option.map_some]
    · have hsub : ∀ m ∈ s.mods.eraseIdx (i + 1), m ∈ s.mods :=
        fun m hm => List.mem_of_mem_eraseIdx hm
      refine ⟨?_, fun m hm => hok.images m (hsub m hm), ?_, fun m' hm' => ?_, fun c hc => ?_⟩
      · dsimp only
        rw [herase, List.map_append]
        exact hrest
      · intro m' hm'
        apply hok.system m'
        have hhead := List.head?_eq_getElem? ▸ hm'
        dsimp only at hhead
        rw [List.getElem?_eraseIdx_of_lt (Nat.succ_pos i)] at hhead
        rw [List.head?_eq_getElem?]
        exact hhead
      · have hrest' : some m' ∈ (s.mods.take (i + 1)).map some ++
            (s.mods.drop (i + 1 + 1)).map some := by
          rw [← List.map_append, ← herase]
          exact List.mem_map_of_mem hm'
        rintro a ⟨c, hc, hac⟩
        exact (hcleared (some m') (List.mem_cons_of_mem none hrest') c hc hac).trans
          (hok.kept m' (hsub m' hm') ⟨c, hc, hac⟩)
      · exact (hcleared none List.mem_cons_self c hc).trans (hok.others c hc)

theorem step (hlong : 32 ≤ w) (hw : w ≤ 64) (hok : MemOk layout s₀ s) {act : MemAct w}
    (hplace : ∀ f, act = .load f → f.modules ≠ [] → f.Placeable layout)
    (hstep : memStep source layout s act = some s') : MemOk layout s₀ s' := by
  cases act with
  | load f => exact hok.load hlong hw (hplace f rfl) hstep
  | unload i =>
    obtain ⟨s'', hstep', -, hok'⟩ := hok.unload source i
    rw [hstep] at hstep'
    cases hstep'
    exact hok'

/-- No module has memory of another one. -/
theorem apart (hok : MemOk layout s₀ s) : s.mods.Pairwise fun m m' =>
    Disjoint (segPlaces m.segs layout.nsegs) (segPlaces m'.segs layout.nsegs) := by
  have hpairwise := List.pairwise_map.mp (List.pairwise_cons.mp hok.owned.apart).2
  apply hpairwise.imp
  intro m m' hchunks
  rw [Set.disjoint_left]
  rintro a ⟨c, hc, hac⟩ ⟨d, hd, had⟩
  exact Set.disjoint_left.mp (hchunks c hc d hd).disjoint hac had

/-- When only the system module is left, the heap is as it was at first. -/
theorem empty (hok : MemOk layout s₀ s) (hmods : s.mods.length ≤ 1) :
    s.heap.chunks.Perm s₀.heap.chunks := by
  have howned := hok.owned
  match hs : s.mods with
  | [] =>
    rw [hs, List.map_nil, Heap.ownedBy_single] at howned
    exact howned
  | [m] =>
    have hnone : ownerChunks layout s₀.heap (some m) = [] := hok.system m (by rw [hs]; rfl)
    rw [hs] at howned
    unfold Heap.OwnedBy at howned
    rw [List.map_cons, List.map_nil, List.flatMap_cons, List.flatMap_cons, List.flatMap_nil, hnone,
      List.append_nil, List.append_nil] at howned
    exact howned
  | m :: m' :: ms =>
    rw [hs, List.length_cons, List.length_cons] at hmods
    omega

end MemOk

/-- What holds of the memory in every run. -/
theorem runMem_memOk (hlong : 32 ≤ w) (hw : w ≤ 64) (hmods : s₀.mods = [])
    (hplace : ∀ f, .load f ∈ acts → f.modules ≠ [] → f.Placeable layout)
    (hrun : runMem source layout s₀ acts = some s) : MemOk layout s₀ s := by
  have hall : ∀ s₁, MemOk layout s₀ s₁ → runMem source layout s₁ acts = some s →
      MemOk layout s₀ s := by
    clear hrun
    induction acts with
    | nil =>
      intro s₁ hok hrun
      cases hrun
      exact hok
    | cons act acts ih =>
      intro s₁ hok hrun
      unfold runMem at hrun
      rw [List.foldlM_cons] at hrun
      obtain ⟨s₂, hstep, hrest⟩ := Option.bind_eq_some_iff.mp hrun
      have hhead : ∀ f, act = .load f → f.modules ≠ [] → f.Placeable layout := by
        rintro f rfl
        exact hplace f List.mem_cons_self
      exact ih (fun f hf => hplace f (List.mem_cons_of_mem act hf)) s₂
        (hok.step hlong hw hhead hstep) hrest
  exact hall s₀ (memOk_init hmods) hrun

/-- In every run of loads and unloads each module has its image in memory of its own, and can be
unloaded if it is not the system module. When all others are gone, nothing is left of them. -/
theorem loads_own_memory (hlong : 32 ≤ w) (hw : w ≤ 64) (hmods : s₀.mods = [])
    (hplace : ∀ f, .load f ∈ acts → f.modules ≠ [] → f.Placeable layout)
    (hrun : runMem source layout s₀ acts = some s) :
    MemOk layout s₀ s ∧
      (s.mods.Pairwise fun m m' =>
        Disjoint (segPlaces m.segs layout.nsegs) (segPlaces m'.segs layout.nsegs)) ∧
      (∀ i, 0 < i → ∃ s', memStep source layout s (.unload i) = some s' ∧
        s'.mods = s.mods.eraseIdx i) ∧
      (s.mods.length ≤ 1 → s.heap.chunks.Perm s₀.heap.chunks) := by
  have hok := runMem_memOk hlong hw hmods hplace hrun
  refine ⟨hok, hok.apart, fun i hi => ?_, hok.empty⟩
  obtain ⟨s', hstep, herase, -⟩ := hok.unload source i
  exact ⟨s', hstep, herase hi⟩

end

/-! ## A run -/

def wordHost : Host := { plainHost with dm := .ilp32 }

/-- An object with a word of code and a global symbol in front of it. -/
def wordObj (name : CStr) : ObjFile :=
  objFile [wordSection TEXT_SECTION_NAME []]
    [{ absSymbol (some name) 0 with sect := .sect 0, isGlobal := true }]

/-- A file whose symbols have been read and resolved. -/
def linkWord (modules : List (CexpModuleRec wordHost.dm)) (nmod : CexpModule) (obj : ObjFile) :
    Option (LinkedFile 32) :=
  (keptSections wordHost modules obj).toOption.bind fun sections =>
    (slurpSymtab wordHost modules obj (textSection sections)
      (linkInit sections obj.symtab)).toOption.map fun r => {
        host := wordHost
        modules := modules
        nmod := nmod
        backend := ppcBackend true
        file := {
          obj := obj
          hasContents := fun _ => true
          short := fun _ => none
          byte := fun _ o => BitVec.ofNat 8 (o + 1)
          entry := fun _ _ => ⟨0, 0, 0⟩ }
        attr := fun _ => ⟨2, true⟩
        ld := r.1
        checks := true }

/-- The modules after some loads. -/
def wordModules (rs : List Request) : List (CexpModuleRec wordHost.dm) :=
  ((requests wordHost rs Store.init).map Store.modules).getD []

/-- The symbol file of the system. -/
def systemObj : ObjFile := objFile [] [globalSymbol symbolS]

def loadObj (name : CStr) (obj : ObjFile) : Request :=
  .load { loadNamed name obj with builtin := none } []

/-- The system module and two others are loaded, and the first of these is unloaded. -/
def wordActs : Option (List (MemAct 32)) := do
  let system := loadObj symbolS systemObj
  let sys ← linkWord [] 16 systemObj
  let a ← linkWord (wordModules [system]) 32 (wordObj moduleA)
  let b ← linkWord (wordModules [system, loadObj moduleA (wordObj moduleA)]) 48 (wordObj moduleB)
  return [.load sys, .load a, .load b, .unload 1]

def wordRun (acts : List (MemAct 32)) : Option (MemState 32) :=
  runMem (arena 0x1000 (by decide)) cexpSegsDflt ⟨.empty, fun _ => 0, []⟩ acts

/-- A file of which all is known to fit, and that has no relocations. -/
structure LinkedFile.Plain {w : Nat} (f : LinkedFile w) : Prop where
  fits : f.Fits
  relocs : ∀ sect ∈ f.ld.sections, sect.relocs = []

instance {w : Nat} (f : LinkedFile w) : Decidable f.Plain :=
  decidable_of_iff (f.Fits ∧ ∀ sect ∈ f.ld.sections, sect.relocs = [])
    ⟨fun ⟨h1, h2⟩ => ⟨h1, h2⟩, fun ⟨h1, h2⟩ => ⟨h1, h2⟩⟩

theorem LinkedFile.Plain.placeable {w : Nat} {f : LinkedFile w} (h : f.Plain) :
    f.Placeable cexpSegsDflt := by
  apply h.fits.placeable
  · intro laid i sect k hsect _ hk
    rw [h.relocs sect (List.mem_of_getElem? hsect)] at hk
    cases hk
  · intro laid i sect k l hsect _ _ hl
    rw [h.relocs sect (List.mem_of_getElem? hsect)] at hl
    cases hl

/-- The files that are loaded. -/
def loadedFiles (acts : List (MemAct 32)) : List (LinkedFile 32) :=
  acts.filterMap fun act =>
    match act with
    | .load f => some f
    | .unload _ => none

/-- What is left is the chunk of the second one. -/
theorem loads_own_memory_words : ∃ acts s, wordActs = some acts ∧ wordRun acts = some s ∧
    s.mods.length = 2 ∧ s.heap.chunks = [⟨0x1007, 7⟩] ∧ s.mem 0x100b = 4 ∧
    MemOk cexpSegsDflt ⟨.empty, fun _ => 0, []⟩ s := by
  have heval : (wordActs.any fun acts => (loadedFiles acts).all (fun f => decide f.Plain) &&
      (wordRun acts).any fun s => s.mods.length = 2 ∧ s.heap.chunks = [⟨0x1007, 7⟩] ∧
        s.mem 0x100b = 4) = true := by decide +kernel
  obtain ⟨acts, hacts, hall⟩ := (Option.any_eq_true _ _).mp heval
  obtain ⟨hplain, hs⟩ := Bool.and_eq_true_iff.mp hall
  obtain ⟨s, hrun, hs⟩ := (Option.any_eq_true _ _).mp hs
  obtain ⟨hmods, hchunks, hmem⟩ := of_decide_eq_true hs
  have hplace : ∀ f, .load f ∈ acts → f.modules ≠ [] → f.Placeable cexpSegsDflt := by
    intro f hf _
    have hmem : f ∈ loadedFiles acts := List.mem_filterMap.mpr ⟨_, hf, rfl⟩
    exact (of_decide_eq_true (List.all_eq_true.mp hplain f hmem)).placeable
  exact ⟨acts, s, hacts, hrun, hmods, hchunks, hmem,
    (loads_own_memory (by decide) (by decide) rfl hplace hrun).1⟩

end Cexp
