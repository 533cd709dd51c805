import Mathlib.Data.List.TakeWhile

/-!
# Reading up to a terminator

A cursor in a memory is what comes from there on. It goes forward, and it does not pass the element
`stop` as long as all that it has read is something else (`Before`). A scanner that ends with such a
cursor (`Scans`) has found all that it looked at in the memory.
-/

namespace CLib

variable {α β γ : Type} {stop : α} {mem cur : List α}

/-- `cur` is reached from `mem` by reading elements other than `stop`. -/
def Before (stop : α) (mem cur : List α) : Prop := ∃ read, stop ∉ read ∧ mem = read ++ cur

namespace Before

theorem refl (mem : List α) : Before stop mem mem := ⟨[], List.not_mem_nil, rfl⟩

theorem cons {c : α} (hc : c ≠ stop) (h : Before stop mem cur) : Before stop (c :: mem) cur := by
  obtain ⟨read, hread, rfl⟩ := h
  refine ⟨c :: read, ?_, rfl⟩
  rw [List.mem_cons, not_or]
  exact ⟨hc.symm, hread⟩

theorem trans {cur' : List α} (h : Before stop mem cur) (h' : Before stop cur cur') :
    Before stop mem cur' := by
  obtain ⟨read, hread, rfl⟩ := h
  obtain ⟨read', hread', rfl⟩ := h'
  refine ⟨read ++ read', ?_, by rw [List.append_assoc]⟩
  rw [List.mem_append, not_or]
  exact ⟨hread, hread'⟩

theorem dropWhile {p : α → Bool} (hp : p stop = false) (mem : List α) :
    Before stop mem (mem.dropWhile p) := by
  refine ⟨mem.takeWhile p, ?_, List.takeWhile_append_dropWhile.symm⟩
  intro hmem
  rw [List.mem_takeWhile_imp hmem] at hp
  cases hp

theorem length_le (h : Before stop mem cur) : cur.length ≤ mem.length := by
  obtain ⟨read, -, rfl⟩ := h
  rw [List.length_append]
  exact Nat.le_add_left _ _

/-- The terminator is still ahead. -/
theorem stop_mem (h : Before stop mem cur) (hstop : stop ∈ mem) : stop ∈ cur := by
  obtain ⟨read, hread, rfl⟩ := h
  exact (List.mem_append.mp hstop).resolve_left hread

/-- In a line with its terminator the cursor is at a suffix of the line. -/
theorem line {line beyond : List α} (h : Before stop (line ++ stop :: beyond) cur)
    (hline : stop ∉ line) : ∃ rest, rest <:+ line ∧ cur = rest ++ stop :: beyond := by
  obtain ⟨read, hread, heq⟩ := h
  rcases List.append_eq_append_iff.mp heq with ⟨as, rfl, hcur⟩ | ⟨bs, rfl, rfl⟩
  · -- all of the line has been read
    cases as with
    | nil => exact ⟨[], List.nil_suffix, hcur.symm⟩
    | cons a as =>
      rw [List.cons_append, List.cons.injEq] at hcur
      obtain ⟨rfl, -⟩ := hcur
      exact absurd (by simp) hread
  · exact ⟨bs, List.suffix_append read bs, rfl⟩

end Before

/-- The scanner has ended with a cursor that has not passed `stop`. -/
def Scans (stop : α) (mem : List α) (cursor : β → List α) (o : Option β) : Prop :=
  ∃ r, o = some r ∧ Before stop mem (cursor r)

namespace Scans

variable {cursor : β → List α} {o : Option β}

theorem here {r : β} (h : cursor r = mem) : Scans stop mem cursor (some r) :=
  ⟨r, rfl, h ▸ Before.refl _⟩

theorem before (h : Before stop mem cur) (ho : Scans stop cur cursor o) :
    Scans stop mem cursor o := by
  obtain ⟨r, hr, hcur⟩ := ho
  exact ⟨r, hr, h.trans hcur⟩

theorem cons {c : α} (hc : c ≠ stop) (h : Scans stop mem cursor o) :
    Scans stop (c :: mem) cursor o := h.before (.cons hc (.refl mem))

theorem map {f : β → γ} {cursor' : γ → List α} (h : Scans stop mem cursor o)
    (hf : ∀ r, cursor' (f r) = cursor r) : Scans stop mem cursor' (o.map f) := by
  obtain ⟨r, rfl, hr⟩ := h
  exact ⟨f r, rfl, (hf r).symm ▸ hr⟩

/-- A scanner goes on where another one has ended. -/
theorem bind {f : β → Option γ} {cursor' : γ → List α} (hstop : stop ∈ mem)
    (h : Scans stop mem cursor o)
    (hf : ∀ r, o = some r → stop ∈ cursor r → Scans stop (cursor r) cursor' (f r)) :
    Scans stop mem cursor' (o >>= f) := by
  obtain ⟨r, rfl, hr⟩ := h
  exact (hf r rfl (hr.stop_mem hstop)).before hr

end Scans

/-- Something that gets less until it is zero is zero in time. -/
theorem exists_eq_zero_of_lt {m : Nat → Nat} (h : ∀ n, m n ≠ 0 → m (n + 1) < m n) :
    ∃ n ≤ m 0, m n = 0 := by
  have hbound : ∀ n, (∃ k ≤ n, m k = 0) ∨ m n + n ≤ m 0 := by
    intro n
    induction n with
    | zero => exact .inr (Nat.le_refl _)
    | succ n ih =>
      rcases ih with ⟨k, hk, hzero⟩ | hle
      · exact .inl ⟨k, Nat.le_succ_of_le hk, hzero⟩
      · by_cases hn : m n = 0
        · exact .inl ⟨n, Nat.le_succ n, hn⟩
        · have hlt := h n hn
          exact .inr (by omega)
  rcases hbound (m 0) with ⟨k, hk, hzero⟩ | hle
  · exact ⟨k, hk, hzero⟩
  · exact ⟨m 0, Nat.le_refl _, by omega⟩

end CLib
