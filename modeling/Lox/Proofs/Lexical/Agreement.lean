import Lox.Proofs.Lexical.Correspondence

/-!
# Stores and heaps that agree

A store and the world of the machine agree under a link (`Agree`) if linked cells and scopes hold
matching values, and so do the globals and the fields of objects, and if everything else is equal.
Each operation of the lexical interpreter on its store keeps this up with the operation of the
machine on its heap. Declarations are the ones at which the link grows (`Stands.declare`).
-/

namespace Lox.Lexical

open Scoping Machine

variable (V : Visit → Prop)

/-- A store and a world hold the same. No two variables share a cell. -/
structure Agree (m : Link) (s : Store) (w : World) : Prop where
  size : w.heap.scopes.size = m.size
  nonempty : 0 < m.size
  sink : s.sink = w.sink
  clock : s.clock = w.clock
  nextId : s.nextId = w.heap.nextId
  globals : ∀ x, Option.Rel (Matches V m) (s.globals.get? x) (w.heap.read globalScope x)
  locals : ∀ {c x l}, m.cell c x = some l → globalScope < c ∧
    ∃ v v', s.cells[l]? = some v ∧ w.heap.read c x = some v' ∧ Matches V m v v'
  apart : ∀ {c x c' x' l}, m.cell c x = some l → m.cell c' x' = some l → c = c' ∧ x = x'
  fieldCount : s.fields.size = w.heap.fields.size
  fields : ∀ (i : Nat) x, Option.Rel (Matches V m) (((s.fields[i]?).getD []).get? x)
    (((w.heap.fields[i]?).getD []).get? x)

variable {V} {m : Link} {s : Store} {w : World}

namespace Agree

/-- Scopes that are still to be made have no variables. -/
theorem cell_size (h : Agree V m s w) (x : String) : m.cell m.size x = none := by
  cases hc : m.cell m.size x with
  | none => rfl
  | some l =>
    obtain ⟨-, v, v', -, hr, -⟩ := h.locals hc
    -- A linked variable can be read, so its scope exists.
    have hlt := w.heap.lt_size_of_read hr
    rw [h.size] at hlt
    exact absurd hlt (Nat.lt_irrefl _)

theorem cell_lt (h : Agree V m s w) {c : ScopeId} {x : String} {l : Location}
    (hc : m.cell c x = some l) : l < s.cells.size := by
  obtain ⟨-, v, v', hv, -, -⟩ := h.locals hc
  exact (Array.getElem?_eq_some_iff.1 hv).1

/-! ## Variables -/

/-- A new variable, in a new cell. -/
theorem reserve (h : Agree V m s w) {c : ScopeId} {x : String} (hc : globalScope < c)
    (hlt : c < m.size) (hnone : m.cell c x = none) :
    Agree V (m.bind c x s.cells.size) { s with cells := s.cells.push .nil }
      { w with heap := w.heap.write c x .nil } := by
  have hg : m.Grows (some c) (m.bind c x s.cells.size) := .bind hnone _
  have hsize : c < w.heap.scopes.size := h.size ▸ hlt
  refine ⟨?_, h.nonempty, h.sink, h.clock, h.nextId, fun y => ?_, ?_, ?_, h.fieldCount,
    fun i y => (h.fields i y).mono fun _ _ hv => hv.grows hg⟩
  · rw [Heap.size_write]
    exact h.size
  · rw [Heap.read_write, if_neg fun hboth => absurd hboth.1 (Nat.ne_of_gt hc)]
    exact (h.globals y).mono fun _ _ hv => hv.grows hg
  · intro c' x' l hcell
    by_cases hboth : c' = c ∧ x' = x
    · obtain ⟨rfl, rfl⟩ := hboth
      rw [m.cell_bind_self] at hcell
      cases hcell
      refine ⟨hc, .nil, .nil, Array.getElem?_push_size, ?_, .nil⟩
      rw [Heap.read_write, if_pos ⟨rfl, rfl, hsize⟩]
    · rw [m.cell_bind_of_ne _ hboth] at hcell
      obtain ⟨hpos, v, v', hv, hr, hm⟩ := h.locals hcell
      refine ⟨hpos, v, v', ?_, ?_, hm.grows hg⟩
      · rw [Array.getElem?_push, if_neg (Nat.ne_of_lt (h.cell_lt hcell))]
        exact hv
      · rw [Heap.read_write, if_neg fun heq => hboth ⟨heq.1.symm, heq.2.1.symm⟩]
        exact hr
  -- The new cell comes after all others, so no variable shares it.
  · intro c₁ x₁ c₂ x₂ l h₁ h₂
    by_cases hb₁ : c₁ = c ∧ x₁ = x
    · obtain ⟨rfl, rfl⟩ := hb₁
      rw [m.cell_bind_self] at h₁
      cases h₁
      by_cases hb₂ : c₂ = c₁ ∧ x₂ = x₁
      · exact ⟨hb₂.1.symm, hb₂.2.symm⟩
      · rw [m.cell_bind_of_ne _ hb₂] at h₂
        exact absurd (h.cell_lt h₂) (Nat.lt_irrefl _)
    · rw [m.cell_bind_of_ne _ hb₁] at h₁
      by_cases hb₂ : c₂ = c ∧ x₂ = x
      · obtain ⟨rfl, rfl⟩ := hb₂
        rw [m.cell_bind_self] at h₂
        cases h₂
        exact absurd (h.cell_lt h₁) (Nat.lt_irrefl _)
      · rw [m.cell_bind_of_ne _ hb₂] at h₂
        exact h.apart h₁ h₂

variable {v : Value Names} {v' : Value}

/-- A new value for a local variable. -/
theorem put_local (h : Agree V m s w) {c : ScopeId} {x : String} {l : Location}
    (hc : m.cell c x = some l) (hv : Matches V m v v') :
    Agree V m { s with cells := s.cells.setIfInBounds l v }
      { w with heap := w.heap.write c x v' } := by
  obtain ⟨hpos, u, u', hu, hr, -⟩ := h.locals hc
  have hlt : c < w.heap.scopes.size := w.heap.lt_size_of_read hr
  refine ⟨?_, h.nonempty, h.sink, h.clock, h.nextId, fun y => ?_, ?_, h.apart, h.fieldCount,
    h.fields⟩
  · rw [Heap.size_write]
    exact h.size
  · rw [Heap.read_write, if_neg fun hboth => absurd hboth.1 (Nat.ne_of_gt hpos)]
    exact h.globals y
  · intro c' x' l' hcell
    by_cases hboth : c = c' ∧ x = x'
    · obtain ⟨rfl, rfl⟩ := hboth
      rw [hc] at hcell
      cases hcell
      refine ⟨hpos, v, v', ?_, ?_, hv⟩
      · rw [Array.getElem?_setIfInBounds, if_pos rfl, if_pos (h.cell_lt hc)]
      · rw [Heap.read_write, if_pos ⟨rfl, rfl, hlt⟩]
    · obtain ⟨hpos', z, z', hz, hr', hm⟩ := h.locals hcell
      refine ⟨hpos', z, z', ?_, ?_, hm⟩
      -- Other variables have other cells.
      · have hne : l ≠ l' := by
          intro heq
          subst heq
          exact hboth (h.apart hc hcell)
        rw [Array.getElem?_setIfInBounds, if_neg hne]
        exact hz
      · rw [Heap.read_write, if_neg fun heq => hboth ⟨heq.1, heq.2.1⟩]
        exact hr'

/-- A new value for a global variable. -/
theorem put_global (h : Agree V m s w) (x : String) (hv : Matches V m v v') :
    Agree V m { s with globals := s.globals.insert x v }
      { w with heap := w.heap.write globalScope x v' } := by
  refine ⟨?_, h.nonempty, h.sink, h.clock, h.nextId, fun y => ?_, ?_, h.apart, h.fieldCount,
    h.fields⟩
  · rw [Heap.size_write]
    exact h.size
  · have hlt : globalScope < w.heap.scopes.size := h.size ▸ h.nonempty
    rw [Heap.read_write, Bindings.get?_insert]
    by_cases hx : x = y
    · rw [if_pos hx, if_pos ⟨rfl, hx, hlt⟩]
      exact .some hv
    · rw [if_neg hx, if_neg fun hboth => hx hboth.2.1]
      exact h.globals y
  · intro c' x' l' hcell
    -- The cells of local variables are untouched, and none of their scopes is the global one.
    obtain ⟨hpos, z, z', hz, hr, hm⟩ := h.locals hcell
    refine ⟨hpos, z, z', hz, ?_, hm⟩
    rw [Heap.read_write, if_neg fun hboth => absurd hboth.1 (Nat.ne_of_lt hpos)]
    exact hr

/-- A new scope without variables. -/
theorem newScope (h : Agree V m s w) :
    Agree V m.push s { w with heap := (w.heap.newScope []).2 } := by
  have hg : m.Grows none m.push := .push m
  have hread : ∀ c x, c ≠ w.heap.scopes.size →
      (w.heap.newScope []).2.read c x = w.heap.read c x := by
    intro c x hc
    rw [Heap.read_newScope, if_neg hc]
  refine ⟨?_, Nat.lt_succ_of_lt h.nonempty, h.sink, h.clock, h.nextId, fun y => ?_, ?_, h.apart,
    h.fieldCount, fun i y => (h.fields i y).mono fun _ _ hv => hv.grows hg⟩
  · rw [Heap.size_newScope, h.size]
    rfl
  · rw [hread _ _ (h.size ▸ Nat.ne_of_lt h.nonempty)]
    exact (h.globals y).mono fun _ _ hv => hv.grows hg
  · intro c x l hcell
    obtain ⟨hpos, z, z', hz, hr, hm⟩ := h.locals hcell
    refine ⟨hpos, z, z', hz, ?_, hm.grows hg⟩
    rw [hread _ _ (Nat.ne_of_lt (w.heap.lt_size_of_read hr))]
    exact hr

/-! ## Numbers and objects -/

theorem freshId (h : Agree V m s w) :
    Agree V m { s with nextId := s.nextId + 1 } { w with heap := w.heap.freshId.2 } :=
  ⟨h.size, h.nonempty, h.sink, h.clock, congrArg (· + 1) h.nextId, h.globals, h.locals, h.apart,
    h.fieldCount, h.fields⟩

theorem newObject (h : Agree V m s w) (k : Class) :
    Agree V m { s with fields := s.fields.push [] } { w with heap := (w.heap.newObject k).2 } := by
  refine ⟨h.size, h.nonempty, h.sink, h.clock, h.nextId, h.globals, h.locals, h.apart, ?_,
    fun i x => ?_⟩
  · simp only [Heap.newObject, Array.size_push, h.fieldCount]
  · simp only [Heap.newObject, Array.getElem?_push, h.fieldCount]
    split
    · exact .none
    · exact h.fields i x

theorem setField (h : Agree V m s w) (i : Nat) (k : Class Names) (k' : Class) (x : String)
    (hv : Matches V m v v') :
    Agree V m (s.setField ⟨i, k⟩ x v) { w with heap := w.heap.setField ⟨i, k'⟩ x v' } := by
  refine ⟨h.size, h.nonempty, h.sink, h.clock, h.nextId, h.globals, h.locals, h.apart, ?_,
    fun j y => ?_⟩
  · simp only [Store.setField, Heap.setField, Array.size_modify, h.fieldCount]
  · have hj := h.fields j y
    simp only [Store.setField, Heap.setField, Array.getElem?_modify]
    by_cases hij : i = j
    · subst hij
      rw [if_pos rfl, if_pos rfl]
      -- An object that was never made has no fields on either side, and gets none.
      by_cases hlt : i < s.fields.size
      · have hlt' : i < w.heap.fields.size := h.fieldCount ▸ hlt
        rw [Array.getElem?_eq_getElem hlt, Array.getElem?_eq_getElem hlt'] at hj ⊢
        simp only [Option.map_some, Option.getD_some, Bindings.get?_insert] at hj ⊢
        split
        · exact .some hv
        · exact hj
      · have hge : s.fields.size ≤ i := Nat.le_of_not_lt hlt
        have hge' : w.heap.fields.size ≤ i := h.fieldCount ▸ hge
        rw [Array.getElem?_eq_none hge, Array.getElem?_eq_none hge']
        exact .none
    · rw [if_neg hij, if_neg hij]
      exact hj

end Agree

end Lox.Lexical
