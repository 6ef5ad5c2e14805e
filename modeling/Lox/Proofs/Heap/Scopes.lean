import Lox.Heap
import Mathlib.Data.List.Basic
import Mathlib.Tactic.Common

/-!
# Reading the heap after a change

What the operations on the heap do to the view through which a program sees its scopes: the value
of a name in a scope (`Heap.read`). Later proofs use these equations and never look at the array of
scopes.
-/

namespace Lox

theorem Bindings.insert_insert {α : Type} (b : Bindings α) (name : String) (v w : α) :
    (b.insert name v).insert name w = b.insert name w := by
  induction b with
  | nil => simp [insert]
  | cons p b ih =>
    obtain ⟨n, u⟩ := p
    by_cases hn : n = name
    · simp [insert, hn]
    · simp [insert, hn, ih]

theorem Bindings.get?_insert {α : Type} (b : Bindings α) (name : String) (value : α)
    (other : String) :
    (b.insert name value).get? other = if name = other then some value else b.get? other := by
  by_cases h : name = other
  · subst h; simp
  · rw [if_neg h, get?_insert_of_ne b h]

theorem Bindings.eq_of_get?_single {α : Type} {name other : String} {v w : α}
    (h : get? [(name, v)] other = some w) : name = other ∧ w = v := by
  rw [get?_cons] at h
  split at h
  · next hname => exact ⟨hname, (Option.some.inj h).symm⟩
  · cases h

/-- The scope at a distance. -/
theorem Env.head?_ancestor? (env : Env) (distance : Nat) :
    (env.ancestor? distance).bind List.head? = env[distance]? := by
  rw [← List.head?_drop, Env.ancestor?]
  cases env.drop distance <;> rfl

namespace Heap

variable (h : Heap)

/-! ## Scopes -/

theorem read_eq_none_of_size_le {s : ScopeId} (hs : h.scopes.size ≤ s) (n : String) :
    h.read s n = none := by
  simp [read, Array.getElem?_eq_none hs]

theorem lt_size_of_read {s : ScopeId} {n : String} {v : Value} (hr : h.read s n = some v) :
    s < h.scopes.size := by
  by_contra hs
  rw [h.read_eq_none_of_size_le (Nat.le_of_not_lt hs)] at hr
  cases hr

theorem binds_iff {s : ScopeId} {n : String} : h.binds s n ↔ ∃ v, h.read s n = some v := by
  rw [binds, Option.isSome_iff_exists]

theorem lt_size_of_binds {s : ScopeId} {n : String} (hb : h.binds s n) : s < h.scopes.size :=
  have ⟨_, hr⟩ := h.binds_iff.1 hb
  h.lt_size_of_read hr

@[simp] theorem size_write (s : ScopeId) (n : String) (v : Value) :
    (h.write s n v).scopes.size = h.scopes.size := by
  simp [write]

theorem read_write (s : ScopeId) (n : String) (v : Value) (s' : ScopeId) (n' : String) :
    (h.write s n v).read s' n' =
      if s = s' ∧ n = n' ∧ s < h.scopes.size then some v else h.read s' n' := by
  simp only [read, write, Array.getElem?_modify]
  by_cases hs : s = s'
  · subst hs
    by_cases hlt : s < h.scopes.size
    · rw [if_pos rfl, Array.getElem?_eq_getElem hlt]
      by_cases hn : n = n'
      · subst hn
        simp [hlt]
      · simp [hn, Bindings.get?_insert_of_ne _ hn]
    · simp [hlt]
  · simp [hs]

theorem binds_write (s : ScopeId) (n : String) (v : Value) (s' : ScopeId) (n' : String) :
    (h.write s n v).binds s' n' ↔
      (s = s' ∧ n = n' ∧ s < h.scopes.size) ∨ h.binds s' n' := by
  rw [binds, read_write]
  split
  · next hc => exact iff_of_true rfl (.inl hc)
  · next hc => simp [hc, binds]

/-- A binding that is there gets a new value, and no other changes. -/
theorem read_write_of_binds {a : ScopeId} {n : String} (hb : h.binds a n) (v : Value) (s : ScopeId)
    (x : String) : (h.write a n v).read s x = if s = a ∧ x = n then some v else h.read s x := by
  rw [read_write]
  simp only [h.lt_size_of_binds hb, and_true, eq_comm]

theorem binds_write_of_binds {a : ScopeId} {n : String} (hb : h.binds a n) (v : Value)
    (s : ScopeId) (x : String) : (h.write a n v).binds s x = h.binds s x := by
  rw [binds, h.read_write_of_binds hb]
  split
  · next hsame =>
    obtain ⟨rfl, rfl⟩ := hsame
    exact hb.symm
  · rfl

/-- Of two values for one name the later counts. -/
theorem write_write (s : ScopeId) (n : String) (v w : Value) :
    (h.write s n v).write s n w = h.write s n w := by
  have hscopes : ((h.scopes.modify s (·.insert n v)).modify s (·.insert n w)) =
      h.scopes.modify s (·.insert n w) := by
    refine Array.ext_getElem? fun i => ?_
    simp only [Array.getElem?_modify]
    split
    · rw [Option.map_map]
      exact congrArg (Option.map · _) (funext fun b => b.insert_insert n v w)
    · rfl
  simp only [write, hscopes]

@[simp] theorem size_newScope (b : Bindings Value) :
    (h.newScope b).2.scopes.size = h.scopes.size + 1 := by
  simp [newScope]

theorem read_newScope (b : Bindings Value) (s : ScopeId) (n : String) :
    (h.newScope b).2.read s n = if s = h.scopes.size then b.get? n else h.read s n := by
  simp only [read, newScope, Array.getElem?_push]
  split <;> rfl

theorem binds_newScope (b : Bindings Value) (s : ScopeId) (n : String) :
    (h.newScope b).2.binds s n ↔
      if s = h.scopes.size then (b.get? n).isSome else h.binds s n := by
  rw [binds, read_newScope]
  split <;> rfl

/-- A scope with one more binding is one to which the binding has been added. -/
theorem newScope_insert (b : Bindings Value) (n : String) (v : Value) :
    (h.newScope (b.insert n v)).2 = (h.newScope b).2.write h.scopes.size n v := by
  have hscopes : h.scopes.push (b.insert n v) =
      (h.scopes.push b).modify h.scopes.size (·.insert n v) := by
    refine Array.ext_getElem? fun i => ?_
    simp only [Array.getElem?_modify, Array.getElem?_push]
    by_cases hi : i = h.scopes.size
    · simp [hi]
    · simp [hi, Ne.symm hi]
  simp only [newScope, write, hscopes]

@[simp] theorem nest_snd (env : Env) (b : Bindings Value) :
    (h.nest env b).2 = (h.newScope b).2 := rfl

/-! ## Fields -/

theorem get?_fieldsOf_newObject {k : Class} {o : Object} {n : String} {v : Value}
    (hr : ((h.newObject k).2.fieldsOf o).get? n = some v) :
    (h.fieldsOf o).get? n = some v := by
  simp only [fieldsOf, newObject, Array.getElem?_push] at hr
  split at hr
  · cases hr
  · exact hr

/-- A value found in a field is the one just given to it, or was there before. -/
theorem eq_or_get?_of_setField {o o' : Object} {n n' : String} {v w : Value}
    (hr : ((h.setField o n v).fieldsOf o').get? n' = some w) :
    w = v ∨ (h.fieldsOf o').get? n' = some w := by
  simp only [fieldsOf, setField, Array.getElem?_modify] at hr
  split at hr
  · cases hfields : h.fields[o'.id]? with
    | none =>
      rw [hfields] at hr
      cases hr
    | some b =>
      simp only [hfields, Option.map_some, Option.getD_some, Bindings.get?_insert] at hr
      split at hr
      · cases hr
        exact .inl rfl
      · exact .inr (by simpa [fieldsOf, hfields] using hr)
  · exact .inr hr

/-! ## Operations that leave the scopes alone -/

theorem read_congr {h' : Heap} (hs : h'.scopes = h.scopes) : h'.read = h.read := by
  funext s n
  simp only [read, hs]

theorem binds_congr {h' : Heap} (hs : h'.scopes = h.scopes) : h'.binds = h.binds := by
  funext s n
  simp only [binds, h.read_congr hs]

end Heap

end Lox
