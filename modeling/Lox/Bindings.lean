/-!
# Names with values

A table of bindings has each name once, in the order in which the names came. It serves for the
variables of a scope, the fields of an object and the methods of a class.
-/

namespace Lox

/-- Names with values, each name once. -/
abbrev Bindings (α : Type) := List (String × α)

namespace Bindings

variable {α : Type}

/-- The value of a name. -/
def get? (b : Bindings α) (name : String) : Option α :=
  match b with
  | [] => none
  | (n, v) :: rest => if n = name then some v else get? rest name

/-- Gives a name a value: in its place if it is there, at the end otherwise. -/
def insert (b : Bindings α) (name : String) (value : α) : Bindings α :=
  match b with
  | [] => [(name, value)]
  | (n, v) :: rest => if n = name then (n, value) :: rest else (n, v) :: insert rest name value

/-- The names, in order. -/
def names (b : Bindings α) : List String := b.map Prod.fst

@[simp] theorem get?_nil (name : String) : get? ([] : Bindings α) name = none := rfl

theorem get?_cons (n : String) (v : α) (b : Bindings α) (name : String) :
    get? ((n, v) :: b) name = if n = name then some v else get? b name := rfl

@[simp] theorem get?_insert_self (b : Bindings α) (name : String) (value : α) :
    get? (insert b name value) name = some value := by
  induction b with
  | nil => simp [insert, get?_cons]
  | cons p b ih =>
    obtain ⟨n, v⟩ := p
    by_cases h : n = name
    · simp [insert, get?_cons, h]
    · simp [insert, get?_cons, h, ih]

theorem get?_insert_of_ne (b : Bindings α) {name other : String} (h : name ≠ other) (value : α) :
    get? (insert b name value) other = get? b other := by
  induction b with
  | nil => simp [insert, get?_cons, h]
  | cons p b ih =>
    obtain ⟨n, v⟩ := p
    by_cases hn : n = name
    · simp [insert, get?_cons, hn, h]
    · simp [insert, get?_cons, hn, ih]

end Bindings

end Lox
