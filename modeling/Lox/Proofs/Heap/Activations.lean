import Lox.Proofs.Heap.Receivers
import Lox.Proofs.Scoping.Supers
import Mathlib.Data.List.Induction

/-!
# Methods, their classes and their objects

When a method is bound to an object, a scope is put around it that has the object as `this`, and
around the methods of a subclass there is one that has the superclass as `super`. Nothing ever
happens to these two names, because a program cannot declare or assign them (`Heap.Keeps`).

Code that holds a `super` runs in an *activation* of the method around it: its environment leads
through scopes of blocks and bodies to the scope of `this`, and from there on it is the environment
of the method (`Heap.Activation`). A function that is declared in a method keeps the environment,
and so it still belongs to the activation when it is called later. This is what `Part.Placed` says
of code and `Value.Placed` of values, and the operations on the heap keep it so.

Classes come from declarations. Which declarations there were is left open: `D k parent methods`
says that one of them made the class `k` with the superclass `parent` and the methods `methods`. A
class stands in a heap if it and its ancestors were declared and their methods are where the
declarations put them (`Class.Stands`); then the search for a method is a search through
declarations (`Class.Stands.finds`).
-/

namespace Lox

/-! ## Receivers stay -/

/-- The scopes of the first heap have the same `this` and `super` in the second. -/
structure Heap.Keeps (h h' : Heap) : Prop where
  size_le : h.scopes.size ≤ h'.scopes.size
  read_eq : ∀ {s n}, s < h.scopes.size → n = "this" ∨ n = "super" → h'.read s n = h.read s n

namespace Heap.Keeps

variable {h h' h'' : Heap} {n : String} {v : Value}

theorem refl (h : Heap) : h.Keeps h := ⟨Nat.le_refl _, fun _ _ => rfl⟩

theorem trans (a : h.Keeps h') (b : h'.Keeps h'') : h.Keeps h'' where
  size_le := Nat.le_trans a.size_le b.size_le
  read_eq hs hn := (b.read_eq (Nat.lt_of_lt_of_le hs a.size_le) hn).trans (a.read_eq hs hn)

theorem of_scopes_eq (hs : h'.scopes = h.scopes) : h.Keeps h' where
  size_le := Nat.le_of_eq (by rw [hs])
  read_eq _ _ := by rw [h.read_congr hs]

/-- What a program writes is no receiver. -/
theorem write (hn : Kind.ofWord n = .identifier) (s : ScopeId) (v : Value) :
    h.Keeps (h.write s n v) where
  size_le := Nat.le_of_eq (h.size_write s n v).symm
  read_eq {s' n'} _ hn' := by
    have hne : n ≠ n' := by
      rcases hn' with rfl | rfl
      · exact Kind.ne_this_of_ofWord hn
      · exact Kind.ne_super_of_ofWord hn
    rw [read_write, if_neg fun hc => hne hc.2.1]

theorem newScope (h : Heap) (b : Bindings Value) : h.Keeps (h.newScope b).2 where
  size_le := by simp
  read_eq hs _ := by rw [read_newScope, if_neg (Nat.ne_of_lt hs)]

theorem this (hk : h.Keeps h') {s : ScopeId} (hr : h.read s "this" = some v) :
    h'.read s "this" = some v :=
  (hk.read_eq (h.lt_size_of_read hr) (.inl rfl)).trans hr

theorem super (hk : h.Keeps h') {s : ScopeId} (hr : h.read s "super" = some v) :
    h'.read s "super" = some v :=
  (hk.read_eq (h.lt_size_of_read hr) (.inr rfl)).trans hr

end Heap.Keeps

/-- A scope without receivers: that of the globals, a block or a body. -/
structure Heap.Plain (h : Heap) (s : ScopeId) : Prop where
  lt : s < h.scopes.size
  this : h.read s "this" = none
  super : h.read s "super" = none

/-- The innermost scope is one in which programs declare names. -/
def Env.Open (h : Heap) : Env → Prop
  | [] => False
  | s :: _ => h.Plain s

theorem Heap.Plain.keep {h h' : Heap} {s : ScopeId} (hs : h.Plain s) (hk : h.Keeps h') :
    h'.Plain s :=
  ⟨Nat.lt_of_lt_of_le hs.lt hk.size_le, (hk.read_eq hs.lt (.inl rfl)).trans hs.this,
    (hk.read_eq hs.lt (.inr rfl)).trans hs.super⟩

theorem Env.Open.keep {h h' : Heap} {env : Env} (henv : env.Open h) (hk : h.Keeps h') :
    env.Open h' := by
  cases env with
  | nil => exact henv
  | cons s outer => exact Heap.Plain.keep henv hk

/-- A new scope whose names are identifiers. -/
theorem Heap.plain_newScope (h : Heap) {b : Bindings Value} (hthis : b.get? "this" = none)
    (hsuper : b.get? "super" = none) : (h.newScope b).2.Plain h.scopes.size := by
  refine ⟨by simp, ?_, ?_⟩
  · rw [read_newScope, if_pos rfl, hthis]
  · rw [read_newScope, if_pos rfl, hsuper]

/-! ## Method tables -/

/-- The last of the functions with a name. -/
def FunctionDecl.IsLast (name : String) (methods : List FunctionDecl) (decl : FunctionDecl) :
    Prop :=
  ∃ before after, methods = before ++ decl :: after ∧ decl.name.lexeme = name ∧
    ∀ g ∈ after, g.name.lexeme ≠ name

theorem FunctionDecl.IsLast.mem {name : String} {methods : List FunctionDecl} {decl : FunctionDecl}
    (h : IsLast name methods decl) : decl ∈ methods := by
  obtain ⟨before, after, rfl, -, -⟩ := h
  exact List.mem_append_right _ List.mem_cons_self

theorem Heap.methodTable_concat (env : Env) (methods : List FunctionDecl) (decl : FunctionDecl) :
    methodTable env (methods ++ [decl]) = (methodTable env methods).insert decl.name.lexeme
      ⟨decl, env, decl.name.lexeme = "init"⟩ := by
  rw [methodTable, List.foldl_append]
  rfl

/-- Of two methods with one name the later counts. -/
theorem Heap.isLast_of_get?_methodTable {env : Env} {methods : List FunctionDecl} {name : String}
    {f : Closure} (hf : (methodTable env methods).get? name = some f) :
    FunctionDecl.IsLast name methods f.decl ∧ f.env = env ∧
      f.isInitializer = decide (name = "init") := by
  induction methods using List.reverseRecOn with
  | nil => cases hf
  | append_singleton methods decl ih =>
    rw [methodTable_concat, Bindings.get?_insert] at hf
    split at hf
    · next hname =>
      cases hf
      exact ⟨⟨methods, [], rfl, hname, List.forall_mem_nil _⟩, rfl, by rw [hname]⟩
    · next hne =>
      obtain ⟨⟨before, after, rfl, hname, hafter⟩, henv, hinit⟩ := ih hf
      refine ⟨⟨before, after ++ [decl], by simp, hname, ?_⟩, henv, hinit⟩
      exact List.forall_mem_append.2 ⟨hafter, List.forall_mem_singleton.2 hne⟩

theorem Heap.ne_of_get?_methodTable {env : Env} {methods : List FunctionDecl} {name : String}
    (hf : (methodTable env methods).get? name = none) : ∀ g ∈ methods, g.name.lexeme ≠ name := by
  induction methods using List.reverseRecOn with
  | nil => exact List.forall_mem_nil _
  | append_singleton methods decl ih =>
    rw [methodTable_concat, Bindings.get?_insert] at hf
    split at hf
    · cases hf
    · next hne => exact List.forall_mem_append.2 ⟨ih hf, List.forall_mem_singleton.2 hne⟩

/-! ## Classes -/

section

variable (D : Class → Option Class → List FunctionDecl → Prop)

/-- The class and its ancestors were declared. The methods of a class without a superclass are in an
environment in which programs declare names, and those of a subclass inside a scope that has the
superclass. -/
inductive Class.Stands (h : Heap) : Class → Prop
  | root {k : Class} {methods : List FunctionDecl} {env : Env} :
      D k none methods → k.superclass? = none → k.own.methods = Heap.methodTable env methods →
      env.Open h → Stands h k
  | heir {k parent : Class} {methods : List FunctionDecl} {s : ScopeId} {outer : Env} :
      D k (some parent) methods → k.superclass? = some parent →
      k.own.methods = Heap.methodTable (s :: outer) methods →
      h.read s "super" = some (.class_ parent) → Stands h parent → Stands h k

/-- What a search for a method comes to, from a class upwards: the last method with the name in the
declaration of the nearest class that has one, or nothing. -/
inductive Class.Finds (name : String) : Class → Option Closure → Prop
  | own {k : Class} {parent : Option Class} {methods : List FunctionDecl} {f : Closure} :
      D k parent methods → FunctionDecl.IsLast name methods f.decl →
      k.own.methods.get? name = some f → Finds name k (some f)
  | inherited {k parent : Class} {methods : List FunctionDecl} {found : Option Closure} :
      D k (some parent) methods → (∀ g ∈ methods, g.name.lexeme ≠ name) →
      Finds name parent found → Finds name k found
  | missing {k : Class} {methods : List FunctionDecl} :
      D k none methods → (∀ g ∈ methods, g.name.lexeme ≠ name) → Finds name k none

end

variable {D : Class → Option Class → List FunctionDecl → Prop}

theorem Class.method?_of_own {k : Class} {name : String} {f : Closure}
    (hf : k.own.methods.get? name = some f) : k.method? name = some f :=
  List.findSome?_cons_of_isSome (by rw [hf]; rfl) |>.trans hf

theorem Class.method?_of_superclass? {k : Class} {name : String}
    (hf : k.own.methods.get? name = none) :
    k.method? name = k.superclass?.bind (·.method? name) := by
  obtain ⟨own, ancestors⟩ := k
  have hsearch : Class.method? ⟨own, ancestors⟩ name =
      ancestors.findSome? (·.methods.get? name) :=
    List.findSome?_cons_of_isNone (Option.isNone_iff_eq_none.2 hf)
  rw [hsearch]
  cases ancestors with
  | nil => rfl
  | cons layer rest => rfl

namespace Class.Stands

variable {h h' : Heap} {k : Class} {name : String} {f : Closure}

theorem keep (hk : k.Stands D h) (hkeep : h.Keeps h') : k.Stands D h' := by
  induction hk with
  | root hD hsuper hmethods henv => exact .root hD hsuper hmethods (henv.keep hkeep)
  | heir hD hsuper hmethods hread _ ih => exact .heir hD hsuper hmethods (hkeep.super hread) ih

/-- The search for a method is one through declarations. -/
theorem finds (hk : k.Stands D h) (name : String) : k.Finds D name (k.method? name) := by
  induction hk with
  | @root k methods env hD hsuper hmethods _ =>
    cases hget : k.own.methods.get? name with
    | some f =>
      rw [method?_of_own hget]
      exact .own hD (Heap.isLast_of_get?_methodTable (hmethods ▸ hget)).1 hget
    | none =>
      rw [method?_of_superclass? hget, hsuper]
      exact .missing hD (Heap.ne_of_get?_methodTable (hmethods ▸ hget))
  | @heir k parent methods s outer hD hsuper hmethods _ _ ih =>
    cases hget : k.own.methods.get? name with
    | some f =>
      rw [method?_of_own hget]
      exact .own hD (Heap.isLast_of_get?_methodTable (hmethods ▸ hget)).1 hget
    | none =>
      rw [method?_of_superclass? hget, hsuper]
      exact .inherited hD (Heap.ne_of_get?_methodTable (hmethods ▸ hget)) ih

/-- The class in whose declaration a method is found. -/
theorem owner (hk : k.Stands D h) (hf : k.method? name = some f) :
    ∃ owner : Class, owner.Stands D h ∧ owner.own.methods.get? name = some f := by
  induction hk with
  | @root k methods env hD hsuper hmethods henv =>
    cases hget : k.own.methods.get? name with
    | some g =>
      rw [method?_of_own hget] at hf
      exact ⟨k, .root hD hsuper hmethods henv, hget.trans hf⟩
    | none =>
      rw [method?_of_superclass? hget, hsuper] at hf
      cases hf
  | @heir k parent methods s outer hD hsuper hmethods hread hparent ih =>
    cases hget : k.own.methods.get? name with
    | some g =>
      rw [method?_of_own hget] at hf
      exact ⟨k, .heir hD hsuper hmethods hread hparent, hget.trans hf⟩
    | none =>
      rw [method?_of_superclass? hget, hsuper] at hf
      exact ih hf

/-- Where a method of a class comes from. -/
theorem declared (hk : k.Stands D h) (hf : k.own.methods.get? name = some f) :
    ∃ parent methods, D k parent methods ∧ FunctionDecl.IsLast name methods f.decl ∧
      f.isInitializer = decide (name = "init") := by
  cases hk with
  | root hD _ hmethods _ =>
    obtain ⟨hlast, -, hinit⟩ := Heap.isLast_of_get?_methodTable (hmethods ▸ hf)
    exact ⟨_, _, hD, hlast, hinit⟩
  | heir hD _ hmethods _ _ =>
    obtain ⟨hlast, -, hinit⟩ := Heap.isLast_of_get?_methodTable (hmethods ▸ hf)
    exact ⟨_, _, hD, hlast, hinit⟩

/-- A method with a `super` around it is one of a subclass, and the `super` is the superclass. -/
theorem superclass (hk : k.Stands D h) (hf : k.own.methods.get? name = some f) {w : Value}
    (hw : h.getAt? f.env 0 "super" = some w) :
    ∃ parent methods, D k (some parent) methods ∧ f.decl ∈ methods ∧ w = .class_ parent ∧
      parent.Stands D h := by
  cases hk with
  | @root _ _ env hD _ hmethods henv =>
    obtain ⟨-, rfl, -⟩ := Heap.isLast_of_get?_methodTable (hmethods ▸ hf)
    obtain ⟨s, hs, hread⟩ := Option.bind_eq_some_iff.1 hw
    obtain ⟨outer, houter⟩ : ∃ outer, f.env = s :: outer :=
      List.head?_eq_some_iff.1 (List.head?_eq_getElem? ▸ hs)
    rw [houter] at henv
    rw [Heap.Plain.super henv] at hread
    cases hread
  | @heir _ parent methods s outer hD _ hmethods hread hparent =>
    obtain ⟨hlast, henv, -⟩ := Heap.isLast_of_get?_methodTable (hmethods ▸ hf)
    rw [henv] at hw
    have hsuper : h.read s "super" = some w := hw
    exact ⟨parent, methods, hD, hlast.mem, Option.some.inj (hsuper.symm.trans hread), hparent⟩

/-- A method is an initializer by its name. -/
theorem isInitializer (hk : k.Stands D h) (hf : k.method? name = some f) :
    f.isInitializer = decide (name = "init") := by
  obtain ⟨owner, howner, hget⟩ := hk.owner hf
  obtain ⟨parent, methods, -, -, hinit⟩ := howner.declared hget
  exact hinit

end Class.Stands

/-! ## Activations -/

/-- The environment lies `depth` scopes inside an activation of a method: the scopes are those of
blocks and bodies, the next one has the object as `this`, and the rest is the environment of the
method, which is one of the class. -/
structure Heap.Activation (h : Heap) (env : Env) (depth : Nat) (k : Class) (f : Closure)
    (o : Object) : Prop where
  method : ∃ name, k.own.methods.get? name = some f
  scopes : ∃ inner t, env = inner ++ t :: f.env ∧ inner.length = depth ∧
    (∀ s ∈ inner, h.Plain s) ∧ h.read t "this" = some (.object o)

section

variable (D : Class → Option Class → List FunctionDecl → Prop) (h : Heap)

/-- Whatever `super` the part holds, the environment lies in an activation of a method that holds it
at the same place. -/
def Part.Placed (env : Env) (part : Part) : Prop :=
  ∀ ⦃n id⦄, part.Holds n id → ∃ depth k f o, h.Activation env depth k f o ∧ k.Stands D h ∧
    (Part.function false f.decl).Holds (depth + n) id

def Closure.Placed (code : Closure) : Prop := (Part.function false code.decl).Placed D h code.env

/-- The code of a function belongs where its environment leads to, and classes were declared. -/
def Value.Placed : Value → Prop
  | .function _ code => code.Placed D h
  | .class_ k => k.Stands D h
  | .object o => o.class_.Stands D h
  | .nil | .bool _ | .number _ | .text _ | .builtin _ => True

structure Heap.Placed : Prop where
  scopes : ∀ {s n v}, h.read s n = some v → v.Placed D h
  fields : ∀ {o n v}, (h.fieldsOf o).get? n = some v → v.Placed D h

/-- A heap in order in which the receivers of another one stay. -/
structure Heap.Leads (h' : Heap) : Prop where
  placed : h'.Placed D
  keeps : h.Keeps h'

end

variable {h h' h'' : Heap} {env : Env} {v : Value} {part owner : Part}

namespace Heap.Activation

variable {depth : Nat} {k : Class} {f : Closure} {o : Object}

theorem keep (ha : h.Activation env depth k f o) (hk : h.Keeps h') :
    h'.Activation env depth k f o := by
  obtain ⟨hm, inner, t, henv, hlen, hplain, hthis⟩ := ha
  exact ⟨hm, inner, t, henv, hlen, fun s hs => (hplain s hs).keep hk, hk.this hthis⟩

/-- A scope further in. -/
theorem enter (ha : h.Activation env depth k f o) {s : ScopeId} (hs : h.Plain s) :
    h.Activation (s :: env) (depth + 1) k f o := by
  obtain ⟨hm, inner, t, rfl, rfl, hplain, hthis⟩ := ha
  exact ⟨hm, s :: inner, t, rfl, rfl, List.forall_mem_cons.2 ⟨hs, hplain⟩, hthis⟩

/-- The object of the activation is what `this` means there. -/
theorem get?_this (ha : h.Activation env depth k f o) : h.get? env "this" = some (.object o) := by
  obtain ⟨-, inner, t, rfl, -, hplain, hthis⟩ := ha
  have hnone : inner.findSome? (h.read · "this") = none :=
    List.findSome?_eq_none_iff.2 fun s hs => (hplain s hs).this
  rw [get?, List.findSome?_append, hnone, Option.none_or, List.findSome?_cons, hthis]

theorem getAt?_this (ha : h.Activation env depth k f o) :
    h.getAt? env depth "this" = some (.object o) := by
  obtain ⟨-, inner, t, rfl, rfl, -, hthis⟩ := ha
  rw [getAt?, List.getElem?_append_right (Nat.le_refl _), Nat.sub_self]
  exact hthis

/-- Around the scope of the object there is the environment of the method. -/
theorem getAt?_succ (ha : h.Activation env depth k f o) (n : String) :
    h.getAt? env (depth + 1) n = h.getAt? f.env 0 n := by
  obtain ⟨-, inner, t, rfl, rfl, -, -⟩ := ha
  rw [getAt?, getAt?, List.getElem?_append_right (Nat.le_add_right _ 1), Nat.add_sub_cancel_left]
  rfl

/-- No scope before that of the object has a `this`. -/
theorem le_of_getAt? (ha : h.Activation env depth k f o) {n : Nat} {w : Value}
    (hw : h.getAt? env n "this" = some w) : depth ≤ n := by
  obtain ⟨-, inner, t, rfl, rfl, hplain, -⟩ := ha
  by_contra hlt
  have hlt : n < inner.length := Nat.lt_of_not_le hlt
  obtain ⟨s, hs, hread⟩ := Option.bind_eq_some_iff.1 hw
  rw [List.getElem?_append_left hlt] at hs
  rw [(hplain s (List.mem_of_getElem? hs)).this] at hread
  cases hread

end Heap.Activation

namespace Part.Placed

theorem keep (hp : part.Placed D h env) (hk : h.Keeps h') : part.Placed D h' env := by
  intro n id hholds
  obtain ⟨depth, k, f, o, ha, hstands, hf⟩ := hp hholds
  exact ⟨depth, k, f, o, ha.keep hk, hstands.keep hk, hf⟩

/-- A part of what runs, in the same scope. -/
theorem down (hp : owner.Placed D h env) (hmem : part ∈ owner.parts)
    (hclass : owner.superclass? = none) (hscope : owner.isScope = false) :
    part.Placed D h env := by
  intro n id hholds
  have hdown := Holds.down hmem hclass hholds
  rw [hscope, Bool.toNat_false, Nat.zero_add] at hdown
  exact hp hdown

/-- A part of what runs, in a scope of its own. -/
theorem enter (hp : owner.Placed D h env) (hmem : part ∈ owner.parts)
    (hclass : owner.superclass? = none) (hscope : owner.isScope = true) (hk : h.Keeps h')
    {s : ScopeId} (hs : h'.Plain s) : part.Placed D h' (s :: env) := by
  intro n id hholds
  have hdown := Holds.down hmem hclass hholds
  rw [hscope, Bool.toNat_true] at hdown
  obtain ⟨depth, k, f, o, ha, hstands, hf⟩ := hp hdown
  rw [← Nat.add_assoc] at hf
  exact ⟨depth + 1, k, f, o, (ha.keep hk).enter hs, hstands.keep hk, hf⟩

/-- A variable holds nothing. -/
theorem var (id : NodeId) (name : Token) : (Part.expr (.var id name)).Placed D h env := by
  intro n id' hholds
  cases hholds with
  | down hmem _ _ => cases hmem

end Part.Placed

theorem Value.Placed.keep (hv : v.Placed D h) (hk : h.Keeps h') : v.Placed D h' := by
  cases v with
  | function id code => exact Part.Placed.keep hv hk
  | class_ k => exact Class.Stands.keep hv hk
  | object o => exact Class.Stands.keep hv hk
  | nil | bool | number | text | builtin => trivial

theorem Value.placed_ofConstant (k : Constant) : (Value.ofConstant k).Placed D h := by
  cases k <;> trivial

/-! ## More declarations -/

section

variable {D' : Class → Option Class → List FunctionDecl → Prop}
  (hD : ∀ {k parent methods}, D k parent methods → D' k parent methods)
include hD

theorem Class.Stands.mono {k : Class} (hk : k.Stands D h) : k.Stands D' h := by
  induction hk with
  | root hk hsuper hmethods henv => exact .root (hD hk) hsuper hmethods henv
  | heir hk hsuper hmethods hread _ ih => exact .heir (hD hk) hsuper hmethods hread ih

theorem Class.Finds.mono {name : String} {k : Class} {found : Option Closure}
    (hk : k.Finds D name found) : k.Finds D' name found := by
  induction hk with
  | own hk hlast hget => exact .own (hD hk) hlast hget
  | inherited hk hnone _ ih => exact .inherited (hD hk) hnone ih
  | missing hk hnone => exact .missing (hD hk) hnone

theorem Part.Placed.mono (hp : part.Placed D h env) : part.Placed D' h env := by
  intro n id hholds
  obtain ⟨depth, k, f, o, ha, hstands, hf⟩ := hp hholds
  exact ⟨depth, k, f, o, ha, hstands.mono hD, hf⟩

theorem Value.Placed.mono (hv : v.Placed D h) : v.Placed D' h := by
  cases v with
  | function id code => exact Part.Placed.mono hD hv
  | class_ k => exact Class.Stands.mono hD hv
  | object o => exact Class.Stands.mono hD hv
  | nil | bool | number | text | builtin => trivial

theorem Heap.Placed.mono (hh : h.Placed D) : h.Placed D' :=
  ⟨fun hr => (hh.scopes hr).mono hD, fun hr => (hh.fields hr).mono hD⟩

end

namespace Heap

theorem Leads.trans (a : h.Leads D h') (b : h'.Leads D h'') : h.Leads D h'' :=
  ⟨b.placed, a.keeps.trans b.keeps⟩

namespace Placed

variable (hh : h.Placed D)
include hh

/-! ## Changes of the heap -/

theorem write {n : String} (hn : Kind.ofWord n = .identifier) (hv : v.Placed D h) (s : ScopeId) :
    h.Leads D (h.write s n v) := by
  have hk : h.Keeps (h.write s n v) := .write hn s v
  refine ⟨⟨fun hr => ?_, fun hr => (hh.fields hr).keep hk⟩, hk⟩
  rw [read_write] at hr
  split at hr
  · cases hr
    exact hv.keep hk
  · exact (hh.scopes hr).keep hk

theorem newScope {b : Bindings Value} (hb : ∀ n v, b.get? n = some v → v.Placed D h) :
    h.Leads D (h.newScope b).2 := by
  have hk := Keeps.newScope h b
  refine ⟨⟨fun hr => ?_, fun hr => (hh.fields hr).keep hk⟩, hk⟩
  rw [read_newScope] at hr
  split at hr
  · exact (hb _ _ hr).keep hk
  · exact (hh.scopes hr).keep hk

/-- A scope with one binding. -/
theorem newScope_single (n : String) (hv : v.Placed D h) : h.Leads D (h.newScope [(n, v)]).2 := by
  refine hh.newScope fun n' w hget => ?_
  obtain ⟨-, rfl⟩ := Bindings.eq_of_get?_single hget
  exact hv

theorem freshId : h.Leads D h.freshId.2 := by
  have hk : h.Keeps h.freshId.2 := .of_scopes_eq rfl
  exact ⟨⟨fun hr => (hh.scopes (by exact hr)).keep hk, fun hr => (hh.fields (by exact hr)).keep hk⟩,
    hk⟩

theorem newObject (k : Class) : h.Leads D (h.newObject k).2 := by
  have hk : h.Keeps (h.newObject k).2 := .of_scopes_eq rfl
  exact ⟨⟨fun hr => (hh.scopes (by exact hr)).keep hk,
    fun hr => (hh.fields (h.get?_fieldsOf_newObject hr)).keep hk⟩, hk⟩

theorem setField (hv : v.Placed D h) (o : Object) (n : String) : h.Leads D (h.setField o n v) := by
  have hk : h.Keeps (h.setField o n v) := .of_scopes_eq rfl
  refine ⟨⟨fun hr => (hh.scopes (by exact hr)).keep hk, fun {o' n' w} hr => ?_⟩, hk⟩
  rcases h.eq_or_get?_of_setField hr with rfl | hr
  · exact hv.keep hk
  · exact (hh.fields hr).keep hk

/-- A method that is bound to an object starts an activation. -/
theorem bind {k : Class} (hk : k.Stands D h) {name : String} {f : Closure}
    (hf : k.method? name = some f) {o : Object} (ho : o.class_.Stands D h) :
    h.Leads D (h.bind f o).2 ∧ (h.bind f o).1.Placed D (h.bind f o).2 := by
  have hl : h.Leads D (h.bind f o).2 := hh.newScope_single "this" (v := .object o) ho
  obtain ⟨owner, howner, hget⟩ := hk.owner hf
  refine ⟨hl, fun n id hholds => ⟨0, owner, f, o, ⟨⟨name, hget⟩, [], h.scopes.size, rfl, rfl,
    List.forall_mem_nil _, ?_⟩, howner.keep hl.keeps, ?_⟩⟩
  · show (h.newScope [("this", .object o)]).2.read h.scopes.size "this" = _
    rw [read_newScope, if_pos rfl]
    rfl
  · rw [Nat.zero_add]
    exact hholds

theorem define {n : String} (hn : Kind.ofWord n = .identifier) (hv : v.Placed D h) (env : Env) :
    h.Leads D (h.define env n v) := by
  cases env with
  | nil => exact ⟨hh, .refl h⟩
  | cons s outer => exact hh.write hn hv s

theorem declareFunction {decl : FunctionDecl} (hn : Kind.ofWord decl.name.lexeme = .identifier)
    (hdecl : (Part.function false decl).Placed D h env) :
    h.Leads D (h.declareFunction env decl) := by
  have hid := hh.freshId
  have hv : (Value.function h.freshId.1 ⟨decl, env, false⟩).Placed D h.freshId.2 :=
    hdecl.keep hid.keeps
  exact hid.trans (hid.placed.define hn hv env)

theorem newClass (henv : env.Open h) {name : String} {parent : Option Class}
    {methods : List FunctionDecl} (hparent : ∀ k ∈ parent, k.Stands D h)
    (hD : D (h.newClass env name parent methods).1 parent methods) :
    h.Leads D (h.newClass env name parent methods).2 ∧
      (h.newClass env name parent methods).1.Stands D (h.newClass env name parent methods).2 := by
  have hid := hh.freshId
  cases parent with
  | none => exact ⟨hid, .root hD rfl rfl (henv.keep hid.keeps)⟩
  | some k =>
    have hk : k.Stands D h := hparent k rfl
    have hscope := hid.trans (hid.placed.newScope_single "super" (v := .class_ k)
      (hk.keep hid.keeps))
    have hread : (h.freshId.2.newScope [("super", .class_ k)]).2.read h.freshId.2.scopes.size
        "super" = some (.class_ k) := by
      rw [read_newScope, if_pos rfl]
      rfl
    exact ⟨hscope, .heir hD rfl rfl hread (hk.keep hscope.keeps)⟩

theorem declareClass (henv : env.Open h) {name : String} (hn : Kind.ofWord name = .identifier)
    {parent : Option Class} {methods : List FunctionDecl} (hparent : ∀ k ∈ parent, k.Stands D h)
    (hD : D ((h.define env name .nil).newClass env name parent methods).1 parent methods) :
    h.Leads D (h.declareClass env name parent methods) := by
  have hnil := hh.define hn (v := .nil) trivial env
  obtain ⟨hclass, hk⟩ := hnil.placed.newClass (henv.keep hnil.keeps)
    (fun k hk => (hparent k hk).keep hnil.keeps) hD
  unfold Heap.declareClass
  dsimp only
  split
  · next s _ =>
    exact (hnil.trans hclass).trans (hclass.placed.write hn (v := .class_ _) hk s)
  · exact hnil.trans hclass

end Placed

end Heap

end Lox
