import Lox.Proofs.Heap.Fits
import Lox.Proofs.Token.Words

/-!
# Receivers in the heap

A method finds the object that it runs on under the name `this`, and the superclass of its class
under `super`. Programs cannot declare these names, so `this` is always an object and `super` always
a class (`Value.Suits`). An initializer gives its object when it is done, and looks for it in the
scope around its parameters. In a class it stands there unbound, but every function that a program
can get hold of has been bound (`Value.Tied`).

Every operation on the heap keeps it so, and keeps all bindings (`Heap.Ties`).
-/

namespace Lox

/-- An initializer stands just inside the scope of its object. -/
def Closure.Tied (h : Heap) (code : Closure) : Prop :=
  code.isInitializer → ∃ s outer, code.env = s :: outer ∧ h.binds s "this"

/-- A value that is an initializer is bound to its object. -/
def Value.Tied (h : Heap) : Value → Prop
  | .function _ code => code.Tied h
  | .nil | .bool _ | .number _ | .text _ | .builtin _ | .class_ _ | .object _ => True

/-- A value may stand under a name. -/
structure Value.Suits (name : String) (v : Value) : Prop where
  this : name = "this" → ∃ o, v = .object o
  super : name = "super" → ∃ k, v = .class_ k

/-- Every value in the heap is bound, and stands where it may. -/
structure Heap.Tied (h : Heap) : Prop where
  scopes : ∀ {s n v}, h.read s n = some v → v.Suits n ∧ v.Tied h
  fields : ∀ {o n v}, (h.fieldsOf o).get? n = some v → v.Tied h

/-- A heap in order that has all bindings of another one. -/
structure Heap.Ties (h h' : Heap) : Prop where
  tied : h'.Tied
  keeps : ∀ {s n}, h.binds s n → h'.binds s n

variable {h h' h'' : Heap} {v : Value}

/-! ## Values -/

theorem Closure.Tied.keep {code : Closure} (hc : code.Tied h)
    (hk : ∀ {s n}, h.binds s n → h'.binds s n) : code.Tied h' := by
  intro hinit
  obtain ⟨s, outer, henv, hb⟩ := hc hinit
  exact ⟨s, outer, henv, hk hb⟩

theorem Value.Tied.keep (hv : v.Tied h) (hk : ∀ {s n}, h.binds s n → h'.binds s n) :
    v.Tied h' := by
  cases v with
  | function id code => exact Closure.Tied.keep hv hk
  | _ => trivial

/-- A word that is an identifier can name any value. -/
theorem Value.suits_of_identifier {name : String} (hn : Kind.ofWord name = .identifier)
    (v : Value) : v.Suits name :=
  ⟨fun h => absurd h (Kind.ne_this_of_ofWord hn), fun h => absurd h (Kind.ne_super_of_ofWord hn)⟩

namespace Heap

theorem Ties.trans (a : h.Ties h') (b : h'.Ties h'') : h.Ties h'' :=
  ⟨b.tied, fun hb => b.keeps (a.keeps hb)⟩

theorem Ties.closure (a : h.Ties h') {code : Closure} (hc : code.Tied h) : code.Tied h' :=
  hc.keep a.keeps

theorem Ties.value (a : h.Ties h') (hv : v.Tied h) : v.Tied h' := hv.keep a.keeps

namespace Tied

/-! ## Changes of the heap -/

theorem write (ht : h.Tied) {n : String} (hs : v.Suits n) (hv : v.Tied h) (s : ScopeId) :
    h.Ties (h.write s n v) := by
  have hk : ∀ {s' n'}, h.binds s' n' → (h.write s n v).binds s' n' :=
    fun hb => (h.binds_write ..).2 (.inr hb)
  refine ⟨⟨fun hr => ?_, fun hr => (ht.fields hr).keep hk⟩, hk⟩
  rw [read_write] at hr
  split at hr
  · next heq =>
    cases hr
    exact ⟨heq.2.1 ▸ hs, hv.keep hk⟩
  · obtain ⟨hs', hv'⟩ := ht.scopes hr
    exact ⟨hs', hv'.keep hk⟩

theorem newScope (ht : h.Tied) {b : Bindings Value}
    (hb : ∀ n v, b.get? n = some v → v.Suits n ∧ v.Tied h) : h.Ties (h.newScope b).2 := by
  have hgrows : h.Grows 0 (h.newScope b).2 := .newScope b
  have hk : ∀ {s n}, h.binds s n → (h.newScope b).2.binds s n := hgrows.keeps
  refine ⟨⟨fun hr => ?_, fun hr => (ht.fields hr).keep hk⟩, hk⟩
  rw [read_newScope] at hr
  split at hr
  · obtain ⟨hs, hv⟩ := hb _ _ hr
    exact ⟨hs, hv.keep hk⟩
  · obtain ⟨hs, hv⟩ := ht.scopes hr
    exact ⟨hs, hv.keep hk⟩

/-- A scope with one binding. -/
theorem newScope_single (ht : h.Tied) {n : String} (hs : v.Suits n) (hv : v.Tied h) :
    h.Ties (h.newScope [(n, v)]).2 := by
  refine ht.newScope fun n' v' hget => ?_
  obtain ⟨heq, rfl⟩ := Bindings.eq_of_get?_single hget
  exact ⟨heq ▸ hs, hv⟩

theorem freshId (ht : h.Tied) : h.Ties h.freshId.2 := by
  have hk : ∀ {s n}, h.binds s n → h.freshId.2.binds s n := id
  refine ⟨⟨fun hr => ?_, fun hr => (ht.fields (by exact hr)).keep hk⟩, hk⟩
  obtain ⟨hs, hv⟩ := ht.scopes (by exact hr)
  exact ⟨hs, hv.keep hk⟩

theorem newObject (ht : h.Tied) (k : Class) : h.Ties (h.newObject k).2 := by
  have hk : ∀ {s n}, h.binds s n → (h.newObject k).2.binds s n := id
  refine ⟨⟨fun hr => ?_, fun hr => (ht.fields (h.get?_fieldsOf_newObject hr)).keep hk⟩, hk⟩
  obtain ⟨hs, hv⟩ := ht.scopes (by exact hr)
  exact ⟨hs, hv.keep hk⟩

theorem setField (ht : h.Tied) (hv : v.Tied h) (o : Object) (n : String) :
    h.Ties (h.setField o n v) := by
  have hk : ∀ {s n'}, h.binds s n' → (h.setField o n v).binds s n' := id
  refine ⟨⟨fun hr => ?_, fun {o' n' w} hr => ?_⟩, hk⟩
  · obtain ⟨hs, hw⟩ := ht.scopes (by exact hr)
    exact ⟨hs, hw.keep hk⟩
  · rcases h.eq_or_get?_of_setField hr with rfl | hr
    · exact hv.keep hk
    · exact (ht.fields hr).keep hk

/-- A method that is bound to an object is tied to it. -/
theorem bind (ht : h.Tied) (method : Closure) (o : Object) :
    h.Ties (h.bind method o).2 ∧ (h.bind method o).1.Tied (h.bind method o).2 := by
  have hs : (Value.object o).Suits "this" := ⟨fun _ => ⟨o, rfl⟩, fun hn => absurd hn (by decide)⟩
  refine ⟨ht.newScope_single hs trivial, fun _ => ⟨h.scopes.size, method.env, rfl, ?_⟩⟩
  show (h.newScope [("this", .object o)]).2.binds h.scopes.size "this"
  rw [binds_newScope, if_pos rfl]
  rfl

theorem define (ht : h.Tied) {n : String} (hs : v.Suits n) (hv : v.Tied h) (env : Env) :
    h.Ties (h.define env n v) := by
  cases env with
  | nil => exact ⟨ht, id⟩
  | cons s outer => exact ht.write hs hv s

theorem declareFunction (ht : h.Tied) {decl : FunctionDecl}
    (hn : Kind.ofWord decl.name.lexeme = .identifier) (env : Env) :
    h.Ties (h.declareFunction env decl) := by
  have hv : (Value.function h.freshId.1 ⟨decl, env, false⟩).Tied h.freshId.2 :=
    fun hinit => Bool.noConfusion hinit
  exact ht.freshId.trans (ht.freshId.tied.define (Value.suits_of_identifier hn _) hv env)

theorem newClass (ht : h.Tied) (env : Env) (name : String) (parent : Option Class)
    (methods : List FunctionDecl) : h.Ties (h.newClass env name parent methods).2 := by
  cases parent with
  | none => exact ht.freshId
  | some k =>
    have hs : (Value.class_ k).Suits "super" := ⟨fun hn => absurd hn (by decide), fun _ => ⟨k, rfl⟩⟩
    exact ht.freshId.trans (ht.freshId.tied.newScope_single hs trivial)

theorem declareClass (ht : h.Tied) {name : String} (hn : Kind.ofWord name = .identifier) (env : Env)
    (parent : Option Class) (methods : List FunctionDecl) :
    h.Ties (h.declareClass env name parent methods) := by
  have hsuits := Value.suits_of_identifier hn
  have hnil : h.Ties (h.define env name .nil) := ht.define (hsuits .nil) trivial env
  have hclass := hnil.trans (hnil.tied.newClass env name parent methods)
  unfold Heap.declareClass
  dsimp only
  split
  · next s _ => exact hclass.trans (hclass.tied.write (hsuits (.class_ _)) trivial s)
  · exact hclass

end Tied

end Heap

end Lox
