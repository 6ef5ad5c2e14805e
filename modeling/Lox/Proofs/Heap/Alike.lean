import Lox.Heap
import Lox.Proofs.Tree.Alike

/-!
# Heaps that are alike

Values are alike if they are the same up to the code in them, which is alike: numbers of functions,
classes and objects and the scopes they refer to are the same. Heaps are alike cell by cell. Every
operation of a heap, applied to alike values, gives alike heaps and alike results.
-/

namespace Lox

/-! ## Tables -/

/-- The same names in the same order, with corresponding values. -/
def Bindings.Alike {α : Type} (R : α → α → Prop) (b b' : Bindings α) : Prop :=
  List.Forall₂ (fun p p' => p'.1 = p.1 ∧ R p.2 p'.2) b b'

namespace Bindings.Alike

variable {α : Type} {R S : α → α → Prop} {b b' : Bindings α}

theorem mono (h : R ≤ S) (hb : b.Alike R b') : b.Alike S b' :=
  hb.imp fun _ _ hp => ⟨hp.1, h _ _ hp.2⟩

theorem get? (hb : b.Alike R b') (name : String) :
    Option.Rel R (b.get? name) (b'.get? name) := by
  induction hb with
  | nil => exact .none
  | @cons p p' b b' hp _ ih =>
    obtain ⟨n, v⟩ := p
    obtain ⟨n', v'⟩ := p'
    obtain ⟨rfl, hv⟩ := hp
    rw [get?_cons, get?_cons]
    split
    · exact .some hv
    · exact ih

theorem insert (hb : b.Alike R b') (name : String) {v v' : α} (hv : R v v') :
    (b.insert name v).Alike R (b'.insert name v') := by
  induction hb with
  | nil => exact .cons ⟨rfl, hv⟩ .nil
  | @cons p p' b b' hp hs ih =>
    obtain ⟨n, w⟩ := p
    obtain ⟨n', w'⟩ := p'
    obtain ⟨rfl, hw⟩ := hp
    rw [Bindings.insert, Bindings.insert]
    split
    · exact .cons ⟨rfl, hv⟩ hs
    · exact .cons ⟨rfl, hw⟩ ih

end Bindings.Alike

/-- As many cells, with corresponding contents. -/
structure CellsAlike {α : Type} (R : α → α → Prop) (a a' : Array α) : Prop where
  size : a'.size = a.size
  cell : ∀ i : Nat, Option.Rel R a[i]? a'[i]?

namespace CellsAlike

variable {α : Type} {R S : α → α → Prop} {a a' : Array α}

theorem mono (h : R ≤ S) (ha : CellsAlike R a a') : CellsAlike S a a' :=
  ⟨ha.size, fun i => (ha.cell i).mono h⟩

theorem push (ha : CellsAlike R a a') {x x' : α} (hx : R x x') :
    CellsAlike R (a.push x) (a'.push x') := by
  refine ⟨by rw [Array.size_push, Array.size_push, ha.size], fun i => ?_⟩
  rw [Array.getElem?_push, Array.getElem?_push, ha.size]
  split
  · exact .some hx
  · exact ha.cell i

theorem modify (ha : CellsAlike R a a') (i : Nat) {f f' : α → α}
    (hf : ∀ x x', R x x' → R (f x) (f' x')) : CellsAlike R (a.modify i f) (a'.modify i f') := by
  refine ⟨by rw [Array.size_modify, Array.size_modify, ha.size], fun j => ?_⟩
  rw [Array.getElem?_modify, Array.getElem?_modify]
  have hcell := ha.cell j
  generalize a[j]? = x at hcell ⊢
  generalize a'[j]? = x' at hcell ⊢
  split
  · cases hcell with
    | none => exact .none
    | some hx => exact .some (hf _ _ hx)
  · exact hcell

end CellsAlike

/-! ## Values -/

section

variable (N : NodeId → NodeId → Prop) (T : Likeness)

/-- Functions with alike code in the same environment. -/
structure Closure.Alike (f f' : Closure) : Prop where
  decl : f.decl.Alike N T f'.decl
  env : f'.env = f.env
  isInitializer : f'.isInitializer = f.isInitializer

structure ClassLayer.Alike (l l' : ClassLayer) : Prop where
  id : l'.id = l.id
  name : l'.name = l.name
  methods : l.methods.Alike (Closure.Alike N T) l'.methods

structure Class.Alike (k k' : Class) : Prop where
  own : k.own.Alike N T k'.own
  ancestors : List.Forall₂ (ClassLayer.Alike N T) k.ancestors k'.ancestors

structure Object.Alike (o o' : Object) : Prop where
  id : o'.id = o.id
  class_ : o.class_.Alike N T o'.class_

inductive Value.Alike : Value → Value → Prop
  | nil : Value.Alike .nil .nil
  | bool (b : Bool) : Value.Alike (.bool b) (.bool b)
  | number (x : Float) : Value.Alike (.number x) (.number x)
  | text (s : String) : Value.Alike (.text s) (.text s)
  | builtin (f : Builtin) : Value.Alike (.builtin f) (.builtin f)
  | function (id : Nat) {f f' : Closure} :
      f.Alike N T f' → Value.Alike (.function id f) (.function id f')
  | class_ {k k' : Class} : k.Alike N T k' → Value.Alike (.class_ k) (.class_ k')
  | object {o o' : Object} : o.Alike N T o' → Value.Alike (.object o) (.object o')

/-- Heaps that are alike cell by cell. -/
structure Heap.Alike (h h' : Heap) : Prop where
  scopes : CellsAlike (Bindings.Alike (Value.Alike N T)) h.scopes h'.scopes
  fields : CellsAlike (Bindings.Alike (Value.Alike N T)) h.fields h'.fields
  nextId : h'.nextId = h.nextId

end

section

variable {N N' : NodeId → NodeId → Prop} {T : Likeness} (hN : N ≤ N')
include hN

theorem Closure.Alike.mono {f f' : Closure} (h : f.Alike N T f') : f.Alike N' T f' :=
  ⟨h.decl.mono hN le_rfl, h.env, h.isInitializer⟩

theorem ClassLayer.Alike.mono {l l' : ClassLayer} (h : l.Alike N T l') : l.Alike N' T l' :=
  ⟨h.id, h.name, h.methods.mono fun _ _ => Closure.Alike.mono hN⟩

theorem Class.Alike.mono {k k' : Class} (h : k.Alike N T k') : k.Alike N' T k' :=
  ⟨h.own.mono hN, h.ancestors.imp fun _ _ => ClassLayer.Alike.mono hN⟩

theorem Value.Alike.mono {v v' : Value} (h : v.Alike N T v') : v.Alike N' T v' := by
  cases h with
  | nil => exact .nil
  | bool b => exact .bool b
  | number x => exact .number x
  | text s => exact .text s
  | builtin f => exact .builtin f
  | function id h => exact .function id (h.mono hN)
  | class_ h => exact .class_ (h.mono hN)
  | object h => exact .object ⟨h.id, h.class_.mono hN⟩

theorem Heap.Alike.mono {h h' : Heap} (hh : h.Alike N T h') : h.Alike N' T h' :=
  ⟨hh.scopes.mono fun _ _ => Bindings.Alike.mono fun _ _ => Value.Alike.mono hN,
    hh.fields.mono fun _ _ => Bindings.Alike.mono fun _ _ => Value.Alike.mono hN, hh.nextId⟩

end

variable {N : NodeId → NodeId → Prop} {T : Likeness}

namespace Closure.Alike

variable {f f' : Closure}

theorem name (h : f.Alike N T f') : f'.name = f.name := by
  obtain ⟨⟨n, ps, b⟩, env, i⟩ := f
  obtain ⟨⟨n', ps', b'⟩, env', i'⟩ := f'
  obtain ⟨⟨hname, _, _⟩, _, _⟩ := h
  exact T.lexeme hname.rel

theorem arity (h : f.Alike N T f') : f'.arity = f.arity := by
  obtain ⟨⟨n, ps, b⟩, env, i⟩ := f
  obtain ⟨⟨n', ps', b'⟩, env', i'⟩ := f'
  obtain ⟨⟨_, hparams, _⟩, _, _⟩ := h
  exact hparams.length_eq.symm

end Closure.Alike

namespace Class.Alike

variable {k k' : Class}

theorem method? (h : k.Alike N T k') (name : String) :
    Option.Rel (Closure.Alike N T) (k.method? name) (k'.method? name) := by
  have hall : List.Forall₂ (ClassLayer.Alike N T) k.lineage k'.lineage := .cons h.own h.ancestors
  unfold Class.method?
  generalize k.lineage = ls at hall ⊢
  generalize k'.lineage = ls' at hall ⊢
  induction hall with
  | nil => exact .none
  | @cons l l' ls ls' hl _ ih =>
    have hget := hl.methods.get? name
    rw [List.findSome?_cons, List.findSome?_cons]
    generalize Bindings.get? l.methods name = x at hget ⊢
    generalize Bindings.get? l'.methods name = x' at hget ⊢
    cases hget with
    | none => exact ih
    | some hf => exact .some hf

theorem arity (h : k.Alike N T k') : k'.arity = k.arity := by
  have hinit := h.method? "init"
  unfold Class.arity
  generalize k.method? "init" = x at hinit ⊢
  generalize k'.method? "init" = x' at hinit ⊢
  cases hinit with
  | none => rfl
  | some hf => exact hf.arity

end Class.Alike

namespace Value.Alike

variable {v v' w w' : Value}

theorem ofConstant (k : Constant) : (Value.ofConstant k).Alike N T (.ofConstant k) := by
  cases k with
  | nil => exact .nil
  | bool b => exact .bool b
  | number x => exact .number x
  | text s => exact .text s

theorem truthy (h : v.Alike N T v') : v'.truthy = v.truthy := by
  cases h <;> rfl

theorem equals (hv : v.Alike N T v') (hw : w.Alike N T w') : v'.equals w' = v.equals w := by
  cases hv with
  | class_ hk =>
    cases hw with
    | class_ hk' => rw [Value.equals, Value.equals, hk.own.id, hk'.own.id]
    | _ => rfl
  | object ho =>
    cases hw with
    | object ho' => rw [Value.equals, Value.equals, ho.id, ho'.id]
    | _ => rfl
  | _ => cases hw <;> rfl

theorem arity? (h : v.Alike N T v') : v'.arity? = v.arity? := by
  cases h with
  | function id hf => exact congrArg some hf.arity
  | class_ hk => exact congrArg some hk.arity
  | _ => rfl

theorem shown (h : v.Alike N T v') : v'.shown = v.shown := by
  cases h with
  | function id hf => rw [Value.shown, Value.shown, hf.name]
  | class_ hk => exact hk.own.name
  | object ho => exact congrArg (· ++ " instance") ho.class_.own.name
  | _ => rfl

end Value.Alike

/-! ## Operations -/

namespace Heap.Alike

variable {h h' : Heap}

theorem newScope (hh : h.Alike N T h') {b b' : Bindings Value} (hb : b.Alike (Value.Alike N T) b') :
    (h'.newScope b').1 = (h.newScope b).1 ∧ (h.newScope b).2.Alike N T (h'.newScope b').2 :=
  ⟨hh.scopes.size, hh.scopes.push hb, hh.fields, hh.nextId⟩

theorem nest (hh : h.Alike N T h') (env : Env) {b b' : Bindings Value}
    (hb : b.Alike (Value.Alike N T) b') :
    (h'.nest env b').1 = (h.nest env b).1 ∧ (h.nest env b).2.Alike N T (h'.nest env b').2 :=
  ⟨congrArg (· :: env) (hh.newScope hb).1, (hh.newScope hb).2⟩

theorem read (hh : h.Alike N T h') (scope : ScopeId) (name : String) :
    Option.Rel (Value.Alike N T) (h.read scope name) (h'.read scope name) := by
  have hcell := hh.scopes.cell scope
  unfold Heap.read
  generalize h.scopes[scope]? = x at hcell ⊢
  generalize h'.scopes[scope]? = x' at hcell ⊢
  cases hcell with
  | none => exact .none
  | some hb => exact hb.get? name

theorem binds (hh : h.Alike N T h') (scope : ScopeId) (name : String) :
    h'.binds scope name = h.binds scope name :=
  (hh.read scope name).isSome_eq

theorem write (hh : h.Alike N T h') (scope : ScopeId) (name : String) {v v' : Value}
    (hv : v.Alike N T v') : (h.write scope name v).Alike N T (h'.write scope name v') :=
  ⟨hh.scopes.modify scope fun _ _ hb => hb.insert name hv, hh.fields, hh.nextId⟩

theorem define (hh : h.Alike N T h') (env : Env) (name : String) {v v' : Value}
    (hv : v.Alike N T v') : (h.define env name v).Alike N T (h'.define env name v') := by
  cases env with
  | nil => exact hh
  | cons scope outer => exact hh.write scope name hv

theorem get? (hh : h.Alike N T h') (env : Env) (name : String) :
    Option.Rel (Value.Alike N T) (h.get? env name) (h'.get? env name) := by
  unfold Heap.get?
  induction env with
  | nil => exact .none
  | cons scope outer ih =>
    have hread := hh.read scope name
    rw [List.findSome?_cons, List.findSome?_cons]
    generalize h.read scope name = x at hread ⊢
    generalize h'.read scope name = x' at hread ⊢
    cases hread with
    | none => exact ih
    | some hv => exact .some hv

theorem scopeOf? (hh : h.Alike N T h') (env : Env) (name : String) :
    h'.scopeOf? env name = h.scopeOf? env name := by
  simp only [Heap.scopeOf?, hh.binds]

theorem getAt? (hh : h.Alike N T h') (env : Env) (distance : Nat) (name : String) :
    Option.Rel (Value.Alike N T) (h.getAt? env distance name) (h'.getAt? env distance name) := by
  unfold Heap.getAt?
  cases env[distance]? with
  | none => exact .none
  | some scope => exact hh.read scope name

theorem scopeAt? (hh : h.Alike N T h') (env : Env) (distance : Nat) (name : String) :
    h'.scopeAt? env distance name = h.scopeAt? env distance name := by
  simp only [Heap.scopeAt?, hh.binds]

theorem newObject (hh : h.Alike N T h') {k k' : Class} (hk : k.Alike N T k') :
    (h.newObject k).1.Alike N T (h'.newObject k').1 ∧
      (h.newObject k).2.Alike N T (h'.newObject k').2 :=
  ⟨⟨hh.fields.size, hk⟩, hh.scopes, hh.fields.push .nil, hh.nextId⟩

theorem fieldsOf (hh : h.Alike N T h') {o o' : Object} (ho : o.Alike N T o') :
    (h.fieldsOf o).Alike (Value.Alike N T) (h'.fieldsOf o') := by
  have hcell := hh.fields.cell o.id
  unfold Heap.fieldsOf
  rw [ho.id]
  generalize h.fields[o.id]? = x at hcell ⊢
  generalize h'.fields[o.id]? = x' at hcell ⊢
  cases hcell with
  | none => exact .nil
  | some hb => exact hb

theorem setField (hh : h.Alike N T h') {o o' : Object} (ho : o.Alike N T o') (name : String)
    {v v' : Value} (hv : v.Alike N T v') :
    (h.setField o name v).Alike N T (h'.setField o' name v') := by
  rw [Heap.setField, Heap.setField, ho.id]
  exact ⟨hh.scopes, hh.fields.modify _ fun _ _ hb => hb.insert name hv, hh.nextId⟩

theorem freshId (hh : h.Alike N T h') :
    h'.freshId.1 = h.freshId.1 ∧ h.freshId.2.Alike N T h'.freshId.2 :=
  ⟨hh.nextId, hh.scopes, hh.fields, congrArg (· + 1) hh.nextId⟩

theorem bind (hh : h.Alike N T h') {f f' : Closure} (hf : f.Alike N T f') {o o' : Object}
    (ho : o.Alike N T o') :
    (h.bind f o).1.Alike N T (h'.bind f' o').1 ∧ (h.bind f o).2.Alike N T (h'.bind f' o').2 := by
  have hb : Bindings.Alike (Value.Alike N T) [("this", .object o)] [("this", .object o')] :=
    .cons ⟨rfl, .object ho⟩ .nil
  obtain ⟨henv, hheap⟩ := hh.nest f.env hb
  rw [Heap.bind, Heap.bind, hf.env]
  exact ⟨⟨hf.decl, henv, hf.isInitializer⟩, hheap⟩

theorem newFunction (hh : h.Alike N T h') {f f' : Closure} (hf : f.Alike N T f') :
    (h.newFunction f).1.Alike N T (h'.newFunction f').1 ∧
      (h.newFunction f).2.Alike N T (h'.newFunction f').2 := by
  refine ⟨?_, hh.freshId.2⟩
  show (Value.function h.nextId f).Alike N T (.function h'.nextId f')
  rw [hh.nextId]
  exact .function _ hf

theorem boundMethod (hh : h.Alike N T h') {f f' : Closure} (hf : f.Alike N T f')
    {o o' : Object} (ho : o.Alike N T o') :
    (h.boundMethod f o).1.Alike N T (h'.boundMethod f' o').1 ∧
      (h.boundMethod f o).2.Alike N T (h'.boundMethod f' o').2 := by
  obtain ⟨hcode, hheap⟩ := hh.bind hf ho
  exact hheap.newFunction hcode

/-- The methods of a class are alike one by one, in the same environment. -/
theorem methodTable (env : Env) {methods methods' : List FunctionDecl}
    (hm : FunctionDecl.AlikeAll N T methods methods') :
    (Heap.methodTable env methods).Alike (Closure.Alike N T) (Heap.methodTable env methods') := by
  unfold Heap.methodTable
  have hgen : ∀ b b' : Bindings Closure, b.Alike (Closure.Alike N T) b' →
      Bindings.Alike (Closure.Alike N T)
        (methods.foldl (fun b decl =>
          b.insert decl.name.lexeme ⟨decl, env, decl.name.lexeme = "init"⟩) b)
        (methods'.foldl (fun b decl =>
          b.insert decl.name.lexeme ⟨decl, env, decl.name.lexeme = "init"⟩) b') := by
    induction methods generalizing methods' with
    | nil =>
      cases hm
      exact fun b b' hb => hb
    | cons f rest ih =>
      cases hm with
      | @cons _ f' _ rest' hf hs =>
        intro b b' hb
        have hname : f'.name.lexeme = f.name.lexeme := by
          cases hf with
          | mk hname _ _ => exact T.lexeme hname.rel
        rw [List.foldl_cons, List.foldl_cons]
        refine ih hs _ _ ?_
        rw [hname]
        exact hb.insert _ ⟨hf, rfl, rfl⟩
  exact hgen [] [] .nil

theorem newClass (hh : h.Alike N T h') (env : Env) (name : String) {parent parent' : Option Class}
    (hp : Option.Rel (Class.Alike N T) parent parent') {methods methods' : List FunctionDecl}
    (hm : FunctionDecl.AlikeAll N T methods methods') :
    (h.newClass env name parent methods).1.Alike N T (h'.newClass env name parent' methods').1 ∧
      (h.newClass env name parent methods).2.Alike N T
        (h'.newClass env name parent' methods').2 := by
  obtain ⟨hid, hheap⟩ := hh.freshId
  cases hp with
  | none => exact ⟨⟨⟨hid, rfl, methodTable env hm⟩, .nil⟩, hheap⟩
  | @some k k' hk =>
    have hb : Bindings.Alike (Value.Alike N T) [("super", .class_ k)] [("super", .class_ k')] :=
      .cons ⟨rfl, .class_ hk⟩ .nil
    obtain ⟨henv, hheap⟩ := hheap.nest env hb
    refine ⟨⟨⟨hid, rfl, ?_⟩, .cons hk.own hk.ancestors⟩, hheap⟩
    show Bindings.Alike _ (Heap.methodTable (h.freshId.2.nest env [("super", .class_ k)]).1 methods)
      (Heap.methodTable (h'.freshId.2.nest env [("super", .class_ k')]).1 methods')
    rw [henv]
    exact methodTable _ hm

theorem declareClass (hh : h.Alike N T h') (env : Env) (name : String)
    {parent parent' : Option Class} (hp : Option.Rel (Class.Alike N T) parent parent')
    {methods methods' : List FunctionDecl} (hm : FunctionDecl.AlikeAll N T methods methods') :
    (h.declareClass env name parent methods).Alike N T
      (h'.declareClass env name parent' methods') := by
  obtain ⟨hk, hheap⟩ := (hh.define env name .nil).newClass env name hp hm
  unfold Heap.declareClass
  dsimp only
  rw [hheap.scopeOf?]
  split
  · exact hheap.write _ name (.class_ hk)
  · exact hheap

theorem declareFunction (hh : h.Alike N T h') (env : Env) {f f' : FunctionDecl}
    (hf : f.Alike N T f') : (h.declareFunction env f).Alike N T (h'.declareFunction env f') := by
  have hcode : Closure.Alike N T ⟨f, env, false⟩ ⟨f', env, false⟩ := ⟨hf, rfl, rfl⟩
  have hname : f'.name.lexeme = f.name.lexeme := hcode.name
  obtain ⟨hv, hheap⟩ := hh.newFunction hcode
  unfold Heap.declareFunction
  rw [hname]
  exact hheap.define env f.name.lexeme hv

end Heap.Alike

end Lox
