import Lox.Proofs.Scoping.Realization

/-!
# Heaps in order

A function is in order if its declaration fits a context that the environment of the function
realizes. A method is looked up unbound, so the scope of `this` is still missing around it. A
heap is in order if every value in it is (`Heap.Fits`), and every operation of the machine on the
heap keeps it so.
-/

namespace Lox

open Scoping

variable (V : Visit → Prop)

/-- The environment of a function realizes the context of its declaration. -/
def Closure.Fits (h : Heap) (code : Closure) : Prop :=
  ∃ (ctx : Context) (kind : FunctionContext),
    Settled ctx.scopes ∧ h.Models ctx.scopes code.env ∧ code.decl.Fits V ctx kind

/-- The same for a method, which is not yet inside the scope of `this`. -/
def Closure.FitsMethod (h : Heap) (code : Closure) : Prop :=
  ∃ (ctx : Context) (kind : FunctionContext),
    Settled ctx.scopes ∧ h.Models ctx.scopes code.env ∧
      code.decl.Fits V (ctx.enter.add "this" true) kind

/-- The methods of a class and of its ancestors are in order. -/
def Class.Fits (h : Heap) (k : Class) : Prop :=
  ∀ layer ∈ k.lineage, ∀ name f, layer.methods.get? name = some f → f.FitsMethod V h

/-- A value is in order. -/
def Value.Fits (h : Heap) : Value → Prop
  | .function _ code => code.Fits V h
  | .class_ k => k.Fits V h
  | .object o => o.class_.Fits V h
  | .nil | .bool _ | .number _ | .text _ | .builtin _ => True

/-- Every value in the heap is in order. -/
structure Heap.Fits (h : Heap) : Prop where
  nonempty : 0 < h.scopes.size
  scopes : ∀ {s n v}, h.read s n = some v → v.Fits V h
  fields : ∀ {o n v}, (h.fieldsOf o).get? n = some v → v.Fits V h

variable {V} {h h' : Heap} {top : ScopeId}

/-! ## Values stay in order -/

theorem Closure.Fits.grows {code : Closure} (hc : code.Fits V h) (hg : h.Grows top h') :
    code.Fits V h' := by
  obtain ⟨ctx, kind, hs, hm, hf⟩ := hc
  exact ⟨ctx, kind, hs, hm.grows hg, hf⟩

theorem Closure.FitsMethod.grows {code : Closure} (hc : code.FitsMethod V h)
    (hg : h.Grows top h') : code.FitsMethod V h' := by
  obtain ⟨ctx, kind, hs, hm, hf⟩ := hc
  exact ⟨ctx, kind, hs, hm.grows hg, hf⟩

theorem Class.Fits.grows {k : Class} (hk : k.Fits V h) (hg : h.Grows top h') : k.Fits V h' :=
  fun layer hl name f hf => (hk layer hl name f hf).grows hg

theorem Value.Fits.grows {v : Value} (hv : v.Fits V h) (hg : h.Grows top h') : v.Fits V h' := by
  cases v with
  | function id code => exact Closure.Fits.grows hv hg
  | class_ k => exact Class.Fits.grows hv hg
  | object o => exact Class.Fits.grows hv hg
  | nil | bool | number | text | builtin => trivial

theorem Value.fits_ofConstant (k : Constant) : (Value.ofConstant k).Fits V h := by
  cases k <;> trivial

theorem Class.Fits.method {k : Class} (hk : k.Fits V h) {name : String} {f : Closure}
    (hf : k.method? name = some f) : f.FitsMethod V h := by
  obtain ⟨layer, hl, hget⟩ := List.exists_of_findSome?_eq_some hf
  exact hk layer hl name f hget

/-! ## Changes of the heap -/

namespace Heap.Fits

/-- The value may be in order only after it has been written: a function sees its own name. -/
theorem write (hf : h.Fits V) {v : Value} {s : ScopeId} {n : String}
    (hv : v.Fits V (h.write s n v)) : (h.write s n v).Fits V := by
  have hg : h.Grows s (h.write s n v) := .write_top n v
  refine ⟨by simpa using hf.nonempty, ?_, fun hr => (hf.fields hr).grows hg⟩
  intro s' n' w hr
  rw [read_write] at hr
  split at hr
  · cases hr
    exact hv
  · exact (hf.scopes hr).grows hg

theorem newScope (hf : h.Fits V) {b : Bindings Value}
    (hb : ∀ n v, b.get? n = some v → v.Fits V h) : (h.newScope b).2.Fits V := by
  have hg : h.Grows 0 (h.newScope b).2 := .newScope b
  refine ⟨by simp, ?_, fun hr => (hf.fields hr).grows hg⟩
  intro s n v hr
  rw [read_newScope] at hr
  split at hr
  · exact (hb n v hr).grows hg
  · exact (hf.scopes hr).grows hg

theorem freshId (hf : h.Fits V) : h.freshId.2.Fits V := by
  have hg : h.Grows 0 h.freshId.2 := .of_scopes_eq rfl
  exact ⟨hf.nonempty, fun hr => (hf.scopes (by exact hr)).grows hg,
    fun hr => (hf.fields (by exact hr)).grows hg⟩

theorem newObject (hf : h.Fits V) (k : Class) : (h.newObject k).2.Fits V := by
  have hg : h.Grows 0 (h.newObject k).2 := .of_scopes_eq rfl
  exact ⟨hf.nonempty, fun hr => (hf.scopes (by exact hr)).grows hg,
    fun hr => (hf.fields (h.get?_fieldsOf_newObject hr)).grows hg⟩

theorem setField (hf : h.Fits V) {v : Value} (hv : v.Fits V h) (o : Object) (n : String) :
    (h.setField o n v).Fits V := by
  have hg : h.Grows 0 (h.setField o n v) := .of_scopes_eq rfl
  refine ⟨hf.nonempty, fun hr => (hf.scopes (by exact hr)).grows hg, ?_⟩
  intro o' n' w hr
  rcases h.eq_or_get?_of_setField hr with rfl | hr
  · exact hv.grows hg
  · exact (hf.fields hr).grows hg

end Heap.Fits

/-! ## Methods and classes -/

/-- Binding a method puts the scope of `this` around it. -/
theorem Heap.Fits.bind (hf : h.Fits V) {method : Closure} (hm : method.FitsMethod V h)
    {o : Object} (ho : o.class_.Fits V h) :
    (h.bind method o).1.Fits V (h.bind method o).2 ∧ (h.bind method o).2.Fits V := by
  have hheap : (h.newScope [("this", .object o)]).2.Fits V := hf.newScope (by
    intro n v hv
    obtain ⟨-, rfl⟩ := Bindings.eq_of_get?_single hv
    exact ho)
  obtain ⟨ctx, kind, hs, hmod, hfit⟩ := hm
  have hr := hmod.enter hf.nonempty hs [("this", true)] (b := [("this", .object o)]) fun n => by
    by_cases hn : n = "this"
    · subst hn; simp [Bindings.get?_cons]
    · simp [Bindings.get?_cons, List.lookup_cons, beq_false_of_ne hn, Ne.symm hn]
  exact ⟨⟨ctx.enter.add "this" true, kind, hs.enter.add "this", hr.models, hfit⟩, hheap⟩

/-- The method table of a class has only methods of the class. -/
theorem Heap.get?_methodTable {env : Env} {methods : List FunctionDecl} {name : String}
    {f : Closure} (hf : (methodTable env methods).get? name = some f) :
    ∃ decl ∈ methods, f = ⟨decl, env, decl.name.lexeme = "init"⟩ := by
  -- Along the methods, from any table: what comes out is one of them or was there before.
  have hgen : ∀ (ms : List FunctionDecl) (b : Bindings Closure),
      (ms.foldl (fun b decl => b.insert decl.name.lexeme
        (⟨decl, env, decl.name.lexeme = "init"⟩ : Closure)) b).get? name = some f →
      (∃ decl ∈ ms, f = ⟨decl, env, decl.name.lexeme = "init"⟩) ∨ b.get? name = some f := by
    intro ms
    induction ms with
    | nil => exact fun b hb => .inr hb
    | cons decl rest ih =>
      intro b hb
      rcases ih _ hb with ⟨d, hd, rfl⟩ | hb
      · exact .inl ⟨d, List.mem_cons_of_mem _ hd, rfl⟩
      · rw [Bindings.get?_insert] at hb
        split at hb
        · cases hb
          exact .inl ⟨decl, List.mem_cons_self, rfl⟩
        · exact .inr hb
  rcases hgen methods [] hf with hm | hm
  · exact hm
  · cases hm

variable {ctx : Context} {env : Env}

/-- Declaring a variable. -/
theorem Heap.Fits.define (hf : h.Fits V) {name : Token} {ready : Bool}
    (hr : h.Realizes (ctx.add name.lexeme ready).scopes env) {v : Value} (hv : v.Fits V h) :
    (h.define env name.lexeme v).Fits V ∧ h.Grows env.top (h.define env name.lexeme v) := by
  rw [Heap.define_eq_write hr.models.ne_nil]
  have hg : h.Grows env.top (h.write env.top name.lexeme v) := .write_top name.lexeme v
  exact ⟨hf.write (hv.grows hg), hg⟩

/-- Declaring a function, which sees its own name. -/
theorem Heap.Fits.declareFunction (hf : h.Fits V) (hr : h.Realizes ctx.scopes env)
    (hs : Settled ctx.scopes) {decl : FunctionDecl} (hn : ctx.innermost? decl.name = none)
    (hfit : decl.Fits V (ctx.define decl.name) .function) :
    (h.declareFunction env decl).Fits V ∧
      (h.declareFunction env decl).Realizes (ctx.define decl.name).scopes env ∧
      h.Grows env.top (h.declareFunction env decl) := by
  have hne := hr.models.ne_nil
  have hfresh : ∀ top, h.Grows top h.freshId.2 := fun _ => .of_scopes_eq rfl
  have hr' := ((hr.grows_any hfresh).declare hn).define
    (.function h.freshId.1 ⟨decl, env, false⟩)
  have hg : h.Grows env.top (h.declareFunction env decl) := by
    refine (hfresh env.top).trans ?_
    show Heap.Grows _ _ (h.freshId.2.define env _ _)
    rw [Heap.define_eq_write hne]
    exact .write_top _ _
  refine ⟨?_, hr', hg⟩
  show Heap.Fits V (h.freshId.2.define env _ _)
  rw [Heap.define_eq_write hne] at hr' ⊢
  exact hf.freshId.write ⟨ctx.define decl.name, .function, hs.add decl.name.lexeme, hr'.models,
    hfit⟩

/-- Making a class whose methods fit. -/
theorem Heap.Fits.newClass (hf : h.Fits V) {name : Token}
    (hm : h.Models (ctx.define name).scopes env) (hs : Settled (ctx.define name).scopes)
    {parent : Option Class} (hp : ∀ k ∈ parent, k.Fits V h) {methods : List FunctionDecl}
    (hfit : ∀ f ∈ methods, f.Fits V
      ((ctx.methodsOuter name parent.isSome).enter.add "this" true) (methodContext f.name)) :
    (h.newClass env name.lexeme parent methods).1.Fits V
        (h.newClass env name.lexeme parent methods).2 ∧
      (h.newClass env name.lexeme parent methods).2.Fits V := by
  have hfresh : ∀ top, h.Grows top h.freshId.2 := fun _ => .of_scopes_eq rfl
  cases parent with
  | none =>
    refine ⟨?_, hf.freshId⟩
    intro layer hl n f hget
    obtain rfl := List.mem_singleton.1 hl
    obtain ⟨decl, hd, rfl⟩ := Heap.get?_methodTable hget
    exact ⟨ctx.methodsOuter name false, _, hs, hm.grows (hfresh 0), hfit decl hd⟩
  | some k =>
    have hnest : ∀ top, h.Grows top (h.freshId.2.newScope [("super", .class_ k)]).2 :=
      fun top => (hfresh top).trans (.newScope _)
    have hk : k.Fits V h := hp k rfl
    -- With a superclass, the methods stand inside a scope that has it as `super`.
    have hr := (hm.grows (hfresh 0)).enter hf.freshId.nonempty hs [("super", true)]
      (b := [("super", .class_ k)]) fun n => by
        by_cases hn : n = "super"
        · subst hn; simp [Bindings.get?_cons]
        · simp [Bindings.get?_cons, List.lookup_cons, beq_false_of_ne hn, Ne.symm hn]
    refine ⟨?_, ?_⟩
    · intro layer hl n f hget
      rcases List.mem_cons.1 hl with rfl | hl
      · obtain ⟨decl, hd, rfl⟩ := Heap.get?_methodTable hget
        have hs' : Settled (ctx.methodsOuter name true).scopes := (Settled.enter hs).add "super"
        exact ⟨ctx.methodsOuter name true, _, hs', hr.models, hfit decl hd⟩
      -- The other layers are those of the superclass.
      · exact (hk layer hl n f hget).grows (hnest 0)
    · refine hf.freshId.newScope ?_
      intro n v hv
      obtain ⟨-, rfl⟩ := Bindings.eq_of_get?_single hv
      exact Class.Fits.grows hk (hfresh 0)

/-- Making a class adds at most a scope. -/
theorem Heap.grows_newClass (h : Heap) (env : Env) (name : String) (parent : Option Class)
    (methods : List FunctionDecl) (top : ScopeId) :
    h.Grows top (h.newClass env name parent methods).2 := by
  have hfresh : h.Grows top h.freshId.2 := .of_scopes_eq rfl
  cases parent with
  | none => exact hfresh
  | some k => exact hfresh.trans (.newScope _)

/-- A class goes to the innermost scope, where its name is already. -/
theorem Heap.declareClass_eq_write (hne : env ≠ []) (hlt : env.top < h.scopes.size)
    (name : String) (parent : Option Class) (methods : List FunctionDecl) :
    h.declareClass env name parent methods =
      ((h.write env.top name .nil).newClass env name parent methods).2.write env.top name
        (.class_ ((h.write env.top name .nil).newClass env name parent methods).1) := by
  have hbound : (h.write env.top name .nil).binds env.top name :=
    (Heap.binds_write ..).2 (.inl ⟨rfl, rfl, hlt⟩)
  have hbound := (Heap.grows_newClass _ env name parent methods 0).keeps hbound
  -- Making the class takes no name away, so the search for the name ends in the innermost scope.
  have hscope : ((h.write env.top name .nil).newClass env name parent methods).2.scopeOf? env
      name = some env.top := by
    cases env with
    | nil => exact absurd rfl hne
    | cons s outer => exact List.find?_cons_of_pos hbound
  unfold Heap.declareClass
  rw [Heap.define_eq_write hne]
  simp only [hscope]

/-- Declaring a class, whose methods see its name. -/
theorem Heap.Fits.declareClass (hf : h.Fits V) {name : Token} {ready : Bool}
    (hr : h.Realizes (ctx.add name.lexeme ready).scopes env) (hs : Settled ctx.scopes)
    {parent : Option Class} (hp : ∀ k ∈ parent, k.Fits V h) {methods : List FunctionDecl}
    (hfit : ∀ f ∈ methods, f.Fits V
      ((ctx.methodsOuter name parent.isSome).enter.add "this" true) (methodContext f.name)) :
    (h.declareClass env name.lexeme parent methods).Fits V ∧
      (h.declareClass env name.lexeme parent methods).Realizes (ctx.define name).scopes env ∧
      h.Grows env.top (h.declareClass env name.lexeme parent methods) := by
  have hne := hr.models.ne_nil
  have hlt := hr.models.top_lt_size hf.nonempty
  obtain ⟨hf₁, hg₁⟩ := hf.define hr (v := .nil) trivial
  have hr₁ := hr.define .nil
  rw [Heap.define_eq_write hne] at hf₁ hg₁ hr₁
  have hbound : (h.write env.top name.lexeme .nil).binds env.top name.lexeme :=
    (Heap.binds_write ..).2 (.inl ⟨rfl, rfl, hlt⟩)
  obtain ⟨hk, hf₂⟩ := hf₁.newClass hr₁.models (hs.add name.lexeme)
    (fun k hk => (hp k hk).grows hg₁) hfit
  have hg₂ := Heap.grows_newClass (h.write env.top name.lexeme .nil) env name.lexeme parent
    methods
  have hwrite : ∀ top, Heap.Grows top _ _ := fun _ => .write_bound ((hg₂ 0).keeps hbound)
    (.class_ ((h.write env.top name.lexeme .nil).newClass env name.lexeme parent methods).1)
  rw [Heap.declareClass_eq_write hne hlt]
  exact ⟨hf₂.write (Class.Fits.grows hk (hwrite 0)),
    (hr₁.grows_any hg₂).grows_any hwrite, (hg₁.trans (hg₂ _)).trans (hwrite _)⟩

end Lox
