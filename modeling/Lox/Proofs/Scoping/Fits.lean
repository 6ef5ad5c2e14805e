import Lox.Proofs.Scoping.Visit

/-!
# Trees whose visits are on record

`V` is a set of visits, the record of what the check of scopes has looked at so far. A tree fits a
context if every visit to one of its nodes, from that context on, is on record, and if it has
the shape of a program. The lemmas take a tree that fits apart, constructor by constructor; they
are all that later proofs use of the walk.
-/

namespace Lox

open Scoping

variable (V : Visit → Prop)

/-- Every visit to an expression is on record. -/
def Expr.Fits (ctx : Context) (e : Expr) : Prop := ∀ v ∈ e.visits ctx, V v

/-- Every visit to a statement is on record, and the statement is plain. -/
structure Stmt.Fits (ctx : Context) (s : Stmt) : Prop where
  plain : s.Plain
  visited : ∀ v ∈ s.visits ctx, V v

/-- Every visit to statements that follow one another is on record, and they are plain. -/
structure Stmt.FitAll (ctx : Context) (ss : List Stmt) : Prop where
  plain : Stmt.PlainAll ss
  visited : ∀ v ∈ Stmt.visitsAll ctx ss, V v

/-- Every visit to a function is on record, and the function is plain. -/
structure FunctionDecl.Fits (ctx : Context) (kind : FunctionContext) (f : FunctionDecl) :
    Prop where
  plain : f.Plain
  visited : ∀ v ∈ f.visits ctx kind, V v

variable {V} {ctx : Context}

/-! ## Expressions -/

namespace Expr

theorem fits_binary {left right : Expr} {op : Token} :
    (Expr.binary left op right).Fits V ctx ↔ left.Fits V ctx ∧ right.Fits V ctx := by
  simp only [Fits, visits, List.mem_append, or_imp, forall_and]

theorem fits_logical {left right : Expr} {op : Token} :
    (Expr.logical left op right).Fits V ctx ↔ left.Fits V ctx ∧ right.Fits V ctx := by
  simp only [Fits, visits, List.mem_append, or_imp, forall_and]

theorem fits_var {id : NodeId} {name : Token} :
    (Expr.var id name).Fits V ctx ↔ V (.look .read ctx id name) := by
  simp [Fits, visits]

theorem fits_this {id : NodeId} {keyword : Token} :
    (Expr.this id keyword).Fits V ctx ↔ V (.look .this ctx id keyword) := by
  simp [Fits, visits]

theorem fits_super {id : NodeId} {keyword method : Token} :
    (Expr.super id keyword method).Fits V ctx ↔ V (.look .super ctx id keyword) := by
  simp [Fits, visits]

theorem fits_assign {id : NodeId} {name : Token} {value : Expr} :
    (Expr.assign id name value).Fits V ctx ↔
      value.Fits V ctx ∧ V (.look .write ctx id name) := by
  simp [Fits, visits, or_imp, forall_and]

theorem fits_set {object value : Expr} {name : Token} :
    (Expr.set object name value).Fits V ctx ↔ value.Fits V ctx ∧ object.Fits V ctx := by
  simp only [Fits, visits, List.mem_append, or_imp, forall_and]

theorem forall_visitsAll {es : List Expr} :
    (∀ v ∈ Expr.visitsAll ctx es, V v) ↔ ∀ e ∈ es, e.Fits V ctx := by
  induction es with
  | nil => simp [visitsAll]
  | cons e es ih =>
    simp only [visitsAll, List.mem_append, or_imp, forall_and, ih, List.forall_mem_cons]
    rfl

theorem fits_call {callee : Expr} {paren : Token} {arguments : List Expr} :
    (Expr.call callee paren arguments).Fits V ctx ↔
      callee.Fits V ctx ∧ ∀ e ∈ arguments, e.Fits V ctx := by
  simp only [Fits, visits, List.mem_append, or_imp, forall_and]
  rw [forall_visitsAll]
  rfl

end Expr

/-! ## Statements -/

namespace Stmt

theorem fitAll_cons {s : Stmt} {rest : List Stmt} :
    FitAll V ctx (s :: rest) ↔ s.Fits V ctx ∧ FitAll V (ctx.defineAll s.declared) rest := by
  constructor
  · intro h
    obtain ⟨hp, hv⟩ := h
    simp only [visitsAll, List.mem_append, or_imp, forall_and] at hv
    exact ⟨⟨hp.1, hv.1⟩, ⟨hp.2, hv.2⟩⟩
  · intro h
    obtain ⟨⟨hp, hv⟩, ⟨hps, hvs⟩⟩ := h
    refine ⟨⟨hp, hps⟩, ?_⟩
    simp only [visitsAll, List.mem_append, or_imp, forall_and]
    exact ⟨hv, hvs⟩

theorem Fits.expression {e : Expr} (h : (Stmt.expression e).Fits V ctx) : e.Fits V ctx :=
  h.visited

theorem Fits.print {e : Expr} (h : (Stmt.print e).Fits V ctx) : e.Fits V ctx :=
  h.visited

theorem Fits.declared {name : Token} {value : Option Expr}
    (h : (Stmt.varDecl name value).Fits V ctx) : V (.declare ctx name) :=
  h.visited _ List.mem_cons_self

theorem Fits.initializer {name : Token} {e : Expr}
    (h : (Stmt.varDecl name (some e)).Fits V ctx) : e.Fits V (ctx.declare name) :=
  fun v hv => h.visited v (List.mem_cons_of_mem _ hv)

theorem Fits.block {ss : List Stmt} (h : (Stmt.block ss).Fits V ctx) : FitAll V ctx.enter ss :=
  ⟨h.plain, h.visited⟩

theorem Fits.ret {keyword : Token} {e : Expr} (h : (Stmt.ret keyword (some e)).Fits V ctx) :
    e.Fits V ctx :=
  fun v hv => h.visited v (List.mem_cons_of_mem _ hv)

/-- A branch or the body of a loop: it fits and declares nothing. -/
structure FitsInner (V : Visit → Prop) (ctx : Context) (s : Stmt) : Prop where
  fits : s.Fits V ctx
  declared : s.declared = []

theorem Fits.branch {condition : Expr} {thenBranch : Stmt} {elseBranch : Option Stmt}
    (h : (Stmt.branch condition thenBranch elseBranch).Fits V ctx) :
    condition.Fits V ctx ∧ thenBranch.FitsInner V ctx ∧
      ∀ s ∈ elseBranch, s.FitsInner V ctx := by
  obtain ⟨hp, hv⟩ := h
  cases elseBranch with
  | none =>
    simp only [visits, List.mem_append, or_imp, forall_and] at hv
    exact ⟨hv.1, ⟨⟨hp.1, hv.2⟩, hp.2⟩, by simp⟩
  | some s =>
    obtain ⟨⟨hp₁, hd₁⟩, hp₂, hd₂⟩ := hp
    simp only [visits, hd₁, Context.defineAll, List.foldl_nil, List.mem_append, or_imp,
      forall_and] at hv
    refine ⟨hv.1.1, ⟨⟨hp₁, hv.1.2⟩, hd₁⟩, ?_⟩
    intro s' hs'
    cases hs'
    exact ⟨⟨hp₂, hv.2⟩, hd₂⟩

/-- Branches are no declarations. -/
theorem Fits.declared_branch {condition : Expr} {thenBranch : Stmt} {elseBranch : Option Stmt}
    (h : (Stmt.branch condition thenBranch elseBranch).Fits V ctx) :
    (Stmt.branch condition thenBranch elseBranch).declared = [] := by
  obtain ⟨-, ht, he⟩ := h.branch
  cases elseBranch with
  | none => exact ht.declared
  | some s => rw [Stmt.declared, ht.declared, (he s rfl).declared]; rfl

theorem Fits.loop {condition : Expr} {body : Stmt} (h : (Stmt.loop condition body).Fits V ctx) :
    condition.Fits V ctx ∧ body.FitsInner V ctx := by
  obtain ⟨hp, hv⟩ := h
  simp only [visits, List.mem_append, or_imp, forall_and] at hv
  exact ⟨hv.1, ⟨⟨hp.1, hv.2⟩, hp.2⟩⟩

theorem Fits.funDecl {f : FunctionDecl} (h : (Stmt.funDecl f).Fits V ctx) :
    V (.declare ctx f.name) ∧ f.Fits V (ctx.define f.name) .function := by
  obtain ⟨hp, hv⟩ := h
  simp only [visits, List.forall_mem_cons] at hv
  exact ⟨hv.1, ⟨hp, hv.2⟩⟩

end Stmt

/-! ## Functions and classes -/

/-- The context of the parameters of a function, which its body shares. -/
def Scoping.Context.call (ctx : Context) (kind : FunctionContext) : Context :=
  { ctx.enter with function := kind }

theorem FunctionDecl.fits_iff {f : FunctionDecl} {kind : FunctionContext} :
    f.Fits V ctx kind ↔
      (∀ v ∈ (ctx.call kind).visitParams f.params, V v) ∧
        Stmt.FitAll V ((ctx.call kind).defineAll f.params) f.body := by
  obtain ⟨name, params, body⟩ := f
  constructor
  · intro h
    obtain ⟨hp, hv⟩ := h
    simp only [visits, List.mem_append, or_imp, forall_and] at hv
    exact ⟨hv.1, ⟨hp, hv.2⟩⟩
  · intro h
    obtain ⟨hv, ⟨hp, hvs⟩⟩ := h
    refine ⟨hp, ?_⟩
    simp only [visits, List.mem_append, or_imp, forall_and]
    exact ⟨hv, hvs⟩

theorem FunctionDecl.fits_of_visitsAll {fs : List FunctionDecl} (hp : FunctionDecl.PlainAll fs)
    (hv : ∀ v ∈ FunctionDecl.visitsAll ctx fs, V v) :
    ∀ f ∈ fs, f.Fits V ctx (methodContext f.name) := by
  induction fs with
  | nil => simp
  | cons f rest ih =>
    simp only [visitsAll, List.mem_append, or_imp, forall_and] at hv
    intro g hg
    rcases List.mem_cons.1 hg with rfl | hg
    · exact ⟨hp.1, hv.1⟩
    · exact ih hp.2 hv.2 g hg

/-- The context around the methods of a class, outside the scope of `this`. -/
def Scoping.Context.methodsOuter (ctx : Context) (name : Token) (isSubclass : Bool) : Context :=
  let inner :=
    { ctx.define name with class_ := if isSubclass then .subclass else .plain }
  if isSubclass then inner.enter.add "super" true else inner

theorem Stmt.Fits.classDecl {name : Token} {superclass : Option Expr}
    {methods : List FunctionDecl} (h : (Stmt.classDecl name superclass methods).Fits V ctx) :
    V (.declare ctx name) ∧
      ∀ f ∈ methods, f.Fits V
        ((ctx.methodsOuter name superclass.isSome).enter.add "this" true)
        (methodContext f.name) := by
  obtain ⟨hp, hv⟩ := h
  cases superclass with
  | none =>
    simp only [visits, List.forall_mem_cons] at hv
    exact ⟨hv.1, FunctionDecl.fits_of_visitsAll hp hv.2⟩
  | some superclass =>
    simp only [visits, List.forall_mem_cons, List.mem_append, or_imp, forall_and] at hv
    exact ⟨hv.1, FunctionDecl.fits_of_visitsAll hp.2 hv.2.2.2⟩

theorem Stmt.Fits.superclass {name : Token} {superclass : Expr} {methods : List FunctionDecl}
    (h : (Stmt.classDecl name (some superclass) methods).Fits V ctx) :
    V (.inherit name superclass) ∧ ∃ id parent, superclass = .var id parent ∧
      V (.look .read { ctx.define name with class_ := .subclass } id parent) := by
  obtain ⟨hp, hv⟩ := h
  obtain ⟨⟨id, parent, rfl⟩, _⟩ := hp
  simp only [visits, List.forall_mem_cons, List.mem_append, or_imp, forall_and] at hv
  exact ⟨hv.2.1, id, parent, rfl, Expr.fits_var.1 hv.2.2.1⟩

/-! ## Larger records -/

section Mono

variable {W : Visit → Prop}

theorem FunctionDecl.Fits.mono {f : FunctionDecl} {kind : FunctionContext}
    (h : f.Fits V ctx kind) (hVW : ∀ v, V v → W v) : f.Fits W ctx kind :=
  ⟨h.plain, fun v hv => hVW v (h.visited v hv)⟩

end Mono

end Lox
