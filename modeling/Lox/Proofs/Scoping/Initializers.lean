import Lox.Proofs.Scoping.Realization

/-!
# Assignments in initializers

The check of scopes does not ask whether the name of an assignment is ready. A name is declared
and not ready in its own initializer only, so an assignment to such a name stands in the
initializer of a local variable and assigns to that variable. In a program without these
(`Stmt.assignsEarlyAny`) the check comes to every assignment when its name is ready
(`Stmt.ready_visitsAll`).
-/

namespace Lox

open Scoping

mutual

/-- There is an assignment to the name in the expression. -/
def Expr.assigns (x : String) : Expr → Bool
  | .constant _ => false
  | .grouping inner => inner.assigns x
  | .unary _ right => right.assigns x
  | .binary left _ right => left.assigns x || right.assigns x
  | .logical left _ right => left.assigns x || right.assigns x
  | .var _ _ => false
  | .assign _ name value => name.lexeme == x || value.assigns x
  | .call callee _ arguments => callee.assigns x || Expr.assignsAny x arguments
  | .get object _ => object.assigns x
  | .set object _ value => object.assigns x || value.assigns x
  | .this _ _ => false
  | .super _ _ _ => false
termination_by structural e => e

/-- There is an assignment to the name in one of the expressions. -/
def Expr.assignsAny (x : String) : List Expr → Bool
  | [] => false
  | e :: es => e.assigns x || Expr.assignsAny x es
termination_by structural es => es

end

mutual

/-- Somewhere in the statement a local variable is assigned to in its own initializer. -/
def Stmt.assignsEarly (isLocal : Bool) : Stmt → Bool
  | .expression _ => false
  | .print _ => false
  | .varDecl name value => isLocal && value.any (·.assigns name.lexeme)
  | .block statements => Stmt.assignsEarlyAny true statements
  | .branch _ thenBranch none => thenBranch.assignsEarly isLocal
  | .branch _ thenBranch (some elseBranch) =>
    thenBranch.assignsEarly isLocal || elseBranch.assignsEarly isLocal
  | .loop _ body => body.assignsEarly isLocal
  | .funDecl function => function.assignsEarly
  | .ret _ _ => false
  | .classDecl _ _ methods => FunctionDecl.assignsEarlyAny methods
termination_by structural s => s

/-- The same for several statements. -/
def Stmt.assignsEarlyAny (isLocal : Bool) : List Stmt → Bool
  | [] => false
  | s :: rest => s.assignsEarly isLocal || Stmt.assignsEarlyAny isLocal rest
termination_by structural ss => ss

/-- The same for the body of a function, where all variables are local. -/
def FunctionDecl.assignsEarly : FunctionDecl → Bool
  | ⟨_, _, body⟩ => Stmt.assignsEarlyAny true body
termination_by structural f => f

/-- The same for methods. -/
def FunctionDecl.assignsEarlyAny : List FunctionDecl → Bool
  | [] => false
  | f :: rest => f.assignsEarly || FunctionDecl.assignsEarlyAny rest
termination_by structural fs => fs

end

/-- An assignment is visited when its name is ready. -/
def Scoping.Visit.Ready : Visit → Prop
  | .look .write ctx _ name => ctx.innermost? name ≠ some false
  | _ => True

/-! ## Expressions -/

mutual

theorem Expr.ready_visits {ctx : Context} : (e : Expr) →
    (∀ name : Token, e.assigns name.lexeme = true → ctx.innermost? name ≠ some false) →
      ∀ v ∈ e.visits ctx, v.Ready
  | .constant _, _ => List.forall_mem_nil _
  | .grouping inner, h => Expr.ready_visits inner h
  | .unary _ right, h => Expr.ready_visits right h
  | .binary left _ right, h | .logical left _ right, h => List.forall_mem_append.2
    ⟨Expr.ready_visits left fun n hn => h n (Bool.or_eq_true_iff.2 (.inl hn)),
      Expr.ready_visits right fun n hn => h n (Bool.or_eq_true_iff.2 (.inr hn))⟩
  | .var _ _, _ | .this _ _, _ | .super _ _ _, _ => List.forall_mem_singleton.2 trivial
  | .assign _ name value, h => List.forall_mem_append.2
    ⟨Expr.ready_visits value fun n hn => h n (Bool.or_eq_true_iff.2 (.inr hn)),
      List.forall_mem_singleton.2 (h name (Bool.or_eq_true_iff.2 (.inl (beq_self_eq_true _))))⟩
  | .call callee _ arguments, h => List.forall_mem_append.2
    ⟨Expr.ready_visits callee fun n hn => h n (Bool.or_eq_true_iff.2 (.inl hn)),
      Expr.ready_visitsAll arguments fun n hn => h n (Bool.or_eq_true_iff.2 (.inr hn))⟩
  | .get object _, h => Expr.ready_visits object h
  | .set object _ value, h => List.forall_mem_append.2
    ⟨Expr.ready_visits value fun n hn => h n (Bool.or_eq_true_iff.2 (.inr hn)),
      Expr.ready_visits object fun n hn => h n (Bool.or_eq_true_iff.2 (.inl hn))⟩
termination_by structural e => e

theorem Expr.ready_visitsAll {ctx : Context} : (es : List Expr) →
    (∀ name : Token, Expr.assignsAny name.lexeme es = true → ctx.innermost? name ≠ some false) →
      ∀ v ∈ Expr.visitsAll ctx es, v.Ready
  | [], _ => List.forall_mem_nil _
  | e :: es, h => List.forall_mem_append.2
    ⟨Expr.ready_visits e fun n hn => h n (Bool.or_eq_true_iff.2 (.inl hn)),
      Expr.ready_visitsAll es fun n hn => h n (Bool.or_eq_true_iff.2 (.inr hn))⟩
termination_by structural es => es

end

section

variable {ctx : Context} (hs : Settled ctx.scopes)
include hs

theorem Expr.ready_visits_of_settled (e : Expr) : ∀ v ∈ e.visits ctx, v.Ready :=
  Expr.ready_visits e fun name _ => hs.head? name.lexeme

theorem Expr.ready_visits?_of_settled (e : Option Expr) : ∀ v ∈ Expr.visits? ctx e, v.Ready := by
  cases e with
  | none => exact List.forall_mem_nil _
  | some e => exact Expr.ready_visits_of_settled hs e

/-- An initializer that does not assign to its own variable. -/
theorem Expr.ready_initializer {isLocal : Bool} (hlocal : ctx.scopes ≠ [] → isLocal = true)
    {name : Token} {value : Option Expr}
    (h : (isLocal && value.any (·.assigns name.lexeme)) = false) :
    ∀ v ∈ Expr.visits? (ctx.declare name) value, v.Ready := by
  cases value with
  | none => exact List.forall_mem_nil _
  | some e =>
    refine Expr.ready_visits e fun n hn => ?_
    by_cases hne : ctx.scopes = []
    · rw [Context.declare, Context.innermost?, Context.add_scopes_nil hne]
      intro hfalse
      cases hfalse
    · have hother : name.lexeme ≠ n.lexeme := by
        intro heq
        rw [hlocal hne, heq] at h
        simp [hn] at h
      rw [Context.declare, Context.innermost?_eq_view, Context.view_add_of_ne ctx hother,
        ← Context.innermost?_eq_view]
      exact hs.head? n.lexeme

end

/-! ## Statements -/

theorem Scoping.Context.ready_visitParams (ctx : Context) (names : List Token) :
    ∀ v ∈ ctx.visitParams names, v.Ready := by
  induction names generalizing ctx with
  | nil => exact List.forall_mem_nil _
  | cons p rest ih => exact List.forall_mem_cons.2 ⟨trivial, ih (ctx.define p)⟩

theorem Scoping.Context.scopes_ne_nil_of_defineAll {ctx : Context} {names : List Token}
    (h : (ctx.defineAll names).scopes ≠ []) : ctx.scopes ≠ [] :=
  fun hnil => h (Context.defineAll_scopes_nil hnil names)

mutual

theorem Stmt.ready_visits {ctx : Context} {isLocal : Bool} (hs : Settled ctx.scopes)
    (hlocal : ctx.scopes ≠ [] → isLocal = true) :
    (s : Stmt) → s.assignsEarly isLocal = false → ∀ v ∈ s.visits ctx, v.Ready
  | .expression expr, _ | .print expr, _ => Expr.ready_visits_of_settled hs expr
  | .varDecl _ _, h => List.forall_mem_cons.2 ⟨trivial, Expr.ready_initializer hs hlocal h⟩
  | .block statements, h => Stmt.ready_visitsAll hs.enter (fun _ => rfl) statements h
  | .branch condition thenBranch none, h => List.forall_mem_append.2
    ⟨Expr.ready_visits_of_settled hs condition, Stmt.ready_visits hs hlocal thenBranch h⟩
  | .branch condition thenBranch (some elseBranch), h => by
    obtain ⟨ht, he⟩ := Bool.or_eq_false_iff.1 h
    exact List.forall_mem_append.2 ⟨List.forall_mem_append.2
      ⟨Expr.ready_visits_of_settled hs condition, Stmt.ready_visits hs hlocal thenBranch ht⟩,
      Stmt.ready_visits (hs.defineAll _)
        (fun hne => hlocal (Context.scopes_ne_nil_of_defineAll hne)) elseBranch he⟩
  | .loop condition body, h => List.forall_mem_append.2
    ⟨Expr.ready_visits_of_settled hs condition, Stmt.ready_visits hs hlocal body h⟩
  | .funDecl function, h => List.forall_mem_cons.2
    ⟨trivial, FunctionDecl.ready_visits (hs.add _) function .function h⟩
  | .ret _ value, _ => List.forall_mem_cons.2 ⟨trivial, Expr.ready_visits?_of_settled hs value⟩
  | .classDecl name none methods, h => by
    have hinner : Settled ({ ctx.define name with class_ := .plain }.methods false).scopes :=
      (hs.add name.lexeme).enter.add "this"
    exact List.forall_mem_cons.2 ⟨trivial, FunctionDecl.ready_visitsAll hinner methods h⟩
  | .classDecl name (some superclass) methods, h => by
    -- The clause is evaluated outside of the scopes that `super` and `this` are in.
    have houter : Settled { ctx.define name with class_ := .subclass }.scopes :=
      hs.add name.lexeme
    have hinner : Settled ({ ctx.define name with class_ := .subclass }.methods true).scopes :=
      ((hs.add name.lexeme).enter.add "super").enter.add "this"
    exact List.forall_mem_cons.2 ⟨trivial, List.forall_mem_cons.2 ⟨trivial,
      List.forall_mem_append.2 ⟨Expr.ready_visits_of_settled houter superclass,
        FunctionDecl.ready_visitsAll hinner methods h⟩⟩⟩
termination_by structural s => s

theorem Stmt.ready_visitsAll {ctx : Context} {isLocal : Bool} (hs : Settled ctx.scopes)
    (hlocal : ctx.scopes ≠ [] → isLocal = true) :
    (ss : List Stmt) → Stmt.assignsEarlyAny isLocal ss = false →
      ∀ v ∈ Stmt.visitsAll ctx ss, v.Ready
  | [], _ => List.forall_mem_nil _
  | s :: rest, h => by
    obtain ⟨hhead, hrest⟩ := Bool.or_eq_false_iff.1 h
    exact List.forall_mem_append.2 ⟨Stmt.ready_visits hs hlocal s hhead,
      Stmt.ready_visitsAll (hs.defineAll _)
        (fun hne => hlocal (Context.scopes_ne_nil_of_defineAll hne)) rest hrest⟩
termination_by structural ss => ss

theorem FunctionDecl.ready_visits {ctx : Context} (hs : Settled ctx.scopes) :
    (f : FunctionDecl) → (kind : FunctionContext) → f.assignsEarly = false →
      ∀ v ∈ f.visits ctx kind, v.Ready
  | ⟨_, params, body⟩, kind, h => by
    have hinner : Settled { ctx.enter with function := kind }.scopes := hs.enter
    exact List.forall_mem_append.2 ⟨Context.ready_visitParams _ params,
      Stmt.ready_visitsAll (hinner.defineAll params) (fun _ => rfl) body h⟩
termination_by structural f => f

theorem FunctionDecl.ready_visitsAll {ctx : Context} (hs : Settled ctx.scopes) :
    (fs : List FunctionDecl) → FunctionDecl.assignsEarlyAny fs = false →
      ∀ v ∈ FunctionDecl.visitsAll ctx fs, v.Ready
  | [], _ => List.forall_mem_nil _
  | f :: rest, h => by
    obtain ⟨hf, hrest⟩ := Bool.or_eq_false_iff.1 h
    exact List.forall_mem_append.2 ⟨FunctionDecl.ready_visits hs f _ hf,
      FunctionDecl.ready_visitsAll hs rest hrest⟩
termination_by structural fs => fs

end

end Lox
