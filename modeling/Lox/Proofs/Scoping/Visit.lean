import Lox.Proofs.Tree.Shape

/-!
# The walk behind the check of scopes

The check walks a program and looks at some of its nodes, each in a context. A *visit* is one
such look: which node, and in which context. The visits of a program (`Stmt.visitsAll`) say
everything about the walk, because what the check finds is what it finds at each visit, one
after another (`Stmt.findingsAll_eq`).

Two facts about programs are read off the walk. A program without offences has no offence at
any visit (`offences_flatMap_eq_nil`), and the names that the check comes to are those that the
program mentions (`Stmt.filterMap_visitsAll`), so a program with distinct ids has one visit for
each of them.
-/

namespace Lox

namespace Scoping

/-- The ways in which a node looks a name up. -/
inductive Look where
  | read
  | write
  | this
  | super
deriving DecidableEq, Repr

/-- One look of the check at a node, with the context around the node. -/
inductive Visit where
  | look (kind : Look) (ctx : Context) (id : NodeId) (name : Token)
  | declare (ctx : Context) (name : Token)
  | ret (ctx : Context) (keyword : Token) (value : Option Expr)
  | inherit (name : Token) (superclass : Expr)

namespace Visit

/-- What the check finds at a visit. -/
def findings : Visit → List Finding
  | look .read ctx id name => ctx.earlyRead name ++ ctx.lookup id name
  | look .write ctx id name => ctx.lookup id name
  | look .this ctx id name =>
    if ctx.class_ = .outside then [.offence ⟨name, .thisOutside⟩] else ctx.lookup id name
  | look .super ctx id name => ctx.misplacedSuper name ++ ctx.lookup id name
  | declare ctx name => ctx.redeclaration name
  | ret ctx keyword value => ctx.misplacedReturn keyword value
  | inherit name superclass => selfInheritance name superclass

/-- The name that the check comes to. -/
def mention? : Visit → Option Mention
  | look .read _ id name | look .write _ id name => some ⟨some id, .identifier, name⟩
  | look .this _ id name => some ⟨some id, .thisWord, name⟩
  | look .super _ id name => some ⟨some id, .superWord, name⟩
  | declare _ name => some (.declared name)
  | ret _ _ _ | inherit _ _ => none

/-- The id of the node, if it looks a name up. -/
def id? : Visit → Option NodeId
  | look _ _ id _ => some id
  | declare _ _ | ret _ _ _ | inherit _ _ => none

theorem id?_eq (v : Visit) : v.id? = v.mention?.bind Mention.id? := by
  cases v with
  | look kind ctx id name => cases kind <;> rfl
  | _ => rfl

/-- The check has nothing to complain about. -/
def Clean (v : Visit) : Prop := offences v.findings = []

end Visit

/-- The visits to parameters: each shares the scope with those before it. -/
def Context.visitParams (ctx : Context) : List Token → List Visit
  | [] => []
  | p :: rest => .declare ctx p :: (ctx.define p).visitParams rest

end Scoping

open Scoping

/-! ## The walk -/

mutual

/-- The visits to the nodes of an expression. -/
def Expr.visits (ctx : Context) : Expr → List Visit
  | .constant _ => []
  | .grouping inner => inner.visits ctx
  | .unary _ right => right.visits ctx
  | .binary left _ right => left.visits ctx ++ right.visits ctx
  | .logical left _ right => left.visits ctx ++ right.visits ctx
  | .var id name => [.look .read ctx id name]
  | .assign id name value => value.visits ctx ++ [.look .write ctx id name]
  | .call callee _ arguments => callee.visits ctx ++ Expr.visitsAll ctx arguments
  | .get object _ => object.visits ctx
  | .set object _ value => value.visits ctx ++ object.visits ctx
  | .this id keyword => [.look .this ctx id keyword]
  | .super id keyword _ => [.look .super ctx id keyword]
termination_by structural e => e

/-- The visits to several expressions. -/
def Expr.visitsAll (ctx : Context) : List Expr → List Visit
  | [] => []
  | e :: es => e.visits ctx ++ Expr.visitsAll ctx es
termination_by structural es => es

end

/-- The visits to an expression that may be absent. -/
def Expr.visits? (ctx : Context) (e : Option Expr) : List Visit :=
  (e.map (Expr.visits ctx)).getD []

mutual

/-- The visits to the nodes of a statement. -/
def Stmt.visits (ctx : Context) : Stmt → List Visit
  | .expression expr => expr.visits ctx
  | .print expr => expr.visits ctx
  | .varDecl name value => .declare ctx name :: Expr.visits? (ctx.declare name) value
  | .block statements => Stmt.visitsAll ctx.enter statements
  | .branch condition thenBranch none => condition.visits ctx ++ thenBranch.visits ctx
  | .branch condition thenBranch (some elseBranch) =>
    condition.visits ctx ++ thenBranch.visits ctx
      ++ elseBranch.visits (ctx.defineAll thenBranch.declared)
  | .loop condition body => condition.visits ctx ++ body.visits ctx
  | .funDecl function =>
    .declare ctx function.name :: function.visits (ctx.define function.name) .function
  | .ret keyword value => .ret ctx keyword value :: Expr.visits? ctx value
  | .classDecl name none methods =>
    let inner := { ctx.define name with class_ := .plain }
    .declare ctx name :: FunctionDecl.visitsAll (inner.methods false) methods
  | .classDecl name (some superclass) methods =>
    let inner := { ctx.define name with class_ := .subclass }
    .declare ctx name :: .inherit name superclass :: (superclass.visits inner
      ++ FunctionDecl.visitsAll (inner.methods true) methods)
termination_by structural s => s

/-- The visits to statements that follow one another. -/
def Stmt.visitsAll (ctx : Context) : List Stmt → List Visit
  | [] => []
  | s :: rest => s.visits ctx ++ Stmt.visitsAll (ctx.defineAll s.declared) rest
termination_by structural ss => ss

/-- The visits to a function; its parameters and its body share one scope. -/
def FunctionDecl.visits (ctx : Context) (kind : FunctionContext) : FunctionDecl → List Visit
  | ⟨_, params, body⟩ =>
    let inner := { ctx.enter with function := kind }
    inner.visitParams params ++ Stmt.visitsAll (inner.defineAll params) body
termination_by structural f => f

/-- The visits to the methods of a class. -/
def FunctionDecl.visitsAll (ctx : Context) : List FunctionDecl → List Visit
  | [] => []
  | f :: rest => f.visits ctx (methodContext f.name) ++ FunctionDecl.visitsAll ctx rest
termination_by structural fs => fs

end

/-- A statement among others is visited when some more names are ready. -/
theorem Stmt.exists_visits_subset {s : Stmt} {ss : List Stmt} (hs : s ∈ ss) (ctx : Context) :
    ∃ names, s.visits (ctx.defineAll names) ⊆ Stmt.visitsAll ctx ss := by
  induction ss generalizing ctx with
  | nil => cases hs
  | cons first rest ih =>
    rw [Stmt.visitsAll]
    rcases List.mem_cons.1 hs with rfl | hs
    · exact ⟨[], List.subset_append_left _ _⟩
    · obtain ⟨names, hsub⟩ := ih hs (ctx.defineAll first.declared)
      refine ⟨first.declared ++ names, ?_⟩
      rw [Context.defineAll, List.foldl_append]
      exact List.subset_append_of_subset_right _ hsub

/-! ## Findings are what the visits find -/

mutual

theorem Expr.findings_eq (ctx : Context) :
    (e : Expr) → e.findings ctx = (e.visits ctx).flatMap Visit.findings
  | .constant _ => rfl
  | .grouping inner => Expr.findings_eq ctx inner
  | .unary _ right => Expr.findings_eq ctx right
  | .binary left _ right | .logical left _ right => by
    simp only [Expr.findings, Expr.visits, List.flatMap_append, Expr.findings_eq ctx left,
      Expr.findings_eq ctx right]
  | .var _ _ | .this _ _ | .super _ _ _ => by
    simp [Expr.findings, Expr.visits, Visit.findings]
  | .assign _ _ value => by
    simp [Expr.findings, Expr.visits, Visit.findings, Expr.findings_eq ctx value]
  | .call callee _ arguments => by
    simp only [Expr.findings, Expr.visits, List.flatMap_append, Expr.findings_eq ctx callee,
      Expr.findingsAll_eq ctx arguments]
  | .get object _ => Expr.findings_eq ctx object
  | .set object _ value => by
    simp only [Expr.findings, Expr.visits, List.flatMap_append, Expr.findings_eq ctx object,
      Expr.findings_eq ctx value]
termination_by structural e => e

theorem Expr.findingsAll_eq (ctx : Context) :
    (es : List Expr) → Expr.findingsAll ctx es = (Expr.visitsAll ctx es).flatMap Visit.findings
  | [] => rfl
  | e :: es => by
    simp only [Expr.findingsAll, Expr.visitsAll, List.flatMap_append, Expr.findings_eq ctx e,
      Expr.findingsAll_eq ctx es]
termination_by structural es => es

end

theorem Expr.findings?_eq (ctx : Context) (e : Option Expr) :
    Expr.findings? ctx e = (Expr.visits? ctx e).flatMap Visit.findings := by
  cases e with
  | none => rfl
  | some e => exact Expr.findings_eq ctx e

theorem Scoping.Context.params_eq (ctx : Context) (names : List Token) :
    ctx.params names = (ctx.visitParams names).flatMap Visit.findings := by
  induction names generalizing ctx with
  | nil => rfl
  | cons p rest ih =>
    rw [Context.params, Context.visitParams, List.flatMap_cons, ih]
    rfl

mutual

theorem Stmt.findings_eq (ctx : Context) :
    (s : Stmt) → s.findings ctx = (s.visits ctx).flatMap Visit.findings
  | .expression expr | .print expr => Expr.findings_eq ctx expr
  | .varDecl name value => by
    simp only [Stmt.findings, Stmt.visits, List.flatMap_cons, Visit.findings, Expr.findings?_eq]
  | .block statements => Stmt.findingsAll_eq ctx.enter statements
  | .branch condition thenBranch none => by
    simp only [Stmt.findings, Stmt.visits, List.flatMap_append, Expr.findings_eq ctx condition,
      Stmt.findings_eq ctx thenBranch]
  | .branch condition thenBranch (some elseBranch) => by
    simp only [Stmt.findings, Stmt.visits, List.flatMap_append, Expr.findings_eq ctx condition,
      Stmt.findings_eq ctx thenBranch,
      Stmt.findings_eq (ctx.defineAll thenBranch.declared) elseBranch]
  | .loop condition body => by
    simp only [Stmt.findings, Stmt.visits, List.flatMap_append, Expr.findings_eq ctx condition,
      Stmt.findings_eq ctx body]
  | .funDecl function => by
    simp only [Stmt.findings, Stmt.visits, List.flatMap_cons, Visit.findings,
      FunctionDecl.findings_eq (ctx.define function.name) .function function]
  | .ret keyword value => by
    simp only [Stmt.findings, Stmt.visits, List.flatMap_cons, Visit.findings, Expr.findings?_eq]
  | .classDecl name none methods => by
    simp only [Stmt.findings, Stmt.visits, List.flatMap_cons, Visit.findings,
      FunctionDecl.findingsAll_eq _ methods]
  | .classDecl name (some superclass) methods => by
    simp only [Stmt.findings, Stmt.visits, List.flatMap_cons, List.flatMap_append,
      Visit.findings, FunctionDecl.findingsAll_eq _ methods, Expr.findings_eq _ superclass,
      List.append_assoc]
termination_by structural s => s

theorem Stmt.findingsAll_eq (ctx : Context) :
    (ss : List Stmt) → Stmt.findingsAll ctx ss = (Stmt.visitsAll ctx ss).flatMap Visit.findings
  | [] => rfl
  | s :: rest => by
    simp only [Stmt.findingsAll, Stmt.visitsAll, List.flatMap_append, Stmt.findings_eq ctx s,
      Stmt.findingsAll_eq (ctx.defineAll s.declared) rest]
termination_by structural ss => ss

theorem FunctionDecl.findings_eq (ctx : Context) (kind : FunctionContext) :
    (f : FunctionDecl) → f.findings ctx kind = (f.visits ctx kind).flatMap Visit.findings
  | ⟨_, params, body⟩ => by
    simp only [FunctionDecl.findings, FunctionDecl.visits, List.flatMap_append,
      Context.params_eq, Stmt.findingsAll_eq _ body]
termination_by structural f => f

theorem FunctionDecl.findingsAll_eq (ctx : Context) :
    (fs : List FunctionDecl) →
      FunctionDecl.findingsAll ctx fs = (FunctionDecl.visitsAll ctx fs).flatMap Visit.findings
  | [] => rfl
  | f :: rest => by
    simp only [FunctionDecl.findingsAll, FunctionDecl.visitsAll, List.flatMap_append,
      FunctionDecl.findings_eq ctx _ f, FunctionDecl.findingsAll_eq ctx rest]
termination_by structural fs => fs

end

/-! ## Offences -/

namespace Scoping

theorem offences_append (a b : List Finding) : offences (a ++ b) = offences a ++ offences b :=
  List.filterMap_append

@[simp] theorem offences_lookup (ctx : Context) (id : NodeId) (name : Token) :
    offences (ctx.lookup id name) = [] := by
  unfold Context.lookup
  cases ctx.hops? name.lexeme <;> rfl

theorem offences_flatMap_eq_nil {vs : List Visit} :
    offences (vs.flatMap Visit.findings) = [] ↔ ∀ v ∈ vs, v.Clean := by
  induction vs with
  | nil => simp [offences]
  | cons v vs ih =>
    rw [List.flatMap_cons, offences_append, List.append_eq_nil_iff, ih]
    simp [Visit.Clean]

namespace Visit

variable {ctx : Context} {id : NodeId} {name : Token}

theorem Clean.read (h : (look .read ctx id name).Clean) : ctx.innermost? name ≠ some false := by
  intro hn
  simp [Clean, findings, Context.earlyRead, hn, offences] at h

theorem clean_read (h : ctx.innermost? name ≠ some false) : (look .read ctx id name).Clean := by
  rw [Clean, findings, offences_append, offences_lookup, Context.earlyRead, if_neg h]
  rfl

theorem Clean.this (h : (look .this ctx id name).Clean) : ctx.class_ ≠ .outside := by
  intro hc
  simp [Clean, findings, hc, offences] at h

theorem Clean.ne_outside {kind : Look} (h : (look kind ctx id name).Clean) (hk : kind = .this) :
    ctx.class_ ≠ .outside := by
  subst hk
  exact h.this

theorem Clean.super (h : (look .super ctx id name).Clean) : ctx.class_ = .subclass := by
  cases hc : ctx.class_ with
  | subclass => rfl
  | outside | plain =>
    simp [Clean, findings, Context.misplacedSuper, hc, offences] at h

theorem Clean.declare (h : (declare ctx name).Clean) : ctx.innermost? name = none := by
  cases hn : ctx.innermost? name with
  | none => rfl
  | some ready => simp [Clean, findings, Context.redeclaration, hn, offences] at h

theorem Clean.inherit {superclass : Token} (h : (inherit name (.var id superclass)).Clean) :
    superclass.lexeme ≠ name.lexeme := by
  intro hn
  simp [Clean, findings, selfInheritance, hn, offences] at h

end Visit

end Scoping

/-! ## Visits and names -/

mutual

theorem Expr.filterMap_visits (ctx : Context) :
    (e : Expr) → (e.visits ctx).filterMap Visit.mention? = e.mentions
  | .constant _ => rfl
  | .grouping inner => Expr.filterMap_visits ctx inner
  | .unary _ right => Expr.filterMap_visits ctx right
  | .binary left _ right | .logical left _ right => by
    simp only [Expr.visits, Expr.mentions, List.filterMap_append, Expr.filterMap_visits ctx left,
      Expr.filterMap_visits ctx right]
  | .var _ _ | .this _ _ | .super _ _ _ => rfl
  | .assign _ _ value => by
    simp only [Expr.visits, Expr.mentions, List.filterMap_append, Expr.filterMap_visits ctx value]
    rfl
  | .call callee _ arguments => by
    simp only [Expr.visits, Expr.mentions, List.filterMap_append, Expr.filterMap_visits ctx callee,
      Expr.filterMap_visitsAll ctx arguments]
  | .get object _ => Expr.filterMap_visits ctx object
  | .set object _ value => by
    simp only [Expr.visits, Expr.mentions, List.filterMap_append, Expr.filterMap_visits ctx object,
      Expr.filterMap_visits ctx value]
termination_by structural e => e

theorem Expr.filterMap_visitsAll (ctx : Context) :
    (es : List Expr) → (Expr.visitsAll ctx es).filterMap Visit.mention? = Expr.mentionsAll es
  | [] => rfl
  | e :: es => by
    simp only [Expr.visitsAll, Expr.mentionsAll, List.filterMap_append, Expr.filterMap_visits ctx e,
      Expr.filterMap_visitsAll ctx es]
termination_by structural es => es

end

theorem Expr.filterMap_visits? (ctx : Context) (e : Option Expr) :
    (Expr.visits? ctx e).filterMap Visit.mention? = Expr.mentions? e := by
  cases e with
  | none => rfl
  | some e => exact Expr.filterMap_visits ctx e

theorem Scoping.Context.filterMap_visitParams (ctx : Context) (names : List Token) :
    (ctx.visitParams names).filterMap Visit.mention? = names.map .declared := by
  induction names generalizing ctx with
  | nil => rfl
  | cons p rest ih => exact congrArg _ (ih (ctx.define p))

mutual

theorem Stmt.filterMap_visits (ctx : Context) :
    (s : Stmt) → (s.visits ctx).filterMap Visit.mention? = s.mentions
  | .expression expr | .print expr => Expr.filterMap_visits ctx expr
  | .varDecl name value => congrArg _ (Expr.filterMap_visits? (ctx.declare name) value)
  | .block statements => Stmt.filterMap_visitsAll ctx.enter statements
  | .branch condition thenBranch none => by
    simp only [Stmt.visits, Stmt.mentions, List.filterMap_append,
      Expr.filterMap_visits ctx condition, Stmt.filterMap_visits ctx thenBranch]
  | .branch condition thenBranch (some elseBranch) => by
    simp only [Stmt.visits, Stmt.mentions, List.filterMap_append,
      Expr.filterMap_visits ctx condition, Stmt.filterMap_visits ctx thenBranch,
      Stmt.filterMap_visits (ctx.defineAll thenBranch.declared) elseBranch]
  | .loop condition body => by
    simp only [Stmt.visits, Stmt.mentions, List.filterMap_append,
      Expr.filterMap_visits ctx condition, Stmt.filterMap_visits ctx body]
  | .funDecl function =>
    congrArg _ (FunctionDecl.filterMap_visits (ctx.define function.name) .function function)
  | .ret _ value => Expr.filterMap_visits? ctx value
  | .classDecl _ none methods => congrArg _ (FunctionDecl.filterMap_visitsAll _ methods)
  | .classDecl _ (some superclass) methods => by
    simp only [Stmt.visits, Stmt.mentions, List.filterMap_cons, Visit.mention?,
      List.filterMap_append, Expr.filterMap_visits _ superclass,
      FunctionDecl.filterMap_visitsAll _ methods]
termination_by structural s => s

theorem Stmt.filterMap_visitsAll (ctx : Context) :
    (ss : List Stmt) → (Stmt.visitsAll ctx ss).filterMap Visit.mention? = Stmt.mentionsAll ss
  | [] => rfl
  | s :: rest => by
    simp only [Stmt.visitsAll, Stmt.mentionsAll, List.filterMap_append, Stmt.filterMap_visits ctx s,
      Stmt.filterMap_visitsAll (ctx.defineAll s.declared) rest]
termination_by structural ss => ss

theorem FunctionDecl.filterMap_visits (ctx : Context) (kind : FunctionContext) :
    (f : FunctionDecl) → (f.visits ctx kind).filterMap Visit.mention? = f.mentions
  | ⟨_, params, body⟩ => by
    simp only [FunctionDecl.visits, FunctionDecl.mentions, List.filterMap_append,
      Context.filterMap_visitParams, Stmt.filterMap_visitsAll _ body]
termination_by structural f => f

theorem FunctionDecl.filterMap_visitsAll (ctx : Context) :
    (fs : List FunctionDecl) →
      (FunctionDecl.visitsAll ctx fs).filterMap Visit.mention? = FunctionDecl.mentionsAll fs
  | [] => rfl
  | f :: rest => by
    simp only [FunctionDecl.visitsAll, FunctionDecl.mentionsAll, List.filterMap_append,
      FunctionDecl.filterMap_visits ctx _ f, FunctionDecl.filterMap_visitsAll ctx rest]
termination_by structural fs => fs

end

/-- The ids that the check comes to are those of the nodes that look names up. -/
theorem Stmt.filterMap_id?_visitsAll (ctx : Context) (ss : List Stmt) :
    (Stmt.visitsAll ctx ss).filterMap Visit.id? =
      (Stmt.mentionsAll ss).filterMap Mention.id? := by
  rw [← Stmt.filterMap_visitsAll ctx ss, List.filterMap_filterMap]
  exact congrArg (List.filterMap · (Stmt.visitsAll ctx ss)) (funext Visit.id?_eq)

end Lox
