import Lox.Proofs.Scoping.Visit
import Lox.Proofs.Tree.Alike

/-!
# The check of scopes on alike trees

Contexts are made of lexemes, so the check comes to corresponding nodes of alike trees in the same
contexts (`Stmt.AlikeAll.visits`) and finds the same offences at corresponding tokens
(`Stmt.AlikeAll.offences`).

Conversely, ids that correspond at every visit correspond all over the trees
(`Stmt.AlikeAll.refine`). This is how the ids of two runs are related after the fact: the grammar
hands them out without looking, and only the check says what they are good for.
-/

namespace Lox

open Scoping

variable {N : NodeId → NodeId → Prop} {T : Likeness}

/-! ## Contexts -/

namespace Scoping.Context

variable (ctx : Context)

theorem declare_eq {name name' : Token} (h : T.rel name name') :
    ctx.declare name' = ctx.declare name := by
  rw [declare, declare, T.lexeme h]

theorem define_eq {name name' : Token} (h : T.rel name name') :
    ctx.define name' = ctx.define name := by
  rw [define, define, T.lexeme h]

theorem defineAll_eq {names names' : List Token} (h : List.Forall₂ T.rel names names') :
    ctx.defineAll names' = ctx.defineAll names := by
  induction h generalizing ctx with
  | nil => rfl
  | cons hn _ ih =>
    show (ctx.define _).defineAll _ = (ctx.define _).defineAll _
    rw [ctx.define_eq hn, ih]

theorem innermost?_eq {name name' : Token} (h : T.rel name name') :
    ctx.innermost? name' = ctx.innermost? name := by
  rw [innermost?, innermost?, T.lexeme h]

end Scoping.Context

theorem Likeness.forall₂_rel {kind : Kind} {names names' : List Token}
    (h : List.Forall₂ (T.Of kind) names names') : List.Forall₂ T.rel names names' :=
  h.imp fun _ _ h => h.rel

theorem FunctionDecl.Alike.name {f f' : FunctionDecl} (h : f.Alike N T f') :
    T.rel f.name f'.name := by
  cases h with
  | mk hname _ _ => exact hname.rel

/-- Alike statements declare corresponding names. -/
theorem Stmt.Alike.declared {s s' : Stmt} :
    s.Alike N T s' → List.Forall₂ T.rel s.declared s'.declared
  | .expression _ | .print _ | .block _ | .ret _ _ => .nil
  | .varDecl hname _ | .classDecl hname _ _ => .cons hname.rel .nil
  | .ifOnly _ h => h.declared
  | .ifElse _ h h' => List.rel_append h.declared h'.declared
  | .loop _ h => h.declared
  | .funDecl h => .cons h.name .nil

/-! ## Visits -/

namespace Scoping

variable (T) in
/-- Looks at corresponding nodes in the same context. -/
inductive Visit.Alike : Visit → Visit → Prop
  | look (kind : Look) (ctx : Context) (id id' : NodeId) {name name' : Token} :
      T.rel name name' → Visit.Alike (.look kind ctx id name) (.look kind ctx id' name')
  | declare (ctx : Context) {name name' : Token} :
      T.rel name name' → Visit.Alike (.declare ctx name) (.declare ctx name')
  | ret (ctx : Context) {keyword keyword' : Token} {value value' : Option Expr} :
      T.rel keyword keyword' → value'.isSome = value.isSome →
      Visit.Alike (.ret ctx keyword value) (.ret ctx keyword' value')
  | inherit {name name' : Token} {superclass superclass' : Expr} :
      T.rel name name' → superclass.Alike AnyNode T superclass' →
      Visit.Alike (.inherit name superclass) (.inherit name' superclass')

theorem Context.visitParams_alike (ctx : Context) {names names' : List Token}
    (h : List.Forall₂ T.rel names names') :
    List.Forall₂ (Visit.Alike T) (ctx.visitParams names) (ctx.visitParams names') := by
  induction h generalizing ctx with
  | nil => exact .nil
  | cons hn _ ih =>
    refine .cons (.declare ctx hn) ?_
    rw [ctx.define_eq hn]
    exact ih (ctx.define _)

end Scoping

mutual

theorem Expr.Alike.visits (ctx : Context) {e e' : Expr} :
    e.Alike N T e' → List.Forall₂ (Visit.Alike T) (e.visits ctx) (e'.visits ctx)
  | .constant _ => .nil
  | .grouping h => h.visits ctx
  | .unary _ _ h => h.visits ctx
  | .binary hl _ _ hr => List.rel_append (hl.visits ctx) (hr.visits ctx)
  | .logical hl _ hr => List.rel_append (hl.visits ctx) (hr.visits ctx)
  | .var _ hname => .cons (.look _ _ _ _ hname.rel) .nil
  | .assign _ hname h => List.rel_append (h.visits ctx) (.cons (.look _ _ _ _ hname.rel) .nil)
  | .call h _ hs => List.rel_append (h.visits ctx) (hs.visits ctx)
  | .get h _ => h.visits ctx
  | .set h _ hv => List.rel_append (hv.visits ctx) (h.visits ctx)
  | .this _ hk => .cons (.look _ _ _ _ hk) .nil
  | .super _ hk _ => .cons (.look _ _ _ _ hk) .nil

theorem Expr.AlikeAll.visits (ctx : Context) {es es' : List Expr} :
    Expr.AlikeAll N T es es' →
      List.Forall₂ (Visit.Alike T) (Expr.visitsAll ctx es) (Expr.visitsAll ctx es')
  | .nil => .nil
  | .cons h hs => List.rel_append (h.visits ctx) (hs.visits ctx)

end

theorem Expr.visits?_alike (ctx : Context) {e e' : Option Expr}
    (h : Option.Rel (Expr.Alike N T) e e') :
    List.Forall₂ (Visit.Alike T) (Expr.visits? ctx e) (Expr.visits? ctx e') := by
  cases h with
  | none => exact .nil
  | some h => exact h.visits ctx

mutual

theorem Stmt.Alike.visits (ctx : Context) {s s' : Stmt} :
    s.Alike N T s' → List.Forall₂ (Visit.Alike T) (s.visits ctx) (s'.visits ctx)
  | .expression h | .print h => h.visits ctx
  | .varDecl hname h => by
    refine .cons (.declare ctx hname.rel) ?_
    rw [ctx.declare_eq hname.rel]
    exact Expr.visits?_alike _ h
  | .block h => h.visits ctx.enter
  | .ifOnly hc h => List.rel_append (hc.visits ctx) (h.visits ctx)
  | .ifElse hc h h' => by
    rw [Stmt.visits, Stmt.visits, ctx.defineAll_eq h.declared]
    exact List.rel_append (List.rel_append (hc.visits ctx) (h.visits ctx)) (h'.visits _)
  | .loop hc h => List.rel_append (hc.visits ctx) (h.visits ctx)
  | .funDecl h => by
    refine .cons (.declare ctx h.name) ?_
    rw [ctx.define_eq h.name]
    exact h.visits _ .function
  | .ret hk h => .cons (.ret ctx hk h.isSome_eq) (Expr.visits?_alike ctx h)
  | .classDecl hname .none hs => by
    refine .cons (.declare ctx hname.rel) ?_
    rw [ctx.define_eq hname.rel]
    exact hs.visits _
  | .classDecl hname (.some h) hs => by
    refine .cons (.declare ctx hname.rel) (.cons (.inherit hname.rel (h.mono ?_ ?_)) ?_)
    · exact fun _ _ _ => trivial
    · exact le_refl _
    · rw [ctx.define_eq hname.rel]
      exact List.rel_append (h.visits _) (hs.visits _)

theorem Stmt.AlikeAll.visits (ctx : Context) {ss ss' : List Stmt} :
    Stmt.AlikeAll N T ss ss' →
      List.Forall₂ (Visit.Alike T) (Stmt.visitsAll ctx ss) (Stmt.visitsAll ctx ss')
  | .nil => .nil
  | .cons h hs => by
    rw [Stmt.visitsAll, Stmt.visitsAll, ctx.defineAll_eq h.declared]
    exact List.rel_append (h.visits ctx) (hs.visits _)

theorem FunctionDecl.Alike.visits (ctx : Context) (kind : FunctionContext)
    {f f' : FunctionDecl} : f.Alike N T f' →
      List.Forall₂ (Visit.Alike T) (f.visits ctx kind) (f'.visits ctx kind)
  | .mk _ hparams h => by
    have hp := Likeness.forall₂_rel hparams
    rw [FunctionDecl.visits, FunctionDecl.visits, Context.defineAll_eq _ hp]
    exact List.rel_append (Context.visitParams_alike _ hp) (h.visits _)

theorem FunctionDecl.AlikeAll.visits (ctx : Context) {fs fs' : List FunctionDecl} :
    FunctionDecl.AlikeAll N T fs fs' →
      List.Forall₂ (Visit.Alike T) (FunctionDecl.visitsAll ctx fs)
        (FunctionDecl.visitsAll ctx fs')
  | .nil => .nil
  | .cons h hs => by
    rw [FunctionDecl.visitsAll, FunctionDecl.visitsAll, methodContext, methodContext,
      T.lexeme h.name]
    exact List.rel_append (h.visits ctx _) (hs.visits ctx)

end

/-! ## Offences -/

/-- The same offence at corresponding tokens. -/
structure ScopeError.Alike (T : Likeness) (e e' : ScopeError) : Prop where
  site : T.rel e.site e'.site
  fault : e'.fault = e.fault

namespace Scoping

theorem offences_ite_alike {p : Prop} [Decidable p] {t t' : Token} (h : T.rel t t')
    (fault : ScopeFault) :
    List.Forall₂ (ScopeError.Alike T)
      (offences (if p then [.offence ⟨t, fault⟩] else []))
      (offences (if p then [.offence ⟨t', fault⟩] else [])) := by
  split
  · exact .cons ⟨h, rfl⟩ .nil
  · exact .nil

theorem misplacedSuper_alike (ctx : Context) {t t' : Token} (h : T.rel t t') :
    List.Forall₂ (ScopeError.Alike T) (offences (ctx.misplacedSuper t))
      (offences (ctx.misplacedSuper t')) := by
  unfold Context.misplacedSuper
  cases ctx.class_ with
  | outside | plain => exact .cons ⟨h, rfl⟩ .nil
  | subclass => exact .nil

theorem selfInheritance_alike {name name' : Token} (h : T.rel name name')
    {superclass superclass' : Expr} (hs : superclass.Alike AnyNode T superclass') :
    List.Forall₂ (ScopeError.Alike T) (offences (selfInheritance name superclass))
      (offences (selfInheritance name' superclass')) := by
  cases hs with
  | var _ hparent =>
    rw [selfInheritance, selfInheritance, T.lexeme h, T.lexeme hparent.rel]
    exact offences_ite_alike hparent.rel _
  | _ => exact .nil

theorem Visit.Alike.offences {v v' : Visit} (h : v.Alike T v') :
    List.Forall₂ (ScopeError.Alike T) (offences v.findings) (offences v'.findings) := by
  cases h with
  | look kind ctx id id' hname =>
    cases kind with
    | read =>
      rw [findings, findings, offences_append, offences_append, offences_lookup, offences_lookup,
        List.append_nil, List.append_nil, Context.earlyRead, Context.earlyRead,
        ctx.innermost?_eq hname]
      exact offences_ite_alike hname _
    | write =>
      rw [findings, findings, offences_lookup, offences_lookup]
      exact .nil
    | this =>
      rw [findings, findings]
      split
      · exact .cons ⟨hname, rfl⟩ .nil
      · rw [offences_lookup, offences_lookup]
        exact .nil
    | super =>
      rw [findings, findings, offences_append, offences_append, offences_lookup, offences_lookup,
        List.append_nil, List.append_nil]
      exact misplacedSuper_alike ctx hname
  | declare ctx hname =>
    rw [findings, findings, Context.redeclaration, Context.redeclaration, ctx.innermost?_eq hname]
    exact offences_ite_alike hname _
  | ret ctx hk hvalue =>
    rw [findings, findings, Context.misplacedReturn, Context.misplacedReturn, offences_append,
      offences_append, hvalue]
    exact List.rel_append (offences_ite_alike hk _) (offences_ite_alike hk _)
  | inherit hname hs => exact selfInheritance_alike hname hs

theorem offences_flatMap_alike {vs vs' : List Visit}
    (h : List.Forall₂ (Visit.Alike T) vs vs') :
    List.Forall₂ (ScopeError.Alike T) (offences (vs.flatMap Visit.findings))
      (offences (vs'.flatMap Visit.findings)) := by
  induction h with
  | nil => exact .nil
  | cons hv _ ih =>
    rw [List.flatMap_cons, List.flatMap_cons, offences_append, offences_append]
    exact List.rel_append hv.offences ih

end Scoping

/-- Alike programs have the same offences at corresponding tokens. -/
theorem Stmt.AlikeAll.offences {ss ss' : List Stmt} (h : Stmt.AlikeAll N T ss ss') :
    List.Forall₂ (ScopeError.Alike T) (offences (check ss)) (offences (check ss')) := by
  rw [check, check, Stmt.findingsAll_eq, Stmt.findingsAll_eq]
  exact offences_flatMap_alike (h.visits Context.top)

/-! ## From visits to trees -/

/-- Ids correspond wherever the visits to them say the same. -/
def Scoping.VisitsMatch (N : NodeId → NodeId → Prop) (vs vs' : List Visit) : Prop :=
  ∀ kind ctx id id' name name', Visit.look kind ctx id name ∈ vs →
    Visit.look kind ctx id' name' ∈ vs' → name'.lexeme = name.lexeme → N id id'

section

variable {vs vs' : List Visit}

mutual

theorem Expr.Alike.refine (hN : VisitsMatch N vs vs') (ctx : Context) {e e' : Expr} :
    e.Alike AnyNode T e' → e.visits ctx ⊆ vs → e'.visits ctx ⊆ vs' → e.Alike N T e'
  | .constant value, _, _ => .constant value
  | .grouping h, hv, hv' => .grouping (h.refine hN ctx hv hv')
  | .unary hop hk h, hv, hv' => .unary hop hk (h.refine hN ctx hv hv')
  | .binary hl hop hk hr, hv, hv' => by
    obtain ⟨hv₁, hv₂⟩ := List.append_subset.1 hv
    obtain ⟨hv₁', hv₂'⟩ := List.append_subset.1 hv'
    exact .binary (hl.refine hN ctx hv₁ hv₁') hop hk (hr.refine hN ctx hv₂ hv₂')
  | .logical hl hop hr, hv, hv' => by
    obtain ⟨hv₁, hv₂⟩ := List.append_subset.1 hv
    obtain ⟨hv₁', hv₂'⟩ := List.append_subset.1 hv'
    exact .logical (hl.refine hN ctx hv₁ hv₁') hop (hr.refine hN ctx hv₂ hv₂')
  | .var _ hname, hv, hv' =>
    .var (hN _ _ _ _ _ _ (hv List.mem_cons_self) (hv' List.mem_cons_self) (T.lexeme hname.rel))
      hname
  | .assign _ hname h, hv, hv' => by
    obtain ⟨hv₁, hv₂⟩ := List.append_subset.1 hv
    obtain ⟨hv₁', hv₂'⟩ := List.append_subset.1 hv'
    exact .assign (hN _ _ _ _ _ _ (hv₂ List.mem_cons_self) (hv₂' List.mem_cons_self)
      (T.lexeme hname.rel)) hname (h.refine hN ctx hv₁ hv₁')
  | .call h hparen hs, hv, hv' => by
    obtain ⟨hv₁, hv₂⟩ := List.append_subset.1 hv
    obtain ⟨hv₁', hv₂'⟩ := List.append_subset.1 hv'
    exact .call (h.refine hN ctx hv₁ hv₁') hparen (hs.refine hN ctx hv₂ hv₂')
  | .get h hname, hv, hv' => .get (h.refine hN ctx hv hv') hname
  | .set h hname hvalue, hv, hv' => by
    obtain ⟨hv₁, hv₂⟩ := List.append_subset.1 hv
    obtain ⟨hv₁', hv₂'⟩ := List.append_subset.1 hv'
    exact .set (h.refine hN ctx hv₂ hv₂') hname (hvalue.refine hN ctx hv₁ hv₁')
  | .this _ hk, hv, hv' =>
    .this (hN _ _ _ _ _ _ (hv List.mem_cons_self) (hv' List.mem_cons_self) (T.lexeme hk)) hk
  | .super _ hk hm, hv, hv' =>
    .super (hN _ _ _ _ _ _ (hv List.mem_cons_self) (hv' List.mem_cons_self) (T.lexeme hk)) hk hm

theorem Expr.AlikeAll.refine (hN : VisitsMatch N vs vs') (ctx : Context) {es es' : List Expr} :
    Expr.AlikeAll AnyNode T es es' → Expr.visitsAll ctx es ⊆ vs → Expr.visitsAll ctx es' ⊆ vs' →
      Expr.AlikeAll N T es es'
  | .nil, _, _ => .nil
  | .cons h hs, hv, hv' => by
    obtain ⟨hv₁, hv₂⟩ := List.append_subset.1 hv
    obtain ⟨hv₁', hv₂'⟩ := List.append_subset.1 hv'
    exact .cons (h.refine hN ctx hv₁ hv₁') (hs.refine hN ctx hv₂ hv₂')

end

theorem Expr.rel_refine (hN : VisitsMatch N vs vs') (ctx : Context) {e e' : Option Expr}
    (h : Option.Rel (Expr.Alike AnyNode T) e e') (hv : Expr.visits? ctx e ⊆ vs)
    (hv' : Expr.visits? ctx e' ⊆ vs') : Option.Rel (Expr.Alike N T) e e' := by
  cases h with
  | none => exact .none
  | some h => exact .some (h.refine hN ctx hv hv')

mutual

theorem Stmt.Alike.refine (hN : VisitsMatch N vs vs') (ctx : Context) {s s' : Stmt} :
    s.Alike AnyNode T s' → s.visits ctx ⊆ vs → s'.visits ctx ⊆ vs' → s.Alike N T s'
  | .expression h, hv, hv' => .expression (h.refine hN ctx hv hv')
  | .print h, hv, hv' => .print (h.refine hN ctx hv hv')
  | .varDecl hname h, hv, hv' => by
    -- Alike names change the context alike, so what follows is visited in one context.
    rw [Stmt.visits, ctx.declare_eq hname.rel] at hv'
    exact .varDecl hname (Expr.rel_refine hN _ h (List.cons_subset.1 hv).2
      (List.cons_subset.1 hv').2)
  | .block h, hv, hv' => .block (h.refine hN ctx.enter hv hv')
  | .ifOnly hc h, hv, hv' => by
    obtain ⟨hv₁, hv₂⟩ := List.append_subset.1 hv
    obtain ⟨hv₁', hv₂'⟩ := List.append_subset.1 hv'
    exact .ifOnly (hc.refine hN ctx hv₁ hv₁') (h.refine hN ctx hv₂ hv₂')
  | .ifElse hc h h', hv, hv' => by
    rw [Stmt.visits, ctx.defineAll_eq h.declared] at hv'
    obtain ⟨hv₁₂, hv₃⟩ := List.append_subset.1 hv
    obtain ⟨hv₁, hv₂⟩ := List.append_subset.1 hv₁₂
    obtain ⟨hv₁₂', hv₃'⟩ := List.append_subset.1 hv'
    obtain ⟨hv₁', hv₂'⟩ := List.append_subset.1 hv₁₂'
    exact .ifElse (hc.refine hN ctx hv₁ hv₁') (h.refine hN ctx hv₂ hv₂')
      (h'.refine hN _ hv₃ hv₃')
  | .loop hc h, hv, hv' => by
    obtain ⟨hv₁, hv₂⟩ := List.append_subset.1 hv
    obtain ⟨hv₁', hv₂'⟩ := List.append_subset.1 hv'
    exact .loop (hc.refine hN ctx hv₁ hv₁') (h.refine hN ctx hv₂ hv₂')
  | .funDecl h, hv, hv' => by
    rw [Stmt.visits, ctx.define_eq h.name] at hv'
    exact .funDecl (h.refine hN _ .function (List.cons_subset.1 hv).2 (List.cons_subset.1 hv').2)
  | .ret hk h, hv, hv' =>
    .ret hk (Expr.rel_refine hN ctx h (List.cons_subset.1 hv).2 (List.cons_subset.1 hv').2)
  | .classDecl hname .none hs, hv, hv' => by
    rw [Stmt.visits, ctx.define_eq hname.rel] at hv'
    exact .classDecl hname .none (hs.refine hN _ (List.cons_subset.1 hv).2
      (List.cons_subset.1 hv').2)
  | .classDecl hname (.some h) hs, hv, hv' => by
    rw [Stmt.visits, ctx.define_eq hname.rel] at hv'
    obtain ⟨hv₁, hv₂⟩ := List.append_subset.1 (List.cons_subset.1 (List.cons_subset.1 hv).2).2
    obtain ⟨hv₁', hv₂'⟩ := List.append_subset.1 (List.cons_subset.1 (List.cons_subset.1 hv').2).2
    exact .classDecl hname (.some (h.refine hN _ hv₁ hv₁')) (hs.refine hN _ hv₂ hv₂')

theorem Stmt.AlikeAll.refine (hN : VisitsMatch N vs vs') (ctx : Context) {ss ss' : List Stmt} :
    Stmt.AlikeAll AnyNode T ss ss' → Stmt.visitsAll ctx ss ⊆ vs → Stmt.visitsAll ctx ss' ⊆ vs' →
      Stmt.AlikeAll N T ss ss'
  | .nil, _, _ => .nil
  | .cons h hs, hv, hv' => by
    rw [Stmt.visitsAll, ctx.defineAll_eq h.declared] at hv'
    obtain ⟨hv₁, hv₂⟩ := List.append_subset.1 hv
    obtain ⟨hv₁', hv₂'⟩ := List.append_subset.1 hv'
    exact .cons (h.refine hN ctx hv₁ hv₁') (hs.refine hN _ hv₂ hv₂')

theorem FunctionDecl.Alike.refine (hN : VisitsMatch N vs vs') (ctx : Context)
    (kind : FunctionContext) {f f' : FunctionDecl} :
    f.Alike AnyNode T f' → f.visits ctx kind ⊆ vs → f'.visits ctx kind ⊆ vs' → f.Alike N T f'
  | .mk hname hparams h, hv, hv' => by
    rw [FunctionDecl.visits, Context.defineAll_eq _ (Likeness.forall₂_rel hparams)] at hv'
    exact .mk hname hparams (h.refine hN _ (List.append_subset.1 hv).2
      (List.append_subset.1 hv').2)

theorem FunctionDecl.AlikeAll.refine (hN : VisitsMatch N vs vs') (ctx : Context)
    {fs fs' : List FunctionDecl} : FunctionDecl.AlikeAll AnyNode T fs fs' →
      FunctionDecl.visitsAll ctx fs ⊆ vs → FunctionDecl.visitsAll ctx fs' ⊆ vs' →
      FunctionDecl.AlikeAll N T fs fs'
  | .nil, _, _ => .nil
  | .cons h hs, hv, hv' => by
    rw [FunctionDecl.visitsAll, methodContext, T.lexeme h.name] at hv'
    obtain ⟨hv₁, hv₂⟩ := List.append_subset.1 hv
    obtain ⟨hv₁', hv₂'⟩ := List.append_subset.1 hv'
    exact .cons (h.refine hN ctx _ hv₁ hv₁') (hs.refine hN ctx hv₂ hv₂')

end

end

end Lox
