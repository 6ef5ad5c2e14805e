import Lox.Proofs.Scoping.Realization
import Lox.Proofs.Token.Words

/-!
# `this` and `super` among the static scopes

The scopes of `this` and `super` are put around the methods of a class and nowhere else, because
no name of a program is spelled like a keyword. So wherever `this` stands, it is ready, and
wherever `super` may stand, its scope lies just outside that of the nearest `this`
(`Context.Proper`). The check of a program comes to these words only in such contexts
(`Stmt.anchored_visitsAll`).
-/

namespace Lox

/-- A name has the kind of token that its text says. -/
def Mention.Spelled (m : Mention) : Prop := Kind.ofWord m.token.lexeme = m.kind

namespace Scoping

/-- The name of a visit has the kind of token that its text says. -/
def Visit.Spelled (v : Visit) : Prop := ∀ m ∈ v.mention?, m.Spelled

theorem Visit.isWord_mention? {v : Visit} {m : Mention} (h : v.mention? = some m) :
    m.kind.isWord := by
  cases v with
  | look kind ctx id name => cases kind <;> cases h <;> rfl
  | declare ctx name => cases h; rfl
  | ret => cases h
  | inherit => cases h

/-- The scopes of `this` and `super` are where the class around the place says. -/
structure Context.Proper (ctx : Context) : Prop where
  ready : ∀ scope ∈ ctx.scopes, scope.lookup "this" ≠ some false
  this : ctx.class_ ≠ .outside → ∃ hops, ctx.hops? "this" = some hops
  super : ctx.class_ = .subclass →
    ∃ hops, ctx.hops? "this" = some hops ∧ ctx.hops? "super" = some (hops + 1)

/-- A visit to `this` or `super` is made in a proper context. -/
def Visit.Anchored : Visit → Prop
  | .look .this ctx _ _ | .look .super ctx _ _ => ctx.Proper
  | _ => True

namespace Context

variable {ctx : Context} {name : String} {ready : Bool}

theorem hops?_enter (ctx : Context) (n : String) :
    ctx.enter.hops? n = (ctx.hops? n).map (· + 1) := by
  simp [enter, hops?, List.findIdx?_cons]

theorem hops?_add_of_ne {n : String} (h : n ≠ name) :
    (ctx.add name ready).hops? n = ctx.hops? n := by
  rw [hops?_eq_view, hops?_eq_view, view_add_of_ne ctx h.symm]

namespace Proper

theorem top : top.Proper := ⟨nofun, fun h => absurd rfl h, nofun⟩

theorem enter (h : ctx.Proper) : ctx.enter.Proper where
  ready := List.forall_mem_cons.2 ⟨by simp, h.ready⟩
  this hc := by
    obtain ⟨hops, ht⟩ := h.this hc
    exact ⟨hops + 1, by rw [hops?_enter, ht]; rfl⟩
  super hc := by
    obtain ⟨hops, ht, hs⟩ := h.super hc
    exact ⟨hops + 1, by rw [hops?_enter, ht]; rfl, by rw [hops?_enter, hs]; rfl⟩

theorem call (h : ctx.Proper) (kind : FunctionContext) : (ctx.call kind).Proper :=
  ⟨h.enter.ready, h.enter.this, h.enter.super⟩

theorem add (h : ctx.Proper) (hthis : name ≠ "this") (hsuper : name ≠ "super") :
    (ctx.add name ready).Proper := by
  -- Names other than the keywords change nothing about how the keywords are seen.
  have hview : (ctx.add name ready).view "this" = ctx.view "this" := view_add_of_ne ctx hthis ready
  refine ⟨fun scope hs => ?_, ?_, ?_⟩
  · have hmem : scope.lookup "this" ∈ (ctx.add name ready).view "this" :=
      List.mem_map.2 ⟨scope, hs, rfl⟩
    rw [hview] at hmem
    obtain ⟨scope', hs', heq⟩ := List.mem_map.1 hmem
    exact heq ▸ h.ready scope' hs'
  · rw [add_class_, hops?_add_of_ne hthis.symm]
    exact h.this
  · rw [add_class_, hops?_add_of_ne hthis.symm, hops?_add_of_ne hsuper.symm]
    exact h.super

theorem define (h : ctx.Proper) {name : Token} (hn : Kind.ofWord name.lexeme = .identifier) :
    (ctx.define name).Proper :=
  h.add (Kind.ne_this_of_ofWord hn) (Kind.ne_super_of_ofWord hn)

theorem declare (h : ctx.Proper) {name : Token} (hn : Kind.ofWord name.lexeme = .identifier) :
    (ctx.declare name).Proper :=
  h.add (Kind.ne_this_of_ofWord hn) (Kind.ne_super_of_ofWord hn)

theorem defineAll (h : ctx.Proper) {names : List Token}
    (hn : ∀ t ∈ names, Kind.ofWord t.lexeme = .identifier) : (ctx.defineAll names).Proper := by
  induction names generalizing ctx with
  | nil => exact h
  | cons t rest ih =>
    obtain ⟨ht, hrest⟩ := List.forall_mem_cons.1 hn
    exact ih (h.define ht) hrest

/-- The scopes around methods. Nothing is asked of the class around the class itself. -/
theorem methods {isSubclass : Bool}
    (hready : ∀ scope ∈ ctx.scopes, scope.lookup "this" ≠ some false)
    (hclass : ctx.class_ = .subclass → isSubclass = true) : (ctx.methods isSubclass).Proper := by
  cases isSubclass with
  | false =>
    have hscopes : (ctx.methods false).scopes = [("this", true)] :: ctx.scopes := rfl
    refine ⟨?_, fun _ => ⟨0, ?_⟩, fun hc => Bool.noConfusion (hclass hc)⟩
    · rw [hscopes]
      exact List.forall_mem_cons.2 ⟨by simp, hready⟩
    · simp [hops?, hscopes, List.findIdx?_cons]
  | true =>
    have hscopes : (ctx.methods true).scopes =
        [("this", true)] :: [("super", true)] :: ctx.scopes := rfl
    refine ⟨?_, fun _ => ⟨0, ?_⟩, fun _ => ⟨0, ?_, ?_⟩⟩
    · rw [hscopes]
      exact List.forall_mem_cons.2 ⟨by simp, List.forall_mem_cons.2 ⟨by decide, hready⟩⟩
    · simp [hops?, hscopes, List.findIdx?_cons]
    · simp [hops?, hscopes, List.findIdx?_cons]
    · simp [hops?, hscopes, List.findIdx?_cons, List.lookup_cons]

end Proper

end Context

end Scoping

open Scoping

/-! ## Visits -/

mutual

theorem Expr.anchored_visits {ctx : Context} (h : ctx.Proper) :
    (e : Expr) → ∀ v ∈ e.visits ctx, v.Anchored
  | .constant _ => List.forall_mem_nil _
  | .grouping inner => Expr.anchored_visits h inner
  | .unary _ right => Expr.anchored_visits h right
  | .binary left _ right | .logical left _ right =>
    List.forall_mem_append.2 ⟨Expr.anchored_visits h left, Expr.anchored_visits h right⟩
  | .var _ _ => List.forall_mem_singleton.2 trivial
  | .assign _ _ value => List.forall_mem_append.2
    ⟨Expr.anchored_visits h value, List.forall_mem_singleton.2 trivial⟩
  | .call callee _ arguments => List.forall_mem_append.2
    ⟨Expr.anchored_visits h callee, Expr.anchored_visitsAll h arguments⟩
  | .get object _ => Expr.anchored_visits h object
  | .set object _ value =>
    List.forall_mem_append.2 ⟨Expr.anchored_visits h value, Expr.anchored_visits h object⟩
  | .this _ _ | .super _ _ _ => List.forall_mem_singleton.2 h
termination_by structural e => e

theorem Expr.anchored_visitsAll {ctx : Context} (h : ctx.Proper) :
    (es : List Expr) → ∀ v ∈ Expr.visitsAll ctx es, v.Anchored
  | [] => List.forall_mem_nil _
  | e :: es =>
    List.forall_mem_append.2 ⟨Expr.anchored_visits h e, Expr.anchored_visitsAll h es⟩
termination_by structural es => es

end

theorem Expr.anchored_visits? {ctx : Context} (h : ctx.Proper) (e : Option Expr) :
    ∀ v ∈ Expr.visits? ctx e, v.Anchored := by
  cases e with
  | none => exact List.forall_mem_nil _
  | some e => exact Expr.anchored_visits h e

theorem Scoping.Context.anchored_visitParams (ctx : Context) (names : List Token) :
    ∀ v ∈ ctx.visitParams names, v.Anchored := by
  induction names generalizing ctx with
  | nil => exact List.forall_mem_nil _
  | cons p rest ih => exact List.forall_mem_cons.2 ⟨trivial, ih (ctx.define p)⟩

/-- What a plain statement declares is among its names. -/
theorem Stmt.Plain.mem_mentions {s : Stmt} (h : s.Plain) :
    ∀ t ∈ s.declared, .declared t ∈ s.mentions := by
  cases s with
  | varDecl name value =>
    intro t ht
    exact List.mem_singleton.1 ht ▸ List.mem_cons_self
  | funDecl f =>
    intro t ht
    exact List.mem_singleton.1 ht ▸ List.mem_cons_self
  | classDecl name superclass methods =>
    intro t ht
    cases superclass <;> exact List.mem_singleton.1 ht ▸ List.mem_cons_self
  | branch condition thenBranch elseBranch =>
    cases elseBranch with
    | none => rw [Stmt.declared, h.2]; exact List.forall_mem_nil _
    | some s => rw [Stmt.declared, h.1.2, h.2.2]; exact List.forall_mem_nil _
  | loop condition body => rw [Stmt.declared, h.2]; exact List.forall_mem_nil _
  | _ => exact List.forall_mem_nil _

/-- The names that a plain statement declares are identifiers. -/
theorem Stmt.Plain.spelled {s : Stmt} (h : s.Plain) (hm : ∀ m ∈ s.mentions, m.Spelled) :
    ∀ t ∈ s.declared, Kind.ofWord t.lexeme = .identifier :=
  fun t ht => hm _ (h.mem_mentions t ht)

mutual

theorem Stmt.anchored_visits {ctx : Context} (h : ctx.Proper) :
    (s : Stmt) → s.Plain → (∀ m ∈ s.mentions, m.Spelled) → ∀ v ∈ s.visits ctx, v.Anchored
  | .expression expr, _, _ | .print expr, _, _ => Expr.anchored_visits h expr
  | .varDecl _ value, _, hm => List.forall_mem_cons.2
    ⟨trivial, Expr.anchored_visits? (h.declare (hm _ List.mem_cons_self)) value⟩
  | .block statements, hp, hm => Stmt.anchored_visitsAll h.enter statements hp hm
  | .branch condition thenBranch none, hp, hm => by
    obtain ⟨-, ht⟩ := List.forall_mem_append.1 hm
    exact List.forall_mem_append.2
      ⟨Expr.anchored_visits h condition, Stmt.anchored_visits h thenBranch hp.1 ht⟩
  | .branch condition thenBranch (some elseBranch), hp, hm => by
    obtain ⟨⟨hp₁, hd⟩, hp₂, -⟩ := hp
    obtain ⟨hcm, he⟩ := List.forall_mem_append.1 hm
    obtain ⟨-, ht⟩ := List.forall_mem_append.1 hcm
    -- The first branch declares nothing, so both are visited in the same context.
    rw [Stmt.visits, hd]
    exact List.forall_mem_append.2 ⟨List.forall_mem_append.2
      ⟨Expr.anchored_visits h condition, Stmt.anchored_visits h thenBranch hp₁ ht⟩,
      Stmt.anchored_visits h elseBranch hp₂ he⟩
  | .loop condition body, hp, hm => by
    obtain ⟨-, hb⟩ := List.forall_mem_append.1 hm
    exact List.forall_mem_append.2
      ⟨Expr.anchored_visits h condition, Stmt.anchored_visits h body hp.1 hb⟩
  | .funDecl function, hp, hm => by
    obtain ⟨hname, hf⟩ := List.forall_mem_cons.1 hm
    exact List.forall_mem_cons.2
      ⟨trivial, FunctionDecl.anchored_visits (h.define hname) function .function hp hf⟩
  | .ret _ value, _, _ => List.forall_mem_cons.2 ⟨trivial, Expr.anchored_visits? h value⟩
  | .classDecl name none methods, hp, hm => by
    obtain ⟨hname, hf⟩ := List.forall_mem_cons.1 hm
    have hinner : Context.Proper ({ ctx.define name with class_ := .plain }.methods false) :=
      .methods (h.define hname).ready nofun
    exact List.forall_mem_cons.2
      ⟨trivial, FunctionDecl.anchored_visitsAll hinner methods hp hf⟩
  | .classDecl name (some superclass) methods, hp, hm => by
    obtain ⟨⟨id, parent, rfl⟩, hp⟩ := hp
    obtain ⟨hname, hrest⟩ := List.forall_mem_cons.1 hm
    obtain ⟨-, hf⟩ := List.forall_mem_append.1 hrest
    have hinner : Context.Proper ({ ctx.define name with class_ := .subclass }.methods true) :=
      .methods (h.define hname).ready fun _ => rfl
    exact List.forall_mem_cons.2 ⟨trivial, List.forall_mem_cons.2 ⟨trivial,
      List.forall_mem_append.2 ⟨List.forall_mem_singleton.2 trivial,
        FunctionDecl.anchored_visitsAll hinner methods hp hf⟩⟩⟩
termination_by structural s => s

theorem Stmt.anchored_visitsAll {ctx : Context} (h : ctx.Proper) :
    (ss : List Stmt) → Stmt.PlainAll ss → (∀ m ∈ Stmt.mentionsAll ss, m.Spelled) →
      ∀ v ∈ Stmt.visitsAll ctx ss, v.Anchored
  | [], _, _ => List.forall_mem_nil _
  | s :: rest, hp, hm => by
    obtain ⟨hs, hrest⟩ := List.forall_mem_append.1 hm
    exact List.forall_mem_append.2 ⟨Stmt.anchored_visits h s hp.1 hs,
      Stmt.anchored_visitsAll (h.defineAll (hp.1.spelled hs)) rest hp.2 hrest⟩
termination_by structural ss => ss

theorem FunctionDecl.anchored_visits {ctx : Context} (h : ctx.Proper) :
    (f : FunctionDecl) → (kind : FunctionContext) → f.Plain → (∀ m ∈ f.mentions, m.Spelled) →
      ∀ v ∈ f.visits ctx kind, v.Anchored
  | ⟨_, params, body⟩, kind, hp, hm => by
    obtain ⟨hparams, hbody⟩ := List.forall_mem_append.1 hm
    have hnames : ∀ t ∈ params, Kind.ofWord t.lexeme = .identifier :=
      fun t ht => hparams _ (List.mem_map.2 ⟨t, ht, rfl⟩)
    exact List.forall_mem_append.2 ⟨Context.anchored_visitParams _ params,
      Stmt.anchored_visitsAll ((h.call kind).defineAll hnames) body hp hbody⟩
termination_by structural f => f

theorem FunctionDecl.anchored_visitsAll {ctx : Context} (h : ctx.Proper) :
    (fs : List FunctionDecl) → FunctionDecl.PlainAll fs →
      (∀ m ∈ FunctionDecl.mentionsAll fs, m.Spelled) →
      ∀ v ∈ FunctionDecl.visitsAll ctx fs, v.Anchored
  | [], _, _ => List.forall_mem_nil _
  | f :: rest, hp, hm => by
    obtain ⟨hf, hrest⟩ := List.forall_mem_append.1 hm
    exact List.forall_mem_append.2 ⟨FunctionDecl.anchored_visits h f _ hp.1 hf,
      FunctionDecl.anchored_visitsAll h rest hp.2 hrest⟩
termination_by structural fs => fs

end

end Lox
