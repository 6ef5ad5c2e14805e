import Lox.Proofs.Scoping.Keywords
import Lox.Proofs.Scoping.Rules

/-!
# Where `super` stands

A `super` belongs to the innermost method around it, however many blocks and functions lie between
the two. A part of a program holds a `super` if it stands in the part and in no class that is
declared there (`Part.Holds`), and the number of scopes between them is counted.

The check of scopes comes to what a part holds within the same class, and from there it is no
farther to a name than that many scopes and the way from the part itself (`Part.Holds.visited`).
-/

namespace Lox

open Scoping

/-- A `super` stands in the part, inside `depth` scopes of it and in no class declared there. -/
inductive Part.Holds : Part → Nat → NodeId → Prop
  | here {id : NodeId} {keyword method : Token} : Holds (.expr (.super id keyword method)) 0 id
  | down {owner part : Part} {depth : Nat} {id : NodeId} :
      part ∈ owner.parts → owner.superclass? = none → Holds part depth id →
      Holds owner (owner.isScope.toNat + depth) id

/-- A method holds what it would hold as a function. -/
theorem Part.Holds.method {isMethod : Bool} {f : FunctionDecl} {depth : Nat} {id : NodeId}
    (h : (Part.function isMethod f).Holds depth id) : (Part.function true f).Holds depth id := by
  cases h with
  | down hmem _ hpart => exact .down hmem rfl hpart

namespace Scoping

/-! ## Contexts inside others -/

/-- The second context lies in the same class as the first, at most `depth` scopes further in. -/
structure Context.Near (depth : Nat) (ctx ctx' : Context) : Prop where
  class_ : ctx'.class_ = ctx.class_
  hops : ∀ {name hops}, ctx.hops? name = some hops →
    ∃ hops' ≤ depth + hops, ctx'.hops? name = some hops'

namespace Context.Near

variable {a b : Nat} {ctx ctx' ctx'' : Context}

theorem refl (ctx : Context) : Near 0 ctx ctx :=
  ⟨rfl, fun h => ⟨_, Nat.le_add_left _ _, h⟩⟩

theorem trans (h : Near a ctx ctx') (h' : Near b ctx' ctx'') : Near (a + b) ctx ctx'' where
  class_ := h'.class_.trans h.class_
  hops hn := by
    obtain ⟨n', hle, hn'⟩ := h.hops hn
    obtain ⟨n'', hle', hn''⟩ := h'.hops hn'
    exact ⟨n'', by omega, hn''⟩

theorem enter (ctx : Context) : Near 1 ctx ctx.enter where
  class_ := rfl
  hops {name n} hn := by
    refine ⟨n + 1, by omega, ?_⟩
    rw [hops?_enter, hn]
    rfl

theorem call (ctx : Context) (kind : FunctionContext) : Near 1 ctx (ctx.call kind) :=
  ⟨rfl, (enter ctx).hops⟩

/-- A name that is added may be found sooner, and the others are where they were. -/
theorem add (ctx : Context) (name : String) (ready : Bool) : Near 0 ctx (ctx.add name ready) where
  class_ := ctx.add_class_ name ready
  hops {other n} hn := by
    by_cases hne : other = name
    · subst hne
      cases hs : ctx.scopes with
      | nil => simp [hops?, hs] at hn
      | cons scope outer =>
        refine ⟨0, Nat.zero_le _, ?_⟩
        simp [hops?, add_scopes_cons hs, List.findIdx?_cons]
    · exact ⟨n, Nat.le_add_left _ _, (hops?_add_of_ne hne).trans hn⟩

theorem defineAll (ctx : Context) (names : List Token) : Near 0 ctx (ctx.defineAll names) := by
  induction names generalizing ctx with
  | nil => exact .refl ctx
  | cons name rest ih => exact (add ctx name.lexeme true).trans (ih (ctx.define name))

end Context.Near

/-! ## Visits -/

/-- Among the visits there is one to the `super`, at most `depth` scopes inside the context. -/
def FindsSuper (id : NodeId) (depth : Nat) (ctx : Context) (vs : List Visit) : Prop :=
  ∃ ctx' keyword, ctx.Near depth ctx' ∧ Visit.look .super ctx' id keyword ∈ vs

theorem FindsSuper.within {id : NodeId} {a b : Nat} {ctx inner : Context} {vs ws : List Visit}
    (h : FindsSuper id b inner vs) (hn : ctx.Near a inner) (hsub : vs ⊆ ws) :
    FindsSuper id (a + b) ctx ws := by
  obtain ⟨ctx', keyword, hnear, hv⟩ := h
  exact ⟨ctx', keyword, hn.trans hnear, hsub hv⟩

/-- The same in a context at no distance. -/
theorem FindsSuper.mono {id : NodeId} {depth : Nat} {ctx inner : Context} {vs ws : List Visit}
    (h : FindsSuper id depth inner vs) (hn : ctx.Near 0 inner) (hsub : vs ⊆ ws) :
    FindsSuper id depth ctx ws := by
  have hw := h.within hn hsub
  rwa [Nat.zero_add] at hw

/-- The check comes to the `super` when it walks through the part from the context on. -/
def Visits (id : NodeId) (depth : Nat) (ctx : Context) : Part → Prop
  | .program ss => FindsSuper id depth ctx (Stmt.visitsAll ctx ss)
  | .stmt s => FindsSuper id depth ctx (s.visits ctx)
  | .function _ f => ∀ kind, FindsSuper id depth ctx (f.visits ctx kind)
  | .param _ => False
  | .expr e => FindsSuper id depth ctx (e.visits ctx)

end Scoping

variable {id : NodeId} {depth : Nat} {ctx : Context}

theorem Expr.visits_subset_visitsAll {e : Expr} {es : List Expr} (he : e ∈ es) (ctx : Context) :
    e.visits ctx ⊆ Expr.visitsAll ctx es := by
  induction es with
  | nil => cases he
  | cons first rest ih =>
    rw [Expr.visitsAll]
    rcases List.mem_cons.1 he with rfl | he
    · exact List.subset_append_left _ _
    · exact List.subset_append_of_subset_right _ (ih he)

/-- Expressions are visited in one context. -/
theorem Expr.visits_subset {e inner : Expr} (h : inner ∈ e.parts) (ctx : Context) :
    inner.visits ctx ⊆ e.visits ctx := by
  cases e with
  | constant | var | this | super => cases h
  | grouping | unary | get =>
    obtain rfl := List.mem_singleton.1 h
    exact List.Subset.refl _
  | assign id name value =>
    obtain rfl := List.mem_singleton.1 h
    exact List.subset_append_left _ _
  | binary left op right | logical left op right =>
    rcases List.mem_pair.1 h with rfl | rfl
    · exact List.subset_append_left _ _
    · exact List.subset_append_right _ _
  | set object name value =>
    rcases List.mem_pair.1 h with rfl | rfl
    · exact List.subset_append_left _ _
    · exact List.subset_append_right _ _
  | call callee paren arguments =>
    rcases List.mem_cons.1 h with rfl | h
    · exact List.subset_append_left _ _
    · exact List.subset_append_of_subset_right _ (Expr.visits_subset_visitsAll h ctx)

/-- A statement among others. -/
theorem Scoping.Visits.among {s : Stmt} {ss : List Stmt} (hs : s ∈ ss)
    (h : ∀ ctx, Visits id depth ctx (.stmt s)) (ctx : Context) :
    FindsSuper id depth ctx (Stmt.visitsAll ctx ss) := by
  obtain ⟨names, hsub⟩ := Stmt.exists_visits_subset hs ctx
  exact (h (ctx.defineAll names)).mono (.defineAll ctx names) hsub

/-- What the check comes to in a part of a statement, it comes to in the statement. -/
theorem Stmt.visits_part {s : Stmt} {part : Part} (hp : part ∈ s.parts)
    (hs : (Part.stmt s).superclass? = none) (h : ∀ ctx, Visits id depth ctx part) (ctx : Context) :
    Visits id ((Part.stmt s).isScope.toNat + depth) ctx (.stmt s) := by
  cases s with
  | expression e | print e =>
    obtain rfl := List.mem_singleton.1 hp
    exact FindsSuper.within (h ctx) (.refl ctx) (List.Subset.refl _)
  | varDecl name value =>
    obtain ⟨e, he, rfl⟩ := List.mem_map.1 hp
    obtain rfl := Option.mem_toList.1 he
    exact FindsSuper.within (h (ctx.declare name)) (.add ctx name.lexeme false)
      (List.subset_cons_self _ _)
  | ret keyword value =>
    obtain ⟨e, he, rfl⟩ := List.mem_map.1 hp
    obtain rfl := Option.mem_toList.1 he
    exact FindsSuper.within (h ctx) (.refl ctx) (List.subset_cons_self _ _)
  | block ss =>
    obtain ⟨s, hs, rfl⟩ := List.mem_map.1 hp
    -- The one statement that opens a scope, so that the `super` is one scope deeper in it.
    exact FindsSuper.within (Visits.among hs h ctx.enter) (.enter ctx) (List.Subset.refl _)
  | loop condition body =>
    rcases List.mem_pair.1 hp with rfl | rfl
    · exact FindsSuper.within (h ctx) (.refl ctx) (List.subset_append_left _ _)
    · exact FindsSuper.within (h ctx) (.refl ctx) (List.subset_append_right _ _)
  | branch condition thenBranch elseBranch =>
    rcases List.mem_cons.1 hp with rfl | hp
    · refine FindsSuper.within (h ctx) (.refl ctx) ?_
      cases elseBranch with
      | none => exact List.subset_append_left _ _
      | some other => exact List.subset_append_of_subset_left _ (List.subset_append_left _ _)
    rcases List.mem_cons.1 hp with rfl | hp
    · refine FindsSuper.within (h ctx) (.refl ctx) ?_
      cases elseBranch with
      | none => exact List.subset_append_right _ _
      | some other => exact List.subset_append_of_subset_left _ (List.subset_append_right _ _)
    · obtain ⟨s, hs, rfl⟩ := List.mem_map.1 hp
      obtain rfl := Option.mem_toList.1 hs
      exact FindsSuper.within (h _) (.defineAll ctx thenBranch.declared)
        (List.subset_append_right _ _)
  | funDecl f =>
    obtain rfl := List.mem_singleton.1 hp
    exact FindsSuper.within (h (ctx.define f.name) .function) (.add ctx f.name.lexeme true)
      (List.subset_cons_self _ _)
  | classDecl name superclass methods => cases hs

/-- The check comes to every `super` that a part holds. -/
theorem Part.Holds.visited {part : Part} (h : part.Holds depth id) (ctx : Context) :
    Visits id depth ctx part := by
  induction h generalizing ctx with
  | @here id keyword method =>
    exact ⟨ctx, keyword, .refl ctx, List.mem_singleton.2 rfl⟩
  | @down owner part depth id hp howner _ ih =>
    cases owner with
    | program ss =>
      obtain ⟨s, hs, rfl⟩ := List.mem_map.1 hp
      exact FindsSuper.within (Visits.among hs ih ctx) (.refl ctx) (List.Subset.refl _)
    | stmt s => exact Stmt.visits_part hp howner ih ctx
    | function isMethod f =>
      intro kind
      obtain ⟨name, params, body⟩ := f
      rcases List.mem_append.1 hp with hp | hp
      · obtain ⟨param, -, rfl⟩ := List.mem_map.1 hp
        -- A parameter is a token and holds nothing.
        exact absurd (ih ctx) not_false
      · obtain ⟨s, hs, rfl⟩ := List.mem_map.1 hp
        have hnear := (Context.Near.call ctx kind).trans (.defineAll (ctx.call kind) params)
        exact FindsSuper.within (Visits.among hs ih _) hnear (List.subset_append_right _ _)
    | param name => cases hp
    | expr e =>
      obtain ⟨inner, hi, rfl⟩ := List.mem_map.1 hp
      exact FindsSuper.within (ih ctx) (.refl ctx) (Expr.visits_subset hi ctx)

end Lox
