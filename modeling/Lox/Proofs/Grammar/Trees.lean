import Lox.Proofs.Grammar.Cursor
import Lox.Proofs.Tree.Shape
import Mathlib.Data.List.Nodup

/-!
# The trees that the grammar builds

The nodes of a tree get their ids in turn, so no two nodes share one and all of them lie between
the ids at which reading began and ended. The names in a tree are tokens of the list, and of the
kind that belongs at their place (`Built`). The statements of a tree are plain: what stands as a
branch or as the body of a loop declares nothing, and a superclass is a name.

The rules of a grammar call each other, each with a smaller bound. What holds of all of them is
proved by induction on the bound, for all rules at once.

Main statement: `parse_read`.
-/

namespace Lox

/-- Ids handed out between two moments, each at most once. -/
structure Fresh (lo hi : NodeId) (ids : List NodeId) : Prop where
  nodup : ids.Nodup
  within : ∀ i ∈ ids, lo ≤ i ∧ i < hi

namespace Fresh

variable {lo mid hi : NodeId} {xs ys : List NodeId}

theorem nil : Fresh lo hi [] := ⟨List.nodup_nil, nofun⟩

theorem singleton (h : lo ≤ mid) (h' : mid < hi) : Fresh lo hi [mid] := by
  refine ⟨List.nodup_singleton mid, fun i hi => ?_⟩
  rw [List.mem_singleton.1 hi]
  exact ⟨h, h'⟩

theorem mono {lo' hi' : NodeId} (h : Fresh lo hi xs) (hlo : lo' ≤ lo) (hhi : hi ≤ hi') :
    Fresh lo' hi' xs :=
  ⟨h.nodup, fun i hi =>
    ⟨Nat.le_trans hlo (h.within i hi).1, Nat.lt_of_lt_of_le (h.within i hi).2 hhi⟩⟩

theorem append (hx : Fresh lo mid xs) (hy : Fresh mid hi ys) (hlo : lo ≤ mid) (hhi : mid ≤ hi) :
    Fresh lo hi (xs ++ ys) := by
  refine ⟨List.Nodup.append hx.nodup hy.nodup fun i hi hi' => ?_, fun i hi => ?_⟩
  · exact absurd (hx.within i hi).2 (Nat.not_lt.2 (hy.within i hi').1)
  · rcases List.mem_append.1 hi with hi | hi
    · exact (hx.mono (Nat.le_refl _) hhi).within i hi
    · exact (hy.mono hlo (Nat.le_refl _)).within i hi

theorem swap (h : Fresh lo hi (xs ++ ys)) : Fresh lo hi (ys ++ xs) :=
  ⟨List.perm_append_comm.nodup h.nodup, fun i hi =>
    h.within i (List.perm_append_comm.mem_iff.1 hi)⟩

end Fresh

namespace Grammar

open Rule

/-- The token that was just read. -/
theorem Cursor.mem_of_tokens_eq {c d : Cursor} {t : Token} (h : c.tokens = t :: d.tokens) :
    t ∈ c.tokens :=
  h ▸ List.mem_cons_self

/-- Names of trees that were read between two cursors. -/
structure Built (c d : Cursor) (ms : List Mention) : Prop where
  fresh : Fresh c.nextId d.nextId (ms.filterMap Mention.id?)
  named : ∀ m ∈ ms, m.token.kind = m.kind ∧ m.token ∈ c.tokens

namespace Built

variable {c c' d d' : Cursor} {xs ys : List Mention}

theorem nil : Built c d [] := ⟨.nil, fun _ hm => absurd hm List.not_mem_nil⟩

/-- A node that looks a name up gets the next id. -/
theorem node {id : NodeId} {kind : Kind} {t : Token} (hid : c.nextId ≤ id) (hd : id < d.nextId)
    (hk : t.kind = kind) (ht : t ∈ c.tokens) : Built c d [⟨some id, kind, t⟩] := by
  refine ⟨.singleton hid hd, fun m hm => ?_⟩
  rw [List.mem_singleton.1 hm]
  exact ⟨hk, ht⟩

theorem mono (h : Built c d xs) (hc : c'.Reaches c) (hd : d.Reaches d') : Built c' d' xs :=
  ⟨h.fresh.mono hc.nextId hd.nextId, fun m hm =>
    ⟨(h.named m hm).1, hc.tokens.subset (h.named m hm).2⟩⟩

theorem append (hx : Built c c' xs) (hy : Built c' d ys) (hc : c.Reaches c')
    (hd : c'.Reaches d) : Built c d (xs ++ ys) := by
  refine ⟨?_, fun m hm => ?_⟩
  · rw [List.filterMap_append]
    exact hx.fresh.append hy.fresh hc.nextId hd.nextId
  · rcases List.mem_append.1 hm with hm | hm
    · exact hx.named m hm
    · exact ((hy.mono hc (.refl d)).named m hm)

theorem swap (h : Built c d (xs ++ ys)) : Built c d (ys ++ xs) := by
  refine ⟨?_, fun m hm => h.named m (List.perm_append_comm.mem_iff.1 hm)⟩
  rw [List.filterMap_append]
  exact Fresh.swap (List.filterMap_append ▸ h.fresh)

/-- A name that is declared comes first. -/
theorem declared {name : Token} (hk : name.kind = .identifier) (ht : name ∈ c.tokens)
    (h : Built c d xs) : Built c d (.declared name :: xs) :=
  ⟨h.fresh, List.forall_mem_cons.2 ⟨⟨hk, ht⟩, h.named⟩⟩

theorem tail {m : Mention} (h : Built c d (m :: xs)) : Built c d xs := by
  refine ⟨⟨?_, ?_⟩, fun m' hm => h.named m' (List.mem_cons_of_mem m hm)⟩
  · exact h.fresh.nodup.sublist ((List.sublist_cons_self m xs).filterMap _)
  · exact fun i hi => h.fresh.within i (((List.sublist_cons_self m xs).filterMap _).subset hi)

end Built

/-! ## Expressions -/

/-- The rules for expressions build them from what they read. -/
structure ExpressionsBuilt (n : Nat) : Prop where
  expression : ∀ c, (expression n).Gives c fun e d => Built c d e.mentions
  operand : ∀ l c, (operand n l).Gives c fun e d => Built c d e.mentions
  level : ∀ l c, (level n l).Gives c fun e d => Built c d e.mentions
  levelTail : ∀ l left c₀ c, c₀.Reaches c → Built c₀ c left.mentions →
    (levelTail n l left).Gives c fun e d => Built c₀ d e.mentions
  unary : ∀ c, (unary n).Gives c fun e d => Built c d e.mentions
  callTail : ∀ callee c₀ c, c₀.Reaches c → Built c₀ c callee.mentions →
    (callTail n callee).Gives c fun e d => Built c₀ d e.mentions
  arguments : ∀ c, (arguments n).Gives c fun es d => Built c d (Expr.mentionsAll es)
  argumentList : ∀ position c, (argumentList n position).Gives c fun es d =>
    Built c d (Expr.mentionsAll es)
  primary : ∀ c, (primary n).Gives c fun e d => Built c d e.mentions

theorem assignTo_built {target value : Expr} {c₀ c₁ c : Cursor} (equals : Token)
    (h₀ : c₀.Reaches c₁) (h₁ : c₁.Reaches c) (ht : Built c₀ c₁ target.mentions)
    (hv : Built c₁ c value.mentions) :
    (assignTo target equals value).Gives c fun e d => Built c₀ d e.mentions := by
  unfold assignTo
  split
  · next name =>
    refine Gives.freshId.bind ?_
    intro id d hd h
    obtain ⟨rfl, hnext, -⟩ := h
    obtain ⟨hk, hname⟩ := ht.named _ (List.mem_singleton_self _)
    -- The name was read with the target, before the value; its node comes after both.
    refine .pure ⟨?_, List.forall_mem_append.2 ⟨(hv.mono h₀ (.refl c)).named, ?_⟩⟩
    · have hid : Fresh c.nextId d.nextId [c.nextId] :=
        .singleton (Nat.le_refl _) (hnext ▸ Nat.lt_succ_self _)
      rw [Expr.mentions, List.filterMap_append]
      exact (hv.fresh.append hid h₁.nextId hd.nextId).mono h₀.nextId (Nat.le_refl _)
    · exact List.forall_mem_singleton.2 ⟨hk, hname⟩
  · exact .pure (ht.append hv h₀ h₁).swap
  · exact (Gives.record _).bind fun _ d hd _ => .pure (ht.mono (.refl _) (h₁.trans hd))

theorem superMethod_built {keyword : Token} {c₀ c : Cursor} (h₀ : c₀.Reaches c)
    (hk : keyword.kind = .superWord) (ht : keyword ∈ c₀.tokens) :
    (superMethod keyword).Gives c fun e d => Built c₀ d e.mentions := by
  refine (Gives.expect _ _).bind fun _ c₁ h₁ _ => ?_
  refine (Gives.expect _ _).bind fun _ c₂ h₂ _ => ?_
  refine Gives.freshId.bind ?_
  intro id d _ h
  obtain ⟨rfl, hnext, -⟩ := h
  exact .pure (.node (h₀.trans (h₁.trans h₂)).nextId (hnext ▸ Nat.lt_succ_self _) hk ht)

theorem ofLiteral_built (t : Token) (c : Cursor) :
    (ofLiteral t).Gives c fun e d => Built c d e.mentions := by
  unfold ofLiteral
  split
  · exact .pure .nil
  · exact .pure .nil
  · exact .failAt _ _

namespace ExpressionsBuilt

theorem zero : ExpressionsBuilt 0 where
  expression _ := .failHere _
  operand _ _ := .failHere _
  level _ _ := .failHere _
  levelTail _ _ _ _ _ h := .pure h
  unary _ := .failHere _
  callTail _ _ _ _ h := .pure h
  arguments _ := .pure .nil
  argumentList _ _ := .failHere _
  primary _ := .failHere _

variable {n : Nat} (ih : ExpressionsBuilt n)
include ih

theorem expression_succ (c : Cursor) :
    (Grammar.expression (n + 1)).Gives c fun e d => Built c d e.mentions := by
  refine (ih.level _ c).bind fun target c₁ h₁ ht => ?_
  refine (Gives.accept? _).bind ?_
  intro _ c₂ h₂ h
  rcases h with ⟨rfl, rfl, -⟩ | ⟨equals, rfl, -, -⟩
  · exact .pure ht
  · refine (ih.expression c₂).bind fun value c₃ h₃ hv => ?_
    exact assignTo_built equals (h₁.trans h₂) h₃
      (ht.mono (.refl _) h₂) hv

theorem operand_succ (l : Level) (c : Cursor) :
    (Grammar.operand (n + 1) l).Gives c fun e d => Built c d e.mentions := by
  rw [Grammar.operand]
  cases l.tighter? with
  | some tight => exact ih.level tight c
  | none => exact ih.unary c

theorem level_succ (l : Level) (c : Cursor) :
    (Grammar.level (n + 1) l).Gives c fun e d => Built c d e.mentions :=
  (ih.operand l c).bind fun left d hd hl => ih.levelTail l left c d hd hl

theorem levelTail_succ (l : Level) (left : Expr) (c₀ c : Cursor) (h₀ : c₀.Reaches c)
    (h : Built c₀ c left.mentions) :
    (Grammar.levelTail (n + 1) l left).Gives c fun e d => Built c₀ d e.mentions := by
  refine (Gives.accept? _).bind ?_
  intro _ c₁ h₁ h
  rcases h with ⟨rfl, rfl, -⟩ | ⟨op, rfl, -, -⟩
  · exact .pure h
  · refine (ih.operand l c₁).bind fun right c₂ h₂ hr => ?_
    refine ih.levelTail l _ c₀ c₂ (h₀.trans (h₁.trans h₂)) ?_
    have hboth := (h.mono (.refl _) h₁).append hr (h₀.trans h₁) h₂
    cases l <;> exact hboth

theorem unary_succ (c : Cursor) :
    (Grammar.unary (n + 1)).Gives c fun e d => Built c d e.mentions := by
  refine (Gives.accept? _).bind ?_
  intro _ c₁ h₁ h
  rcases h with ⟨rfl, rfl, -⟩ | ⟨op, rfl, -, -⟩
  · exact (ih.primary _).bind fun callee d hd hc => ih.callTail callee _ d hd hc
  · exact (ih.unary c₁).bind fun right d _ hr => .pure (Built.mono hr h₁ (.refl _))

theorem callTail_succ (callee : Expr) (c₀ c : Cursor) (h₀ : c₀.Reaches c)
    (h : Built c₀ c callee.mentions) :
    (Grammar.callTail (n + 1) callee).Gives c fun e d => Built c₀ d e.mentions := by
  refine (Gives.accept? _).bind ?_
  intro _ c₁ h₁ h
  rcases h with ⟨rfl, rfl, -⟩ | ⟨_, rfl, -, -⟩
  · refine (Gives.accept? _).bind ?_
    intro _ c₂ h₂ h
    rcases h with ⟨rfl, rfl, -⟩ | ⟨_, rfl, -, -⟩
    · exact .pure h
    · refine (Gives.expect _ _).bind fun name c₃ h₃ _ => ?_
      have h₂₃ := h₂.trans h₃
      exact ih.callTail _ c₀ c₃ (h₀.trans h₂₃) (h.mono (.refl _) h₂₃)
  · refine (ih.arguments c₁).bind fun args c₂ h₂ ha => ?_
    refine (Gives.expect _ _).bind fun paren c₃ h₃ _ => ?_
    have hboth := (h.mono (.refl _) h₁).append ha (h₀.trans h₁) h₂
    exact ih.callTail _ c₀ c₃ (h₀.trans (h₁.trans (h₂.trans h₃))) (Built.mono hboth (.refl _) h₃)

theorem arguments_succ (c : Cursor) :
    (Grammar.arguments (n + 1)).Gives c fun es d => Built c d (Expr.mentionsAll es) := by
  refine Gives.peek?.bind ?_
  intro k _ _ h
  obtain ⟨rfl, -⟩ := h
  split
  · exact .pure .nil
  · exact ih.argumentList 0 _

theorem argumentList_succ (position : Nat) (c : Cursor) :
    (Grammar.argumentList (n + 1) position).Gives c fun es d =>
      Built c d (Expr.mentionsAll es) := by
  rw [Grammar.argumentList]
  refine Gives.recordIf fun c₁ h₁ _ _ => ?_
  refine (ih.expression c₁).bind fun argument c₂ h₂ ha => ?_
  have ha := ha.mono h₁ (.refl _)
  refine (Gives.accept? _).bind ?_
  intro _ c₃ h₃ h
  rcases h with ⟨rfl, rfl, -⟩ | ⟨_, rfl, -, -⟩
  · refine .pure ?_
    rwa [Expr.mentionsAll, Expr.mentionsAll, List.append_nil]
  · refine (ih.argumentList _ c₃).bind fun rest c₄ h₄ hr => .pure ?_
    exact (ha.mono (.refl _) h₃).append hr ((h₁.trans h₂).trans h₃) h₄

theorem primary_succ (c : Cursor) :
    (Grammar.primary (n + 1)).Gives c fun e d => Built c d e.mentions := by
  refine (Gives.accept? _).bind ?_
  intro _ c₁ h₁ h
  rcases h with ⟨rfl, rfl, -⟩ | ⟨t, rfl, -, htokens⟩
  · exact .failHere _
  · have ht := Cursor.mem_of_tokens_eq htokens
    dsimp only
    split
    · exact .pure .nil
    · exact .pure .nil
    · exact .pure .nil
    · next hk => exact superMethod_built h₁ hk ht
    · next hk =>
      refine Gives.freshId.bind ?_
      intro id d _ h
      obtain ⟨rfl, hnext, -⟩ := h
      exact .pure (.node h₁.nextId (hnext ▸ Nat.lt_succ_self _) hk ht)
    · next hk =>
      refine Gives.freshId.bind ?_
      intro id d _ h
      obtain ⟨rfl, hnext, -⟩ := h
      exact .pure (.node h₁.nextId (hnext ▸ Nat.lt_succ_self _) hk ht)
    · refine (ih.expression c₁).bind fun inner c₂ _ hi => ?_
      exact (Gives.expect _ _).bind fun _ c₃ h₃ _ => .pure (Built.mono hi h₁ h₃)
    · exact (ofLiteral_built t c₁).mono fun _ _ _ h => h.mono h₁ (.refl _)

end ExpressionsBuilt

theorem expressionsBuilt (n : Nat) : ExpressionsBuilt n := by
  induction n with
  | zero => exact .zero
  | succ n ih =>
    exact ⟨ih.expression_succ, ih.operand_succ, ih.level_succ, ih.levelTail_succ, ih.unary_succ,
      ih.callTail_succ, ih.arguments_succ, ih.argumentList_succ, ih.primary_succ⟩

/-! ## Statements -/

/-- A tree read between two cursors. -/
structure Read (c d : Cursor) (s : Stmt) : Prop where
  built : Built c d s.mentions
  plain : s.Plain

/-- A tree that can stand as a branch or as the body of a loop. -/
structure ReadInner (c d : Cursor) (s : Stmt) : Prop extends Read c d s where
  declared : s.declared = []

/-- Several trees read between two cursors. -/
structure ReadAll (c d : Cursor) (ss : List Stmt) : Prop where
  built : Built c d (Stmt.mentionsAll ss)
  plain : Stmt.PlainAll ss

/-- Functions read between two cursors. -/
structure ReadFunctions (c d : Cursor) (fs : List FunctionDecl) : Prop where
  built : Built c d (FunctionDecl.mentionsAll fs)
  plain : FunctionDecl.PlainAll fs

section

variable {c c' c₁ c₂ c₃ d d' : Cursor}

theorem Read.mono {s : Stmt} (h : Read c d s) (hc : c'.Reaches c) (hd : d.Reaches d') :
    Read c' d' s :=
  ⟨h.built.mono hc hd, h.plain⟩

theorem ReadAll.cons {s : Option Stmt} {ss : List Stmt} (h : ∀ x ∈ s, Read c c' x)
    (hs : ReadAll c' d ss) (hc : c.Reaches c') (hd : c'.Reaches d) :
    ReadAll c d (s.toList ++ ss) := by
  cases s with
  | none => exact ⟨hs.built.mono hc (.refl _), hs.plain⟩
  | some x =>
    obtain ⟨hb, hp⟩ := h x rfl
    exact ⟨hb.append hs.built hc hd, hp, hs.plain⟩

theorem ReadInner.mono {s : Stmt} (h : ReadInner c d s) (hc : c'.Reaches c) (hd : d.Reaches d') :
    ReadInner c' d' s :=
  ⟨h.toRead.mono hc hd, h.declared⟩

theorem ReadInner.block {ss : List Stmt} (h : ReadAll c d ss) : ReadInner c d (.block ss) :=
  ⟨⟨h.built, h.plain⟩, rfl⟩

theorem ReadInner.loop {condition : Expr} {body : Stmt} (he : Built c c' condition.mentions)
    (hb : ReadInner c' d body) (hc : c.Reaches c') (hd : c'.Reaches d) :
    ReadInner c d (.loop condition body) :=
  ⟨⟨he.append hb.built hc hd, hb.plain, hb.declared⟩, hb.declared⟩

theorem ReadAll.pair {s t : Stmt} (h : Built c d (s.mentions ++ t.mentions)) (hs : s.Plain)
    (ht : t.Plain) : ReadAll c d [s, t] := by
  refine ⟨?_, hs, ht, trivial⟩
  rwa [Stmt.mentionsAll, Stmt.mentionsAll, Stmt.mentionsAll, List.append_nil]

/-- The loop that stands for a `for` loop. Its increment is read before its body and stands after
it. -/
theorem ReadInner.forLoop {initializer : Option Stmt} {condition increment : Option Expr}
    {body : Stmt} (h₁ : c.Reaches c₁) (h₂ : c₁.Reaches c₂) (h₃ : c₂.Reaches c₃)
    (h₄ : c₃.Reaches d) (hi : ∀ s ∈ initializer, Read c c₁ s)
    (hc : Built c₁ c₂ (Expr.mentions? condition)) (hs : Built c₂ c₃ (Expr.mentions? increment))
    (hb : ReadInner c₃ d body) :
    ReadInner c d (.forLoop initializer condition increment body) := by
  have hcond : Built c₁ c₂ (condition.getD (.constant (.bool true))).mentions := by
    cases condition with
    | none => exact .nil
    | some e => exact hc
  have h₂₄ := h₃.trans h₄
  -- The layers that the tree may have: the loop, the outer block and the inner one.
  have hloop : ∀ {inner : Stmt}, ReadInner c₂ d inner →
      ReadInner c₁ d (.loop (condition.getD (.constant (.bool true))) inner) :=
    fun h => .loop hcond h h₂ h₂₄
  have hstart : ∀ {start l : Stmt}, start ∈ initializer → ReadInner c₁ d l →
      ReadInner c d (.block [start, l]) := fun hs hl =>
    .block (.pair ((hi _ hs).built.append hl.built h₁ (h₂.trans h₂₄)) (hi _ hs).plain hl.plain)
  have hstep : ∀ {step : Expr}, step ∈ increment →
      ReadInner c₂ d (.block [body, .expression step]) := by
    intro step h
    cases h
    exact .block (.pair (t := .expression step) (hs.append hb.built h₃ h₄).swap hb.plain trivial)
  cases initializer with
  | none =>
    cases increment with
    | none => exact (hloop (hb.mono h₃ (.refl _))).mono h₁ (.refl _)
    | some step => exact (hloop (hstep rfl)).mono h₁ (.refl _)
  | some start =>
    cases increment with
    | none => exact hstart rfl (hloop (hb.mono h₃ (.refl _)))
    | some step => exact hstart rfl (hloop (hstep rfl))

end

theorem exprUntil_built (kind : Kind) (n : Nat) (c : Cursor) :
    (exprUntil kind n).Gives c fun e d => Built c d (Expr.mentions? e) := by
  refine Gives.peek?.bind ?_
  intro k _ _ h
  obtain ⟨rfl, -⟩ := h
  split
  · exact .pure .nil
  · exact ((expressionsBuilt n).expression _).map fun _ _ _ h => h

theorem paramList_built (n position : Nat) (c : Cursor) :
    (paramList n position).Gives c fun ps d => Built c d (ps.map .declared) := by
  induction n generalizing position c with
  | zero => exact .failHere _
  | succ n ih =>
    rw [paramList]
    refine Gives.recordIf fun c₁ h₁ _ _ => ?_
    refine (Gives.expect _ _).bind ?_
    intro param c₂ h₂ h
    obtain ⟨hk, ht⟩ := h
    have hmem : param ∈ c.tokens := h₁.tokens.subset (Cursor.mem_of_tokens_eq ht)
    refine (Gives.accept? _).bind ?_
    intro _ c₃ h₃ h
    rcases h with ⟨rfl, -, -⟩ | ⟨_, rfl, -, -⟩
    · exact .pure (.declared hk hmem .nil)
    · refine (ih _ c₃).bind fun rest d _ hr => .pure (.declared hk hmem ?_)
      exact Built.mono hr (h₁.trans (h₂.trans h₃)) (.refl d)

theorem params_built (n : Nat) (c : Cursor) :
    (params n).Gives c fun ps d => Built c d (ps.map .declared) := by
  refine Gives.peek?.bind ?_
  intro k _ _ h
  obtain ⟨rfl, -⟩ := h
  split
  · exact .pure .nil
  · exact paramList_built n 0 _

theorem varDecl_read (n : Nat) (c : Cursor) : (varDecl n).Gives c fun s d => Read c d s := by
  refine (Gives.expect _ _).bind ?_
  intro name c₁ h₁ h
  obtain ⟨hk, ht⟩ := h
  have hend : ∀ value c₂, c₁.Reaches c₂ → Built c₁ c₂ (Expr.mentions? value) →
      Gives (do
        let _ ← Rule.expect .semicolon .varEnd
        pure (.varDecl name value)) c₂ fun s d => Read c d s := by
    intro value c₂ h₂ hv
    refine (Gives.expect _ _).bind fun _ c₃ h₃ _ => .pure ?_
    exact ⟨.declared hk (Cursor.mem_of_tokens_eq ht) (hv.mono h₁ h₃), trivial⟩
  refine (Gives.accept? _).bind ?_
  intro _ c₂ h₂ h
  rcases h with ⟨rfl, rfl, -⟩ | ⟨_, rfl, -, -⟩
  · exact hend none _ h₂ .nil
  · have hvalue := ((expressionsBuilt n).expression c₂).map (f := some)
      (R := fun e d => Built c₂ d (Expr.mentions? e)) fun _ _ _ h => h
    exact hvalue.bind fun value c₃ h₃ hv =>
      hend value c₃ (h₂.trans h₃) (hv.mono h₂ (.refl _))

theorem expressionStatement_read (n : Nat) (c : Cursor) :
    (expressionStatement n).Gives c fun s d => ReadInner c d s := by
  refine ((expressionsBuilt n).expression c).bind fun e c₁ _ he => ?_
  refine (Gives.expect _ _).bind fun _ d hd _ => .pure ?_
  exact ⟨⟨Built.mono he (.refl _) hd, trivial⟩, rfl⟩

theorem printStatement_read (n : Nat) (c : Cursor) :
    (printStatement n).Gives c fun s d => ReadInner c d s := by
  refine ((expressionsBuilt n).expression c).bind fun e c₁ _ he => ?_
  refine (Gives.expect _ _).bind fun _ d hd _ => .pure ?_
  exact ⟨⟨Built.mono he (.refl _) hd, trivial⟩, rfl⟩

theorem returnStatement_read (keyword : Token) (n : Nat) (c : Cursor) :
    (returnStatement keyword n).Gives c fun s d => ReadInner c d s := by
  refine (exprUntil_built _ n c).bind fun e c₁ _ he => ?_
  refine (Gives.expect _ _).bind fun _ d hd _ => .pure ?_
  exact ⟨⟨Built.mono he (.refl _) hd, trivial⟩, rfl⟩

theorem forInitializer_read (n : Nat) (c : Cursor) :
    (forInitializer n).Gives c fun s d => ∀ x ∈ s, Read c d x := by
  refine (Gives.accept? _).bind ?_
  intro _ c₁ h₁ h
  rcases h with ⟨rfl, rfl, -⟩ | ⟨_, rfl, -, -⟩
  · refine (Gives.accept? _).bind ?_
    intro _ c₂ h₂ h
    rcases h with ⟨rfl, rfl, -⟩ | ⟨_, rfl, -, -⟩
    · refine (expressionStatement_read n _).map ?_
      intro s d _ hs x h
      cases h
      exact hs.toRead
    · refine (varDecl_read n c₂).map ?_
      intro s d _ hs x h
      cases h
      exact hs.mono h₂ (.refl _)
  · exact .pure nofun

theorem superclass_built (c : Cursor) : superclass.Gives c fun e d =>
    Built c d (Expr.mentions? e) ∧ ∀ x ∈ e, ∃ id name, x = .var id name := by
  refine (Gives.accept? _).bind ?_
  intro _ c₁ h₁ h
  rcases h with ⟨rfl, rfl, -⟩ | ⟨_, rfl, -, -⟩
  · exact .pure ⟨.nil, nofun⟩
  · refine (Gives.expect _ _).bind ?_
    intro name c₂ h₂ h
    obtain ⟨hk, ht⟩ := h
    refine Gives.freshId.bind ?_
    intro id d _ h
    obtain ⟨rfl, hnext, -⟩ := h
    refine .pure ⟨.node (h₁.trans h₂).nextId (hnext ▸ Nat.lt_succ_self _) hk
      (h₁.tokens.subset (Cursor.mem_of_tokens_eq ht)), ?_⟩
    intro x h
    cases h
    exact ⟨_, name, rfl⟩

/-- The rules for statements build trees of the shape of programs, and hand out ids in turn. -/
structure StatementsRead (n : Nat) : Prop where
  declaration : ∀ c, (declaration n).Gives c fun s d => ∀ x ∈ s, Read c d x
  classDecl : ∀ c, (classDecl n).Gives c fun s d => Read c d s
  methodList : ∀ c, (methodList n).Gives c fun fs d => ReadFunctions c d fs
  function : ∀ role c, (function n role).Gives c fun f d => Read c d (.funDecl f)
  block : ∀ c, (block n).Gives c fun ss d => ReadAll c d ss
  statement : ∀ c, (statement n).Gives c fun s d => ReadInner c d s
  forLoop : ∀ c, (forLoop n).Gives c fun s d => ReadInner c d s
  branch : ∀ c, (branch n).Gives c fun s d => ReadInner c d s
  loop : ∀ c, (loop n).Gives c fun s d => ReadInner c d s

theorem Gives.recover_read {p : Rule Stmt} {c : Cursor}
    (hp : p.Gives c fun s d => Read c d s) :
    (recover p).Gives c fun s d => ∀ x ∈ s, Read c d x := by
  refine hp.recover.mono ?_
  intro _ d _ h x hx
  rcases h with ⟨s, rfl, hs⟩ | ⟨rfl, -⟩
  · exact Option.some.inj hx ▸ hs
  · cases hx

namespace StatementsRead

theorem zero : StatementsRead 0 where
  declaration _ := Gives.recover_read (.failHere _)
  classDecl _ := .failHere _
  methodList _ := .failHere _
  function _ _ := .failHere _
  block _ := .failHere _
  statement _ := .failHere _
  forLoop _ := .failHere _
  branch _ := .failHere _
  loop _ := .failHere _

variable {n : Nat} (ih : StatementsRead n)
include ih

theorem declaration_succ (c : Cursor) :
    (Grammar.declaration (n + 1)).Gives c fun s d => ∀ x ∈ s, Read c d x := by
  refine Gives.recover_read ((Gives.accept? _).bind ?_)
  intro _ c₁ h₁ h
  rcases h with ⟨rfl, rfl, -⟩ | ⟨t, rfl, -, -⟩
  · exact (ih.statement _).mono fun _ _ _ h => h.toRead
  · dsimp only
    split
    · exact (ih.classDecl c₁).mono fun _ _ _ h => h.mono h₁ (.refl _)
    · exact (ih.function _ c₁).map fun _ _ _ h => h.mono h₁ (.refl _)
    · exact (varDecl_read n c₁).mono fun _ _ _ h => h.mono h₁ (.refl _)

theorem classDecl_succ (c : Cursor) :
    (Grammar.classDecl (n + 1)).Gives c fun s d => Read c d s := by
  refine (Gives.expect _ _).bind ?_
  intro name c₁ h₁ h
  obtain ⟨hk, ht⟩ := h
  refine (superclass_built c₁).bind ?_
  intro superclass c₂ h₂ h
  obtain ⟨hs, hvar⟩ := h
  refine (Gives.expect _ _).bind fun _ c₃ h₃ _ => ?_
  refine (ih.methodList c₃).bind fun methods d hd hm => .pure ?_
  have h₁₃ := h₁.trans (h₂.trans h₃)
  have hname := Cursor.mem_of_tokens_eq ht
  cases superclass with
  | none => exact ⟨.declared hk hname (hm.built.mono h₁₃ (.refl _)), hm.plain⟩
  | some e =>
    exact ⟨.declared hk hname ((hs.mono h₁ h₃).append hm.built h₁₃ hd), hvar e rfl, hm.plain⟩

theorem methodList_succ (c : Cursor) :
    (Grammar.methodList (n + 1)).Gives c fun fs d => ReadFunctions c d fs := by
  refine Gives.peek?.bind ?_
  intro k _ _ h
  obtain ⟨rfl, -⟩ := h
  split
  · exact (Gives.expect _ _).bind fun _ d _ _ => .pure ⟨.nil, trivial⟩
  · exact (Gives.expect _ _).bind fun _ d _ _ => .pure ⟨.nil, trivial⟩
  · refine (ih.function _ _).bind fun f c₁ h₁ hf => ?_
    refine (ih.methodList c₁).bind fun rest d hd hr => .pure ?_
    exact ⟨hf.built.tail.append hr.built h₁ hd, hf.plain, hr.plain⟩

theorem function_succ (role : FunctionRole) (c : Cursor) :
    (Grammar.function (n + 1) role).Gives c fun f d => Read c d (.funDecl f) := by
  refine (Gives.expect _ _).bind ?_
  intro name c₁ h₁ h
  obtain ⟨hk, ht⟩ := h
  refine (Gives.expect _ _).bind fun _ c₂ h₂ _ => ?_
  refine (params_built n c₂).bind fun params c₃ h₃ hp => ?_
  refine (Gives.expect _ _).bind fun _ c₄ h₄ _ => ?_
  refine (Gives.expect _ _).bind fun _ c₅ h₅ _ => ?_
  refine (ih.block c₅).bind fun body d hd hb => .pure ?_
  have h₁₂ := h₁.trans h₂
  have h₃₅ := h₃.trans (h₄.trans h₅)
  have hboth := (hp.mono h₁₂ (h₄.trans h₅)).append hb.built (h₁₂.trans h₃₅) hd
  exact ⟨.declared hk (Cursor.mem_of_tokens_eq ht) hboth, hb.plain⟩

theorem block_succ (c : Cursor) :
    (Grammar.block (n + 1)).Gives c fun ss d => ReadAll c d ss := by
  refine Gives.peek?.bind ?_
  intro k _ _ h
  obtain ⟨rfl, -⟩ := h
  split
  · exact (Gives.expect _ _).bind fun _ d _ _ => .pure ⟨.nil, trivial⟩
  · exact (Gives.expect _ _).bind fun _ d _ _ => .pure ⟨.nil, trivial⟩
  · refine (ih.declaration _).bind fun s c₁ h₁ hs => ?_
    exact (ih.block c₁).bind fun rest d hd hr => .pure (.cons hs hr h₁ hd)

theorem statement_succ (c : Cursor) :
    (Grammar.statement (n + 1)).Gives c fun s d => ReadInner c d s := by
  refine (Gives.accept? _).bind ?_
  intro _ c₁ h₁ h
  rcases h with ⟨rfl, rfl, -⟩ | ⟨t, rfl, -, -⟩
  · exact expressionStatement_read n _
  · have hup : ∀ s d, c₁.Reaches d → ReadInner c₁ d s →
        ReadInner c d s := fun _ _ _ h => h.mono h₁ (.refl _)
    dsimp only
    split
    · exact (ih.forLoop c₁).mono hup
    · exact (ih.branch c₁).mono hup
    · exact (ih.loop c₁).mono hup
    · exact (returnStatement_read t n c₁).mono hup
    · exact (ih.block c₁).map fun _ d hd h => hup _ d hd (.block h)
    · exact (printStatement_read n c₁).mono hup

theorem forLoop_succ (c : Cursor) :
    (Grammar.forLoop (n + 1)).Gives c fun s d => ReadInner c d s := by
  refine (Gives.expect _ _).bind fun _ c₁ h₁ _ => ?_
  refine (forInitializer_read n c₁).bind fun initializer c₂ h₂ hi => ?_
  refine (exprUntil_built _ n c₂).bind fun condition c₃ h₃ hc => ?_
  refine (Gives.expect _ _).bind fun _ c₄ h₄ _ => ?_
  refine (exprUntil_built _ n c₄).bind fun increment c₅ h₅ hs => ?_
  refine (Gives.expect _ _).bind fun _ c₆ h₆ _ => ?_
  refine (ih.statement c₆).bind fun body d hd hb => .pure ?_
  refine ReadInner.mono ?_ h₁ (.refl _)
  exact .forLoop h₂ (h₃.trans h₄) (h₅.trans h₆) hd hi
    (hc.mono (.refl _) h₄) (hs.mono (.refl _) h₆) hb

theorem branch_succ (c : Cursor) :
    (Grammar.branch (n + 1)).Gives c fun s d => ReadInner c d s := by
  refine (Gives.expect _ _).bind fun _ c₁ h₁ _ => ?_
  refine ((expressionsBuilt n).expression c₁).bind fun condition c₂ h₂ hc => ?_
  refine (Gives.expect _ _).bind fun _ c₃ h₃ _ => ?_
  refine (ih.statement c₃).bind fun thenBranch c₄ h₄ ht => ?_
  have hc := hc.mono h₁ h₃
  have hlo := (h₁.trans (h₂.trans h₃))
  have hboth := hc.append ht.built hlo h₄
  refine (Gives.accept? _).bind ?_
  intro _ c₅ h₅ h
  rcases h with ⟨rfl, rfl, -⟩ | ⟨_, rfl, -, -⟩
  · exact .pure ⟨⟨hboth, ht.plain, ht.declared⟩, ht.declared⟩
  · refine (ih.statement c₅).bind fun elseBranch d hd he => .pure ?_
    have hlo₅ := Cursor.Reaches.trans hlo (h₄.trans h₅)
    have hall := (hboth.mono (.refl _) h₅).append he.built hlo₅ hd
    refine ⟨⟨hall, ⟨ht.plain, ht.declared⟩, he.plain, he.declared⟩, ?_⟩
    rw [Stmt.declared, ht.declared, he.declared, List.nil_append]

theorem loop_succ (c : Cursor) :
    (Grammar.loop (n + 1)).Gives c fun s d => ReadInner c d s := by
  refine (Gives.expect _ _).bind fun _ c₁ h₁ _ => ?_
  refine ((expressionsBuilt n).expression c₁).bind fun condition c₂ h₂ hc => ?_
  refine (Gives.expect _ _).bind fun _ c₃ h₃ _ => ?_
  refine (ih.statement c₃).bind fun body d hd hb => .pure ?_
  exact .loop (hc.mono h₁ h₃) hb (h₁.trans (h₂.trans h₃)) hd

end StatementsRead

theorem statementsRead (n : Nat) : StatementsRead n := by
  induction n with
  | zero => exact .zero
  | succ n ih =>
    exact ⟨ih.declaration_succ, ih.classDecl_succ, ih.methodList_succ, ih.function_succ,
      ih.block_succ, ih.statement_succ, ih.forLoop_succ, ih.branch_succ, ih.loop_succ⟩

theorem program_read (n : Nat) (c : Cursor) :
    (program n).Gives c fun ss d => ReadAll c d ss := by
  induction n generalizing c with
  | zero => exact .pure ⟨.nil, trivial⟩
  | succ n ih =>
    refine Gives.peek?.bind ?_
    intro k _ _ h
    obtain ⟨rfl, -⟩ := h
    split
    · exact .pure ⟨.nil, trivial⟩
    · refine ((statementsRead n).declaration _).bind fun s c₁ h₁ hs => ?_
      exact (ih c₁).bind fun rest d hd hr => .pure (.cons hs hr h₁ hd)

end Grammar

/-- What a token list says is a program: its nodes have ids of their own between the first id and
the next free one, its names are tokens of the list, and its statements are plain. -/
theorem parse_read (firstId : NodeId) (tokens : List Token) :
    ∃ d : Grammar.Cursor, d.nextId = (parse firstId tokens).nextId ∧
      firstId ≤ d.nextId ∧
      Grammar.ReadAll ⟨tokens, firstId, []⟩ d (parse firstId tokens).statements := by
  have h := Grammar.program_read (Grammar.callBound tokens.length) ⟨tokens, firstId, []⟩
  unfold parse
  split
  · next ss d hp => exact ⟨d, rfl, (h.of_ok hp).1.nextId, (h.of_ok hp).2⟩
  · next e d hp => exact ⟨d, rfl, (h.of_fail hp).nextId, .nil, trivial⟩

end Lox
