import Lox.Proofs.Grammar.Termination
import Lox.Proofs.Tree.Alike

/-!
# The grammar looks at the text of tokens only

Rules decide by the kinds of tokens, take their lexemes and values along, and never look at lines
or at node ids. So on token lists whose programs correspond one by one, a rule comes equally far and
gives alike trees and alike errors (`Rule.Alike`). Of the token that closes a list nothing but its
place is known: an error at the end takes that token along, and what stands behind it is never
looked at. As in `Lox.Proofs.Grammar.Trees`, this is proved for all rules at once by induction on
the bound.

Main statement: `parse_alike`.
-/

namespace Lox

/-- What corresponds in two lists that are read side by side: the tokens of their programs, the
tokens that close them, and the node ids, which are handed out in step. -/
structure Correspondence where
  token : Likeness
  closing : Token → Token → Prop
  node : NodeId → NodeId → Prop
  node_succ : ∀ {id id'}, node id id' → node (id + 1) (id' + 1)

/-- Corresponding tokens, whatever closes the lists and whatever the ids are. -/
def Correspondence.ofTokens (T : Likeness) : Correspondence :=
  ⟨T, fun _ _ => True, AnyNode, fun _ => trivial⟩

/-- Errors that are alike: the same fault, at corresponding tokens or at the end of both programs.
The fault about a value is found only at a number or string that has none. -/
structure GrammarError.Alike (C : Correspondence) (e e' : GrammarError) : Prop where
  site : C.token.rel e.site e'.site ∨ C.closing e.site e'.site
  fault : e'.fault = e.fault
  malformed : e.fault = .malformedLiteral →
    (e.site.kind = .number ∨ e.site.kind = .string) ∧ e.site.literal = none

namespace Grammar

variable {C : Correspondence}

/-- Cursors that are alike: what is left of the two programs corresponds, whatever stands behind
the tokens that close them. -/
structure Cursor.Alike (C : Correspondence) (c c' : Cursor) : Prop where
  tokens : List.Forall₂ C.token.rel c.tokens c'.tokens
  closing : C.closing (closingToken c.input) (closingToken c'.input)
  nextId : C.node c.nextId c'.nextId
  errors : List.Forall₂ (GrammarError.Alike C) c.errors c'.errors

/-- Rules came equally far, and what they gave corresponds. -/
inductive Outcome.Alike (C : Correspondence) {α : Type} (R : α → α → Prop) :
    Outcome α → Outcome α → Prop
  | ok {a a' : α} {c c' : Cursor} : R a a' → c.Alike C c' → Outcome.Alike C R (.ok a c) (.ok a' c')
  | fail {e e' : GrammarError} {c c' : Cursor} :
      e.Alike C e' → c.Alike C c' → Outcome.Alike C R (.fail e c) (.fail e' c')

/-- From alike cursors, two rules come equally far. -/
def Rule.Alike (C : Correspondence) {α : Type} (R : α → α → Prop) (p p' : Rule α) : Prop :=
  ∀ c c', c.Alike C c' → (p c).Alike C R (p' c')

/-! ## Single steps -/

namespace Cursor.Alike

variable {c c' : Cursor} (h : c.Alike C c')
include h

/-- Corresponding tokens come next, or both programs end here. -/
theorem next :
    (∃ t t' rest rest', c.tokens = t :: rest ∧ c'.tokens = t' :: rest' ∧ C.token.rel t t' ∧
      List.Forall₂ C.token.rel rest rest') ∨ (c.tokens = [] ∧ c'.tokens = []) := by
  have htokens := h.tokens
  cases hc : c.tokens with
  | nil =>
    rw [hc] at htokens
    exact .inr ⟨rfl, List.forall₂_nil_left_iff.1 htokens⟩
  | cons t rest =>
    rw [hc] at htokens
    obtain ⟨t', rest', ht, hrest, hc'⟩ := List.forall₂_cons_left_iff.1 htokens
    exact .inl ⟨t, t', rest, rest', rfl, hc', ht, hrest⟩

/-- The token that is looked at: the next one of the program, or the one that closes it. -/
theorem peek : C.token.rel c.peek c'.peek ∨ C.closing c.peek c'.peek := by
  rcases h.next with ⟨t, t', rest, rest', hc, hc', ht, -⟩ | ⟨hc, hc'⟩
  · rw [peek_of_cons hc, peek_of_cons hc']
    exact .inl ht
  · rw [peek_of_nil hc, peek_of_nil hc']
    exact .inr h.closing

/-- A fault at the next token, other than the one about a value. -/
theorem errorHere {fault : GrammarFault} (hf : fault ≠ .malformedLiteral) :
    GrammarError.Alike C ⟨c.peek, fault⟩ ⟨c'.peek, fault⟩ :=
  ⟨h.peek, rfl, fun h => absurd h hf⟩

theorem record {e e' : GrammarError} (he : e.Alike C e') :
    Cursor.Alike C { c with errors := c.errors ++ [e] } { c' with errors := c'.errors ++ [e'] } :=
  ⟨h.tokens, h.closing, h.nextId, List.rel_append h.errors (.cons he .nil)⟩

theorem advance {t t' : Token} {rest rest' : List Token} (hc : c.tokens = t :: rest)
    (hc' : c'.tokens = t' :: rest') (hrest : List.Forall₂ C.token.rel rest rest') :
    c.advance.Alike C c'.advance := by
  refine ⟨?_, ?_, ?_, ?_⟩
  · rwa [tokens_advance hc, tokens_advance hc']
  · rw [c.reaches_advance.closingToken, c'.reaches_advance.closingToken]
    exact h.closing
  · rw [advance_nextId, advance_nextId]
    exact h.nextId
  · rw [advance_errors, advance_errors]
    exact h.errors

end Cursor.Alike

theorem boundary_alike {previous previous' : Token} (hp : C.token.rel previous previous')
    {ts ts' : List Token} (h : List.Forall₂ C.token.rel ts ts') :
    List.Forall₂ C.token.rel (boundary previous ts) (boundary previous' ts') := by
  induction h generalizing previous previous' with
  | nil => exact .nil
  | cons ht hs ih =>
    rw [boundary, boundary, C.token.kind hp, C.token.kind ht]
    split
    · exact .cons ht hs
    · exact ih ht

theorem resume_alike {ts ts' : List Token} (h : List.Forall₂ C.token.rel ts ts') :
    List.Forall₂ C.token.rel (resume ts) (resume ts') := by
  cases h with
  | nil => exact .nil
  | cons ht hs =>
    rw [resume, resume, C.token.kind ht]
    split
    · exact .cons ht hs
    · exact boundary_alike ht hs

/-- A failure is recorded and skipped up to corresponding places. -/
theorem Cursor.Alike.resume {c c' : Cursor} (h : c.Alike C c') {e e' : GrammarError}
    (he : e.Alike C e') :
    Cursor.Alike C { c with input := resume c.input, errors := c.errors ++ [e] }
      { c' with input := resume c'.input, errors := c'.errors ++ [e'] } := by
  refine ⟨?_, ?_, h.nextId, List.rel_append h.errors (.cons he .nil)⟩
  · have htokens := resume_alike h.tokens
    rwa [Cursor.tokens, Cursor.tokens, ← programTokens_resume, ← programTokens_resume] at htokens
  · rw [(c.reaches_resume e).closingToken, (c'.reaches_resume e').closingToken]
    exact h.closing

namespace Rule.Alike

variable {α β : Type} {R : α → α → Prop} {S : β → β → Prop} {p p' : Rule α}

theorem pure {a a' : α} (h : R a a') : Rule.Alike C R (Pure.pure a) (Pure.pure a') :=
  fun _ _ hc => .ok h hc

theorem bind {f f' : α → Rule β} (hp : Rule.Alike C R p p')
    (hf : ∀ a a', R a a' → Rule.Alike C S (f a) (f' a')) :
    Rule.Alike C S (p >>= f) (p' >>= f') := by
  intro c c' hc
  have h := hp c c' hc
  simp only [Bind.bind]
  generalize p c = o at h ⊢
  generalize p' c' = o' at h ⊢
  cases h with
  | ok ha hd => exact hf _ _ ha _ _ hd
  | fail he hd => exact .fail he hd

theorem map {f : α → β} (hp : Rule.Alike C R p p') (hf : ∀ a a', R a a' → S (f a) (f a')) :
    Rule.Alike C S (f <$> p) (f <$> p') :=
  hp.bind fun a a' h => pure (hf a a' h)

theorem failHere (fault : GrammarFault) (hf : fault ≠ .malformedLiteral) :
    Rule.Alike C R (Rule.failHere fault) (Rule.failHere fault) :=
  fun _ _ hc => .fail (hc.errorHere hf) hc

/-- An error recorded under a condition, before the rest of a rule. -/
theorem recordIf {P : Prop} [Decidable P] (hp : Rule.Alike C R p p') (fault : GrammarFault)
    (hf : fault ≠ .malformedLiteral) :
    Rule.Alike C R (if P then Rule.recordHere fault >>= fun _ => p else p)
      (if P then Rule.recordHere fault >>= fun _ => p' else p') := by
  by_cases hP : P
  · rw [if_pos hP, if_pos hP]
    exact fun c c' hc => hp _ _ (hc.record (hc.errorHere hf))
  · rw [if_neg hP, if_neg hP]
    exact hp

theorem freshId : Rule.Alike C C.node Rule.freshId Rule.freshId :=
  fun _ _ hc => .ok hc.nextId ⟨hc.tokens, hc.closing, C.node_succ hc.nextId, hc.errors⟩

theorem peek? : Rule.Alike C Eq Rule.peek? Rule.peek? := by
  intro c c' hc
  rw [peek?_eq, peek?_eq]
  refine .ok ?_ hc
  rcases hc.next with ⟨t, t', rest, rest', h, h', ht, -⟩ | ⟨h, h'⟩
  · rw [h, h', List.head?_cons, List.head?_cons, Option.map_some, Option.map_some,
      C.token.kind ht]
  · rw [h, h']

/-- Corresponding tokens are taken or refused together. -/
theorem accept? (kinds : List Kind) :
    Rule.Alike C (Option.Rel fun t t' => C.token.rel t t' ∧ t.kind ∈ kinds) (Rule.accept? kinds)
      (Rule.accept? kinds) := by
  intro c c' hc
  rcases hc.next with ⟨t, t', rest, rest', h, h', ht, hrest⟩ | ⟨h, h'⟩
  · by_cases hk : t.kind ∈ kinds
    · have hk' : t'.kind ∈ kinds := C.token.kind ht ▸ hk
      rw [accept?_of_mem h hk, accept?_of_mem h' hk']
      exact .ok (.some ⟨ht, hk⟩) (hc.advance h h' hrest)
    · have hk' : t'.kind ∉ kinds := C.token.kind ht ▸ hk
      have hnot : ∀ x ∈ c.tokens.head?, x.kind ∉ kinds := by simpa [h] using hk
      have hnot' : ∀ x ∈ c'.tokens.head?, x.kind ∉ kinds := by simpa [h'] using hk'
      rw [accept?_of_not_mem hnot, accept?_of_not_mem hnot']
      exact .ok .none hc
  · rw [accept?_of_not_mem (by simp [h]), accept?_of_not_mem (by simp [h'])]
    exact .ok .none hc

theorem expect (kind : Kind) (fault : GrammarFault)
    (hf : fault ≠ .malformedLiteral) :
    Rule.Alike C (C.token.Of kind) (Rule.expect kind fault) (Rule.expect kind fault) := by
  refine (accept? [kind]).bind ?_
  intro t t' h
  cases h with
  | none => exact failHere fault hf
  | some h => exact pure ⟨h.1, List.mem_singleton.1 h.2⟩

/-- A declaration that fails is skipped up to corresponding places. -/
theorem recover {R : Stmt → Stmt → Prop} {p p' : Rule Stmt} (hp : Rule.Alike C R p p') :
    Rule.Alike C (Option.Rel R) (Grammar.recover p) (Grammar.recover p') := by
  intro c c' hc
  have h := hp c c' hc
  unfold Grammar.recover
  generalize p c = o at h ⊢
  generalize p' c' = o' at h ⊢
  cases h with
  | ok hs hd => exact .ok (.some hs) hd
  | fail he hd => exact .ok .none (hd.resume he)

end Rule.Alike

open Rule

/-! ## Expressions -/

theorem Level.join_alike (l : Level) {left left' right right' : Expr} {op op' : Token}
    (hl : left.Alike C.node C.token left') (hop : C.token.rel op op') (hk : op.kind ∈ l.operators)
    (hr : right.Alike C.node C.token right') :
    (l.join left op right).Alike C.node C.token (l.join left' op' right') := by
  have hmem : ∀ m ∈ [Level.equality, .comparison, .term, .factor], op.kind ∈ m.operators →
      op.kind ∈ binaryOperators := fun m hm hk => List.mem_flatMap.2 ⟨m, hm, hk⟩
  cases l with
  | disjunction | conjunction => exact .logical hl hop hr
  | equality => exact .binary hl hop (hmem .equality (by decide) hk) hr
  | comparison => exact .binary hl hop (hmem .comparison (by decide) hk) hr
  | term => exact .binary hl hop (hmem .term (by decide) hk) hr
  | factor => exact .binary hl hop (hmem .factor (by decide) hk) hr

theorem ofLiteral_alike {t t' : Token} (ht : C.token.rel t t')
    (hk : t.kind = .number ∨ t.kind = .string) :
    Rule.Alike C (Expr.Alike C.node C.token) (ofLiteral t) (ofLiteral t') := by
  unfold ofLiteral
  rw [C.token.literal ht]
  cases hl : t.literal with
  | none => exact fun c c' hc => .fail ⟨.inl ht, rfl, fun _ => ⟨hk, hl⟩⟩ hc
  | some value =>
    cases value with
    | number x => exact .pure (.constant (.number x))
    | text x => exact .pure (.constant (.text x))

theorem assignTo_alike {target target' value value' : Expr} {equals equals' : Token}
    (ht : target.Alike C.node C.token target') (he : C.token.rel equals equals')
    (hv : value.Alike C.node C.token value') :
    Rule.Alike C (Expr.Alike C.node C.token) (assignTo target equals value)
      (assignTo target' equals' value') := by
  have herror : GrammarError.Alike C ⟨equals, .invalidTarget⟩ ⟨equals', .invalidTarget⟩ :=
    ⟨.inl he, rfl, nofun⟩
  have hwrong : ∀ {e e' : Expr}, e.Alike C.node C.token e' →
      Rule.Alike C (Expr.Alike C.node C.token)
        (do record ⟨equals, .invalidTarget⟩; pure e)
        (do record ⟨equals', .invalidTarget⟩; pure e') :=
    fun h c c' hc => .ok h (hc.record herror)
  cases ht with
  | var _ hname => exact Rule.Alike.freshId.bind fun _ _ hid => .pure (.assign hid hname hv)
  | get ho hname => exact .pure (.set ho hname hv)
  | constant value => exact hwrong (.constant value)
  | grouping h => exact hwrong (.grouping h)
  | unary hop hk h => exact hwrong (.unary hop hk h)
  | binary hl hop hk hr => exact hwrong (.binary hl hop hk hr)
  | logical hl hop hr => exact hwrong (.logical hl hop hr)
  | assign hid hname h => exact hwrong (.assign hid hname h)
  | call h hparen hs => exact hwrong (.call h hparen hs)
  | set h hname hv => exact hwrong (.set h hname hv)
  | this hid hk => exact hwrong (.this hid hk)
  | super hid hk hm => exact hwrong (.super hid hk hm)

theorem superMethod_alike {keyword keyword' : Token} (hk : C.token.rel keyword keyword') :
    Rule.Alike C (Expr.Alike C.node C.token) (superMethod keyword) (superMethod keyword') := by
  refine (Rule.Alike.expect _ _ (by nofun)).bind fun _ _ _ => ?_
  refine (Rule.Alike.expect _ _ (by nofun)).bind fun method method' hm => ?_
  exact Rule.Alike.freshId.bind fun _ _ hid => .pure (.super hid hk hm.rel)

variable (C) in
/-- The rules for expressions look at the text of tokens only. -/
structure ExpressionsAlike (n : Nat) : Prop where
  expression : Rule.Alike C (Expr.Alike C.node C.token) (expression n) (expression n)
  operand : ∀ l, Rule.Alike C (Expr.Alike C.node C.token) (operand n l) (operand n l)
  level : ∀ l, Rule.Alike C (Expr.Alike C.node C.token) (level n l) (level n l)
  levelTail : ∀ l left left', left.Alike C.node C.token left' →
    Rule.Alike C (Expr.Alike C.node C.token) (levelTail n l left) (levelTail n l left')
  unary : Rule.Alike C (Expr.Alike C.node C.token) (unary n) (unary n)
  callTail : ∀ callee callee', callee.Alike C.node C.token callee' →
    Rule.Alike C (Expr.Alike C.node C.token) (callTail n callee) (callTail n callee')
  arguments : Rule.Alike C (Expr.AlikeAll C.node C.token) (arguments n) (arguments n)
  argumentList : ∀ position, Rule.Alike C (Expr.AlikeAll C.node C.token) (argumentList n position)
    (argumentList n position)
  primary : Rule.Alike C (Expr.Alike C.node C.token) (primary n) (primary n)

namespace ExpressionsAlike

theorem zero : ExpressionsAlike C 0 where
  expression := .failHere _ nofun
  operand _ := .failHere _ nofun
  level _ := .failHere _ nofun
  levelTail _ _ _ h := .pure h
  unary := .failHere _ nofun
  callTail _ _ h := .pure h
  arguments := .pure .nil
  argumentList _ := .failHere _ nofun
  primary := .failHere _ nofun

variable {n : Nat} (ih : ExpressionsAlike C n)
include ih

theorem expression_succ :
    Rule.Alike C (Expr.Alike C.node C.token) (Grammar.expression (n + 1))
      (Grammar.expression (n + 1)) := by
  refine (ih.level _).bind fun target target' ht => ?_
  refine (Rule.Alike.accept? _).bind ?_
  intro _ _ h
  cases h with
  | none => exact .pure ht
  | some h =>
    refine ih.expression.bind fun value value' hv => ?_
    exact assignTo_alike ht h.1 hv

theorem operand_succ (l : Level) :
    Rule.Alike C (Expr.Alike C.node C.token) (Grammar.operand (n + 1) l)
      (Grammar.operand (n + 1) l) := by
  rw [Grammar.operand]
  cases l.tighter? with
  | some tight => exact ih.level tight
  | none => exact ih.unary

theorem levelTail_succ (l : Level) (left left' : Expr) (h : left.Alike C.node C.token left') :
    Rule.Alike C (Expr.Alike C.node C.token) (Grammar.levelTail (n + 1) l left)
      (Grammar.levelTail (n + 1) l left') := by
  refine (Rule.Alike.accept? _).bind ?_
  intro _ _ ho
  cases ho with
  | none => exact .pure h
  | some hop =>
    refine (ih.operand l).bind fun right right' hr => ?_
    exact ih.levelTail l _ _ (l.join_alike h hop.1 hop.2 hr)

theorem unary_succ :
    Rule.Alike C (Expr.Alike C.node C.token) (Grammar.unary (n + 1)) (Grammar.unary (n + 1)) := by
  refine (Rule.Alike.accept? _).bind ?_
  intro _ _ ho
  cases ho with
  | none => exact ih.primary.bind fun callee callee' hc => ih.callTail callee callee' hc
  | some hop =>
    refine ih.unary.bind fun right right' hr => .pure (.unary hop.1 ?_ hr)
    simpa using hop.2

theorem callTail_succ (callee callee' : Expr) (h : callee.Alike C.node C.token callee') :
    Rule.Alike C (Expr.Alike C.node C.token) (Grammar.callTail (n + 1) callee)
      (Grammar.callTail (n + 1) callee') := by
  refine (Rule.Alike.accept? _).bind ?_
  intro _ _ hparen
  cases hparen with
  | none =>
    refine (Rule.Alike.accept? _).bind ?_
    intro _ _ hdot
    cases hdot with
    | none => exact .pure h
    | some _ =>
      refine (Rule.Alike.expect _ _ (by nofun)).bind fun name name' hname => ?_
      exact ih.callTail _ _ (.get h hname.rel)
  | some _ =>
    refine ih.arguments.bind fun args args' ha => ?_
    refine (Rule.Alike.expect _ _ (by nofun)).bind fun paren paren' hp => ?_
    exact ih.callTail _ _ (.call h hp.rel ha)

theorem arguments_succ :
    Rule.Alike C (Expr.AlikeAll C.node C.token) (Grammar.arguments (n + 1))
      (Grammar.arguments (n + 1)) := by
  refine Rule.Alike.peek?.bind ?_
  rintro k _ rfl
  split
  · exact .pure .nil
  · exact ih.argumentList 0

theorem argumentList_succ (position : Nat) :
    Rule.Alike C (Expr.AlikeAll C.node C.token) (Grammar.argumentList (n + 1) position)
      (Grammar.argumentList (n + 1) position) := by
  rw [Grammar.argumentList]
  refine Rule.Alike.recordIf ?_ _ (by decide)
  refine ih.expression.bind fun argument argument' ha => ?_
  refine (Rule.Alike.accept? _).bind ?_
  intro _ _ h
  cases h with
  | none => exact .pure (.cons ha .nil)
  | some _ => exact (ih.argumentList _).bind fun rest rest' hr => .pure (.cons ha hr)

theorem primary_succ :
    Rule.Alike C (Expr.Alike C.node C.token) (Grammar.primary (n + 1))
      (Grammar.primary (n + 1)) := by
  refine (Rule.Alike.accept? _).bind ?_
  intro _ _ h
  cases h with
  | none => exact .failHere _ nofun
  | @some t t' h =>
    obtain ⟨ht, hk⟩ := h
    dsimp only
    rw [C.token.kind ht]
    simp only [List.mem_cons, List.not_mem_nil, or_false] at hk
    rcases hk with hk | hk | hk | hk | hk | hk | hk | hk | hk <;> simp only [hk]
    · exact .pure (.constant _)
    · exact .pure (.constant _)
    · exact .pure (.constant _)
    · exact ofLiteral_alike ht (.inl hk)
    · exact ofLiteral_alike ht (.inr hk)
    · exact superMethod_alike ht
    · exact Rule.Alike.freshId.bind fun _ _ hid => .pure (.this hid ht)
    · exact Rule.Alike.freshId.bind fun _ _ hid => .pure (.var hid ⟨ht, hk⟩)
    · refine ih.expression.bind fun inner inner' hi => ?_
      exact (Rule.Alike.expect _ _ (by nofun)).bind fun _ _ _ => .pure (.grouping hi)

end ExpressionsAlike

theorem expressionsAlike (n : Nat) : ExpressionsAlike C n := by
  induction n with
  | zero => exact .zero
  | succ n ih =>
    exact ⟨ih.expression_succ, ih.operand_succ,
      fun l => (ih.operand l).bind fun left left' hl => ih.levelTail l left left' hl,
      ih.levelTail_succ, ih.unary_succ, ih.callTail_succ, ih.arguments_succ,
      ih.argumentList_succ, ih.primary_succ⟩

/-! ## Rules without statements inside -/

theorem exprUntil_alike (kind : Kind) (n : Nat) :
    Rule.Alike C (Option.Rel (Expr.Alike C.node C.token)) (exprUntil kind n)
      (exprUntil kind n) := by
  refine Rule.Alike.peek?.bind ?_
  rintro k _ rfl
  split
  · exact .pure .none
  · exact (expressionsAlike n).expression.map fun _ _ h => .some h

theorem paramList_alike (n position : Nat) :
    Rule.Alike C (List.Forall₂ (C.token.Of .identifier)) (paramList n position)
      (paramList n position) := by
  induction n generalizing position with
  | zero => exact .failHere _ nofun
  | succ n ih =>
    rw [paramList]
    refine Rule.Alike.recordIf ?_ _ (by decide)
    refine (Rule.Alike.expect _ _ (by nofun)).bind fun param param' hp => ?_
    refine (Rule.Alike.accept? _).bind ?_
    intro _ _ h
    cases h with
    | none => exact .pure (.cons hp .nil)
    | some _ => exact (ih _).bind fun rest rest' hr => .pure (.cons hp hr)

theorem params_alike (n : Nat) :
    Rule.Alike C (List.Forall₂ (C.token.Of .identifier)) (params n) (params n) := by
  refine Rule.Alike.peek?.bind ?_
  rintro k _ rfl
  split
  · exact .pure .nil
  · exact paramList_alike n 0

theorem varDecl_alike (n : Nat) :
    Rule.Alike C (Stmt.Alike C.node C.token) (varDecl n) (varDecl n) := by
  refine (Rule.Alike.expect _ _ (by nofun)).bind fun name name' hname => ?_
  have hend : ∀ value value', Option.Rel (Expr.Alike C.node C.token) value value' →
      Rule.Alike C (Stmt.Alike C.node C.token)
        (do let _ ← expect .semicolon .varEnd; pure (.varDecl name value))
        (do let _ ← expect .semicolon .varEnd; pure (.varDecl name' value')) :=
    fun value value' hv =>
      (Rule.Alike.expect _ _ (by nofun)).bind fun _ _ _ => .pure (.varDecl hname hv)
  refine (Rule.Alike.accept? _).bind ?_
  intro _ _ h
  cases h with
  | none => exact hend none none .none
  | some _ =>
    have hvalue : Rule.Alike C (Option.Rel (Expr.Alike C.node C.token)) (some <$> expression n)
        (some <$> expression n) := (expressionsAlike n).expression.map fun _ _ h => .some h
    exact hvalue.bind hend

theorem expressionStatement_alike (n : Nat) :
    Rule.Alike C (Stmt.Alike C.node C.token) (expressionStatement n) (expressionStatement n) := by
  refine (expressionsAlike n).expression.bind fun e e' he => ?_
  exact (Rule.Alike.expect _ _ (by nofun)).bind fun _ _ _ => .pure (.expression he)

theorem printStatement_alike (n : Nat) :
    Rule.Alike C (Stmt.Alike C.node C.token) (printStatement n) (printStatement n) := by
  refine (expressionsAlike n).expression.bind fun e e' he => ?_
  exact (Rule.Alike.expect _ _ (by nofun)).bind fun _ _ _ => .pure (.print he)

theorem returnStatement_alike {keyword keyword' : Token} (hk : C.token.rel keyword keyword')
    (n : Nat) :
    Rule.Alike C (Stmt.Alike C.node C.token) (returnStatement keyword n)
      (returnStatement keyword' n) := by
  refine (exprUntil_alike _ n).bind fun e e' he => ?_
  exact (Rule.Alike.expect _ _ (by nofun)).bind fun _ _ _ => .pure (.ret hk he)

theorem forInitializer_alike (n : Nat) :
    Rule.Alike C (Option.Rel (Stmt.Alike C.node C.token)) (forInitializer n)
      (forInitializer n) := by
  refine (Rule.Alike.accept? _).bind ?_
  intro _ _ h
  cases h with
  | some _ => exact .pure .none
  | none =>
    refine (Rule.Alike.accept? _).bind ?_
    intro _ _ h
    cases h with
    | some _ => exact (varDecl_alike n).map fun _ _ h => .some h
    | none => exact (expressionStatement_alike n).map fun _ _ h => .some h

theorem superclass_alike :
    Rule.Alike C (Option.Rel (Expr.Alike C.node C.token)) superclass superclass := by
  refine (Rule.Alike.accept? _).bind ?_
  intro _ _ h
  cases h with
  | none => exact .pure .none
  | some _ =>
    refine (Rule.Alike.expect _ _ (by nofun)).bind fun name name' hname => ?_
    exact Rule.Alike.freshId.bind fun _ _ hid => .pure (.some (.var hid hname))

/-- The loop that stands for a `for` loop. -/
theorem forLoop_tree_alike {initializer initializer' : Option Stmt}
    {condition condition' increment increment' : Option Expr} {body body' : Stmt}
    (hi : Option.Rel (Stmt.Alike C.node C.token) initializer initializer')
    (hc : Option.Rel (Expr.Alike C.node C.token) condition condition')
    (hs : Option.Rel (Expr.Alike C.node C.token) increment increment')
    (hb : body.Alike C.node C.token body') :
    (Stmt.forLoop initializer condition increment body).Alike C.node C.token
      (.forLoop initializer' condition' increment' body') := by
  have hcond : (condition.getD (.constant (.bool true))).Alike C.node C.token
      (condition'.getD (.constant (.bool true))) := by
    cases hc with
    | none => exact .constant _
    | some h => exact h
  have hbody : ∀ {inner inner' : Stmt}, inner.Alike C.node C.token inner' →
      Stmt.Alike C.node C.token (.loop (condition.getD (.constant (.bool true))) inner)
        (.loop (condition'.getD (.constant (.bool true))) inner') := fun h => .loop hcond h
  cases hi with
  | none =>
    cases hs with
    | none => exact hbody hb
    | some h => exact hbody (.block (.cons hb (.cons (.expression h) .nil)))
  | some hstart =>
    cases hs with
    | none => exact .block (.cons hstart (.cons (hbody hb) .nil))
    | some h =>
      exact .block (.cons hstart
        (.cons (hbody (.block (.cons hb (.cons (.expression h) .nil)))) .nil))

/-! ## Rules with statements inside -/

theorem toList_append_alike {s s' : Option Stmt} {ss ss' : List Stmt}
    (h : Option.Rel (Stmt.Alike C.node C.token) s s') (hs : Stmt.AlikeAll C.node C.token ss ss') :
    Stmt.AlikeAll C.node C.token (s.toList ++ ss) (s'.toList ++ ss') := by
  cases h with
  | none => exact hs
  | some h => exact .cons h hs

variable (C) in
/-- The rules for statements look at the text of tokens only. -/
structure StatementsAlike (n : Nat) : Prop where
  declaration :
    Rule.Alike C (Option.Rel (Stmt.Alike C.node C.token)) (declaration n) (declaration n)
  classDecl : Rule.Alike C (Stmt.Alike C.node C.token) (classDecl n) (classDecl n)
  methodList : Rule.Alike C (FunctionDecl.AlikeAll C.node C.token) (methodList n) (methodList n)
  function : ∀ role, Rule.Alike C (FunctionDecl.Alike C.node C.token) (function n role)
    (function n role)
  block : Rule.Alike C (Stmt.AlikeAll C.node C.token) (block n) (block n)
  statement : Rule.Alike C (Stmt.Alike C.node C.token) (statement n) (statement n)
  forLoop : Rule.Alike C (Stmt.Alike C.node C.token) (forLoop n) (forLoop n)
  branch : Rule.Alike C (Stmt.Alike C.node C.token) (branch n) (branch n)
  loop : Rule.Alike C (Stmt.Alike C.node C.token) (loop n) (loop n)

namespace StatementsAlike

theorem zero : StatementsAlike C 0 where
  declaration := .recover (.failHere _ (by nofun))
  classDecl := .failHere _ nofun
  methodList := .failHere _ nofun
  function _ := .failHere _ nofun
  block := .failHere _ nofun
  statement := .failHere _ nofun
  forLoop := .failHere _ nofun
  branch := .failHere _ nofun
  loop := .failHere _ nofun

variable {n : Nat} (ih : StatementsAlike C n)
include ih

theorem declaration_succ :
    Rule.Alike C (Option.Rel (Stmt.Alike C.node C.token)) (Grammar.declaration (n + 1))
      (Grammar.declaration (n + 1)) := by
  refine .recover ((Rule.Alike.accept? _).bind ?_)
  intro _ _ h
  cases h with
  | none => exact ih.statement
  | @some t t' h =>
    obtain ⟨ht, hk⟩ := h
    dsimp only
    rw [C.token.kind ht]
    simp only [List.mem_cons, List.not_mem_nil, or_false] at hk
    rcases hk with hk | hk | hk <;> simp only [hk]
    · exact ih.classDecl
    · exact (ih.function _).map fun _ _ h => .funDecl h
    · exact varDecl_alike n

theorem classDecl_succ :
    Rule.Alike C (Stmt.Alike C.node C.token) (Grammar.classDecl (n + 1))
      (Grammar.classDecl (n + 1)) := by
  refine (Rule.Alike.expect _ _ (by nofun)).bind fun name name' hname => ?_
  refine superclass_alike.bind fun superclass superclass' hs => ?_
  refine (Rule.Alike.expect _ _ (by nofun)).bind fun _ _ _ => ?_
  exact ih.methodList.bind fun methods methods' hm => .pure (.classDecl hname hs hm)

theorem methodList_succ :
    Rule.Alike C (FunctionDecl.AlikeAll C.node C.token) (Grammar.methodList (n + 1))
      (Grammar.methodList (n + 1)) := by
  refine Rule.Alike.peek?.bind ?_
  rintro k _ rfl
  split
  · exact (Rule.Alike.expect _ _ (by nofun)).bind fun _ _ _ => .pure .nil
  · exact (Rule.Alike.expect _ _ (by nofun)).bind fun _ _ _ => .pure .nil
  · refine (ih.function _).bind fun method method' hm => ?_
    exact ih.methodList.bind fun rest rest' hr => .pure (.cons hm hr)

theorem function_succ (role : FunctionRole) :
    Rule.Alike C (FunctionDecl.Alike C.node C.token) (Grammar.function (n + 1) role)
      (Grammar.function (n + 1) role) := by
  refine (Rule.Alike.expect _ _ (by nofun)).bind fun name name' hname => ?_
  refine (Rule.Alike.expect _ _ (by nofun)).bind fun _ _ _ => ?_
  refine (params_alike n).bind fun params params' hp => ?_
  refine (Rule.Alike.expect _ _ (by nofun)).bind fun _ _ _ => ?_
  refine (Rule.Alike.expect _ _ (by nofun)).bind fun _ _ _ => ?_
  exact ih.block.bind fun body body' hb => .pure (.mk hname hp hb)

theorem block_succ :
    Rule.Alike C (Stmt.AlikeAll C.node C.token) (Grammar.block (n + 1))
      (Grammar.block (n + 1)) := by
  refine Rule.Alike.peek?.bind ?_
  rintro k _ rfl
  split
  · exact (Rule.Alike.expect _ _ (by nofun)).bind fun _ _ _ => .pure .nil
  · exact (Rule.Alike.expect _ _ (by nofun)).bind fun _ _ _ => .pure .nil
  · refine ih.declaration.bind fun s s' hs => ?_
    exact ih.block.bind fun rest rest' hr => .pure (toList_append_alike hs hr)

theorem statement_succ :
    Rule.Alike C (Stmt.Alike C.node C.token) (Grammar.statement (n + 1))
      (Grammar.statement (n + 1)) := by
  refine (Rule.Alike.accept? _).bind ?_
  intro _ _ h
  cases h with
  | none => exact expressionStatement_alike n
  | @some t t' h =>
    obtain ⟨ht, hk⟩ := h
    dsimp only
    rw [C.token.kind ht]
    simp only [List.mem_cons, List.not_mem_nil, or_false] at hk
    rcases hk with hk | hk | hk | hk | hk | hk <;> simp only [hk]
    · exact ih.forLoop
    · exact ih.branch
    · exact ih.loop
    · exact returnStatement_alike ht n
    · exact ih.block.map fun _ _ h => .block h
    · exact printStatement_alike n

theorem forLoop_succ :
    Rule.Alike C (Stmt.Alike C.node C.token) (Grammar.forLoop (n + 1))
      (Grammar.forLoop (n + 1)) := by
  refine (Rule.Alike.expect _ _ (by nofun)).bind fun _ _ _ => ?_
  refine (forInitializer_alike n).bind fun initializer initializer' hi => ?_
  refine (exprUntil_alike _ n).bind fun condition condition' hc => ?_
  refine (Rule.Alike.expect _ _ (by nofun)).bind fun _ _ _ => ?_
  refine (exprUntil_alike _ n).bind fun increment increment' hs => ?_
  refine (Rule.Alike.expect _ _ (by nofun)).bind fun _ _ _ => ?_
  exact ih.statement.bind fun body body' hb => .pure (forLoop_tree_alike hi hc hs hb)

theorem branch_succ :
    Rule.Alike C (Stmt.Alike C.node C.token) (Grammar.branch (n + 1)) (Grammar.branch (n + 1)) := by
  refine (Rule.Alike.expect _ _ (by nofun)).bind fun _ _ _ => ?_
  refine (expressionsAlike n).expression.bind fun condition condition' hc => ?_
  refine (Rule.Alike.expect _ _ (by nofun)).bind fun _ _ _ => ?_
  refine ih.statement.bind fun thenBranch thenBranch' ht => ?_
  refine (Rule.Alike.accept? _).bind ?_
  intro _ _ h
  cases h with
  | none => exact .pure (.ifOnly hc ht)
  | some _ => exact ih.statement.bind fun elseBranch elseBranch' he => .pure (.ifElse hc ht he)

theorem loop_succ :
    Rule.Alike C (Stmt.Alike C.node C.token) (Grammar.loop (n + 1)) (Grammar.loop (n + 1)) := by
  refine (Rule.Alike.expect _ _ (by nofun)).bind fun _ _ _ => ?_
  refine (expressionsAlike n).expression.bind fun condition condition' hc => ?_
  refine (Rule.Alike.expect _ _ (by nofun)).bind fun _ _ _ => ?_
  exact ih.statement.bind fun body body' hb => .pure (.loop hc hb)

end StatementsAlike

theorem statementsAlike (n : Nat) : StatementsAlike C n := by
  induction n with
  | zero => exact .zero
  | succ n ih =>
    exact ⟨ih.declaration_succ, ih.classDecl_succ, ih.methodList_succ, ih.function_succ,
      ih.block_succ, ih.statement_succ, ih.forLoop_succ, ih.branch_succ, ih.loop_succ⟩

theorem program_alike (n : Nat) :
    Rule.Alike C (Stmt.AlikeAll C.node C.token) (program n) (program n) := by
  induction n with
  | zero => exact .pure .nil
  | succ n ih =>
    refine Rule.Alike.peek?.bind ?_
    rintro k _ rfl
    split
    · exact .pure .nil
    · refine (statementsAlike n).declaration.bind fun s s' hs => ?_
      exact ih.bind fun rest rest' hr => .pure (toList_append_alike hs hr)

end Grammar

/-- Token lists whose programs correspond one by one give alike statements and alike errors, and
hand out as many ids. -/
theorem parse_alike (C : Correspondence) {tokens tokens' : List Token}
    (h : List.Forall₂ C.token.rel (programTokens tokens) (programTokens tokens'))
    (hclosing : C.closing (closingToken tokens) (closingToken tokens'))
    (firstId firstId' : NodeId) (hid : C.node firstId firstId') :
    Stmt.AlikeAll C.node C.token (parse firstId tokens).statements
        (parse firstId' tokens').statements ∧
      List.Forall₂ (GrammarError.Alike C) (parse firstId tokens).errors
        (parse firstId' tokens').errors ∧
      C.node (parse firstId tokens).nextId (parse firstId' tokens').nextId := by
  obtain ⟨ss, d, hrun, -, hparse⟩ := exists_program tokens firstId
  obtain ⟨ss', d', hrun', -, hparse'⟩ := exists_program tokens' firstId'
  have hrules := Grammar.program_alike (Grammar.callBound (programTokens tokens).length)
    ⟨tokens, firstId, []⟩ ⟨tokens', firstId', []⟩ ⟨h, hclosing, hid, .nil⟩
  rw [hrun, h.length_eq, hrun'] at hrules
  rw [hparse, hparse']
  cases hrules with
  | ok hs hd => exact ⟨hs, hd.errors, hd.nextId⟩

section

variable {T : Likeness} {tokens tokens' : List Token}
  (h : List.Forall₂ T.rel (programTokens tokens) (programTokens tokens'))
include h

theorem statements_alike (firstId firstId' : NodeId) :
    Stmt.AlikeAll AnyNode T (parse firstId tokens).statements
      (parse firstId' tokens').statements :=
  (parse_alike (.ofTokens T) h trivial firstId firstId' trivial).1

/-- Programs that correspond have errors or have none together. -/
theorem errors_eq_nil_of_alike (firstId firstId' : NodeId)
    (herrors : (parse firstId tokens).errors = []) : (parse firstId' tokens').errors = [] := by
  have halike := (parse_alike (.ofTokens T) h trivial firstId firstId' trivial).2.1
  rwa [herrors, List.forall₂_nil_left_iff] at halike

end

end Lox
