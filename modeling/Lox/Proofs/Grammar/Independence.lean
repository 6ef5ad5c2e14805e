import Lox.Proofs.Grammar.Closing
import Lox.Proofs.Grammar.Lookahead

/-!
# Reading in the middle of a longer list

A rule looks at the tokens that it takes and at most at the one after them, and at the ids only to
hand out the next. So it does the same with further tokens behind its own, and with ids from further
up (`Rule.Moves`), as long as it stops before the last of its tokens.

**Closed rules.** Where a rule has read the last token, it might have looked for more. A statement
does so for the word `else` only: all other phrases are closed by a token of their own. Such rules
give the same also at the end of their tokens, if no `else` follows.

Main statement: `parse_prefix_independent`.
-/

namespace Lox

/-! ## Trees with other ids -/

mutual

/-- An expression with every id moved up. -/
def Expr.shift (k : Nat) : Expr → Expr
  | .constant value => .constant value
  | .grouping inner => .grouping (inner.shift k)
  | .unary op right => .unary op (right.shift k)
  | .binary left op right => .binary (left.shift k) op (right.shift k)
  | .logical left op right => .logical (left.shift k) op (right.shift k)
  | .var id name => .var (id + k) name
  | .assign id name value => .assign (id + k) name (value.shift k)
  | .call callee paren arguments => .call (callee.shift k) paren (Expr.shiftAll k arguments)
  | .get object name => .get (object.shift k) name
  | .set object name value => .set (object.shift k) name (value.shift k)
  | .this id keyword => .this (id + k) keyword
  | .super id keyword method => .super (id + k) keyword method
termination_by structural e => e

/-- Several expressions with every id moved up. -/
def Expr.shiftAll (k : Nat) : List Expr → List Expr
  | [] => []
  | e :: es => e.shift k :: Expr.shiftAll k es
termination_by structural es => es

end

mutual

/-- A statement with every id moved up. -/
def Stmt.shift (k : Nat) : Stmt → Stmt
  | .expression expr => .expression (expr.shift k)
  | .print expr => .print (expr.shift k)
  | .varDecl name value => .varDecl name (value.map (Expr.shift k))
  | .block statements => .block (Stmt.shiftAll k statements)
  | .branch condition thenBranch none => .branch (condition.shift k) (thenBranch.shift k) none
  | .branch condition thenBranch (some elseBranch) =>
    .branch (condition.shift k) (thenBranch.shift k) (some (elseBranch.shift k))
  | .loop condition body => .loop (condition.shift k) (body.shift k)
  | .funDecl function => .funDecl (function.shift k)
  | .ret keyword value => .ret keyword (value.map (Expr.shift k))
  | .classDecl name superclass methods =>
    .classDecl name (superclass.map (Expr.shift k)) (FunctionDecl.shiftAll k methods)
termination_by structural s => s

/-- Several statements with every id moved up. -/
def Stmt.shiftAll (k : Nat) : List Stmt → List Stmt
  | [] => []
  | s :: rest => s.shift k :: Stmt.shiftAll k rest
termination_by structural ss => ss

/-- A function with every id moved up. -/
def FunctionDecl.shift (k : Nat) : FunctionDecl → FunctionDecl
  | ⟨name, params, body⟩ => ⟨name, params, Stmt.shiftAll k body⟩
termination_by structural f => f

/-- Several functions with every id moved up. -/
def FunctionDecl.shiftAll (k : Nat) : List FunctionDecl → List FunctionDecl
  | [] => []
  | f :: rest => f.shift k :: FunctionDecl.shiftAll k rest
termination_by structural fs => fs

end

theorem Stmt.shift_forLoop (k : Nat) (initializer : Option Stmt)
    (condition increment : Option Expr) (body : Stmt) :
    (Stmt.forLoop initializer condition increment body).shift k =
      .forLoop (initializer.map (Stmt.shift k)) (condition.map (Expr.shift k))
        (increment.map (Expr.shift k)) (body.shift k) := by
  cases initializer <;> cases condition <;> cases increment <;> rfl

theorem Stmt.shiftAll_toList_append (k : Nat) (s : Option Stmt) (ss : List Stmt) :
    Stmt.shiftAll k (s.toList ++ ss) = (s.map (Stmt.shift k)).toList ++ Stmt.shiftAll k ss := by
  cases s <;> rfl

mutual

theorem Expr.shift_zero : ∀ e : Expr, e.shift 0 = e
  | .constant _ | .var _ _ | .this _ _ | .super _ _ _ => rfl
  | .grouping inner => by rw [Expr.shift, inner.shift_zero]
  | .unary op right => by rw [Expr.shift, right.shift_zero]
  | .binary left op right => by rw [Expr.shift, left.shift_zero, right.shift_zero]
  | .logical left op right => by rw [Expr.shift, left.shift_zero, right.shift_zero]
  | .assign id name value => by rw [Expr.shift, value.shift_zero, Nat.add_zero]
  | .call callee paren arguments => by
    rw [Expr.shift, callee.shift_zero, Expr.shiftAll_zero arguments]
  | .get object name => by rw [Expr.shift, object.shift_zero]
  | .set object name value => by rw [Expr.shift, object.shift_zero, value.shift_zero]

theorem Expr.shiftAll_zero : ∀ es : List Expr, Expr.shiftAll 0 es = es
  | [] => rfl
  | e :: es => by rw [Expr.shiftAll, e.shift_zero, Expr.shiftAll_zero es]

end

theorem Expr.map_shift_zero (e : Option Expr) : e.map (Expr.shift 0) = e := by
  cases e with
  | none => rfl
  | some e => rw [Option.map_some, e.shift_zero]

mutual

theorem Stmt.shift_zero : ∀ s : Stmt, s.shift 0 = s
  | .expression expr => by rw [Stmt.shift, expr.shift_zero]
  | .print expr => by rw [Stmt.shift, expr.shift_zero]
  | .varDecl name value => by rw [Stmt.shift, Expr.map_shift_zero]
  | .block statements => by rw [Stmt.shift, Stmt.shiftAll_zero statements]
  | .branch condition thenBranch none => by
    rw [Stmt.shift, condition.shift_zero, thenBranch.shift_zero]
  | .branch condition thenBranch (some elseBranch) => by
    rw [Stmt.shift, condition.shift_zero, thenBranch.shift_zero, elseBranch.shift_zero]
  | .loop condition body => by rw [Stmt.shift, condition.shift_zero, body.shift_zero]
  | .funDecl function => by rw [Stmt.shift, function.shift_zero]
  | .ret keyword value => by rw [Stmt.shift, Expr.map_shift_zero]
  | .classDecl name superclass methods => by
    rw [Stmt.shift, Expr.map_shift_zero, FunctionDecl.shiftAll_zero methods]

theorem Stmt.shiftAll_zero : ∀ ss : List Stmt, Stmt.shiftAll 0 ss = ss
  | [] => rfl
  | s :: ss => by rw [Stmt.shiftAll, s.shift_zero, Stmt.shiftAll_zero ss]

theorem FunctionDecl.shift_zero : ∀ f : FunctionDecl, f.shift 0 = f
  | ⟨name, params, body⟩ => by rw [FunctionDecl.shift, Stmt.shiftAll_zero body]

theorem FunctionDecl.shiftAll_zero : ∀ fs : List FunctionDecl, FunctionDecl.shiftAll 0 fs = fs
  | [] => rfl
  | f :: fs => by rw [FunctionDecl.shiftAll, f.shift_zero, FunctionDecl.shiftAll_zero fs]

end

namespace Grammar

/-! ## Rules with more behind -/

/-- A cursor with more tokens behind its own, and with ids from further up. -/
def Cursor.moved (more : List Token) (k : Nat) (c : Cursor) : Cursor :=
  { c with input := c.input ++ more, nextId := c.nextId + k }

/-- The same outcome with more tokens behind, and with ids from further up. -/
def Outcome.moved {α : Type} (more : List Token) (k : Nat) (φ : α → α) : Outcome α → Outcome α
  | .ok a d => .ok (φ a) (d.moved more k)
  | .fail e d => .fail e (d.moved more k)

/-- Where an outcome cannot depend on the tokens behind: there are none, or tokens before them are
left. After a closed rule it is enough that it gave a value. -/
def Outcome.Settled {α : Type} (more : List Token) (closed : Prop) (o : Outcome α) : Prop :=
  more = [] ∨ o.rest.input ≠ [] ∨ (closed ∧ ∃ a d, o = .ok a d)

/-- The second rule does with more tokens behind what the first does without them. -/
structure Rule.Moves (more : List Token) (k : Nat) (closed : Prop) {α : Type} (φ : α → α)
    (p p' : Rule α) : Prop where
  reaches : ∀ c : Cursor, c.Reaches (p c).rest
  eq : ∀ c, (p c).Settled more closed → p' (c.moved more k) = (p c).moved more k φ

/-- A rule that gives no value where no token is left. -/
def Rule.Starts {α : Type} (p : Rule α) : Prop := ∀ c a d, p c = .ok a d → c.input ≠ []

theorem halts_nil (kinds : List Kind) : Halts kinds [] := by
  intro t ht
  cases ht

namespace Cursor

variable {more : List Token} {k : Nat} {c d : Cursor}

theorem Reaches.input_eq_nil (h : c.Reaches d) (hc : c.input = []) : d.input = [] := by
  obtain ⟨passed, -, hinput⟩ := h.input
  exact (List.append_eq_nil_iff.1 (hinput.symm.trans hc)).2

theorem tokens_eq_nil_of_input (h : c.input = []) : c.tokens = [] := by
  rw [tokens, h]
  rfl

/-- A cursor looks at the same token, unless that is the first one behind. -/
theorem peek_moved (h : more = [] ∨ c.input ≠ []) : (c.moved more k).peek = c.peek := by
  unfold peek moved
  rcases h with rfl | hne
  · rw [List.append_nil]
  · rw [List.head?_append_of_ne_nil _ hne]

theorem isAtEnd_moved (h : more = [] ∨ c.input ≠ []) : (c.moved more k).isAtEnd = c.isAtEnd := by
  rw [isAtEnd, isAtEnd, peek_moved h]

theorem check_moved (h : more = [] ∨ c.input ≠ []) :
    (c.moved more k).check = c.check := by
  funext kind
  rw [check, check, isAtEnd_moved h, peek_moved h]

theorem advance_moved (h : more = [] ∨ c.input ≠ []) :
    (c.moved more k).advance = c.advance.moved more k := by
  rw [advance, advance, isAtEnd_moved h]
  split
  · rfl
  · rcases h with rfl | hne
    · simp only [moved, List.append_nil]
    · simp only [moved, List.tail_append_of_ne_nil hne]

end Cursor

/-- A token is taken or refused all the same, unless it would be the first one behind. -/
theorem accept?_moved (kinds : List Kind) (c : Cursor) (more : List Token) (k : Nat) :
    (∃ t d, c.Reaches d ∧ Rule.accept? kinds c = .ok (some t) d ∧
      Rule.accept? kinds (c.moved more k) = .ok (some t) (d.moved more k)) ∨
    (Rule.accept? kinds c = .ok none c ∧
      (more = [] ∨ c.input ≠ [] ∨ Halts kinds more →
        Rule.accept? kinds (c.moved more k) = .ok none (c.moved more k))) := by
  have hsame (h : more = [] ∨ c.input ≠ []) : Rule.accept? kinds (c.moved more k) =
      if kinds.any c.check then .ok (some c.peek) (c.advance.moved more k)
      else .ok none (c.moved more k) := by
    rw [Rule.accept?, Cursor.check_moved h, Cursor.peek_moved h, Cursor.advance_moved h]
  by_cases hany : kinds.any c.check = true
  · have hne : c.input ≠ [] := by
      intro hnil
      obtain ⟨kind, -, hcheck⟩ := List.any_eq_true.1 hany
      rw [Cursor.check_of_nil (Cursor.tokens_eq_nil_of_input hnil)] at hcheck
      cases hcheck
    exact .inl ⟨c.peek, c.advance, c.reaches_advance, if_pos hany,
      (hsame (.inr hne)).trans (if_pos hany)⟩
  · refine .inr ⟨if_neg hany, fun h => ?_⟩
    rcases or_assoc.2 h with h | hhalts
    · exact (hsame h).trans (if_neg hany)
    · by_cases hc : c.input = []
      · -- The first token behind is looked at, and refused.
        refine Rule.accept?_of_not_mem fun x hx hk => ?_
        obtain ⟨rest, hcons⟩ := List.head?_eq_some_iff.1 hx
        obtain ⟨behind, hinput, -, -⟩ := Cursor.tokens_eq_cons_iff.1 hcons
        rw [Cursor.moved, hc, List.nil_append] at hinput
        exact hhalts x (by rw [show more = x :: behind from hinput]; rfl) hk
      · exact (hsame (.inr hc)).trans (if_neg hany)

theorem boundary_append {previous : Token} {ts more : List Token}
    (h : more = [] ∨ boundary previous ts ≠ []) :
    boundary previous (ts ++ more) = boundary previous ts ++ more := by
  rcases h with rfl | h
  · rw [List.append_nil, List.append_nil]
  · induction ts generalizing previous with
    | nil => exact absurd rfl h
    | cons t rest ih =>
      rw [boundary] at h
      rw [List.cons_append, boundary, boundary]
      split
      · rfl
      · next hgo => exact ih (by rwa [if_neg hgo] at h)

theorem resume_append {ts more : List Token} (h : more = [] ∨ resume ts ≠ []) :
    resume (ts ++ more) = resume ts ++ more := by
  cases ts with
  | nil => rcases h with rfl | h <;> [rfl; exact absurd rfl h]
  | cons t rest =>
    rw [List.cons_append, resume, resume]
    by_cases ht : t.kind = .eof
    · rw [if_pos ht, if_pos ht, List.cons_append]
    · rw [resume, if_neg ht] at h
      rw [if_neg ht, if_neg ht]
      exact boundary_append h

namespace Rule

variable {α β : Type} {more : List Token} {k : Nat} {closed : Prop} {φ : α → α} {ψ : β → β}
  {p p' : Rule α} {f f' : α → Rule β}

theorem bind_of_ok {c d : Cursor} {a : α} (h : p c = .ok a d) : (p >>= f) c = f a d := by
  simp only [Bind.bind, h]

theorem bind_of_fail {c d : Cursor} {e : GrammarError} (h : p c = .fail e d) :
    (p >>= f) c = .fail e d := by
  simp only [Bind.bind, h]

namespace Starts

theorem bind (hp : p.Starts) : (p >>= f).Starts := by
  intro c b d h
  cases hp' : p c with
  | ok a d' => exact hp c a d' hp'
  | fail e d' => rw [bind_of_fail hp'] at h; cases h

/-- What is to be read later has to be there from the start. -/
theorem later (hp : ∀ c : Cursor, c.Reaches (p c).rest) (hf : ∀ a, (f a).Starts) :
    (p >>= f).Starts := by
  intro c b d h
  have hreach := hp c
  cases hp' : p c with
  | ok a d' =>
    rw [hp'] at hreach
    rw [bind_of_ok hp'] at h
    intro hnil
    exact hf a d' b d h (hreach.input_eq_nil hnil)
  | fail e d' => rw [bind_of_fail hp'] at h; cases h

theorem expect (kind : Kind) (fault : GrammarFault) : (Rule.expect kind fault).Starts := by
  intro c t d h hnil
  have htokens := ((Gives.expect kind fault).of_ok h).2.2
  rw [Cursor.tokens_eq_nil_of_input hnil] at htokens
  cases htokens

theorem of_passes (h : ∀ c, p.Gives c fun _ d => c.Passes d) : p.Starts := by
  intro c a d hp hnil
  have hpast := ((h c).of_ok hp).2
  rw [Cursor.Passes, Cursor.tokens_eq_nil_of_input hnil] at hpast
  exact absurd hpast (Nat.not_lt_zero _)

end Starts

namespace Moves

theorem mono {closed' : Prop} (h : Moves more k closed φ p p') (himp : closed' → closed) :
    Moves more k closed' φ p p' :=
  ⟨h.reaches, fun c hs => h.eq c (hs.imp_right (Or.imp_right (And.imp_left himp)))⟩

theorem pure (a : α) : Moves more k closed φ (Pure.pure a) (Pure.pure (φ a)) :=
  ⟨fun c => .refl c, fun _ _ => rfl⟩

/-- Two steps in a row: if the second gives a value, the first is closed or has left tokens. -/
theorem bind_of {closed' : Prop} (hp : Moves more k closed' φ p p')
    (hf : ∀ a, Moves more k closed ψ (f a) (f' (φ a)))
    (hlink : closed → closed' ∨ ∀ a, (f a).Starts) :
    Moves more k closed ψ (p >>= f) (p' >>= f') := by
  have key : ∀ c, c.Reaches ((p >>= f) c).rest ∧
      (((p >>= f) c).Settled more closed →
        (p' >>= f') (c.moved more k) = ((p >>= f) c).moved more k ψ) := by
    intro c
    have hreach := hp.reaches c
    have heq := hp.eq c
    cases h : p c with
    | fail e d =>
      rw [h] at hreach heq
      rw [bind_of_fail h]
      refine ⟨hreach, fun hs => bind_of_fail (heq ?_)⟩
      exact hs.imp_right (Or.imp_right fun ⟨_, _, _, hok⟩ => nomatch hok)
    | ok a d =>
      rw [h] at hreach heq
      rw [bind_of_ok h]
      refine ⟨hreach.trans ((hf a).reaches d), fun hs => ?_⟩
      rw [bind_of_ok (heq ?_), (hf a).eq d hs]
      rcases hs with hnil | hrest | ⟨hclosed, b, d', hok⟩
      · exact .inl hnil
      · refine .inr (.inl fun hd => hrest ?_)
        exact ((hf a).reaches d).input_eq_nil hd
      · rcases hlink hclosed with hc | hstarts
        · exact .inr (.inr ⟨hc, a, d, rfl⟩)
        · exact .inr (.inl (hstarts a d b d' hok))
  exact ⟨fun c => (key c).1, fun c => (key c).2⟩

theorem bind (hp : Moves more k closed φ p p')
    (hf : ∀ a, Moves more k closed ψ (f a) (f' (φ a))) :
    Moves more k closed ψ (p >>= f) (p' >>= f') :=
  hp.bind_of hf .inl

/-- A step that need not be closed, since a token is still to come. -/
theorem bindTo (hp : Moves more k False φ p p')
    (hf : ∀ a, Moves more k closed ψ (f a) (f' (φ a))) (hstarts : ∀ a, (f a).Starts) :
    Moves more k closed ψ (p >>= f) (p' >>= f') :=
  hp.bind_of hf fun _ => .inr hstarts

theorem map {g : α → β} (hp : Moves more k closed φ p p') (h : ∀ a, ψ (g a) = g (φ a)) :
    Moves more k closed ψ (g <$> p) (g <$> p') := by
  refine hp.bind fun a => ?_
  have hpure : Moves more k closed ψ (Pure.pure (g a)) (Pure.pure (ψ (g a))) := pure (g a)
  rwa [h a] at hpure

theorem failHere (fault : GrammarFault) :
    Moves more k closed φ (Rule.failHere fault) (Rule.failHere fault) := by
  refine ⟨fun c => .refl c, fun c hs => ?_⟩
  have hpeek : (c.moved more k).peek = c.peek :=
    Cursor.peek_moved (hs.imp_right fun h => h.resolve_right fun ⟨_, _, _, hok⟩ => nomatch hok)
  show Outcome.fail ⟨(c.moved more k).peek, fault⟩ _ = _
  rw [hpeek]
  rfl

theorem failAt (site : Token) (fault : GrammarFault) :
    Moves more k closed φ (Rule.failAt site fault) (Rule.failAt site fault) :=
  ⟨fun c => .refl c, fun _ _ => rfl⟩

theorem record (e : GrammarError) : Moves more k closed id (Rule.record e) (Rule.record e) :=
  ⟨fun _ => .of_input rfl (Nat.le_refl _) (List.prefix_append _ _), fun _ _ => rfl⟩

theorem freshId : Moves more k closed (· + k) Rule.freshId Rule.freshId := by
  refine ⟨fun _ => .of_input rfl (Nat.le_succ _) (List.prefix_refl _), fun c _ => ?_⟩
  show Outcome.ok (c.nextId + k) _ = Outcome.ok _ _
  simp only [Cursor.moved, Nat.add_right_comm]

/-- An error recorded under a condition, before the rest of a rule. -/
theorem recordIf {P : Prop} [Decidable P] (fault : GrammarFault)
    (hp : Moves more k False φ p p') :
    Moves more k False φ (if P then Rule.recordHere fault >>= fun _ => p else p)
      (if P then Rule.recordHere fault >>= fun _ => p' else p') := by
  by_cases hP : P
  · rw [if_pos hP, if_pos hP]
    have hrecord : Moves more k False id (Rule.recordHere fault) (Rule.recordHere fault) := by
      refine ⟨fun _ => .of_input rfl (Nat.le_refl _) (List.prefix_append _ _), ?_⟩
      intro c hs
      have hpeek : (c.moved more k).peek = c.peek :=
        Cursor.peek_moved (hs.imp_right fun h => h.resolve_right fun hok => hok.1)
      show Outcome.ok () { c.moved more k with
        errors := c.errors ++ [⟨(c.moved more k).peek, fault⟩] } = _
      rw [hpeek]
      rfl
    exact hrecord.bind fun _ => hp
  · rw [if_neg hP, if_neg hP]
    exact hp

/-- A look at the next token. At the end of the tokens the rest of the rule is what has to give no
value. -/
theorem peek {f f' : Option Kind → Rule β} (hf : ∀ kind, Moves more k closed ψ (f kind) (f' kind))
    (hstarts : closed → (f none).Starts) :
    Moves more k closed ψ (peek? >>= f) (peek? >>= f') := by
  refine ⟨fun c => (hf _).reaches c, fun c hs => ?_⟩
  let kind : Option Kind := if c.isAtEnd then none else some c.peek.kind
  have hs : (f kind c).Settled more closed := hs
  have hinput : more = [] ∨ c.input ≠ [] := by
    rcases hs with hnil | hrest | ⟨hclosed, b, d, hok⟩
    · exact .inl hnil
    · exact .inr fun hc => hrest (((hf _).reaches c).input_eq_nil hc)
    · refine .inr fun hc => ?_
      have hkind : kind = none := if_pos (Cursor.isAtEnd_of_nil (Cursor.tokens_eq_nil_of_input hc))
      rw [hkind] at hok
      exact hstarts hclosed c b d hok hc
  have hkind : (if (c.moved more k).isAtEnd then none else some (c.moved more k).peek.kind) =
      kind := by
    rw [Cursor.isAtEnd_moved hinput, Cursor.peek_moved hinput]
  show f' (if (c.moved more k).isAtEnd then none else some (c.moved more k).peek.kind) _ = _
  rw [hkind]
  exact (hf kind).eq c hs

/-- A token that may come next. At the end of the tokens, either the rest of the rule gives no
value or no such token follows. -/
theorem accept {kinds : List Kind} {f f' : Option Token → Rule β}
    (hnone : Moves more k closed ψ (f none) (f' none))
    (hsome : ∀ t, Moves more k closed ψ (f (some t)) (f' (some t)))
    (hstarts : closed → (f none).Starts ∨ Halts kinds more) :
    Moves more k closed ψ (accept? kinds >>= f) (accept? kinds >>= f') := by
  have key : ∀ c : Cursor, c.Reaches ((accept? kinds >>= f) c).rest ∧
      (((accept? kinds >>= f) c).Settled more closed →
        (accept? kinds >>= f') (c.moved more k) =
          ((accept? kinds >>= f) c).moved more k ψ) := by
    intro c
    rcases accept?_moved kinds c more k with ⟨t, d, hd, h, h'⟩ | ⟨h, h'⟩
    · rw [bind_of_ok h, bind_of_ok h']
      exact ⟨hd.trans ((hsome t).reaches d), (hsome t).eq d⟩
    · rw [bind_of_ok h]
      refine ⟨hnone.reaches c, fun hs => ?_⟩
      rw [bind_of_ok (h' ?_)]
      · exact hnone.eq c hs
      · rcases hs with hnil | hrest | ⟨hclosed, b, d, hok⟩
        · exact .inl hnil
        · refine .inr (.inl fun hc => hrest ?_)
          exact (hnone.reaches c).input_eq_nil hc
        · rcases hstarts hclosed with hstart | hhalts
          · exact .inr (.inl (hstart c b d hok))
          · exact .inr (.inr hhalts)
  exact ⟨fun c => (key c).1, fun c => (key c).2⟩

/-- A token that has to come next. -/
theorem expect (kind : Kind) (fault : GrammarFault) :
    Moves more k closed id (Rule.expect kind fault) (Rule.expect kind fault) := by
  refine accept (failHere fault) (fun t => pure t) fun _ => .inl ?_
  intro c t d h
  cases h

/-- A declaration that fails before the last token is skipped up to the same place. -/
theorem recover {φ : Stmt → Stmt} {p p' : Rule Stmt} (hp : Moves more k closed φ p p') :
    Moves more k False (Option.map φ) (Grammar.recover p) (Grammar.recover p') := by
  have key : ∀ c : Cursor, c.Reaches (Grammar.recover p c).rest ∧
      ((Grammar.recover p c).Settled more False →
        Grammar.recover p' (c.moved more k) =
          (Grammar.recover p c).moved more k (Option.map φ)) := by
    intro c
    have hreach := hp.reaches c
    have heq := hp.eq c
    unfold Grammar.recover
    cases h : p c with
    | ok s d =>
      rw [h] at hreach heq
      refine ⟨hreach, fun hs => ?_⟩
      rw [heq (hs.imp_right fun h => .inl (h.resolve_right fun hok => hok.1))]
      rfl
    | fail e d =>
      rw [h] at hreach heq
      refine ⟨hreach.trans (d.reaches_resume e), fun hs => ?_⟩
      have hrest : more = [] ∨ resume d.input ≠ [] :=
        hs.imp_right fun h => h.resolve_right fun hok => hok.1
      rw [heq (hrest.imp_right fun h => .inl fun hd => h (congrArg resume hd))]
      simp only [Outcome.moved, Cursor.moved, resume_append hrest, Option.map_none]
  exact ⟨fun c => (key c).1, fun c => (key c).2⟩

end Moves

end Rule

open Rule

/-! ## Expressions -/

variable {more : List Token} {k : Nat}

theorem Level.shift_join (k : Nat) (l : Level) (left : Expr) (op : Token) (right : Expr) :
    (l.join left op right).shift k = l.join (left.shift k) op (right.shift k) := by
  cases l <;> rfl

theorem ofLiteral_moves (t : Token) :
    Moves more k False (Expr.shift k) (ofLiteral t) (ofLiteral t) := by
  unfold ofLiteral
  cases t.literal with
  | none => exact .failAt _ _
  | some value => cases value <;> exact .pure _

theorem assignTo_moves (target : Expr) (equals : Token) (value : Expr) :
    Moves more k False (Expr.shift k) (assignTo target equals value)
      (assignTo (target.shift k) equals (value.shift k)) := by
  have hwrong : ∀ e : Expr, Moves more k False (Expr.shift k)
      (do record ⟨equals, .invalidTarget⟩; pure e)
      (do record ⟨equals, .invalidTarget⟩; pure (e.shift k)) :=
    fun e => (Moves.record _).bind fun _ => .pure e
  cases target with
  | var id name => exact Moves.freshId.bind fun id => .pure (Expr.assign id name value)
  | get object name => exact .pure (Expr.set object name value)
  | constant x => exact hwrong (.constant x)
  | grouping inner => exact hwrong (.grouping inner)
  | unary op right => exact hwrong (.unary op right)
  | binary left op right => exact hwrong (.binary left op right)
  | logical left op right => exact hwrong (.logical left op right)
  | assign id name inner => exact hwrong (.assign id name inner)
  | call callee paren args => exact hwrong (.call callee paren args)
  | set object name inner => exact hwrong (.set object name inner)
  | this id keyword => exact hwrong (.this id keyword)
  | super id keyword method => exact hwrong (.super id keyword method)

theorem superMethod_moves (keyword : Token) :
    Moves more k False (Expr.shift k) (superMethod keyword) (superMethod keyword) := by
  refine (Moves.expect _ _).bind fun _ => ?_
  refine (Moves.expect _ _).bind fun method => ?_
  exact Moves.freshId.bind fun id => .pure (Expr.super id keyword method)

variable (more k) in
/-- The rules for expressions do the same before more tokens. -/
structure ExpressionsMove (n : Nat) : Prop where
  expression : Moves more k False (Expr.shift k) (expression n) (expression n)
  operand : ∀ l, Moves more k False (Expr.shift k) (operand n l) (operand n l)
  level : ∀ l, Moves more k False (Expr.shift k) (level n l) (level n l)
  levelTail : ∀ l left,
    Moves more k False (Expr.shift k) (levelTail n l left) (levelTail n l (left.shift k))
  unary : Moves more k False (Expr.shift k) (unary n) (unary n)
  callTail : ∀ callee,
    Moves more k False (Expr.shift k) (callTail n callee) (callTail n (callee.shift k))
  arguments : Moves more k False (Expr.shiftAll k) (arguments n) (arguments n)
  argumentList : ∀ position,
    Moves more k False (Expr.shiftAll k) (argumentList n position) (argumentList n position)
  primary : Moves more k False (Expr.shift k) (primary n) (primary n)

namespace ExpressionsMove

theorem zero : ExpressionsMove more k 0 where
  expression := .failHere _
  operand _ := .failHere _
  level _ := .failHere _
  levelTail _ left := .pure left
  unary := .failHere _
  callTail callee := .pure callee
  arguments := .pure []
  argumentList _ := .failHere _
  primary := .failHere _

variable {n : Nat} (ih : ExpressionsMove more k n)
include ih

theorem expression_succ :
    Moves more k False (Expr.shift k) (Grammar.expression (n + 1))
      (Grammar.expression (n + 1)) := by
  refine (ih.level _).bind fun target => ?_
  refine Moves.accept (.pure target) (fun equals => ?_) False.elim
  exact ih.expression.bind fun value => assignTo_moves target equals value

theorem operand_succ (l : Level) :
    Moves more k False (Expr.shift k) (Grammar.operand (n + 1) l) (Grammar.operand (n + 1) l) := by
  rw [Grammar.operand]
  cases l.tighter? with
  | some tight => exact ih.level tight
  | none => exact ih.unary

theorem level_succ (l : Level) :
    Moves more k False (Expr.shift k) (Grammar.level (n + 1) l) (Grammar.level (n + 1) l) :=
  (ih.operand l).bind fun left => ih.levelTail l left

theorem levelTail_succ (l : Level) (left : Expr) :
    Moves more k False (Expr.shift k) (Grammar.levelTail (n + 1) l left)
      (Grammar.levelTail (n + 1) l (left.shift k)) := by
  refine Moves.accept (.pure left) (fun op => ?_) False.elim
  refine (ih.operand l).bind fun right => ?_
  rw [← Level.shift_join]
  exact ih.levelTail l _

theorem unary_succ :
    Moves more k False (Expr.shift k) (Grammar.unary (n + 1)) (Grammar.unary (n + 1)) := by
  refine Moves.accept ?_ (fun op => ?_) False.elim
  · exact ih.primary.bind fun callee => ih.callTail callee
  · exact ih.unary.bind fun right => .pure (Expr.unary op right)

theorem callTail_succ (callee : Expr) :
    Moves more k False (Expr.shift k) (Grammar.callTail (n + 1) callee)
      (Grammar.callTail (n + 1) (callee.shift k)) := by
  refine Moves.accept ?_ (fun _ => ?_) False.elim
  · refine Moves.accept (.pure callee) (fun _ => ?_) False.elim
    exact (Moves.expect _ _).bind fun name => ih.callTail (.get callee name)
  · refine ih.arguments.bind fun args => ?_
    exact (Moves.expect _ _).bind fun paren => ih.callTail (.call callee paren args)

theorem arguments_succ :
    Moves more k False (Expr.shiftAll k) (Grammar.arguments (n + 1))
      (Grammar.arguments (n + 1)) := by
  refine Moves.peek (fun kind => ?_) False.elim
  split
  · exact .pure []
  · exact ih.argumentList 0

theorem argumentList_succ (position : Nat) :
    Moves more k False (Expr.shiftAll k) (Grammar.argumentList (n + 1) position)
      (Grammar.argumentList (n + 1) position) := by
  refine Moves.recordIf _ (ih.expression.bind fun argument => ?_)
  refine Moves.accept (.pure [argument]) (fun _ => ?_) False.elim
  exact (ih.argumentList _).bind fun rest => .pure (argument :: rest)

theorem primary_succ :
    Moves more k False (Expr.shift k) (Grammar.primary (n + 1)) (Grammar.primary (n + 1)) := by
  refine Moves.accept (.failHere _) (fun t => ?_) False.elim
  dsimp only
  split
  · exact .pure (Expr.constant (.bool false))
  · exact .pure (Expr.constant (.bool true))
  · exact .pure (Expr.constant .nil)
  · exact superMethod_moves t
  · exact Moves.freshId.bind fun id => .pure (Expr.this id t)
  · exact Moves.freshId.bind fun id => .pure (Expr.var id t)
  · refine ih.expression.bind fun inner => ?_
    exact (Moves.expect _ _).bind fun _ => .pure (Expr.grouping inner)
  · exact ofLiteral_moves t

end ExpressionsMove

theorem expressionsMove (n : Nat) : ExpressionsMove more k n := by
  induction n with
  | zero => exact .zero
  | succ n ih =>
    exact ⟨ih.expression_succ, ih.operand_succ, ih.level_succ, ih.levelTail_succ, ih.unary_succ,
      ih.callTail_succ, ih.arguments_succ, ih.argumentList_succ, ih.primary_succ⟩

/-! ## Statements -/

theorem exprUntil_moves (kind : Kind) (n : Nat) :
    Moves more k False (Option.map (Expr.shift k)) (exprUntil kind n) (exprUntil kind n) := by
  refine Moves.peek (fun next => ?_) False.elim
  split
  · exact .pure none
  · exact (expressionsMove n).expression.map fun _ => rfl

theorem paramList_moves (n position : Nat) :
    Moves more k False id (paramList n position) (paramList n position) := by
  induction n generalizing position with
  | zero => exact .failHere _
  | succ n ih =>
    refine Moves.recordIf _ ((Moves.expect _ _).bind fun param => ?_)
    refine Moves.accept (.pure [param]) (fun _ => ?_) False.elim
    exact (ih _).bind fun rest => .pure (param :: rest)

theorem params_moves (n : Nat) : Moves more k False id (params n) (params n) := by
  refine Moves.peek (fun next => ?_) False.elim
  split
  · exact .pure []
  · exact paramList_moves n 0

theorem expressionStatement_moves (n : Nat) :
    Moves more k True (Stmt.shift k) (expressionStatement n) (expressionStatement n) := by
  refine (expressionsMove n).expression.bindTo (fun expr => ?_) fun _ => (Starts.expect _ _).bind
  exact (Moves.expect _ _).bind fun _ => .pure (Stmt.expression expr)

theorem printStatement_moves (n : Nat) :
    Moves more k True (Stmt.shift k) (printStatement n) (printStatement n) := by
  refine (expressionsMove n).expression.bindTo (fun expr => ?_) fun _ => (Starts.expect _ _).bind
  exact (Moves.expect _ _).bind fun _ => .pure (Stmt.print expr)

theorem returnStatement_moves (keyword : Token) (n : Nat) :
    Moves more k True (Stmt.shift k) (returnStatement keyword n) (returnStatement keyword n) := by
  refine (exprUntil_moves _ n).bindTo (fun value => ?_) fun _ => (Starts.expect _ _).bind
  exact (Moves.expect _ _).bind fun _ => .pure (Stmt.ret keyword value)

theorem varDecl_moves (n : Nat) :
    Moves more k True (Stmt.shift k) (varDecl n) (varDecl n) := by
  refine (Moves.expect _ _).bind fun name => ?_
  have hend : ∀ value : Option Expr, Moves more k True (Stmt.shift k)
      (do let _ ← Rule.expect .semicolon .varEnd; pure (.varDecl name value))
      (do let _ ← Rule.expect .semicolon .varEnd
          pure (.varDecl name (value.map (Expr.shift k)))) :=
    fun value => (Moves.expect _ _).bind fun _ => .pure (Stmt.varDecl name value)
  refine Moves.accept (hend none) (fun _ => ?_) fun _ => .inl (Starts.expect _ _).bind
  have hvalue : Moves more k False (Option.map (Expr.shift k)) (some <$> Grammar.expression n)
      (some <$> Grammar.expression n) := (expressionsMove n).expression.map fun _ => rfl
  exact hvalue.bindTo hend fun _ => (Starts.expect _ _).bind

theorem forInitializer_moves (n : Nat) :
    Moves more k False (Option.map (Stmt.shift k)) (forInitializer n) (forInitializer n) := by
  refine Moves.accept ?_ (fun _ => .pure none) False.elim
  refine Moves.accept ?_ (fun _ => ?_) False.elim
  · exact ((expressionStatement_moves n).mono False.elim).map fun _ => rfl
  · exact ((varDecl_moves n).mono False.elim).map fun _ => rfl

theorem superclass_moves :
    Moves more k False (Option.map (Expr.shift k)) superclass superclass := by
  refine Moves.accept (.pure none) (fun _ => ?_) False.elim
  refine (Moves.expect _ _).bind fun name => ?_
  exact Moves.freshId.bind fun id => .pure (some (Expr.var id name))

theorem block_starts (n : Nat) : (block n).Starts := by
  intro c ss d h hnil
  cases n with
  | zero => cases h
  | succ n =>
    have hpeek : peek? c = .ok none c := by
      rw [peek?_eq, Cursor.tokens_eq_nil_of_input hnil]
      rfl
    rw [block, bind_of_ok hpeek] at h
    exact (Starts.expect _ _).bind c ss d h hnil

variable (more k) in
/-- The rules for statements do the same before more tokens, and all but the one for declarations
also right before them. -/
structure StatementsMove (n : Nat) : Prop where
  declaration : Moves more k False (Option.map (Stmt.shift k)) (declaration n) (declaration n)
  classDecl : Moves more k True (Stmt.shift k) (classDecl n) (classDecl n)
  methodList : Moves more k True (FunctionDecl.shiftAll k) (methodList n) (methodList n)
  function : ∀ role, Moves more k True (FunctionDecl.shift k) (function n role) (function n role)
  block : Moves more k True (Stmt.shiftAll k) (block n) (block n)
  statement : Moves more k True (Stmt.shift k) (statement n) (statement n)
  forLoop : Moves more k True (Stmt.shift k) (forLoop n) (forLoop n)
  branch : Moves more k True (Stmt.shift k) (branch n) (branch n)
  loop : Moves more k True (Stmt.shift k) (loop n) (loop n)

namespace StatementsMove

theorem zero : StatementsMove more k 0 where
  declaration := by
    have hfail : Moves more k True (Stmt.shift k) (attempt 0) (attempt 0) := .failHere _
    exact hfail.recover
  classDecl := .failHere _
  methodList := .failHere _
  function _ := .failHere _
  block := .failHere _
  statement := .failHere _
  forLoop := .failHere _
  branch := .failHere _
  loop := .failHere _

variable {n : Nat} (ih : StatementsMove more k n)
include ih

theorem attempt_succ :
    Moves more k True (Stmt.shift k) (attempt (n + 1)) (attempt (n + 1)) := by
  refine Moves.accept ih.statement (fun t => ?_) fun _ => .inl (.of_passes (statement_passes n))
  dsimp only
  split
  · exact ih.classDecl
  · exact (ih.function _).map fun _ => rfl
  · exact varDecl_moves n

theorem classDecl_succ :
    Moves more k True (Stmt.shift k) (Grammar.classDecl (n + 1)) (Grammar.classDecl (n + 1)) := by
  refine (Moves.expect _ _).bind fun name => ?_
  refine superclass_moves.bindTo (fun superclass => ?_) fun _ => (Starts.expect _ _).bind
  refine (Moves.expect _ _).bind fun _ => ?_
  exact ih.methodList.bind fun methods => .pure (Stmt.classDecl name superclass methods)

theorem methodList_succ :
    Moves more k True (FunctionDecl.shiftAll k) (Grammar.methodList (n + 1))
      (Grammar.methodList (n + 1)) := by
  refine Moves.peek (fun next => ?_) fun _ => (Starts.expect _ _).bind
  split
  · exact (Moves.expect _ _).bind fun _ => .pure []
  · exact (Moves.expect _ _).bind fun _ => .pure []
  · refine (ih.function _).bind fun method => ?_
    exact ih.methodList.bind fun rest => .pure (method :: rest)

theorem function_succ (role : FunctionRole) :
    Moves more k True (FunctionDecl.shift k) (Grammar.function (n + 1) role)
      (Grammar.function (n + 1) role) := by
  refine (Moves.expect _ _).bind fun name => ?_
  refine (Moves.expect _ _).bind fun _ => ?_
  refine (params_moves n).bindTo (fun params => ?_) fun _ => (Starts.expect _ _).bind
  refine (Moves.expect _ _).bind fun _ => ?_
  refine (Moves.expect _ _).bind fun _ => ?_
  exact ih.block.bind fun body => .pure (FunctionDecl.mk name params body)

theorem block_succ :
    Moves more k True (Stmt.shiftAll k) (Grammar.block (n + 1)) (Grammar.block (n + 1)) := by
  refine Moves.peek (fun next => ?_) fun _ => (Starts.expect _ _).bind
  split
  · exact (Moves.expect _ _).bind fun _ => .pure []
  · exact (Moves.expect _ _).bind fun _ => .pure []
  · refine ih.declaration.bindTo (fun stmt => ?_) fun _ => (block_starts n).bind
    refine ih.block.bind fun rest => ?_
    rw [← Stmt.shiftAll_toList_append]
    exact .pure (stmt.toList ++ rest)

theorem statement_succ :
    Moves more k True (Stmt.shift k) (Grammar.statement (n + 1)) (Grammar.statement (n + 1)) := by
  refine Moves.accept (expressionStatement_moves n) (fun t => ?_)
    fun _ => .inl (.of_passes (expressionStatement_passes n))
  dsimp only
  split
  · exact ih.forLoop
  · exact ih.branch
  · exact ih.loop
  · exact returnStatement_moves t n
  · exact ih.block.map fun _ => rfl
  · exact printStatement_moves n

theorem forLoop_succ :
    Moves more k True (Stmt.shift k) (Grammar.forLoop (n + 1)) (Grammar.forLoop (n + 1)) := by
  refine (Moves.expect _ _).bind fun _ => ?_
  have hcondition : Moves more k False _ (exprUntil .semicolon n) (exprUntil .semicolon n) :=
    exprUntil_moves _ n
  refine (forInitializer_moves n).bindTo (fun initializer => ?_) fun _ =>
    Starts.later hcondition.reaches fun _ => (Starts.expect _ _).bind
  refine hcondition.bindTo (fun condition => ?_) fun _ => (Starts.expect _ _).bind
  refine (Moves.expect _ _).bind fun _ => ?_
  refine (exprUntil_moves _ n).bindTo (fun increment => ?_) fun _ => (Starts.expect _ _).bind
  refine (Moves.expect _ _).bind fun _ => ?_
  refine ih.statement.bind fun body => ?_
  rw [← Stmt.shift_forLoop]
  exact .pure (Stmt.forLoop initializer condition increment body)

theorem branch_succ (hmore : Halts [.elseWord] more) :
    Moves more k True (Stmt.shift k) (Grammar.branch (n + 1)) (Grammar.branch (n + 1)) := by
  refine (Moves.expect _ _).bind fun _ => ?_
  refine (expressionsMove n).expression.bindTo (fun condition => ?_) fun _ =>
    (Starts.expect _ _).bind
  refine (Moves.expect _ _).bind fun _ => ?_
  refine ih.statement.bind fun thenBranch => ?_
  refine Moves.accept (.pure (Stmt.branch condition thenBranch none)) (fun _ => ?_)
    fun _ => .inr hmore
  exact ih.statement.bind fun elseBranch =>
    .pure (Stmt.branch condition thenBranch (some elseBranch))

theorem loop_succ :
    Moves more k True (Stmt.shift k) (Grammar.loop (n + 1)) (Grammar.loop (n + 1)) := by
  refine (Moves.expect _ _).bind fun _ => ?_
  refine (expressionsMove n).expression.bindTo (fun condition => ?_) fun _ =>
    (Starts.expect _ _).bind
  refine (Moves.expect _ _).bind fun _ => ?_
  exact ih.statement.bind fun body => .pure (Stmt.loop condition body)

end StatementsMove

theorem statementsMove (hmore : Halts [.elseWord] more) (n : Nat) : StatementsMove more k n := by
  induction n with
  | zero => exact .zero
  | succ n ih =>
    exact ⟨Moves.recover ih.attempt_succ, ih.classDecl_succ, ih.methodList_succ, ih.function_succ,
      ih.block_succ, ih.statement_succ, ih.forLoop_succ, ih.branch_succ hmore, ih.loop_succ⟩

theorem attempt_moves (hmore : Halts [.elseWord] more) (n : Nat) :
    Moves more k True (Stmt.shift k) (attempt n) (attempt n) := by
  cases n with
  | zero => exact .failHere _
  | succ n => exact (statementsMove hmore n).attempt_succ

/-! ## Programs -/

/-- Ids from further up are all that changes. -/
theorem program_shift (n : Nat) :
    Moves [] k False (Stmt.shiftAll k) (program n) (program n) := by
  induction n with
  | zero => exact .pure []
  | succ n ih =>
    refine Moves.peek (fun next => ?_) False.elim
    cases next with
    | none => exact .pure []
    | some _ =>
      refine (statementsMove (halts_nil _) n).declaration.bind fun stmt => ih.bind fun rest => ?_
      rw [← Stmt.shiftAll_toList_append]
      exact .pure (stmt.toList ++ rest)

/-- A declaration without an error was read. -/
theorem attempt_of_clean {n : Nat} {c d : Cursor} {s : Option Stmt}
    (h : declaration n c = .ok s d) (hclean : d.errors = c.errors) :
    ∃ stmt, s = some stmt ∧ attempt n c = .ok stmt d := by
  rw [declaration_eq, recover] at h
  have hgives := attempt_passes n c
  cases ha : attempt n c with
  | ok stmt d' =>
    rw [ha] at h
    cases h
    exact ⟨stmt, rfl, rfl⟩
  | fail e d' =>
    rw [ha] at h
    cases h
    -- A failed declaration records its error, so that there is one more than before.
    have hlen := (hgives.of_fail ha).errors.length_le
    rw [← hclean, List.length_append] at hlen
    exact absurd hlen (Nat.not_succ_le_self _)

/-- A declaration that was read is read all the same before other tokens. -/
theorem declaration_before (hmore : Halts [.elseWord] more) {n : Nat} {c d : Cursor} {stmt : Stmt}
    (h : attempt n c = .ok stmt d) :
    declaration n (c.moved more 0) = .ok (some stmt) (d.moved more 0) := by
  have hmoves : Moves more 0 True (Stmt.shift 0) (attempt n) (attempt n) := attempt_moves hmore n
  have hmoved := hmoves.eq c (.inr (.inr ⟨trivial, stmt, d, h⟩))
  rw [h, Outcome.moved, stmt.shift_zero] at hmoved
  rw [declaration_eq, recover, hmoved]

/-- A program without an error, read before other tokens: its statements, and then what the other
tokens say. -/
theorem program_before (hmore : Halts [.elseWord] more) {n : Nat} {c d e : Cursor}
    {ss ss' : List Stmt} (hopen : ∀ t ∈ c.input, t.kind ≠ .eof)
    (hn : c.input.length + callBound (programTokens more).length ≤ n)
    (h : program n c = .ok ss d) (hclean : d.errors = c.errors)
    (hrest : program (callBound (programTokens more).length) ⟨more, d.nextId, c.errors⟩ =
      .ok ss' e) :
    program n (c.moved more 0) = .ok (ss ++ ss') e := by
  -- Along the declarations of the program: each is read as before, and the last one is followed by
  -- what the other tokens say, for which the bound still suffices.
  induction n generalizing c ss with
  | zero =>
    unfold callBound at hn
    omega
  | succ n ih =>
    have htokens : c.tokens = c.input := programTokens_of_open hopen
    by_cases hc : c.input = []
    · rw [program_nil (htokens.trans hc)] at h
      obtain ⟨rfl, rfl⟩ := Outcome.ok.inj h
      -- Nothing is left of the program, so the other tokens are read by themselves.
      have hmoved : c.moved more 0 = ⟨more, c.nextId, c.errors⟩ := by
        rw [Cursor.moved, hc, List.nil_append, Nat.add_zero]
      rw [hmoved, List.nil_append, ← hrest]
      exact program_eq_of_callBound_le (c := ⟨more, c.nextId, c.errors⟩)
        (Nat.le_trans (Nat.le_add_left _ _) hn)
    · obtain ⟨s, c₁, hs, hreach, hpast⟩ := declaration_passes n c
      obtain ⟨passed, -, hinput⟩ := hreach.input
      have hopen₁ : ∀ t ∈ c₁.input, t.kind ≠ .eof := fun t ht =>
        hopen t (hinput ▸ List.mem_append_right _ ht)
      have htokens₁ : c₁.tokens = c₁.input := programTokens_of_open hopen₁
      have hlen : c₁.tokens.length < c.tokens.length := hpast (htokens ▸ hc)
      rw [htokens, htokens₁] at hlen
      have hbound := lt_callBound (programTokens more).length
      obtain ⟨ss₁, d₁, hss, -⟩ := program_consumes (n := n) (c := c₁) (by rw [htokens₁]; omega)
      rw [program_cons (htokens ▸ hc) hs hss] at h
      cases h
      -- No error is taken back, so neither the declaration nor the rest has recorded any.
      obtain ⟨hc₁, hd⟩ := hreach.errors_eq ((program_read n c₁).of_ok hss).1 hclean
      obtain ⟨stmt, rfl, hattempt⟩ := attempt_of_clean hs hc₁
      have hafter := ih hopen₁ (by omega) hss hd (hc₁.symm ▸ hrest)
      have hne : (c.moved more 0).tokens ≠ [] := by
        show programTokens (c.input ++ more) ≠ []
        rw [programTokens_append_of_open hopen]
        exact List.append_ne_nil_of_left_ne_nil hc _
      rw [program_cons hne (declaration_before hmore hattempt) hafter, List.append_assoc]

end Grammar

/-! ## Token lists -/

/-- Ids from further up are all that changes with the first id. -/
theorem parse_shift (k : Nat) (tokens : List Token) :
    parse k tokens =
      ⟨Stmt.shiftAll k (parse 0 tokens).statements, (parse 0 tokens).errors,
        (parse 0 tokens).nextId + k⟩ := by
  -- No more tokens follow, so the rules move in every case, errors or not.
  obtain ⟨ss, d, h, -, hparse⟩ := exists_program tokens 0
  have hmoves : Grammar.Rule.Moves [] k False _ _ _ :=
    Grammar.program_shift (Grammar.callBound (programTokens tokens).length)
  have hmoved := hmoves.eq ⟨tokens, 0, []⟩ (.inl rfl)
  rw [h] at hmoved
  have hstart : Grammar.Cursor.moved [] k ⟨tokens, 0, []⟩ = ⟨tokens, k, []⟩ := by
    rw [Grammar.Cursor.moved, List.append_nil, Nat.zero_add]
  rw [hstart] at hmoved
  rw [hparse, parse_eq hmoved]
  rfl

/-- A program without an error is read independently of what follows it, unless that starts with
`else`: its statements come first, and everything else is what the rest says by itself, read with
the ids that are left. And a later first id only moves all ids up. -/
theorem parse_prefix_independent {tokens more : List Token} {finish : Token}
    (hopen : ∀ t ∈ tokens, t.kind ≠ .eof) (hfinish : finish.kind = .eof)
    (hclean : (parse 0 (tokens ++ [finish])).errors = [])
    (hmore : ∀ t ∈ more.head?, t.kind ≠ .elseWord) (k : NodeId) :
    (let first := parse k (tokens ++ [finish])
     let second := parse first.nextId more
     parse k (tokens ++ more) = ⟨first.statements ++ second.statements, second.errors,
       second.nextId⟩) ∧
    ∀ other : List Token,
      parse k other = ⟨Stmt.shiftAll k (parse 0 other).statements, (parse 0 other).errors,
        (parse 0 other).nextId + k⟩ := by
  refine ⟨?_, fun other => parse_shift k other⟩
  intro first second
  have hhalts : Halts [.elseWord] more := fun t ht hk => hmore t ht (List.mem_singleton.1 hk)
  have hnone : first.errors = [] := by
    rw [show first = _ from parse_shift k (tokens ++ [finish])]
    exact hclean
  -- Without its closing token the program says the same, and can be read on.
  have hprogram : programTokens tokens = programTokens (tokens ++ [finish]) := by
    rw [programTokens_of_open hopen, programTokens_closed hopen hfinish]
  obtain ⟨hstatements, hnext, herrors⟩ := parse_congr hprogram k
  rw [show (parse k (tokens ++ [finish])).errors = [] from hnone,
    List.forall₂_nil_left_iff] at herrors
  obtain ⟨ss, d, hread, -, hfirst⟩ := exists_program tokens k
  obtain ⟨ss', e, hrest, -, hsecond⟩ := exists_program more first.nextId
  rw [hfirst] at hstatements hnext herrors
  have hrest : Grammar.program (Grammar.callBound (programTokens more).length)
      ⟨more, d.nextId, []⟩ = .ok ss' e := by
    rw [show d.nextId = first.nextId from hnext]
    exact hrest
  -- The bound for the whole list suffices for its two parts.
  have hwhole : Grammar.program (Grammar.callBound (tokens ++ programTokens more).length)
      ⟨tokens ++ more, k, []⟩ = .ok (ss ++ ss') e := by
    rw [List.length_append]
    refine Grammar.program_before (c := ⟨tokens, k, []⟩) hhalts hopen
      (Grammar.add_callBound_le _ _) ?_ herrors hrest
    have hbound : Grammar.callBound (programTokens tokens).length ≤
        Grammar.callBound (tokens.length + (programTokens more).length) := by
      rw [programTokens_of_open hopen]
      exact Grammar.callBound_mono (Nat.le_add_right _ _)
    exact (Grammar.program_eq_of_callBound_le (c := ⟨tokens, k, []⟩) hbound).trans hread
  rw [← programTokens_append_of_open hopen] at hwhole
  rw [parse_eq hwhole, show second = _ from hsecond,
    show first.statements = _ from hstatements.symm]

/-- A condition without `else`, before a parenthesis that no statement starts with. -/
theorem parse_prefix_independent_after_if :
    let tokens : List Token := [⟨.ifWord, "if", none, 1⟩, ⟨.leftParen, "(", none, 1⟩,
      ⟨.identifier, "a", none, 1⟩, ⟨.rightParen, ")", none, 1⟩, ⟨.identifier, "b", none, 1⟩,
      ⟨.semicolon, ";", none, 1⟩]
    let more : List Token := [⟨.rightParen, ")", none, 2⟩]
    (parse 0 (tokens ++ [Token.endOfFile 1])).errors = [] ∧
      parse 3 (tokens ++ more) =
        ⟨(parse 3 (tokens ++ [Token.endOfFile 1])).statements ++ (parse 5 more).statements,
          (parse 5 more).errors, (parse 5 more).nextId⟩ := by
  intro tokens more
  have hclean : (parse 0 (tokens ++ [Token.endOfFile 1])).errors = [] := by decide +kernel
  have hnext : (parse 3 (tokens ++ [Token.endOfFile 1])).nextId = 5 := by decide +kernel
  have hboth := (@parse_prefix_independent tokens more _ (by decide) rfl hclean (by decide) 3).1
  simp only [hnext] at hboth
  exact ⟨hclean, hboth⟩

end Lox
