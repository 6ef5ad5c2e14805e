import Lox.Proofs.Grammar.Cursor
import Lox.Proofs.Grammar.Lookahead
import Lox.Proofs.Tree.Blank

/-!
# What is read follows the grammar

A rule that records no error has read what its line of the grammar says, and built the tree that
goes with it. The proof goes rule by rule, by induction on the bound for calls.

An assignment is read as its left side first. That this agrees with the grammar rests on two
facts: of the trees that a left side can have, only those of calls are variables and properties
(`Syntax.Chain.call`), and the last step of a call with the tree of a property is the property
(`Syntax.Postfix.last`).
-/

namespace Lox

namespace Syntax

/-! ## Left sides of assignments -/

/-- Trees that no operator has built. -/
def Simple : Expr → Prop
  | .unary _ _ | .binary _ _ _ | .logical _ _ _ => False
  | _ => True

theorem Joined.not_simple {left right e : Expr} {op : Token} (h : Joined left op right e) :
    ¬Simple e := by
  cases h <;> exact id

theorem Links.eq_of_simple {l : Grammar.Level} {left e : Expr} {ts rest : List Token} :
    Links l left ts e rest → Simple e → left = e ∧ ts = rest
  | .nil, _ => ⟨rfl, rfl⟩
  | .cons _ _ hj h, hs => by
    obtain ⟨rfl, -⟩ := h.eq_of_simple hs
    exact absurd hs hj.not_simple

theorem Unary.call_of_simple {ts rest : List Token} {e : Expr} (h : Unary ts e rest)
    (hs : Simple e) : Call ts e rest := by
  cases h with
  | operator => exact hs.elim
  | call h => exact h

mutual

/-- A tree that no operator has built is that of a call. -/
theorem Chain.call {l : Grammar.Level} {ts rest : List Token} {e : Expr} :
    Chain l ts e rest → Simple e → Call ts e rest
  | .mk ho hl, hs => by
    obtain ⟨rfl, rfl⟩ := hl.eq_of_simple hs
    exact Operand.call ho hs

theorem Operand.call {l : Grammar.Level} {ts rest : List Token} {e : Expr} :
    Operand l ts e rest → Simple e → Call ts e rest
  | .logicAnd h, hs | .equality h, hs | .comparison h, hs | .term h, hs | .factor h, hs =>
    Chain.call h hs
  | .unary h, hs => h.call_of_simple hs

end

/-- What the last step of a call can be. -/
theorem Postfix.last : {callee e : Expr} → {ts rest : List Token} → Postfix callee ts e rest →
    (callee = e ∧ ts = rest) ∨ (∃ f paren arguments, e = .call f paren arguments) ∨
      ∃ object name dot, e = .get object name ∧ dot.kind = .dot ∧ name.kind = .identifier ∧
        Postfix callee ts object (dot :: name :: rest)
  | _, _, _, _, .nil => .inl ⟨rfl, rfl⟩
  | _, _, _, _, .call hp hc h => by
    rcases h.last with ⟨rfl, -⟩ | hcall | ⟨object, name, dot, rfl, hd, hn, h'⟩
    · exact .inr (.inl ⟨_, _, _, rfl⟩)
    · exact .inr (.inl hcall)
    · exact .inr (.inr ⟨object, name, dot, rfl, hd, hn, .call hp hc h'⟩)
  | _, _, _, _, .callWith hp ha hc hlen h => by
    rcases h.last with ⟨rfl, -⟩ | hcall | ⟨object, name, dot, rfl, hd, hn, h'⟩
    · exact .inr (.inl ⟨_, _, _, rfl⟩)
    · exact .inr (.inl hcall)
    · exact .inr (.inr ⟨object, name, dot, rfl, hd, hn, .callWith hp ha hc hlen h'⟩)
  | _, _, _, _, .property hd hn h => by
    rcases h.last with ⟨rfl, rfl⟩ | hcall | ⟨object, name, dot, rfl, hd', hn', h'⟩
    · exact .inr (.inr ⟨_, _, _, rfl, hd, hn, .nil⟩)
    · exact .inr (.inl hcall)
    · exact .inr (.inr ⟨object, name, dot, rfl, hd', hn', .property hd hn h'⟩)

/-- A left side with the tree of a variable is the variable. -/
theorem Chain.of_var {l : Grammar.Level} {ts rest : List Token} {name : Token}
    (h : Chain l ts (.var 0 name) rest) : ts = name :: rest ∧ name.kind = .identifier := by
  cases h.call trivial with
  | mk hp hpost =>
    rcases hpost.last with ⟨rfl, rfl⟩ | ⟨_, _, _, hcall⟩ | ⟨_, _, _, hget, _⟩
    · cases hp with
      | identifier hk => exact ⟨rfl, hk⟩
    · cases hcall
    · cases hget

/-- A left side with the tree of a property is a call, a dot and a name. -/
theorem Chain.of_get {l : Grammar.Level} {ts rest : List Token} {object : Expr} {name : Token}
    (h : Chain l ts (.get object name) rest) :
    ∃ dot, Call ts object (dot :: name :: rest) ∧ dot.kind = .dot ∧ name.kind = .identifier := by
  cases h.call trivial with
  | mk hp hpost =>
    rcases hpost.last with ⟨rfl, rfl⟩ | ⟨_, _, _, hcall⟩ | ⟨_, _, dot, hget, hd, hn, h'⟩
    · cases hp
    · cases hcall
    · cases hget
      exact ⟨dot, .mk hp h', hd, hn⟩

/-! ## Operators -/

theorem operator_of_mem {l : Grammar.Level} {k : Kind} (h : k ∈ l.operators) : Operator l k := by
  cases l <;> simp only [Grammar.Level.operators, List.mem_cons, List.not_mem_nil, or_false] at h
  case disjunction => exact h ▸ .or
  case conjunction => exact h ▸ .and
  case equality => rcases h with rfl | rfl; exacts [.notEqual, .equal]
  case comparison =>
    rcases h with rfl | rfl | rfl | rfl
    exacts [.greater, .greaterEqual, .less, .lessEqual]
  case term => rcases h with rfl | rfl; exacts [.minus, .plus]
  case factor => rcases h with rfl | rfl; exacts [.star, .slash]

theorem mem_of_operator {l : Grammar.Level} {k : Kind} (h : Operator l k) : k ∈ l.operators := by
  cases h <;> decide

theorem joined_join {l : Grammar.Level} {op : Token} (h : Operator l op.kind)
    (left right : Expr) : Joined left op right (l.join left op right) := by
  generalize hk : op.kind = k at h
  cases h with
  | or => exact .logical (.inl hk)
  | and => exact .logical (.inr hk)
  | _ => exact .binary (by simp [hk]) (by simp [hk])

theorem Joined.eq_join {l : Grammar.Level} {op : Token} {left right both : Expr}
    (h : Joined left op right both) (hop : Operator l op.kind) :
    both = l.join left op right := by
  generalize hk : op.kind = k at hop
  cases h with
  | logical hword => cases hop <;> simp [hk] at hword <;> rfl
  | binary hor hand => cases hop <;> simp [hk] at hor hand <;> rfl

end Syntax

namespace Grammar

theorem Level.blank_join (l : Level) (left : Expr) (op : Token) (right : Expr) :
    (l.join left op right).blank = l.join left.blank op right.blank := by
  cases l <;> rfl

open Rule

/-! ## Expressions -/

/-- The rules for expressions read what the grammar says. -/
structure ExpressionsSound (n : Nat) : Prop where
  expression : ∀ c, (expression n).Reads c fun e d =>
    Syntax.Expression c.tokens e.blank d.tokens
  operand : ∀ l c, (operand n l).Reads c fun e d => Syntax.Operand l c.tokens e.blank d.tokens
  level : ∀ l c, (level n l).Reads c fun e d => Syntax.Chain l c.tokens e.blank d.tokens
  levelTail : ∀ l left c, (levelTail n l left).Reads c fun e d =>
    Syntax.Links l left.blank c.tokens e.blank d.tokens
  unary : ∀ c, (unary n).Reads c fun e d => Syntax.Unary c.tokens e.blank d.tokens
  callTail : ∀ callee c, (callTail n callee).Reads c fun e d =>
    Syntax.Postfix callee.blank c.tokens e.blank d.tokens
  arguments : ∀ c, (arguments n).Reads c fun es d => (es = [] ∧ d.tokens = c.tokens) ∨
    (Syntax.Arguments c.tokens (Expr.blankAll es) d.tokens ∧ es.length ≤ 255)
  argumentList : ∀ position c, (argumentList n position).Reads c fun es d =>
    Syntax.Arguments c.tokens (Expr.blankAll es) d.tokens ∧ position + es.length ≤ 255
  primary : ∀ c, (primary n).Reads c fun e d => Syntax.Primary c.tokens e.blank d.tokens

theorem assignTo_reads (target : Expr) (equals : Token) (value : Expr) (c : Cursor) :
    (assignTo target equals value).Reads c fun e d => d.tokens = c.tokens ∧
      ((∃ id name, target = .var id name ∧ e.blank = .assign 0 name value.blank) ∨
        ∃ object name, target = .get object name ∧
          e.blank = .set object.blank name value.blank) := by
  unfold assignTo
  split
  · next id name =>
    refine Reads.step Gives.freshId quiet_freshId ?_
    intro id' d h
    obtain ⟨-, -, htokens⟩ := h
    exact .pure ⟨htokens, .inl ⟨id, name, rfl, rfl⟩⟩
  · next object name => exact .pure ⟨rfl, .inr ⟨object, name, rfl, rfl⟩⟩
  · -- A wrong left side is recorded.
    refine Gives.bind (Gives.record _) fun _ d _ hne => Gives.pure fun he => absurd he hne

theorem superMethod_reads (keyword : Token) (c : Cursor) :
    (superMethod keyword).Reads c fun e d => ∃ dot method, c.tokens = dot :: method :: d.tokens ∧
      dot.kind = .dot ∧ method.kind = .identifier ∧ e.blank = .super 0 keyword method := by
  refine Reads.step (Gives.expect _ _) (quiet_expect _ _) ?_
  intro dot c₁ h
  obtain ⟨hdot, h₁⟩ := h
  refine Reads.step (Gives.expect _ _) (quiet_expect _ _) ?_
  intro method c₂ h
  obtain ⟨hmethod, h₂⟩ := h
  refine Reads.step Gives.freshId quiet_freshId ?_
  intro id d h
  obtain ⟨-, -, htokens⟩ := h
  exact .pure ⟨dot, method, by rw [h₁, h₂, htokens], hdot, hmethod, rfl⟩

theorem ofLiteral_reads {t : Token} (hk : t.kind = .number ∨ t.kind = .string) (c : Cursor) :
    (ofLiteral t).Reads c fun e d =>
      Syntax.Primary (t :: c.tokens) e.blank d.tokens := by
  unfold ofLiteral
  split
  · next value hl => exact .pure (.literal hk hl)
  · next value hl => exact .pure (.literal hk hl)
  · exact Gives.failAt _ _

namespace ExpressionsSound

theorem zero : ExpressionsSound 0 where
  expression _ := .failHere _
  operand _ _ := .failHere _
  level _ _ := .failHere _
  levelTail _ _ _ := .pure .nil
  unary _ := .failHere _
  callTail _ _ := .pure .nil
  arguments _ := .pure (.inl ⟨rfl, rfl⟩)
  argumentList _ _ := .failHere _
  primary _ := .failHere _

variable {n : Nat} (ih : ExpressionsSound n)
include ih

theorem expression_succ (c : Cursor) : (Grammar.expression (n + 1)).Reads c fun e d =>
    Syntax.Expression c.tokens e.blank d.tokens := by
  refine (ih.level _ c).bind fun target c₁ => ?_
  refine Reads.step (Gives.accept? _) (quiet_accept? _) ?_
  intro _ c₂ h
  rcases h with ⟨rfl, rfl, -⟩ | ⟨equals, rfl, hk, h₁⟩
  · exact .pure .logicOr
  -- The target was read as an expression, and only a variable or a property may stand there.
  · have hequals : equals.kind = .equal := List.mem_singleton.1 hk
    refine (ih.expression c₂).bind fun value c₃ => ?_
    refine (assignTo_reads target equals value c₃).mono ?_
    intro e d h hvalue htarget
    obtain ⟨htokens, hcase⟩ := h
    rw [htokens]
    rw [h₁] at htarget
    rcases hcase with ⟨id, name, rfl, he⟩ | ⟨object, name, rfl, he⟩
    · obtain ⟨hc, hname⟩ := htarget.of_var
      rw [hc, he]
      exact .assignVariable hname hequals hvalue
    · obtain ⟨dot, hcall, hdot, hname⟩ := htarget.of_get
      rw [he]
      exact .assignProperty hcall hdot hname hequals hvalue

theorem operand_succ (l : Level) (c : Cursor) : (Grammar.operand (n + 1) l).Reads c fun e d =>
    Syntax.Operand l c.tokens e.blank d.tokens := by
  cases l with
  | disjunction => exact (ih.level .conjunction c).mono fun _ _ => .logicAnd
  | conjunction => exact (ih.level .equality c).mono fun _ _ => .equality
  | equality => exact (ih.level .comparison c).mono fun _ _ => .comparison
  | comparison => exact (ih.level .term c).mono fun _ _ => .term
  | term => exact (ih.level .factor c).mono fun _ _ => .factor
  | factor => exact (ih.unary c).mono fun _ _ => .unary

theorem level_succ (l : Level) (c : Cursor) : (Grammar.level (n + 1) l).Reads c fun e d =>
    Syntax.Chain l c.tokens e.blank d.tokens := by
  refine (ih.operand l c).bind fun left d => ?_
  exact (ih.levelTail l left d).mono fun e d' hlinks hleft => .mk hleft hlinks

theorem levelTail_succ (l : Level) (left : Expr) (c : Cursor) :
    (Grammar.levelTail (n + 1) l left).Reads c fun e d =>
      Syntax.Links l left.blank c.tokens e.blank d.tokens := by
  refine Reads.step (Gives.accept? _) (quiet_accept? _) ?_
  intro _ c₁ h
  rcases h with ⟨rfl, rfl, -⟩ | ⟨op, rfl, hk, h₁⟩
  · exact .pure .nil
  · have hop := Syntax.operator_of_mem hk
    refine (ih.operand l c₁).bind fun right c₂ => ?_
    refine (ih.levelTail l _ c₂).mono fun e d hlinks hright => ?_
    -- The tail goes on from both sides joined, whose ids are blank as well.
    rw [Level.blank_join] at hlinks
    rw [h₁]
    exact .cons hop hright (Syntax.joined_join hop _ _) hlinks

theorem unary_succ (c : Cursor) : (Grammar.unary (n + 1)).Reads c fun e d =>
    Syntax.Unary c.tokens e.blank d.tokens := by
  refine Reads.step (Gives.accept? _) (quiet_accept? _) ?_
  intro _ c₁ h
  rcases h with ⟨rfl, rfl, -⟩ | ⟨op, rfl, hk, h₁⟩
  · refine (ih.primary _).bind fun callee d => ?_
    exact (ih.callTail callee d).mono fun e d' hpost hprimary => .call (.mk hprimary hpost)
  · refine (ih.unary c₁).bind fun right d => .pure fun hright => ?_
    rw [h₁]
    exact .operator (by simpa using hk) hright

theorem callTail_succ (callee : Expr) (c : Cursor) :
    (Grammar.callTail (n + 1) callee).Reads c fun e d =>
      Syntax.Postfix callee.blank c.tokens e.blank d.tokens := by
  refine Reads.step (Gives.accept? _) (quiet_accept? _) ?_
  intro _ c₁ h
  rcases h with ⟨rfl, rfl, -⟩ | ⟨paren, rfl, hk, h₁⟩
  · refine Reads.step (Gives.accept? _) (quiet_accept? _) ?_
    intro _ c₂ h
    rcases h with ⟨rfl, rfl, -⟩ | ⟨dot, rfl, hk, h₂⟩
    · exact .pure .nil
    · refine Reads.step (Gives.expect _ _) (quiet_expect _ _) ?_
      intro name c₃ h
      obtain ⟨hname, h₃⟩ := h
      refine (ih.callTail _ c₃).mono fun e d hpost => ?_
      rw [h₂, h₃]
      exact .property (List.mem_singleton.1 hk) hname hpost
  · have hparen : paren.kind = .leftParen := List.mem_singleton.1 hk
    refine (ih.arguments c₁).bind fun args c₂ => ?_
    refine Reads.step (Gives.expect _ _) (quiet_expect _ _) ?_
    intro close c₃ h
    obtain ⟨hclose, h₃⟩ := h
    refine (ih.callTail _ c₃).mono fun e d hpost hargs => ?_
    rw [h₁]
    -- Without arguments the closing parenthesis follows at once.
    rcases hargs with ⟨rfl, h₂⟩ | ⟨hargs, hlen⟩
    · rw [← h₂, h₃]
      exact .call hparen hclose hpost
    · rw [h₃] at hargs
      exact .callWith hparen hargs hclose ((Expr.length_blankAll args).symm ▸ hlen) hpost

theorem arguments_succ (c : Cursor) : (Grammar.arguments (n + 1)).Reads c fun es d =>
    (es = [] ∧ d.tokens = c.tokens) ∨
      (Syntax.Arguments c.tokens (Expr.blankAll es) d.tokens ∧ es.length ≤ 255) := by
  refine Reads.step Gives.peek? quiet_peek? ?_
  intro k _ h
  obtain ⟨rfl, -⟩ := h
  split
  · exact .pure (.inl ⟨rfl, rfl⟩)
  · refine (ih.argumentList 0 _).mono fun es d h => .inr ⟨h.1, ?_⟩
    simpa using h.2

theorem argumentList_succ (position : Nat) (c : Cursor) :
    (Grammar.argumentList (n + 1) position).Reads c fun es d =>
      Syntax.Arguments c.tokens (Expr.blankAll es) d.tokens ∧ position + es.length ≤ 255 := by
  rw [Grammar.argumentList]
  -- At the limit an error is recorded, and nothing is claimed; below it nothing has happened.
  refine Reads.recordIf fun c₁ h₁ => ?_
  refine (ih.expression c₁).bind fun argument c₂ => ?_
  refine Reads.step (Gives.accept? _) (quiet_accept? _) ?_
  intro _ c₃ h
  rcases h with ⟨rfl, rfl, -⟩ | ⟨comma, rfl, hk, h₃⟩
  · refine .pure fun harg hpos => ?_
    rw [h₁ hpos] at harg
    exact ⟨.last harg, Nat.lt_of_not_le hpos⟩
  · refine (ih.argumentList _ c₃).bind fun rest c₄ => .pure fun hrest harg hpos => ?_
    rw [h₁ hpos, h₃] at harg
    refine ⟨.cons harg (List.mem_singleton.1 hk) hrest.1, ?_⟩
    have hlen := hrest.2
    rw [List.length_cons]
    omega

theorem primary_succ (c : Cursor) : (Grammar.primary (n + 1)).Reads c fun e d =>
    Syntax.Primary c.tokens e.blank d.tokens := by
  refine Reads.step (Gives.accept? _) (quiet_accept? _) ?_
  intro _ c₁ h
  rcases h with ⟨rfl, rfl, -⟩ | ⟨t, rfl, hk, h₁⟩
  · exact .failHere _
  · rw [h₁]
    dsimp only
    -- By the kind of the token that was read.
    split
    · next hkind => exact .pure (.false hkind)
    · next hkind => exact .pure (.true hkind)
    · next hkind => exact .pure (.nil hkind)
    · next hkind =>
      refine (superMethod_reads t c₁).mono ?_
      intro e d h
      obtain ⟨dot, method, htokens, hdot, hmethod, he⟩ := h
      rw [htokens, he]
      exact .super hkind hdot hmethod
    · next hkind =>
      refine Reads.step Gives.freshId quiet_freshId ?_
      intro id d h
      obtain ⟨-, -, htokens⟩ := h
      exact .pure (htokens ▸ .this hkind)
    · next hkind =>
      refine Reads.step Gives.freshId quiet_freshId ?_
      intro id d h
      obtain ⟨-, -, htokens⟩ := h
      exact .pure (htokens ▸ .identifier hkind)
    · next hkind =>
      refine (ih.expression c₁).bind fun inner c₂ => ?_
      refine Reads.step (Gives.expect _ _) (quiet_expect _ _) ?_
      intro close d h
      obtain ⟨hclose, h₂⟩ := h
      exact .pure fun hinner => .grouping hkind (h₂ ▸ hinner) hclose
    · refine ofLiteral_reads ?_ c₁
      simp only [List.mem_cons, List.not_mem_nil, or_false] at hk
      tauto

end ExpressionsSound

theorem expressionsSound (n : Nat) : ExpressionsSound n := by
  induction n with
  | zero => exact .zero
  | succ n ih =>
    exact ⟨ih.expression_succ, ih.operand_succ, ih.level_succ, ih.levelTail_succ, ih.unary_succ,
      ih.callTail_succ, ih.arguments_succ, ih.argumentList_succ, ih.primary_succ⟩

/-! ## Statements -/

/-- A statement of the strict grammar that takes every `else` it could: if it is open, then no
`else` follows. -/
def FullStatement (ts : List Token) (s : Stmt) (rest : List Token) : Prop :=
  ∃ isOpen, Syntax.Statement true isOpen ts s rest ∧
    (isOpen = true → ∀ t ∈ rest.head?, t.kind ≠ .elseWord)

theorem FullStatement.of_closed {ts rest : List Token} {s : Stmt}
    (h : Syntax.Statement true false ts s rest) : FullStatement ts s rest :=
  ⟨false, h, nofun⟩

/-- The rules for statements read what the strict grammar says. -/
structure StatementsSound (n : Nat) : Prop where
  declaration : ∀ c, (declaration n).Reads c fun s d => ∃ x, s = some x ∧
    Syntax.Declaration true c.tokens x.blank d.tokens
  classDecl : ∀ word c, word.kind = .classWord → (classDecl n).Reads c fun s d =>
    Syntax.Declaration true (word :: c.tokens) s.blank d.tokens
  methodList : ∀ c, (methodList n).Reads c fun fs d => ∃ close, close.kind = .rightBrace ∧
    Syntax.Functions true c.tokens (FunctionDecl.blankAll fs) (close :: d.tokens)
  function : ∀ role c, (function n role).Reads c fun f d =>
    Syntax.Function true c.tokens f.blank d.tokens
  block : ∀ c, (block n).Reads c fun ss d => ∃ close, close.kind = .rightBrace ∧
    Syntax.Declarations true c.tokens (Stmt.blankAll ss) (close :: d.tokens)
  statement : ∀ c, (statement n).Reads c fun s d => FullStatement c.tokens s.blank d.tokens
  forLoop : ∀ word c, word.kind = .forWord → (forLoop n).Reads c fun s d =>
    FullStatement (word :: c.tokens) s.blank d.tokens
  branch : ∀ word c, word.kind = .ifWord → (branch n).Reads c fun s d =>
    FullStatement (word :: c.tokens) s.blank d.tokens
  loop : ∀ word c, word.kind = .whileWord → (loop n).Reads c fun s d =>
    FullStatement (word :: c.tokens) s.blank d.tokens

theorem exprUntil_reads (kind : Kind) (n : Nat) (c : Cursor) :
    (exprUntil kind n).Reads c fun e d =>
      Syntax.OptExpression c.tokens (e.map Expr.blank) d.tokens := by
  refine Reads.step Gives.peek? quiet_peek? ?_
  intro k _ h
  obtain ⟨rfl, -⟩ := h
  split
  · exact .pure .none
  · exact ((expressionsSound n).expression _).map fun _ _ h => .some h

theorem paramList_reads (n position : Nat) (c : Cursor) :
    (paramList n position).Reads c fun names d =>
      Syntax.Parameters c.tokens names d.tokens ∧ position + names.length ≤ 255 := by
  induction n generalizing position c with
  | zero => exact .failHere _
  | succ n ih =>
    rw [paramList]
    refine Reads.recordIf fun c₁ h₁ => ?_
    refine Reads.step (Gives.expect _ _) (quiet_expect _ _) ?_
    intro param c₂ h
    obtain ⟨hparam, h₂⟩ := h
    refine Reads.step (Gives.accept? _) (quiet_accept? _) ?_
    intro _ c₃ h
    rcases h with ⟨rfl, rfl, -⟩ | ⟨comma, rfl, hk, h₃⟩
    · refine .pure fun hpos => ?_
      rw [← h₁ hpos, h₂]
      exact ⟨.last hparam, Nat.lt_of_not_le hpos⟩
    · refine (ih _ c₃).bind fun rest d => .pure fun hrest hpos => ?_
      rw [← h₁ hpos, h₂, h₃]
      refine ⟨.cons hparam (List.mem_singleton.1 hk) hrest.1, ?_⟩
      have hlen := hrest.2
      rw [List.length_cons]
      omega

theorem params_reads (n : Nat) (c : Cursor) : (params n).Reads c fun names d =>
    Syntax.OptParameters c.tokens names d.tokens := by
  refine Reads.step Gives.peek? quiet_peek? ?_
  intro k _ h
  obtain ⟨rfl, -⟩ := h
  split
  · exact .pure .none
  · refine (paramList_reads n 0 _).mono fun names d h => .some h.1 ?_
    simpa using h.2

theorem varDecl_reads {word : Token} (hword : word.kind = .varWord) (n : Nat) (c : Cursor) :
    (varDecl n).Reads c fun s d => Syntax.VarDecl (word :: c.tokens) s.blank d.tokens := by
  refine Reads.step (Gives.expect _ _) (quiet_expect _ _) ?_
  intro name c₁ h
  obtain ⟨hname, h₁⟩ := h
  refine Reads.step (Gives.accept? _) (quiet_accept? _) ?_
  intro _ c₂ h
  rcases h with ⟨rfl, rfl, -⟩ | ⟨equals, rfl, hk, h₂⟩
  · refine Reads.step (Q := fun e d => e = none ∧ d = c₂) (.pure ⟨rfl, rfl⟩) (quiet_pure _) ?_
    intro _ _ h
    obtain ⟨rfl, rfl⟩ := h
    refine Reads.step (Gives.expect _ _) (quiet_expect _ _) ?_
    intro semicolon d h
    obtain ⟨hsemicolon, hd⟩ := h
    rw [h₁, hd]
    exact .pure (.bare hword hname hsemicolon)
  -- The rule wraps the value, so that it can be absent; the grammar tells the two forms apart.
  · have hvalue := ((expressionsSound n).expression c₂).map (g := some)
      (R := fun e d => ∃ x, e = some x ∧ Syntax.Expression c₂.tokens x.blank d.tokens)
      fun e _ h => ⟨e, rfl, h⟩
    refine hvalue.bind fun value c₃ => ?_
    refine Reads.step (Gives.expect _ _) (quiet_expect _ _) ?_
    intro semicolon d h
    obtain ⟨hsemicolon, hd⟩ := h
    refine .pure ?_
    intro h
    obtain ⟨e, rfl, he⟩ := h
    rw [h₁, h₂]
    exact .initialized hword hname (List.mem_singleton.1 hk) (hd ▸ he) hsemicolon

theorem expressionStatement_reads (n : Nat) (c : Cursor) :
    (expressionStatement n).Reads c fun s d => Syntax.ExprStmt c.tokens s.blank d.tokens := by
  refine ((expressionsSound n).expression c).bind fun e c₁ => ?_
  refine Reads.step (Gives.expect _ _) (quiet_expect _ _) ?_
  intro semicolon d h
  obtain ⟨hsemicolon, hd⟩ := h
  exact .pure fun he => .mk (hd ▸ he) hsemicolon

theorem printStatement_reads {word : Token} (hword : word.kind = .printWord) (n : Nat)
    (c : Cursor) : (printStatement n).Reads c fun s d =>
      FullStatement (word :: c.tokens) s.blank d.tokens := by
  refine ((expressionsSound n).expression c).bind fun e c₁ => ?_
  refine Reads.step (Gives.expect _ _) (quiet_expect _ _) ?_
  intro semicolon d h
  obtain ⟨hsemicolon, hd⟩ := h
  exact .pure fun he => .of_closed (.printStmt hword (hd ▸ he) hsemicolon)

theorem returnStatement_reads {word : Token} (hword : word.kind = .returnWord) (n : Nat)
    (c : Cursor) : (returnStatement word n).Reads c fun s d =>
      FullStatement (word :: c.tokens) s.blank d.tokens := by
  refine (exprUntil_reads _ n c).bind fun e c₁ => ?_
  refine Reads.step (Gives.expect _ _) (quiet_expect _ _) ?_
  intro semicolon d h
  obtain ⟨hsemicolon, hd⟩ := h
  exact .pure fun he => .of_closed (.returnStmt hword (hd ▸ he) hsemicolon)

theorem forInitializer_reads (n : Nat) (c : Cursor) : (forInitializer n).Reads c fun s d =>
    Syntax.ForStart c.tokens (s.map Stmt.blank) d.tokens := by
  refine Reads.step (Gives.accept? _) (quiet_accept? _) ?_
  intro _ c₁ h
  rcases h with ⟨rfl, rfl, -⟩ | ⟨semicolon, rfl, hk, h₁⟩
  · refine Reads.step (Gives.accept? _) (quiet_accept? _) ?_
    intro _ c₂ h
    rcases h with ⟨rfl, rfl, -⟩ | ⟨word, rfl, hk, h₂⟩
    · exact (expressionStatement_reads n _).map fun _ _ h => .exprStmt h
    · rw [h₂]
      exact (varDecl_reads (List.mem_singleton.1 hk) n c₂).map fun _ _ h => .varDecl h
  · rw [h₁]
    exact .pure (.none (List.mem_singleton.1 hk))

theorem superclass_reads (c : Cursor) : superclass.Reads c fun e d =>
    Syntax.Superclass c.tokens (e.map Expr.blank) d.tokens := by
  refine Reads.step (Gives.accept? _) (quiet_accept? _) ?_
  intro _ c₁ h
  rcases h with ⟨rfl, rfl, -⟩ | ⟨less, rfl, hk, h₁⟩
  · exact .pure .none
  · refine Reads.step (Gives.expect _ _) (quiet_expect _ _) ?_
    intro name c₂ h
    obtain ⟨hname, h₂⟩ := h
    refine Reads.step Gives.freshId quiet_freshId ?_
    intro id d h
    obtain ⟨-, -, htokens⟩ := h
    rw [h₁, h₂, ← htokens]
    exact .pure (.some (List.mem_singleton.1 hk) hname)

/-- What the branches of a declaration read. -/
theorem declarationBody_reads {n : Nat} (ih : StatementsSound n) {word : Token}
    (hk : word.kind ∈ [Kind.classWord, .funWord, .varWord]) (c : Cursor) :
    Reads (match word.kind with
      | .classWord => classDecl n
      | .funWord => .funDecl <$> function n .function
      | _ => varDecl n) c fun s d =>
      Syntax.Declaration true (word :: c.tokens) s.blank d.tokens := by
  split
  · next hkind => exact ih.classDecl word c hkind
  · next hkind => exact (ih.function _ c).map fun _ _ h => .funDecl hkind h
  · have hvar : word.kind = .varWord := by
      simp only [List.mem_cons, List.not_mem_nil, or_false] at hk
      tauto
    exact (varDecl_reads hvar n c).mono fun _ _ h => .varDecl h

namespace StatementsSound

theorem zero : StatementsSound 0 where
  declaration _ := Reads.recover (.failHere _)
  classDecl _ _ _ := .failHere _
  methodList _ := .failHere _
  function _ _ := .failHere _
  block _ := .failHere _
  statement _ := .failHere _
  forLoop _ _ _ := .failHere _
  branch _ _ _ := .failHere _
  loop _ _ _ := .failHere _

variable {n : Nat} (ih : StatementsSound n)
include ih

theorem declaration_succ (c : Cursor) : (Grammar.declaration (n + 1)).Reads c fun s d =>
    ∃ x, s = some x ∧ Syntax.Declaration true c.tokens x.blank d.tokens := by
  refine Reads.recover (Reads.step (Gives.accept? _) (quiet_accept? _) ?_)
  intro _ c₁ h
  rcases h with ⟨rfl, rfl, -⟩ | ⟨word, rfl, hk, h₁⟩
  · refine (ih.statement _).mono ?_
    intro s d h
    obtain ⟨isOpen, h, -⟩ := h
    exact .statement h
  · rw [h₁]
    exact declarationBody_reads ih hk c₁

theorem classDecl_succ (word : Token) (c : Cursor) (hword : word.kind = .classWord) :
    (Grammar.classDecl (n + 1)).Reads c fun s d =>
      Syntax.Declaration true (word :: c.tokens) s.blank d.tokens := by
  refine Reads.step (Gives.expect _ _) (quiet_expect _ _) ?_
  intro name c₁ h
  obtain ⟨hname, h₁⟩ := h
  refine (superclass_reads c₁).bind fun superclass c₂ => ?_
  refine Reads.step (Gives.expect _ _) (quiet_expect _ _) ?_
  intro brace c₃ h
  obtain ⟨hbrace, h₃⟩ := h
  refine (ih.methodList c₃).bind fun methods d => .pure ?_
  intro h hsuper
  obtain ⟨close, hclose, hmethods⟩ := h
  rw [h₁]
  exact .classDecl hword hname (h₃ ▸ hsuper) hbrace hmethods hclose

theorem methodList_succ (c : Cursor) : (Grammar.methodList (n + 1)).Reads c fun fs d =>
    ∃ close, close.kind = .rightBrace ∧
      Syntax.Functions true c.tokens (FunctionDecl.blankAll fs) (close :: d.tokens) := by
  have hend : Reads (do
      let _ ← expect .rightBrace .classClose
      Pure.pure ([] : List FunctionDecl)) c fun fs d => ∃ close, close.kind = .rightBrace ∧
        Syntax.Functions true c.tokens (FunctionDecl.blankAll fs) (close :: d.tokens) := by
    refine Reads.step (Gives.expect _ _) (quiet_expect _ _) ?_
    intro close d h
    obtain ⟨hclose, hd⟩ := h
    exact .pure ⟨close, hclose, hd ▸ .nil⟩
  refine Reads.step Gives.peek? quiet_peek? ?_
  intro k _ h
  obtain ⟨rfl, -⟩ := h
  split
  · exact hend
  · exact hend
  · refine (ih.function _ _).bind fun f c₁ => ?_
    refine (ih.methodList c₁).bind fun fs d => .pure ?_
    intro h hf
    obtain ⟨close, hclose, hfs⟩ := h
    exact ⟨close, hclose, .cons hf hfs⟩

theorem function_succ (role : FunctionRole) (c : Cursor) :
    (Grammar.function (n + 1) role).Reads c fun f d =>
      Syntax.Function true c.tokens f.blank d.tokens := by
  refine Reads.step (Gives.expect _ _) (quiet_expect _ _) ?_
  intro name c₁ h
  obtain ⟨hname, h₁⟩ := h
  refine Reads.step (Gives.expect _ _) (quiet_expect _ _) ?_
  intro paren c₂ h
  obtain ⟨hparen, h₂⟩ := h
  refine (params_reads n c₂).bind fun params c₃ => ?_
  refine Reads.step (Gives.expect _ _) (quiet_expect _ _) ?_
  intro close c₄ h
  obtain ⟨hclose, h₄⟩ := h
  refine Reads.step (Gives.expect _ _) (quiet_expect _ _) ?_
  intro brace c₅ h
  obtain ⟨hbrace, h₅⟩ := h
  refine (ih.block c₅).bind fun body d => .pure ?_
  intro h hparams
  obtain ⟨last, hlast, hbody⟩ := h
  rw [h₁, h₂]
  rw [h₄, h₅] at hparams
  exact .mk hname hparen hparams hclose (.mk hbrace hbody hlast)

theorem block_succ (c : Cursor) : (Grammar.block (n + 1)).Reads c fun ss d =>
    ∃ close, close.kind = .rightBrace ∧
      Syntax.Declarations true c.tokens (Stmt.blankAll ss) (close :: d.tokens) := by
  have hend : Reads (do
      let _ ← expect .rightBrace .blockClose
      Pure.pure ([] : List Stmt)) c fun ss d => ∃ close, close.kind = .rightBrace ∧
        Syntax.Declarations true c.tokens (Stmt.blankAll ss) (close :: d.tokens) := by
    refine Reads.step (Gives.expect _ _) (quiet_expect _ _) ?_
    intro close d h
    obtain ⟨hclose, hd⟩ := h
    exact .pure ⟨close, hclose, hd ▸ .nil⟩
  refine Reads.step Gives.peek? quiet_peek? ?_
  intro k _ h
  obtain ⟨rfl, -⟩ := h
  split
  · exact hend
  · exact hend
  · refine (ih.declaration _).bind fun s c₁ => ?_
    refine (ih.block c₁).bind fun ss d => .pure ?_
    intro h h'
    obtain ⟨close, hclose, hss⟩ := h
    obtain ⟨x, rfl, hx⟩ := h'
    exact ⟨close, hclose, .cons hx hss⟩

theorem statement_succ (c : Cursor) : (Grammar.statement (n + 1)).Reads c fun s d =>
    FullStatement c.tokens s.blank d.tokens := by
  refine Reads.step (Gives.accept? _) (quiet_accept? _) ?_
  intro _ c₁ h
  rcases h with ⟨rfl, rfl, -⟩ | ⟨word, rfl, hk, h₁⟩
  · exact (expressionStatement_reads n _).mono fun _ _ h => .of_closed (.exprStmt h)
  · rw [h₁]
    dsimp only
    split
    · next hkind => exact ih.forLoop word c₁ hkind
    · next hkind => exact ih.branch word c₁ hkind
    · next hkind => exact ih.loop word c₁ hkind
    · next hkind => exact returnStatement_reads hkind n c₁
    · next hkind =>
      refine (ih.block c₁).map ?_
      intro ss d h
      obtain ⟨close, hclose, hss⟩ := h
      exact .of_closed (.block (.mk hkind hss hclose))
    · have hprint : word.kind = .printWord := by
        simp only [List.mem_cons, List.not_mem_nil, or_false] at hk
        tauto
      exact printStatement_reads hprint n c₁

theorem forLoop_succ (word : Token) (c : Cursor) (hword : word.kind = .forWord) :
    (Grammar.forLoop (n + 1)).Reads c fun s d =>
      FullStatement (word :: c.tokens) s.blank d.tokens := by
  refine Reads.step (Gives.expect _ _) (quiet_expect _ _) ?_
  intro paren c₁ h
  obtain ⟨hparen, h₁⟩ := h
  refine (forInitializer_reads n c₁).bind fun start c₂ => ?_
  refine (exprUntil_reads _ n c₂).bind fun condition c₃ => ?_
  refine Reads.step (Gives.expect _ _) (quiet_expect _ _) ?_
  intro semicolon c₄ h
  obtain ⟨hsemicolon, h₄⟩ := h
  refine (exprUntil_reads _ n c₄).bind fun step c₅ => ?_
  refine Reads.step (Gives.expect _ _) (quiet_expect _ _) ?_
  intro close c₆ h
  obtain ⟨hclose, h₆⟩ := h
  refine (ih.statement c₆).bind fun body d => .pure ?_
  intro h hstep hcondition hstart
  obtain ⟨isOpen, hbody, helse⟩ := h
  rw [h₁]
  exact ⟨isOpen, .forStmt hword hparen hstart (h₄ ▸ hcondition) hsemicolon (h₆ ▸ hstep) hclose
    hbody (Syntax.forTree_iff.2 (Stmt.blank_forLoop ..)), helse⟩

theorem branch_succ (word : Token) (c : Cursor) (hword : word.kind = .ifWord) :
    (Grammar.branch (n + 1)).Reads c fun s d =>
      FullStatement (word :: c.tokens) s.blank d.tokens := by
  refine Reads.step (Gives.expect _ _) (quiet_expect _ _) ?_
  intro paren c₁ h
  obtain ⟨hparen, h₁⟩ := h
  refine ((expressionsSound n).expression c₁).bind fun condition c₂ => ?_
  refine Reads.step (Gives.expect _ _) (quiet_expect _ _) ?_
  intro close c₃ h
  obtain ⟨hclose, h₃⟩ := h
  refine (ih.statement c₃).bind fun body c₄ => ?_
  refine Reads.step (Gives.accept? _) (quiet_accept? _) ?_
  intro _ c₅ h
  rcases h with ⟨rfl, rfl, hnone⟩ | ⟨other, rfl, hk, h₅⟩
  · refine .pure ?_
    intro h hcondition
    obtain ⟨isOpen, hbody, -⟩ := h
    rw [h₁]
    refine ⟨true, .ifStmt hword hparen (h₃ ▸ hcondition) hclose hbody, fun _ t ht => ?_⟩
    exact fun helse => hnone t ht (List.mem_singleton.2 helse)
  · have hother : other.kind = .elseWord := List.mem_singleton.1 hk
    refine (ih.statement c₅).bind fun body' d => .pure ?_
    intro h h' hcondition
    obtain ⟨isOpen', hbody', helse'⟩ := h
    obtain ⟨isOpen, hbody, helse⟩ := h'
    rw [h₅] at hbody helse
    -- An open body would have taken the `else` itself.
    have hclosed : isOpen = false := by
      cases isOpen with
      | false => rfl
      | true => exact absurd hother (helse rfl other rfl)
    rw [h₁]
    exact ⟨isOpen', .ifElse hword hparen (h₃ ▸ hcondition) hclose hbody (fun _ => hclosed) hother
      hbody', helse'⟩

theorem loop_succ (word : Token) (c : Cursor) (hword : word.kind = .whileWord) :
    (Grammar.loop (n + 1)).Reads c fun s d =>
      FullStatement (word :: c.tokens) s.blank d.tokens := by
  refine Reads.step (Gives.expect _ _) (quiet_expect _ _) ?_
  intro paren c₁ h
  obtain ⟨hparen, h₁⟩ := h
  refine ((expressionsSound n).expression c₁).bind fun condition c₂ => ?_
  refine Reads.step (Gives.expect _ _) (quiet_expect _ _) ?_
  intro close c₃ h
  obtain ⟨hclose, h₃⟩ := h
  refine (ih.statement c₃).bind fun body d => .pure ?_
  intro h hcondition
  obtain ⟨isOpen, hbody, helse⟩ := h
  rw [h₁]
  exact ⟨isOpen, .whileStmt hword hparen (h₃ ▸ hcondition) hclose hbody, helse⟩

end StatementsSound

theorem statementsSound (n : Nat) : StatementsSound n := by
  induction n with
  | zero => exact .zero
  | succ n ih =>
    exact ⟨ih.declaration_succ, ih.classDecl_succ, ih.methodList_succ, ih.function_succ,
      ih.block_succ, ih.statement_succ, ih.forLoop_succ, ih.branch_succ, ih.loop_succ⟩

/-! ## Programs -/

/-- With more calls than tokens the end is reached, since every declaration takes a token. -/
theorem program_reads (n : Nat) (c : Cursor) : (program n).Reads c fun ss _ =>
    c.tokens.length < n → Syntax.Program true c.tokens (Stmt.blankAll ss) := by
  induction n generalizing c with
  | zero => exact .pure fun hn => absurd hn (Nat.not_lt_zero _)
  | succ n ih =>
    refine Reads.step Gives.peek? quiet_peek? ?_
    intro k _ h
    obtain ⟨rfl, hk⟩ := h
    subst hk
    split
    · next hnone =>
      refine .pure fun _ => ?_
      rw [List.head?_eq_none_iff.1 (Option.map_eq_none_iff.1 hnone)]
      exact .nil
    · refine ((statementsSound n).declaration _).bind fun s c₁ => ?_
      refine (ih c₁).bind fun ss d => .pure ?_
      intro hss h hn
      obtain ⟨x, rfl, hx⟩ := h
      have hlen := hx.front.length_lt
      exact .cons hx (hss (by omega))

end Grammar

end Lox
