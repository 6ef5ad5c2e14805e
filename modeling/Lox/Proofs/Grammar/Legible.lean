import Lox.Proofs.Grammar.Language
import Lox.Proofs.Tree.Unplaced

/-!
# The trees of sources without strings

A tree holds tokens of the source that it was read from, and the grammar says of which kind each of
them is. So if the source has no strings and its numbers are finite, then the tree is legible
(`Part.Legible`): its nodes are known from what is printed of them.

The induction is on the derivation in the grammar. `Held` says that some parts come from the tokens
between two places of a list; it has one rule for each way in which the grammar puts tokens and
parts together, so each rule of the grammar is one composition.

Main statement: `PlainSource.legible`.
-/

namespace Lox

/-- A token that its text tells: a lexeme, but no string, and if it is a number then a finite one.
-/
structure Token.IsPlain (t : Token) : Prop where
  lexeme : t.IsLexeme
  not_string : t.kind ≠ .string
  number : ∀ x, t.literal = some (.number x) → Number.IsPlain x

namespace Syntax

/-- What remains is part of the tokens, and the parts are legible if the tokens are plain. -/
structure Held (ts rest : List Token) (parts : List Part) : Prop where
  subset : ∀ t ∈ rest, t ∈ ts
  legible : (∀ t ∈ ts, t.IsPlain) → ∀ part ∈ parts, part.Legible

namespace Held

variable {ts ts' rest : List Token} {t : Token} {part : Part} {parts more : List Part}

theorem nil : Held ts ts [] := ⟨fun _ => id, fun _ => nofun⟩

/-- A token in front. -/
theorem skip (h : Held ts rest parts) : Held (t :: ts) rest parts where
  subset u hu := List.mem_cons_of_mem t (h.subset u hu)
  legible hplain := h.legible fun u hu => hplain u (List.mem_cons_of_mem t hu)

/-- A token behind. -/
theorem stop (h : Held ts (t :: rest) parts) : Held ts rest parts where
  subset u hu := h.subset u (List.mem_cons_of_mem t hu)
  legible := h.legible

theorem append (h : Held ts ts' parts) (h' : Held ts' rest more) :
    Held ts rest (parts ++ more) where
  subset u hu := h.subset u (h'.subset u hu)
  legible hplain part hp := by
    rcases List.mem_append.1 hp with hp | hp
    · exact h.legible hplain part hp
    · exact h'.legible (fun u hu => hplain u (h.subset u hu)) part hp

/-- A part around others. -/
theorem node (h : Held ts rest parts) (hparts : ∀ inner ∈ part.parts, inner ∈ parts)
    (hown : (∀ t ∈ ts, t.IsPlain) → part.IsLegible) : Held ts rest [part] where
  subset := h.subset
  legible hplain := by
    refine List.forall_mem_singleton.2 (.node (hown hplain) fun inner hi => ?_)
    exact h.legible hplain inner (hparts inner hi)

/-- A part that holds no token, around others. -/
theorem wrap (h : Held ts rest parts) (hparts : ∀ inner ∈ part.parts, inner ∈ parts)
    (hown : part.IsLegible) : Held ts rest [part] :=
  h.node hparts fun _ => hown

/-- A part that holds the token in front, around others. -/
theorem marked (h : Held ts rest parts) (hparts : ∀ inner ∈ part.parts, inner ∈ parts)
    (hown : t.IsPlain → part.IsLegible) : Held (t :: ts) rest [part] :=
  h.skip.node hparts fun hplain => hown (hplain t List.mem_cons_self)

/-- A part that holds the token behind, around others. -/
theorem closed (h : Held ts (t :: rest) parts) (hparts : ∀ inner ∈ part.parts, inner ∈ parts)
    (hown : t.IsPlain → part.IsLegible) : Held ts rest [part] :=
  h.stop.node hparts fun hplain => hown (hplain t (h.subset t List.mem_cons_self))

theorem param (ht : t.kind = .identifier) : Held (t :: ts) ts [.param t] :=
  nil.marked nofun fun hplain => hplain.lexeme.isIdentifier ht

/-- The loop that stands for a `for`. -/
theorem forLoop {ts₁ ts₂ ts₃ : List Token} {start : Option Stmt} {condition step : Option Expr}
    {body : Stmt} (hstart : Held ts ts₁ (start.toList.map .stmt))
    (hcondition : Held ts₁ ts₂ (condition.toList.map .expr))
    (hstep : Held ts₂ ts₃ (step.toList.map .expr)) (hbody : Held ts₃ rest [.stmt body]) :
    Held ts rest [.stmt (.forLoop start condition step body)] := by
  have hcondition' : Held ts₁ ts₂ [.expr (condition.getD (.constant (.bool true)))] := by
    cases condition with
    | none => exact hcondition.wrap nofun trivial
    | some condition => exact hcondition
  have hloop : Held ts₁ rest [.stmt (.forLoop none condition step body)] := by
    cases step with
    | none => exact (hcondition'.append (hstep.append hbody)).wrap (fun _ => id) trivial
    | some step =>
      have hincrement : Held ts₂ ts₃ [.stmt (.expression step)] := hstep.wrap (fun _ => id) trivial
      have hboth : Held ts₂ rest [.stmt (.block [body, .expression step])] :=
        (hincrement.append hbody).wrap (fun _ => List.mem_reverse.2) trivial
      exact (hcondition'.append hboth).wrap (fun _ => id) trivial
  cases start with
  | none => exact hstart.append hloop
  | some start => exact (hstart.append hloop).wrap (fun _ => id) trivial

end Held

/-! ## Expressions -/

theorem constant_isLegible {t : Token} {value : Literal} (ht : t.IsPlain)
    (hvalue : t.literal = some value) : (Part.expr (.constant (constant value))).IsLegible := by
  cases value with
  | number x => exact ht.number x hvalue
  | text w => exact absurd (ht.lexeme.string hvalue) ht.not_string

/-- The operators of all levels but two give binary expressions. -/
theorem Operator.binary {l : Grammar.Level} {k : Kind} (h : Operator l k) (hor : k ≠ .orWord)
    (hand : k ≠ .andWord) : k ∈ Grammar.binaryOperators ∧ k.text?.isSome := by
  cases h with
  | or => exact absurd rfl hor
  | and => exact absurd rfl hand
  | _ => decide

theorem Joined.held {l : Grammar.Level} {ts ts' rest : List Token} {left right both : Expr}
    {op : Token} (hop : Operator l op.kind) (hj : Joined left op right both)
    (hleft : Held ts (op :: ts') [.expr left]) (hright : Held ts' rest [.expr right]) :
    Held ts rest [.expr both] := by
  have hparts := hleft.stop.append hright
  have hmem : op ∈ ts := hleft.subset op List.mem_cons_self
  cases hj with
  | logical hk =>
    refine hparts.node (fun _ => id) fun hplain => ?_
    exact hk.imp ((hplain op hmem).lexeme.is · rfl) ((hplain op hmem).lexeme.is · rfl)
  | binary hor hand =>
    refine hparts.node (fun _ => id) fun hplain => ?_
    obtain ⟨hbinary, htext⟩ := hop.binary hor hand
    exact ⟨op.kind, hbinary, (hplain op hmem).lexeme.is rfl htext⟩

mutual

theorem Expression.held {ts rest : List Token} {e : Expr} :
    Expression ts e rest → Held ts rest [.expr e]
  | .assignVariable hname _ h =>
    h.held.skip.marked (fun _ => id) fun ht => ht.lexeme.isIdentifier hname
  | .assignProperty h _ hname _ h' =>
    (h.held.stop.append h'.held.skip.skip).node (fun _ => List.mem_reverse.2) fun hplain =>
      (hplain _ (h.held.stop.subset _ List.mem_cons_self)).lexeme.isIdentifier hname
  | .logicOr h => h.held

theorem Chain.held {l : Grammar.Level} {ts rest : List Token} {e : Expr} :
    Chain l ts e rest → Held ts rest [.expr e]
  | .mk h hs => hs.held h.held

theorem Operand.held {l : Grammar.Level} {ts rest : List Token} {e : Expr} :
    Operand l ts e rest → Held ts rest [.expr e]
  | .logicAnd h | .equality h | .comparison h | .term h | .factor h => h.held
  | .unary h => h.held

theorem Links.held {l : Grammar.Level} {left e : Expr} {ts ts' rest : List Token} :
    Links l left ts' e rest → Held ts ts' [.expr left] → Held ts rest [.expr e]
  | .nil, hleft => hleft
  | .cons hop h hj hs, hleft => hs.held (hj.held hop hleft h.held)

theorem Unary.held {ts rest : List Token} {e : Expr} :
    Unary ts e rest → Held ts rest [.expr e]
  | .operator hop h => h.held.marked (fun _ => id) fun ht =>
    hop.imp (ht.lexeme.is · rfl) (ht.lexeme.is · rfl)
  | .call h => h.held

theorem Call.held {ts rest : List Token} {e : Expr} :
    Call ts e rest → Held ts rest [.expr e]
  | .mk h hs => hs.held h.held

theorem Postfix.held {callee e : Expr} {ts ts' rest : List Token} :
    Postfix callee ts' e rest → Held ts ts' [.expr callee] → Held ts rest [.expr e]
  | .nil, hcallee => hcallee
  | .call _ hclose hs, hcallee =>
    hs.held (hcallee.stop.closed (fun _ => id) fun ht => ht.lexeme.is hclose rfl)
  | .property _ hname hs, hcallee =>
    hs.held (hcallee.stop.closed (fun _ => id) fun ht => ht.lexeme.isIdentifier hname)
  | .callWith _ h hclose _ hs, hcallee =>
    hs.held ((hcallee.stop.append h.held).closed (fun _ => id) fun ht => ht.lexeme.is hclose rfl)

theorem Arguments.held {ts rest : List Token} {es : List Expr} :
    Arguments ts es rest → Held ts rest (es.map .expr)
  | .last h => h.held
  | .cons h _ hs => h.held.stop.append hs.held

theorem Primary.held {ts rest : List Token} {e : Expr} :
    Primary ts e rest → Held ts rest [.expr e]
  | .literal _ hvalue => Held.nil.marked nofun fun ht => constant_isLegible ht hvalue
  | .true _ | .false _ | .nil _ => Held.nil.skip.wrap nofun trivial
  | .this hk => Held.nil.marked nofun fun ht => ht.lexeme.is hk rfl
  | .identifier hk => Held.nil.marked nofun fun ht => ht.lexeme.isIdentifier hk
  | .grouping _ h _ => h.held.stop.skip.wrap (fun _ => id) trivial
  | .super hk _ hname => Held.nil.skip.skip.skip.node nofun fun hplain =>
    ⟨(hplain _ List.mem_cons_self).lexeme.is hk rfl,
      (hplain _ (List.mem_of_getElem? (i := 2) rfl)).lexeme.isIdentifier hname⟩

end

/-! ## Statements -/

section

variable {ts rest : List Token}

theorem OptExpression.held {e : Option Expr} (h : OptExpression ts e rest) :
    Held ts rest (e.toList.map .expr) := by
  cases h with
  | none => exact .nil
  | some h => exact h.held

theorem VarDecl.held {s : Stmt} (h : VarDecl ts s rest) : Held ts rest [.stmt s] := by
  cases h with
  | bare _ hname _ =>
    exact .skip (Held.nil.skip.marked nofun fun ht => ht.lexeme.isIdentifier hname)
  | initialized _ hname _ h _ =>
    exact .skip (h.held.stop.skip.marked (fun _ => id) fun ht => ht.lexeme.isIdentifier hname)

theorem ExprStmt.held {s : Stmt} (h : ExprStmt ts s rest) : Held ts rest [.stmt s] := by
  cases h with
  | mk h => exact h.held.stop.wrap (fun _ => id) trivial

theorem ForStart.held {s : Option Stmt} (h : ForStart ts s rest) :
    Held ts rest (s.toList.map .stmt) := by
  cases h with
  | varDecl h => exact h.held
  | exprStmt h => exact h.held
  | none => exact Held.nil.skip

theorem Parameters.held {names : List Token} (h : Parameters ts names rest) :
    Held ts rest (names.map .param) := by
  induction h with
  | last hname => exact .param hname
  | cons hname _ _ ih => exact (Held.param hname).append ih.skip

theorem OptParameters.held {names : List Token} (h : OptParameters ts names rest) :
    Held ts rest (names.map .param) := by
  cases h with
  | none => exact .nil
  | some h => exact h.held

theorem Superclass.held {superclass : Option Expr} (h : Superclass ts superclass rest) :
    Held ts rest (superclass.toList.map .expr) := by
  cases h with
  | none => exact .nil
  | some _ hname =>
    exact .skip (Held.nil.marked nofun fun ht => ht.lexeme.isIdentifier hname)

end

section

variable {strict : Bool}

mutual

theorem Statement.held {isOpen : Bool} {ts rest : List Token} {s : Stmt} :
    Statement strict isOpen ts s rest → Held ts rest [.stmt s]
  | .exprStmt h => h.held
  | .forStmt _ _ hstart hcondition _ hstep _ hbody htree => by
    rw [forTree_iff.1 htree]
    exact (hstart.held.forLoop hcondition.held.stop hstep.held.stop hbody.held).skip.skip
  | .ifStmt _ _ hcondition _ hbody | .whileStmt _ _ hcondition _ hbody =>
    .skip (.skip ((hcondition.held.stop.append hbody.held).wrap (fun _ => id) trivial))
  | .ifElse _ _ hcondition _ hbody _ _ hbody' =>
    .skip (.skip ((hcondition.held.stop.append (hbody.held.stop.append hbody'.held)).wrap
      (fun _ => id) trivial))
  | .printStmt _ h _ => .skip (h.held.stop.wrap (fun _ => id) trivial)
  | .returnStmt hword h _ => h.held.stop.marked (fun _ => id) fun ht => ht.lexeme.is hword rfl
  | .block h => h.held.wrap (fun _ => id) trivial

theorem Block.held {ts rest : List Token} {ss : List Stmt} :
    Block strict ts ss rest → Held ts rest (ss.map .stmt)
  | .mk _ h _ => h.held.stop.skip

theorem Declarations.held {ts rest : List Token} {ss : List Stmt} :
    Declarations strict ts ss rest → Held ts rest (ss.map .stmt)
  | .nil => .nil
  | .cons h hs => h.held.append hs.held

theorem Declaration.held {ts rest : List Token} {s : Stmt} :
    Declaration strict ts s rest → Held ts rest [.stmt s]
  | .classDecl _ hname hsuper _ hmethods _ =>
    .skip ((hsuper.held.stop.append hmethods.held.stop).marked (fun _ => id) fun ht =>
      ht.lexeme.isIdentifier hname)
  | .funDecl _ h => .skip ((h.held false).wrap (fun _ => id) trivial)
  | .varDecl h => h.held
  | .statement h => h.held

theorem Function.held {ts rest : List Token} {f : FunctionDecl} :
    Function strict ts f rest → ∀ isMethod, Held ts rest [.function isMethod f]
  | .mk hname _ hparams _ hbody => fun _ =>
    (hparams.held.stop.append hbody.held).skip.marked (fun _ => id) fun ht =>
      ht.lexeme.isIdentifier hname

theorem Functions.held {ts rest : List Token} {fs : List FunctionDecl} :
    Functions strict ts fs rest → Held ts rest (fs.map (.function true))
  | .nil => .nil
  | .cons h hs => (h.held true).append hs.held

end

/-- The tree of plain tokens is legible. -/
theorem Program.legible {ts : List Token} {ss : List Stmt} (h : Program strict ts ss)
    (hplain : ∀ t ∈ ts, t.IsPlain) : (Part.program ss).Legible :=
  .node trivial ((Declarations.held h).legible hplain)

end

end Syntax

/-! ## Sources -/

/-- The source is read without errors, it has no strings, and its numbers are finite. -/
structure PlainSource (firstId : NodeId) (source : String) : Prop where
  parses : (parse firstId (Lexer.tokens (scan source))).errors = []
  no_strings : ∀ t ∈ Lexer.tokens (scan source), t.kind ≠ .string
  finite : ∀ t ∈ Lexer.tokens (scan source), ∀ x,
    t.literal = some (.number x) → Number.IsFinite x

namespace PlainSource

variable {firstId : NodeId} {source : String} {t : Token}

theorem isPlain (h : PlainSource firstId source)
    (ht : t ∈ programTokens (Lexer.tokens (scan source))) : t.IsPlain := by
  have hmem := (List.takeWhile_sublist _).subset ht
  have hkind : t.kind ≠ .eof := by simpa using List.mem_takeWhile_imp ht
  have hlexeme := Token.isLexeme_of_scan hmem hkind
  exact ⟨hlexeme, h.no_strings t hmem, fun x hx =>
    (h.finite t hmem x hx).isPlain (hlexeme.number_le hx)⟩

/-- A source without numbers and strings. -/
theorem of_bare (hparses : (parse firstId (Lexer.tokens (scan source))).errors = [])
    (h : (Lexer.tokens (scan source)).all fun t => t.literal.isNone && t.kind ≠ .string) :
    PlainSource firstId source := by
  have hall := List.all_eq_true.1 h
  refine ⟨hparses, fun t ht => ?_, fun t ht x hx => ?_⟩
  · exact of_decide_eq_true (Bool.and_eq_true_iff.1 (hall t ht)).2
  · have hnone := (Bool.and_eq_true_iff.1 (hall t ht)).1
    rw [hx] at hnone
    cases hnone

/-- The tree of such a source is legible. -/
theorem legible (h : PlainSource firstId source) :
    (Part.program (parse firstId (Lexer.tokens (scan source))).statements).Legible :=
  .of_blank ((parse_sound h.parses).legible fun _ => h.isPlain)

end PlainSource

end Lox
