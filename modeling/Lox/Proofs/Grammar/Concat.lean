import Lox.Proofs.Grammar.Language
import Lox.Proofs.Grammar.Parametric

/-!
# Programs that follow one another

What the grammar says about the front of a token list does not depend on what comes after it, so
more tokens can be put at the end of every derivation (`Expression.frame` and the lemmas after it).
Two programs, one after the other, are therefore a program, and it is read as the statements of the
first followed by those of the second (`parse_concat`). That no `else` of the second goes to an `if`
of the first needs no argument of its own: the strict grammar derives one tree only.
-/

namespace Lox

namespace Syntax

variable {more : List Token}

/-! ## More tokens at the end -/

mutual

theorem Expression.frame {ts rest : List Token} {e : Expr} :
    Expression ts e rest → Expression (ts ++ more) e (rest ++ more)
  | .assignVariable h₁ h₂ h => .assignVariable h₁ h₂ h.frame
  | .assignProperty h h₁ h₂ h₃ h' => .assignProperty h.frame h₁ h₂ h₃ h'.frame
  | .logicOr h => .logicOr h.frame

theorem Chain.frame {l : Grammar.Level} {ts rest : List Token} {e : Expr} :
    Chain l ts e rest → Chain l (ts ++ more) e (rest ++ more)
  | .mk h hs => .mk h.frame hs.frame

theorem Operand.frame {l : Grammar.Level} {ts rest : List Token} {e : Expr} :
    Operand l ts e rest → Operand l (ts ++ more) e (rest ++ more)
  | .logicAnd h => .logicAnd h.frame
  | .equality h => .equality h.frame
  | .comparison h => .comparison h.frame
  | .term h => .term h.frame
  | .factor h => .factor h.frame
  | .unary h => .unary h.frame

theorem Links.frame {l : Grammar.Level} {ts rest : List Token} {left e : Expr} :
    Links l left ts e rest → Links l left (ts ++ more) e (rest ++ more)
  | .nil => .nil
  | .cons h₁ h h₂ hs => .cons h₁ h.frame h₂ hs.frame

theorem Unary.frame {ts rest : List Token} {e : Expr} :
    Unary ts e rest → Unary (ts ++ more) e (rest ++ more)
  | .operator h₁ h => .operator h₁ h.frame
  | .call h => .call h.frame

theorem Call.frame {ts rest : List Token} {e : Expr} :
    Call ts e rest → Call (ts ++ more) e (rest ++ more)
  | .mk h hs => .mk h.frame hs.frame

theorem Postfix.frame {ts rest : List Token} {callee e : Expr} :
    Postfix callee ts e rest → Postfix callee (ts ++ more) e (rest ++ more)
  | .nil => .nil
  | .call h₁ h₂ hs => .call h₁ h₂ hs.frame
  | .callWith h₁ h h₂ h₃ hs => .callWith h₁ h.frame h₂ h₃ hs.frame
  | .property h₁ h₂ hs => .property h₁ h₂ hs.frame

theorem Arguments.frame {ts rest : List Token} {es : List Expr} :
    Arguments ts es rest → Arguments (ts ++ more) es (rest ++ more)
  | .last h => .last h.frame
  | .cons h h₁ hs => .cons h.frame h₁ hs.frame

theorem Primary.frame {ts rest : List Token} {e : Expr} :
    Primary ts e rest → Primary (ts ++ more) e (rest ++ more)
  | .literal h₁ h₂ => .literal h₁ h₂
  | .true h₁ => .true h₁
  | .false h₁ => .false h₁
  | .nil h₁ => .nil h₁
  | .this h₁ => .this h₁
  | .identifier h₁ => .identifier h₁
  | .grouping h₁ h h₂ => .grouping h₁ h.frame h₂
  | .super h₁ h₂ h₃ => .super h₁ h₂ h₃

end

section

variable {ts rest : List Token}

theorem OptExpression.frame {e : Option Expr} :
    OptExpression ts e rest → OptExpression (ts ++ more) e (rest ++ more)
  | .none => .none
  | .some h => .some h.frame

theorem VarDecl.frame {s : Stmt} : VarDecl ts s rest → VarDecl (ts ++ more) s (rest ++ more)
  | .bare h₁ h₂ h₃ => .bare h₁ h₂ h₃
  | .initialized h₁ h₂ h₃ h h₄ => .initialized h₁ h₂ h₃ h.frame h₄

theorem ExprStmt.frame {s : Stmt} : ExprStmt ts s rest → ExprStmt (ts ++ more) s (rest ++ more)
  | .mk h h₁ => .mk h.frame h₁

theorem ForStart.frame {s : Option Stmt} :
    ForStart ts s rest → ForStart (ts ++ more) s (rest ++ more)
  | .varDecl h => .varDecl h.frame
  | .exprStmt h => .exprStmt h.frame
  | .none h₁ => .none h₁

theorem Parameters.frame {ts rest names : List Token} :
    Parameters ts names rest → Parameters (ts ++ more) names (rest ++ more)
  | .last h₁ => .last h₁
  | .cons h₁ h₂ hs => .cons h₁ h₂ hs.frame

theorem OptParameters.frame {names : List Token} :
    OptParameters ts names rest → OptParameters (ts ++ more) names (rest ++ more)
  | .none => .none
  | .some h h₁ => .some h.frame h₁

theorem Superclass.frame {e : Option Expr} :
    Superclass ts e rest → Superclass (ts ++ more) e (rest ++ more)
  | .none => .none
  | .some h₁ h₂ => .some h₁ h₂

end

section

variable {strict : Bool}

mutual

theorem Statement.frame {isOpen : Bool} {ts rest : List Token} {s : Stmt} :
    Statement strict isOpen ts s rest → Statement strict isOpen (ts ++ more) s (rest ++ more)
  | .exprStmt h => .exprStmt h.frame
  | .forStmt h₁ h₂ h₃ h₄ h₅ h₆ h₇ h htree =>
    .forStmt h₁ h₂ h₃.frame h₄.frame h₅ h₆.frame h₇ h.frame htree
  | .ifStmt h₁ h₂ h₃ h₄ h => .ifStmt h₁ h₂ h₃.frame h₄ h.frame
  | .ifElse h₁ h₂ h₃ h₄ h h₅ h₆ h' => .ifElse h₁ h₂ h₃.frame h₄ h.frame h₅ h₆ h'.frame
  | .printStmt h₁ h₂ h₃ => .printStmt h₁ h₂.frame h₃
  | .returnStmt h₁ h₂ h₃ => .returnStmt h₁ h₂.frame h₃
  | .whileStmt h₁ h₂ h₃ h₄ h => .whileStmt h₁ h₂ h₃.frame h₄ h.frame
  | .block h => .block h.frame

theorem Block.frame {ts rest : List Token} {ss : List Stmt} :
    Block strict ts ss rest → Block strict (ts ++ more) ss (rest ++ more)
  | .mk h₁ h h₂ => .mk h₁ h.frame h₂

theorem Declarations.frame {ts rest : List Token} {ss : List Stmt} :
    Declarations strict ts ss rest → Declarations strict (ts ++ more) ss (rest ++ more)
  | .nil => .nil
  | .cons h hs => .cons h.frame hs.frame

theorem Declaration.frame {ts rest : List Token} {s : Stmt} :
    Declaration strict ts s rest → Declaration strict (ts ++ more) s (rest ++ more)
  | .classDecl h₁ h₂ h₃ h₄ h h₅ => .classDecl h₁ h₂ h₃.frame h₄ h.frame h₅
  | .funDecl h₁ h => .funDecl h₁ h.frame
  | .varDecl h => .varDecl h.frame
  | .statement h => .statement h.frame

theorem Function.frame {ts rest : List Token} {f : FunctionDecl} :
    Function strict ts f rest → Function strict (ts ++ more) f (rest ++ more)
  | .mk h₁ h₂ h₃ h₄ h => .mk h₁ h₂ h₃.frame h₄ h.frame

theorem Functions.frame {ts rest : List Token} {fs : List FunctionDecl} :
    Functions strict ts fs rest → Functions strict (ts ++ more) fs (rest ++ more)
  | .nil => .nil
  | .cons h hs => .cons h.frame hs.frame

end

theorem Declarations.append {ts mid rest : List Token} {ss ss' : List Stmt} :
    Declarations strict ts ss mid → Declarations strict mid ss' rest →
      Declarations strict ts (ss ++ ss') rest
  | .nil, h' => h'
  | .cons h hs, h' => .cons h (hs.append h')

/-- Two programs, one after the other, are a program. -/
theorem Program.append {ts ts' : List Token} {ss ss' : List Stmt} (h : Program strict ts ss)
    (h' : Program strict ts' ss') : Program strict (ts ++ ts') (ss ++ ss') :=
  Declarations.append (Declarations.frame h) h'

end

end Syntax

/-! ## Reading two programs at once -/

theorem Stmt.blankAll_eq_append {ss as bs : List Stmt}
    (h : Stmt.blankAll ss = Stmt.blankAll as ++ Stmt.blankAll bs) :
    ∃ as' bs', ss = as' ++ bs' ∧ Stmt.blankAll as' = Stmt.blankAll as ∧
      Stmt.blankAll bs' = Stmt.blankAll bs := by
  induction as generalizing ss with
  | nil => exact ⟨[], ss, rfl, rfl, h⟩
  | cons a as ih =>
    cases ss with
    | nil => cases h
    | cons s ss =>
      obtain ⟨hs, hss⟩ := List.cons.inj h
      obtain ⟨as', bs', rfl, has, hbs⟩ := ih hss
      exact ⟨s :: as', bs', rfl, by rw [Stmt.blankAll, Stmt.blankAll, has, hs], hbs⟩

section

variable {T : Likeness} {tokens tokens' : List Token}

/-- Tokens that correspond to those of a program without errors are those of one. -/
theorem parse_program_alike {ts : List Token} (hts : ∀ t ∈ ts, t.kind ≠ .eof)
    (h : List.Forall₂ T.rel (programTokens tokens) ts)
    (herrors : (parse 0 tokens).errors = []) (firstId : NodeId) :
    ∃ ss, Syntax.Program true ts (Stmt.blankAll ss) ∧
      Stmt.AlikeAll AnyNode T (parse firstId tokens).statements ss := by
  have hprogram : programTokens (ts ++ [Token.endOfFile 0]) = ts := programTokens_closed hts rfl []
  rw [← hprogram] at h
  have herrors' : (parse 0 (ts ++ [Token.endOfFile 0])).errors = [] :=
    errors_eq_nil_of_alike h 0 0 herrors
  have hsound := parse_sound herrors'
  rw [hprogram] at hsound
  exact ⟨_, hsound, statements_alike h firstId 0⟩

/-- A token list that is made of two programs is read as the statements of the first and then those
of the second. -/
theorem parse_concat {whole ts ts' : List Token} (hwhole : programTokens whole = ts ++ ts')
    (h : List.Forall₂ T.rel (programTokens tokens) ts)
    (h' : List.Forall₂ T.rel (programTokens tokens') ts')
    (herrors : (parse 0 tokens).errors = []) (herrors' : (parse 0 tokens').errors = [])
    (firstId₁ firstId₂ firstId : NodeId) :
    (parse firstId whole).errors = [] ∧
      ∃ ss ss', (parse firstId whole).statements = ss ++ ss' ∧
        Stmt.AlikeAll AnyNode T (parse firstId₁ tokens).statements ss ∧
        Stmt.AlikeAll AnyNode T (parse firstId₂ tokens').statements ss' := by
  have heof : ∀ t ∈ ts ++ ts', t.kind ≠ .eof := by
    rw [← hwhole]
    intro t ht
    exact kind_ne_eof_of_mem ht
  obtain ⟨hts, hts'⟩ := List.forall_mem_append.1 heof
  obtain ⟨as, has, halike⟩ := parse_program_alike hts h herrors firstId₁
  obtain ⟨bs, hbs, halike'⟩ := parse_program_alike hts' h' herrors' firstId₂
  have hboth := Syntax.Program.append has hbs
  rw [← hwhole] at hboth
  obtain ⟨hnone, hblank⟩ := parse_complete hboth firstId
  obtain ⟨ss, ss', hsplit, hss, hss'⟩ := Stmt.blankAll_eq_append hblank
  exact ⟨hnone, ss, ss', hsplit, halike.of_blankAll_eq hss, halike'.of_blankAll_eq hss'⟩

end

end Lox
