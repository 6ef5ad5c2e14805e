import Lox.Proofs.Grammar.Completeness
import Lox.Token.Scanner

/-!
# The language of the grammar

Reading a token list gives no error if and only if the grammar derives the list, and then gives the
one tree that the grammar has for it, up to node ids.

The grammar as it stands may have several trees for a list, because it does not say to which `if`
an `else` belongs. The strict grammar says so. It derives no more (`Statement.relax`) and no less
(`Statement.nearest`): an `else` that was given to an `if` further out can be given to the nearest
one instead (`Statement.absorb`).

Main result: `parse_iff_program`.
-/

namespace Lox

namespace Syntax

/-! ## What the strict grammar derives -/

mutual

theorem Statement.relax {strict isOpen : Bool} {ts rest : List Token} {s : Stmt} :
    Statement strict isOpen ts s rest → Statement false isOpen ts s rest
  | .exprStmt h => .exprStmt h
  | .forStmt h₁ h₂ h₃ h₄ h₅ h₆ h₇ h htree => .forStmt h₁ h₂ h₃ h₄ h₅ h₆ h₇ h.relax htree
  | .ifStmt h₁ h₂ h₃ h₄ h => .ifStmt h₁ h₂ h₃ h₄ h.relax
  | .ifElse h₁ h₂ h₃ h₄ h _ h₅ h' => .ifElse h₁ h₂ h₃ h₄ h.relax nofun h₅ h'.relax
  | .printStmt h₁ h₂ h₃ => .printStmt h₁ h₂ h₃
  | .returnStmt h₁ h₂ h₃ => .returnStmt h₁ h₂ h₃
  | .whileStmt h₁ h₂ h₃ h₄ h => .whileStmt h₁ h₂ h₃ h₄ h.relax
  | .block h => .block h.relax

theorem Block.relax {strict : Bool} {ts rest : List Token} {ss : List Stmt} :
    Block strict ts ss rest → Block false ts ss rest
  | .mk h₁ h h₂ => .mk h₁ h.relax h₂

theorem Declarations.relax {strict : Bool} {ts rest : List Token} {ss : List Stmt} :
    Declarations strict ts ss rest → Declarations false ts ss rest
  | .nil => .nil
  | .cons h hs => .cons h.relax hs.relax

theorem Declaration.relax {strict : Bool} {ts rest : List Token} {s : Stmt} :
    Declaration strict ts s rest → Declaration false ts s rest
  | .classDecl h₁ h₂ h₃ h₄ h h₅ => .classDecl h₁ h₂ h₃ h₄ h.relax h₅
  | .funDecl h₁ h => .funDecl h₁ h.relax
  | .varDecl h => .varDecl h
  | .statement h => .statement h.relax

theorem Function.relax {strict : Bool} {ts rest : List Token} {f : FunctionDecl} :
    Function strict ts f rest → Function false ts f rest
  | .mk h₁ h₂ h₃ h₄ h => .mk h₁ h₂ h₃ h₄ h.relax

theorem Functions.relax {strict : Bool} {ts rest : List Token} {fs : List FunctionDecl} :
    Functions strict ts fs rest → Functions false ts fs rest
  | .nil => .nil
  | .cons h hs => .cons h.relax hs.relax

end

/-- An `if` and an `else`: if the part between them is open, the `else` goes into it. -/
theorem Statement.ifElse_nearest {inner isOpen : Bool} {word paren close other : Token}
    {ts₁ ts₂ ts₃ rest : List Token} {condition : Expr} {body body' : Stmt}
    (hword : word.kind = .ifWord) (hparen : paren.kind = .leftParen)
    (hcond : Expression ts₁ condition (close :: ts₂)) (hclose : close.kind = .rightParen)
    (hbody : Statement true inner ts₂ body (other :: ts₃)) (hother : other.kind = .elseWord)
    (hbody' : Statement true isOpen ts₃ body' rest)
    (hinner : inner = true → ∃ isOpen s, Statement true isOpen ts₂ s rest) :
    ∃ isOpen s, Statement true isOpen (word :: paren :: ts₁) s rest := by
  cases inner with
  | true =>
    obtain ⟨_, _, hboth⟩ := hinner rfl
    exact ⟨_, _, .ifStmt hword hparen hcond hclose hboth⟩
  | false => exact ⟨_, _, .ifElse hword hparen hcond hclose hbody (fun _ => rfl) hother hbody'⟩

/-- An `else` after an open statement can become part of it: it goes to the last `if` that has
none. -/
theorem Statement.absorb {isOpen isOpen' : Bool} {ts mid ts' rest : List Token} {s s' : Stmt}
    {other : Token} (hother : other.kind = .elseWord) (h' : Statement true isOpen' ts' s' rest) :
    Statement true isOpen ts s mid → isOpen = true → mid = other :: ts' →
      ∃ isOpen s, Statement true isOpen ts s rest
  | .forStmt h₁ h₂ h₃ h₄ h₅ h₆ h₇ h _, hopen, hmid => by
    obtain ⟨_, _, hbody⟩ := Statement.absorb hother h' h hopen hmid
    exact ⟨_, _, .forStmt h₁ h₂ h₃ h₄ h₅ h₆ h₇ hbody (forTree_iff.2 rfl)⟩
  | .ifStmt h₁ h₂ h₃ h₄ h, _, hmid =>
    Statement.ifElse_nearest h₁ h₂ h₃ h₄ (hmid ▸ h) hother h' fun hinner =>
      Statement.absorb hother h' h hinner hmid
  | .ifElse h₁ h₂ h₃ h₄ hthen hclosed h₅ h, hopen, hmid => by
    obtain ⟨_, _, hbody⟩ := Statement.absorb hother h' h hopen hmid
    exact ⟨_, _, .ifElse h₁ h₂ h₃ h₄ hthen hclosed h₅ hbody⟩
  | .whileStmt h₁ h₂ h₃ h₄ h, hopen, hmid => by
    obtain ⟨_, _, hbody⟩ := Statement.absorb hother h' h hopen hmid
    exact ⟨_, _, .whileStmt h₁ h₂ h₃ h₄ hbody⟩
  | .exprStmt _, hopen, _ | .printStmt _ _ _, hopen, _ | .returnStmt _ _ _, hopen, _
  | .block _, hopen, _ => nomatch hopen

mutual

theorem Statement.nearest {strict isOpen : Bool} {ts rest : List Token} {s : Stmt} :
    Statement strict isOpen ts s rest → ∃ isOpen s, Statement true isOpen ts s rest
  | .exprStmt h => ⟨_, _, .exprStmt h⟩
  | .forStmt h₁ h₂ h₃ h₄ h₅ h₆ h₇ h _ => by
    obtain ⟨_, _, hbody⟩ := h.nearest
    exact ⟨_, _, .forStmt h₁ h₂ h₃ h₄ h₅ h₆ h₇ hbody (forTree_iff.2 rfl)⟩
  | .ifStmt h₁ h₂ h₃ h₄ h => by
    obtain ⟨_, _, hbody⟩ := h.nearest
    exact ⟨_, _, .ifStmt h₁ h₂ h₃ h₄ hbody⟩
  | .ifElse h₁ h₂ h₃ h₄ h _ h₅ h' => by
    obtain ⟨_, _, hbody⟩ := h.nearest
    obtain ⟨_, _, hbody'⟩ := h'.nearest
    exact Statement.ifElse_nearest h₁ h₂ h₃ h₄ hbody h₅ hbody' fun hinner =>
      Statement.absorb h₅ hbody' hbody hinner rfl
  | .printStmt h₁ h₂ h₃ => ⟨_, _, .printStmt h₁ h₂ h₃⟩
  | .returnStmt h₁ h₂ h₃ => ⟨_, _, .returnStmt h₁ h₂ h₃⟩
  | .whileStmt h₁ h₂ h₃ h₄ h => by
    obtain ⟨_, _, hbody⟩ := h.nearest
    exact ⟨_, _, .whileStmt h₁ h₂ h₃ h₄ hbody⟩
  | .block h => by
    obtain ⟨_, hblock⟩ := h.nearest
    exact ⟨_, _, .block hblock⟩

theorem Block.nearest {strict : Bool} {ts rest : List Token} {ss : List Stmt} :
    Block strict ts ss rest → ∃ ss, Block true ts ss rest
  | .mk h₁ h h₂ => by
    obtain ⟨_, hss⟩ := h.nearest
    exact ⟨_, .mk h₁ hss h₂⟩

theorem Declarations.nearest {strict : Bool} {ts rest : List Token} {ss : List Stmt} :
    Declarations strict ts ss rest → ∃ ss, Declarations true ts ss rest
  | .nil => ⟨_, .nil⟩
  | .cons h hs => by
    obtain ⟨_, hd⟩ := h.nearest
    obtain ⟨_, hds⟩ := hs.nearest
    exact ⟨_, .cons hd hds⟩

theorem Declaration.nearest {strict : Bool} {ts rest : List Token} {s : Stmt} :
    Declaration strict ts s rest → ∃ s, Declaration true ts s rest
  | .classDecl h₁ h₂ h₃ h₄ h h₅ => by
    obtain ⟨_, hmethods⟩ := h.nearest
    exact ⟨_, .classDecl h₁ h₂ h₃ h₄ hmethods h₅⟩
  | .funDecl h₁ h => by
    obtain ⟨_, hf⟩ := h.nearest
    exact ⟨_, .funDecl h₁ hf⟩
  | .varDecl h => ⟨_, .varDecl h⟩
  | .statement h => by
    obtain ⟨_, _, hs⟩ := h.nearest
    exact ⟨_, .statement hs⟩

theorem Function.nearest {strict : Bool} {ts rest : List Token} {f : FunctionDecl} :
    Function strict ts f rest → ∃ f, Function true ts f rest
  | .mk h₁ h₂ h₃ h₄ h => by
    obtain ⟨_, hbody⟩ := h.nearest
    exact ⟨_, .mk h₁ h₂ h₃ h₄ hbody⟩

theorem Functions.nearest {strict : Bool} {ts rest : List Token} {fs : List FunctionDecl} :
    Functions strict ts fs rest → ∃ fs, Functions true ts fs rest
  | .nil => ⟨_, .nil⟩
  | .cons h hs => by
    obtain ⟨_, hf⟩ := h.nearest
    obtain ⟨_, hfs⟩ := hs.nearest
    exact ⟨_, .cons hf hfs⟩

end

theorem program_true_iff_false {ts : List Token} :
    (∃ ss, Program true ts ss) ↔ ∃ ss, Program false ts ss := by
  constructor
  · intro h
    obtain ⟨ss, h⟩ := h
    exact ⟨ss, h.relax⟩
  · intro h
    obtain ⟨ss, h⟩ := h
    exact h.nearest

end Syntax

/-! ## Whole token lists -/

/-- What is read without an error follows the strict grammar. -/
theorem parse_sound {firstId : NodeId} {tokens : List Token}
    (h : (parse firstId tokens).errors = []) :
    Syntax.Program true (programTokens tokens)
      (Stmt.blankAll (parse firstId tokens).statements) := by
  have hreads := Grammar.program_reads (Grammar.callBound tokens.length) ⟨tokens, firstId, []⟩
  cases hrun : Grammar.program (Grammar.callBound tokens.length) ⟨tokens, firstId, []⟩ with
  | ok ss d =>
    simp only [parse, hrun] at h ⊢
    refine (Grammar.Rule.Gives.of_ok hreads hrun).2 h ?_
    have hlen := programTokens_length_le tokens
    show (programTokens tokens).length < 32 * (tokens.length + 1)
    omega
  | fail e d =>
    simp only [parse, hrun] at h
    exact absurd h (List.append_ne_nil_of_right_ne_nil _ (List.cons_ne_nil _ _))

/-- What the strict grammar derives is read without an error, and with the tree that it has. -/
theorem parse_complete {tokens : List Token} {ss : List Stmt}
    (h : Syntax.Program true (programTokens tokens) ss) (firstId : NodeId) :
    (parse firstId tokens).errors = [] ∧
      Stmt.blankAll (parse firstId tokens).statements = ss := by
  have hbound : 32 * (programTokens tokens).length + 18 ≤ Grammar.callBound tokens.length := by
    have hlen := programTokens_length_le tokens
    rw [Grammar.callBound]
    omega
  obtain ⟨ss', d, hrun, -, herrors, hss⟩ :=
    Grammar.program_takes h hbound ⟨tokens, firstId, []⟩ rfl
  simp only [parse, hrun]
  exact ⟨herrors, hss⟩

/-- Reading records no error exactly on the token lists of the grammar, and the tree that it then
gives is the only one that gives every `else` to the nearest `if`, up to node ids. -/
theorem parse_iff_program {ts : List Token} {finish : Token} (hts : ∀ t ∈ ts, t.kind ≠ .eof)
    (hfinish : finish.kind = .eof) (firstId : NodeId) :
    let p := parse firstId (ts ++ [finish])
    (p.errors = [] ↔ ∃ tree, Syntax.Program false ts tree) ∧
      (p.errors = [] →
        ∀ tree, Syntax.Program true ts tree ↔ tree = Stmt.blankAll p.statements) := by
  intro p
  have hprogram : programTokens (ts ++ [finish]) = ts := programTokens_closed hts hfinish []
  have hsound : p.errors = [] → Syntax.Program true ts (Stmt.blankAll p.statements) := by
    intro herrors
    have h := parse_sound herrors
    rwa [hprogram] at h
  have hcomplete : ∀ tree, Syntax.Program true ts tree →
      p.errors = [] ∧ Stmt.blankAll p.statements = tree := by
    intro tree h
    exact parse_complete (hprogram.symm ▸ h) firstId
  refine ⟨?_, fun herrors tree => ⟨fun h => (hcomplete tree h).2.symm, fun h => ?_⟩⟩
  · rw [← Syntax.program_true_iff_false]
    exact ⟨fun herrors => ⟨_, hsound herrors⟩, fun ⟨tree, h⟩ => (hcomplete tree h).1⟩
  · rw [h]
    exact hsound herrors

/-- A name by itself is an expression. -/
theorem Syntax.expression_name {t : Token} {rest : List Token} (h : t.kind = .identifier) :
    Syntax.Expression (t :: rest) (.var 0 t) rest :=
  have hunary : Syntax.Unary (t :: rest) (.var 0 t) rest := .call (.mk (.identifier h) .nil)
  have hterm : Syntax.Chain .term (t :: rest) (.var 0 t) rest :=
    .mk (.factor (.mk (.unary hunary) .nil)) .nil
  have hequality : Syntax.Chain .equality (t :: rest) (.var 0 t) rest :=
    .mk (.comparison (.mk (.term hterm) .nil)) .nil
  .logicOr (.mk (.logicAnd (.mk (.equality hequality) .nil)) .nil)

/-- Two conditions and one `else`. -/
def danglingElse : List Token := programTokens (Lexer.tokens (scan "if (a) if (b) c; else d;"))

/-- The `else` belongs to the second condition. -/
theorem parse_iff_program_dangling_else :
    (∀ t ∈ danglingElse, t.kind ≠ .eof) ∧ (Token.endOfFile 1).kind = .eof ∧
      (∃ tree, Syntax.Program false danglingElse tree) ∧
      ∀ tree, Syntax.Program true danglingElse tree ↔
        tree = [.branch (.var 0 ⟨.identifier, "a", none, 1⟩)
          (.branch (.var 0 ⟨.identifier, "b", none, 1⟩)
            (.expression (.var 0 ⟨.identifier, "c", none, 1⟩))
            (some (.expression (.var 0 ⟨.identifier, "d", none, 1⟩)))) none] := by
  have hts : ∀ t ∈ danglingElse, t.kind ≠ .eof := by
    intro t ht
    exact kind_ne_eof_of_mem ht
  have hfinish : (Token.endOfFile 1).kind = .eof := rfl
  -- An open body may stand before the end of the program, but not before an `else`.
  have hderived : ∀ strict, Syntax.Program strict danglingElse
      [.branch (.var 0 ⟨.identifier, "a", none, 1⟩) (.branch (.var 0 ⟨.identifier, "b", none, 1⟩)
        (.expression (.var 0 ⟨.identifier, "c", none, 1⟩))
        (some (.expression (.var 0 ⟨.identifier, "d", none, 1⟩)))) none] := by
    intro strict
    have htokens : danglingElse = [⟨.ifWord, "if", none, 1⟩, ⟨.leftParen, "(", none, 1⟩,
        ⟨.identifier, "a", none, 1⟩, ⟨.rightParen, ")", none, 1⟩, ⟨.ifWord, "if", none, 1⟩,
        ⟨.leftParen, "(", none, 1⟩, ⟨.identifier, "b", none, 1⟩, ⟨.rightParen, ")", none, 1⟩,
        ⟨.identifier, "c", none, 1⟩, ⟨.semicolon, ";", none, 1⟩, ⟨.elseWord, "else", none, 1⟩,
        ⟨.identifier, "d", none, 1⟩, ⟨.semicolon, ";", none, 1⟩] := by decide +kernel
    have hname : ∀ text rest, Syntax.Statement strict false
        (⟨.identifier, text, none, 1⟩ :: ⟨.semicolon, ";", none, 1⟩ :: rest)
        (.expression (.var 0 ⟨.identifier, text, none, 1⟩)) rest :=
      fun text rest => .exprStmt (.mk (Syntax.expression_name rfl) rfl)
    rw [htokens]
    exact .cons (.statement (.ifStmt rfl rfl (Syntax.expression_name rfl) rfl
      (.ifElse rfl rfl (Syntax.expression_name rfl) rfl (hname "c" _) (fun _ => rfl) rfl
        (hname "d" _)))) .nil
  obtain ⟨hiff, htree⟩ := parse_iff_program hts hfinish 0
  have herrors : (parse 0 (danglingElse ++ [Token.endOfFile 1])).errors = [] :=
    hiff.2 ⟨_, hderived false⟩
  have hstatements := (htree herrors _).1 (hderived true)
  refine ⟨hts, hfinish, ⟨_, hderived false⟩, ?_⟩
  rw [hstatements]
  exact htree herrors

end Lox
