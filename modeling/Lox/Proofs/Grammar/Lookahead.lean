import Lox.Proofs.Grammar.Syntax
import Mathlib.Data.List.Basic
import Mathlib.Tactic.Common

/-!
# Where a phrase starts and where it stops

One token of lookahead decides every choice of the grammar. For that, two things matter about a
phrase: the kinds with which it can start (`Front`), and the kinds that would let it go on if they
came next (`Level.extensions`). A phrase never is empty, except for lists of phrases.
-/

namespace Lox

/-! ## Starts -/

namespace Syntax

/-- The tokens start with one of the kinds, and at least the first one is read. -/
def Front (kinds : List Kind) (ts rest : List Token) : Prop :=
  ∃ t ts', ts = t :: ts' ∧ t.kind ∈ kinds ∧ rest.length ≤ ts'.length

namespace Front

variable {kinds : List Kind} {ts ts' rest : List Token} {t : Token}

theorem cons (ht : t.kind ∈ kinds) (h : rest.length ≤ ts.length) : Front kinds (t :: ts) rest :=
  ⟨t, ts, rfl, ht, h⟩

theorem trans (h : Front kinds ts ts') (h' : rest.length ≤ ts'.length) : Front kinds ts rest := by
  obtain ⟨t, ts₁, rfl, ht, hlen⟩ := h
  exact cons ht (Nat.le_trans h' hlen)

theorem mono {more : List Kind} (h : Front kinds ts rest) (hsub : kinds ⊆ more) :
    Front more ts rest := by
  obtain ⟨t, ts₁, rfl, ht, hlen⟩ := h
  exact cons (hsub ht) hlen

theorem length_lt (h : Front kinds ts rest) : rest.length < ts.length := by
  obtain ⟨t, ts₁, rfl, -, hlen⟩ := h
  exact Nat.lt_succ_of_le hlen

/-- The first token of a phrase is not of a kind with which the phrase cannot start. -/
theorem head_not_mem {others : List Kind} (h : Front kinds ts rest)
    (hdisjoint : ∀ k ∈ kinds, k ∉ others) : ∀ x ∈ ts.head?, x.kind ∉ others := by
  obtain ⟨t, ts₁, rfl, ht, -⟩ := h
  intro x hx
  cases hx
  exact hdisjoint _ ht

theorem head?_ne_none (h : Front kinds ts rest) : ts.head?.map Token.kind ≠ none := by
  obtain ⟨t, ts₁, rfl, -, -⟩ := h
  exact Option.some_ne_none _

theorem head?_ne {k : Kind} (h : Front kinds ts rest) (hk : k ∉ kinds) :
    ts.head?.map Token.kind ≠ some k := by
  obtain ⟨t, ts₁, rfl, ht, -⟩ := h
  intro hhead
  exact hk (Option.some.inj hhead ▸ ht)

end Front

/-- The kinds with which a primary starts. -/
def primaryStarts : List Kind :=
  [.number, .string, .trueWord, .falseWord, .nilWord, .thisWord, .identifier, .leftParen,
    .superWord]

/-- The kinds with which an expression starts. -/
def exprStarts : List Kind := .bang :: .minus :: primaryStarts

/-- The kinds with which a statement starts. -/
def stmtStarts : List Kind :=
  [.forWord, .ifWord, .printWord, .returnWord, .whileWord, .leftBrace] ++ exprStarts

/-- The kinds with which a declaration starts. -/
def declStarts : List Kind := [.classWord, .funWord, .varWord] ++ stmtStarts

theorem exprStarts_subset : exprStarts ⊆ stmtStarts := List.subset_append_right _ _

theorem stmtStarts_subset : stmtStarts ⊆ declStarts := List.subset_append_right _ _

mutual

theorem Expression.front {ts rest : List Token} {e : Expr} :
    Expression ts e rest → Front exprStarts ts rest
  | .assignVariable hname _ h => by
    refine .cons (by rw [hname]; decide) ?_
    have hlen := h.front.length_lt
    rw [List.length_cons]
    omega
  | .assignProperty hcall _ _ _ h => by
    refine (hcall.front.mono (by decide)).trans ?_
    have hlen := h.front.length_lt
    simp only [List.length_cons]
    omega
  | .logicOr h => h.front

theorem Chain.front {l : Grammar.Level} {ts rest : List Token} {e : Expr} :
    Chain l ts e rest → Front exprStarts ts rest
  | .mk ho hl => ho.front.trans hl.length_le

theorem Operand.front {l : Grammar.Level} {ts rest : List Token} {e : Expr} :
    Operand l ts e rest → Front exprStarts ts rest
  | .logicAnd h | .equality h | .comparison h | .term h | .factor h => h.front
  | .unary h => h.front

theorem Links.length_le {l : Grammar.Level} {left e : Expr} {ts rest : List Token} :
    Links l left ts e rest → rest.length ≤ ts.length
  | .nil => Nat.le_refl _
  | .cons _ ho _ hl => by
    have hright := ho.front.length_lt
    have hrest := hl.length_le
    rw [List.length_cons]
    omega

theorem Unary.front {ts rest : List Token} {e : Expr} :
    Unary ts e rest → Front exprStarts ts rest
  | .operator hop h => by
    refine .cons ?_ (Nat.le_of_lt h.front.length_lt)
    rcases hop with hop | hop <;> rw [hop] <;> decide
  | .call h => h.front.mono (by decide)

theorem Call.front {ts rest : List Token} {e : Expr} :
    Call ts e rest → Front primaryStarts ts rest
  | .mk hp hpost => hp.front.trans hpost.length_le

theorem Postfix.length_le {callee e : Expr} {ts rest : List Token} :
    Postfix callee ts e rest → rest.length ≤ ts.length
  | .nil => Nat.le_refl _
  | .call _ _ h => by
    have hrest := h.length_le
    simp only [List.length_cons]
    omega
  | .callWith _ ha _ _ h => by
    have hargs := ha.front.length_lt
    have hrest := h.length_le
    simp only [List.length_cons] at hargs ⊢
    omega
  | .property _ _ h => by
    have hrest := h.length_le
    simp only [List.length_cons]
    omega

theorem Arguments.front {ts rest : List Token} {es : List Expr} :
    Arguments ts es rest → Front exprStarts ts rest
  | .last h => h.front
  | .cons h _ hs => by
    have hrest := hs.front.length_lt
    refine h.front.trans ?_
    rw [List.length_cons]
    omega

theorem Primary.front {ts rest : List Token} {e : Expr} :
    Primary ts e rest → Front primaryStarts ts rest
  | .literal hk _ => by
    refine .cons ?_ (Nat.le_refl _)
    rcases hk with hk | hk <;> rw [hk] <;> decide
  | .true hk | .false hk | .nil hk | .this hk | .identifier hk =>
    .cons (by rw [hk]; decide) (Nat.le_refl _)
  | .grouping hk h _ => by
    have hinner := h.front.length_lt
    refine .cons (by rw [hk]; decide) ?_
    rw [List.length_cons] at hinner
    omega
  | .super hk _ _ => .cons (by rw [hk]; decide) (by simp only [List.length_cons]; omega)

end

theorem OptExpression.length_le {ts rest : List Token} {e : Option Expr}
    (h : OptExpression ts e rest) : rest.length ≤ ts.length := by
  cases h with
  | none => exact Nat.le_refl _
  | some h => exact Nat.le_of_lt h.front.length_lt

theorem VarDecl.front {ts rest : List Token} {s : Stmt} (h : VarDecl ts s rest) :
    Front [.varWord] ts rest := by
  cases h with
  | bare hword =>
    refine .cons (List.mem_singleton.2 hword) ?_
    simp only [List.length_cons]
    omega
  | initialized hword _ _ he =>
    refine .cons (List.mem_singleton.2 hword) ?_
    have hlen := he.front.length_lt
    simp only [List.length_cons] at hlen ⊢
    omega

theorem ExprStmt.front {ts rest : List Token} {s : Stmt} (h : ExprStmt ts s rest) :
    Front exprStarts ts rest := by
  cases h with
  | mk he => exact he.front.trans (Nat.le_succ _)

theorem ForStart.length_lt {ts rest : List Token} {s : Option Stmt} (h : ForStart ts s rest) :
    rest.length < ts.length := by
  cases h with
  | varDecl h => exact h.front.length_lt
  | exprStmt h => exact h.front.length_lt
  | none => exact Nat.lt_succ_self _

theorem Parameters.front {ts rest names : List Token} (h : Parameters ts names rest) :
    Front [.identifier] ts rest := by
  induction h with
  | last hname => exact .cons (List.mem_singleton.2 hname) (Nat.le_refl _)
  | cons hname _ _ ih =>
    refine .cons (List.mem_singleton.2 hname) ?_
    have hlen := ih.length_lt
    rw [List.length_cons]
    omega

theorem OptParameters.length_le {ts rest names : List Token} (h : OptParameters ts names rest) :
    rest.length ≤ ts.length := by
  cases h with
  | none => exact Nat.le_refl _
  | some h => exact Nat.le_of_lt h.front.length_lt

theorem Superclass.length_le {ts rest : List Token} {e : Option Expr} (h : Superclass ts e rest) :
    rest.length ≤ ts.length := by
  cases h with
  | none => exact Nat.le_refl _
  | some => simp only [List.length_cons]; omega

mutual

theorem Statement.front {strict isOpen : Bool} {ts rest : List Token} {s : Stmt} :
    Statement strict isOpen ts s rest → Front stmtStarts ts rest
  | .exprStmt h => h.front.mono exprStarts_subset
  | .forStmt hword _ hstart hcond _ hstep _ hbody _ => by
    refine .cons (by rw [hword]; decide) ?_
    have h₁ := hstart.length_lt
    have h₂ := hcond.length_le
    have h₃ := hstep.length_le
    have h₄ := hbody.front.length_lt
    simp only [List.length_cons] at h₂ h₃ ⊢
    omega
  | .ifStmt hword _ hcond _ hbody | .whileStmt hword _ hcond _ hbody => by
    refine .cons (by rw [hword]; decide) ?_
    have h₁ := hcond.front.length_lt
    have h₂ := hbody.front.length_lt
    simp only [List.length_cons] at h₁ ⊢
    omega
  | .ifElse hword _ hcond _ hbody _ _ hbody' => by
    refine .cons (by rw [hword]; decide) ?_
    have h₁ := hcond.front.length_lt
    have h₂ := hbody.front.length_lt
    have h₃ := hbody'.front.length_lt
    simp only [List.length_cons] at h₁ h₂ ⊢
    omega
  | .printStmt hword h _ => by
    refine .cons (by rw [hword]; decide) ?_
    have hlen := h.front.length_lt
    rw [List.length_cons] at hlen
    omega
  | .returnStmt hword h _ =>
    .cons (by rw [hword]; decide) (Nat.le_trans (Nat.le_succ _) h.length_le)
  | .block h => h.front.mono (by decide)

theorem Block.front {strict : Bool} {ts rest : List Token} {ss : List Stmt} :
    Block strict ts ss rest → Front [.leftBrace] ts rest
  | .mk hbrace h _ =>
    .cons (List.mem_singleton.2 hbrace) (Nat.le_trans (Nat.le_succ _) h.length_le)

theorem Declarations.length_le {strict : Bool} {ts rest : List Token} {ss : List Stmt} :
    Declarations strict ts ss rest → rest.length ≤ ts.length
  | .nil => Nat.le_refl _
  | .cons h hs => Nat.le_trans hs.length_le (Nat.le_of_lt h.front.length_lt)

theorem Declaration.front {strict : Bool} {ts rest : List Token} {s : Stmt} :
    Declaration strict ts s rest → Front declStarts ts rest
  | .classDecl hword _ hsuper _ hmethods _ => by
    refine .cons (by rw [hword]; decide) ?_
    have h₁ := hsuper.length_le
    have h₂ := hmethods.length_le
    simp only [List.length_cons] at h₁ h₂ ⊢
    omega
  | .funDecl hword h => .cons (by rw [hword]; decide) (Nat.le_of_lt h.front.length_lt)
  | .varDecl h => h.front.mono (by decide)
  | .statement h => h.front.mono stmtStarts_subset

theorem Function.front {strict : Bool} {ts rest : List Token} {f : FunctionDecl} :
    Function strict ts f rest → Front [.identifier] ts rest
  | .mk hname _ hparams _ hbody => by
    refine .cons (List.mem_singleton.2 hname) ?_
    have h₁ := hparams.length_le
    have h₂ := hbody.front.length_lt
    simp only [List.length_cons] at h₁ ⊢
    omega

theorem Functions.length_le {strict : Bool} {ts rest : List Token} {fs : List FunctionDecl} :
    Functions strict ts fs rest → rest.length ≤ ts.length
  | .nil => Nat.le_refl _
  | .cons h hs => Nat.le_trans hs.length_le (Nat.le_of_lt h.front.length_lt)

end

end Syntax

/-! ## Stops -/

/-- The next token, if there is one, is of none of the kinds. -/
def Halts (kinds : List Kind) (rest : List Token) : Prop := ∀ t ∈ rest.head?, t.kind ∉ kinds

theorem Halts.mono {kinds fewer : List Kind} {rest : List Token} (h : Halts kinds rest)
    (hsub : fewer ⊆ kinds) : Halts fewer rest :=
  fun t ht hk => h t ht (hsub hk)

theorem halts_cons {kinds : List Kind} {t : Token} {rest : List Token} (h : t.kind ∉ kinds) :
    Halts kinds (t :: rest) := by
  intro x hx
  cases hx
  exact h

namespace Grammar

/-- The kinds that go on with a call. -/
def callExtensions : List Kind := [.leftParen, .dot]

namespace Level

/-- The levels from a given one on, loosest first. -/
def inner (l : Level) : List Level :=
  [disjunction, conjunction, equality, comparison, term, factor].dropWhile (· ≠ l)

/-- The kinds that go on with a phrase of a level. -/
def extensions (l : Level) : List Kind := l.inner.flatMap operators ++ callExtensions

/-- The kinds that go on with an operand of a level. -/
def operandExtensions (l : Level) : List Kind := l.inner.tail.flatMap operators ++ callExtensions

theorem operators_subset (l : Level) : l.operators ⊆ l.extensions := by
  cases l <;> decide

theorem operandExtensions_subset (l : Level) : l.operandExtensions ⊆ l.extensions := by
  cases l <;> decide

/-- An operator ends the operand before it. -/
theorem not_mem_operandExtensions {l : Level} {k : Kind} (h : k ∈ l.operators) :
    k ∉ l.operandExtensions := by
  revert k
  cases l <;> decide

end Level

/-- The kinds that go on with an expression. -/
def exprExtensions : List Kind := .equal :: Level.extensions .disjunction

end Grammar

end Lox
