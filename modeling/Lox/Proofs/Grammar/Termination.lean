import Lox.Proofs.Grammar.Progress
import Mathlib.Logic.Function.Iterate

/-!
# The grammar without bounds

The rules of the grammar carry a bound on the calls that they may nest. Here they are written
without one: `Rules.deepen` says what each rule does when the rules that it calls are given, and
unfolding it `n` times over any rules whatsoever gives the rules with `n` nested calls.

**Work.** Each call has an amount of work (`Nonterminal.work`): the tokens that are left, and among
calls at the same place the height of the rule in the grammar. A rule only calls rules with less
work (`deepen_eq`), so that unfolding the rules as often as there is work never gets to the rules
at the bottom (`iterate_deepen_eq`). In particular a larger bound changes nothing
(`rule_eq_of_work_lt`).

Main statement: `parse_terminates`.
-/

namespace Lox

namespace Grammar

open Rule

/-! ## The rules and what they call -/

/-- The rules that call each other, each with what its caller hands on. -/
inductive Nonterminal where
  | expression
  | operand (l : Level)
  | level (l : Level)
  | levelTail (l : Level) (left : Expr)
  | unary
  | callTail (callee : Expr)
  | arguments
  | argumentList (position : Nat)
  | primary
  | paramList (position : Nat)
  | declaration
  | classDecl
  | methodList
  | function (role : FunctionRole)
  | block
  | statement
  | forLoop
  | branch
  | loop
  | program

namespace Nonterminal

/-- What a rule gives. -/
@[reducible]
def Value : Nonterminal → Type
  | expression | operand _ | level _ | levelTail _ _ | unary | callTail _ | primary => Expr
  | arguments | argumentList _ => List Expr
  | paramList _ => List Token
  | declaration => Option Stmt
  | methodList => List FunctionDecl
  | function _ => FunctionDecl
  | block | program => List Stmt
  | classDecl | statement | forLoop | branch | loop => Stmt

/-- The rule with a bound on nested calls. -/
def rule : (x : Nonterminal) → Nat → Rule x.Value
  | expression, n => Grammar.expression n
  | operand l, n => Grammar.operand n l
  | level l, n => Grammar.level n l
  | levelTail l left, n => Grammar.levelTail n l left
  | unary, n => Grammar.unary n
  | callTail callee, n => Grammar.callTail n callee
  | arguments, n => Grammar.arguments n
  | argumentList position, n => Grammar.argumentList n position
  | primary, n => Grammar.primary n
  | paramList position, n => Grammar.paramList n position
  | declaration, n => Grammar.declaration n
  | classDecl, n => Grammar.classDecl n
  | methodList, n => Grammar.methodList n
  | function role, n => Grammar.function n role
  | block, n => Grammar.block n
  | statement, n => Grammar.statement n
  | forLoop, n => Grammar.forLoop n
  | branch, n => Grammar.branch n
  | loop, n => Grammar.loop n
  | program, n => Grammar.program n

end Nonterminal

/-- A choice of all the rules. -/
def Rules := (x : Nonterminal) → Rule x.Value

namespace Rules

/-- The rules with a bound on nested calls. -/
def bounded (n : Nat) : Rules := fun x => x.rule n

variable (r : Rules)

def params : Rule (List Token) := do
  if (← peek?) = some .rightParen then pure [] else r (.paramList 0)

def exprUntil (kind : Kind) : Rule (Option Expr) := do
  if (← peek?) = some kind then pure none else some <$> r .expression

def varDecl : Rule Stmt := do
  let name ← expect .identifier .varName
  let value ←
    match ← accept? [.equal] with
    | some _ => some <$> r .expression
    | none => pure none
  let _ ← expect .semicolon .varEnd
  pure (.varDecl name value)

def expressionStatement : Rule Stmt := do
  let expr ← r .expression
  let _ ← expect .semicolon .expressionEnd
  pure (.expression expr)

def printStatement : Rule Stmt := do
  let expr ← r .expression
  let _ ← expect .semicolon .printEnd
  pure (.print expr)

def returnStatement (keyword : Token) : Rule Stmt := do
  let value ← r.exprUntil .semicolon
  let _ ← expect .semicolon .returnEnd
  pure (.ret keyword value)

def forInitializer : Rule (Option Stmt) := do
  match ← accept? [.semicolon] with
  | some _ => pure none
  | none => do
    match ← accept? [.varWord] with
    | some _ => some <$> r.varDecl
    | none => some <$> r.expressionStatement

def expression : Rule Expr := do
  let target ← r (.level .disjunction)
  match ← accept? [.equal] with
  | none => pure target
  | some equals => do
    let value ← r .expression
    assignTo target equals value

def operand (l : Level) : Rule Expr :=
  match l.tighter? with
  | some tight => r (.level tight)
  | none => r .unary

def level (l : Level) : Rule Expr := do
  let left ← r (.operand l)
  r (.levelTail l left)

def levelTail (l : Level) (left : Expr) : Rule Expr := do
  match ← accept? l.operators with
  | none => pure left
  | some op => do
    let right ← r (.operand l)
    r (.levelTail l (l.join left op right))

def unary : Rule Expr := do
  match ← accept? [.bang, .minus] with
  | some op => do
    let right ← r .unary
    pure (.unary op right)
  | none => do
    let callee ← r .primary
    r (.callTail callee)

def callTail (callee : Expr) : Rule Expr := do
  match ← accept? [.leftParen] with
  | some _ => do
    let args ← r .arguments
    let paren ← expect .rightParen .argumentsClose
    r (.callTail (.call callee paren args))
  | none => do
    match ← accept? [.dot] with
    | some _ => do
      let name ← expect .identifier .propertyName
      r (.callTail (.get callee name))
    | none => pure callee

def arguments : Rule (List Expr) := do
  if (← peek?) = some .rightParen then pure [] else r (.argumentList 0)

def argumentList (position : Nat) : Rule (List Expr) := do
  if maxArity ≤ position then recordHere .tooManyArguments
  let argument ← r .expression
  match ← accept? [.comma] with
  | none => pure [argument]
  | some _ => do
    let rest ← r (.argumentList (position + 1))
    pure (argument :: rest)

def primary : Rule Expr := do
  match ← accept? [.falseWord, .trueWord, .nilWord, .number, .string, .superWord, .thisWord,
    .identifier, .leftParen] with
  | none => failHere .expression
  | some t =>
    match t.kind with
    | .falseWord => pure (.constant (.bool false))
    | .trueWord => pure (.constant (.bool true))
    | .nilWord => pure (.constant .nil)
    | .superWord => superMethod t
    | .thisWord => do
      let id ← freshId
      pure (.this id t)
    | .identifier => do
      let id ← freshId
      pure (.var id t)
    | .leftParen => do
      let inner ← r .expression
      let _ ← expect .rightParen .groupingClose
      pure (.grouping inner)
    | _ => ofLiteral t

def paramList (position : Nat) : Rule (List Token) := do
  if maxArity ≤ position then recordHere .tooManyParams
  let param ← expect .identifier .paramName
  match ← accept? [.comma] with
  | none => pure [param]
  | some _ => do
    let rest ← r (.paramList (position + 1))
    pure (param :: rest)

def declaration : Rule (Option Stmt) := recover do
  match ← accept? [.classWord, .funWord, .varWord] with
  | none => r .statement
  | some t =>
    match t.kind with
    | .classWord => r .classDecl
    | .funWord => .funDecl <$> r (.function .function)
    | _ => r.varDecl

def classDecl : Rule Stmt := do
  let name ← expect .identifier .className
  let superclass ← superclass
  let _ ← expect .leftBrace .classOpen
  let methods ← r .methodList
  pure (.classDecl name superclass methods)

def methodList : Rule (List FunctionDecl) := do
  match ← peek? with
  | none | some .rightBrace => do
    let _ ← expect .rightBrace .classClose
    pure []
  | some _ => do
    let method ← r (.function .method)
    let rest ← r .methodList
    pure (method :: rest)

def function (role : FunctionRole) : Rule FunctionDecl := do
  let name ← expect .identifier (.functionName role)
  let _ ← expect .leftParen (.paramsOpen role)
  let params ← r.params
  let _ ← expect .rightParen .paramsClose
  let _ ← expect .leftBrace (.bodyOpen role)
  let body ← r .block
  pure ⟨name, params, body⟩

def block : Rule (List Stmt) := do
  match ← peek? with
  | none | some .rightBrace => do
    let _ ← expect .rightBrace .blockClose
    pure []
  | some _ => do
    let stmt ← r .declaration
    let rest ← r .block
    pure (stmt.toList ++ rest)

def statement : Rule Stmt := do
  match ← accept? [.forWord, .ifWord, .whileWord, .returnWord, .leftBrace, .printWord] with
  | none => r.expressionStatement
  | some t =>
    match t.kind with
    | .forWord => r .forLoop
    | .ifWord => r .branch
    | .whileWord => r .loop
    | .returnWord => r.returnStatement t
    | .leftBrace => .block <$> r .block
    | _ => r.printStatement

def forLoop : Rule Stmt := do
  let _ ← expect .leftParen .forOpen
  let initializer ← r.forInitializer
  let condition ← r.exprUntil .semicolon
  let _ ← expect .semicolon .forConditionEnd
  let increment ← r.exprUntil .rightParen
  let _ ← expect .rightParen .forClose
  let body ← r .statement
  pure (.forLoop initializer condition increment body)

def branch : Rule Stmt := do
  let _ ← expect .leftParen .ifOpen
  let condition ← r .expression
  let _ ← expect .rightParen .ifClose
  let thenBranch ← r .statement
  match ← accept? [.elseWord] with
  | none => pure (.branch condition thenBranch none)
  | some _ => do
    let elseBranch ← r .statement
    pure (.branch condition thenBranch (some elseBranch))

def loop : Rule Stmt := do
  let _ ← expect .leftParen .whileOpen
  let condition ← r .expression
  let _ ← expect .rightParen .whileClose
  let body ← r .statement
  pure (.loop condition body)

def program : Rule (List Stmt) := do
  match ← peek? with
  | none => pure []
  | some _ => do
    let stmt ← r .declaration
    let rest ← r .program
    pure (stmt.toList ++ rest)

/-- One round of the rules: what each one does, if the given rules are the ones that it calls. -/
def deepen : Rules
  | .expression => r.expression
  | .operand l => r.operand l
  | .level l => r.level l
  | .levelTail l left => r.levelTail l left
  | .unary => r.unary
  | .callTail callee => r.callTail callee
  | .arguments => r.arguments
  | .argumentList position => r.argumentList position
  | .primary => r.primary
  | .paramList position => r.paramList position
  | .declaration => r.declaration
  | .classDecl => r.classDecl
  | .methodList => r.methodList
  | .function role => r.function role
  | .block => r.block
  | .statement => r.statement
  | .forLoop => r.forLoop
  | .branch => r.branch
  | .loop => r.loop
  | .program => r.program

/-- One more nested call is one round more. -/
theorem bounded_succ (n : Nat) : bounded (n + 1) = (bounded n).deepen := by
  funext x
  cases x <;> rfl

theorem iterate_deepen_bounded (n k : Nat) : deepen^[n] (bounded k) = bounded (n + k) := by
  induction n with
  | zero => rw [Function.iterate_zero_apply, Nat.zero_add]
  | succ n ih => rw [Function.iterate_succ_apply', ih, ← bounded_succ, Nat.add_right_comm]

end Rules

/-! ## Work -/

theorem lt_callBound (tokens : Nat) : tokens < callBound tokens := by
  unfold callBound
  omega

theorem add_callBound_le (tokens more : Nat) :
    tokens + callBound more ≤ callBound (tokens + more) := by
  unfold callBound
  omega

theorem callBound_mono {tokens more : Nat} (h : tokens ≤ more) :
    callBound tokens ≤ callBound more :=
  Nat.mul_le_mul_left 32 (Nat.succ_le_succ h)

namespace Level

/-- The place of a level among the rules that read no token before they call the next. -/
def rank : Level → Nat
  | factor => 2
  | term => 4
  | comparison => 6
  | equality => 8
  | conjunction => 10
  | disjunction => 12

theorem rank_tighter {l tight : Level} (h : l.tighter? = some tight) :
    tight.rank + 2 ≤ l.rank := by
  cases l <;> cases h <;> decide

end Level

namespace Nonterminal

/-- The height of a rule: each one calls only lower ones before it reads a token. -/
def rank : Nonterminal → Nat
  | unary | methodList => 1
  | operand l => l.rank
  | level l => l.rank + 1
  | expression => 14
  | argumentList _ | statement => 15
  | arguments | declaration => 16
  | block | program => 17
  | _ => 0

theorem rank_lt (x : Nonterminal) : x.rank < 32 := by
  cases x with
  | operand l => cases l <;> decide
  | level l => cases l <;> decide
  | _ => exact of_decide_eq_true rfl

/-- The work of a call: first the tokens that are left, then the height of the rule. -/
def work (x : Nonterminal) (c : Cursor) : Nat := 32 * c.tokens.length + x.rank

variable {x y : Nonterminal} {c d : Cursor}

theorem work_lt_callBound (x : Nonterminal) (c : Cursor) :
    x.work c < callBound c.tokens.length := by
  have := x.rank_lt
  unfold work callBound
  omega

theorem work_lt_of_passes (h : c.Passes d) : y.work d < x.work c := by
  have hlen : d.tokens.length + 1 ≤ c.tokens.length := h
  have := y.rank_lt
  unfold work
  omega

theorem work_lt_of_rank (h : c.Reaches d) (hr : y.rank < x.rank) : y.work d < x.work c := by
  have := h.tokens.length_le
  unfold work
  omega

theorem levelTail_moves (n : Nat) (l : Level) (left : Expr) (c : Cursor) :
    (Grammar.levelTail n l left).Gives c fun _ _ => True := by
  -- On the bound: after an operator and its operand, the tail goes on with one call less.
  induction n generalizing left c with
  | zero => exact .pure trivial
  | succ n ih =>
    refine (Gives.accept? _).bind ?_
    rintro _ c₁ - (⟨rfl, -, -⟩ | ⟨op, rfl, -, -⟩)
    · exact .pure trivial
    · exact ((expressionsBuilt n).operand l c₁).bind fun right c₂ _ _ => ih _ c₂

theorem callTail_moves (n : Nat) (callee : Expr) (c : Cursor) :
    (Grammar.callTail n callee).Gives c fun _ _ => True := by
  induction n generalizing callee c with
  | zero => exact .pure trivial
  | succ n ih =>
    refine (Gives.accept? _).bind ?_
    rintro _ c₁ - (⟨rfl, -, -⟩ | ⟨_, rfl, -, -⟩)
    · refine (Gives.accept? _).bind ?_
      rintro _ c₂ - (⟨rfl, -, -⟩ | ⟨_, rfl, -, -⟩)
      · exact .pure trivial
      · exact (Gives.expect _ _).bind fun name c₃ _ _ => ih _ c₃
    · refine ((expressionsBuilt n).arguments c₁).bind fun args c₂ _ _ => ?_
      exact (Gives.expect _ _).bind fun paren c₃ _ _ => ih _ c₃

/-- Every rule moves on from where it is called. -/
theorem rule_gives (x : Nonterminal) (n : Nat) (c : Cursor) :
    (x.rule n).Gives c fun _ _ => True := by
  have hexpr := expressionsBuilt n
  have hstmt := statementsRead n
  cases x with
  | expression => exact (hexpr.expression c).mono fun _ _ _ _ => trivial
  | operand l => exact (hexpr.operand l c).mono fun _ _ _ _ => trivial
  | level l => exact (hexpr.level l c).mono fun _ _ _ _ => trivial
  | levelTail l left => exact levelTail_moves n l left c
  | unary => exact (hexpr.unary c).mono fun _ _ _ _ => trivial
  | callTail callee => exact callTail_moves n callee c
  | arguments => exact (hexpr.arguments c).mono fun _ _ _ _ => trivial
  | argumentList position => exact (hexpr.argumentList position c).mono fun _ _ _ _ => trivial
  | primary => exact (hexpr.primary c).mono fun _ _ _ _ => trivial
  | paramList position => exact (paramList_built n position c).mono fun _ _ _ _ => trivial
  | declaration => exact (hstmt.declaration c).mono fun _ _ _ _ => trivial
  | classDecl => exact (hstmt.classDecl c).mono fun _ _ _ _ => trivial
  | methodList => exact (hstmt.methodList c).mono fun _ _ _ _ => trivial
  | function role => exact (hstmt.function role c).mono fun _ _ _ _ => trivial
  | block => exact (hstmt.block c).mono fun _ _ _ _ => trivial
  | statement => exact (hstmt.statement c).mono fun _ _ _ _ => trivial
  | forLoop => exact (hstmt.forLoop c).mono fun _ _ _ _ => trivial
  | branch => exact (hstmt.branch c).mono fun _ _ _ _ => trivial
  | loop => exact (hstmt.loop c).mono fun _ _ _ _ => trivial
  | program => exact (program_read n c).mono fun _ _ _ _ => trivial

end Nonterminal

/-! ## Every call is one with less work -/

section

variable {α β : Type} {c : Cursor} {p q : Rule α} {f g : α → Rule β}

/-- Two steps in a row agree if the first ones do, and the second ones wherever the first ones can
lead. -/
theorem bind_congr {Q : α → Cursor → Prop} (h : p c = q c) (hq : q.Gives c Q)
    (hfg : ∀ a d, c.Reaches d → Q a d → f a d = g a d) : (p >>= f) c = (q >>= g) c := by
  -- What `q` gives is a place that it can reach, and from there on both continue alike.
  cases hd : q c with
  | fail error d => simp only [Bind.bind, h, hd]
  | ok a d =>
    simp only [Bind.bind, h, hd]
    exact hfg a d (hq.of_ok hd).1 (hq.of_ok hd).2

theorem bind_congr_left (h : p c = q c) : (p >>= f) c = (q >>= f) c := by
  simp only [Bind.bind, h]

/-- One item and the items after it: what reads the rest has to agree only beyond the first. -/
theorem more_congr {p' q' : Rule β} (cons : α → β → β) (h : p c = q c)
    (hq : q.Gives c fun _ d => c.Passes d) (h' : ∀ d, c.Passes d → p' d = q' d) :
    (do let a ← p; let b ← p'; pure (cons a b) : Rule β) c =
      (do let a ← q; let b ← q'; pure (cons a b) : Rule β) c :=
  bind_congr h hq fun _ d _ hd => bind_congr_left (h' d hd)

theorem recover_congr {p q : Rule Stmt} (h : p c = q c) : recover p c = recover q c := by
  simp only [recover, h]

/-- An error recorded under a condition, before rules that agree. -/
theorem recordIf_congr {P : Prop} [Decidable P] {fault : GrammarFault}
    (h : ∀ d, c.Reaches d → p d = q d) :
    (if P then recordHere fault >>= fun _ => p else p) c =
      (if P then recordHere fault >>= fun _ => q else q) c := by
  by_cases hP : P
  · rw [if_pos hP, if_pos hP]
    exact bind_congr rfl (Gives.recordHere fault) fun _ d hd _ => h d hd
  · rw [if_neg hP, if_neg hP]
    exact h c (.refl c)

end

section

variable {r : Rules} {n : Nat} {c : Cursor}

open Nonterminal

/-- Beyond a cursor the rules agree with those of the grammar. -/
def AgreeBeyond (r : Rules) (n : Nat) (c : Cursor) : Prop :=
  ∀ y d, c.Passes d → r y d = y.rule n d

theorem params_congr (h : r (.paramList 0) c = Grammar.paramList n 0 c) :
    r.params c = Grammar.params n c := by
  refine bind_congr rfl Gives.peek? ?_
  rintro k _ - ⟨rfl, -⟩
  split
  · rfl
  · exact h

theorem exprUntil_congr (kind : Kind) (h : r .expression c = Grammar.expression n c) :
    r.exprUntil kind c = Grammar.exprUntil kind n c := by
  refine bind_congr rfl Gives.peek? ?_
  rintro k _ - ⟨rfl, -⟩
  split
  · rfl
  · exact bind_congr_left h

theorem varDecl_congr (ih : AgreeBeyond r n c) : r.varDecl c = Grammar.varDecl n c := by
  refine bind_congr rfl (Gives.expect _ _) ?_
  rintro name d - ⟨-, hname⟩
  refine bind_congr rfl (Gives.accept? _) ?_
  rintro _ d' hd' (⟨rfl, rfl, -⟩ | ⟨t, rfl, -, -⟩)
  · rfl
  · have hvalue := ih .expression d' ((Cursor.Passes.of_cons hname).reaches hd')
    exact bind_congr_left (bind_congr_left hvalue)

theorem expressionStatement_congr (h : r .expression c = Grammar.expression n c) :
    r.expressionStatement c = Grammar.expressionStatement n c :=
  bind_congr_left h

theorem printStatement_congr (h : r .expression c = Grammar.expression n c) :
    r.printStatement c = Grammar.printStatement n c :=
  bind_congr_left h

theorem returnStatement_congr (keyword : Token) (h : r .expression c = Grammar.expression n c) :
    r.returnStatement keyword c = Grammar.returnStatement keyword n c :=
  bind_congr_left (exprUntil_congr _ h)

theorem forInitializer_congr (h : r .expression c = Grammar.expression n c)
    (ih : AgreeBeyond r n c) : r.forInitializer c = Grammar.forInitializer n c := by
  refine bind_congr rfl (Gives.accept? _) ?_
  rintro _ d - (⟨rfl, rfl, -⟩ | ⟨t, rfl, -, -⟩)
  · refine bind_congr rfl (Gives.accept? _) ?_
    rintro _ d' - (⟨rfl, rfl, -⟩ | ⟨t, rfl, -, ht⟩)
    · exact bind_congr_left (expressionStatement_congr h)
    · refine bind_congr_left (varDecl_congr ?_)
      intro y e he
      exact ih y e (Nat.lt_trans he (Cursor.Passes.of_cons ht))
  · rfl

theorem deepen_expression (past : AgreeBeyond r n c)
    (h : r (.level .disjunction) c = Grammar.level n .disjunction c) :
    r.deepen .expression c = Grammar.expression (n + 1) c := by
  refine bind_congr h ((expressionsBuilt n).level _ c) fun target d hd _ => ?_
  refine bind_congr rfl (Gives.accept? _) ?_
  rintro _ d' - (⟨rfl, rfl, -⟩ | ⟨t, rfl, -, ht⟩)
  · rfl
  · exact bind_congr_left (past .expression d' (hd.passes (.of_cons ht)))

theorem deepen_operand (l : Level)
    (h : ∀ tight, l.tighter? = some tight → r (.level tight) c = Grammar.level n tight c)
    (hunary : r .unary c = Grammar.unary n c) :
    r.deepen (.operand l) c = Grammar.operand (n + 1) l c := by
  cases l with
  | factor => exact hunary
  | _ => exact h _ rfl

theorem deepen_level (l : Level) (h : r (.operand l) c = Grammar.operand n l c)
    (htail : ∀ left d, c.Reaches d → r (.levelTail l left) d = Grammar.levelTail n l left d) :
    r.deepen (.level l) c = Grammar.level (n + 1) l c :=
  bind_congr h ((expressionsBuilt n).operand l c) fun left d hd _ => htail left d hd

theorem deepen_levelTail (past : AgreeBeyond r n c) (l : Level) (left : Expr) :
    r.deepen (.levelTail l left) c = Grammar.levelTail (n + 1) l left c := by
  refine bind_congr rfl (Gives.accept? _) ?_
  rintro _ d - (⟨rfl, rfl, -⟩ | ⟨op, rfl, -, hop⟩)
  · rfl
  -- The operator has been read, so all that follows is further on.
  · have hd := Cursor.Passes.of_cons hop
    refine bind_congr (past (.operand l) d hd) ((expressionsBuilt n).operand l d) ?_
    intro right d' hd' _
    exact past (.levelTail l _) d' (hd.reaches hd')

theorem deepen_unary (past : AgreeBeyond r n c) (h : r .primary c = Grammar.primary n c)
    (htail : ∀ callee d, c.Reaches d → r (.callTail callee) d = Grammar.callTail n callee d) :
    r.deepen .unary c = Grammar.unary (n + 1) c := by
  refine bind_congr rfl (Gives.accept? _) ?_
  rintro _ d - (⟨rfl, rfl, -⟩ | ⟨op, rfl, -, hop⟩)
  · exact bind_congr h ((expressionsBuilt n).primary d) fun callee d' hd' _ => htail callee d' hd'
  · exact bind_congr_left (past .unary d (.of_cons hop))

theorem deepen_callTail (past : AgreeBeyond r n c) (callee : Expr) :
    r.deepen (.callTail callee) c = Grammar.callTail (n + 1) callee c := by
  refine bind_congr rfl (Gives.accept? _) ?_
  rintro _ d - (⟨rfl, rfl, -⟩ | ⟨_, rfl, -, hparen⟩)
  · refine bind_congr rfl (Gives.accept? _) ?_
    rintro _ d' - (⟨rfl, rfl, -⟩ | ⟨_, rfl, -, hdot⟩)
    · rfl
    · refine bind_congr rfl (Gives.expect _ _) fun name d'' hd'' _ => ?_
      exact past (.callTail _) d'' ((Cursor.Passes.of_cons hdot).reaches hd'')
  · have hd := Cursor.Passes.of_cons hparen
    refine bind_congr (past .arguments d hd) ((expressionsBuilt n).arguments d) ?_
    intro args d' hd' _
    refine bind_congr rfl (Gives.expect _ _) fun paren d'' hd'' _ => ?_
    exact past (.callTail _) d'' (hd.reaches (hd'.trans hd''))

theorem deepen_arguments (h : r (.argumentList 0) c = Grammar.argumentList n 0 c) :
    r.deepen .arguments c = Grammar.arguments (n + 1) c := by
  refine bind_congr rfl Gives.peek? ?_
  rintro k _ - ⟨rfl, -⟩
  split
  · rfl
  · exact h

theorem deepen_argumentList (past : AgreeBeyond r n c) (position : Nat)
    (h : ∀ d, c.Reaches d → r .expression d = Grammar.expression n d) :
    r.deepen (.argumentList position) c = Grammar.argumentList (n + 1) position c := by
  refine recordIf_congr fun d hd => ?_
  refine bind_congr (h d hd) ((expressionsBuilt n).expression d) fun argument d₁ h₁ _ => ?_
  refine bind_congr rfl (Gives.accept? _) ?_
  rintro _ d₂ - (⟨rfl, rfl, -⟩ | ⟨_, rfl, -, hcomma⟩)
  · rfl
  · exact bind_congr_left (past (.argumentList _) d₂ ((hd.trans h₁).passes (.of_cons hcomma)))

theorem deepen_primary (past : AgreeBeyond r n c) :
    r.deepen .primary c = Grammar.primary (n + 1) c := by
  refine bind_congr rfl (Gives.accept? _) ?_
  rintro _ d - (⟨rfl, rfl, -⟩ | ⟨t, rfl, -, ht⟩)
  · rfl
  · dsimp only
    cases t.kind with
    | leftParen => exact bind_congr_left (past .expression d (.of_cons ht))
    | _ => rfl

theorem deepen_paramList (past : AgreeBeyond r n c) (position : Nat) :
    r.deepen (.paramList position) c = Grammar.paramList (n + 1) position c := by
  refine recordIf_congr fun d hd => ?_
  refine bind_congr rfl (Gives.expect _ _) fun param d₁ h₁ _ => ?_
  refine bind_congr rfl (Gives.accept? _) ?_
  rintro _ d₂ - (⟨rfl, rfl, -⟩ | ⟨_, rfl, -, hcomma⟩)
  · rfl
  · exact bind_congr_left (past (.paramList _) d₂ ((hd.trans h₁).passes (.of_cons hcomma)))

theorem deepen_declaration (past : AgreeBeyond r n c) (h : r .statement c = Grammar.statement n c) :
    r.deepen .declaration c = Grammar.declaration (n + 1) c := by
  refine recover_congr (bind_congr rfl (Gives.accept? _) ?_)
  rintro _ d - (⟨rfl, rfl, -⟩ | ⟨t, rfl, -, ht⟩)
  · exact h
  · have hd := Cursor.Passes.of_cons ht
    have hvar := varDecl_congr fun y e he => past y e (Nat.lt_trans he hd)
    dsimp only
    cases t.kind with
    | classWord => exact past .classDecl d hd
    | funWord => exact bind_congr_left (past (.function .function) d hd)
    | _ => exact hvar

theorem deepen_classDecl (past : AgreeBeyond r n c) :
    r.deepen .classDecl c = Grammar.classDecl (n + 1) c := by
  refine bind_congr rfl (Gives.expect _ _) ?_
  rintro name d₁ - ⟨-, hname⟩
  refine bind_congr rfl (superclass_built d₁) fun superclass d₂ h₂ _ => ?_
  refine bind_congr rfl (Gives.expect _ _) fun _ d₃ h₃ _ => ?_
  exact bind_congr_left
    (past .methodList d₃ ((Cursor.Passes.of_cons hname).reaches (h₂.trans h₃)))

theorem deepen_methodList (past : AgreeBeyond r n c)
    (h : r (.function .method) c = Grammar.function n .method c) :
    r.deepen .methodList c = Grammar.methodList (n + 1) c := by
  refine bind_congr rfl Gives.peek? ?_
  rintro (_ | k) c - ⟨rfl, -⟩
  · rfl
  · have hmore := more_congr List.cons h (function_passes n _ c) (past .methodList)
    cases k with
    | rightBrace => rfl
    | _ => exact hmore

theorem deepen_function (past : AgreeBeyond r n c) (role : FunctionRole) :
    r.deepen (.function role) c = Grammar.function (n + 1) role c := by
  refine bind_congr rfl (Gives.expect _ _) ?_
  rintro name d₁ - ⟨-, hname⟩
  have hd₁ := Cursor.Passes.of_cons hname
  refine bind_congr rfl (Gives.expect _ _) fun _ d₂ h₂ _ => ?_
  have hparams := params_congr (past (.paramList 0) d₂ (hd₁.reaches h₂))
  refine bind_congr hparams (params_built n d₂) fun params d₃ h₃ _ => ?_
  refine bind_congr rfl (Gives.expect _ _) fun _ d₄ h₄ _ => ?_
  refine bind_congr rfl (Gives.expect _ _) fun _ d₅ h₅ _ => ?_
  exact bind_congr_left
    (past .block d₅ (hd₁.reaches (h₂.trans (h₃.trans (h₄.trans h₅)))))

/-- Where a token is left, a declaration takes one. -/
theorem declaration_gives_passes (n : Nat) {k : Kind}
    (hk : some k = c.tokens.head?.map Token.kind) :
    (Grammar.declaration n).Gives c fun _ d => c.Passes d := by
  obtain ⟨s, d, hs, hreach, hpast⟩ := declaration_passes n c
  have hc : c.tokens ≠ [] := by
    intro hnil
    rw [hnil] at hk
    cases hk
  rw [Gives, hs]
  exact ⟨hreach, hpast hc⟩

theorem deepen_block (past : AgreeBeyond r n c) (h : r .declaration c = Grammar.declaration n c) :
    r.deepen .block c = Grammar.block (n + 1) c := by
  refine bind_congr rfl Gives.peek? ?_
  rintro (_ | k) c - ⟨rfl, hk⟩
  · rfl
  · have hmore := more_congr (fun s ss => s.toList ++ ss) h (declaration_gives_passes n hk)
      (past .block)
    cases k with
    | rightBrace => rfl
    | _ => exact hmore

theorem deepen_statement (past : AgreeBeyond r n c)
    (h : r .expression c = Grammar.expression n c) :
    r.deepen .statement c = Grammar.statement (n + 1) c := by
  refine bind_congr rfl (Gives.accept? _) ?_
  rintro _ d - (⟨rfl, rfl, -⟩ | ⟨t, rfl, -, ht⟩)
  · exact expressionStatement_congr h
  · have hd := Cursor.Passes.of_cons ht
    have hprint := printStatement_congr (past .expression d hd)
    dsimp only
    cases t.kind with
    | forWord => exact past .forLoop d hd
    | ifWord => exact past .branch d hd
    | whileWord => exact past .loop d hd
    | returnWord => exact returnStatement_congr t (past .expression d hd)
    | leftBrace => exact bind_congr_left (past .block d hd)
    | _ => exact hprint

theorem deepen_forLoop (past : AgreeBeyond r n c) :
    r.deepen .forLoop c = Grammar.forLoop (n + 1) c := by
  refine bind_congr rfl (Gives.expect _ _) ?_
  rintro _ d₁ - ⟨-, hparen⟩
  have hd₁ := Cursor.Passes.of_cons hparen
  have hstart := forInitializer_congr (past .expression d₁ hd₁)
    fun y e he => past y e (Nat.lt_trans he hd₁)
  refine bind_congr hstart (forInitializer_read n d₁) fun initializer d₂ h₂ _ => ?_
  have hd₂ := hd₁.reaches h₂
  refine bind_congr (exprUntil_congr _ (past .expression d₂ hd₂)) (exprUntil_built _ n d₂) ?_
  intro condition d₃ h₃ _
  refine bind_congr rfl (Gives.expect _ _) fun _ d₄ h₄ _ => ?_
  have hd₄ := hd₂.reaches (h₃.trans h₄)
  refine bind_congr (exprUntil_congr _ (past .expression d₄ hd₄)) (exprUntil_built _ n d₄) ?_
  intro increment d₅ h₅ _
  refine bind_congr rfl (Gives.expect _ _) fun _ d₆ h₆ _ => ?_
  exact bind_congr_left (past .statement d₆ (hd₄.reaches (h₅.trans h₆)))

theorem deepen_branch (past : AgreeBeyond r n c) :
    r.deepen .branch c = Grammar.branch (n + 1) c := by
  refine bind_congr rfl (Gives.expect _ _) ?_
  rintro _ d₁ - ⟨-, hparen⟩
  have hd₁ := Cursor.Passes.of_cons hparen
  refine bind_congr (past .expression d₁ hd₁) ((expressionsBuilt n).expression d₁) ?_
  intro condition d₂ h₂ _
  refine bind_congr rfl (Gives.expect _ _) fun _ d₃ h₃ _ => ?_
  have hd₃ := hd₁.reaches (h₂.trans h₃)
  refine bind_congr (past .statement d₃ hd₃) ((statementsRead n).statement d₃) ?_
  intro thenBranch d₄ h₄ _
  refine bind_congr rfl (Gives.accept? _) ?_
  rintro _ d₅ h₅ (⟨rfl, rfl, -⟩ | ⟨_, rfl, -, -⟩)
  · rfl
  · exact bind_congr_left (past .statement d₅ (hd₃.reaches (h₄.trans h₅)))

theorem deepen_loop (past : AgreeBeyond r n c) :
    r.deepen .loop c = Grammar.loop (n + 1) c := by
  refine bind_congr rfl (Gives.expect _ _) ?_
  rintro _ d₁ - ⟨-, hparen⟩
  have hd₁ := Cursor.Passes.of_cons hparen
  refine bind_congr (past .expression d₁ hd₁) ((expressionsBuilt n).expression d₁) ?_
  intro condition d₂ h₂ _
  refine bind_congr rfl (Gives.expect _ _) fun _ d₃ h₃ _ => ?_
  exact bind_congr_left (past .statement d₃ (hd₁.reaches (h₂.trans h₃)))

theorem deepen_program (past : AgreeBeyond r n c)
    (h : r .declaration c = Grammar.declaration n c) :
    r.deepen .program c = Grammar.program (n + 1) c := by
  refine bind_congr rfl Gives.peek? ?_
  rintro (_ | k) c - ⟨rfl, hk⟩
  · rfl
  · exact more_congr (fun s ss => s.toList ++ ss) h (declaration_gives_passes n hk)
      (past .program)

/-- A rule only calls rules with less work: if the given rules are those of the grammar on less
work, so is what one round makes of them. -/
theorem deepen_eq (x : Nonterminal) (ih : ∀ y d, y.work d < x.work c → r y d = y.rule n d) :
    r.deepen x c = x.rule (n + 1) c := by
  -- The hypothesis covers rules further on in the tokens, and rules of lower rank here.
  have past : AgreeBeyond r n c := fun y d h => ih y d (work_lt_of_passes h)
  have below : ∀ y d, c.Reaches d → y.rank < x.rank → r y d = y.rule n d :=
    fun y d h hr => ih y d (work_lt_of_rank h hr)
  have same : ∀ y, y.rank < x.rank → r y c = y.rule n c := fun y => below y c (.refl c)
  cases x with
  | expression => exact deepen_expression past (same (.level .disjunction) (by decide))
  | operand l =>
    refine deepen_operand l (fun tight h => same (.level tight) ?_) (same .unary ?_)
    · exact Level.rank_tighter h
    · cases l <;> decide
  | level l =>
    refine deepen_level l (same (.operand l) (Nat.lt_succ_self _)) fun left d hd => ?_
    exact below (.levelTail l left) d hd (Nat.succ_pos _)
  | levelTail l left => exact deepen_levelTail past l left
  | unary =>
    exact deepen_unary past (same .primary Nat.one_pos) fun callee d hd =>
      below (.callTail callee) d hd Nat.one_pos
  | callTail callee => exact deepen_callTail past callee
  | arguments => exact deepen_arguments (same (.argumentList 0) (Nat.lt_succ_self _))
  | argumentList position =>
    exact deepen_argumentList past position fun d hd => below .expression d hd (Nat.lt_succ_self _)
  | primary => exact deepen_primary past
  | paramList position => exact deepen_paramList past position
  | declaration => exact deepen_declaration past (same .statement (Nat.lt_succ_self _))
  | classDecl => exact deepen_classDecl past
  | methodList => exact deepen_methodList past (same (.function .method) Nat.one_pos)
  | function role => exact deepen_function past role
  | block => exact deepen_block past (same .declaration (Nat.lt_succ_self _))
  | statement => exact deepen_statement past (same .expression (Nat.lt_succ_self _))
  | forLoop => exact deepen_forLoop past
  | branch => exact deepen_branch past
  | loop => exact deepen_loop past
  | program => exact deepen_program past (same .declaration (Nat.lt_succ_self _))

end

/-- Rules that are unfolded more often than there is work give what the grammar gives, whatever
they are unfolded to in the end. -/
theorem iterate_deepen_eq (base : Rules) {n : Nat} {x : Nonterminal} {c : Cursor}
    (h : x.work c < n) : Rules.deepen^[n] base x c = x.rule n c := by
  induction n generalizing x c with
  | zero => exact absurd h (Nat.not_lt_zero _)
  | succ n ih =>
    rw [Function.iterate_succ_apply']
    exact deepen_eq x fun y d hlt => ih (Nat.lt_of_lt_of_le hlt (Nat.le_of_lt_succ h))

/-- A larger bound than there is work changes nothing. -/
theorem rule_eq_of_work_lt {m n : Nat} {x : Nonterminal} {c : Cursor} (hm : x.work c < m)
    (hn : x.work c < n) : x.rule m c = x.rule n c := by
  have grow : ∀ {n k : Nat}, x.work c < n → x.rule (n + k) c = x.rule n c := by
    intro n k h
    rw [← iterate_deepen_eq (Rules.bounded k) h, Rules.iterate_deepen_bounded]
    rfl
  rw [← grow (k := n) hm, ← grow (k := m) hn, Nat.add_comm]

theorem program_eq_of_callBound_le {n : Nat} {c : Cursor} (h : callBound c.tokens.length ≤ n) :
    program n c = program (callBound c.tokens.length) c := by
  have hwork := Nonterminal.program.work_lt_callBound c
  exact rule_eq_of_work_lt (x := .program) (Nat.lt_of_lt_of_le hwork h) hwork

/-! ## Places in a list -/

/-- Where a rule stopped, with a value or without. -/
def Outcome.rest {α : Type} : Outcome α → Cursor
  | .ok _ d => d
  | .fail _ d => d

/-- A cursor at a place of the program in a list. -/
def Cursor.IsAt (tokens : List Token) (place : Nat) (c : Cursor) : Prop :=
  place ≤ (programTokens tokens).length ∧ c.input = tokens.drop place

namespace Cursor.IsAt

variable {tokens : List Token} {i j : Nat} {c d : Cursor}

theorem tokens_eq (h : c.IsAt tokens i) : c.tokens = (programTokens tokens).drop i := by
  rw [Cursor.tokens, h.2, programTokens_drop h.1]

theorem reaches (h : c.IsAt tokens i) (hd : c.Reaches d) : ∃ j, i ≤ j ∧ d.IsAt tokens j := by
  obtain ⟨passed, hpassed, hinput⟩ := hd.input
  have hlen := congrArg List.length h.tokens_eq
  rw [Cursor.tokens, hinput, programTokens_append_of_open hpassed, List.length_append,
    List.length_drop] at hlen
  have hi := h.1
  refine ⟨i + passed.length, Nat.le_add_right _ _, by omega, ?_⟩
  rw [← List.drop_drop, ← h.2, hinput, List.drop_left]

theorem lt_of_passes (h : c.IsAt tokens i) (h' : d.IsAt tokens j) (hd : c.Passes d) : i < j := by
  unfold Cursor.Passes at hd
  rw [h.tokens_eq, h'.tokens_eq, List.length_drop, List.length_drop] at hd
  omega

theorem ne_nil (h : c.IsAt tokens i) (hi : i < (programTokens tokens).length) :
    c.tokens ≠ [] := by
  rw [h.tokens_eq]
  exact mt List.drop_eq_nil_iff.1 (Nat.not_le.2 hi)

/-- Where no token of the program is left, the cursor is at its end. -/
theorem eq_length (h : c.IsAt tokens i) (hc : c.tokens = []) :
    i = (programTokens tokens).length := by
  rw [h.tokens_eq] at hc
  exact Nat.le_antisymm h.1 (List.drop_eq_nil_iff.1 hc)

end Cursor.IsAt

theorem Nonterminal.reaches_rest (x : Nonterminal) (n : Nat) (c : Cursor) :
    c.Reaches (x.rule n c).rest := by
  have hgives := x.rule_gives n c
  cases h : x.rule n c with
  | ok a d => exact (hgives.of_ok h).1
  | fail error d => exact hgives.of_fail h

/-- A declaration that fails at a place goes on at the next boundary. -/
theorem declaration_resumes {tokens : List Token} {n i : Nat} {c d : Cursor}
    {error : GrammarError} (hc : c.IsAt tokens i) (h : attempt n c = .fail error d) :
    ∃ j k, i ≤ j ∧ d.IsAt tokens j ∧
      (j = (programTokens tokens).length → k = (programTokens tokens).length) ∧
      (j < (programTokens tokens).length → NextBoundary (programTokens tokens) j k) ∧
      declaration n c =
        .ok none { d with input := tokens.drop k, errors := d.errors ++ [error] } := by
  obtain ⟨j, hij, hj⟩ := hc.reaches ((attempt_passes n c).of_fail h)
  obtain ⟨k, hk, hlast, hnext⟩ := resume_drop hj.1
  refine ⟨j, k, hij, hj, fun hend => (hlast hend).trans hend, hnext, ?_⟩
  rw [declaration_of_fail h, hj.2, hk]

end Grammar

/-- What a list says depends on the calls allowed only as far as they suffice for the program. -/
theorem parse_eq {tokens : List Token} {firstId : NodeId} {ss : List Stmt} {d : Grammar.Cursor}
    (h : Grammar.program (Grammar.callBound (programTokens tokens).length) ⟨tokens, firstId, []⟩ =
      .ok ss d) :
    parse firstId tokens = ⟨ss, d.errors, d.nextId⟩ := by
  have hbound := Grammar.callBound_mono (programTokens_length_le tokens)
  have hrun : Grammar.program (Grammar.callBound tokens.length) ⟨tokens, firstId, []⟩ = .ok ss d :=
    (Grammar.program_eq_of_callBound_le (c := ⟨tokens, firstId, []⟩) hbound).trans h
  unfold parse
  rw [hrun]

/-- What a list says, as the outcome of reading its program to the end. -/
theorem exists_program (tokens : List Token) (firstId : NodeId) : ∃ ss d,
    Grammar.program (Grammar.callBound (programTokens tokens).length) ⟨tokens, firstId, []⟩ =
      .ok ss d ∧
    d.tokens = [] ∧ parse firstId tokens = ⟨ss, d.errors, d.nextId⟩ := by
  obtain ⟨ss, d, h, hend⟩ := Grammar.program_consumes
    (c := ⟨tokens, firstId, []⟩) (Grammar.lt_callBound (programTokens tokens).length)
  exact ⟨ss, d, h, hend, parse_eq h⟩

/-- Reading ends on every list of tokens, and makes progress on the way.

* Unfolding the rules as often as there are calls allowed gives what `parse` gives, whatever the
  rules are unfolded to in the end. All tokens before the first closing one have then been read.
* No rule steps back, or beyond the last token of the program.
* A declaration takes a token if one is left.
* After a declaration that failed, reading goes on at the first boundary beyond the token where it
  failed. -/
theorem parse_terminates (firstId : NodeId) (tokens : List Token) :
    let program := programTokens tokens
    program <+: tokens ∧
    (∀ (base : Grammar.Rules) (n : Nat), Grammar.callBound program.length ≤ n →
      ∃ statements rest,
        Grammar.Rules.deepen^[n] base .program ⟨tokens, firstId, []⟩ = .ok statements rest ∧
        rest.input = tokens.drop program.length ∧
        parse firstId tokens = ⟨statements, rest.errors, rest.nextId⟩) ∧
    (∀ (x : Grammar.Nonterminal) (n i : Nat) (c : Grammar.Cursor), c.IsAt tokens i →
      ∃ j, i ≤ j ∧ (x.rule n c).rest.IsAt tokens j) ∧
    (∀ (n i : Nat) (c : Grammar.Cursor), c.IsAt tokens i → i < program.length →
      ∃ j s d, i < j ∧ d.IsAt tokens j ∧ Grammar.declaration n c = .ok s d) ∧
    (∀ (n i : Nat) (c d : Grammar.Cursor) (error : GrammarError), c.IsAt tokens i →
      Grammar.attempt n c = .fail error d →
      ∃ j k, i ≤ j ∧ d.IsAt tokens j ∧ (j = program.length → k = program.length) ∧
        (j < program.length → Grammar.NextBoundary program j k) ∧
        Grammar.declaration n c =
          .ok none { d with input := tokens.drop k, errors := d.errors ++ [error] }) := by
  intro program
  refine ⟨List.takeWhile_prefix _, fun base n hn => ?_, fun x n i c hc => ?_,
    fun n i c hc hi => ?_, fun n i c d error hc => Grammar.declaration_resumes hc⟩
  · let start : Grammar.Cursor := ⟨tokens, firstId, []⟩
    have hstart : start.IsAt tokens 0 := ⟨Nat.zero_le _, rfl⟩
    -- The bound covers the work of the program rule, so the rules at its base play no part.
    have hwork := Grammar.Nonterminal.program.work_lt_callBound start
    obtain ⟨statements, rest, hread, hrest, hparse⟩ := exists_program tokens firstId
    have hreach := ((Grammar.program_read _ start).of_ok hread).1
    obtain ⟨j, -, hj⟩ := hstart.reaches hreach
    refine ⟨statements, rest, ?_, by rw [hj.2, hj.eq_length hrest], hparse⟩
    rw [Grammar.iterate_deepen_eq base (Nat.lt_of_lt_of_le hwork hn)]
    exact (Grammar.program_eq_of_callBound_le (c := start) hn).trans hread
  · exact hc.reaches (x.reaches_rest n c)
  · obtain ⟨s, d, hs, hreach, hpast⟩ := Grammar.declaration_passes n c
    obtain ⟨j, -, hj⟩ := hc.reaches hreach
    exact ⟨j, s, d, hc.lt_of_passes hj (hpast (hc.ne_nil hi)), hj, hs⟩

end Lox
