import Lox.Proofs.Grammar.Legible
import Lox.Proofs.Tree.Forms

/-!
# Parenthesized forms determine the tree

A form is read from the outside in. The word in front of a list says what sort of node it is, and
with the other items read, the node can be built (`Expr.build?`, `Stmt.build?`). A unary and a
binary operator with one text are told apart by the number of their operands, an assignment and the
assignment of a property by what is assigned to.

The reader gives back the tree of every legible expression and statement, without places
(`readsBack_of_legible`). So the text determines this tree.

Main statement: `statements_eq_of_parenthesized`.
-/

namespace Lox

/-! ## A reader -/

/-- The expression with an operator or a keyword in front of its parts. -/
def Expr.operate? : Kind → List Expr → Option Expr
  | .equal, [.var _ name, value] => some (.assign 0 name value)
  | .equal, [.get object name, value] => some (.set object name value)
  | .dot, [object, .var _ name] => some (.get object name)
  | .superWord, [.var _ method] => some (.super 0 (.ofKind .superWord) method)
  | k, [right] => some (.unary (.ofKind k) right)
  | k, [left, right] => some (.join k left right)
  | _, _ => none

/-- The expression with a word in front of its parts. -/
def Expr.build? (w : String) (parts : List Expr) : Option Expr :=
  match Kind.fixed? w with
  | some k => operate? k parts
  | none =>
    match w, parts with
    | "group", [inner] => some (.grouping inner)
    | "call", callee :: arguments => some (.call callee (.ofKind .rightParen) arguments)
    | _, _ => none

namespace Form

mutual

/-- The expression that a form stands for. -/
def expr? : Form → Option Expr
  | word w => Expr.leaf? w
  | list (word w :: items) => (exprs? items).bind (Expr.build? w)
  | list _ => none
termination_by structural f => f

/-- The expressions that several forms stand for. -/
def exprs? : List Form → Option (List Expr)
  | [] => some []
  | f :: fs =>
    match expr? f, exprs? fs with
    | some e, some es => some (e :: es)
    | _, _ => none
termination_by structural fs => fs

end

/-- The text of a word. -/
def word? : Form → Option String
  | word w => some w
  | list _ => none

end Form

/-- The function that a part of a class declares. -/
def method? : Form × Option Stmt → Option FunctionDecl
  | (_, some (.funDecl f)) => some f
  | _ => none

/-- The statement with a word in front of its parts, each of them with the statement that it stands
for if it stands for one. -/
def Stmt.build? (w : String) (parts : List (Form × Option Stmt)) : Option Stmt :=
  match w, parts with
  | ";", [(e, _)] => e.expr?.map .expression
  | "print", [(e, _)] => e.expr?.map .print
  | "var", [(.word name, _)] => some (.varDecl (.name name) none)
  | "var", [(.word name, _), _, (value, _)] =>
    value.expr?.map fun value => .varDecl (.name name) (some value)
  | "block", parts => (parts.mapM Prod.snd).map .block
  | "if", [(condition, _), (_, some body)] =>
    condition.expr?.map fun condition => .branch condition body none
  | "if-else", [(condition, _), (_, some body), (_, some other)] =>
    condition.expr?.map fun condition => .branch condition body (some other)
  | "while", [(condition, _), (_, some body)] =>
    condition.expr?.map fun condition => .loop condition body
  | "return", [] => some (.ret (.ofKind .returnWord) none)
  | "return", [(value, _)] =>
    value.expr?.map fun value => .ret (.ofKind .returnWord) (some value)
  | "fun", (.word name, _) :: (.list params, _) :: body =>
    (params.mapM Form.word?).bind fun params =>
      (body.mapM Prod.snd).map fun body => .funDecl ⟨.name name, params.map .name, body⟩
  | "class", (.word name, _) :: (.word _, _) :: (superclass, _) :: methods =>
    superclass.expr?.bind fun superclass =>
      (methods.mapM method?).map (.classDecl (.name name) (some superclass))
  | "class", (.word name, _) :: methods =>
    (methods.mapM method?).map (.classDecl (.name name) none)
  | _, _ => none

namespace Form

mutual

/-- The statement that a form stands for. -/
def stmt? : Form → Option Stmt
  | word _ => none
  | list (word w :: items) => Stmt.build? w (stmts? items)
  | list _ => none
termination_by structural f => f

/-- Several forms, each with the statement that it stands for if it stands for one. -/
def stmts? : List Form → List (Form × Option Stmt)
  | [] => []
  | f :: fs => (f, stmt? f) :: stmts? fs
termination_by structural fs => fs

end

end Form

/-! ## Expressions -/

theorem build?_fixed {k : Kind} {w : String} (h : k.text? = some w) (parts : List Expr) :
    Expr.build? w parts = Expr.operate? k parts := by
  unfold Expr.build?
  rw [Kind.fixed?_of_text? h]

theorem operate?_binary {k : Kind} (h : k ∈ .orWord :: .andWord :: Grammar.binaryOperators)
    (left right : Expr) : Expr.operate? k [left, right] = some (.join k left right) := by
  fin_cases h <;> rfl

theorem leaf?_constant {value : Constant} (h : (Expr.constant value).IsLegible) :
    Expr.leaf? value.written = some (.constant value) := by
  cases value with
  | nil => exact leaf?_keyword (k := .nilWord) rfl
  | bool value =>
    cases value with
    | true => exact leaf?_keyword (k := .trueWord) rfl
    | false => exact leaf?_keyword (k := .falseWord) rfl
  | number x => exact leaf?_number h
  | text => cases h

theorem leaf?_identifier {t : Token} (h : t.IsIdentifier) :
    Expr.leaf? t.lexeme = some (.var 0 t.unplaced) := by
  rw [h.eq]
  exact leaf?_name h.name

/-- The form of the expression is read as the expression. -/
def Form.Gives (f : Form) (e : Expr) : Prop := f.expr? = some e

namespace Form.Gives

variable {w : String} {f : Form} {fs : List Form} {e : Expr} {es : List Expr}

theorem name {t : Token} (h : t.IsIdentifier) : Gives (.word t.lexeme) (.var 0 t.unplaced) :=
  leaf?_identifier h

theorem exprs?_eq (h : List.Forall₂ Gives fs es) : exprs? fs = some es := by
  induction h with
  | nil => rfl
  | cons h _ ih =>
    unfold exprs?
    rw [h, ih]

/-- A list, built from what its items give. -/
theorem list (h : List.Forall₂ Gives fs es) (hbuild : Expr.build? w es = some e) :
    Gives (.list (.word w :: fs)) e := by
  unfold Gives expr?
  rw [exprs?_eq h]
  exact hbuild

/-- An operator or a keyword in front of a list. -/
theorem fixed {k : Kind} (hw : k.text? = some w) (h : List.Forall₂ Gives fs es)
    (hbuild : Expr.operate? k es = some e) : Gives (.list (.word w :: fs)) e :=
  list h ((build?_fixed hw es).trans hbuild)

end Form.Gives

/-- The form of a legible expression is read as the expression, without places. -/
theorem gives_form {e : Expr} (h : (Part.expr e).Legible) : e.form.Gives e.unplaced := by
  refine Part.Legible.expr_induction (motive := fun e => e.form.Gives e.unplaced)
    (fun e hown ih => ?_) h
  cases e with
  | constant value => exact leaf?_constant hown
  | grouping inner =>
    have hinner := ih inner List.mem_cons_self
    exact .list (.cons hinner .nil) rfl
  | unary op right =>
    have hright := ih right List.mem_cons_self
    rw [Expr.unplaced]
    rcases hown with hop | hop
    · rw [hop.eq]
      exact .fixed hop.text (.cons hright .nil) rfl
    · rw [hop.eq]
      exact .fixed hop.text (.cons hright .nil) rfl
  | binary left op right =>
    have hleft := ih left List.mem_cons_self
    have hright := ih right (List.mem_cons_of_mem _ List.mem_cons_self)
    -- The list of binary operators decides how the two sides are joined.
    obtain ⟨k, hk, hop⟩ := hown
    rw [Expr.unplaced, hop.eq, ← join_binary hk]
    exact .fixed hop.text (.cons hleft (.cons hright .nil))
      (operate?_binary (List.mem_cons_of_mem _ (List.mem_cons_of_mem _ hk)) _ _)
  | logical left op right =>
    have hleft := ih left List.mem_cons_self
    have hright := ih right (List.mem_cons_of_mem _ List.mem_cons_self)
    rw [Expr.unplaced]
    rcases hown with hop | hop
    · rw [hop.eq]
      exact .fixed hop.text (.cons hleft (.cons hright .nil)) rfl
    · rw [hop.eq]
      exact .fixed hop.text (.cons hleft (.cons hright .nil)) rfl
  | var id name => exact .name hown
  | assign id name value =>
    have hvalue := ih value List.mem_cons_self
    exact .fixed (k := .equal) rfl (.cons (.name hown) (.cons hvalue .nil)) rfl
  | call callee paren arguments =>
    have hcallee := ih callee List.mem_cons_self
    have harguments : List.Forall₂ Form.Gives (arguments.map Expr.form)
        (arguments.map Expr.unplaced) :=
      forall₂_map fun e he => ih e (List.mem_cons_of_mem _ he)
    rw [Expr.form, Expr.forms_eq_map, Expr.unplaced, Expr.unplacedAll_eq_map, hown.eq]
    exact .list (.cons hcallee harguments) rfl
  | get object name =>
    have hobject := ih object List.mem_cons_self
    exact .fixed (k := .dot) rfl (.cons hobject (.cons (.name hown) .nil)) rfl
  | set object name value =>
    have hvalue := ih value List.mem_cons_self
    have hobject := ih object (List.mem_cons_of_mem _ List.mem_cons_self)
    -- The inner list is read as a property first, and the word in front makes it a target.
    have hproperty : Form.Gives (.list [.word ".", object.form, .word name.lexeme])
        (.get object.unplaced name.unplaced) :=
      .fixed (k := .dot) rfl (.cons hobject (.cons (.name hown) .nil)) rfl
    exact .fixed (k := .equal) rfl (.cons hproperty (.cons hvalue .nil)) rfl
  | this id keyword =>
    rw [Expr.unplaced, hown.eq]
    exact leaf?_keyword (k := .thisWord) rfl
  | super id keyword method =>
    obtain ⟨hkeyword, hmethod⟩ := hown
    rw [Expr.unplaced, hkeyword.eq]
    exact .fixed (k := .superWord) rfl (.cons (.name hmethod) .nil) rfl

/-! ## Statements -/

theorem mapM_map_eq_some {α β γ : Type} {f : β → Option γ} {g : α → β} {h : α → γ} {as : List α}
    (hall : ∀ a ∈ as, f (g a) = some (h a)) : (as.map g).mapM f = some (as.map h) := by
  induction as with
  | nil => rfl
  | cons a as ih =>
    obtain ⟨ha, has⟩ := List.forall_mem_cons.1 hall
    rw [List.map_cons, List.mapM_cons, ha, ih has]
    rfl

/-- A form with the statement that it stands for if it stands for one. -/
def Form.withStmt (f : Form) : Form × Option Stmt := (f, f.stmt?)

theorem stmts?_eq_map (fs : List Form) : Form.stmts? fs = fs.map Form.withStmt := by
  induction fs with
  | nil => rfl
  | cons f fs ih =>
    rw [Form.stmts?, ih]
    rfl

theorem stmt?_list (w : String) (items : List Form) :
    Form.stmt? (.list (.word w :: items)) = Stmt.build? w (items.map Form.withStmt) := by
  rw [Form.stmt?, stmts?_eq_map]

/-- The form of a part is read as the part, without places. -/
def Part.ReadsBack : Part → Prop
  | program _ | param _ => True
  | stmt s => s.form.stmt? = some s.unplaced
  | function _ f => f.form.stmt? = some (.funDecl f.unplaced)
  | expr e => e.form.Gives e.unplaced

theorem withStmt_eq {f : Form} {s : Stmt} (h : f.stmt? = some s) : f.withStmt = (f, some s) :=
  congrArg (Prod.mk f) h

/-- The form of a legible function is read as the function, if that is so of its body. -/
theorem readsBack_function {f : FunctionDecl} {isMethod : Bool}
    (h : (Part.function isMethod f).Legible)
    (hbody : ∀ s ∈ f.body, s.form.stmt? = some s.unplaced) :
    f.form.stmt? = some (.funDecl f.unplaced) := by
  obtain ⟨name, params, body⟩ := f
  have hname : name.unplaced = .name name.lexeme := Token.IsIdentifier.eq h.own
  have hnames : params.map Token.unplaced = (params.map Token.lexeme).map Token.name := by
    rw [List.map_map]
    refine List.map_congr_left fun t ht => ?_
    have hparam : (Part.param t).Legible :=
      h.inner (List.mem_append_left _ (List.mem_map_of_mem ht))
    exact Token.IsIdentifier.eq hparam.own
  have hparams : (params.map fun t => Form.word t.lexeme).mapM Form.word? =
      some (params.map Token.lexeme) := mapM_map_eq_some fun _ _ => rfl
  have hstmts : ((body.map Stmt.form).map Form.withStmt).mapM Prod.snd =
      some (body.map Stmt.unplaced) := by
    rw [List.map_map]
    exact mapM_map_eq_some hbody
  rw [FunctionDecl.form, Stmt.forms_eq_map, stmt?_list, FunctionDecl.unplaced, hname, hnames,
    Stmt.unplacedAll_eq_map]
  show ((params.map fun t => Form.word t.lexeme).mapM Form.word?).bind (fun params =>
    (((body.map Stmt.form).map Form.withStmt).mapM Prod.snd).map fun body =>
      Stmt.funDecl ⟨.name name.lexeme, params.map .name, body⟩) = _
  rw [hparams, hstmts]
  rfl

/-- The form of a legible class is read as the class, if that is so of its parts. -/
theorem readsBack_class {name : Token} {superclass : Option Expr} {methods : List FunctionDecl}
    (hname : name.IsIdentifier) (hsuper : ∀ e ∈ superclass, e.form.Gives e.unplaced)
    (hmethods : ∀ f ∈ methods, f.form.stmt? = some (.funDecl f.unplaced)) :
    (Stmt.classDecl name superclass methods).form.stmt? =
      some (Stmt.classDecl name superclass methods).unplaced := by
  have hread : ((methods.map FunctionDecl.form).map Form.withStmt).mapM method? =
      some (methods.map FunctionDecl.unplaced) := by
    rw [List.map_map]
    refine mapM_map_eq_some fun f hf => ?_
    rw [Function.comp_apply, withStmt_eq (hmethods f hf)]
    rfl
  rw [Stmt.unplaced, hname.eq, FunctionDecl.unplacedAll_eq_map]
  cases superclass with
  | none =>
    rw [Stmt.form, FunctionDecl.forms_eq_map, stmt?_list]
    cases methods with
    | nil => rfl
    | cons f fs =>
      -- A method is a list, so what follows the name is no sign of a superclass.
      cases f
      exact congrArg (Option.map (Stmt.classDecl (.name name.lexeme) none)) hread
  | some superclass =>
    rw [Stmt.form, FunctionDecl.forms_eq_map, stmt?_list]
    show superclass.form.expr?.bind (fun superclass =>
      (((methods.map FunctionDecl.form).map Form.withStmt).mapM method?).map
        (Stmt.classDecl (.name name.lexeme) (some superclass))) = _
    rw [hsuper superclass rfl, hread]
    rfl

/-- The form of everything legible is read as what it is the form of, without places. -/
theorem readsBack_of_legible {part : Part} (h : part.Legible) : part.ReadsBack := by
  -- Down the tree: the parts of a legible part are legible, and their forms are read back.
  induction h with
  | @node part hown hparts ih =>
    cases part with
    | program ss | param name => trivial
    | expr e => exact gives_form (.node hown hparts)
    | function isMethod f =>
      exact readsBack_function (.node hown hparts) fun s hs =>
        ih (.stmt s) (List.mem_append_right _ (List.mem_map_of_mem hs))
    | stmt s =>
      cases s with
      | expression e =>
        have he : e.form.Gives e.unplaced := ih _ List.mem_cons_self
        exact congrArg (Option.map Stmt.expression) he
      | print e =>
        have he : e.form.Gives e.unplaced := ih _ List.mem_cons_self
        exact congrArg (Option.map Stmt.print) he
      | varDecl name value =>
        have hname : name.unplaced = .name name.lexeme := Token.IsIdentifier.eq hown
        rw [Part.ReadsBack, Stmt.unplaced, hname]
        cases value with
        | none => rfl
        | some value =>
          have hvalue : value.form.Gives value.unplaced := ih _ List.mem_cons_self
          exact congrArg (Option.map fun e => Stmt.varDecl (.name name.lexeme) (some e)) hvalue
      | block ss =>
        have hss : ((ss.map Stmt.form).map Form.withStmt).mapM Prod.snd =
            some (ss.map Stmt.unplaced) := by
          rw [List.map_map]
          exact mapM_map_eq_some fun s hs => ih (.stmt s) (List.mem_map_of_mem hs)
        rw [Part.ReadsBack, Stmt.form, Stmt.forms_eq_map, Stmt.unplaced, Stmt.unplacedAll_eq_map,
          stmt?_list]
        exact congrArg (Option.map Stmt.block) hss
      | branch condition thenBranch elseBranch =>
        have hcondition : condition.form.Gives condition.unplaced := ih _ List.mem_cons_self
        have hthen : thenBranch.form.stmt? = some thenBranch.unplaced :=
          ih _ (List.mem_cons_of_mem _ List.mem_cons_self)
        cases elseBranch with
        | none =>
          rw [Part.ReadsBack, Stmt.form, stmt?_list, List.map_cons, List.map_singleton,
            withStmt_eq hthen]
          exact congrArg (Option.map fun e => Stmt.branch e thenBranch.unplaced none) hcondition
        | some other =>
          have hother : other.form.stmt? = some other.unplaced :=
            ih _ (List.mem_cons_of_mem _ (List.mem_cons_of_mem _ List.mem_cons_self))
          rw [Part.ReadsBack, Stmt.form, stmt?_list, List.map_cons, List.map_cons,
            List.map_singleton, withStmt_eq hthen, withStmt_eq hother]
          exact congrArg
            (Option.map fun e => Stmt.branch e thenBranch.unplaced (some other.unplaced)) hcondition
      | loop condition body =>
        have hcondition : condition.form.Gives condition.unplaced := ih _ List.mem_cons_self
        have hbody : body.form.stmt? = some body.unplaced :=
          ih _ (List.mem_cons_of_mem _ List.mem_cons_self)
        rw [Part.ReadsBack, Stmt.form, stmt?_list, List.map_cons, List.map_singleton,
          withStmt_eq hbody]
        exact congrArg (Option.map fun e => Stmt.loop e body.unplaced) hcondition
      | funDecl f => exact ih (.function false f) List.mem_cons_self
      | ret keyword value =>
        have hkeyword : keyword.unplaced = .ofKind .returnWord := Token.Is.eq hown
        rw [Part.ReadsBack, Stmt.unplaced, hkeyword]
        cases value with
        | none => rfl
        | some value =>
          have hvalue : value.form.Gives value.unplaced := ih _ List.mem_cons_self
          exact congrArg (Option.map fun e => Stmt.ret (.ofKind .returnWord) (some e)) hvalue
      | classDecl name superclass methods =>
        refine readsBack_class hown (fun e he => ?_) fun f hf => ?_
        · cases he
          exact ih (.expr e) List.mem_cons_self
        · exact ih (.function true f) (List.mem_append_right _ (List.mem_map_of_mem hf))

/-! ## Texts determine trees -/

theorem unplaced_eq_of_parenthesized {s s' : Stmt} (h : (Part.stmt s).Legible)
    (h' : (Part.stmt s').Legible) (htext : s.parenthesized = s'.parenthesized) :
    s.unplaced = s'.unplaced := by
  have hshown : Shows s.parenthesized s.form := shown_of_legible h
  have hshown' : Shows s'.parenthesized s'.form := shown_of_legible h'
  have hread : s.form.stmt? = some s.unplaced := readsBack_of_legible h
  have hread' : s'.form.stmt? = some s'.unplaced := readsBack_of_legible h'
  -- Equal texts have equal words, words determine the form, and the form determines the tree.
  have hwords : s.form.words = s'.form.words := by
    rw [← hshown, ← hshown', htext]
  rw [Form.words_injective hwords, hread'] at hread
  exact (Option.some.inj hread).symm

theorem map_unplaced_eq_of_parenthesized {ss ss' : List Stmt}
    (h : ∀ s ∈ ss, (Part.stmt s).Legible) (h' : ∀ s ∈ ss', (Part.stmt s).Legible)
    (htexts : ss.map Stmt.parenthesized = ss'.map Stmt.parenthesized) :
    ss.map Stmt.unplaced = ss'.map Stmt.unplaced := by
  induction ss generalizing ss' with
  | nil =>
    obtain rfl : ss' = [] := List.map_eq_nil_iff.1 htexts.symm
    rfl
  | cons s ss ih =>
    obtain ⟨s', rest, rfl, htext, hrest⟩ := List.map_eq_cons_iff.1 htexts.symm
    obtain ⟨hs, hss⟩ := List.forall_mem_cons.1 h
    obtain ⟨hs', hrest'⟩ := List.forall_mem_cons.1 h'
    rw [List.map_cons, List.map_cons, unplaced_eq_of_parenthesized hs hs' htext.symm,
      ih hss hrest' hrest.symm]

section

variable {firstId firstId' : NodeId} {source source' : String}

/-- Two sources that are read without errors and have neither strings nor infinite numbers: if the
parenthesized forms of their statements are the same, then the statements are equal up to ids and
lines. -/
theorem statements_eq_of_parenthesized (h : PlainSource firstId source)
    (h' : PlainSource firstId' source')
    (htexts : (parse firstId (Lexer.tokens (scan source))).statements.map Stmt.parenthesized =
      (parse firstId' (Lexer.tokens (scan source'))).statements.map Stmt.parenthesized) :
    (parse firstId (Lexer.tokens (scan source))).statements.map Stmt.unplaced =
      (parse firstId' (Lexer.tokens (scan source'))).statements.map Stmt.unplaced :=
  map_unplaced_eq_of_parenthesized (fun _ hs => h.legible.inner (List.mem_map_of_mem hs))
    (fun _ hs => h'.legible.inner (List.mem_map_of_mem hs)) htexts

end

/-- A source on one line. -/
def onOneLine : String := "if (a) { print -b; } else f.g = c - nil;"

/-- The same source on four lines. -/
def onFourLines : String := "if (a)\n{ print -b; }\nelse f.g = c\n- nil;"

/-- Neither the first id nor the lines show. -/
theorem statements_eq_of_parenthesized_lines :
    PlainSource 0 onOneLine ∧ PlainSource 5 onFourLines ∧
      (parse 0 (Lexer.tokens (scan onOneLine))).statements.map Stmt.parenthesized =
        (parse 5 (Lexer.tokens (scan onFourLines))).statements.map Stmt.parenthesized ∧
      (parse 0 (Lexer.tokens (scan onOneLine))).statements.map Stmt.unplaced =
        (parse 5 (Lexer.tokens (scan onFourLines))).statements.map Stmt.unplaced := by
  have h : PlainSource 0 onOneLine := .of_bare (by decide +kernel) (by decide +kernel)
  have h' : PlainSource 5 onFourLines := .of_bare (by decide +kernel) (by decide +kernel)
  have htexts : (parse 0 (Lexer.tokens (scan onOneLine))).statements.map Stmt.parenthesized =
      (parse 5 (Lexer.tokens (scan onFourLines))).statements.map Stmt.parenthesized := by
    decide +kernel
  exact ⟨h, h', htexts, statements_eq_of_parenthesized h h' htexts⟩

end Lox
