import Lox.Proofs.Tree.Words

/-!
# Parenthesized forms

A text in parentheses is a tree of words (`Form`). What is printed of a legible expression or
statement has the words of such a tree (`Expr.form`, `Stmt.form`), and the words determine the tree
(`Form.words_injective`): reading them from left to right with a stack of the lists that are still
open gives it back.

So a question about a printed text is one about its form, where nothing has to be said about blanks
and parentheses.
-/

namespace Lox

/-- A word, or a list in parentheses. -/
inductive Form where
  | word (w : String)
  | list (items : List Form)

namespace Form

mutual

/-- The words of a form. -/
def words : Form → List Word
  | word w => [.text w]
  | list items => .opening :: (wordsAll items ++ [.closing])
termination_by structural f => f

/-- The words of several forms. -/
def wordsAll : List Form → List Word
  | [] => []
  | f :: fs => words f ++ wordsAll fs
termination_by structural fs => fs

end

/-! ## The words determine the form -/

/-- One more item in the innermost list. -/
def add (f : Form) : List (List Form) → List (List Form)
  | [] => []
  | items :: outer => (items ++ [f]) :: outer

/-- The lists that are open after a word, the innermost first. -/
def gather (lists : List (List Form)) : Word → List (List Form)
  | .text w => add (word w) lists
  | .opening => [] :: lists
  | .closing =>
    match lists with
    | [] => []
    | items :: outer => add (list items) outer

mutual

theorem foldl_words (items : List Form) (outer : List (List Form)) :
    (f : Form) → (words f).foldl gather (items :: outer) = (items ++ [f]) :: outer
  | word w => rfl
  | list inner => by
    rw [words, List.foldl_cons, List.foldl_append, gather, foldl_wordsAll [] (items :: outer) inner]
    rfl

theorem foldl_wordsAll (items : List Form) (outer : List (List Form)) :
    (fs : List Form) → (wordsAll fs).foldl gather (items :: outer) = (items ++ fs) :: outer
  | [] => by
    rw [wordsAll, List.append_nil]
    rfl
  | f :: fs => by
    rw [wordsAll, List.foldl_append, foldl_words items outer f,
      foldl_wordsAll (items ++ [f]) outer fs, List.append_assoc, List.singleton_append]

end

theorem words_injective {f f' : Form} (h : words f = words f') : f = f' := by
  have hf := foldl_words [] [] f
  rw [h, foldl_words] at hf
  simpa using hf.symm

end Form

/-! ## Forms of trees -/

mutual

/-- The form of an expression. -/
def Expr.form : Expr → Form
  | .constant value => .word value.written
  | .grouping inner => .list [.word "group", inner.form]
  | .unary op right => .list [.word op.lexeme, right.form]
  | .binary left op right => .list [.word op.lexeme, left.form, right.form]
  | .logical left op right => .list [.word op.lexeme, left.form, right.form]
  | .var _ name => .word name.lexeme
  | .assign _ name value => .list [.word "=", .word name.lexeme, value.form]
  | .call callee _ arguments => .list (.word "call" :: callee.form :: Expr.forms arguments)
  | .get object name => .list [.word ".", object.form, .word name.lexeme]
  | .set object name value =>
    .list [.word "=", .list [.word ".", object.form, .word name.lexeme], value.form]
  | .this _ _ => .word "this"
  | .super _ _ method => .list [.word "super", .word method.lexeme]
termination_by structural e => e

/-- The forms of several expressions. -/
def Expr.forms : List Expr → List Form
  | [] => []
  | e :: es => e.form :: Expr.forms es
termination_by structural es => es

end

mutual

/-- The form of a statement. -/
def Stmt.form : Stmt → Form
  | .expression expr => .list [.word ";", expr.form]
  | .print expr => .list [.word "print", expr.form]
  | .varDecl name none => .list [.word "var", .word name.lexeme]
  | .varDecl name (some value) =>
    .list [.word "var", .word name.lexeme, .word "=", value.form]
  | .block statements => .list (.word "block" :: Stmt.forms statements)
  | .branch condition thenBranch none => .list [.word "if", condition.form, thenBranch.form]
  | .branch condition thenBranch (some elseBranch) =>
    .list [.word "if-else", condition.form, thenBranch.form, elseBranch.form]
  | .loop condition body => .list [.word "while", condition.form, body.form]
  | .funDecl function => function.form
  | .ret _ none => .list [.word "return"]
  | .ret _ (some value) => .list [.word "return", value.form]
  | .classDecl name none methods =>
    .list (.word "class" :: .word name.lexeme :: FunctionDecl.forms methods)
  | .classDecl name (some superclass) methods =>
    .list (.word "class" :: .word name.lexeme :: .word "<" :: superclass.form ::
      FunctionDecl.forms methods)
termination_by structural s => s

/-- The forms of several statements. -/
def Stmt.forms : List Stmt → List Form
  | [] => []
  | s :: rest => s.form :: Stmt.forms rest
termination_by structural ss => ss

/-- The form of a function or a method. -/
def FunctionDecl.form : FunctionDecl → Form
  | ⟨name, params, body⟩ =>
    .list (.word "fun" :: .word name.lexeme :: .list (params.map fun t => .word t.lexeme) ::
      Stmt.forms body)
termination_by structural f => f

/-- The forms of several functions. -/
def FunctionDecl.forms : List FunctionDecl → List Form
  | [] => []
  | f :: rest => f.form :: FunctionDecl.forms rest
termination_by structural fs => fs

end

theorem Expr.forms_eq_map (es : List Expr) : forms es = es.map form := by
  induction es with
  | nil => rfl
  | cons e es ih => rw [forms, ih, List.map_cons]

theorem Stmt.forms_eq_map (ss : List Stmt) : forms ss = ss.map form := by
  induction ss with
  | nil => rfl
  | cons s ss ih => rw [forms, ih, List.map_cons]

theorem FunctionDecl.forms_eq_map (fs : List FunctionDecl) : forms fs = fs.map form := by
  induction fs with
  | nil => rfl
  | cons f fs ih => rw [forms, ih, List.map_cons]

/-! ## Printed trees have the words of their forms -/

/-- The text has the words of the form. -/
def Shows (text : String) (f : Form) : Prop := words text = f.words

namespace Shows

variable {head text : String} {texts : List String} {items : List Form}

theorem word {w : String} (h : IsWord w) : Shows w (.word w) := h.words

theorem flatMap_words (h : List.Forall₂ Shows texts items) :
    texts.flatMap words = Form.wordsAll items := by
  induction h with
  | nil => rfl
  | cons ht _ ih => rw [List.flatMap_cons, Form.wordsAll, ht, ih]

/-- A text in parentheses, with a word in front. -/
theorem list_of_words (h : IsWord head) (ht : texts.flatMap words = Form.wordsAll items)
    (heq : text.toList = (listed head texts).toList) :
    Shows text (.list (.word head :: items)) := by
  unfold Shows
  rw [String.toList_inj.1 heq, words_listed h, ht]
  rfl

theorem list (h : IsWord head) (ht : List.Forall₂ Shows texts items)
    (heq : text.toList = (listed head texts).toList) : Shows text (.list (.word head :: items)) :=
  list_of_words h (flatMap_words ht) heq

end Shows

theorem written_isWord {value : Constant} (h : (Expr.constant value).IsLegible) :
    IsWord value.written := by
  cases value with
  | nil => decide
  | bool value => cases value <;> decide
  | number x => exact isWord_numberText h
  | text => cases h

theorem operator_isWord {op : Token} {ks : List Kind} (hks : .leftParen ∉ ks ∧ .rightParen ∉ ks)
    (h : ∃ k ∈ ks, op.Is k) : IsWord op.lexeme := by
  obtain ⟨k, hk, hop⟩ := h
  exact hop.isWord (fun heq => hks.1 (heq ▸ hk)) (fun heq => hks.2 (heq ▸ hk))

/-- What is printed of a legible expression has the words of its form. -/
theorem shows_expr {e : Expr} (h : (Part.expr e).Legible) : Shows e.parenthesized e.form := by
  refine Part.Legible.expr_induction (motive := fun e => Shows e.parenthesized e.form)
    (fun e hown ih => ?_) h
  cases e with
  | constant value => exact .word (written_isWord hown)
  | grouping inner =>
    have hinner := ih inner List.mem_cons_self
    exact .list (by decide) (.cons hinner .nil)
      (by simp [Expr.parenthesized, listed])
  | unary op right =>
    have hop : IsWord op.lexeme :=
      hown.elim (·.isWord (by decide) (by decide)) (·.isWord (by decide) (by decide))
    have hright := ih right List.mem_cons_self
    exact .list hop (.cons hright .nil)
      (by simp [Expr.parenthesized, listed])
  | binary left op right =>
    have hop : IsWord op.lexeme := operator_isWord (by decide) hown
    have hleft := ih left List.mem_cons_self
    have hright := ih right (List.mem_cons_of_mem _ List.mem_cons_self)
    exact .list hop (.cons hleft (.cons hright .nil))
      (by simp [Expr.parenthesized, listed])
  | logical left op right =>
    have hop : IsWord op.lexeme :=
      hown.elim (·.isWord (by decide) (by decide)) (·.isWord (by decide) (by decide))
    have hleft := ih left List.mem_cons_self
    have hright := ih right (List.mem_cons_of_mem _ List.mem_cons_self)
    exact .list hop (.cons hleft (.cons hright .nil))
      (by simp [Expr.parenthesized, listed])
  | var id name => exact .word hown.isWord
  | assign id name value =>
    have hvalue := ih value List.mem_cons_self
    exact .list (by decide) (.cons (.word hown.isWord) (.cons hvalue .nil))
      (by simp [Expr.parenthesized, listed])
  | call callee paren arguments =>
    have hcallee := ih callee List.mem_cons_self
    have harguments := forall₂_map fun e he => ih e (List.mem_cons_of_mem _ he)
    rw [Expr.form, Expr.forms_eq_map]
    exact .list (by decide) (.cons hcallee harguments)
      (by simp [Expr.parenthesized, listed])
  | get object name =>
    have hobject := ih object List.mem_cons_self
    exact .list (by decide) (.cons hobject (.cons (.word hown.isWord) .nil))
      (by simp [Expr.parenthesized, listed])
  | set object name value =>
    have hvalue := ih value List.mem_cons_self
    have hobject := ih object (List.mem_cons_of_mem _ List.mem_cons_self)
    -- The target of an assignment is printed like a property.
    have hproperty : Shows (listed "." [object.parenthesized, name.lexeme])
        (.list [.word ".", object.form, .word name.lexeme]) :=
      .list (by decide) (.cons hobject (.cons (.word hown.isWord) .nil)) rfl
    exact .list (by decide) (.cons hproperty (.cons hvalue .nil))
      (by simp [Expr.parenthesized, listed])
  | this id keyword => exact .word (w := "this") (by decide)
  | super id keyword method =>
    exact .list (by decide) (.cons (.word hown.2.isWord) .nil)
      (by simp [Expr.parenthesized, listed])

/-- What is printed of an expression, statement or function has the words of its form. -/
def Part.Shown : Part → Prop
  | program _ | param _ => True
  | stmt s => Shows s.parenthesized s.form
  | function _ f => Shows f.parenthesized f.form
  | expr e => Shows e.parenthesized e.form

/-- What is printed of a legible function has the words of its form, if that is so of its body. -/
theorem shows_function {f : FunctionDecl} {isMethod : Bool}
    (h : (Part.function isMethod f).Legible)
    (hbody : ∀ s ∈ f.body, Shows s.parenthesized s.form) : Shows f.parenthesized f.form := by
  obtain ⟨name, params, body⟩ := f
  have hname : IsWord name.lexeme := h.own.isWord
  have hparams : ∀ t ∈ params, Shows t.lexeme (.word t.lexeme) := by
    intro t ht
    have hparam : (Part.param t).Legible :=
      h.inner (List.mem_append_left _ (List.mem_map_of_mem ht))
    exact .word hparam.own.isWord
  -- No blank stands between the name and the parameters, so they are one text but two items.
  let head := name.lexeme ++ "(" ++ " ".intercalate (params.map Token.lexeme) ++ ")"
  have hhead : words head =
      .text name.lexeme :: (Form.list (params.map fun t => .word t.lexeme)).words := by
    rw [words_closing, words_opening, hname.words, words_intercalate,
      Shows.flatMap_words (forall₂_map hparams)]
    rfl
  have hrest : words (" ".intercalate (body.map Stmt.parenthesized)) =
      Form.wordsAll (body.map Stmt.form) := by
    rw [words_intercalate, Shows.flatMap_words (forall₂_map hbody)]
  have htexts : [head, " ".intercalate (body.map Stmt.parenthesized)].flatMap words =
      Form.wordsAll (.word name.lexeme :: .list (params.map fun t => .word t.lexeme) ::
        body.map Stmt.form) := by
    rw [List.flatMap_cons, List.flatMap_singleton, hhead, hrest]
    rfl
  rw [FunctionDecl.form, Stmt.forms_eq_map]
  exact .list_of_words (by decide) htexts (by simp [FunctionDecl.parenthesized, listed, head])

theorem shown_of_legible {part : Part} (h : part.Legible) : part.Shown := by
  induction h with
  | @node part hown hparts ih =>
    cases part with
    | program ss | param name => trivial
    | expr e => exact shows_expr (.node hown hparts)
    | function isMethod f =>
      -- Parameters are tokens, so only the body is left to the induction.
      exact shows_function (.node hown hparts) fun s hs =>
        ih (.stmt s) (List.mem_append_right _ (List.mem_map_of_mem hs))
    | stmt s =>
      cases s with
      | expression e =>
        have he : Shows e.parenthesized e.form := ih _ List.mem_cons_self
        exact .list (by decide) (.cons he .nil) (by simp [Stmt.parenthesized, listed])
      | print e =>
        have he : Shows e.parenthesized e.form := ih _ List.mem_cons_self
        exact .list (by decide) (.cons he .nil) (by simp [Stmt.parenthesized, listed])
      | varDecl name value =>
        have hname : Shows name.lexeme (.word name.lexeme) := .word hown.isWord
        cases value with
        | none => exact .list (by decide) (.cons hname .nil) (by simp [Stmt.parenthesized, listed])
        | some value =>
          have hvalue : Shows value.parenthesized value.form := ih _ List.mem_cons_self
          have hequal : Shows "=" (.word "=") := .word (by decide)
          exact .list (by decide) (.cons hname (.cons hequal (.cons hvalue .nil)))
            (by simp [Stmt.parenthesized, listed])
      | block ss =>
        have hss : ∀ s ∈ ss, Shows s.parenthesized s.form := fun s hs =>
          ih _ (List.mem_map_of_mem hs)
        rw [Part.Shown, Stmt.form, Stmt.forms_eq_map]
        exact .list (by decide) (forall₂_map hss) (by simp [Stmt.parenthesized, listed])
      | branch condition thenBranch elseBranch =>
        have hcondition : Shows condition.parenthesized condition.form := ih _ List.mem_cons_self
        have hthen : Shows thenBranch.parenthesized thenBranch.form :=
          ih _ (List.mem_cons_of_mem _ List.mem_cons_self)
        cases elseBranch with
        | none =>
          exact .list (by decide) (.cons hcondition (.cons hthen .nil))
            (by simp [Stmt.parenthesized, listed])
        | some elseBranch =>
          have helse : Shows elseBranch.parenthesized elseBranch.form :=
            ih _ (List.mem_cons_of_mem _ (List.mem_cons_of_mem _ List.mem_cons_self))
          exact .list (by decide) (.cons hcondition (.cons hthen (.cons helse .nil)))
            (by simp [Stmt.parenthesized, listed])
      | loop condition body =>
        have hcondition : Shows condition.parenthesized condition.form := ih _ List.mem_cons_self
        have hbody : Shows body.parenthesized body.form :=
          ih _ (List.mem_cons_of_mem _ List.mem_cons_self)
        exact .list (by decide) (.cons hcondition (.cons hbody .nil))
          (by simp [Stmt.parenthesized, listed])
      -- A declaration is printed as its function.
      | funDecl f => exact ih (.function false f) List.mem_cons_self
      | ret keyword value =>
        cases value with
        | none => exact .list (by decide) .nil (by simp [Stmt.parenthesized, listed])
        | some value =>
          have hvalue : Shows value.parenthesized value.form := ih _ List.mem_cons_self
          exact .list (by decide) (.cons hvalue .nil) (by simp [Stmt.parenthesized, listed])
      | classDecl name superclass methods =>
        have hname : Shows name.lexeme (.word name.lexeme) := .word hown.isWord
        have hmethods : ∀ f ∈ methods, Shows f.parenthesized f.form := fun f hf =>
          ih (.function true f) (List.mem_append_right _ (List.mem_map_of_mem hf))
        cases superclass with
        | none =>
          rw [Part.Shown, Stmt.form, FunctionDecl.forms_eq_map]
          exact .list (by decide) (.cons hname (forall₂_map hmethods))
            (by simp [Stmt.parenthesized, listed])
        | some superclass =>
          have hless : Shows "<" (.word "<") := .word (by decide)
          have hsuper : Shows superclass.parenthesized superclass.form := ih _ List.mem_cons_self
          rw [Part.Shown, Stmt.form, FunctionDecl.forms_eq_map]
          exact .list (by decide) (.cons hname (.cons hless (.cons hsuper (forall₂_map hmethods))))
            (by simp [Stmt.parenthesized, listed])

end Lox
