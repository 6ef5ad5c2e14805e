import Lox.Proofs.Tree.Blank
import Mathlib.Data.List.Forall2
import Mathlib.Order.Basic
import Mathlib.Tactic.Common

/-!
# Trees that are alike

Two trees are alike if they differ only in node ids and in the lines of their tokens. Which ids
and which tokens correspond is left open: `N` relates ids and `T`, a *likeness*, relates tokens of
the same text. Alike trees have the operators and names that the grammar gives to programs, so a
tree that is alike to itself is such a tree.

Being alike is monotone in both relations, and what stands on one side can be replaced by a tree
that is equal up to node ids (`Stmt.AlikeAll.of_blankAll_eq`).
-/

namespace Option.Rel

variable {α β : Type} {R S : α → β → Prop} {x : Option α} {y : Option β}

theorem mono (h : R ≤ S) (hr : Rel R x y) : Rel S x y := by
  cases hr with
  | none => exact .none
  | some hab => exact .some (h _ _ hab)

theorem isSome_eq (hr : Rel R x y) : y.isSome = x.isSome := by
  cases hr <;> rfl

end Option.Rel

namespace Lox

/-- A correspondence between tokens that differ at most in their lines. -/
structure Likeness where
  rel : Token → Token → Prop
  text : ∀ {t t'}, rel t t' → t' = { t with line := t'.line }

namespace Likeness

variable (T : Likeness) {t t' : Token}

theorem kind (h : T.rel t t') : t'.kind = t.kind := by rw [T.text h]

theorem lexeme (h : T.rel t t') : t'.lexeme = t.lexeme := by rw [T.text h]

theorem literal (h : T.rel t t') : t'.literal = t.literal := by rw [T.text h]

/-- Corresponding tokens of one kind. -/
structure Of (kind : Kind) (t t' : Token) : Prop where
  rel : T.rel t t'
  kind_eq : t.kind = kind

/-- Every token of a set corresponds to itself alone. -/
def on (P : Token → Prop) : Likeness := ⟨fun t t' => t' = t ∧ P t, fun h => by rw [h.1]⟩

/-- Every token corresponds to itself alone. -/
def same : Likeness := on fun _ => True

end Likeness

/-- The operators between two operands that are both evaluated. -/
def Grammar.binaryOperators : List Kind :=
  [Level.equality, .comparison, .term, .factor].flatMap Level.operators

section

variable (N : NodeId → NodeId → Prop) (T : Likeness)

mutual

/-- Expressions that are alike. -/
inductive Expr.Alike : Expr → Expr → Prop
  | constant (value : Constant) : Expr.Alike (.constant value) (.constant value)
  | grouping {inner inner' : Expr} :
      Expr.Alike inner inner' → Expr.Alike (.grouping inner) (.grouping inner')
  | unary {op op' : Token} {right right' : Expr} :
      T.rel op op' → op.kind = .bang ∨ op.kind = .minus → Expr.Alike right right' →
      Expr.Alike (.unary op right) (.unary op' right')
  | binary {left left' right right' : Expr} {op op' : Token} :
      Expr.Alike left left' → T.rel op op' → op.kind ∈ Grammar.binaryOperators →
      Expr.Alike right right' → Expr.Alike (.binary left op right) (.binary left' op' right')
  | logical {left left' right right' : Expr} {op op' : Token} :
      Expr.Alike left left' → T.rel op op' → Expr.Alike right right' →
      Expr.Alike (.logical left op right) (.logical left' op' right')
  | var {id id' : NodeId} {name name' : Token} :
      N id id' → T.Of .identifier name name' → Expr.Alike (.var id name) (.var id' name')
  | assign {id id' : NodeId} {name name' : Token} {value value' : Expr} :
      N id id' → T.Of .identifier name name' → Expr.Alike value value' →
      Expr.Alike (.assign id name value) (.assign id' name' value')
  | call {callee callee' : Expr} {paren paren' : Token} {arguments arguments' : List Expr} :
      Expr.Alike callee callee' → T.rel paren paren' → Expr.AlikeAll arguments arguments' →
      Expr.Alike (.call callee paren arguments) (.call callee' paren' arguments')
  | get {object object' : Expr} {name name' : Token} :
      Expr.Alike object object' → T.rel name name' →
      Expr.Alike (.get object name) (.get object' name')
  | set {object object' value value' : Expr} {name name' : Token} :
      Expr.Alike object object' → T.rel name name' → Expr.Alike value value' →
      Expr.Alike (.set object name value) (.set object' name' value')
  | this {id id' : NodeId} {keyword keyword' : Token} :
      N id id' → T.rel keyword keyword' → Expr.Alike (.this id keyword) (.this id' keyword')
  | super {id id' : NodeId} {keyword keyword' method method' : Token} :
      N id id' → T.rel keyword keyword' → T.rel method method' →
      Expr.Alike (.super id keyword method) (.super id' keyword' method')

/-- Expressions that are alike one by one. -/
inductive Expr.AlikeAll : List Expr → List Expr → Prop
  | nil : Expr.AlikeAll [] []
  | cons {e e' : Expr} {es es' : List Expr} :
      Expr.Alike e e' → Expr.AlikeAll es es' → Expr.AlikeAll (e :: es) (e' :: es')

end

mutual

/-- Statements that are alike. -/
inductive Stmt.Alike : Stmt → Stmt → Prop
  | expression {e e' : Expr} : e.Alike N T e' → Stmt.Alike (.expression e) (.expression e')
  | print {e e' : Expr} : e.Alike N T e' → Stmt.Alike (.print e) (.print e')
  | varDecl {name name' : Token} {value value' : Option Expr} :
      T.Of .identifier name name' → Option.Rel (Expr.Alike N T) value value' →
      Stmt.Alike (.varDecl name value) (.varDecl name' value')
  | block {ss ss' : List Stmt} : Stmt.AlikeAll ss ss' → Stmt.Alike (.block ss) (.block ss')
  | ifOnly {condition condition' : Expr} {s s' : Stmt} :
      condition.Alike N T condition' → Stmt.Alike s s' →
      Stmt.Alike (.branch condition s none) (.branch condition' s' none)
  | ifElse {condition condition' : Expr} {s s' t t' : Stmt} :
      condition.Alike N T condition' → Stmt.Alike s s' → Stmt.Alike t t' →
      Stmt.Alike (.branch condition s (some t)) (.branch condition' s' (some t'))
  | loop {condition condition' : Expr} {body body' : Stmt} :
      condition.Alike N T condition' → Stmt.Alike body body' →
      Stmt.Alike (.loop condition body) (.loop condition' body')
  | funDecl {f f' : FunctionDecl} :
      FunctionDecl.Alike f f' → Stmt.Alike (.funDecl f) (.funDecl f')
  | ret {keyword keyword' : Token} {value value' : Option Expr} :
      T.rel keyword keyword' → Option.Rel (Expr.Alike N T) value value' →
      Stmt.Alike (.ret keyword value) (.ret keyword' value')
  | classDecl {name name' : Token} {superclass superclass' : Option Expr}
      {methods methods' : List FunctionDecl} :
      T.Of .identifier name name' → Option.Rel (Expr.Alike N T) superclass superclass' →
      FunctionDecl.AlikeAll methods methods' →
      Stmt.Alike (.classDecl name superclass methods) (.classDecl name' superclass' methods')

/-- Statements that are alike one by one. -/
inductive Stmt.AlikeAll : List Stmt → List Stmt → Prop
  | nil : Stmt.AlikeAll [] []
  | cons {s s' : Stmt} {ss ss' : List Stmt} :
      Stmt.Alike s s' → Stmt.AlikeAll ss ss' → Stmt.AlikeAll (s :: ss) (s' :: ss')

/-- Functions that are alike. -/
inductive FunctionDecl.Alike : FunctionDecl → FunctionDecl → Prop
  | mk {name name' : Token} {params params' : List Token} {body body' : List Stmt} :
      T.Of .identifier name name' → List.Forall₂ (T.Of .identifier) params params' →
      Stmt.AlikeAll body body' → FunctionDecl.Alike ⟨name, params, body⟩ ⟨name', params', body'⟩

/-- Functions that are alike one by one. -/
inductive FunctionDecl.AlikeAll : List FunctionDecl → List FunctionDecl → Prop
  | nil : FunctionDecl.AlikeAll [] []
  | cons {f f' : FunctionDecl} {fs fs' : List FunctionDecl} :
      FunctionDecl.Alike f f' → FunctionDecl.AlikeAll fs fs' →
      FunctionDecl.AlikeAll (f :: fs) (f' :: fs')

end

end

/-- Ids do not matter. -/
def AnyNode (_ _ : NodeId) : Prop := True

/-! ## Other correspondences -/

theorem Likeness.Of.mono {T T' : Likeness} (hT : T.rel ≤ T'.rel) {kind : Kind} {t t' : Token}
    (h : T.Of kind t t') : T'.Of kind t t' :=
  ⟨hT _ _ h.rel, h.kind_eq⟩

section

variable {N N' : NodeId → NodeId → Prop} {T T' : Likeness}

mutual

theorem Expr.Alike.mono (hN : N ≤ N') (hT : T.rel ≤ T'.rel) {e e' : Expr} :
    e.Alike N T e' → e.Alike N' T' e'
  | .constant value => .constant value
  | .grouping h => .grouping (h.mono hN hT)
  | .unary hop hk h => .unary (hT _ _ hop) hk (h.mono hN hT)
  | .binary hl hop hk hr => .binary (hl.mono hN hT) (hT _ _ hop) hk (hr.mono hN hT)
  | .logical hl hop hr => .logical (hl.mono hN hT) (hT _ _ hop) (hr.mono hN hT)
  | .var hid hname => .var (hN _ _ hid) (hname.mono hT)
  | .assign hid hname h => .assign (hN _ _ hid) (hname.mono hT) (h.mono hN hT)
  | .call h hparen hs => .call (h.mono hN hT) (hT _ _ hparen) (hs.mono hN hT)
  | .get h hname => .get (h.mono hN hT) (hT _ _ hname)
  | .set h hname hv => .set (h.mono hN hT) (hT _ _ hname) (hv.mono hN hT)
  | .this hid hk => .this (hN _ _ hid) (hT _ _ hk)
  | .super hid hk hm => .super (hN _ _ hid) (hT _ _ hk) (hT _ _ hm)

theorem Expr.AlikeAll.mono (hN : N ≤ N') (hT : T.rel ≤ T'.rel) {es es' : List Expr} :
    Expr.AlikeAll N T es es' → Expr.AlikeAll N' T' es es'
  | .nil => .nil
  | .cons h hs => .cons (h.mono hN hT) (hs.mono hN hT)

end

mutual

theorem Stmt.Alike.mono (hN : N ≤ N') (hT : T.rel ≤ T'.rel) {s s' : Stmt} :
    s.Alike N T s' → s.Alike N' T' s'
  | .expression h => .expression (h.mono hN hT)
  | .print h => .print (h.mono hN hT)
  | .varDecl hname h => .varDecl (hname.mono hT) (h.mono fun _ _ h => Expr.Alike.mono hN hT h)
  | .block h => .block (h.mono hN hT)
  | .ifOnly hc h => .ifOnly (hc.mono hN hT) (h.mono hN hT)
  | .ifElse hc h h' => .ifElse (hc.mono hN hT) (h.mono hN hT) (h'.mono hN hT)
  | .loop hc h => .loop (hc.mono hN hT) (h.mono hN hT)
  | .funDecl h => .funDecl (h.mono hN hT)
  | .ret hk h => .ret (hT _ _ hk) (h.mono fun _ _ h => Expr.Alike.mono hN hT h)
  | .classDecl hname h hs =>
    .classDecl (hname.mono hT) (h.mono fun _ _ h => Expr.Alike.mono hN hT h) (hs.mono hN hT)

theorem Stmt.AlikeAll.mono (hN : N ≤ N') (hT : T.rel ≤ T'.rel) {ss ss' : List Stmt} :
    Stmt.AlikeAll N T ss ss' → Stmt.AlikeAll N' T' ss ss'
  | .nil => .nil
  | .cons h hs => .cons (h.mono hN hT) (hs.mono hN hT)

theorem FunctionDecl.Alike.mono (hN : N ≤ N') (hT : T.rel ≤ T'.rel) {f f' : FunctionDecl} :
    f.Alike N T f' → f.Alike N' T' f'
  | .mk hname hparams h =>
    .mk (hname.mono hT) (hparams.imp fun _ _ h => Likeness.Of.mono hT h) (h.mono hN hT)

theorem FunctionDecl.AlikeAll.mono (hN : N ≤ N') (hT : T.rel ≤ T'.rel)
    {fs fs' : List FunctionDecl} : FunctionDecl.AlikeAll N T fs fs' →
      FunctionDecl.AlikeAll N' T' fs fs'
  | .nil => .nil
  | .cons h hs => .cons (h.mono hN hT) (hs.mono hN hT)

end

end

/-! ## Trees equal up to node ids -/

section

variable {N : NodeId → NodeId → Prop} {T : Likeness}

mutual

theorem Expr.Alike.blank {e e' : Expr} : e.Alike N T e' → e.Alike AnyNode T e'.blank
  | .constant value => .constant value
  | .grouping h => .grouping h.blank
  | .unary hop hk h => .unary hop hk h.blank
  | .binary hl hop hk hr => .binary hl.blank hop hk hr.blank
  | .logical hl hop hr => .logical hl.blank hop hr.blank
  | .var _ hname => .var trivial hname
  | .assign _ hname h => .assign trivial hname h.blank
  | .call h hparen hs => .call h.blank hparen hs.blank
  | .get h hname => .get h.blank hname
  | .set h hname hv => .set h.blank hname hv.blank
  | .this _ hk => .this trivial hk
  | .super _ hk hm => .super trivial hk hm

theorem Expr.AlikeAll.blank {es es' : List Expr} :
    Expr.AlikeAll N T es es' → Expr.AlikeAll AnyNode T es (Expr.blankAll es')
  | .nil => .nil
  | .cons h hs => .cons h.blank hs.blank

end

theorem Expr.rel_blank {e e' : Option Expr} (h : Option.Rel (Expr.Alike N T) e e') :
    Option.Rel (Expr.Alike AnyNode T) e (e'.map Expr.blank) := by
  cases h with
  | none => exact .none
  | some h => exact .some h.blank

mutual

theorem Stmt.Alike.blank {s s' : Stmt} : s.Alike N T s' → s.Alike AnyNode T s'.blank
  | .expression h => .expression h.blank
  | .print h => .print h.blank
  | .varDecl hname h => .varDecl hname (Expr.rel_blank h)
  | .block h => .block h.blank
  | .ifOnly hc h => .ifOnly hc.blank h.blank
  | .ifElse hc h h' => .ifElse hc.blank h.blank h'.blank
  | .loop hc h => .loop hc.blank h.blank
  | .funDecl h => .funDecl h.blank
  | .ret hk h => .ret hk (Expr.rel_blank h)
  | .classDecl hname h hs => .classDecl hname (Expr.rel_blank h) hs.blank

theorem Stmt.AlikeAll.blank {ss ss' : List Stmt} :
    Stmt.AlikeAll N T ss ss' → Stmt.AlikeAll AnyNode T ss (Stmt.blankAll ss')
  | .nil => .nil
  | .cons h hs => .cons h.blank hs.blank

theorem FunctionDecl.Alike.blank {f f' : FunctionDecl} :
    f.Alike N T f' → f.Alike AnyNode T f'.blank
  | .mk hname hparams h => .mk hname hparams h.blank

theorem FunctionDecl.AlikeAll.blank {fs fs' : List FunctionDecl} :
    FunctionDecl.AlikeAll N T fs fs' →
      FunctionDecl.AlikeAll AnyNode T fs (FunctionDecl.blankAll fs')
  | .nil => .nil
  | .cons h hs => .cons h.blank hs.blank

end

mutual

theorem Expr.Alike.of_blank {e : Expr} :
    (e' : Expr) → e.Alike AnyNode T e'.blank → e.Alike AnyNode T e'
  | .constant _, h => h
  | .grouping inner, h => by
    rw [Expr.blank] at h
    cases h with
    | grouping h => exact .grouping (.of_blank inner h)
  | .unary _ right, h => by
    rw [Expr.blank] at h
    cases h with
    | unary hop hk h => exact .unary hop hk (.of_blank right h)
  | .binary left _ right, h => by
    rw [Expr.blank] at h
    cases h with
    | binary hl hop hk hr => exact .binary (.of_blank left hl) hop hk (.of_blank right hr)
  | .logical left _ right, h => by
    rw [Expr.blank] at h
    cases h with
    | logical hl hop hr => exact .logical (.of_blank left hl) hop (.of_blank right hr)
  -- Any two ids correspond, so the node may have whatever id it has.
  | .var _ _, h => by
    rw [Expr.blank] at h
    cases h with
    | var _ hname => exact .var trivial hname
  | .assign _ _ value, h => by
    rw [Expr.blank] at h
    cases h with
    | assign _ hname h => exact .assign trivial hname (.of_blank value h)
  | .call callee _ arguments, h => by
    rw [Expr.blank] at h
    cases h with
    | call h hparen hs => exact .call (.of_blank callee h) hparen (.of_blank arguments hs)
  | .get object _, h => by
    rw [Expr.blank] at h
    cases h with
    | get h hname => exact .get (.of_blank object h) hname
  | .set object _ value, h => by
    rw [Expr.blank] at h
    cases h with
    | set h hname hv => exact .set (.of_blank object h) hname (.of_blank value hv)
  | .this _ _, h => by
    rw [Expr.blank] at h
    cases h with
    | this _ hk => exact .this trivial hk
  | .super _ _ _, h => by
    rw [Expr.blank] at h
    cases h with
    | super _ hk hm => exact .super trivial hk hm
termination_by structural e' => e'

theorem Expr.AlikeAll.of_blank {es : List Expr} :
    (es' : List Expr) → Expr.AlikeAll AnyNode T es (Expr.blankAll es') →
      Expr.AlikeAll AnyNode T es es'
  | [], h => h
  | e' :: es', h => by
    rw [Expr.blankAll] at h
    cases h with
    | cons h hs => exact .cons (.of_blank e' h) (.of_blank es' hs)
termination_by structural es' => es'

end

theorem Expr.rel_of_blank {e e' : Option Expr}
    (h : Option.Rel (Expr.Alike AnyNode T) e (e'.map Expr.blank)) :
    Option.Rel (Expr.Alike AnyNode T) e e' := by
  cases e' with
  | none =>
    cases h
    exact .none
  | some e' =>
    cases h with
    | some h => exact .some (.of_blank e' h)

mutual

theorem Stmt.Alike.of_blank {s : Stmt} :
    (s' : Stmt) → s.Alike AnyNode T s'.blank → s.Alike AnyNode T s'
  | .expression expr, h => by
    rw [Stmt.blank] at h
    cases h with
    | expression h => exact .expression (.of_blank expr h)
  | .print expr, h => by
    rw [Stmt.blank] at h
    cases h with
    | print h => exact .print (.of_blank expr h)
  | .varDecl _ value, h => by
    rw [Stmt.blank] at h
    cases h with
    | varDecl hname h => exact .varDecl hname (Expr.rel_of_blank h)
  | .block statements, h => by
    rw [Stmt.blank] at h
    cases h with
    | block h => exact .block (.of_blank statements h)
  | .branch condition thenBranch none, h => by
    rw [Stmt.blank] at h
    cases h with
    | ifOnly hc h => exact .ifOnly (.of_blank condition hc) (.of_blank thenBranch h)
  | .branch condition thenBranch (some elseBranch), h => by
    rw [Stmt.blank] at h
    cases h with
    | ifElse hc h h' =>
      exact .ifElse (.of_blank condition hc) (.of_blank thenBranch h) (.of_blank elseBranch h')
  | .loop condition body, h => by
    rw [Stmt.blank] at h
    cases h with
    | loop hc h => exact .loop (.of_blank condition hc) (.of_blank body h)
  | .funDecl function, h => by
    rw [Stmt.blank] at h
    cases h with
    | funDecl h => exact .funDecl (.of_blank function h)
  | .ret _ value, h => by
    rw [Stmt.blank] at h
    cases h with
    | ret hk h => exact .ret hk (Expr.rel_of_blank h)
  | .classDecl _ superclass methods, h => by
    rw [Stmt.blank] at h
    cases h with
    | classDecl hname h hs => exact .classDecl hname (Expr.rel_of_blank h) (.of_blank methods hs)
termination_by structural s' => s'

theorem Stmt.AlikeAll.of_blank {ss : List Stmt} :
    (ss' : List Stmt) → Stmt.AlikeAll AnyNode T ss (Stmt.blankAll ss') →
      Stmt.AlikeAll AnyNode T ss ss'
  | [], h => h
  | s' :: ss', h => by
    rw [Stmt.blankAll] at h
    cases h with
    | cons h hs => exact .cons (.of_blank s' h) (.of_blank ss' hs)
termination_by structural ss' => ss'

theorem FunctionDecl.Alike.of_blank {f : FunctionDecl} :
    (f' : FunctionDecl) → f.Alike AnyNode T f'.blank → f.Alike AnyNode T f'
  | ⟨_, _, body⟩, h => by
    rw [FunctionDecl.blank] at h
    cases h with
    | mk hname hparams h => exact .mk hname hparams (.of_blank body h)
termination_by structural f' => f'

theorem FunctionDecl.AlikeAll.of_blank {fs : List FunctionDecl} :
    (fs' : List FunctionDecl) → FunctionDecl.AlikeAll AnyNode T fs (FunctionDecl.blankAll fs') →
      FunctionDecl.AlikeAll AnyNode T fs fs'
  | [], h => h
  | f' :: fs', h => by
    rw [FunctionDecl.blankAll] at h
    cases h with
    | cons h hs => exact .cons (.of_blank f' h) (.of_blank fs' hs)
termination_by structural fs' => fs'

end

/-- What statements are alike to is known up to node ids. -/
theorem Stmt.AlikeAll.of_blankAll_eq {ss ss' ss'' : List Stmt} (h : Stmt.AlikeAll N T ss ss')
    (hb : Stmt.blankAll ss'' = Stmt.blankAll ss') : Stmt.AlikeAll AnyNode T ss ss'' :=
  .of_blank ss'' (hb ▸ h.blank)

end

/-! ## Equal trees -/

section

theorem Likeness.Of.eq {kind : Kind} {t t' : Token} (h : Likeness.same.Of kind t t') : t' = t :=
  h.rel.1

mutual

/-- Trees with the same ids and the same tokens are equal. -/
theorem Expr.Alike.eq {e e' : Expr} : e.Alike Eq .same e' → e' = e
  | .constant _ => rfl
  | .grouping h => by rw [h.eq]
  | .unary hop _ h => by rw [hop.1, h.eq]
  | .binary hl hop _ hr => by rw [hl.eq, hop.1, hr.eq]
  | .logical hl hop hr => by rw [hl.eq, hop.1, hr.eq]
  | .var hid hname => by rw [hid, hname.eq]
  | .assign hid hname h => by rw [hid, hname.eq, h.eq]
  | .call h hparen hs => by rw [h.eq, hparen.1, hs.eq]
  | .get h hname => by rw [h.eq, hname.1]
  | .set h hname hv => by rw [h.eq, hname.1, hv.eq]
  | .this hid hk => by rw [hid, hk.1]
  | .super hid hk hm => by rw [hid, hk.1, hm.1]

theorem Expr.AlikeAll.eq {es es' : List Expr} : Expr.AlikeAll Eq .same es es' → es' = es
  | .nil => rfl
  | .cons h hs => by rw [h.eq, hs.eq]

end

theorem Expr.eq_of_rel {e e' : Option Expr} (h : Option.Rel (Expr.Alike Eq .same) e e') :
    e' = e := by
  cases h with
  | none => rfl
  | some h => rw [h.eq]

mutual

theorem Stmt.Alike.eq {s s' : Stmt} : s.Alike Eq .same s' → s' = s
  | .expression h | .print h => by rw [h.eq]
  | .varDecl hname h => by rw [hname.eq, Expr.eq_of_rel h]
  | .block h => by rw [h.eq]
  | .ifOnly hc h => by rw [hc.eq, h.eq]
  | .ifElse hc h h' => by rw [hc.eq, h.eq, h'.eq]
  | .loop hc h => by rw [hc.eq, h.eq]
  | .funDecl h => by rw [h.eq]
  | .ret hk h => by rw [hk.1, Expr.eq_of_rel h]
  | .classDecl hname h hs => by rw [hname.eq, Expr.eq_of_rel h, hs.eq]

theorem Stmt.AlikeAll.eq {ss ss' : List Stmt} : Stmt.AlikeAll Eq .same ss ss' → ss' = ss
  | .nil => rfl
  | .cons h hs => by rw [h.eq, hs.eq]

theorem FunctionDecl.Alike.eq {f f' : FunctionDecl} : f.Alike Eq .same f' → f' = f
  | .mk hname hparams h => by
    have hsame := hparams.imp fun _ _ h => (Likeness.Of.eq h).symm
    rw [List.forall₂_eq_eq_eq] at hsame
    rw [hname.eq, hsame, h.eq]

theorem FunctionDecl.AlikeAll.eq {fs fs' : List FunctionDecl} :
    FunctionDecl.AlikeAll Eq .same fs fs' → fs' = fs
  | .nil => rfl
  | .cons h hs => by rw [h.eq, hs.eq]

end

end

end Lox
