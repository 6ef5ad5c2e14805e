import Lox.Proofs.Grammar.Syntax
import Lox.Proofs.Tree.Blank
import Lox.Proofs.Tree.Places

/-!
# Where the parts of a program are written

The parts of a tree come in the order in which a program is walked, which need not be that of its
text. This is about the text: a derivation of the grammar says between which tokens each part
stands (`Written`), so if every token is on a line of its own, further down than those before it,
the lines tell the order of the parts.

Main statement: the parts of a program come in the order of its text, but for two kinds of nodes
(`Syntax.Program.ordered`). In a property assignment the value comes before the object, and in the
loop that stands for a `for` the body comes before the increment.
-/

namespace Lox

/-! ## Trees that are known up to their ids -/

namespace Stmt

theorem eq_expression_of_blank {s : Stmt} {e : Expr} (h : s.blank = .expression e) :
    ∃ inner, s = .expression inner ∧ inner.blank = e := by
  cases s with
  | expression inner => exact ⟨inner, rfl, Stmt.expression.inj h⟩
  | branch _ _ elseBranch => cases elseBranch <;> cases h
  | _ => cases h

theorem eq_block_of_blank {s : Stmt} {ss : List Stmt} (h : s.blank = .block ss) :
    ∃ inner, s = .block inner ∧ Stmt.blankAll inner = ss := by
  cases s with
  | block inner => exact ⟨inner, rfl, Stmt.block.inj h⟩
  | branch _ _ elseBranch => cases elseBranch <;> cases h
  | _ => cases h

theorem eq_loop_of_blank {s body : Stmt} {condition : Expr} (h : s.blank = .loop condition body) :
    ∃ c inner, s = .loop c inner ∧ c.blank = condition ∧ inner.blank = body := by
  cases s with
  | loop c inner => exact ⟨c, inner, rfl, Stmt.loop.inj h⟩
  | branch _ _ elseBranch => cases elseBranch <;> cases h
  | _ => cases h

end Stmt

namespace Part

/-! ## Tokens of a part -/

/-- The tokens at which a part itself can be at fault. -/
def marks : Part → List Token
  | .param name | .stmt (.varDecl name _) => [name]
  | .stmt (.funDecl f) => [f.name]
  | .stmt (.classDecl name (some (.var _ superclass)) _) => [name, superclass]
  | .stmt (.classDecl name _ _) => [name]
  | .stmt (.ret keyword _) => [keyword]
  | .expr (.var _ name) => [name]
  | .expr (.this _ keyword) | .expr (.super _ keyword _) => [keyword]
  | _ => []

/-- The token is a mark of the part or of a part inside it. -/
inductive HasMark : Part → Token → Prop
  | mark {part : Part} {t : Token} : t ∈ part.marks → HasMark part t
  | inside {part inner : Part} {t : Token} : inner ∈ part.parts → HasMark inner t → HasMark part t

theorem hasMark_iff {part : Part} {t : Token} :
    part.HasMark t ↔ t ∈ part.marks ∨ ∃ inner ∈ part.parts, inner.HasMark t := by
  constructor
  · intro h
    cases h with
    | mark ht => exact .inl ht
    | inside hi h => exact .inr ⟨_, hi, h⟩
  · rintro (ht | ⟨inner, hi, h⟩)
    · exact .mark ht
    · exact .inside hi h

theorem hasMark_expression {e : Expr} {t : Token} :
    (stmt (.expression e)).HasMark t ↔ (expr e).HasMark t := by
  rw [hasMark_iff]
  simp [marks, parts, Stmt.parts]

/-- The body of a loop with an increment. -/
theorem hasMark_incremented {body : Stmt} {step : Expr} {t : Token} :
    (stmt (.block [body, .expression step])).HasMark t ↔
      (stmt body).HasMark t ∨ (expr step).HasMark t := by
  rw [hasMark_iff]
  simp [marks, parts, Stmt.parts, hasMark_expression]

/-- The first part is written further up than the second. -/
def Before (first second : Part) : Prop :=
  ∀ t u, first.HasMark t → second.HasMark u → t.line < u.line

/-- The tokens of a part come in the order in which they are written, but for the two kinds of nodes
whose parts come the other way round. -/
inductive Ordered : Part → Prop
  | node {part : Part} :
      part.marks.Pairwise (fun t u => t.line ≤ u.line) →
      (∀ t ∈ part.marks, ∀ inner ∈ part.parts, ∀ u, inner.HasMark u → t.line ≤ u.line) →
      part.parts.Pairwise Before → (∀ inner ∈ part.parts, Ordered inner) → Ordered part
  | assignment {object value : Expr} {name : Token} :
      Before (.expr object) (.expr value) → Ordered (.expr object) → Ordered (.expr value) →
      Ordered (.expr (.set object name value))
  | increment {condition step : Expr} {body : Stmt} :
      [.expr condition, .expr step, .stmt body].Pairwise Before →
      Ordered (.expr condition) → Ordered (.expr step) → Ordered (.stmt body) →
      Ordered (.stmt (.loop condition (.block [body, .expression step])))

/-! ## Node ids do not matter -/

/-- The part with every id set to zero. -/
def blank : Part → Part
  | program statements => program (Stmt.blankAll statements)
  | stmt s => stmt s.blank
  | function isMethod f => function isMethod f.blank
  | param name => param name
  | expr e => expr e.blank

theorem map_expr_blankAll (es : List Expr) :
    (Expr.blankAll es).map expr = (es.map expr).map blank := by
  induction es with
  | nil => rfl
  | cons e es ih => rw [Expr.blankAll, List.map_cons, ih]; rfl

theorem map_stmt_blankAll (ss : List Stmt) :
    (Stmt.blankAll ss).map stmt = (ss.map stmt).map blank := by
  induction ss with
  | nil => rfl
  | cons s ss ih => rw [Stmt.blankAll, List.map_cons, ih]; rfl

theorem map_function_blankAll (fs : List FunctionDecl) :
    (FunctionDecl.blankAll fs).map (function true) = (fs.map (function true)).map blank := by
  induction fs with
  | nil => rfl
  | cons f fs ih => rw [FunctionDecl.blankAll, List.map_cons, ih]; rfl

theorem parts_blank (part : Part) : part.blank.parts = part.parts.map blank := by
  cases part with
  | program statements => exact map_stmt_blankAll statements
  | param name => rfl
  | function isMethod f =>
    obtain ⟨name, params, body⟩ := f
    simp [blank, FunctionDecl.blank, parts, map_stmt_blankAll, Function.comp_def]
  | expr e =>
    cases e with
    | call callee paren arguments =>
      exact congrArg (expr callee.blank :: ·) (map_expr_blankAll arguments)
    | _ => rfl
  | stmt s =>
    cases s with
    | varDecl name value | ret keyword value => cases value <;> rfl
    | block statements => exact map_stmt_blankAll statements
    | branch condition thenBranch elseBranch => cases elseBranch <;> rfl
    | classDecl name superclass methods =>
      cases superclass with
      | none => exact map_function_blankAll methods
      | some superclass =>
        exact congrArg (expr superclass.blank :: ·) (map_function_blankAll methods)
    | _ => rfl

theorem marks_blank (part : Part) : part.blank.marks = part.marks := by
  cases part with
  | program statements | param name | function isMethod f => rfl
  | expr e => cases e <;> rfl
  | stmt s =>
    cases s with
    | branch condition thenBranch elseBranch => cases elseBranch <;> rfl
    | funDecl f => cases f; rfl
    | classDecl name superclass methods =>
      cases superclass with
      | none => rfl
      | some superclass => cases superclass <;> rfl
    | _ => rfl

theorem hasMark_blank {part : Part} {t : Token} : part.blank.HasMark t ↔ part.HasMark t := by
  induction part using induction_on with
  | step part ih =>
    rw [hasMark_iff, hasMark_iff, marks_blank, parts_blank]
    refine or_congr_right ?_
    constructor
    · rintro ⟨_, hmem, h⟩
      obtain ⟨inner, hi, rfl⟩ := List.mem_map.1 hmem
      exact ⟨inner, hi, (ih inner hi).1 h⟩
    · rintro ⟨inner, hi, h⟩
      exact ⟨_, List.mem_map_of_mem hi, (ih inner hi).2 h⟩

theorem before_blank {first second : Part} :
    Before first.blank second.blank ↔ Before first second := by
  simp only [Before, hasMark_blank]

theorem eq_set_of_blank {part : Part} {object value : Expr} {name : Token}
    (h : part.blank = .expr (.set object name value)) :
    ∃ o v : Expr, part = .expr (.set o name v) ∧ o.blank = object ∧ v.blank = value := by
  cases part with
  | expr e =>
    cases e <;> cases h
    exact ⟨_, _, rfl, rfl, rfl⟩
  | _ => cases h

theorem eq_loop_of_blank {part : Part} {condition step : Expr} {body : Stmt}
    (h : part.blank = .stmt (.loop condition (.block [body, .expression step]))) :
    ∃ (c s : Expr) (b : Stmt), part = .stmt (.loop c (.block [b, .expression s])) ∧
      c.blank = condition ∧ s.blank = step ∧ b.blank = body := by
  obtain ⟨s, rfl, hs⟩ : ∃ s, part = .stmt s ∧ s.blank = .loop condition _ := by
    cases part with
    | stmt s => exact ⟨s, rfl, stmt.inj h⟩
    | _ => cases h
  obtain ⟨c, inner, rfl, hc, hinner⟩ := Stmt.eq_loop_of_blank hs
  obtain ⟨ss, rfl, hss⟩ := Stmt.eq_block_of_blank hinner
  obtain _ | ⟨b, _ | ⟨last, _ | ⟨_, _⟩⟩⟩ := ss
  · simp [Stmt.blankAll] at hss
  · simp [Stmt.blankAll] at hss
  · simp only [Stmt.blankAll, List.cons.injEq, and_true] at hss
    obtain ⟨e, rfl, he⟩ := Stmt.eq_expression_of_blank hss.2
    exact ⟨c, e, b, rfl, hc, he, hss.1⟩
  · simp [Stmt.blankAll] at hss

/-- Whether the tokens are in order does not depend on the ids. -/
theorem Ordered.of_blank {part : Part} (h : part.blank.Ordered) : part.Ordered := by
  generalize hb : part.blank = other at h
  -- On how the blank part is in order: its parts are the blank ones of `part`, with the same marks.
  induction h generalizing part with
  | node hm hinner hparts _ ih =>
    subst hb
    rw [marks_blank] at hm
    rw [marks_blank, parts_blank] at hinner
    rw [parts_blank] at hparts ih
    refine .node hm (fun t ht inner hi u hu => ?_) ?_ fun inner hi => ?_
    · exact hinner t ht inner.blank (List.mem_map_of_mem hi) u (hasMark_blank.2 hu)
    · exact (List.pairwise_map.1 hparts).imp before_blank.1
    · exact ih inner.blank (List.mem_map_of_mem hi) rfl
  | assignment hbefore _ _ iho ihv =>
    obtain ⟨o, v, rfl, rfl, rfl⟩ := eq_set_of_blank hb
    exact .assignment (before_blank.1 hbefore) (iho rfl) (ihv rfl)
  | increment hparts _ _ _ ihc ihs ihb =>
    obtain ⟨c, s, b, rfl, rfl, rfl, rfl⟩ := eq_loop_of_blank hb
    refine .increment ?_ (ihc rfl) (ihs rfl) (ihb rfl)
    exact (List.pairwise_map (f := blank) (l := [.expr c, .expr s, .stmt b]) |>.1 hparts).imp
      before_blank.1

end Part

namespace Syntax

/-! ## Between two places of a text -/

/-- Every token is further down than those before it. -/
def Increasing (ts : List Token) : Prop := ts.Pairwise fun t u => t.line < u.line

/-- The parts stand one after another at the front of the tokens, before those that remain. -/
structure Spans (ts rest : List Token) (parts : List Part) : Prop where
  mem : ∀ part ∈ parts, ∀ t, part.HasMark t → t ∈ ts
  lt : ∀ part ∈ parts, ∀ t, part.HasMark t → ∀ u ∈ rest, t.line < u.line
  pairwise : parts.Pairwise Part.Before
  ordered : ∀ part ∈ parts, part.Ordered

/-- What remains is an end of the tokens, and the parts stand before it. -/
structure Written (ts rest : List Token) (parts : List Part) : Prop where
  suffix : rest <:+ ts
  spans : Increasing ts → Spans ts rest parts

namespace Written

variable {ts ts' rest : List Token} {t : Token} {part : Part} {parts more : List Part}

theorem nil : Written ts ts [] where
  suffix := List.suffix_refl _
  spans _ := ⟨nofun, nofun, .nil, nofun⟩

/-- A token in front that belongs to no part. -/
theorem skip (h : Written ts rest parts) : Written (t :: ts) rest parts where
  suffix := h.suffix.trans (List.suffix_cons t ts)
  spans hinc := by
    have hs := h.spans hinc.of_cons
    exact ⟨fun part hp u hu => List.mem_cons_of_mem t (hs.mem part hp u hu), hs.lt, hs.pairwise,
      hs.ordered⟩

/-- A token behind that belongs to no part. -/
theorem stop (h : Written ts (t :: rest) parts) : Written ts rest parts where
  suffix := (List.suffix_cons t rest).trans h.suffix
  spans hinc := by
    have hs := h.spans hinc
    exact ⟨hs.mem, fun part hp u hu v hv => hs.lt part hp u hu v (List.mem_cons_of_mem t hv),
      hs.pairwise, hs.ordered⟩

theorem append (h : Written ts ts' parts) (h' : Written ts' rest more) :
    Written ts rest (parts ++ more) where
  suffix := h'.suffix.trans h.suffix
  spans hinc := by
    have hs := h.spans hinc
    have hs' := h'.spans (hinc.sublist h.suffix.sublist)
    refine ⟨?_, ?_, List.pairwise_append.2 ⟨hs.pairwise, hs'.pairwise, ?_⟩, ?_⟩
    · intro part hp t ht
      rcases List.mem_append.1 hp with hp | hp
      · exact hs.mem part hp t ht
      · exact h.suffix.subset (hs'.mem part hp t ht)
    · intro part hp t ht u hu
      rcases List.mem_append.1 hp with hp | hp
      · exact hs.lt part hp t ht u (h'.suffix.subset hu)
      · exact hs'.lt part hp t ht u hu
    -- Parts of the first text stand before the rest, and those of the second stand in it.
    · intro part hp part' hp' t u ht hu
      exact hs.lt part hp t ht u (hs'.mem part' hp' u hu)
    · intro part hp
      rcases List.mem_append.1 hp with hp | hp
      · exact hs.ordered part hp
      · exact hs'.ordered part hp

theorem single (hsuffix : rest <:+ ts) (h : Increasing ts →
      (∀ t, part.HasMark t → t ∈ ts ∧ ∀ u ∈ rest, t.line < u.line) ∧ part.Ordered) :
    Written ts rest [part] where
  suffix := hsuffix
  spans hinc := by
    obtain ⟨hheld, hordered⟩ := h hinc
    exact ⟨List.forall_mem_singleton.2 fun t ht => (hheld t ht).1,
      List.forall_mem_singleton.2 fun t ht => (hheld t ht).2, List.pairwise_singleton _ _,
      List.forall_mem_singleton.2 hordered⟩

/-- A part with marks, whose parts are in order. -/
theorem node (h : Written ts rest parts) (hparts : part.parts = parts)
    (hmarks : Increasing ts → part.marks.Pairwise (fun t u => t.line ≤ u.line) ∧
      ∀ t ∈ part.marks, t ∈ ts ∧ (∀ u ∈ rest, t.line < u.line) ∧
        ∀ inner ∈ parts, ∀ u, inner.HasMark u → t.line ≤ u.line) :
    Written ts rest [part] := by
  subst hparts
  refine single h.suffix fun hinc => ?_
  have hs := h.spans hinc
  obtain ⟨hpairwise, hm⟩ := hmarks hinc
  refine ⟨fun t ht => ?_, .node hpairwise (fun t ht => (hm t ht).2.2) hs.pairwise hs.ordered⟩
  rcases Part.hasMark_iff.1 ht with ht | ⟨inner, hi, ht⟩
  · exact ⟨(hm t ht).1, (hm t ht).2.1⟩
  · exact ⟨hs.mem inner hi t ht, hs.lt inner hi t ht⟩

/-- A part without marks. -/
theorem wrap (h : Written ts rest parts) (hparts : part.parts = parts) (hmarks : part.marks = []) :
    Written ts rest [part] := by
  refine h.node hparts fun _ => ?_
  rw [hmarks]
  exact ⟨.nil, nofun⟩

/-- A part whose mark stands in front. -/
theorem marked (h : Written ts rest parts) (hparts : part.parts = parts)
    (hmarks : part.marks = [t]) : Written (t :: ts) rest [part] := by
  refine h.skip.node hparts fun hinc => ?_
  obtain ⟨ht, hinc'⟩ := List.pairwise_cons.1 hinc
  rw [hmarks]
  refine ⟨List.pairwise_singleton _ _, List.forall_mem_singleton.2 ?_⟩
  refine ⟨List.mem_cons_self, fun u hu => ht u (h.suffix.subset hu), fun inner hi u hu => ?_⟩
  exact Nat.le_of_lt (ht u ((h.spans hinc').mem inner hi u hu))

/-- A part without marks, whose parts need not be in order. -/
theorem turned (h : Written ts rest parts) (hmarks : part.marks = [])
    (hheld : ∀ inner ∈ part.parts, ∀ t, inner.HasMark t → ∃ written ∈ parts, written.HasMark t)
    (hordered : parts.Pairwise Part.Before → (∀ inner ∈ parts, inner.Ordered) → part.Ordered) :
    Written ts rest [part] := by
  refine single h.suffix fun hinc => ?_
  have hs := h.spans hinc
  refine ⟨fun t ht => ?_, hordered hs.pairwise hs.ordered⟩
  rw [Part.hasMark_iff, hmarks] at ht
  obtain ht | ⟨inner, hi, ht⟩ := ht
  · cases ht
  · obtain ⟨written, hw, ht⟩ := hheld inner hi t ht
    exact ⟨hs.mem written hw t ht, hs.lt written hw t ht⟩

/-- The object stands before the value, though the value is the first of the parts. -/
theorem assignment {object value : Expr} {name : Token}
    (h : Written ts rest [.expr object, .expr value]) :
    Written ts rest [.expr (.set object name value)] := by
  -- The parts are listed in the order in which the check visits them, so they are turned round.
  refine h.turned rfl (fun inner hi t ht => ⟨inner, List.mem_reverse.2 hi, ht⟩) ?_
  intro hpairwise hordered
  exact .assignment (List.pairwise_pair.1 hpairwise) (hordered _ List.mem_cons_self)
    (hordered _ (List.mem_cons_of_mem _ List.mem_cons_self))

/-- The increment of a loop stands before the body, though it is run after it. -/
theorem increment {condition step : Expr} {body : Stmt}
    (h : Written ts rest [.expr condition, .expr step, .stmt body]) :
    Written ts rest [.stmt (.loop condition (.block [body, .expression step]))] := by
  refine h.turned rfl ?_ fun hpairwise hordered => ?_
  · intro inner hi t ht
    simp only [List.exists_mem_cons_iff, List.not_mem_nil, false_and, exists_false, or_false]
    obtain rfl | hi := List.mem_cons.1 hi
    · exact .inl ht
    · obtain rfl := List.mem_singleton.1 hi
      exact .inr (Part.hasMark_incremented.1 ht).symm
  · simp only [List.forall_mem_cons] at hordered
    exact .increment hpairwise hordered.1 hordered.2.1 hordered.2.2.1

/-- A class marks its name and that of its superclass, which is also a part of it. -/
theorem subclass {name less superclass : Token} {methods : List FunctionDecl}
    (h : Written ts rest (methods.map (.function true))) :
    Written (name :: less :: superclass :: ts) rest
      [.stmt (.classDecl name (some (.var 0 superclass)) methods)] := by
  -- The superclass is read as a variable, whose mark is the same token.
  have hparent : Written (superclass :: ts) ts [.expr (.var 0 superclass)] :=
    Written.nil.marked rfl rfl
  have hparts := hparent.append h
  refine hparts.skip.skip.node rfl fun hinc => ?_
  obtain ⟨hname, hinc'⟩ := List.pairwise_cons.1 hinc
  have hs := hparts.spans hinc'.of_cons
  have hheld : (Part.expr (.var 0 superclass)).HasMark superclass := .mark List.mem_cons_self
  have hsub : superclass :: ts ⊆ less :: superclass :: ts := List.subset_cons_self _ _
  have hlt : name.line < superclass.line := hname superclass (hsub List.mem_cons_self)
  refine ⟨List.pairwise_pair.2 (Nat.le_of_lt hlt), ?_⟩
  intro t ht
  obtain rfl | ht := List.mem_cons.1 ht
  · refine ⟨List.mem_cons_self, fun u hu => ?_, fun inner hi u hu => Nat.le_of_lt ?_⟩
    · exact hname u (hsub (hparts.suffix.subset hu))
    · exact hname u (hsub (hs.mem inner hi u hu))
  · obtain rfl := List.mem_singleton.1 ht
    refine ⟨List.mem_cons_of_mem _ (hsub List.mem_cons_self),
      hs.lt _ List.mem_cons_self _ hheld, fun inner hi u hu => ?_⟩
    obtain rfl | hi := List.mem_cons.1 hi
    -- The variable itself has no other mark, so the lines are equal here and not less.
    · obtain hu | ⟨e, he, -⟩ := Part.hasMark_iff.1 hu
      · obtain rfl := List.mem_singleton.1 hu
        exact Nat.le_refl _
      · cases he
    · exact Nat.le_of_lt ((List.pairwise_cons.1 hs.pairwise).1 inner hi _ _ hheld hu)

/-- The loop that stands for a `for`. -/
theorem forLoop {ts₁ ts₂ ts₃ : List Token} {start : Option Stmt} {condition step : Option Expr}
    {body : Stmt} (hstart : Written ts ts₁ (start.toList.map .stmt))
    (hcondition : Written ts₁ ts₂ (condition.toList.map .expr))
    (hstep : Written ts₂ ts₃ (step.toList.map .expr)) (hbody : Written ts₃ rest [.stmt body]) :
    Written ts rest [.stmt (.forLoop start condition step body)] := by
  have hcondition' : Written ts₁ ts₂ [.expr (condition.getD (.constant (.bool true)))] := by
    cases condition with
    | none => exact hcondition.wrap rfl rfl
    | some condition => exact hcondition
  have hloop : Written ts₁ rest [.stmt (.forLoop none condition step body)] := by
    cases step with
    | none => exact (hcondition'.append (hstep.append hbody)).wrap rfl rfl
    | some step => exact (hcondition'.append (hstep.append hbody)).increment
  cases start with
  | none => exact hstart.append hloop
  | some start => exact (hstart.append hloop).wrap rfl rfl

end Written

/-! ## Expressions -/

theorem Joined.written {ts rest : List Token} {left right both : Expr} {op : Token}
    (hj : Joined left op right both) (h : Written ts rest [.expr left, .expr right]) :
    Written ts rest [.expr both] := by
  cases hj with
  | logical | binary => exact h.wrap rfl rfl

mutual

theorem Expression.written {ts rest : List Token} {e : Expr} :
    Expression ts e rest → Written ts rest [.expr e]
  | .assignVariable _ _ h => (h.written.wrap rfl rfl).skip.skip
  | .assignProperty h _ _ _ h' => (h.written.stop.stop.stop.append h'.written).assignment
  | .logicOr h => h.written

theorem Chain.written {l : Grammar.Level} {ts rest : List Token} {e : Expr} :
    Chain l ts e rest → Written ts rest [.expr e]
  | .mk h hs => hs.written h.written

theorem Operand.written {l : Grammar.Level} {ts rest : List Token} {e : Expr} :
    Operand l ts e rest → Written ts rest [.expr e]
  | .logicAnd h | .equality h | .comparison h | .term h | .factor h => h.written
  | .unary h => h.written

theorem Links.written {l : Grammar.Level} {left e : Expr} {ts ts' rest : List Token} :
    Links l left ts' e rest → Written ts ts' [.expr left] → Written ts rest [.expr e]
  | .nil, hleft => hleft
  | .cons _ h hj hs, hleft => hs.written (hj.written (hleft.stop.append h.written))

theorem Unary.written {ts rest : List Token} {e : Expr} :
    Unary ts e rest → Written ts rest [.expr e]
  | .operator _ h => (h.written.wrap rfl rfl).skip
  | .call h => h.written

theorem Call.written {ts rest : List Token} {e : Expr} :
    Call ts e rest → Written ts rest [.expr e]
  | .mk h hs => hs.written h.written

theorem Postfix.written {callee e : Expr} {ts ts' rest : List Token} :
    Postfix callee ts' e rest → Written ts ts' [.expr callee] → Written ts rest [.expr e]
  | .nil, hcallee => hcallee
  | .call _ _ hs, hcallee | .property _ _ hs, hcallee =>
    hs.written (hcallee.stop.stop.wrap rfl rfl)
  | .callWith _ h _ _ hs, hcallee =>
    hs.written ((hcallee.stop.append h.written.stop).wrap rfl rfl)

theorem Arguments.written {ts rest : List Token} {es : List Expr} :
    Arguments ts es rest → Written ts rest (es.map .expr)
  | .last h => h.written
  | .cons h _ hs => h.written.stop.append hs.written

theorem Primary.written {ts rest : List Token} {e : Expr} :
    Primary ts e rest → Written ts rest [.expr e]
  | .literal _ _ | .true _ | .false _ | .nil _ => (Written.nil.wrap rfl rfl).skip
  | .this _ | .identifier _ => Written.nil.marked rfl rfl
  | .grouping _ h _ => (h.written.stop.wrap rfl rfl).skip
  | .super _ _ _ => Written.nil.skip.skip.marked rfl rfl

end

/-! ## Statements -/

section

variable {ts rest : List Token}

theorem OptExpression.written {e : Option Expr} (h : OptExpression ts e rest) :
    Written ts rest (e.toList.map .expr) := by
  cases h with
  | none => exact .nil
  | some h => exact h.written

theorem VarDecl.written {s : Stmt} (h : VarDecl ts s rest) : Written ts rest [.stmt s] := by
  cases h with
  | bare => exact (Written.nil.skip.marked rfl rfl).skip
  | initialized _ _ _ h => exact (h.written.stop.skip.marked rfl rfl).skip

theorem ExprStmt.written {s : Stmt} (h : ExprStmt ts s rest) : Written ts rest [.stmt s] := by
  cases h with
  | mk h => exact h.written.stop.wrap rfl rfl

theorem ForStart.written {s : Option Stmt} (h : ForStart ts s rest) :
    Written ts rest (s.toList.map .stmt) := by
  cases h with
  | varDecl h => exact h.written
  | exprStmt h => exact h.written
  | none => exact Written.nil.skip

theorem Parameters.written {names : List Token} (h : Parameters ts names rest) :
    Written ts rest (names.map .param) := by
  induction h with
  | last => exact Written.nil.marked rfl rfl
  | cons _ _ _ ih => exact (Written.nil.marked rfl rfl).append ih.skip

theorem OptParameters.written {names : List Token} (h : OptParameters ts names rest) :
    Written ts rest (names.map .param) := by
  cases h with
  | none => exact .nil
  | some h => exact h.written

theorem Superclass.written {ts' : List Token} {word name : Token} {superclass : Option Expr}
    {methods : List FunctionDecl} (h : Superclass ts superclass ts')
    (hmethods : Written ts' rest (methods.map (.function true))) :
    Written (word :: name :: ts) rest [.stmt (.classDecl name superclass methods)] := by
  cases h with
  | none => exact (hmethods.marked rfl rfl).skip
  | some => exact hmethods.subclass.skip

end

section

variable {strict : Bool}

mutual

theorem Statement.written {isOpen : Bool} {ts rest : List Token} {s : Stmt} :
    Statement strict isOpen ts s rest → Written ts rest [.stmt s]
  | .exprStmt h => h.written
  | .forStmt _ _ hstart hcondition _ hstep _ hbody htree => by
    rw [forTree_iff.1 htree]
    have hloop := hstart.written.forLoop hcondition.written.stop hstep.written.stop hbody.written
    exact hloop.skip.skip
  | .ifStmt _ _ hcondition _ hbody | .whileStmt _ _ hcondition _ hbody =>
    ((hcondition.written.stop.append hbody.written).wrap rfl rfl).skip.skip
  | .ifElse _ _ hcondition _ hbody _ _ hbody' =>
    ((hcondition.written.stop.append (hbody.written.stop.append hbody'.written)).wrap
      rfl rfl).skip.skip
  | .printStmt _ h _ => (h.written.stop.wrap rfl rfl).skip
  | .returnStmt _ h _ => h.written.stop.marked rfl rfl
  | .block h => h.written.wrap rfl rfl

theorem Block.written {ts rest : List Token} {ss : List Stmt} :
    Block strict ts ss rest → Written ts rest (ss.map .stmt)
  | .mk _ h _ => h.written.stop.skip

theorem Declarations.written {ts rest : List Token} {ss : List Stmt} :
    Declarations strict ts ss rest → Written ts rest (ss.map .stmt)
  | .nil => .nil
  | .cons h hs => h.written.append hs.written

theorem Declaration.written {ts rest : List Token} {s : Stmt} :
    Declaration strict ts s rest → Written ts rest [.stmt s]
  | .classDecl _ _ hsuper _ hmethods _ => hsuper.written hmethods.written.stop.skip
  | .funDecl _ h => by
    obtain ⟨ts', rfl, hf⟩ := h.written
    exact ((hf false).marked rfl rfl).skip
  | .varDecl h => h.written
  | .statement h => h.written

theorem Function.written {ts rest : List Token} {f : FunctionDecl} :
    Function strict ts f rest → ∃ ts', ts = f.name :: ts' ∧
      ∀ isMethod, Written ts' rest [.function isMethod f]
  | .mk _ _ hparams _ hbody =>
    ⟨_, rfl, fun _ => ((hparams.written.stop.append hbody.written).wrap rfl rfl).skip⟩

theorem Functions.written {ts rest : List Token} {fs : List FunctionDecl} :
    Functions strict ts fs rest → Written ts rest (fs.map (.function true))
  | .nil => .nil
  | .cons h hs => by
    obtain ⟨ts', rfl, hf⟩ := h.written
    exact (hf true).skip.append hs.written

end

/-- The tokens of a program are in order, but for assignments and increments. -/
theorem Program.ordered {ts : List Token} {ss : List Stmt} (h : Program strict ts ss)
    (hinc : Increasing ts) : (Part.program ss).Ordered := by
  have hwritten : Written ts [] [.program ss] := (Declarations.written h).wrap rfl rfl
  exact (hwritten.spans hinc).ordered _ List.mem_cons_self

end

end Syntax

end Lox
