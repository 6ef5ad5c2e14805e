import Lox.Proofs.Grammar.Soundness

/-!
# What the grammar derives is read

A rule with enough calls left reads every phrase that its line of the grammar derives, records no
error on the way, and builds the tree of the derivation. Enough is what `callBound` says: 32 calls
for each token, and a few more that depend on how far the rule stands above the tightest one.

A rule is only sure to stop where the phrase stops if the token after it does not go on with the
phrase (`Halts`).
-/

namespace Lox.Grammar

/-! ## Rules on given tokens -/

namespace Rule

variable {α β : Type}

/-- From the given tokens on, a rule reads up to the rest without an error, and what it gives is as
wanted. The next id, the errors of before and what stands behind the program do not matter. -/
def Takes (p : Rule α) (ts : List Token) (Q : α → Prop) (rest : List Token) : Prop :=
  ∀ c : Cursor, c.tokens = ts →
    ∃ a d, p c = .ok a d ∧ d.tokens = rest ∧ d.errors = c.errors ∧ Q a

namespace Takes

variable {p : Rule α} {f : α → Rule β} {ts mid rest : List Token} {Q : α → Prop} {R : β → Prop}

theorem pure {a : α} (h : Q a) : Takes (Pure.pure a) ts Q ts := fun c hc => ⟨a, c, rfl, hc, rfl, h⟩

theorem bind (hp : p.Takes ts Q mid) (hf : ∀ a, Q a → (f a).Takes mid R rest) :
    Takes (p >>= f) ts R rest := by
  intro c hc
  obtain ⟨a, d, hok, hd, herrors, ha⟩ := hp c hc
  obtain ⟨b, e, hok', he, herrors', hb⟩ := hf a ha d hd
  refine ⟨b, e, ?_, he, herrors'.trans herrors, hb⟩
  simp only [Bind.bind, hok, hok']

/-- A step whose value is known. -/
theorem step {a : α} (hp : p.Takes ts (· = a) mid) (hf : (f a).Takes mid R rest) :
    Takes (p >>= f) ts R rest :=
  hp.bind fun _ hb => hb ▸ hf

theorem map {g : α → β} (hp : p.Takes ts Q rest) (h : ∀ a, Q a → R (g a)) :
    Takes (g <$> p) ts R rest :=
  hp.bind fun a ha => pure (h a ha)

theorem accept {kinds : List Kind} {t : Token} (ht : t.kind ∈ kinds) :
    (accept? kinds).Takes (t :: rest) (· = some t) rest :=
  fun c hc =>
    ⟨some t, c.advance, accept?_of_mem hc ht, Cursor.tokens_advance hc, c.advance_errors, rfl⟩

theorem refuse {kinds : List Kind} (h : Halts kinds ts) :
    (accept? kinds).Takes ts (· = none) ts :=
  fun c hc => ⟨none, c, accept?_of_not_mem (hc ▸ h), hc, rfl, rfl⟩

theorem expect {kind : Kind} {fault : GrammarFault} {t : Token} (ht : t.kind = kind) :
    (Rule.expect kind fault).Takes (t :: rest) (· = t) rest :=
  step (accept (List.mem_singleton.2 ht)) (pure rfl)

theorem peek : peek?.Takes ts (· = ts.head?.map Token.kind) ts :=
  fun c hc => ⟨_, c, peek?_eq c, hc, rfl, by rw [hc]⟩

theorem freshId : Rule.freshId.Takes ts (fun _ => True) ts :=
  fun c hc => ⟨c.nextId, _, rfl, hc, rfl, trivial⟩

theorem recover {p : Rule Stmt} {Q : Stmt → Prop} (hp : p.Takes ts Q rest) :
    (Grammar.recover p).Takes ts (fun s => ∃ x, s = some x ∧ Q x) rest := by
  intro c hc
  obtain ⟨s, d, hok, hd, herrors, hs⟩ := hp c hc
  refine ⟨some s, d, ?_, hd, herrors, s, rfl, hs⟩
  simp only [Grammar.recover, hok]

end Takes

end Rule

open Rule

/-! ## Expressions -/

namespace Level

/-- How many calls a level stands above the tightest rule. -/
def height : Level → Nat
  | disjunction => 14
  | conjunction => 12
  | equality => 10
  | comparison => 8
  | term => 6
  | factor => 4

theorem height_le (l : Level) : l.height ≤ 14 := by cases l <;> decide

theorem le_height (l : Level) : 4 ≤ l.height := by cases l <;> decide

end Level

variable {ts rest : List Token} {e callee : Expr} {Q : Expr → Prop} {n : Nat}

theorem levelTail_halts {l : Level} {left : Expr} (hn : n ≠ 0) (h : Halts l.operators rest)
    (hq : Q left) : (levelTail n l left).Takes rest Q rest := by
  cases n with
  | zero => exact absurd rfl hn
  | succ n => exact .step (.refuse h) (.pure hq)

theorem callTail_halts (hn : n ≠ 0) (h : Halts callExtensions rest) (hq : Q callee) :
    (callTail n callee).Takes rest Q rest := by
  cases n with
  | zero => exact absurd rfl hn
  | succ n =>
    refine .step (.refuse (h.mono (by decide))) ?_
    exact .step (.refuse (h.mono (by decide))) (.pure hq)

/-- A level with a single operand. -/
theorem level_of_operand {l : Level} (hn : n ≠ 0) (ho : (operand n l).Takes ts Q rest)
    (h : Halts l.operators rest) : (level (n + 1) l).Takes ts Q rest :=
  ho.bind fun _ hleft => levelTail_halts hn h hleft

/-- The loosest level with nothing but a unary expression. -/
theorem level_of_unary (hu : (unary n).Takes ts Q rest)
    (h : Halts (Level.extensions .disjunction) rest) :
    (level (n + 12) .disjunction).Takes ts Q rest := by
  have h₆ : (level (n + 2) .factor).Takes ts Q rest :=
    level_of_operand (n := n + 1) (Nat.succ_ne_zero _) hu (h.mono (by decide))
  have h₅ : (level (n + 4) .term).Takes ts Q rest :=
    level_of_operand (n := n + 3) (Nat.succ_ne_zero _) h₆ (h.mono (by decide))
  have h₄ : (level (n + 6) .comparison).Takes ts Q rest :=
    level_of_operand (n := n + 5) (Nat.succ_ne_zero _) h₅ (h.mono (by decide))
  have h₃ : (level (n + 8) .equality).Takes ts Q rest :=
    level_of_operand (n := n + 7) (Nat.succ_ne_zero _) h₄ (h.mono (by decide))
  have h₂ : (level (n + 10) .conjunction).Takes ts Q rest :=
    level_of_operand (n := n + 9) (Nat.succ_ne_zero _) h₃ (h.mono (by decide))
  exact level_of_operand (n := n + 11) (Nat.succ_ne_zero _) h₂ (h.mono (by decide))

/-- A property that ends a call. -/
theorem callTail_property {dot name : Token} (hn : 1 < n) (hdot : dot.kind = .dot)
    (hname : name.kind = .identifier) (h : Halts callExtensions rest) (hq : Q (.get callee name)) :
    (callTail n callee).Takes (dot :: name :: rest) Q rest := by
  obtain ⟨m, rfl⟩ : ∃ m, n = m + 1 := ⟨n - 1, by omega⟩
  refine .step (.refuse (halts_cons (by rw [hdot]; decide))) ?_
  refine .step (.accept (List.mem_singleton.2 hdot)) ?_
  exact .step (.expect hname) (callTail_halts (by omega) h hq)

theorem links_halts {l : Level} {left : Expr} (h : Syntax.Links l left ts e rest)
    (hrest : Halts l.extensions rest) : Halts l.operandExtensions ts := by
  cases h with
  | nil => exact hrest.mono l.operandExtensions_subset
  | cons hop =>
    exact halts_cons (Level.not_mem_operandExtensions (Syntax.mem_of_operator hop))

/-! ### Single productions -/

theorem assignTo_var_takes {target value : Expr} {name equals : Token}
    (h : target.blank = .var 0 name) : (assignTo target equals value).Takes rest
      (·.blank = .assign 0 name value.blank) rest := by
  obtain ⟨id, rfl⟩ := Expr.eq_var_of_blank h
  exact Takes.freshId.bind fun _ _ => .pure rfl

theorem assignTo_get_takes {target value object : Expr} {name equals : Token}
    (h : target.blank = .get object name) : (assignTo target equals value).Takes rest
      (·.blank = .set object name value.blank) rest := by
  obtain ⟨inner, rfl, rfl⟩ := Expr.eq_get_of_blank h
  exact .pure rfl

/-- An expression with an equals sign. -/
theorem expression_assign {equals : Token} {mid : List Token} {value : Expr} {P : Expr → Prop}
    (ht : (level n .disjunction).Takes ts P (equals :: mid))
    (hequals : equals.kind = .equal) (hv : (expression n).Takes mid (·.blank = value) rest)
    (ha : ∀ t v : Expr, P t → v.blank = value →
      (assignTo t equals v).Takes rest (·.blank = e) rest) :
    (expression (n + 1)).Takes ts (·.blank = e) rest := by
  refine ht.bind fun t ht => .step (.accept (List.mem_singleton.2 hequals)) ?_
  exact hv.bind fun v hv => ha t v ht hv

/-- An expression without an equals sign. -/
theorem expression_plain (h : (level n .disjunction).Takes ts Q rest)
    (hrest : Halts exprExtensions rest) : (expression (n + 1)).Takes ts Q rest := by
  refine h.bind fun t ht => .step (.refuse (hrest.mono (by decide))) (.pure ht)

theorem unary_of_primary {mid : List Token} {P : Expr → Prop}
    (hfront : Syntax.Front Syntax.primaryStarts ts mid) (hp : (primary n).Takes ts P mid)
    (htail : ∀ callee, P callee → (callTail n callee).Takes mid Q rest) :
    (unary (n + 1)).Takes ts Q rest := by
  refine .step (.refuse (hfront.head_not_mem (by decide))) ?_
  exact hp.bind htail

theorem primary_identifier {t : Token} (hk : t.kind = .identifier) :
    (primary (n + 1)).Takes (t :: rest) (·.blank = .var 0 t) rest := by
  refine .step (.accept (by rw [hk]; decide)) ?_
  simp only [hk]
  exact Takes.freshId.bind fun _ _ => .pure rfl

/-- A variable on the left of an equals sign. -/
theorem level_variable {name equals : Token} (hname : name.kind = .identifier)
    (hequals : equals.kind = .equal) :
    (level (n + 14) .disjunction).Takes (name :: equals :: ts) (·.blank = .var 0 name)
      (equals :: ts) := by
  refine level_of_unary (n := n + 2) ?_ (halts_cons (by rw [hequals]; decide))
  refine unary_of_primary (.cons (by rw [hname]; decide) (Nat.le_refl _))
    (primary_identifier hname) fun callee hcallee => ?_
  exact callTail_halts (Nat.succ_ne_zero _) (halts_cons (by rw [hequals]; decide)) hcallee

/-- A property on the left of an equals sign, if the call before it is read. -/
theorem level_property {dot name equals : Token} {mid : List Token} {object : Expr}
    (hdot : dot.kind = .dot) (hname : name.kind = .identifier) (hequals : equals.kind = .equal)
    (h : ∀ Q : Expr → Prop, (∀ k (o : Expr), o.blank = object → 1 < k →
        (callTail k o).Takes (dot :: name :: equals :: mid) Q (equals :: mid)) →
      (unary (n + 2)).Takes ts Q (equals :: mid)) :
    (level (n + 14) .disjunction).Takes ts (·.blank = .get object name) (equals :: mid) := by
  refine level_of_unary (h _ fun k o ho hk => ?_) (halts_cons (by rw [hequals]; decide))
  refine callTail_property hk hdot hname (halts_cons (by rw [hequals]; decide)) ?_
  rw [Expr.blank, ho]

theorem primary_literal {t : Token} {value : Literal} (hk : t.kind = .number ∨ t.kind = .string)
    (hvalue : t.literal = some value) : (primary (n + 1)).Takes (t :: rest)
      (·.blank = .constant (Syntax.constant value)) rest := by
  have hliteral : (ofLiteral t).Takes rest (·.blank = .constant (Syntax.constant value)) rest := by
    unfold ofLiteral
    cases value <;> simp only [hvalue] <;> exact .pure rfl
  rcases hk with hk | hk
  all_goals
    refine .step (.accept (by rw [hk]; decide)) ?_
    simp only [hk]
    exact hliteral

theorem primary_grouping {paren close : Token} {inner : Expr} (hk : paren.kind = .leftParen)
    (hclose : close.kind = .rightParen)
    (h : (expression n).Takes ts (·.blank = inner) (close :: rest)) :
    (primary (n + 1)).Takes (paren :: ts) (·.blank = .grouping inner) rest := by
  refine .step (.accept (by rw [hk]; decide)) ?_
  simp only [hk]
  refine h.bind fun e he => .step (.expect hclose) (.pure ?_)
  rw [Expr.blank, he]

theorem primary_super {t dot method : Token} (hk : t.kind = .superWord) (hdot : dot.kind = .dot)
    (hmethod : method.kind = .identifier) : (primary (n + 1)).Takes (t :: dot :: method :: rest)
      (·.blank = .super 0 t method) rest := by
  refine .step (.accept (by rw [hk]; decide)) ?_
  simp only [hk]
  refine .step (.expect hdot) (.step (.expect hmethod) ?_)
  exact Takes.freshId.bind fun _ _ => .pure rfl

theorem arguments_none {close : Token} (hclose : close.kind = .rightParen) :
    (arguments (n + 1)).Takes (close :: rest) (Expr.blankAll · = []) (close :: rest) := by
  refine .step .peek ?_
  rw [if_pos (by rw [List.head?_cons, Option.map_some, hclose])]
  exact .pure rfl

theorem arguments_some {es : List Expr} (hfront : Syntax.Front Syntax.exprStarts ts rest)
    (h : (argumentList n 0).Takes ts (Expr.blankAll · = es) rest) :
    (arguments (n + 1)).Takes ts (Expr.blankAll · = es) rest := by
  refine .step .peek ?_
  rw [if_neg (hfront.head?_ne (by decide))]
  exact h

/-- A call whose arguments are read. -/
theorem callTail_call {paren close : Token} {mid : List Token} {es : List Expr}
    (hparen : paren.kind = .leftParen) (hclose : close.kind = .rightParen)
    (hargs : (arguments n).Takes ts (Expr.blankAll · = es) (close :: mid))
    (htail : ∀ c : Expr, c.blank = .call callee.blank close es →
      (callTail n c).Takes mid Q rest) :
    (callTail (n + 1) callee).Takes (paren :: ts) Q rest := by
  refine .step (.accept (List.mem_singleton.2 hparen)) ?_
  refine hargs.bind fun args hargs => .step (.expect hclose) (htail _ ?_)
  rw [Expr.blank, hargs]

theorem argumentList_last {position : Nat} (hp : position < maxArity)
    (h : (expression n).Takes ts (·.blank = e) rest) (hrest : Halts [.comma] rest) :
    (argumentList (n + 1) position).Takes ts (Expr.blankAll · = [e]) rest := by
  rw [argumentList, if_neg (Nat.not_le_of_lt hp)]
  refine h.bind fun a ha => .step (.refuse hrest) (.pure ?_)
  rw [Expr.blankAll, Expr.blankAll, ha]

theorem argumentList_cons {position : Nat} {comma : Token} {mid : List Token} {es : List Expr}
    (hp : position < maxArity) (h : (expression n).Takes ts (·.blank = e) (comma :: mid))
    (hcomma : comma.kind = .comma)
    (hs : (argumentList n (position + 1)).Takes mid (Expr.blankAll · = es) rest) :
    (argumentList (n + 1) position).Takes ts (Expr.blankAll · = e :: es) rest := by
  rw [argumentList, if_neg (Nat.not_le_of_lt hp)]
  refine h.bind fun a ha => .step (.accept (List.mem_singleton.2 hcomma)) ?_
  refine hs.bind fun as has => .pure ?_
  rw [Expr.blankAll, ha, has]

/-! ### Whole derivations -/

mutual

theorem expression_takes {ts rest : List Token} {e : Expr} {n : Nat} :
    Syntax.Expression ts e rest → 32 * ts.length + 15 ≤ n → Halts exprExtensions rest →
      (expression n).Takes ts (·.blank = e) rest
  | .assignVariable hname hequals h, hn, hrest => by
    simp only [List.length_cons] at hn
    obtain ⟨m, rfl⟩ : ∃ m, n = m + 15 := ⟨n - 15, by omega⟩
    -- Two tokens are read, so the value needs 64 calls less than the whole.
    refine expression_assign (level_variable hname hequals) hequals
      (expression_takes h (by omega) hrest) fun t v ht hv => ?_
    rw [← hv]
    exact assignTo_var_takes ht
  | .assignProperty hcall hdot hname hequals h, hn, hrest => by
    have hlen := hcall.front.length_lt
    simp only [List.length_cons] at hlen
    obtain ⟨m, rfl⟩ : ∃ m, n = m + 15 := ⟨n - 15, by omega⟩
    have htarget := level_property (n := m) hdot hname hequals fun Q htail =>
      unary_takes_call hcall (by omega) fun k o ho hk =>
        htail k o ho (by simp only [List.length_cons] at hk; omega)
    refine expression_assign htarget hequals (expression_takes h (by omega) hrest)
      fun t v ht hv => ?_
    rw [← hv]
    exact assignTo_get_takes ht
  | .logicOr h, hn, hrest => by
    obtain ⟨m, rfl⟩ : ∃ m, n = m + 1 := ⟨n - 1, by omega⟩
    have hlevel : Level.height .disjunction = 14 := rfl
    refine expression_plain (level_takes h (by omega) (hrest.mono ?_)) hrest
    exact List.subset_cons_self _ _

theorem level_takes {l : Level} {ts rest : List Token} {e : Expr} {n : Nat} :
    Syntax.Chain l ts e rest → 32 * ts.length + l.height ≤ n → Halts l.extensions rest →
      (level n l).Takes ts (·.blank = e) rest
  | .mk ho hl, hn, hrest => by
    have hheight := l.le_height
    have hlen := ho.front.length_lt
    obtain ⟨m, rfl⟩ : ∃ m, n = m + 1 := ⟨n - 1, by omega⟩
    -- The operand stops where a link begins, as no operator of the level goes on with it.
    refine (operand_takes ho (by omega) (links_halts hl hrest)).bind fun left hleft => ?_
    exact levelTail_takes hl hleft (by omega) hrest

theorem operand_takes {l : Level} {ts rest : List Token} {e : Expr} {n : Nat} :
    Syntax.Operand l ts e rest → 32 * ts.length + l.height ≤ n + 1 →
      Halts l.operandExtensions rest → (operand n l).Takes ts (·.blank = e) rest
  | .logicAnd h, hn, hrest | .equality h, hn, hrest | .comparison h, hn, hrest | .term h, hn, hrest
  | .factor h, hn, hrest => by
    simp only [Level.height] at hn
    obtain ⟨m, rfl⟩ : ∃ m, n = m + 1 := ⟨n - 1, by omega⟩
    exact level_takes h (by simp only [Level.height]; omega) hrest
  | .unary h, hn, hrest => by
    simp only [Level.height] at hn
    obtain ⟨m, rfl⟩ : ∃ m, n = m + 1 := ⟨n - 1, by omega⟩
    exact unary_takes h (by omega) hrest

theorem levelTail_takes {l : Level} {left left' e : Expr} {ts rest : List Token} {n : Nat} :
    Syntax.Links l left ts e rest → left'.blank = left → 32 * ts.length + 1 ≤ n →
      Halts l.extensions rest → (levelTail n l left').Takes ts (·.blank = e) rest
  | .nil, hleft, hn, hrest =>
    levelTail_halts (by omega) (hrest.mono l.operators_subset) hleft
  | .cons hop ho hj hl, hleft, hn, hrest => by
    have hheight := l.height_le
    have hlen := ho.front.length_lt
    rw [List.length_cons] at hn
    obtain ⟨m, rfl⟩ : ∃ m, n = m + 1 := ⟨n - 1, by omega⟩
    refine .step (.accept (Syntax.mem_of_operator hop)) ?_
    refine (operand_takes ho (by omega) (links_halts hl hrest)).bind fun right hright => ?_
    refine levelTail_takes hl ?_ (by omega) hrest
    rw [Level.blank_join, hleft, hright, hj.eq_join hop]

theorem unary_takes {ts rest : List Token} {e : Expr} {n : Nat} :
    Syntax.Unary ts e rest → 32 * ts.length + 2 ≤ n → Halts callExtensions rest →
      (unary n).Takes ts (·.blank = e) rest
  | .operator hop h, hn, hrest => by
    rw [List.length_cons] at hn
    obtain ⟨m, rfl⟩ : ∃ m, n = m + 1 := ⟨n - 1, by omega⟩
    refine .step (.accept (by rcases hop with hop | hop <;> rw [hop] <;> decide)) ?_
    refine (unary_takes h (by omega) hrest).bind fun right hright => .pure ?_
    rw [Expr.blank, hright]
  | .call h, hn, hrest =>
    unary_takes_call h hn fun _ _ he hk => callTail_halts (by omega) hrest he

/-- A call is read up to any point where something of it remains to be said. -/
theorem unary_takes_call {ts mid rest : List Token} {e : Expr} {n : Nat} {Q : Expr → Prop} :
    Syntax.Call ts e mid → 32 * ts.length + 2 ≤ n →
      (∀ k (e' : Expr), e'.blank = e → 32 * mid.length + 1 ≤ k →
        (callTail k e').Takes mid Q rest) → (unary n).Takes ts Q rest
  | .mk hp hpost, hn, htail => by
    have hlen := hp.front.length_lt
    obtain ⟨m, rfl⟩ : ∃ m, n = m + 1 := ⟨n - 1, by omega⟩
    -- What the caller says about the rest is handed on to the tail, which comes to it at its end.
    refine unary_of_primary hp.front (primary_takes hp (by omega)) fun callee hcallee => ?_
    exact callTail_takes hpost hcallee (by omega) htail

theorem callTail_takes {callee callee' e : Expr} {ts mid rest : List Token} {n : Nat}
    {Q : Expr → Prop} :
    Syntax.Postfix callee ts e mid → callee'.blank = callee → 32 * ts.length + 1 ≤ n →
      (∀ k (e' : Expr), e'.blank = e → 32 * mid.length + 1 ≤ k →
        (callTail k e').Takes mid Q rest) → (callTail n callee').Takes ts Q rest
  | .nil, hcallee, hn, htail => htail n callee' hcallee hn
  | .call hparen hclose h, hcallee, hn, htail => by
    simp only [List.length_cons] at hn
    obtain ⟨m, rfl⟩ : ∃ m, n = m + 2 := ⟨n - 2, by omega⟩
    refine callTail_call hparen hclose (arguments_none hclose) fun c hc => ?_
    exact callTail_takes h (by rw [hc, hcallee]) (by omega) htail
  | .callWith hparen ha hclose hcount h, hcallee, hn, htail => by
    have hlen := ha.front.length_lt
    simp only [List.length_cons] at hn hlen
    obtain ⟨m, rfl⟩ : ∃ m, n = m + 2 := ⟨n - 2, by omega⟩
    have hargs := argumentList_takes (n := m) (p := 0) ha (by rwa [Nat.zero_add]) (by omega)
      (halts_cons (by rw [hclose]; decide))
    refine callTail_call hparen hclose (arguments_some ha.front hargs) fun c hc => ?_
    exact callTail_takes h (by rw [hc, hcallee]) (by omega) htail
  | .property hdot hname h, hcallee, hn, htail => by
    simp only [List.length_cons] at hn
    obtain ⟨m, rfl⟩ : ∃ m, n = m + 1 := ⟨n - 1, by omega⟩
    refine .step (.refuse (halts_cons (by rw [hdot]; decide))) ?_
    refine .step (.accept (List.mem_singleton.2 hdot)) (.step (.expect hname) ?_)
    exact callTail_takes h (by rw [Expr.blank, hcallee]) (by omega) htail

theorem argumentList_takes {ts rest : List Token} {es : List Expr} {n p : Nat} :
    Syntax.Arguments ts es rest → p + es.length ≤ maxArity → 32 * ts.length + 16 ≤ n →
      Halts (.comma :: exprExtensions) rest →
      (argumentList n p).Takes ts (Expr.blankAll · = es) rest
  | .last h, hcount, hn, hrest => by
    obtain ⟨m, rfl⟩ : ∃ m, n = m + 1 := ⟨n - 1, by omega⟩
    refine argumentList_last hcount ?_ (hrest.mono (by decide))
    exact expression_takes h (by omega) (hrest.mono (List.subset_cons_self _ _))
  | .cons h hcomma hs, hcount, hn, hrest => by
    have hlen := h.front.length_lt
    rw [List.length_cons] at hlen hcount
    obtain ⟨m, rfl⟩ : ∃ m, n = m + 1 := ⟨n - 1, by omega⟩
    have hfirst := expression_takes (n := m) h (by omega) (halts_cons (by rw [hcomma]; decide))
    exact argumentList_cons (by omega) hfirst hcomma
      (argumentList_takes hs (by omega) (by omega) hrest)

theorem primary_takes {ts rest : List Token} {e : Expr} {n : Nat} :
    Syntax.Primary ts e rest → 32 * ts.length + 1 ≤ n →
      (primary n).Takes ts (·.blank = e) rest
  | .literal hk hvalue, hn => by
    obtain ⟨m, rfl⟩ : ∃ m, n = m + 1 := ⟨n - 1, by omega⟩
    exact primary_literal hk hvalue
  | .true hk, hn | .false hk, hn | .nil hk, hn => by
    obtain ⟨m, rfl⟩ : ∃ m, n = m + 1 := ⟨n - 1, by omega⟩
    refine .step (.accept (by rw [hk]; decide)) ?_
    simp only [hk]
    exact .pure rfl
  | .this hk, hn => by
    obtain ⟨m, rfl⟩ : ∃ m, n = m + 1 := ⟨n - 1, by omega⟩
    refine .step (.accept (by rw [hk]; decide)) ?_
    simp only [hk]
    exact Takes.freshId.bind fun _ _ => .pure rfl
  | .identifier hk, hn => by
    obtain ⟨m, rfl⟩ : ∃ m, n = m + 1 := ⟨n - 1, by omega⟩
    exact primary_identifier hk
  | .grouping hk h hclose, hn => by
    rw [List.length_cons] at hn
    obtain ⟨m, rfl⟩ : ∃ m, n = m + 1 := ⟨n - 1, by omega⟩
    refine primary_grouping hk hclose (expression_takes h (by omega) ?_)
    exact halts_cons (by rw [hclose]; decide)
  | .super hk hdot hmethod, hn => by
    obtain ⟨m, rfl⟩ : ∃ m, n = m + 1 := ⟨n - 1, by omega⟩
    exact primary_super hk hdot hmethod

end

/-! ## Parts of statements -/

/-- An expression before a token that neither starts one nor goes on with one. -/
theorem exprUntil_takes {t : Token} {k : Kind} {x : Option Expr}
    (h : Syntax.OptExpression ts x (t :: rest)) (ht : t.kind = k)
    (hstart : k ∉ Syntax.exprStarts) (hstop : k ∉ exprExtensions)
    (hn : 32 * ts.length + 15 ≤ n) :
    (exprUntil k n).Takes ts (·.map Expr.blank = x) (t :: rest) := by
  refine .step .peek ?_
  cases h with
  | none =>
    rw [if_pos (by rw [List.head?_cons, Option.map_some, ht])]
    exact .pure rfl
  | some he =>
    rw [if_neg (he.front.head?_ne hstart)]
    refine (expression_takes he hn (halts_cons (ht ▸ hstop))).map fun e he => ?_
    rw [Option.map_some, he]

theorem paramList_takes {names : List Token} {position : Nat}
    (h : Syntax.Parameters ts names rest) (hcount : position + names.length ≤ maxArity)
    (hn : ts.length ≤ n) (hrest : Halts [.comma] rest) :
    (paramList n position).Takes ts (· = names) rest := by
  induction h generalizing n position with
  | last hname =>
    rw [List.length_cons] at hn
    obtain ⟨m, rfl⟩ : ∃ m, n = m + 1 := ⟨n - 1, by omega⟩
    rw [paramList, if_neg (Nat.not_le_of_lt hcount)]
    exact .step (.expect hname) (.step (.refuse hrest) (.pure rfl))
  | cons hname hcomma _ ih =>
    simp only [List.length_cons] at hn hcount
    obtain ⟨m, rfl⟩ : ∃ m, n = m + 1 := ⟨n - 1, by omega⟩
    rw [paramList, if_neg (by omega)]
    refine .step (.expect hname) (.step (.accept (List.mem_singleton.2 hcomma)) ?_)
    exact .step (ih (by omega) (by omega) hrest) (.pure rfl)

theorem params_takes {names : List Token} {close : Token}
    (h : Syntax.OptParameters ts names (close :: rest)) (hclose : close.kind = .rightParen)
    (hn : ts.length ≤ n) : (params n).Takes ts (· = names) (close :: rest) := by
  refine .step .peek ?_
  cases h with
  | none =>
    rw [if_pos (by rw [List.head?_cons, Option.map_some, hclose])]
    exact .pure rfl
  | some h hcount =>
    rw [if_neg (h.front.head?_ne (by decide))]
    refine paramList_takes h ?_ hn (halts_cons (by rw [hclose]; decide))
    rwa [Nat.zero_add]

theorem varDecl_takes {word : Token} {s : Stmt} (h : Syntax.VarDecl (word :: ts) s rest)
    (hn : 32 * ts.length + 15 ≤ n) : (varDecl n).Takes ts (·.blank = s) rest := by
  cases h with
  | bare _ hname hsemicolon =>
    refine .step (.expect hname) ?_
    refine .step (.refuse (halts_cons (by rw [hsemicolon]; decide))) ?_
    exact .step (.pure rfl) (.step (.expect hsemicolon) (.pure rfl))
  | initialized _ hname hequals he hsemicolon =>
    simp only [List.length_cons] at hn
    refine .step (.expect hname) (.step (.accept (List.mem_singleton.2 hequals)) ?_)
    have hvalue := expression_takes (n := n) he (by omega)
      (halts_cons (by rw [hsemicolon]; decide))
    have hsome := hvalue.map (g := some) (R := fun x => x.map Expr.blank = some _)
      fun e he => congrArg some he
    refine hsome.bind fun x hx => .step (.expect hsemicolon) (.pure ?_)
    rw [Stmt.blank, hx]

theorem expressionStatement_takes {s : Stmt} (h : Syntax.ExprStmt ts s rest)
    (hn : 32 * ts.length + 15 ≤ n) : (expressionStatement n).Takes ts (·.blank = s) rest := by
  cases h with
  | mk he hsemicolon =>
    refine (expression_takes he hn (halts_cons (by rw [hsemicolon]; decide))).bind fun e he => ?_
    refine .step (.expect hsemicolon) (.pure ?_)
    rw [Stmt.blank, he]

theorem forInitializer_takes {s : Option Stmt} (h : Syntax.ForStart ts s rest)
    (hn : 32 * ts.length + 15 ≤ n) :
    (forInitializer n).Takes ts (·.map Stmt.blank = s) rest := by
  cases h with
  | none hsemicolon => exact .step (.accept (List.mem_singleton.2 hsemicolon)) (.pure rfl)
  | varDecl h =>
    obtain ⟨word, ts', rfl, hword, -⟩ := h.front
    rw [List.length_cons] at hn
    have hkind : word.kind = .varWord := List.mem_singleton.1 hword
    refine .step (.refuse (halts_cons (by rw [hkind]; decide))) (.step (.accept hword) ?_)
    exact (varDecl_takes h (by omega)).map fun s hs => congrArg some hs
  | exprStmt h =>
    refine .step (.refuse (h.front.head_not_mem (by decide))) ?_
    refine .step (.refuse (h.front.head_not_mem (by decide))) ?_
    exact (expressionStatement_takes h hn).map fun s hs => congrArg some hs

theorem superclass_takes {brace : Token} {x : Option Expr}
    (h : Syntax.Superclass ts x (brace :: rest)) (hbrace : brace.kind = .leftBrace) :
    superclass.Takes ts (·.map Expr.blank = x) (brace :: rest) := by
  cases h with
  | none => exact .step (.refuse (halts_cons (by rw [hbrace]; decide))) (.pure rfl)
  | some hless hname =>
    refine .step (.accept (List.mem_singleton.2 hless)) (.step (.expect hname) ?_)
    exact Takes.freshId.bind fun _ _ => .pure rfl

/-! ## Statements -/

/-- No declaration starts with `else`, so only the end of a list of them matters. -/
theorem declarations_halts {ss : List Stmt} (h : Syntax.Declarations true ts ss rest)
    (hrest : Halts [.elseWord] rest) : Halts [.elseWord] ts := by
  cases h with
  | nil => exact hrest
  | cons h => exact h.front.head_not_mem (by decide)

theorem block_end {close : Token} (hclose : close.kind = .rightBrace) :
    (block (n + 1)).Takes (close :: rest) (Stmt.blankAll · = []) rest := by
  refine .step .peek ?_
  simp only [List.head?_cons, Option.map_some, hclose]
  exact .step (.expect hclose) (.pure rfl)

theorem block_more {mid : List Token} {s : Stmt} {ss : List Stmt}
    (hfront : Syntax.Front Syntax.declStarts ts mid)
    (h : (declaration n).Takes ts (fun x => ∃ s', x = some s' ∧ s'.blank = s) mid)
    (hs : (block n).Takes mid (Stmt.blankAll · = ss) rest) :
    (block (n + 1)).Takes ts (Stmt.blankAll · = s :: ss) rest := by
  refine .step .peek ?_
  split
  · next hnone => exact absurd hnone hfront.head?_ne_none
  · next hbrace => exact absurd hbrace (hfront.head?_ne (by decide))
  · refine h.bind fun x hx => hs.bind fun rest hrest => .pure ?_
    obtain ⟨s', rfl, hs'⟩ := hx
    rw [← hs', ← hrest]
    rfl

theorem methodList_end {close : Token} (hclose : close.kind = .rightBrace) :
    (methodList (n + 1)).Takes (close :: rest) (FunctionDecl.blankAll · = []) rest := by
  refine .step .peek ?_
  simp only [List.head?_cons, Option.map_some, hclose]
  exact .step (.expect hclose) (.pure rfl)

theorem methodList_more {mid : List Token} {f : FunctionDecl} {fs : List FunctionDecl}
    (hfront : Syntax.Front [.identifier] ts mid)
    (h : (function n .method).Takes ts (·.blank = f) mid)
    (hs : (methodList n).Takes mid (FunctionDecl.blankAll · = fs) rest) :
    (methodList (n + 1)).Takes ts (FunctionDecl.blankAll · = f :: fs) rest := by
  refine .step .peek ?_
  split
  · next hnone => exact absurd hnone hfront.head?_ne_none
  · next hbrace => exact absurd hbrace (hfront.head?_ne (by decide))
  · refine h.bind fun g hg => hs.bind fun rest hrest => .pure ?_
    rw [← hg, ← hrest]
    rfl

mutual

theorem statement_takes {isOpen : Bool} {ts rest : List Token} {s : Stmt} {n : Nat} :
    Syntax.Statement true isOpen ts s rest → 32 * ts.length + 16 ≤ n →
      (isOpen = true → Halts [.elseWord] rest) → (statement n).Takes ts (·.blank = s) rest
  | .exprStmt h, hn, _ => by
    obtain ⟨m, rfl⟩ : ∃ m, n = m + 1 := ⟨n - 1, by omega⟩
    refine .step (.refuse (h.front.head_not_mem (by decide))) ?_
    exact expressionStatement_takes h (by omega)
  | .forStmt hword hparen hstart hcond hsemicolon hstep hclose hbody htree, hn, helse => by
    have h₁ := hstart.length_lt
    have h₂ := hcond.length_le
    have h₃ := hstep.length_le
    simp only [List.length_cons] at hn h₂ h₃
    obtain ⟨m, rfl⟩ : ∃ m, n = m + 2 := ⟨n - 2, by omega⟩
    refine .step (.accept (by rw [hword]; decide)) ?_
    simp only [hword]
    refine .step (.expect hparen) ?_
    refine (forInitializer_takes hstart (by omega)).bind fun start hstart => ?_
    refine (exprUntil_takes hcond hsemicolon (by decide) (by decide) (by omega)).bind
      fun condition hcondition => .step (.expect hsemicolon) ?_
    refine (exprUntil_takes hstep hclose (by decide) (by decide) (by omega)).bind
      fun step hstep => .step (.expect hclose) ?_
    refine (statement_takes hbody (by omega) helse).bind fun body hbody => .pure ?_
    rw [Stmt.blank_forLoop, hstart, hcondition, hstep, hbody, Syntax.forTree_iff.1 htree]
  | .ifStmt hword hparen hcond hclose hbody, hn, helse => by
    have hlen := hcond.front.length_lt
    simp only [List.length_cons] at hn hlen
    obtain ⟨m, rfl⟩ : ∃ m, n = m + 2 := ⟨n - 2, by omega⟩
    refine .step (.accept (by rw [hword]; decide)) ?_
    simp only [hword]
    refine .step (.expect hparen) ?_
    refine (expression_takes hcond (by omega) (halts_cons (by rw [hclose]; decide))).bind
      fun condition hcondition => .step (.expect hclose) ?_
    refine (statement_takes hbody (by omega) fun _ => helse rfl).bind fun body hbody => ?_
    refine .step (.refuse (helse rfl)) (.pure ?_)
    rw [Stmt.blank, hcondition, hbody]
  | .ifElse hword hparen hcond hclose hbody hclosed hother hbody', hn, helse => by
    have h₁ := hcond.front.length_lt
    have h₂ := hbody.front.length_lt
    simp only [List.length_cons] at hn h₁ h₂
    obtain ⟨m, rfl⟩ : ∃ m, n = m + 2 := ⟨n - 2, by omega⟩
    refine .step (.accept (by rw [hword]; decide)) ?_
    simp only [hword]
    refine .step (.expect hparen) ?_
    refine (expression_takes hcond (by omega) (halts_cons (by rw [hclose]; decide))).bind
      fun condition hcondition => .step (.expect hclose) ?_
    -- The first branch is closed, so it leaves the `else` alone.
    refine (statement_takes hbody (by omega) fun h => absurd h (by rw [hclosed rfl]; nofun)).bind
      fun body hbody => .step (.accept (List.mem_singleton.2 hother)) ?_
    refine (statement_takes hbody' (by omega) helse).bind fun body' hbody' => .pure ?_
    rw [Stmt.blank, hcondition, hbody, hbody']
  | .printStmt hword h hsemicolon, hn, _ => by
    rw [List.length_cons] at hn
    obtain ⟨m, rfl⟩ : ∃ m, n = m + 1 := ⟨n - 1, by omega⟩
    refine .step (.accept (by rw [hword]; decide)) ?_
    simp only [hword]
    refine (expression_takes h (by omega) (halts_cons (by rw [hsemicolon]; decide))).bind
      fun e he => .step (.expect hsemicolon) (.pure ?_)
    rw [Stmt.blank, he]
  | .returnStmt hword h hsemicolon, hn, _ => by
    rw [List.length_cons] at hn
    obtain ⟨m, rfl⟩ : ∃ m, n = m + 1 := ⟨n - 1, by omega⟩
    refine .step (.accept (by rw [hword]; decide)) ?_
    simp only [hword]
    refine (exprUntil_takes h hsemicolon (by decide) (by decide) (by omega)).bind
      fun e he => .step (.expect hsemicolon) (.pure ?_)
    rw [Stmt.blank, he]
  | .whileStmt hword hparen hcond hclose hbody, hn, helse => by
    have hlen := hcond.front.length_lt
    simp only [List.length_cons] at hn hlen
    obtain ⟨m, rfl⟩ : ∃ m, n = m + 2 := ⟨n - 2, by omega⟩
    refine .step (.accept (by rw [hword]; decide)) ?_
    simp only [hword]
    refine .step (.expect hparen) ?_
    refine (expression_takes hcond (by omega) (halts_cons (by rw [hclose]; decide))).bind
      fun condition hcondition => .step (.expect hclose) ?_
    refine (statement_takes hbody (by omega) helse).bind fun body hbody => .pure ?_
    rw [Stmt.blank, hcondition, hbody]
  | .block (.mk hbrace h hclose), hn, _ => by
    rw [List.length_cons] at hn
    obtain ⟨m, rfl⟩ : ∃ m, n = m + 1 := ⟨n - 1, by omega⟩
    refine .step (.accept (by rw [hbrace]; decide)) ?_
    simp only [hbrace]
    refine (block_takes h rfl hclose (by omega)).map fun ss hss => ?_
    rw [Stmt.blank, hss]

theorem block_takes {close : Token} {ts mid rest : List Token} {ss : List Stmt} {n : Nat} :
    Syntax.Declarations true ts ss mid → mid = close :: rest → close.kind = .rightBrace →
      32 * ts.length + 18 ≤ n → (block n).Takes ts (Stmt.blankAll · = ss) rest
  | .nil, hmid, hclose, hn => by
    obtain ⟨m, rfl⟩ : ∃ m, n = m + 1 := ⟨n - 1, by omega⟩
    subst hmid
    exact block_end hclose
  | .cons h hs, hmid, hclose, hn => by
    have hlen := h.front.length_lt
    have hend : Halts [.elseWord] mid := hmid ▸ halts_cons (by rw [hclose]; decide)
    obtain ⟨m, rfl⟩ : ∃ m, n = m + 1 := ⟨n - 1, by omega⟩
    exact block_more h.front (declaration_takes h (by omega) (declarations_halts hs hend))
      (block_takes hs hmid hclose (by omega))

theorem declaration_takes {ts rest : List Token} {s : Stmt} {n : Nat} :
    Syntax.Declaration true ts s rest → 32 * ts.length + 17 ≤ n → Halts [.elseWord] rest →
      (declaration n).Takes ts (fun x => ∃ s', x = some s' ∧ s'.blank = s) rest
  | .classDecl hword hname hsuper hbrace hmethods hclose, hn, _ => by
    have h₁ := hsuper.length_le
    simp only [List.length_cons] at hn h₁
    obtain ⟨m, rfl⟩ : ∃ m, n = m + 2 := ⟨n - 2, by omega⟩
    refine .recover (.step (.accept (by rw [hword]; decide)) ?_)
    simp only [hword]
    refine .step (.expect hname) ?_
    refine (superclass_takes hsuper hbrace).bind fun x hx => .step (.expect hbrace) ?_
    refine (methodList_takes hmethods rfl hclose (by omega)).bind fun fs hfs => .pure ?_
    rw [Stmt.blank, hx, hfs]
  | .funDecl hword h, hn, _ => by
    rw [List.length_cons] at hn
    obtain ⟨m, rfl⟩ : ∃ m, n = m + 1 := ⟨n - 1, by omega⟩
    refine .recover (.step (.accept (by rw [hword]; decide)) ?_)
    simp only [hword]
    refine (function_takes h (by omega)).map fun f hf => ?_
    rw [Stmt.blank, hf]
  | .varDecl h, hn, _ => by
    obtain ⟨word, ts', rfl, hword, -⟩ := h.front
    rw [List.length_cons] at hn
    obtain ⟨m, rfl⟩ : ∃ m, n = m + 1 := ⟨n - 1, by omega⟩
    have hkind : word.kind = .varWord := List.mem_singleton.1 hword
    refine .recover (.step (.accept (by rw [hkind]; decide)) ?_)
    simp only [hkind]
    exact varDecl_takes h (by omega)
  | .statement h, hn, hrest => by
    obtain ⟨m, rfl⟩ : ∃ m, n = m + 1 := ⟨n - 1, by omega⟩
    refine .recover (.step (.refuse (h.front.head_not_mem (by decide))) ?_)
    exact statement_takes h (by omega) fun _ => hrest

theorem function_takes {ts rest : List Token} {f : FunctionDecl} {n : Nat} {role : FunctionRole} :
    Syntax.Function true ts f rest → 32 * ts.length + 1 ≤ n →
      (function n role).Takes ts (·.blank = f) rest
  | .mk hname hparen hparams hclose (.mk hbrace h hclose'), hn => by
    have hlen := hparams.length_le
    simp only [List.length_cons] at hn hlen
    obtain ⟨m, rfl⟩ : ∃ m, n = m + 1 := ⟨n - 1, by omega⟩
    refine .step (.expect hname) (.step (.expect hparen) ?_)
    refine .step (params_takes hparams hclose (by omega)) (.step (.expect hclose) ?_)
    refine .step (.expect hbrace) ?_
    refine (block_takes h rfl hclose' (by omega)).bind fun body hbody => .pure ?_
    rw [FunctionDecl.blank, hbody]

theorem methodList_takes {close : Token} {ts mid rest : List Token} {fs : List FunctionDecl}
    {n : Nat} :
    Syntax.Functions true ts fs mid → mid = close :: rest → close.kind = .rightBrace →
      32 * ts.length + 2 ≤ n → (methodList n).Takes ts (FunctionDecl.blankAll · = fs) rest
  | .nil, hmid, hclose, hn => by
    obtain ⟨m, rfl⟩ : ∃ m, n = m + 1 := ⟨n - 1, by omega⟩
    subst hmid
    exact methodList_end hclose
  | .cons h hs, hmid, hclose, hn => by
    have hlen := h.front.length_lt
    obtain ⟨m, rfl⟩ : ∃ m, n = m + 1 := ⟨n - 1, by omega⟩
    exact methodList_more h.front (function_takes h (by omega))
      (methodList_takes hs hmid hclose (by omega))

end

/-! ## Programs -/

theorem program_takes {ts : List Token} {ss : List Stmt} {n : Nat}
    (h : Syntax.Program true ts ss) (hn : 32 * ts.length + 18 ≤ n) :
    (program n).Takes ts (Stmt.blankAll · = ss) [] := by
  induction ss generalizing ts n with
  | nil =>
    obtain ⟨m, rfl⟩ : ∃ m, n = m + 1 := ⟨n - 1, by omega⟩
    cases h with
    | nil => exact .step .peek (.pure rfl)
  | cons s ss ih =>
    obtain ⟨m, rfl⟩ : ∃ m, n = m + 1 := ⟨n - 1, by omega⟩
    cases h with
    | cons h hs =>
      have hlen := h.front.length_lt
      have helse := declarations_halts hs fun _ ht => absurd ht (Option.not_mem_none _)
      refine .step .peek ?_
      split
      · next hnone => exact absurd hnone h.front.head?_ne_none
      · refine (declaration_takes h (by omega) helse).bind fun x hx => ?_
        refine (ih hs (by omega)).bind fun rest hrest => .pure ?_
        obtain ⟨s', rfl, hs'⟩ := hx
        rw [← hs', ← hrest]
        rfl

end Lox.Grammar
