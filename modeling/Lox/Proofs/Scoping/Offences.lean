import Lox.Proofs.Grammar.Trees
import Lox.Proofs.Scoping.Realization
import Lox.Proofs.Scoping.Rules
import Lox.Proofs.Token.Scanner

/-!
# What the check of scopes complains about

The rules of scoping look at a place and at what stands around it. The check has no trails: it
keeps a stack of scopes, the kind of the innermost function and that of the innermost class, and
hands them down. These say about a place all that the rules ask for: `Around` and `Declares` for
statements, `Reads` for expressions. Branches and loop bodies declare nothing in a program that
comes from the parser, so every declaration stands directly in a scope or on the outermost level.

Main statement: the check of a parsed program reports every offence once, and nothing else
(`check_reports_offences`).
-/

namespace Lox

namespace Scoping

/-! ## Offences of a whole part -/

/-- All that is wrong at the places in a part. -/
def offencesIn (trail : Trail) (part : Part) : List ScopeError :=
  (part.places trail).flatMap fun (trail, part) => offencesAt trail part

/-- All that is wrong in parts that stand in a row, the first of them at index `i`. -/
def offencesInAll (trail : Trail) (owner : Part) (i : Nat) (parts : List Part) :
    List ScopeError :=
  (Part.placesAll trail owner i parts).flatMap fun (trail, part) => offencesAt trail part

theorem offencesIn_eq (trail : Trail) (part : Part) :
    offencesIn trail part = offencesAt trail part ++ offencesInAll trail part 0 part.parts := by
  rw [offencesIn, Part.places_eq, List.flatMap_cons]
  rfl

/-- A part that does nothing wrong itself. -/
theorem offencesIn_of_nil {trail : Trail} {part : Part} (h : offencesAt trail part = []) :
    offencesIn trail part = offencesInAll trail part 0 part.parts := by
  rw [offencesIn_eq, h, List.nil_append]

@[simp] theorem offencesInAll_nil (trail : Trail) (owner : Part) (i : Nat) :
    offencesInAll trail owner i [] = [] := rfl

@[simp] theorem offencesInAll_cons (trail : Trail) (owner : Part) (i : Nat) (part : Part)
    (rest : List Part) :
    offencesInAll trail owner i (part :: rest) =
      offencesIn ((owner, i) :: trail) part ++ offencesInAll trail owner (i + 1) rest := by
  rw [offencesInAll, Part.placesAll_cons, List.flatMap_append]
  rfl

theorem offencesInAll_append (trail : Trail) (owner : Part) (i : Nat) (xs ys : List Part) :
    offencesInAll trail owner i (xs ++ ys) =
      offencesInAll trail owner i xs ++ offencesInAll trail owner (i + xs.length) ys := by
  rw [offencesInAll, Part.placesAll_append, List.flatMap_append]
  rfl

/-! ## What the check knows at a place -/

/-- The kind of a function. -/
def FunctionContext.of : Option (Bool × FunctionDecl) → FunctionContext
  | none => .outside
  | some (false, _) => .function
  | some (true, f) => methodContext f.name

/-- The kind of a class with the superclass. -/
def ClassContext.of : Option (Option Expr) → ClassContext
  | none => .outside
  | some none => .plain
  | some (some _) => .subclass

namespace Context

/-- What the check knows at a statement. -/
structure Around (ctx : Context) (trail : Trail) : Prop where
  function : ctx.function = .of trail.function?
  class_ : ctx.class_ = .of trail.superclass?
  settled : Settled ctx.scopes
  initializes : ∀ name, trail.initializes name = false

/-- What the check knows where a name may be declared. -/
structure Declares (ctx : Context) (trail : Trail) : Prop where
  scopes : ctx.scopes = [] ↔ trail.isLocal = false
  innermost? : ∀ name, (ctx.innermost? name).isSome = trail.redeclares name.lexeme

/-- What the check knows at an expression. -/
structure Reads (ctx : Context) (trail : Trail) : Prop where
  class_ : ctx.class_ = .of trail.superclass?
  innermost? : ∀ name, ctx.innermost? name = some false ↔ trail.initializes name.lexeme = true

variable {ctx : Context} {trail : Trail} {part : Part} {i : Nat} {name : Token}

theorem Reads.inside (h : ctx.Reads trail) (e : Expr) (i : Nat) :
    ctx.Reads ((.expr e, i) :: trail) where
  class_ := h.class_
  innermost? name := by
    rw [h.innermost? name]
    simp [Trail.initializes, Part.var?]

theorem Around.inside (h : ctx.Around trail) (part : Part) (i : Nat)
    (hf : part.function? = none) (hc : part.superclass? = none) (hv : part.var? = none) :
    ctx.Around ((part, i) :: trail) where
  function := by simp [h.function, Trail.function?, hf]
  class_ := by simp [h.class_, Trail.superclass?, hc]
  settled := h.settled
  initializes name := by simp [Trail.initializes, hv, h.initializes]

/-- All parts of one owner have the same around them. -/
theorem Around.shift {j : Nat} (h : ctx.Around ((part, i) :: trail)) :
    ctx.Around ((part, j) :: trail) :=
  ⟨h.function, h.class_, h.settled, h.initializes⟩

theorem Around.reads (h : ctx.Around trail) : ctx.Reads trail where
  class_ := h.class_
  innermost? name := by simp [h.settled.head?, Context.innermost?, h.initializes]

theorem Around.enter (h : ctx.Around trail) : ctx.enter.Around trail :=
  ⟨h.function, h.class_, h.settled.enter, h.initializes⟩

/-! ## Declarations -/

theorem add_scopes_eq_nil (ctx : Context) (name : String) (ready : Bool) :
    (ctx.add name ready).scopes = [] ↔ ctx.scopes = [] := by
  unfold add
  split <;> simp [*]

theorem innermost?_add (ctx : Context) (name : String) (ready : Bool) (other : Token) :
    (ctx.add name ready).innermost? other =
      if ctx.scopes = [] then none
      else if name = other.lexeme then some ready else ctx.innermost? other := by
  cases hs : ctx.scopes with
  | nil => simp [innermost?, add, hs]
  | cons scope outer =>
    by_cases h : name = other.lexeme
    · simp [innermost?, add, hs, h]
    · have hb : (other.lexeme == name) = false := beq_false_of_ne (Ne.symm h)
      simp [innermost?, add, hs, h, List.lookup_cons, hb]

theorem Around.define (h : ctx.Around trail) (name : Token) : (ctx.define name).Around trail where
  function := by rw [Context.define, add_function, h.function]
  class_ := by rw [Context.define, add_class_, h.class_]
  settled := h.settled.add name.lexeme
  initializes := h.initializes

/-- In its own initializer a local variable is not ready. -/
theorem Around.reads_initializer (h : ctx.Around trail) (hd : ctx.Declares trail)
    (name : Token) (value : Option Expr) :
    (ctx.declare name).Reads ((.stmt (.varDecl name value), 0) :: trail) where
  class_ := by
    rw [Context.declare, add_class_]
    exact h.class_
  innermost? other := by
    have hsettled : ctx.innermost? other ≠ some false := h.settled.head? other.lexeme
    rw [Context.declare, innermost?_add]
    -- A global variable is not declared by the check at all, so nothing is unready there.
    by_cases hs : ctx.scopes = []
    · simp [hs, Trail.initializes, hd.scopes.1 hs, h.initializes]
    · have hlocal : trail.isLocal = true := by
        rw [← Bool.not_eq_false]
        exact mt hd.scopes.2 hs
      by_cases hn : name.lexeme = other.lexeme <;>
        simp [hs, hn, hsettled, hlocal, Trail.initializes, Part.var?, h.initializes]

/-- What a part declares is known to the parts after it. -/
theorem Declares.next {owner : Part} (h : ctx.Declares ((owner, i) :: trail))
    (hi : owner.parts[i]? = some part) :
    (ctx.defineAll part.declares?.toList).Declares ((owner, i + 1) :: trail) := by
  have hlocal : ctx.scopes = [] ↔ owner.isScope = false := h.scopes
  cases hd : part.declares? with
  | none =>
    refine ⟨h.scopes, fun name => ?_⟩
    rw [Trail.redeclares_next hi, hd, ← h.innermost? name]
    simp [defineAll]
  | some first =>
    refine ⟨(add_scopes_eq_nil ctx _ _).trans h.scopes, fun name => ?_⟩
    rw [Trail.redeclares_next hi, hd, ← h.innermost? name]
    show ((ctx.add first.lexeme true).innermost? name).isSome = _
    rw [innermost?_add]
    by_cases hs : ctx.scopes = []
    · simp [hs, hlocal.1 hs, Context.innermost?]
    · have hscope : owner.isScope = true := by
        rw [← Bool.not_eq_false]
        exact mt hlocal.2 hs
      -- The name of the part counts as declared, and all others as before.
      by_cases hn : first.lexeme = name.lexeme <;> simp [hs, hscope, hn]

end Context

/-! ## Single findings -/

@[simp] theorem offences_nil : offences [] = [] := rfl

@[simp] theorem offences_singleton (e : ScopeError) : offences [.offence e] = [e] := rfl

theorem offences_selfInheritance (trail : Trail) (name : Token) (id : NodeId) (superclass : Token)
    (methods : List FunctionDecl) :
    offences (selfInheritance name (.var id superclass)) =
      misusesAt trail (.stmt (.classDecl name (some (.var id superclass)) methods)) := by
  rw [selfInheritance, misusesAt]
  split <;> rfl

namespace Context

variable {ctx : Context} {trail : Trail}

theorem Declares.offences_redeclaration (h : ctx.Declares trail) (name : Token) :
    offences (ctx.redeclaration name) = redeclaredAt trail name := by
  rw [redeclaration, redeclaredAt, h.innermost? name]
  split <;> rfl

theorem Reads.offences_earlyRead (h : ctx.Reads trail) (id : NodeId) (name : Token) :
    offences (ctx.earlyRead name) = offencesAt trail (.expr (.var id name)) := by
  rw [earlyRead]
  simp only [h.innermost? name]
  split <;> simp [offencesAt, misusesAt, Part.declares?, *]

theorem Reads.offences_this (h : ctx.Reads trail) (id : NodeId) (keyword : Token) :
    offences (if ctx.class_ = .outside then [.offence ⟨keyword, .thisOutside⟩]
      else ctx.lookup id keyword) = offencesAt trail (.expr (.this id keyword)) := by
  rw [h.class_]
  rcases hc : trail.superclass? with _ | _ | superclass <;>
    simp [ClassContext.of, offencesAt, misusesAt, Part.declares?, hc]

theorem Reads.offences_misplacedSuper (h : ctx.Reads trail) (id : NodeId)
    (keyword method : Token) :
    offences (ctx.misplacedSuper keyword) =
      offencesAt trail (.expr (.super id keyword method)) := by
  rw [misplacedSuper, h.class_]
  rcases hc : trail.superclass? with _ | _ | superclass <;>
    simp [ClassContext.of, offencesAt, misusesAt, Part.declares?, hc]

theorem Around.offences_misplacedReturn (h : ctx.Around trail) (keyword : Token)
    (value : Option Expr) :
    offences (ctx.misplacedReturn keyword value) =
      offencesAt trail (.stmt (.ret keyword value)) := by
  rw [misplacedReturn, h.function, offences_append]
  rcases hf : trail.function? with _ | ⟨_ | _, f⟩
  · simp [FunctionContext.of, offencesAt, misusesAt, Part.declares?, hf]
  · simp [FunctionContext.of, offencesAt, misusesAt, Part.declares?, hf]
  · by_cases hi : f.name.lexeme = "init" <;> cases value <;>
      simp [FunctionContext.of, methodContext, offencesAt, misusesAt, Part.declares?, hf, hi]

end Context

end Scoping

open Scoping

/-! ## Expressions -/

mutual

theorem Expr.offences_findings {ctx : Context} : (e : Expr) → {trail : Trail} →
    ctx.Reads trail → offences (e.findings ctx) = offencesIn trail (.expr e)
  | .constant _, _, _ => by
    rw [offencesIn_eq]
    rfl
  | .var id name, trail, h => by
    rw [offencesIn_eq, ← h.offences_earlyRead id name, Expr.findings, offences_append,
      offences_lookup]
    rfl
  | .this id keyword, trail, h => by
    rw [offencesIn_eq, ← h.offences_this id keyword, Expr.findings]
    simp [Part.parts, Expr.parts, offencesInAll_nil]
  | .super id keyword method, trail, h => by
    rw [offencesIn_eq, ← h.offences_misplacedSuper id keyword method, Expr.findings,
      offences_append, offences_lookup]
    rfl
  | .grouping inner, trail, h | .unary _ inner, trail, h | .get inner _, trail, h => by
    -- From here on nothing is wrong with the node itself, and the parts are visited in order.
    rw [offencesIn_of_nil rfl]
    simp [Expr.findings, Part.parts, Expr.parts, ← Expr.offences_findings inner (h.inside _ _)]
  | .assign _ _ value, trail, h => by
    rw [offencesIn_of_nil rfl]
    simp [Expr.findings, Part.parts, Expr.parts, offences_append,
      ← Expr.offences_findings value (h.inside _ _)]
  | .binary left _ right, trail, h | .logical left _ right, trail, h => by
    rw [offencesIn_of_nil rfl]
    simp [Expr.findings, Part.parts, Expr.parts, offences_append,
      ← Expr.offences_findings left (h.inside _ _), ← Expr.offences_findings right (h.inside _ _)]
  | .set object _ value, trail, h => by
    rw [offencesIn_of_nil rfl]
    simp [Expr.findings, Part.parts, Expr.parts, offences_append,
      ← Expr.offences_findings object (h.inside _ _), ← Expr.offences_findings value (h.inside _ _)]
  | .call callee _ arguments, trail, h => by
    rw [offencesIn_of_nil rfl]
    simp [Expr.findings, Part.parts, Expr.parts, offences_append,
      ← Expr.offences_findings callee (h.inside _ _),
      ← Expr.offences_findingsAll (h.inside _) arguments 1]
termination_by structural e => e

theorem Expr.offences_findingsAll {ctx : Context} {owner : Part} {trail : Trail}
    (h : ∀ i, ctx.Reads ((owner, i) :: trail)) : (es : List Expr) → (i : Nat) →
      offences (Expr.findingsAll ctx es) = offencesInAll trail owner i (es.map .expr)
  | [], i => rfl
  | e :: es, i => by
    rw [Expr.findingsAll, offences_append, List.map_cons, offencesInAll_cons,
      Expr.offences_findings e (h i), Expr.offences_findingsAll h es (i + 1)]
termination_by structural es => es

end

theorem Expr.offences_findings? {ctx : Context} {owner : Part} {trail : Trail}
    (h : ctx.Reads ((owner, 0) :: trail)) (e : Option Expr) :
    offences (Expr.findings? ctx e) = offencesInAll trail owner 0 (e.toList.map .expr) := by
  cases e with
  | none => rfl
  | some e =>
    rw [Option.toList_some, List.map_singleton, offencesInAll_cons, offencesInAll_nil,
      List.append_nil, ← Expr.offences_findings e h]
    rfl

/-! ## Statements -/

/-- A plain statement declares at most one name, and declares it itself. -/
theorem Stmt.Plain.declared_eq {s : Stmt} (h : s.Plain) :
    s.declared = (Part.stmt s).declares?.toList := by
  cases s with
  | branch condition thenBranch elseBranch =>
    cases elseBranch with
    | none => exact h.2
    | some elseBranch =>
      rw [Stmt.declared, h.1.2, h.2.2]
      rfl
  | loop condition body => exact h.2
  | _ => rfl

/-- The first of the parts from an index on, and the rest of them. -/
theorem Part.drop_eq_cons {parts rest : List Part} {part : Part} {i : Nat}
    (h : parts.drop i = part :: rest) : parts[i]? = some part ∧ parts.drop (i + 1) = rest := by
  constructor
  · rw [← List.head?_drop, h]
    rfl
  · rw [← List.tail_drop, h]
    rfl

namespace Scoping.Context

variable {ctx : Context} {trail : Trail} {owner : Part}

/-- A new scope has no names. -/
theorem Declares.start (hs : ctx.scopes.head? = some []) (ho : owner.isScope = true) :
    ctx.Declares ((owner, 0) :: trail) where
  scopes := by
    have hne : ctx.scopes ≠ [] := by
      intro hnil
      simp [hnil] at hs
    simp [hne, Trail.isLocal, ho]
  innermost? name := by simp [Context.innermost?, hs, Trail.redeclares]

theorem Around.defineAll (h : ctx.Around trail) (names : List Token) :
    (ctx.defineAll names).Around trail := by
  induction names generalizing ctx with
  | nil => exact h
  | cons name rest ih => exact ih (h.define name)

/-- Inside a function. -/
theorem Around.call (h : ctx.Around trail) (isMethod : Bool) (f : FunctionDecl) {i : Nat} :
    (ctx.call (.of (some (isMethod, f)))).Around ((.function isMethod f, i) :: trail) where
  function := rfl
  class_ := h.class_
  settled := h.settled.enter
  initializes name := by simp [Trail.initializes, Part.var?, h.initializes]

/-- Inside a class. -/
theorem Around.inClass (h : ctx.Around trail) (name : Token) (superclass : Option Expr)
    (methods : List FunctionDecl) (i : Nat) :
    { ctx.define name with class_ := .of (some superclass) }.Around
      ((.stmt (.classDecl name superclass methods), i) :: trail) where
  function := (h.define name).function
  class_ := rfl
  settled := (h.define name).settled
  initializes n := by simp [Trail.initializes, Part.var?, h.initializes]

theorem Around.methods (h : ctx.Around trail) (isSubclass : Bool) :
    (ctx.methods isSubclass).Around trail := by
  cases isSubclass with
  | false => exact ⟨h.function, h.class_, h.settled.enter.add "this", h.initializes⟩
  | true =>
    exact ⟨h.function, h.class_, (h.settled.enter.add "super").enter.add "this", h.initializes⟩

/-- Parameters, and what is known behind them. -/
theorem Declares.params {params : List Token} {rest : List Part} {i : Nat}
    (h : ctx.Declares ((owner, i) :: trail))
    (hdrop : owner.parts.drop i = params.map .param ++ rest) :
    offences (ctx.params params) = offencesInAll trail owner i (params.map .param) ∧
      (ctx.defineAll params).Declares ((owner, i + params.length) :: trail) := by
  induction params generalizing ctx i with
  | nil => exact ⟨rfl, h⟩
  | cons p params ih =>
    obtain ⟨hp, hrest⟩ := Part.drop_eq_cons hdrop
    -- Each parameter is known to those after it.
    obtain ⟨hfound, hbehind⟩ := ih (h.next hp) hrest
    constructor
    · rw [Context.params, offences_append, h.offences_redeclaration, List.map_cons,
        offencesInAll_cons, offencesIn_eq, ← hfound]
      simp [offencesAt, misusesAt, Part.declares?, Part.parts, Context.defineAll]
    · rw [List.length_cons, Nat.add_comm params.length, ← Nat.add_assoc]
      exact hbehind

end Scoping.Context

mutual

theorem Stmt.offences_findings : (s : Stmt) → {ctx : Context} → {trail : Trail} → s.Plain →
    ctx.Around trail → (s.declared ≠ [] → ctx.Declares trail) →
      offences (s.findings ctx) = offencesIn trail (.stmt s)
  | .expression expr, ctx, trail, _, h, _ | .print expr, ctx, trail, _, h, _ => by
    rw [offencesIn_of_nil rfl, Part.parts, Stmt.parts, offencesInAll_cons, offencesInAll_nil,
      List.append_nil]
    exact Expr.offences_findings expr (h.inside _ 0 rfl rfl rfl).reads
  | .varDecl name value, ctx, trail, _, h, hd => by
    have hdecl : ctx.Declares trail := hd (List.cons_ne_nil _ _)
    rw [offencesIn_eq, Stmt.findings, offences_append, hdecl.offences_redeclaration,
      Expr.offences_findings? (h.reads_initializer hdecl name value)]
    simp [offencesAt, misusesAt, Part.declares?, Part.parts, Stmt.parts]
  | .block statements, ctx, trail, hp, h, _ => by
    rw [offencesIn_of_nil rfl]
    exact Stmt.offences_findingsAll statements hp rfl (h.enter.inside _ 0 rfl rfl rfl)
      (.start rfl rfl)
  | .branch condition thenBranch none, ctx, trail, hp, h, _ => by
    obtain ⟨hp, hnone⟩ := hp
    have hin (i : Nat) := h.inside (.stmt (.branch condition thenBranch none)) i rfl rfl rfl
    rw [offencesIn_of_nil rfl, Stmt.findings, offences_append,
      Expr.offences_findings condition (hin 0).reads,
      Stmt.offences_findings thenBranch hp (hin 1) fun hne => absurd hnone hne]
    simp [Part.parts, Stmt.parts]
  | .branch condition thenBranch (some elseBranch), ctx, trail, hp, h, _ => by
    obtain ⟨⟨hp₁, hnone₁⟩, hp₂, hnone₂⟩ := hp
    have hin (i : Nat) :=
      h.inside (.stmt (.branch condition thenBranch (some elseBranch))) i rfl rfl rfl
    rw [offencesIn_of_nil rfl, Stmt.findings, offences_append, offences_append, hnone₁,
      Expr.offences_findings condition (hin 0).reads,
      Stmt.offences_findings thenBranch hp₁ (hin 1) fun hne => absurd hnone₁ hne]
    -- The first branch declares nothing, so the second one is checked in the same context.
    rw [Context.defineAll, List.foldl_nil,
      Stmt.offences_findings elseBranch hp₂ (hin 2) fun hne => absurd hnone₂ hne]
    simp [Part.parts, Stmt.parts]
  | .loop condition body, ctx, trail, hp, h, _ => by
    obtain ⟨hp, hnone⟩ := hp
    have hin (i : Nat) := h.inside (.stmt (.loop condition body)) i rfl rfl rfl
    rw [offencesIn_of_nil rfl, Stmt.findings, offences_append,
      Expr.offences_findings condition (hin 0).reads,
      Stmt.offences_findings body hp (hin 1) fun hne => absurd hnone hne]
    simp [Part.parts, Stmt.parts]
  | .funDecl function, ctx, trail, hp, h, hd => by
    have hdecl : ctx.Declares trail := hd (List.cons_ne_nil _ _)
    rw [offencesIn_eq, Stmt.findings, offences_append, hdecl.offences_redeclaration]
    have hinner := FunctionDecl.offences_findings function false hp
      ((h.define function.name).inside (.stmt (.funDecl function)) 0 rfl rfl rfl)
    simp only [offencesAt, misusesAt, Part.declares?, Part.parts, Stmt.parts, offencesInAll_cons,
      offencesInAll_nil, ← hinner]
    simp [FunctionContext.of]
  | .ret keyword value, ctx, trail, _, h, _ => by
    rw [offencesIn_eq, Stmt.findings, offences_append, h.offences_misplacedReturn keyword value,
      Expr.offences_findings? (h.inside (.stmt (.ret keyword value)) 0 rfl rfl rfl).reads value]
    rfl
  | .classDecl name none methods, ctx, trail, hp, h, hd => by
    have hdecl : ctx.Declares trail := hd (List.cons_ne_nil _ _)
    have hmethods : offences
        (FunctionDecl.findingsAll ({ ctx.define name with class_ := .plain }.methods false) methods)
          = _ :=
      FunctionDecl.offences_findingsAll (fun i => (h.inClass name none methods i).methods false)
        methods 0 hp
    rw [offencesIn_eq, Stmt.findings, offences_append, hdecl.offences_redeclaration, hmethods]
    simp [offencesAt, misusesAt, Part.declares?, Part.parts, Stmt.parts]
  | .classDecl name (some superclass) methods, ctx, trail, hp, h, hd => by
    obtain ⟨⟨id, parent, rfl⟩, hp⟩ := hp
    have hdecl : ctx.Declares trail := hd (List.cons_ne_nil _ _)
    have hin := h.inClass name (some (.var id parent)) methods
    have hparent : offences (Expr.findings { ctx.define name with class_ := .subclass }
        (.var id parent)) = _ := Expr.offences_findings _ (hin 0).reads
    have hmethods : offences (FunctionDecl.findingsAll
        ({ ctx.define name with class_ := .subclass }.methods true) methods) = _ :=
      FunctionDecl.offences_findingsAll (fun i => (hin i).methods true) methods 1 hp
    rw [offencesIn_eq, Stmt.findings, offences_append, offences_append, offences_append,
      hdecl.offences_redeclaration, offences_selfInheritance trail name id parent methods,
      hparent, hmethods]
    simp [offencesAt, Part.declares?, Part.parts, Stmt.parts]
termination_by structural s => s

theorem Stmt.offences_findingsAll {owner : Part} {trail : Trail} : (ss : List Stmt) →
    {ctx : Context} → {i : Nat} → Stmt.PlainAll ss → owner.parts.drop i = ss.map .stmt →
      ctx.Around ((owner, i) :: trail) → ctx.Declares ((owner, i) :: trail) →
        offences (Stmt.findingsAll ctx ss) = offencesInAll trail owner i (ss.map .stmt)
  | [], _, _, _, _, _, _ => rfl
  | s :: rest, ctx, i, hp, hdrop, h, hd => by
    obtain ⟨hs, hrest⟩ := Part.drop_eq_cons hdrop
    have hnext := hd.next hs
    rw [← hp.1.declared_eq] at hnext
    rw [Stmt.findingsAll, offences_append, List.map_cons, offencesInAll_cons,
      Stmt.offences_findings s hp.1 h fun _ => hd,
      Stmt.offences_findingsAll rest hp.2 hrest (h.defineAll s.declared).shift hnext]
termination_by structural ss => ss

theorem FunctionDecl.offences_findings : (f : FunctionDecl) → {ctx : Context} → {trail : Trail} →
    (isMethod : Bool) → f.Plain → ctx.Around trail →
      offences (f.findings ctx (.of (some (isMethod, f)))) =
        offencesIn trail (.function isMethod f)
  | ⟨name, params, body⟩, ctx, trail, isMethod, hp, h => by
    have hstart : (ctx.call (.of (some (isMethod, ⟨name, params, body⟩)))).Declares
        ((.function isMethod ⟨name, params, body⟩, 0) :: trail) := .start rfl rfl
    obtain ⟨hparams, hdecl⟩ := hstart.params rfl
    -- The body goes on in the scope of the parameters.
    have hbody := Stmt.offences_findingsAll body hp (by simp [Part.parts])
      ((h.call isMethod ⟨name, params, body⟩).defineAll params) hdecl
    rw [offencesIn_eq, Part.parts, offencesInAll_append, List.length_map, ← hbody, ← hparams,
      FunctionDecl.findings, offences_append]
    rfl
termination_by structural f => f

theorem FunctionDecl.offences_findingsAll {owner : Part} {trail : Trail} {ctx : Context}
    (h : ∀ i, ctx.Around ((owner, i) :: trail)) : (fs : List FunctionDecl) → (i : Nat) →
      FunctionDecl.PlainAll fs →
      offences (FunctionDecl.findingsAll ctx fs) =
        offencesInAll trail owner i (fs.map (.function true))
  | [], _, _ => rfl
  | f :: rest, i, hp => by
    have hf := FunctionDecl.offences_findings f true hp.1 (h i)
    rw [FunctionDecl.findingsAll, offences_append, List.map_cons, offencesInAll_cons, ← hf,
      FunctionDecl.offences_findingsAll h rest (i + 1) hp.2]
    rfl
termination_by structural fs => fs

end

namespace Scoping

/-! ## Programs -/

theorem map_snd_offencePlaces (statements : List Stmt) :
    (offencePlaces statements).map Prod.snd = offencesIn [] (.program statements) := by
  simp [offencePlaces, offencesIn, List.map_flatMap, Function.comp_def]

/-- What the check of a plain program reports. -/
theorem offences_check {statements : List Stmt} (hp : Stmt.PlainAll statements) :
    offences (check statements) = (offencePlaces statements).map Prod.snd := by
  have htop : Context.top.Around [(.program statements, 0)] :=
    ⟨rfl, rfl, List.forall_mem_nil _, fun _ => rfl⟩
  have hdecl : Context.top.Declares [(.program statements, 0)] :=
    ⟨iff_of_true rfl rfl, fun _ => rfl⟩
  rw [map_snd_offencePlaces, offencesIn_eq]
  exact Stmt.offences_findingsAll statements hp rfl htop hdecl

/-- The check of a parsed program reports nothing exactly if the program breaks no rule.
Otherwise it reports each offence once, at the token that commits it, and nothing else. -/
theorem check_reports_offences (firstId : NodeId) (tokens : List Token) :
    (offences (check (parse firstId tokens).statements) = [] ↔
      ¬∃ trail error, Offence (parse firstId tokens).statements trail error) ∧
    ∃ found : List (Trail × ScopeError),
      found.Nodup ∧
      (∀ trail error,
        (trail, error) ∈ found ↔ Offence (parse firstId tokens).statements trail error) ∧
      offences (check (parse firstId tokens).statements) = found.map Prod.snd := by
  obtain ⟨d, -, -, hread⟩ := parse_read firstId tokens
  have hcheck := offences_check hread.plain
  refine ⟨?_, _, nodup_offencePlaces _, fun _ _ => mem_offencePlaces, hcheck⟩
  rw [hcheck, List.map_eq_nil_iff, List.eq_nil_iff_forall_not_mem]
  simp only [Prod.forall, mem_offencePlaces, not_exists]

example :
    let program := (parse 0 (Lexer.tokens (scan "fun f(a) \x7b var a = a; \x7d"))).statements
    (offences (check program)).map ScopeError.fault = [.redeclared, .readInInitializer] := by
  decide +kernel

end Scoping

end Lox
