import Lox.Proofs.Machine.Run
import Lox.Proofs.Machine.Scopes

/-!
# Steps keep a configuration in order

One lemma for each operation of the machine, and from them the step (`Config.Fits.step`): a
configuration that is in order is still so after a step. The record has to be free of offences;
this is what rules out that a scope gets a name twice and that a class inherits from itself.
-/

namespace Lox

open Scoping

/-- A record of visits at which nothing is wrong. A read goes on record for every context that
says the same about its name. -/
structure Scoping.Record (V : Visit → Prop) : Prop where
  clean : ∀ {v}, V v → v.Clean
  read : ∀ {ctx ctx' : Context} {id name}, ctx.view name.lexeme = ctx'.view name.lexeme →
    V (.look .read ctx id name) → V (.look .read ctx' id name)

/-- The class is declared already when the check comes to its superclass, and not yet when a
program does. The superclass has another name, so this makes no difference. -/
theorem Stmt.Fits.superclass_in {V : Visit → Prop} (hV : Record V) {ctx ctx' : Context}
    {name : Token} {superclass : Expr} {methods : List FunctionDecl}
    (h : (Stmt.classDecl name (some superclass) methods).Fits V ctx)
    (hview : ∀ x, name.lexeme ≠ x → ctx'.view x = ctx.view x) : superclass.Fits V ctx' := by
  obtain ⟨hi, id, parent, rfl, hread⟩ := h.superclass
  have hne : name.lexeme ≠ parent.lexeme := (hV.clean hi).inherit.symm
  have hdefine : Context.view { ctx.define name with class_ := .subclass } parent.lexeme =
      ctx.view parent.lexeme := ctx.view_add_of_ne hne true
  exact Expr.fits_var.2 (hV.read (hdefine.trans (hview _ hne).symm) hread)

namespace Machine

variable {V : Visit → Prop} {task : Task} {ctx : Context} {c : Config}

/-! ## Names -/

theorem read_of_lookUp {distances : Distances} {h : Heap} {env : Env} {id : NodeId}
    {name : String} {v : Value} (hv : lookUp distances h env id name = some v) :
    ∃ s, h.read s name = some v := by
  unfold lookUp at hv
  split at hv
  · obtain ⟨s, _, hr⟩ := Option.bind_eq_some_iff.1 hv
    exact ⟨s, hr⟩
  · obtain ⟨s, _, hr⟩ := List.exists_of_findSome?_eq_some hv
    exact ⟨s, hr⟩

theorem binds_of_targetOf {distances : Distances} {h : Heap} {env : Env} {id : NodeId}
    {name : String} {s : ScopeId} (hs : targetOf distances h env id name = some s) :
    h.binds s name := by
  unfold targetOf at hs
  split at hs
  · exact (Option.filter_eq_some_iff.1 hs).2
  · exact List.find?_some (p := (h.binds · name)) hs

namespace Config.At

theorem read (h : c.At V .expr ctx) (distances : Distances) (id : NodeId) (name : Token) :
    (c.read distances id name).Fits V := by
  unfold Config.read
  split
  · next v hv =>
    obtain ⟨s, hr⟩ := read_of_lookUp hv
    exact h.give (h.heap.scopes hr)
  · exact h.raise _ _

theorem assign (h : c.At V .expr ctx) (distances : Distances) (id : NodeId) (name : Token)
    {v : Value} (hv : v.Fits V c.heap) : (c.assign distances id name v).Fits V := by
  unfold Config.assign
  split
  · next s hs =>
    have hb := binds_of_targetOf hs
    have hg : ∀ top, c.heap.Grows top (c.heap.write s name.lexeme v) := fun _ =>
      .write_bound hb v
    have hw := hv.grows (hg 0)
    exact (h.withHeap (h.heap.write hw) hg).give hw
  · exact h.raise _ _

theorem giveMethod (h : c.At V .expr ctx) {method : Closure} (hm : method.FitsMethod V c.heap)
    {o : Object} (ho : o.class_.Fits V c.heap) : (c.giveMethod method o).Fits V := by
  obtain ⟨hc, hf⟩ := h.heap.bind hm ho
  have hg : ∀ top, c.heap.Grows top (c.heap.bind method o).2.freshId.2 := fun top =>
    Heap.Grows.trans (.newScope _) (.of_scopes_eq rfl)
  have hfresh : Heap.Grows 0 (c.heap.bind method o).2 (c.heap.bind method o).2.freshId.2 :=
    .of_scopes_eq rfl
  exact (h.withHeap hf.freshId hg).give (Closure.Fits.grows hc hfresh)

theorem property (h : c.At V .expr ctx) (name : Token) {v : Value} (hv : v.Fits V c.heap) :
    (c.property name v).Fits V := by
  cases v with
  | object o =>
    rw [Config.property]
    split
    · next w hw => exact h.give (h.heap.fields hw)
    · split
      · next found hm => exact h.giveMethod (Class.Fits.method hv hm) hv
      · exact h.raise _ _
  | _ => exact h.raise _ _

theorem superMethod (h : c.At V .expr ctx) (distances : Distances) (id : NodeId)
    (keyword method : Token) : (c.superMethod distances id keyword method).Fits V := by
  unfold Config.superMethod
  split
  · exact h.raise _ _
  · split
    · next parent hp =>
      obtain ⟨s, _, hparent⟩ := Option.bind_eq_some_iff.1 hp
      have hparent : parent.Fits V c.heap := h.heap.scopes hparent
      split
      · next o ho =>
        have ho : o.class_.Fits V c.heap := by
          -- The scope of `this` is one step before that of `super`, if there is such a step.
          split at ho
          · cases ho
          · obtain ⟨s, _, hthis⟩ := Option.bind_eq_some_iff.1 ho
            exact h.heap.scopes hthis
        split
        · next found hm => exact h.giveMethod (hparent.method hm) ho
        · exact h.raise _ _
      · exact h.raise _ _
    · exact h.raise _ _

/-! ## Calls -/

/-- Entering a scope for statements that fit the context of the scope. -/
theorem within (h : c.At V task ctx) {inner : Context} {outer : Env} {b : Bindings Value}
    {ss : List Stmt} {leave : Frame}
    (hr : (c.heap.nest outer b).2.Realizes inner.scopes (c.heap.nest outer b).1)
    (hf : (c.heap.nest outer b).2.Fits V) (hs : Settled inner.scopes)
    (hfit : Stmt.FitAll V inner ss)
    (hleave : ∀ h' inner', c.env.top < c.heap.scopes.size → h'.Realizes ctx.scopes c.env →
      leave.Fits V h' .stmt inner' (c.heap.nest outer b).1 task ctx c.env) :
    (c.within outer b ss leave).Fits V := by
  have hg : ∀ top, c.heap.Grows top (c.heap.nest outer b).2 := fun _ => .newScope b
  have hlt := h.place.models.top_lt_size h.heap.nonempty
  exact ⟨inner, ⟨hf, hr, .cons (.sequence hfit)
    (.cons (hleave _ _ hlt (h.place.grows_any hg)) (h.stack.grows (hg _) (Nat.le_refl _)))⟩, hs⟩

theorem enter (h : c.At V .expr ctx) {code : Closure} (hc : code.Fits V c.heap)
    {arguments : List Value} (ha : ∀ v ∈ arguments, v.Fits V c.heap)
    (hlen : arguments.length = code.arity) : (c.enter code arguments).Fits V := by
  obtain ⟨inner, hs, hfit, hr, hf⟩ := hc.enter h.heap ha hlen
  exact h.within hr hf hs hfit fun _ _ hlt hr' => .call hlt hr'

theorem finish (h : c.At V .expr ctx) (code : Closure) {v : Value} (hv : v.Fits V c.heap) :
    (c.finish code v).Fits V := by
  unfold Config.finish
  split
  · split
    · next this hthis =>
      obtain ⟨s, _, hr⟩ := Option.bind_eq_some_iff.1 hthis
      exact h.give (h.heap.scopes hr)
    · exact h.raise _ _
  · exact h.give hv

theorem instantiate (h : c.At V .expr ctx) {k : Class} (hk : k.Fits V c.heap)
    {arguments : List Value} (ha : ∀ v ∈ arguments, v.Fits V c.heap)
    (hlen : arguments.length = k.arity) : (c.instantiate k arguments).Fits V := by
  have hnew : ∀ top, c.heap.Grows top (c.heap.newObject k).2 := fun _ => .of_scopes_eq rfl
  have hknew : k.Fits V (c.heap.newObject k).2 := hk.grows (hnew 0)
  have hat := h.withHeap (h.heap.newObject k) hnew
  cases hinit : k.method? "init" with
  | none =>
    simp only [Config.instantiate, hinit]
    exact hat.give (v := .object (c.heap.newObject k).1) hknew
  | some init =>
    -- The object is made first and `init` is bound to it next; the heap grows both times.
    obtain ⟨hcode, hf⟩ := hat.heap.bind (o := (c.heap.newObject k).1) (hknew.method hinit) hknew
    have hbind : ∀ top, (c.heap.newObject k).2.Grows top
        ((c.heap.newObject k).2.bind init (c.heap.newObject k).1).2 := fun _ => .newScope _
    have hall := fun top => (hnew top).trans (hbind top)
    obtain ⟨hheap, hplace, hstack⟩ := h.withHeap hf hall
    have hat' : Config.At V ⟨c.control, c.env, .construct (c.heap.newObject k).1 :: c.stack,
        ⟨((c.heap.newObject k).2.bind init (c.heap.newObject k).1).2, c.world.sink,
          c.world.clock⟩⟩ .expr ctx :=
      ⟨hheap, hplace, .cons (.construct (hk.grows (hall 0))) hstack⟩
    simp only [Config.instantiate, hinit]
    refine hat'.enter hcode (fun v hv => (ha v hv).grows (hall 0)) ?_
    rw [hlen, Class.arity, hinit]
    rfl

theorem call (h : c.At V .expr ctx) {callee : Value} (hc : callee.Fits V c.heap) (paren : Token)
    {arguments : List Value} (ha : ∀ v ∈ arguments, v.Fits V c.heap) :
    (c.call callee paren arguments).Fits V := by
  unfold Config.call
  split
  · exact h.raise _ _
  · next arity harity =>
    split
    · next hlen =>
      subst hlen
      cases callee with
      | builtin f => cases f; exact ⟨ctx, ⟨h.heap, h.place, h.stack⟩, trivial⟩
      | function id code => exact h.enter hc ha (Option.some.inj harity).symm
      | class_ k => exact h.instantiate hc ha (Option.some.inj harity).symm
      | _ => cases harity
    · exact h.raise _ _

theorem callWith (h : c.At V .expr ctx) {callee : Value} (hc : callee.Fits V c.heap)
    (paren : Token) {before : List Value} (hb : ∀ v ∈ before, v.Fits V c.heap)
    {after : List Expr} (ha : ∀ e ∈ after, e.Fits V ctx) :
    (c.callWith callee paren before after).Fits V := by
  cases after with
  | nil => exact h.call hc paren hb
  | cons e after =>
    obtain ⟨he, ha⟩ := List.forall_mem_cons.1 ha
    exact h.evalThen he (.argument hc hb ha)

/-! ## Statements -/

end Config.At

namespace Config.Before

theorem here (h : c.Before V ctx []) : c.At V .stmt ctx := ⟨h.heap, h.place, h.stack⟩

theorem runBlock (h : c.Before V ctx []) {ss : List Stmt} (hf : Stmt.FitAll V ctx.enter ss) :
    (c.runBlock ss).Fits V := by
  have hr := h.place.models.enter h.heap.nonempty h.settled [] (b := []) (by simp)
  exact h.here.within hr (h.heap.newScope nofun) h.settled.enter hf fun _ _ hlt hr' =>
    .scope hlt hr' h.settled

end Config.Before

namespace Config

variable {name : Token} {ready : Bool}

theorem fits_declareVar (hf : c.heap.Fits V)
    (hr : c.heap.Realizes (ctx.add name.lexeme ready).scopes c.env) (hs : Settled ctx.scopes)
    (hst : StackFits V c.heap .stmt (ctx.define name) c.env c.stack) {v : Value}
    (hv : v.Fits V c.heap) : (c.declareVar name v).Fits V := by
  obtain ⟨hf', hg⟩ := hf.define hr hv
  exact ⟨ctx.define name, ⟨hf', hr.define v, hst.grows hg (Nat.le_refl _)⟩, hs.add name.lexeme⟩

theorem fits_declareClass (hf : c.heap.Fits V)
    (hr : c.heap.Realizes (ctx.add name.lexeme ready).scopes c.env) (hs : Settled ctx.scopes)
    (hst : StackFits V c.heap .stmt (ctx.define name) c.env c.stack) {parent : Option Class}
    (hp : ∀ k ∈ parent, k.Fits V c.heap) {methods : List FunctionDecl}
    (hfit : ∀ f ∈ methods, f.Fits V
      ((ctx.methodsOuter name parent.isSome).enter.add "this" true) (methodContext f.name)) :
    (c.declareClass name parent methods).Fits V := by
  obtain ⟨hf', hr', hg⟩ := hf.declareClass hr hs hp hfit
  exact ⟨ctx.define name, ⟨hf', hr', hst.grows hg (Nat.le_refl _)⟩, hs.add name.lexeme⟩

/-- Starting a statement. -/
theorem fits_startStmt (hV : Record V) {s : Stmt} (h : c.Before V ctx s.declared)
    (hfit : s.Fits V ctx) : (c.startStmt s).Fits V := by
  cases s with
  | expression e => exact h.here.evalThen hfit.expression (.discard h.settled)
  | print e => exact h.here.evalThen hfit.print (.print h.settled)
  | varDecl name value =>
    -- While the initializer runs, the name is declared, and the scope does not have it yet.
    have hr := h.place.declare (hV.clean hfit.declared).declare
    cases value with
    | none => exact fits_declareVar h.heap hr h.settled h.stack trivial
    | some e =>
      exact ⟨ctx.declare name, ⟨h.heap, hr, .cons (.define h.settled) h.stack⟩,
        hfit.initializer⟩
  | block ss => exact Before.runBlock h hfit.block
  | branch condition thenBranch elseBranch =>
    obtain ⟨hc, ht, he⟩ := hfit.branch
    rw [hfit.declared_branch] at h
    exact h.here.evalThen hc (.branch h.settled ht he)
  | loop condition body =>
    obtain ⟨hc, hb⟩ := hfit.loop
    -- Neither a loop nor a branch declares a name, so what comes after it has the same context.
    have hd : (Stmt.loop condition body).declared = [] := hb.declared
    rw [hd] at h
    exact h.here.evalThen hc (.loopTest h.settled hc hb)
  | funDecl f =>
    obtain ⟨hn, hf⟩ := hfit.funDecl
    obtain ⟨hheap, hr, hg⟩ := h.heap.declareFunction h.place h.settled (hV.clean hn).declare hf
    exact ⟨ctx.define f.name, ⟨hheap, hr, h.stack.grows hg (Nat.le_refl _)⟩,
      h.settled.add f.name.lexeme⟩
  | ret keyword value =>
    cases value with
    | none => exact ⟨h.heap, trivial, ctx, h.stack⟩
    | some e => exact h.here.evalThen hfit.ret .ret
  | classDecl name superclass methods =>
    obtain ⟨hn, hm⟩ := hfit.classDecl
    have hr := h.place.declare (hV.clean hn).declare
    cases superclass with
    | none => exact fits_declareClass h.heap hr h.settled h.stack (by simp) hm
    | some superclass =>
      -- The clause is evaluated before the class has its name.
      exact ⟨ctx.declare name, ⟨h.heap, hr, .cons (.superclass h.settled hm) h.stack⟩,
        hfit.superclass_in hV fun x hx => ctx.view_add_of_ne hx false⟩

/-! ## Expressions -/

/-- What an operator gives is a constant. -/
theorem constant_of_applyUnary {op : Kind} {right v : Value} (hv : applyUnary op right = .ok v) :
    ∃ k, v = .ofConstant k := by
  unfold applyUnary at hv
  split at hv
  · split at hv
    · cases hv
      exact ⟨.number _, rfl⟩
    · cases hv
  · cases hv
    exact ⟨.bool _, rfl⟩
  · cases hv

theorem constant_of_applyNumeric {op : Kind} {a b : Float} {v : Value}
    (hv : applyNumeric op a b = .ok v) : ∃ k, v = .ofConstant k := by
  unfold applyNumeric at hv
  split at hv <;> cases hv
  · exact ⟨.number (a - b), rfl⟩
  · exact ⟨.number (a * b), rfl⟩
  · exact ⟨.number (a / b), rfl⟩
  · exact ⟨.bool (a > b), rfl⟩
  · exact ⟨.bool (a ≥ b), rfl⟩
  · exact ⟨.bool (a < b), rfl⟩
  · exact ⟨.bool (a ≤ b), rfl⟩

theorem constant_of_applyBinary {op : Kind} {left right v : Value}
    (hv : applyBinary op left right = .ok v) : ∃ k, v = .ofConstant k := by
  unfold applyBinary at hv
  split at hv
  · cases hv
    exact ⟨.bool _, rfl⟩
  · cases hv
    exact ⟨.bool _, rfl⟩
  · unfold add at hv
    split at hv
    · cases hv
      exact ⟨.number _, rfl⟩
    · cases hv
      exact ⟨.text _, rfl⟩
    · cases hv
  · split at hv
    · exact constant_of_applyNumeric hv
    · cases hv

theorem fits_applyUnary {h : Heap} (op : Kind) (right : Value) :
    ∀ v, applyUnary op right = .ok v → v.Fits V h := by
  intro v hv
  obtain ⟨k, rfl⟩ := constant_of_applyUnary hv
  exact Value.fits_ofConstant k

theorem fits_applyBinary {h : Heap} (op : Kind) (left right : Value) :
    ∀ v, applyBinary op left right = .ok v → v.Fits V h := by
  intro v hv
  obtain ⟨k, rfl⟩ := constant_of_applyBinary hv
  exact Value.fits_ofConstant k

/-- Starting an expression. -/
theorem At.startExpr (h : c.At V .expr ctx) (distances : Distances) {e : Expr}
    (he : e.Fits V ctx) : (c.startExpr distances e).Fits V := by
  cases e with
  | constant k => exact h.give (Value.fits_ofConstant k)
  | grouping inner => exact h.eval he
  | unary op right => exact h.evalThen (e := right) he .unary
  | binary left op right =>
    obtain ⟨hl, hr⟩ := Expr.fits_binary.1 he
    exact h.evalThen hl (.binaryLeft hr)
  | logical left op right =>
    obtain ⟨hl, hr⟩ := Expr.fits_logical.1 he
    exact h.evalThen hl (.logical hr)
  | var id name => exact h.read distances id name
  | assign id name value =>
    obtain ⟨hv, hw⟩ := Expr.fits_assign.1 he
    exact h.evalThen hv (.assign hw)
  | call callee paren arguments =>
    obtain ⟨hc, ha⟩ := Expr.fits_call.1 he
    exact h.evalThen hc (.callee ha)
  | get object name => exact h.evalThen (e := object) he .get
  | set object name value =>
    obtain ⟨hv, ho⟩ := Expr.fits_set.1 he
    exact h.evalThen ho (.setObject hv)
  | this id keyword => exact h.read distances id keyword
  | super id keyword method => exact h.superMethod distances id keyword method

/-! ## Signals -/

variable {distances : Distances} {frame : Frame} {stack : List Frame} {env : Env} {world : World}

theorem fits_resume_value {control : Control} {v : Value}
    (h : Config.At V ⟨control, env, frame :: stack, world⟩ .expr ctx) (hv : v.Fits V world.heap) :
    (Config.resume distances ⟨control, env, stack, world⟩ (.value v) frame).Fits V := by
  obtain ⟨hheap, hplace, hstack⟩ := h
  obtain _ | ⟨hf, hst⟩ := hstack
  cases hf with
  | unary =>
    have h : Config.At V ⟨control, env, stack, world⟩ .expr ctx := ⟨hheap, hplace, hst⟩
    exact h.giveOr _ (fits_applyUnary _ v)
  | binaryLeft hr =>
    have h : Config.At V ⟨control, env, stack, world⟩ .expr ctx := ⟨hheap, hplace, hst⟩
    exact h.evalThen hr (.binaryRight hv)
  | binaryRight hl =>
    have h : Config.At V ⟨control, env, stack, world⟩ .expr ctx := ⟨hheap, hplace, hst⟩
    exact h.giveOr _ (fits_applyBinary _ _ v)
  | logical hr =>
    have h : Config.At V ⟨control, env, stack, world⟩ .expr ctx := ⟨hheap, hplace, hst⟩
    simp only [Config.resume, Config.onValue]
    split
    · exact h.give hv
    · exact h.eval hr
  | assign hw =>
    have h : Config.At V ⟨control, env, stack, world⟩ .expr ctx := ⟨hheap, hplace, hst⟩
    exact h.assign distances _ _ hv
  | callee ha =>
    have h : Config.At V ⟨control, env, stack, world⟩ .expr ctx := ⟨hheap, hplace, hst⟩
    exact h.callWith hv _ (by simp) ha
  | argument hc hb ha =>
    have h : Config.At V ⟨control, env, stack, world⟩ .expr ctx := ⟨hheap, hplace, hst⟩
    refine h.callWith hc _ ?_ ha
    intro w hw
    rcases List.mem_append.1 hw with hw | hw
    · exact hb w hw
    · exact List.mem_singleton.1 hw ▸ hv
  | get =>
    have h : Config.At V ⟨control, env, stack, world⟩ .expr ctx := ⟨hheap, hplace, hst⟩
    exact h.property _ hv
  | setObject hval =>
    have h : Config.At V ⟨control, env, stack, world⟩ .expr ctx := ⟨hheap, hplace, hst⟩
    cases v with
    | object o => exact h.evalThen hval (.setValue hv)
    | _ => exact h.raise _ _
  | @setValue o name _ _ ho =>
    have h : Config.At V ⟨control, env, stack, world⟩ .expr ctx := ⟨hheap, hplace, hst⟩
    have hg : ∀ top, world.heap.Grows top (world.heap.setField o name.lexeme v) := fun _ =>
      .of_scopes_eq rfl
    exact (h.withHeap (hheap.setField hv o name.lexeme) hg).give (hv.grows (hg 0))
  | discard hs => exact ⟨ctx, ⟨hheap, hplace, hst⟩, hs⟩
  | print hs =>
    simp only [Config.resume, Config.onValue, Config.print, Config.write]
    split
    · next heq =>
      obtain ⟨_, rfl⟩ := Prod.mk.inj heq
      exact ⟨ctx, ⟨hheap, hplace, hst⟩, hs⟩
    · next heq =>
      obtain ⟨_, rfl⟩ := Prod.mk.inj heq
      exact ⟨hheap, .stmt, ctx, hst⟩
  | define hs =>
    exact fits_declareVar (c := ⟨control, env, stack, world⟩) hheap hplace hs hst hv
  | @branch thenBranch elseBranch _ _ hs ht he =>
    have h : Config.At V ⟨control, env, stack, world⟩ .stmt ctx := ⟨hheap, hplace, hst⟩
    simp only [Config.resume, Config.onValue]
    split
    · exact h.exec hs ht
    · cases elseBranch with
      | none => exact h.done hs
      | some s => exact h.exec hs (he s rfl)
  | loopTest hs hc hb =>
    have h : Config.At V ⟨control, env, stack, world⟩ .stmt ctx := ⟨hheap, hplace, hst⟩
    simp only [Config.resume, Config.onValue]
    split
    -- The body declares nothing, so the condition is tested again in the same context.
    · refine ⟨ctx, ⟨hheap, hplace, hs, ?_⟩, hb.fits⟩
      rw [hb.declared]
      exact .cons (.loopBody hc hb) hst
    · exact h.done hs
  | ret => exact ⟨hheap, hv, _, hst⟩
  | superclass hs hm =>
    cases v with
    | class_ parent =>
      have hp : ∀ k ∈ some parent, k.Fits V world.heap := by
        intro k hk
        cases hk
        exact hv
      exact fits_declareClass (c := ⟨control, env, stack, world⟩) hheap hplace hs hst hp hm
    | _ => exact ⟨hheap, _, _, hst⟩
  | construct ho =>
    have h : Config.At V ⟨control, env, stack, world⟩ .expr ctx := ⟨hheap, hplace, hst⟩
    exact h.give ho

/-- Going on with the statements of a sequence. -/
theorem At.runAll {ss : List Stmt} (hheap : c.heap.Fits V)
    (hplace : c.heap.Realizes ctx.scopes c.env) (hs : Settled ctx.scopes)
    (hfit : Stmt.FitAll V ctx ss)
    (hst : StackFits V c.heap .stmt (ctx.after ss) c.env c.stack) : (c.runAll ss).Fits V := by
  cases ss with
  | nil => exact ⟨ctx, ⟨hheap, hplace, hst⟩, hs⟩
  | cons s rest =>
    obtain ⟨hhead, hrest⟩ := Stmt.fitAll_cons.1 hfit
    exact ⟨ctx, ⟨hheap, hplace, hs, .cons (.sequence hrest) hst⟩, hhead⟩

theorem fits_resume_done {control : Control}
    (h : Config.At V ⟨control, env, frame :: stack, world⟩ .stmt ctx) (hs : Settled ctx.scopes) :
    (Config.resume distances ⟨control, env, stack, world⟩ .done frame).Fits V := by
  obtain ⟨hheap, hplace, hstack⟩ := h
  obtain _ | ⟨hf, hst⟩ := hstack
  cases hf with
  | loopBody hc hb =>
    have h : Config.At V ⟨control, env, stack, world⟩ .stmt ctx := ⟨hheap, hplace, hst⟩
    exact h.evalThen hc (.loopTest hs hc hb)
  | sequence hfit =>
    exact At.runAll (c := ⟨control, env, stack, world⟩) hheap hplace hs hfit hst
  -- The frame has kept the environment outside, and what its context was realized by.
  | scope _ hr hs' => exact ⟨_, ⟨hheap, hr, hst⟩, hs'⟩
  | call _ hr =>
    exact At.finish (c := ⟨control, _, stack, world⟩) ⟨hheap, hr, hst⟩ _ (v := .nil) trivial

theorem fits_resume_returned {control : Control} {v : Value} (hheap : world.heap.Fits V)
    (hv : v.Fits V world.heap)
    (hst : StackFits V world.heap .stmt ctx env (frame :: stack)) :
    (Config.resume distances ⟨control, env, stack, world⟩ (.returned v) frame).Fits V := by
  obtain _ | ⟨hf, hst⟩ := hst
  cases hf with
  | loopBody hc hb => exact ⟨hheap, hv, _, hst⟩
  | sequence hfit => exact ⟨hheap, hv, _, hst⟩
  | scope _ hr hs => exact ⟨hheap, hv, _, hst⟩
  | call _ hr =>
    exact At.finish (c := ⟨control, _, stack, world⟩) ⟨hheap, hr, hst⟩ _ hv

theorem fits_resume_raised {control : Control} {e : RuntimeError} (hheap : world.heap.Fits V)
    (hst : StackFits V world.heap task ctx env (frame :: stack)) :
    (Config.resume distances ⟨control, env, stack, world⟩ (.raised e) frame).Fits V := by
  obtain _ | ⟨hf, hst⟩ := hst
  cases hf <;> exact ⟨hheap, _, _, hst⟩

/-- A step keeps a configuration in order. -/
theorem Fits.step (hV : Record V) (h : c.Fits V) : (step distances c).Fits V := by
  obtain ⟨control, env, stack, world⟩ := c
  cases control with
  | eval e =>
    obtain ⟨ctx, hat, he⟩ := h
    exact hat.startExpr distances he
  | exec s =>
    obtain ⟨ctx, hbefore, hs⟩ := h
    exact fits_startStmt hV hbefore hs
  | signal s =>
    cases stack with
    | nil => exact h
    | cons frame stack =>
      cases s with
      | value v =>
        obtain ⟨ctx, hat, hv⟩ := h
        exact fits_resume_value hat hv
      | done =>
        obtain ⟨ctx, hat, hs⟩ := h
        exact fits_resume_done hat hs
      | returned v =>
        obtain ⟨hheap, hv, ctx, hst⟩ := h
        exact fits_resume_returned hheap hv hst
      | raised e =>
        obtain ⟨hheap, task, ctx, hst⟩ := h
        exact fits_resume_raised hheap hst

/-- So does every run. -/
theorem Fits.iterate (hV : Record V) (h : c.Fits V) (n : Nat) :
    ((Machine.step distances)^[n] c).Fits V := by
  induction n generalizing c with
  | zero => exact h
  | succ n ih => exact ih (h.step hV)

/-- When a run has ended, the environment is the outermost one. -/
theorem Fits.ended (h : c.Fits V) {s : Signal} (hres : c.result? = some s) :
    c.heap.Fits V ∧ c.env = globalEnv := by
  obtain ⟨control, env, stack, world⟩ := c
  obtain ⟨rfl, rfl⟩ : control = .signal s ∧ stack = [] := result?_eq_some.1 hres
  cases s with
  | value v =>
    obtain ⟨ctx, ⟨hheap, -, hst⟩, -⟩ := h
    cases hst
    exact ⟨hheap, rfl⟩
  | done =>
    obtain ⟨ctx, ⟨hheap, -, hst⟩, -⟩ := h
    cases hst
    exact ⟨hheap, rfl⟩
  | returned v =>
    obtain ⟨hheap, -, ctx, hst⟩ := h
    cases hst
    exact ⟨hheap, rfl⟩
  | raised e =>
    obtain ⟨hheap, task, ctx, hst⟩ := h
    cases hst
    exact ⟨hheap, rfl⟩

end Config

end Machine

end Lox
