import Lox.Proofs.Lexical.Following

/-!
# Simulation

The machine follows the lexical interpreter through every expression and every statement, whatever
waits on the stack (`evalFollows`, `execFollows`). The proof is by induction on the bound of the
lexical interpreter. An expression or a statement that is taken up costs the lexical interpreter
one level and the machine at least one step, and so does each round of a loop; this is why the
machine is busy for as long as the bound says.
-/

namespace Lox.Lexical

open Scoping Machine

instance : LawfulMonad Run := LawfulMonad.mk' Run
  (fun p => by
    funext s
    show (p >>= pure) s = p s
    simp only [bind, pure]
    rcases p s with _ | ⟨_ | _, _⟩ <;> rfl)
  (fun _ _ => rfl)
  (fun p f g => by
    funext s
    simp only [bind]
    rcases p s with _ | ⟨_ | _, _⟩ <;> rfl)

variable {V : Visit → Prop} {distances : Distances} {n : Nat} {m m' : Link} {ctx : Context}
  {place : Place} {names : Names} {env : Env} {stack : List Frame} {s : Store} {w : World}
  {control : Control}

section

variable (V distances n)

/-- The machine follows the evaluation of expressions. -/
def EvalFollows : Prop :=
  ∀ {e : Expr} {ctx : Context} {names : Names} {env : Env} (stack : List Frame) {m : Link}
    {s : Store} {w : World}, m.Sees ctx names env → Agree V m s w → e.Fits V ctx →
    Follows distances n ⟨.eval e, env, stack, w⟩ (Gives V m env stack) (eval n names e s)

/-- The machine follows the execution of statements. -/
def ExecFollows : Prop :=
  ∀ {st : Stmt} {ctx : Context} {place : Place} {env : Env} (stack : List Frame) {m : Link}
    {s : Store} {w : World}, Stands m ctx place env → Agree V m s w → st.Fits V ctx →
    Follows distances n ⟨.exec st, env, stack, w⟩
      (Completes V m env stack (ctx.defineAll st.declared) place.isLocal) (exec n place st s)

/-- The machine follows a way to execute the statements of a body. -/
def BodyFollows (body : Place → List Stmt → Run Completion) : Prop :=
  ∀ {ss : List Stmt} {ctx : Context} {place : Place} {env : Env} (stack : List Frame) {m : Link}
    {s : Store} {w : World}, Stands m ctx place env → Agree V m s w → Stmt.FitAll V ctx ss →
    Follows distances n ⟨.signal .done, env, .sequence ss :: stack, w⟩
      (Completes V m env stack (ctx.after ss) place.isLocal) (body place ss s)

end

/-! ## Calls -/

theorem Agree.finish (ha : Agree V m s w) {f : Closure Names} {f' : Closure}
    (hf : SameCode V m (fun ctx => ctx) f f') {v : Value Names} {v' : Value}
    (hv : Matches V m v v') :
    Follows distances n (Config.finish ⟨control, env, stack, w⟩ f' v') (Gives V m env stack)
      (Lexical.finish f v s) := by
  obtain ⟨ctx, kind, hs, hsees, -, hthis⟩ := hf.place
  unfold Config.finish Lexical.finish
  rw [hf.isInitializer]
  by_cases hinit : f'.isInitializer = true
  -- The names of an initializer are those of its place, where `this` is the innermost.
  · obtain ⟨u, u', hu, hu', hm⟩ := ha.local? hsees (hthis hinit) (not_pending_of_settled hs _)
    rw [if_pos hinit, if_pos hinit]
    simp only [hu, Config.heap, hu']
    exact ha.give hm
  · rw [if_neg hinit, if_neg hinit]
    exact ha.give hv

/-- The body of a function runs in a scope of its own, and leaves the machine where the call
was. -/
theorem Agree.enter (hV : Guides V distances) {body : Place → List Stmt → Run Completion}
    (hbody : BodyFollows V distances n body) (ha : Agree V m s w) {f : Closure Names}
    {f' : Closure} (hf : SameCode V m (fun ctx => ctx) f f') {vs : List (Value Names)}
    {vs' : List Value} (hlen : vs.length = f.arity)
    (hvs : List.Forall₂ (Matches V m) vs vs') :
    Follows distances n (Config.enter ⟨control, env, stack, w⟩ f' vs') (Gives V m env stack)
      (Lexical.enter body f vs s) := by
  obtain ⟨ctx, hfit, names, m₁, s₁, hres, hg₁, hst, hag⟩ := hf.enter hV.clean ha hlen hvs
  have hconfig : Config.enter ⟨control, env, stack, w⟩ f' vs' =
      ⟨.signal .done, m.size :: f'.env, .sequence f'.decl.body :: .call f' env :: stack,
        { w with heap := (w.heap.newScope (Config.bindParams f'.decl.params vs')).2 }⟩ := by
    rw [← ha.size]
    rfl
  rw [Lexical.enter, bind_ok hres, hconfig, hf.decl]
  refine (hbody (.call f' env :: stack) hst hag hfit).bind fun completion s₂ c₂ hc => ?_
  cases completion with
  | done names' =>
    -- The scope of the call is left, so what the body declared there is dropped from the link.
    obtain ⟨m₂, w₂, rfl, hg₂, -, hag₂⟩ := hc
    have hg := (hg₁.trans hg₂).leave
    exact ((hag₂.finish (hf.grows hg) .nil).gives hg).step
  | returned v =>
    obtain ⟨m₂, v', w₂, rfl, hg₂, hag₂, hv⟩ := hc
    have hg := (hg₁.trans hg₂).leave
    exact ((hag₂.finish (hf.grows hg) hv).gives hg).step

theorem Agree.instantiate (hV : Guides V distances) {body : Place → List Stmt → Run Completion}
    (hbody : BodyFollows V distances n body) (ha : Agree V m s w) {k : Class Names} {k' : Class}
    (hk : SameClass V m k k') {vs : List (Value Names)} {vs' : List Value}
    (hlen : vs.length = k.arity) (hvs : List.Forall₂ (Matches V m) vs vs') :
    Follows distances n (Config.instantiate ⟨control, env, stack, w⟩ k' vs') (Gives V m env stack)
      (Lexical.instantiate body k vs s) := by
  have ha₁ := ha.newObject k'
  have hm := hk.method? "init"
  unfold Class.arity at hlen
  rw [Lexical.instantiate, bind_ok rfl, Config.instantiate, ha.fieldCount]
  simp only [Config.onHeap]
  generalize k.method? "init" = f at hm hlen
  generalize k'.method? "init" = f' at hm
  cases hm with
  | none => exact ha₁.give (.object w.heap.fields.size hk)
  | @some f f' hf =>
    obtain ⟨code, m', s', hres, hg, hcode, hag⟩ :=
      ha₁.bindMethod hf (i := w.heap.fields.size) hk
    have hlen' : vs.length = code.arity := by
      rw [Closure.arity, hcode.decl]
      exact hlen.trans (congrArg (·.params.length) hf.decl)
    show Follows _ _ _ _ ((Lexical.bindMethod f ⟨w.heap.fields.size, k⟩ >>= _) _)
    rw [bind_ok hres]
    -- Whatever the initializer gives, the frame below it gives the object.
    refine Follows.bind (hag.enter hV hbody hcode hlen' (hvs.imp fun _ _ h => h.grows hg))
      fun v s₂ c₂ hc => ?_
    obtain ⟨m₂, v', w₂, rfl, hg₂, hag₂, -⟩ := hc
    have hobject : Matches V m₂ (.object ⟨w.heap.fields.size, k⟩) _ :=
      .object w.heap.fields.size (hk.grows (hg.trans hg₂))
    exact ((hag₂.give hobject).gives (hg.trans hg₂)).step

theorem Agree.call (hV : Guides V distances) {body : Place → List Stmt → Run Completion}
    (hbody : BodyFollows V distances n body) (ha : Agree V m s w) {callee : Value Names}
    {callee' : Value} (hc : Matches V m callee callee') (paren : Token)
    {vs : List (Value Names)} {vs' : List Value} (hvs : List.Forall₂ (Matches V m) vs vs') :
    Follows distances n (Config.call ⟨control, env, stack, w⟩ callee' paren vs')
      (Gives V m env stack) (Lexical.call body callee paren vs s) := by
  have hlength := hvs.length_eq
  unfold Lexical.call Config.call
  rw [← hc.arity?, ← hlength]
  cases harity : callee.arity? with
  | none => exact ha.raise _ _
  | some arity =>
    by_cases hlen : vs.length = arity
    · simp only [if_pos hlen]
      subst hlen
      cases hc with
      | builtin f =>
        cases f
        show Follows _ _ _ _ (readClock s)
        rw [readClock, ha.clock]
        exact .ok ⟨m, _, _, rfl, .refl m, ⟨ha.size, ha.nonempty, ha.sink, rfl, ha.nextId,
          ha.globals, ha.locals, ha.apart, ha.fieldCount, ha.fields⟩, .number _⟩
      | function id hf => exact ha.enter hV hbody hf (Option.some.inj harity).symm hvs
      | class_ hk => exact ha.instantiate hV hbody hk (Option.some.inj harity).symm hvs
      | _ => exact ha.raise _ _
    · simp only [if_neg hlen]
      exact ha.raise _ _

/-- The arguments that are left, and then the call. -/
theorem Agree.callWith (hV : Guides V distances) (heval : EvalFollows V distances n)
    {body : Place → List Stmt → Run Completion} (hbody : BodyFollows V distances n body)
    (ha : Agree V m s w) (hsees : m.Sees ctx names env) {callee : Value Names} {callee' : Value}
    (hc : Matches V m callee callee') (paren : Token) {before : List (Value Names)}
    {before' : List Value} (hb : List.Forall₂ (Matches V m) before before') {after : List Expr}
    (hfit : ∀ e ∈ after, e.Fits V ctx) :
    Follows distances n (Config.callWith ⟨control, env, stack, w⟩ callee' paren before' after)
      (Gives V m env stack)
      ((after.mapM (eval n names) >>= fun vs =>
        Lexical.call body callee paren (before ++ vs)) s) := by
  -- Along the arguments that are left; those before were evaluated under smaller links.
  induction after generalizing before before' m s w control with
  | nil =>
    rw [List.mapM_nil, pure_bind, List.append_nil]
    exact ha.call hV hbody hc paren hb
  | cons e after ih =>
    obtain ⟨he, hafter⟩ := List.forall_mem_cons.1 hfit
    rw [List.mapM_cons, bind_assoc]
    refine (heval (.argument callee' paren before' after :: stack) hsees ha he).bind
      fun v s₁ c₁ hv => ?_
    obtain ⟨m₁, v', w₁, rfl, hg, hag, hm⟩ := hv
    have hb₁ : List.Forall₂ (Matches V m₁) (before ++ [v]) (before' ++ [v']) :=
      List.rel_append (hb.imp fun _ _ h => h.grows hg) (.cons hm .nil)
    have hrest := @ih m₁ s₁ w₁ (.signal (.value v')) hag (hsees.grows hg) (hc.grows hg) _ _ hb₁
      hafter
    simp only [List.append_assoc, List.singleton_append] at hrest
    rw [bind_assoc]
    simp only [pure_bind]
    exact (hrest.gives hg).step

/-! ## Statements that follow one another -/

theorem ExecFollows.sequence (hexec : ExecFollows V distances n) :
    BodyFollows V distances n (Lexical.sequence (exec n)) := by
  intro ss
  -- Along the statements: each one is over a frame with the rest of them.
  induction ss with
  | nil =>
    intro ctx place env stack m s w hst ha _
    exact Follows.step (.ok ⟨m, w, rfl, .refl m, hst, ha⟩)
  | cons st rest ih =>
    intro ctx place env stack m s w hst ha hfit
    obtain ⟨hhead, hrest⟩ := Stmt.fitAll_cons.1 hfit
    refine Follows.step ((hexec (.sequence rest :: stack) hst ha hhead).bind
      fun completion s₁ c₁ hc => ?_)
    cases completion with
    | done names =>
      obtain ⟨m₁, w₁, rfl, hg, hst₁, hag⟩ := hc
      exact (ih stack hst₁ hag hrest).completes hg
    | returned v =>
      obtain ⟨m₁, v', w₁, rfl, hg, hag, hv⟩ := hc
      exact Follows.step (.ok ⟨m₁, v', w₁, rfl, hg, hag, hv⟩)

/-- A loop. The machine makes a step at least in every round. -/
theorem Stands.repeatWhile (heval : EvalFollows V distances n) (hexec : ExecFollows V distances n)
    {condition : Expr} {body : Stmt} (hcond : condition.Fits V ctx) (hbody : body.FitsInner V ctx)
    {k : Nat} (hk : k ≤ n) (hst : Stands m ctx place env) (ha : Agree V m s w) :
    Follows distances k ⟨.eval condition, env, .loopTest condition body :: stack, w⟩
      (Completes V m env stack ctx place.isLocal)
      (Lexical.repeatWhile (eval n place.names condition) (exec n place body) place.names k s) := by
  -- On the number of rounds that the lexical interpreter allows. The environment is that of the
  -- loop before every round, because the body declares nothing in it.
  induction k generalizing m s w with
  | zero => rfl
  | succ k ih =>
    refine ((heval (.loopTest condition body :: stack) hst.sees ha hcond).mono hk).bind
      fun v s₁ c₁ hv => ?_
    obtain ⟨m₁, v', w₁, rfl, hg₁, hag₁, hm⟩ := hv
    have hst₁ := hst.grows hg₁ ha.nonempty
    refine Follows.step ?_
    show Follows _ _ (if v'.truthy then _ else _) _ _
    rw [← hm.truthy]
    by_cases htrue : v.truthy = true
    · rw [if_pos htrue, if_pos htrue]
      refine ((hexec (.loopBody condition body :: stack) hst₁ hag₁ hbody.fits).mono hk).bind
        fun completion s₂ c₂ hc => ?_
      rw [hbody.declared] at hc
      cases completion with
      | done names =>
        obtain ⟨m₂, w₂, rfl, hg₂, hst₂, hag₂⟩ := hc
        have hback : Stands m₂ ctx place env :=
          ⟨hst₁.sees.grows hg₂, hst₂.tight, hst.settled, hst.isLocal⟩
        exact ((ih (Nat.le_of_succ_le hk) hback hag₂).completes (hg₁.weaken.trans hg₂)).start
      | returned v =>
        obtain ⟨m₂, u', w₂, rfl, hg₂, hag₂, hu⟩ := hc
        exact Follows.step (.ok ⟨m₂, u', w₂, rfl, hg₁.weaken.trans hg₂, hag₂, hu⟩)
    · rw [if_neg htrue, if_neg htrue]
      exact .ok ⟨m₁, w₁, rfl, hg₁.weaken, hst₁, hag₁⟩

/-! ## Expressions -/

theorem EvalFollows.succ (hV : Guides V distances) (heval : EvalFollows V distances n)
    (hexec : ExecFollows V distances n) : EvalFollows V distances (n + 1) := by
  intro e ctx names env stack m s w hsees ha hfit
  -- Each case evaluates the parts over the frames that the machine puts there, and carries the
  -- values found before along as the link grows.
  refine Follows.start ?_
  cases e with
  | constant k => exact ha.give (.ofConstant k)
  | grouping inner => exact heval stack hsees ha hfit
  | unary op right =>
    refine (heval (.unary op :: stack) (e := right) hsees ha hfit).bind fun v s₁ c₁ hv => ?_
    obtain ⟨m₁, v', w₁, rfl, hg, hag, hm⟩ := hv
    exact ((hag.giveOr op (hm.applyUnary op.kind)).gives hg).step
  | binary left op right =>
    obtain ⟨hleft, hright⟩ := Expr.fits_binary.1 hfit
    refine (heval (.binaryLeft op right :: stack) hsees ha hleft).bind fun a s₁ c₁ hv => ?_
    obtain ⟨m₁, a', w₁, rfl, hg₁, hag₁, hma⟩ := hv
    refine Follows.step ((heval (.binaryRight a' op :: stack) (hsees.grows hg₁) hag₁ hright).bind
      fun b s₂ c₂ hv => ?_)
    obtain ⟨m₂, b', w₂, rfl, hg₂, hag₂, hmb⟩ := hv
    exact ((hag₂.giveOr op ((hma.grows hg₂).applyBinary hmb op.kind)).gives (hg₁.trans hg₂)).step
  | logical left op right =>
    obtain ⟨hleft, hright⟩ := Expr.fits_logical.1 hfit
    refine (heval (.logical op right :: stack) hsees ha hleft).bind fun a s₁ c₁ hv => ?_
    obtain ⟨m₁, a', w₁, rfl, hg, hag, hm⟩ := hv
    refine Follows.step ?_
    show Follows _ _ (if settles op.kind a' then _ else _) _ _
    rw [← hm.settles op.kind]
    by_cases hsettles : settles op.kind a = true
    · rw [if_pos hsettles, if_pos hsettles]
      exact (hag.give hm).gives hg
    · rw [if_neg hsettles, if_neg hsettles]
      exact (heval stack (hsees.grows hg) hag hright).gives hg
  | var id name => exact ha.read hV hsees (Expr.fits_var.1 hfit)
  | assign id name value =>
    obtain ⟨hvalue, hlook⟩ := Expr.fits_assign.1 hfit
    refine (heval (.assign id name :: stack) hsees ha hvalue).bind fun v s₁ c₁ hv => ?_
    obtain ⟨m₁, v', w₁, rfl, hg, hag, hm⟩ := hv
    exact ((hag.assign hV (hsees.grows hg) hlook hm).gives hg).step
  | call callee paren arguments =>
    obtain ⟨hcallee, harguments⟩ := Expr.fits_call.1 hfit
    refine (heval (.callee paren arguments :: stack) hsees ha hcallee).bind fun f s₁ c₁ hv => ?_
    obtain ⟨m₁, f', w₁, rfl, hg, hag, hm⟩ := hv
    refine Follows.step (.gives ?_ hg)
    -- The body runs on the smaller bound too, by the same hypothesis for statements.
    exact hag.callWith hV heval hexec.sequence (hsees.grows hg) hm paren .nil harguments
  | get object name =>
    refine (heval (.get name :: stack) (e := object) hsees ha hfit).bind fun v s₁ c₁ hv => ?_
    obtain ⟨m₁, v', w₁, rfl, hg, hag, hm⟩ := hv
    exact ((hag.property name hm).gives hg).step
  | set object name value =>
    obtain ⟨hvalue, hobject⟩ := Expr.fits_set.1 hfit
    refine (heval (.setObject name value :: stack) hsees ha hobject).bind fun o s₁ c₁ hv => ?_
    obtain ⟨m₁, o', w₁, rfl, hg₁, hag₁, hm₁⟩ := hv
    refine Follows.step ?_
    cases hm₁ with
    | @object i k k' hk =>
      refine (heval (.setValue ⟨i, k'⟩ name :: stack) (hsees.grows hg₁) hag₁ hvalue).bind
        fun v s₂ c₂ hv => ?_
      obtain ⟨m₂, v', w₂, rfl, hg₂, hag₂, hm₂⟩ := hv
      have hset := hag₂.setField i k k' name.lexeme hm₂
      exact ((hset.give hm₂).gives (hg₁.trans hg₂)).step
    | _ => exact hag₁.raise _ _
  | this id keyword => exact ha.read hV hsees (Expr.fits_this.1 hfit)
  | super id keyword method => exact ha.superMethod hV hsees (Expr.fits_super.1 hfit)

/-! ## Statements -/

/-- Printing. Both sinks are the same. -/
theorem Agree.print (ha : Agree V m s w) {v : Value Names} {v' : Value} (hv : Matches V m v v')
    (hst : Stands m ctx place env) :
    Follows distances n (Config.print ⟨control, env, stack, w⟩ v')
      (Completes V m env stack ctx place.isLocal)
      ((do Lexical.print v; pure (Completion.done place.names)) s) := by
  simp only [bind, Lexical.print, Config.print, Config.write, ha.sink, hv.shown, pure]
  generalize hwrite : w.sink.write (v'.shown ++ "\n") = r
  obtain ⟨sink, fault⟩ := r
  cases fault with
  | none => exact .ok ⟨m, _, rfl, .refl m, hst, ⟨ha.size, ha.nonempty, rfl, ha.clock, ha.nextId,
      ha.globals, ha.locals, ha.apart, ha.fieldCount, ha.fields⟩⟩
  | some fault => exact ⟨_, ⟨0, rfl⟩, rfl, rfl⟩

/-- A variable is declared, with the value that its initializer gave. -/
theorem Stands.declareVar (hst : Stands m ctx place env) (ha : Agree V m s w) {name : Token}
    (hn : ctx.innermost? name = none) {v : Value Names} {v' : Value} (hv : Matches V m v v') :
    Follows distances n (Config.declareVar ⟨control, env, stack, w⟩ name v')
      (Completes V m env stack (ctx.define name) place.isLocal)
      ((.done <$> Lexical.declare place name.lexeme v) s) := by
  have hdeclared := hst.declare ha hn hv
  rw [← Heap.define_eq_write hst.sees.ne_nil] at hdeclared
  exact hdeclared.follows

/-- A block runs in a scope of its own, and leaves both where they were. -/
theorem Stands.runBlock (hexec : ExecFollows V distances n) (hst : Stands m ctx place env)
    (ha : Agree V m s w) {ss : List Stmt} (hfit : Stmt.FitAll V ctx.enter ss) :
    Follows distances n (Config.runBlock ⟨control, env, stack, w⟩ ss)
      (Completes V m env stack ctx place.isLocal)
      ((do
        match ← Lexical.sequence (exec n) ⟨place.names, true⟩ ss with
        | .done _ => pure (Completion.done place.names)
        | .returned v => pure (Completion.returned v)) s) := by
  have hconfig : Config.runBlock ⟨control, env, stack, w⟩ ss = ⟨.signal .done, m.size :: env,
      .sequence ss :: .scope env :: stack, { w with heap := (w.heap.newScope []).2 }⟩ := by
    rw [← ha.size]
    rfl
  rw [hconfig]
  refine (hexec.sequence (.scope env :: stack) (.enter ha hst.sees hst.settled) ha.newScope
    hfit).bind fun completion s₁ c₁ hc => ?_
  cases completion with
  | done names =>
    -- Names that the block declared are gone; changes to the names around it stay.
    obtain ⟨m₁, w₁, rfl, hg, -, hag⟩ := hc
    exact Follows.step (.ok ⟨m₁, w₁, rfl, hg.leave.weaken, hst.grows hg.leave ha.nonempty, hag⟩)
  | returned v =>
    obtain ⟨m₁, v', w₁, rfl, hg, hag, hv⟩ := hc
    exact Follows.step (.ok ⟨m₁, v', w₁, rfl, hg.leave.weaken, hag, hv⟩)

theorem ExecFollows.succ (hV : Guides V distances) (heval : EvalFollows V distances n)
    (hexec : ExecFollows V distances n) : ExecFollows V distances (n + 1) := by
  intro st ctx place env stack m s w hst ha hfit
  refine Follows.start ?_
  cases st with
  | expression e =>
    refine (heval (.discard :: stack) hst.sees ha hfit.expression).bind fun v s₁ c₁ hv => ?_
    obtain ⟨m₁, v', w₁, rfl, hg, hag, -⟩ := hv
    exact Follows.step (.ok ⟨m₁, w₁, rfl, hg.weaken, hst.grows hg ha.nonempty, hag⟩)
  | print e =>
    refine (heval (.print :: stack) hst.sees ha hfit.print).bind fun v s₁ c₁ hv => ?_
    obtain ⟨m₁, v', w₁, rfl, hg, hag, hm⟩ := hv
    exact ((hag.print hm (hst.grows hg ha.nonempty)).completes hg.weaken).step
  | varDecl name value =>
    have hn := (hV.clean hfit.declared).declare
    cases value with
    | none => exact hst.declareVar ha hn .nil
    | some e =>
      -- The initializer does not see the name, which is declared after it.
      refine (heval (.define name :: stack) (hst.sees.declare name) ha hfit.initializer).bind
        fun v s₁ c₁ hv => ?_
      obtain ⟨m₁, v', w₁, rfl, hg, hag, hm⟩ := hv
      exact (((hst.grows hg ha.nonempty).declareVar hag hn hm).completes hg.weaken).step
  | block ss => exact hst.runBlock hexec ha hfit.block
  | branch condition thenBranch elseBranch =>
    obtain ⟨hcond, hthen, helse⟩ := hfit.branch
    refine (heval (.branch thenBranch elseBranch :: stack) hst.sees ha hcond).bind
      fun v s₁ c₁ hv => ?_
    obtain ⟨m₁, v', w₁, rfl, hg, hag, hm⟩ := hv
    have hst₁ := hst.grows hg ha.nonempty
    -- Neither branch declares a name, so both leave the context as it is.
    have hinner : ∀ st, st.FitsInner V ctx → Follows distances n ⟨.exec st, env, stack, w₁⟩
        (Completes V m env stack ctx place.isLocal) (exec n place st s₁) := by
      intro st hst
      have hrun := hexec stack hst₁ hag hst.fits
      rw [hst.declared] at hrun
      exact hrun.completes hg.weaken
    rw [hfit.declared_branch]
    refine Follows.step ?_
    show Follows _ _ (if v'.truthy then _ else _) _ _
    rw [← hm.truthy]
    by_cases htrue : v.truthy = true
    · rw [if_pos htrue, if_pos htrue]
      exact hinner thenBranch hthen
    · rw [if_neg htrue, if_neg htrue]
      cases elseBranch with
      | none => exact .ok ⟨m₁, w₁, rfl, hg.weaken, hst₁, hag⟩
      | some st => exact hinner st (helse st rfl)
  | loop condition body =>
    obtain ⟨hcond, hbody⟩ := hfit.loop
    have hdeclared : (Stmt.loop condition body).declared = [] := hbody.declared
    rw [hdeclared]
    exact hst.repeatWhile heval hexec hcond hbody (Nat.le_refl n) ha
  | funDecl f =>
    obtain ⟨hn, hf⟩ := hfit.funDecl
    exact (hst.declareFunction ha (hV.clean hn).declare hf).follows
  | ret keyword value =>
    cases value with
    | none => exact .ok ⟨m, .nil, w, rfl, .refl m, ha, .nil⟩
    | some e =>
      refine (heval (.ret :: stack) hst.sees ha hfit.ret).bind fun v s₁ c₁ hv => ?_
      obtain ⟨m₁, v', w₁, rfl, hg, hag, hm⟩ := hv
      exact Follows.step (.ok ⟨m₁, v', w₁, rfl, hg.weaken, hag, hm⟩)
  | classDecl name superclass methods =>
    obtain ⟨hn, hmethods⟩ := hfit.classDecl
    have hnone := (hV.clean hn).declare
    cases superclass with
    | none => exact (hst.declareClass ha hnone .none hmethods).follows
    | some superclass =>
      -- The clause is evaluated before the class is declared, so it has the names of the place.
      have hsuper : superclass.Fits V ctx := hfit.superclass_in hV.toRecord fun _ _ => rfl
      refine (heval (.superclass name (Config.superclassSite name superclass) methods :: stack)
        hst.sees ha hsuper).bind fun v s₁ c₁ hv => ?_
      obtain ⟨m₁, v', w₁, rfl, hg, hag, hm⟩ := hv
      refine Follows.step ?_
      cases hm with
      | class_ hk =>
        have hclass := (hst.grows hg ha.nonempty).declareClass hag hnone (.some hk) hmethods
        exact hclass.follows.completes hg.weaken
      | _ => exact hag.raise _ _

/-- The machine follows the lexical interpreter. -/
theorem follows (hV : Guides V distances) (n : Nat) :
    EvalFollows V distances n ∧ ExecFollows V distances n := by
  induction n with
  | zero => exact ⟨fun _ _ _ _ _ _ _ => rfl, fun _ _ _ _ _ _ _ => rfl⟩
  | succ n ih =>
    exact ⟨EvalFollows.succ hV ih.1 ih.2, ExecFollows.succ hV ih.1 ih.2⟩

end Lox.Lexical
