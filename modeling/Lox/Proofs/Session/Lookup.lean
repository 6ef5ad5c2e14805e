import Lox.Proofs.Scoping.Initializers
import Lox.Proofs.Session.History
import Lox.Proofs.Tree.Nodes

/-!
# Static and dynamic scopes agree

While a source runs, the environment at a node has as many scopes as the check of scopes saw when it
came to the node, and a name with a distance on file is bound at this distance. A read never
misses (`Session.reads_agree`). An assignment misses exactly in the initializer of the variable
that it assigns to (`Session.writes_agree`), because there the check does not ask whether the name
is ready.
-/

namespace Lox

open Scoping Machine

/-! ## The visit to a node -/

/-- The only visit to a node, among all visits made so far. -/
def Scoping.OnlyVisit (vs : List Visit) (id : NodeId) (v : Visit) : Prop :=
  ∀ w, w ∈ vs ∧ w.id? = some id ↔ w = v

theorem Scoping.OnlyVisit.of_nodup {vs : List Visit} (h : (vs.filterMap Visit.id?).Nodup)
    {v : Visit} {id : NodeId} (hv : v ∈ vs) (hid : v.id? = some id) : OnlyVisit vs id v := by
  intro w
  constructor
  · rintro ⟨hw, hwid⟩
    exact eq_of_nodup_filterMap h hw hv hwid hid
  · rintro rfl
    exact ⟨hv, hid⟩

/-! ## Distances -/

/-- The scopes of an environment inside the outermost one number as many as those of a context. -/
def Env.DepthIs (env : Env) (ctx : Context) : Prop :=
  ∃ locals, env = locals ++ globalEnv ∧ globalScope ∉ locals ∧ locals.length = ctx.scopes.length

/-- The scope at a distance has a name. -/
def Heap.BoundAt (h : Heap) (env : Env) (distance : Nat) (name : String) : Prop :=
  ∃ scope outer, env.ancestor? distance = some (scope :: outer) ∧ h.binds scope name

theorem Env.ancestor?_eq_some {env : Env} {d : Nat} {s : ScopeId} (h : env[d]? = some s) :
    env.ancestor? d = some (s :: env.drop (d + 1)) := by
  obtain ⟨hlt, rfl⟩ := List.getElem?_eq_some_iff.1 h
  rw [Env.ancestor?, List.drop_eq_getElem_cons hlt]

theorem Env.getElem?_of_ancestor? {env outer : Env} {d : Nat} {s : ScopeId}
    (h : env.ancestor? d = some (s :: outer)) : env[d]? = some s := by
  rw [← Env.head?_ancestor?, h]
  rfl

theorem Heap.boundAt_iff {h : Heap} {env : Env} {d : Nat} {name : String} :
    h.BoundAt env d name ↔ ∃ s, env[d]? = some s ∧ h.binds s name := by
  constructor
  · intro hbound
    obtain ⟨s, outer, ha, hb⟩ := hbound
    exact ⟨s, Env.getElem?_of_ancestor? ha, hb⟩
  · intro hbound
    obtain ⟨s, hs, hb⟩ := hbound
    exact ⟨s, _, Env.ancestor?_eq_some hs, hb⟩

namespace Machine.Config

variable {c : Config} {id : NodeId} {name : Token}

/-- The variable that the machine is about to read. -/
def read? (c : Config) : Option (NodeId × Token) :=
  match c.control with
  | .eval (.var id name) => some (id, name)
  | _ => none

theorem control_of_read? (h : c.read? = some (id, name)) : c.control = .eval (.var id name) := by
  unfold read? at h
  split at h <;> cases h
  assumption

/-- The `super` that the machine is at, and the name of the method. -/
def super? (c : Config) : Option (NodeId × Token) :=
  match c.control with
  | .eval (.super id _ method) => some (id, method)
  | _ => none

theorem exists_of_super? (h : c.super? = some (id, name)) :
    ∃ keyword, c.control = .eval (.super id keyword name) := by
  unfold super? at h
  split at h <;> cases h
  exact ⟨_, ‹_›⟩

/-- The assignment that the machine is about to make. -/
def assignment? (c : Config) : Option (NodeId × Token) :=
  match c.control, c.stack with
  | .signal (.value _), .assign id name :: _ => some (id, name)
  | _, _ => none

theorem exists_of_assignment? (h : c.assignment? = some (id, name)) :
    ∃ v rest, c.control = .signal (.value v) ∧ c.stack = .assign id name :: rest := by
  unfold assignment? at h
  split at h <;> cases h
  exact ⟨_, _, ‹_›, ‹_›⟩

end Machine.Config

namespace Session

/-- A session with room for any output, under a clock that stands still. -/
def still : Session := new {} fun _ => 0

theorem still_history : still.History [] := .new {} fun _ => 0

/-- The moment after some steps of the first statement of a source. -/
def moment? (s : Session) (source : String) (n : Nat) : Option Config :=
  (s.parsed source).statements.head?.map fun program =>
    (step (s.loaded source).distances)^[n] ((s.loaded source).start (.exec program))

theorem passes_of_moment? {s : Session} {source : String} {n : Nat} {c : Config}
    (h : s.moment? source n = some c) : s.Passes source c := by
  obtain ⟨program, hp, rfl⟩ := Option.map_eq_some_iff.1 h
  obtain ⟨rest, hrest⟩ := List.head?_eq_some_iff.1 hp
  rw [Passes, hrest]
  exact .here n

/-! ## Reads -/

variable {s : Session} {vs ran : List Visit} {source : String} {c : Config} {id : NodeId}
  {name : Token} {ctx : Context}

/-- What holds when a node looks a name up in an environment that realizes its context. -/
theorem Sound.boundAt (hs : s.Sound vs ran) {kind : Look} {h : Heap} {env : Env}
    (hr : h.Realizes ctx.scopes env) {ctx' : Context}
    (hview : ctx'.view name.lexeme = ctx.view name.lexeme)
    (hv : Visit.look kind ctx' id name ∈ ran) (hready : ctx'.innermost? name ≠ some false) {d : Nat}
    (hd : s.interpreter.distances[id]? = some d) : h.BoundAt env d name.lexeme := by
  rw [hs.filed hv, Context.hops?_eq_view, hview, ← Context.hops?_eq_view] at hd
  rw [Context.innermost?_eq_view, hview, ← Context.innermost?_eq_view] at hready
  exact Heap.boundAt_iff.2 (hr.bound hd hready)

/-- A read at a distance at which the name is bound gives its value. -/
theorem step_read {distances : Distances} {e : Expr} (hc : c.control = .eval e)
    (he : e = .var id name ∨ e = .this id name) {d : Nat} (hd : distances[id]? = some d)
    (hb : c.heap.BoundAt c.env d name.lexeme) : ∃ v, step distances c = c.give v := by
  obtain ⟨scope, hscope, hbinds⟩ := Heap.boundAt_iff.1 hb
  obtain ⟨v, hread⟩ := c.heap.binds_iff.1 hbinds
  have hlook : lookUp distances c.heap c.env id name.lexeme = some v := by
    rw [lookUp, hd]
    exact Option.bind_eq_some_iff.2 ⟨scope, hscope, hread⟩
  refine ⟨v, ?_⟩
  rcases he with rfl | rfl <;> simp only [step, hc, Config.startExpr, Config.read, hlook]

/-- Static and dynamic scopes agree on reads. Whenever a running source reads a variable or `this`,
the environment is as deep as the context of the one visit to the node, and if there is a
distance on file, then the name is bound there and the read succeeds. -/
theorem reads_agree (hs : s.History vs) (ha : s.Accepts source) (hp : s.Passes source c)
    {e : Expr} (hc : c.control = .eval e) (he : e = .var id name ∨ e = .this id name) :
    ∃ kind ctx, OnlyVisit (vs ++ s.visits source) id (.look kind ctx id name) ∧
      c.env.DepthIs ctx ∧
      ∀ d, (s.loaded source).distances[id]? = some d →
        c.heap.BoundAt c.env d name.lexeme ∧
          ∃ v, step (s.loaded source).distances c = c.give v := by
  obtain ⟨ran, hsound⟩ := hs.sound
  have hload := hsound.load ha
  -- A superclass clause is visited after the name of its class was added, so the context on record
  -- may differ from that of the place, but not in how it sees the name that is read.
  obtain ⟨ctx, kind, ctx', hat, hview, hv, hready⟩ : ∃ ctx kind ctx', c.At
      (OnRecord (ran ++ s.visits source)) .expr ctx ∧
      ctx'.view name.lexeme = ctx.view name.lexeme ∧
      Visit.look kind ctx' id name ∈ ran ++ s.visits source ∧
      ctx'.innermost? name ≠ some false := by
    have hfits := hsound.passes ha hp
    rw [Config.Fits, hc] at hfits
    obtain ⟨ctx, hat, hfit⟩ := hfits
    rcases he with rfl | rfl
    · obtain ⟨ctx', hview, hv⟩ := Expr.fits_var.1 hfit
      exact ⟨ctx, .read, ctx', hat, hview, hv, (hload.regular _ hv).clean.read⟩
    · have hv := Expr.fits_this.1 hfit
      have hregular := hload.regular _ hv
      exact ⟨ctx, .this, ctx, hat, rfl, hv, hregular.innermost?_this⟩
  refine ⟨kind, ctx', .of_nodup hload.fresh.nodup (hload.subset hv) rfl, ?_, fun d hd => ?_⟩
  -- Contexts that see a name in the same way have equally many scopes.
  · obtain ⟨locals, henv, hglobal, hlen⟩ := hat.place.models.exists_locals
    refine ⟨locals, henv, hglobal, ?_⟩
    rw [hlen, ← ctx'.length_view name.lexeme, hview, ctx.length_view]
  · have hb := hload.boundAt hat.place hview hv hready hd
    exact ⟨hb, step_read hc he hd hb⟩

/-- A function reads a variable of the block around it, when it is called. -/
theorem reads_agree_in_call :
    still.Accepts "{ var a; fun f() { a; } f(); }" ∧
      ∃ c, still.Passes "{ var a; fun f() { a; } f(); }" c ∧
        c.control = .eval (.var 0 ⟨.identifier, "a", none, 1⟩) ∧
        (still.loaded "{ var a; fun f() { a; } f(); }").distances[0]? = some 1 ∧
        c.heap.BoundAt c.env 1 "a" := by
  have ha : still.Accepts "{ var a; fun f() { a; } f(); }" := by decide +kernel
  have hmoment : (still.moment? "{ var a; fun f() { a; } f(); }" 12).map Config.read? =
      some (some (0, ⟨.identifier, "a", none, 1⟩)) := by decide +kernel
  have hd : (still.loaded "{ var a; fun f() { a; } f(); }").distances[0]? = some 1 := by
    decide +kernel
  obtain ⟨c, hc, hread⟩ := Option.map_eq_some_iff.1 hmoment
  have hcontrol := Config.control_of_read? hread
  obtain ⟨kind, ctx, -, -, hbound⟩ :=
    reads_agree still_history ha (passes_of_moment? hc) hcontrol (.inl rfl)
  exact ⟨ha, c, passes_of_moment? hc, hcontrol, hd, (hbound 1 hd).1⟩

/-! ## Writes -/

/-- An assignment whose value is known. -/
theorem step_assign {distances : Distances} {v : Value} {stack : List Frame}
    (hc : c.control = .signal (.value v)) (hst : c.stack = .assign id name :: stack) :
    step distances c = Config.assign distances { c with stack } id name v := by
  simp only [step, hc, hst]
  rfl

/-- The scope in which an assignment changes its name. -/
theorem assign_eq_write {distances : Distances} {d : Nat} {scope : ScopeId}
    (hd : distances[id]? = some d) (hscope : c.env[d]? = some scope)
    (hb : c.heap.binds scope name.lexeme) (v : Value) :
    c.assign distances id name v =
      (c.mapHeap fun _ h => h.write scope name.lexeme v).give v := by
  have htarget : targetOf distances c.heap c.env id name.lexeme = some scope := by
    rw [targetOf, hd]
    exact Option.filter_eq_some_iff.2 ⟨hscope, hb⟩
  simp only [Config.assign, htarget]

theorem assign_eq_raise {distances : Distances} {d : Nat} {scope : ScopeId}
    (hd : distances[id]? = some d) (hscope : c.env[d]? = some scope)
    (hb : ¬c.heap.binds scope name.lexeme) (v : Value) :
    c.assign distances id name v = c.raise name (.undefinedVariable name.lexeme) := by
  have htarget : targetOf distances c.heap c.env id name.lexeme = none := by
    simp only [targetOf, hd, Heap.scopeAt?, hscope, Option.filter_some, if_neg hb]
  simp only [Config.assign, htarget]

/-- Static and dynamic scopes on writes. Whenever a running source assigns to a name with a
distance on file, the name is bound there and the assignment succeeds, unless the check came to
the node while the name was declared and not ready: then the name is unknown. -/
theorem writes_agree (hs : s.History vs) (ha : s.Accepts source) (hp : s.Passes source c)
    {v : Value} {stack : List Frame} (hc : c.control = .signal (.value v))
    (hst : c.stack = .assign id name :: stack) {d : Nat}
    (hd : (s.loaded source).distances[id]? = some d) :
    ∃ ctx, OnlyVisit (vs ++ s.visits source) id (.look .write ctx id name) ∧
      (ctx.innermost? name ≠ some false → ∃ scope outer,
        c.env.ancestor? d = some (scope :: outer) ∧ c.heap.binds scope name.lexeme ∧
          step (s.loaded source).distances c =
            (Config.mapHeap { c with stack } fun _ h => h.write scope name.lexeme v).give v) ∧
      (ctx.innermost? name = some false →
        ¬c.heap.BoundAt c.env d name.lexeme ∧
          step (s.loaded source).distances c =
            Config.raise { c with stack } name (.undefinedVariable name.lexeme)) := by
  obtain ⟨ran, hsound⟩ := hs.sound
  have hload := hsound.load ha
  -- The frame of the assignment has kept the visit to the node, whose context the environment still
  -- realizes: the value has been computed, and every scope entered for it has been left.
  obtain ⟨ctx, hr, hv⟩ : ∃ ctx, c.heap.Realizes ctx.scopes c.env ∧
      Visit.look .write ctx id name ∈ ran ++ s.visits source := by
    have hfits := hsound.passes ha hp
    rw [Config.Fits, hc] at hfits
    obtain ⟨ctx, ⟨-, hplace, hstack⟩, -⟩ := hfits
    rw [hst] at hstack
    exact ⟨ctx, hplace, hstack.assign⟩
  have hhops : ctx.hops? name.lexeme = some d := (hload.filed hv).symm.trans hd
  refine ⟨ctx, .of_nodup hload.fresh.nodup (hload.subset hv) rfl, fun hready => ?_,
    fun hready => ?_⟩
  -- A ready name is bound in the scope that the distance leads to.
  · obtain ⟨scope, hscope, hb⟩ := hr.bound hhops hready
    refine ⟨scope, _, Env.ancestor?_eq_some hscope, hb, ?_⟩
    rw [step_assign hc hst]
    exact assign_eq_write (c := { c with stack }) hd hscope hb v
  -- Names that are not ready are in the innermost scope only, so the distance is zero, and the
  -- scope there gets the name when the initializer has ended.
  · obtain ⟨hzero, scope, hscope, hb⟩ := hr.unbound hready
    obtain rfl : d = 0 := Option.some.inj (hhops.symm.trans hzero)
    refine ⟨fun hbound => ?_, ?_⟩
    · obtain ⟨scope', hscope', hb'⟩ := Heap.boundAt_iff.1 hbound
      exact hb (Option.some.inj (hscope.symm.trans hscope') ▸ hb')
    · rw [step_assign hc hst]
      exact assign_eq_raise (c := { c with stack }) hd hscope hb v

/-- A function assigns to a variable of the block around it, when it is called. -/
theorem writes_agree_in_call :
    still.Accepts "{ var a; fun f() { a = nil; } f(); }" ∧
      ∃ c v stack, still.Passes "{ var a; fun f() { a = nil; } f(); }" c ∧
        c.control = .signal (.value v) ∧
        c.stack = .assign 1 ⟨.identifier, "a", none, 1⟩ :: stack ∧
        (still.loaded "{ var a; fun f() { a = nil; } f(); }").distances[1]? = some 1 ∧
        c.heap.BoundAt c.env 1 "a" := by
  have ha : still.Accepts "{ var a; fun f() { a = nil; } f(); }" := by decide +kernel
  have hmoment : (still.moment? "{ var a; fun f() { a = nil; } f(); }" 14).map
      Config.assignment? = some (some (1, ⟨.identifier, "a", none, 1⟩)) := by decide +kernel
  have hd : (still.loaded "{ var a; fun f() { a = nil; } f(); }").distances[1]? = some 1 := by
    decide +kernel
  obtain ⟨c, hc, hassignment⟩ := Option.map_eq_some_iff.1 hmoment
  obtain ⟨v, stack, hcontrol, hstack⟩ := Config.exists_of_assignment? hassignment
  obtain ⟨ctx, hvisit, hready, -⟩ :=
    writes_agree still_history ha (passes_of_moment? hc) hcontrol hstack hd
  -- No variable is assigned to in its own initializer, so every assignment finds its name ready.
  have hearly : Stmt.assignsEarlyAny false
      (still.parsed "{ var a; fun f() { a = nil; } f(); }").statements = false := by decide +kernel
  have hthis := ((hvisit _).2 rfl).1
  rw [visits_of_checks ha.1] at hthis
  have hsettled : Settled Context.top.scopes := List.forall_mem_nil _
  have hfound := Stmt.ready_visitsAll hsettled (fun hne => absurd rfl hne) _ hearly _ hthis
  obtain ⟨scope, outer, hscope, hb, -⟩ := hready hfound
  exact ⟨ha, c, v, stack, passes_of_moment? hc, hcontrol, hstack, hd, scope, outer, hscope, hb⟩

/-- An assignment to a variable in its own initializer has a distance on file, and yet the
variable is unknown. -/
theorem write_in_own_initializer :
    still.Accepts "{ var a = a = nil; }" ∧
      (still.loaded "{ var a = a = nil; }").distances[1]? = some 0 ∧
      (∃ c v stack, still.Passes "{ var a = a = nil; }" c ∧ c.control = .signal (.value v) ∧
        c.stack = .assign 1 ⟨.identifier, "a", none, 1⟩ :: stack ∧
        ¬c.heap.BoundAt c.env 0 "a") ∧
      (still.run 10 "{ var a = a = nil; }").map (·.2.runtimeError) =
        some (some (.fault ⟨.identifier, "a", none, 1⟩ (.undefinedVariable "a"))) := by
  have ha : still.Accepts "{ var a = a = nil; }" := by decide +kernel
  -- After five steps the assignment has its value, and the block has declared nothing yet.
  have hmoment : (still.moment? "{ var a = a = nil; }" 5).map
      (fun c => (c.assignment?, c.env[0]?.map (c.heap.binds · "a"))) =
      some (some (1, ⟨.identifier, "a", none, 1⟩), some false) := by decide +kernel
  obtain ⟨c, hc, heq⟩ := Option.map_eq_some_iff.1 hmoment
  obtain ⟨hassignment, hbinds⟩ := Prod.mk.inj heq
  obtain ⟨v, stack, hcontrol, hstack⟩ := Config.exists_of_assignment? hassignment
  have hd : (still.loaded "{ var a = a = nil; }").distances[1]? = some 0 := by decide +kernel
  have hrun : (still.run 10 "{ var a = a = nil; }").map (·.2.runtimeError) =
      some (some (.fault ⟨.identifier, "a", none, 1⟩ (.undefinedVariable "a"))) := by
    decide +kernel
  refine ⟨ha, hd, ⟨c, v, stack, passes_of_moment? hc, hcontrol, hstack, ?_⟩, hrun⟩
  intro h
  obtain ⟨scope, outer, hscope, hb⟩ := h
  rw [Env.getElem?_of_ancestor? hscope] at hbinds
  exact Bool.noConfusion (hb.symm.trans (Option.some.inj hbinds))

end Session

end Lox
