import Lox.Proofs.Machine.Outcomes
import Lox.Proofs.Machine.Unseen

/-!
# Calls and what waits for them

A step looks at the frame on top only, so what waits below makes no difference as long as something
is left to do above it (`Config.step_onto`). Hence a call can be looked at by itself: while it goes
on, the machine does what it would do with nothing below, and the call comes back
(`Config.ComesBack`) with the signal with which this run by itself ends (`Config.ComesBack.alone`).

Two calls give what their last frame says, whatever happens above it. A call of a class gives the
object that it has made (`Config.ComesBack.instance_of`), and a call of an initializer the `this` of
the scope around it (`Config.ComesBack.initializer`).
-/

namespace Lox.Machine

variable {base : List Frame} {c : Config} {d : Scoping.Distances}

namespace Config

/-! ## Frames below -/

/-- The configuration with more frames below. -/
def onto (base : List Frame) (c : Config) : Config := { c with stack := c.stack ++ base }

theorem onto_eq_amid (base : List Frame) (c : Config) : c.onto base = c.amid base id := rfl

theorem call_onto (callee : Value) (paren : Token) (arguments : List Value) :
    (c.onto base).call callee paren arguments = (c.call callee paren arguments).onto base :=
  call_amid (g := id) callee paren arguments

theorem print_onto (v : Value) : (c.onto base).print v = (c.print v).onto base := by
  obtain ⟨control, env, stack, ⟨heap, sink, clock⟩⟩ := c
  simp only [Config.print, Config.write, Config.onto]
  generalize sink.write (v.shown ++ "\n") = written
  obtain ⟨sink', fault⟩ := written
  cases fault <;> rfl

/-- What waits below makes no difference to a step, as long as something is left to do above. -/
theorem step_onto (hc : c.result? = none) :
    step d (c.onto base) = (step d c).onto base := by
  cases hprint : c.printed? with
  | none => rw [onto_eq_amid, step_amid hc hprint, onto_eq_amid]
  | some v =>
    obtain ⟨hcontrol, rest, hstack⟩ := printed?_eq_some.1 hprint
    obtain ⟨control, env, stack, world⟩ := c
    cases hcontrol
    cases hstack
    exact print_onto (c := ⟨_, env, rest, world⟩) v

theorem iterate_onto {n : Nat} (hc : ∀ m < n, ((step d)^[m] c).result? = none) :
    (step d)^[n] (c.onto base) = ((step d)^[n] c).onto base := by
  induction n with
  | zero => rfl
  | succ n ih =>
    rw [Function.iterate_succ_apply', Function.iterate_succ_apply',
      ih fun m hm => hc m (Nat.lt_succ_of_lt hm), step_onto (hc n (Nat.lt_succ_self n))]

variable (d c) in
/-- A run has not ended yet, or there was a moment at which it ended. -/
theorem busy_or_ended (n : Nat) :
    (∀ m < n, ((step d)^[m] c).result? = none) ∨
      ∃ m < n, ∃ s, ((step d)^[m] c).result? = some s ∧
        ∀ j < m, ((step d)^[j] c).result? = none := by
  induction n with
  | zero => exact .inl fun m hm => absurd hm (Nat.not_lt_zero m)
  | succ n ih =>
    rcases ih with hbusy | ⟨m, hm, s, hres, hfirst⟩
    -- Busy so far, so this is the first moment at which the run can have ended.
    · cases hres : ((step d)^[n] c).result? with
      | some s => exact .inr ⟨n, Nat.lt_succ_self n, s, hres, hbusy⟩
      | none =>
        refine .inl fun m hm => ?_
        rcases Nat.lt_succ_iff_lt_or_eq.1 hm with hm | rfl
        · exact hbusy m hm
        · exact hres
    · exact .inr ⟨m, Nat.lt_succ_of_lt hm, s, hres, hfirst⟩

theorem result?_onto {s : Signal} (hbase : base ≠ []) : (c.onto base).result? ≠ some s := by
  intro hres
  obtain ⟨-, hstack⟩ := result?_eq_some.1 hres
  exact hbase (List.append_eq_nil_iff.1 hstack).2

/-- Before a run over further frames ends, it has come down to them with a signal. -/
theorem ended_onto (hbase : base ≠ []) {n : Nat} {s : Signal}
    (h : ((step d)^[n] (c.onto base)).result? = some s) :
    ∃ m < n, ∃ s', ((step d)^[m] c).result? = some s' ∧
      (step d)^[m] (c.onto base) = ((step d)^[m] c).onto base := by
  rcases busy_or_ended c d n with hbusy | ⟨m, hm, s', hres, hfirst⟩
  -- As long as the run is busy, the frames below stay, and with them it has not ended.
  · rw [iterate_onto hbusy] at h
    exact absurd h (result?_onto hbase)
  · exact ⟨m, hm, s', hres, iterate_onto hfirst⟩

/-! ## Calls -/

/-- At this moment the callee and all arguments are known, and the machine makes the call. -/
inductive Calls (c : Config) : Value → List Value → List Frame → Prop
  | plain {callee : Value} {paren : Token} {rest : List Frame} :
      c.control = .signal (.value callee) → c.stack = .callee paren [] :: rest →
      Calls c callee [] rest
  | applied {callee v : Value} {paren : Token} {before : List Value} {rest : List Frame} :
      c.control = .signal (.value v) → c.stack = .argument callee paren before [] :: rest →
      Calls c callee (before ++ [v]) rest

variable (d c) in
/-- After `n` steps what has been called is over, with a signal: for the first time there is one for
what waits for the call. -/
structure ComesBack (rest : List Frame) (n : Nat) (s : Signal) : Prop where
  pos : 0 < n
  busy : ∀ m, 0 < m → m < n → ∀ t,
    ¬(((step d)^[m] c).stack = rest ∧ ((step d)^[m] c).control = .signal t)
  stack : ((step d)^[n] c).stack = rest
  control : ((step d)^[n] c).control = .signal s

variable {rest : List Frame} {n : Nat} {s : Signal} {v w : Value} {arguments : List Value}

/-- The configuration by itself, with nothing waiting below. -/
def alone (c : Config) : Config := { c with stack := [] }

/-- A call without arguments. -/
theorem step_callee {paren : Token} (hcontrol : c.control = .signal (.value v))
    (hstack : c.stack = .callee paren [] :: rest) :
    step d c = (c.alone.call v paren []).onto rest := by
  obtain ⟨control, env, stack, world⟩ := c
  cases hcontrol
  cases hstack
  exact call_onto (c := ⟨_, env, [], world⟩) v paren []

theorem Calls.step (hc : c.Calls v arguments rest) :
    ∃ paren, step d c = (c.alone.call v paren arguments).onto rest := by
  cases hc with
  | plain hcontrol hstack => exact ⟨_, step_callee hcontrol hstack⟩
  | applied hcontrol hstack =>
    obtain ⟨control, env, stack, world⟩ := c
    cases hcontrol
    cases hstack
    exact ⟨_, call_onto (c := ⟨_, env, [], world⟩) v _ _⟩

/-- What is above frames has ended if there is a signal for them. -/
theorem result?_iff_onto (rest : List Frame) : c.result? = some s ↔
    (c.onto rest).stack = rest ∧ (c.onto rest).control = .signal s := by
  rw [result?_eq_some, onto, List.append_left_eq_self]
  exact and_comm

/-- A call that comes back runs to its end by itself. -/
theorem ComesBack.alone (hback : c.ComesBack d rest n s) {e : Config}
    (he : Machine.step d c = e.onto rest) :
    ∃ m, n = m + 1 ∧ ((Machine.step d)^[m] e).result? = some s ∧
      ∀ j ≤ m, (Machine.step d)^[j + 1] c = ((Machine.step d)^[j] e).onto rest := by
  obtain ⟨m, rfl⟩ := Nat.exists_eq_succ_of_ne_zero (Nat.ne_of_gt hback.pos)
  have hrun : ∀ j, (Machine.step d)^[j + 1] c = (Machine.step d)^[j] (e.onto rest) := by
    intro j
    rw [Function.iterate_succ_apply, he]
  rcases busy_or_ended e d m with hbusy | ⟨j, hj, s', hres, hfirst⟩
  · have hall : ∀ j ≤ m, (Machine.step d)^[j + 1] c = ((Machine.step d)^[j] e).onto rest := by
      intro j hj
      rw [hrun, iterate_onto fun i hi => hbusy i (Nat.lt_of_lt_of_le hi hj)]
    have hend := And.intro hback.stack hback.control
    rw [hall m (Nat.le_refl m)] at hend
    exact ⟨m, rfl, (result?_iff_onto rest).2 hend, hall⟩
  · -- Coming to its end by itself, the call would have come back earlier.
    have hearlier := hback.busy (j + 1) (Nat.succ_pos j) (Nat.succ_lt_succ hj) s'
    rw [hrun, iterate_onto hfirst] at hearlier
    exact absurd ((result?_iff_onto rest).1 hres) hearlier

/-- A call that runs to its end by itself comes back. -/
theorem comesBack_of_run {e e' : Config} (he : Machine.step d c = e.onto rest) {fuel : Nat}
    (hrun : Machine.run d fuel e = some (s, e')) : ∃ n, c.ComesBack d rest n s := by
  obtain ⟨m, -, rfl, hres⟩ := run_eq_some_iff.1 hrun
  have hsteps : ∀ j, (Machine.step d)^[j + 1] c = (Machine.step d)^[j] (e.onto rest) := by
    intro j
    rw [Function.iterate_succ_apply, he]
  rcases busy_or_ended e d (m + 1) with hbusy | ⟨j, hj, s', hend, hfirst⟩
  · rw [hbusy m (Nat.lt_succ_self m)] at hres
    cases hres
  · -- The first end is the only one, because a run that has ended stays as it is.
    obtain ⟨k, rfl⟩ := Nat.exists_eq_add_of_le' (Nat.le_of_lt_succ hj)
    rw [Function.iterate_add_apply, iterate_step_of_result? hend, hend] at hres
    cases hres
    have hback := (result?_iff_onto rest).1 hend
    rw [← iterate_onto hfirst, ← hsteps] at hback
    refine ⟨j + 1, Nat.succ_pos j, fun i hpos hi t => ?_, hback.1, hback.2⟩
    obtain ⟨i, rfl⟩ := Nat.exists_eq_succ_of_ne_zero (Nat.ne_of_gt hpos)
    have hi := Nat.lt_of_succ_lt_succ hi
    rw [hsteps, iterate_onto fun l hl => hfirst l (Nat.lt_trans hl hi), ← result?_iff_onto,
      hfirst i hi]
    exact Option.some_ne_none t |>.symm

/-- A call that comes back gives a value or raises an error. -/
theorem ComesBack.outcome (hback : c.ComesBack d rest n s) (hcalls : c.Calls v arguments rest) :
    (∃ w, s = .value w) ∨ ∃ e, s = .raised e := by
  obtain ⟨paren, hstep⟩ := hcalls.step (d := d)
  obtain ⟨m, -, hend, -⟩ := hback.alone hstep
  -- The call by itself is work for a value, and so ends with a value or an error.
  have halone : Awaits .value .value c.alone.stack := rfl
  have hstart := ends_call halone v paren arguments
  have hends := (hstart.iterate m).ended hend
  cases s with
  | value w => exact .inl ⟨w, rfl⟩
  | done => exact absurd rfl hends
  | returned w => cases hends
  | raised e => exact .inr ⟨e, rfl⟩

/-- The last frame of a run gets the signal with which what is above it ends. -/
theorem ended_frame {f : Frame} (h : ((Machine.step d)^[n] (c.onto [f])).result? = some s) :
    ∃ m k s', n = m + k + 1 ∧
      (Machine.step d)^[m] (c.onto [f]) = ((Machine.step d)^[m] c).onto [f] ∧
      ((Machine.step d)^[m] c).result? = some s' ∧
      (Machine.step d)^[n] (c.onto [f]) =
        (Machine.step d)^[k] (((Machine.step d)^[m] c).resume d s' f) := by
  obtain ⟨m, hm, s', hres, hrun⟩ := ended_onto (List.cons_ne_nil f []) h
  obtain ⟨k, rfl⟩ := Nat.exists_eq_add_of_lt hm
  refine ⟨m, k, s', rfl, hrun, hres, ?_⟩
  -- The run goes on from the end of what is above the frame, with one step into the frame.
  have hsplit : (Machine.step d)^[m + k + 1] (c.onto [f]) =
      (Machine.step d)^[k] (Machine.step d (((Machine.step d)^[m] c).onto [f])) := by
    rw [← hrun, ← Function.iterate_succ_apply' (Machine.step d) m, ← Function.iterate_add_apply]
    congr 1
    omega
  rw [hsplit]
  generalize (Machine.step d)^[m] c = e at hres
  obtain ⟨control, env, stack, world⟩ := e
  obtain ⟨rfl, rfl⟩ : control = .signal s' ∧ stack = [] := result?_eq_some.1 hres
  rfl

/-- A frame that answers at once. -/
theorem eq_of_result? {k : Nat} {t : Signal} (hres : c.result? = some t)
    (h : ((Machine.step d)^[k] c).result? = some s) : s = t := by
  rw [iterate_step_of_result? hres, hres] at h
  exact (Option.some.inj h).symm

/-! ## Classes and initializers -/

/-- A constructor gives its object, whatever its initializer gave. -/
theorem construct_gives {o : Object}
    (h : ((Machine.step d)^[n] (c.onto [.construct o])).result? = some (.value w)) :
    w = .object o := by
  obtain ⟨m, k, s', -, -, hres, hsplit⟩ := ended_frame h
  rw [hsplit] at h
  have hstack := (result?_eq_some.1 hres).2
  have hresult : ∀ t, (((Machine.step d)^[m] c).signal t).result? = some t :=
    fun t => result?_eq_some.2 ⟨rfl, hstack⟩
  -- On any signal the frame answers at once, and only a value makes it give its object.
  cases s' with
  | value v' => exact Signal.value.inj (eq_of_result? (hresult (.value (.object o))) h)
  | done => cases eq_of_result? (hresult .done) h
  | returned v' => cases eq_of_result? (hresult (.returned v')) h
  | raised e => cases eq_of_result? (hresult (.raised e)) h

theorem instantiate_gives {k : Class}
    (h : ((Machine.step d)^[n] (c.alone.instantiate k arguments)).result? = some (.value w)) :
    w = .object (c.heap.newObject k).1 := by
  unfold Config.instantiate at h
  dsimp only at h
  split at h
  · have hres : ((c.alone.onHeap (·.newObject k)).2.give (.object (c.heap.newObject k).1)).result? =
        some (.value (.object (c.heap.newObject k).1)) := rfl
    exact Signal.value.inj (eq_of_result? hres h)
  · next init _ =>
    exact construct_gives
      (c := ((c.alone.onHeap (·.newObject k)).2.onHeap
        (·.bind init (c.heap.newObject k).1)).2.enter
          ((c.heap.newObject k).2.bind init (c.heap.newObject k).1).1 arguments) h

/-- An initializer that is done gives the `this` of the scope around it. -/
theorem finish_gives {code : Closure} (hinit : code.isInitializer = true) (hstack : c.stack = [])
    {k : Nat} {v : Value}
    (h : ((Machine.step d)^[k] (c.finish code v)).result? = some (.value w)) :
    c.heap.getAt? code.env 0 "this" = some w := by
  have hresult : ∀ t, (c.signal t).result? = some t := fun t => result?_eq_some.2 ⟨rfl, hstack⟩
  unfold Config.finish at h
  rw [if_pos hinit] at h
  split at h
  · next this hthis =>
    obtain rfl := Signal.value.inj (eq_of_result? (hresult (.value this)) h)
    exact hthis
  · cases eq_of_result? (hresult (.raised _)) h

/-- The body of an initializer may return, but its value is the `this` of the scope around it. -/
theorem initializer_gives {code : Closure} (hinit : code.isInitializer = true)
    (h : ((Machine.step d)^[n] (c.alone.enter code arguments)).result? = some (.value w)) :
    ∃ m < n, ((Machine.step d)^[m] (c.alone.enter code arguments)).heap.getAt? code.env 0 "this" =
      some w := by
  let inner := c.heap.nest code.env (bindParams code.decl.params arguments)
  let body : Config := ⟨.signal .done, inner.1, [.sequence code.decl.body],
    ⟨inner.2, c.world.sink, c.world.clock⟩⟩
  have henter : c.alone.enter code arguments = body.onto [.call code c.env] := rfl
  -- The body ends as bodies do, so the frame of the call never gets a value.
  have hends : body.Ends .body := by
    refine ⟨.body, Mode.noConfusion, .body, ⟨rfl, Mode.noConfusion, ?_⟩, rfl⟩
    exact fun s _ => ⟨Mode.noConfusion, fun _ => rfl⟩
  rw [henter] at h ⊢
  obtain ⟨m, k, s', hn, hrun, hres, hsplit⟩ := ended_frame h
  refine ⟨m, by omega, ?_⟩
  rw [hrun]
  rw [hsplit] at h
  have hstack := (result?_eq_some.1 hres).2
  cases s' with
  | value v' => cases (hends.iterate m).ended hres
  | done =>
    exact finish_gives (c := { (Machine.step d)^[m] body with env := c.env }) hinit hstack h
  | returned v' =>
    exact finish_gives (c := { (Machine.step d)^[m] body with env := c.env }) hinit hstack h
  | raised e =>
    have hresult : (Config.signal { (Machine.step d)^[m] body with env := c.env }
        (.raised e)).result? = some (.raised e) := result?_eq_some.2 ⟨rfl, hstack⟩
    cases eq_of_result? hresult h

theorem result?_alone_raise (c : Config) (site : Token) (fault : RuntimeFault) :
    (c.alone.raise site fault).result? = some (.raised (.fault site fault)) :=
  rfl

/-- A call of a class that comes back with a value gives the object that it has made. -/
theorem ComesBack.instance_of {k : Class} (hback : c.ComesBack d rest n (.value w))
    (hcalls : c.Calls (.class_ k) arguments rest) : w = .object ⟨c.heap.fields.size, k⟩ := by
  obtain ⟨paren, hstep⟩ := hcalls.step (d := d)
  obtain ⟨m, -, hend, -⟩ := hback.alone hstep
  unfold Config.call at hend
  split at hend
  · next hnone => cases hnone
  · split at hend
    · exact instantiate_gives hend
    · cases eq_of_result? (c.result?_alone_raise paren _) hend

/-- A call of an initializer that comes back with a value gives what `this` is in the scope around
it at some moment of the call. -/
theorem ComesBack.initializer {id : Nat} {code : Closure} (hinit : code.isInitializer = true)
    (hback : c.ComesBack d rest n (.value w))
    (hcalls : c.Calls (.function id code) arguments rest) :
    ∃ m < n, ((Machine.step d)^[m] c).heap.getAt? code.env 0 "this" = some w := by
  obtain ⟨paren, hstep⟩ := hcalls.step (d := d)
  obtain ⟨m, rfl, hend, hrun⟩ := hback.alone hstep
  -- With the wrong number of arguments there is no call, but then there is no value either.
  have hcall : c.alone.call (.function id code) paren arguments =
        c.alone.enter code arguments ∨
      ∃ fault, c.alone.call (.function id code) paren arguments = c.alone.raise paren fault := by
    unfold Config.call
    dsimp only [Value.arity?]
    split
    · exact .inl rfl
    · exact .inr ⟨_, rfl⟩
  rcases hcall with hcall | ⟨fault, hcall⟩
  · rw [hcall] at hend hrun
    obtain ⟨j, hj, hthis⟩ := initializer_gives hinit hend
    refine ⟨j + 1, Nat.succ_lt_succ hj, ?_⟩
    rw [hrun j (Nat.le_of_lt hj)]
    exact hthis
  · rw [hcall] at hend
    cases eq_of_result? (c.result?_alone_raise paren fault) hend

/-! ## Calls without arguments -/

/-- The call without arguments that the machine is about to make: the callee and the place. -/
def call? (c : Config) : Option (Value × Token) :=
  match c.control, c.stack with
  | .signal (.value v), .callee paren [] :: _ => some (v, paren)
  | _, _ => none

theorem exists_of_call? {paren : Token} (h : c.call? = some (v, paren)) :
    c.control = .signal (.value v) ∧ ∃ rest, c.stack = .callee paren [] :: rest := by
  obtain ⟨control, env, stack, world⟩ := c
  unfold call? at h
  dsimp only at h
  split at h <;> cases h
  exact ⟨rfl, _, rfl⟩

/-- Such a call comes back if it runs to its end by itself. -/
theorem comesBack_of_call? {paren : Token} (h : c.call? = some (v, paren)) {fuel : Nat}
    {e : Config} (hrun : Machine.run d fuel (c.alone.call v paren []) = some (s, e)) :
    ∃ rest n, c.Calls v [] rest ∧ c.ComesBack d rest n s := by
  obtain ⟨hcontrol, rest, hstack⟩ := exists_of_call? h
  obtain ⟨n, hback⟩ := comesBack_of_run (step_callee hcontrol hstack) hrun
  exact ⟨rest, n, .plain hcontrol hstack, hback⟩

end Config

end Lox.Machine
