import Lox.Proofs.Lexical.Declarations
import Lox.Proofs.Machine.Preservation

/-!
# The machine follows the lexical interpreter

The lexical interpreter follows the syntax and the machine makes steps. The machine follows a run
(`Follows`) if it comes to a configuration that corresponds to the result; if it comes to the same
error; and if it is still busy after `n` steps where the lexical interpreter gives up with bound
`n`. So one of the two ends exactly if the other does.

Here are the operations that are done in one step (names, operators, properties) and calls, for
any way to execute a body that the machine follows (`FollowsBody`).
-/

namespace Lox.Lexical

open Scoping Machine

/-- What is on file leads to where the names of a record point. -/
structure Guides (V : Visit → Prop) (distances : Distances) : Prop extends Record V where
  filed : ∀ {kind ctx id name}, V (.look kind ctx id name) →
    distances[id]? = ctx.hops? name.lexeme
  ready : ∀ {kind ctx id name}, V (.look kind ctx id name) → ctx.innermost? name ≠ some false
  super : ∀ {ctx id name}, V (.look .super ctx id name) → name.lexeme = "super" ∧ ctx.Proper

section

variable (distances : Distances)

/-- The machine comes from one configuration to another. -/
def Steps (c c' : Config) : Prop := ∃ n, (step distances)^[n] c = c'

/-- The machine has not ended after `n` steps. -/
def Busy (n : Nat) (c : Config) : Prop := ((step distances)^[n] c).result? = none

/-- The machine follows a run from a configuration on. -/
def Follows {α : Type} (n : Nat) (c : Config) (post : α → Store → Config → Prop) :
    Option (Except RuntimeError α × Store) → Prop
  | none => Busy distances n c
  | some (.ok a, s) => ∃ c', Steps distances c c' ∧ post a s c'
  | some (.error e, s) =>
    ∃ c', Steps distances c c' ∧ c'.control = .signal (.raised e) ∧ c'.world.sink = s.sink

end

variable {distances : Distances} {n : Nat} {c c' : Config}

theorem Steps.trans {c'' : Config} (h : Steps distances c c') (h' : Steps distances c' c'') :
    Steps distances c c'' := by
  obtain ⟨i, rfl⟩ := h
  obtain ⟨j, rfl⟩ := h'
  exact ⟨j + i, Function.iterate_add_apply _ j i c⟩

theorem Busy.mono {k : Nat} (h : Busy distances n c) (hk : k ≤ n) : Busy distances k c := by
  obtain ⟨j, rfl⟩ := Nat.exists_eq_add_of_le hk
  unfold Busy at h ⊢
  -- A run that had ended earlier would still be at its end.
  by_contra hne
  obtain ⟨signal, hres⟩ := Option.ne_none_iff_exists'.1 hne
  rw [Nat.add_comm, Function.iterate_add_apply, iterate_step_of_result? hres, hres] at h
  cases h

/-- A machine that is busy later on is busy now. -/
theorem Busy.steps (h : Busy distances n c') (hs : Steps distances c c') : Busy distances n c := by
  obtain ⟨j, rfl⟩ := hs
  have hbusy : Busy distances (n + j) c := by
    rw [Busy, Function.iterate_add_apply]
    exact h
  exact hbusy.mono (Nat.le_add_right n j)

namespace Follows

variable {α β : Type} {post : α → Store → Config → Prop}
  {r : Option (Except RuntimeError α × Store)}

theorem ok {a : α} {s : Store} (h : post a s c) :
    Follows distances n c post (some (.ok a, s)) :=
  ⟨c, ⟨0, rfl⟩, h⟩

theorem steps (h : Follows distances n c' post r) (hs : Steps distances c c') :
    Follows distances n c post r := by
  rcases r with _ | ⟨_ | a, s⟩
  · exact Busy.steps h hs
  · obtain ⟨c'', hs', hc⟩ := h
    exact ⟨c'', hs.trans hs', hc⟩
  · obtain ⟨c'', hs', hc⟩ := h
    exact ⟨c'', hs.trans hs', hc⟩

/-- A step of the machine inside of a run. -/
theorem step (h : Follows distances n (Machine.step distances c) post r) :
    Follows distances n c post r :=
  h.steps ⟨1, rfl⟩

/-- A step of the machine allows for a larger bound. -/
theorem start (h : Follows distances n (Machine.step distances c) post r) :
    Follows distances (n + 1) c post r := by
  rcases r with _ | ⟨_ | a, s⟩
  · exact h
  · exact Follows.step (n := n) (r := some (.error _, s)) h
  · exact Follows.step (n := n) (r := some (.ok a, s)) h

theorem mono {k : Nat} (h : Follows distances n c post r) (hk : k ≤ n) :
    Follows distances k c post r := by
  rcases r with _ | ⟨_ | a, s⟩
  · exact Busy.mono h hk
  · exact h
  · exact h

theorem imp {post' : α → Store → Config → Prop} (h : Follows distances n c post r)
    (himp : ∀ a s c', post a s c' → post' a s c') : Follows distances n c post' r := by
  rcases r with _ | ⟨_ | a, s⟩
  · exact h
  · exact h
  · obtain ⟨c', hs, hc⟩ := h
    exact ⟨c', hs, himp a s c' hc⟩

/-- One run after another. -/
theorem bind {p : Run α} {f : α → Run β} {s : Store} {post' : β → Store → Config → Prop}
    (h : Follows distances n c post (p s))
    (hf : ∀ a s' c', post a s' c' → Follows distances n c' post' (f a s')) :
    Follows distances n c post' ((p >>= f) s) := by
  simp only [Bind.bind]
  generalize p s = r at h ⊢
  -- A run that gives up or fails takes the rest with it, and so does the machine.
  rcases r with _ | ⟨_ | a, s'⟩
  · exact h
  · exact h
  · obtain ⟨c', hs, hc⟩ := h
    exact (hf a s' c' hc).steps hs

theorem raise {s : Store} (site : Token) (fault : RuntimeFault)
    (hsink : c.world.sink = s.sink) :
    Follows distances n (c.raise site fault) post (Lexical.raise site fault s) :=
  ⟨c.raise site fault, ⟨0, rfl⟩, rfl, hsink⟩

end Follows

/-! ## Results -/

variable {V : Visit → Prop} {m m' : Link} {ctx : Context} {place : Place} {names : Names}
  {env : Env} {stack : List Frame} {s : Store} {w : World} {control : Control}

section

variable (V) (m : Link) (env : Env) (stack : List Frame)

/-- An expression has a value that matches. -/
def Gives (v : Value Names) (s : Store) (c : Config) : Prop :=
  ∃ m' v' w, c = ⟨.signal (.value v'), env, stack, w⟩ ∧ m.Grows none m' ∧ Agree V m' s w ∧
    Matches V m' v v'

/-- A statement is done, and the two stand at one place again, or it returns a value that
matches. -/
def Completes (ctx : Context) (isLocal : Bool) : Completion → Store → Config → Prop
  | .done names, s, c => ∃ m' w, c = ⟨.signal .done, env, stack, w⟩ ∧
    m.Grows (some env.top) m' ∧ Stands m' ctx ⟨names, isLocal⟩ env ∧ Agree V m' s w
  | .returned v, s, c => ∃ m' v' w, c = ⟨.signal (.returned v'), env, stack, w⟩ ∧
    m.Grows (some env.top) m' ∧ Agree V m' s w ∧ Matches V m' v v'

end

/-- The link may be larger than at the beginning. -/
theorem Follows.gives {r : Option (Except RuntimeError (Value Names) × Store)}
    (h : Follows distances n c (Gives V m' env stack) r) (hg : m.Grows none m') :
    Follows distances n c (Gives V m env stack) r := by
  refine h.imp fun v s c' hc => ?_
  obtain ⟨m'', v', w, hc, hg', hag, hv⟩ := hc
  exact ⟨m'', v', w, hc, hg.trans hg', hag, hv⟩

theorem Follows.completes {isLocal : Bool} {r : Option (Except RuntimeError Completion × Store)}
    (h : Follows distances n c (Completes V m' env stack ctx isLocal) r)
    (hg : m.Grows (some env.top) m') :
    Follows distances n c (Completes V m env stack ctx isLocal) r := by
  refine h.imp fun completion s c' hc => ?_
  cases completion with
  | done names =>
    obtain ⟨m'', w, hc, hg', hst, hag⟩ := hc
    exact ⟨m'', w, hc, hg.trans hg', hst, hag⟩
  | returned v =>
    obtain ⟨m'', v', w, hc, hg', hag, hv⟩ := hc
    exact ⟨m'', v', w, hc, hg.trans hg', hag, hv⟩

theorem Agree.give (ha : Agree V m s w) {v : Value Names} {v' : Value} (hv : Matches V m v v') :
    Follows distances n (Config.give ⟨control, env, stack, w⟩ v') (Gives V m env stack)
      (some (.ok v, s)) :=
  .ok ⟨m, v', w, rfl, .refl m, ha, hv⟩

theorem Agree.raise {α : Type} {post : α → Store → Config → Prop} (ha : Agree V m s w)
    (site : Token) (fault : RuntimeFault) :
    Follows distances n (Config.raise ⟨control, env, stack, w⟩ site fault) post
      (Lexical.raise site fault s) :=
  .raise site fault ha.sink.symm

theorem Agree.giveOr (ha : Agree V m s w) (site : Token)
    {r : Except RuntimeFault (Value Names)} {r' : Except RuntimeFault Value}
    (hr : SameResult V m r r') :
    Follows distances n (Config.giveOr ⟨control, env, stack, w⟩ site r') (Gives V m env stack)
      (orRaise site r s) := by
  cases hr with
  | ok hv => exact ha.give hv
  | error fault => exact ha.raise site fault

/-- A declaration is done. -/
theorem Extends.follows {isLocal : Bool} {p : Run Names}
    (h : Extends V m ctx isLocal env w (p s)) :
    Follows distances n (Config.done ⟨control, env, stack, w⟩)
      (Completes V m env stack ctx isLocal) ((.done <$> p) s) := by
  obtain ⟨names, m', s', hres, hg, hst, hag⟩ := h
  have hmap : (Completion.done <$> p) s = some (.ok (.done names), s') := by
    show (p >>= fun a => pure (Completion.done a)) s = _
    simp only [Bind.bind, hres, pure]
  rw [hmap]
  exact .ok ⟨m', w, rfl, hg, hst, hag⟩

/-! ## Names -/

/-- A name is found in its cell exactly if it is found at its distance. -/
theorem Agree.lookUp (hV : Guides V distances) (ha : Agree V m s w)
    (hsees : m.Sees ctx names env) {kind : Look} {id : NodeId} {name : Token}
    (hv : V (.look kind ctx id name)) :
    Option.Rel (Matches V m) (s.get? names name.lexeme)
      (Machine.lookUp distances w.heap env id name.lexeme) := by
  rw [Store.get?, Machine.lookUp, hV.filed hv]
  cases hd : ctx.hops? name.lexeme with
  | none =>
    -- Without a distance the name is global, and both look in the globals alone.
    rw [hsees.free hd]
    have hget : w.heap.get? globalEnv name.lexeme = w.heap.read globalScope name.lexeme :=
      List.findSome?_singleton
    simp only [hget]
    exact ha.globals name.lexeme
  | some d =>
    obtain ⟨c, l, hc, hcell, hl⟩ := hsees.bound hd (hV.ready hv)
    obtain ⟨-, v, v', hcv, hr, hm⟩ := ha.locals hcell
    simp only [hl, hcv, Heap.getAt?, hc, Option.bind_some, hr]
    exact .some hm

/-- A value that is found, or else what comes instead. -/
theorem Agree.giveFound (ha : Agree V m s w) {r : Option (Value Names)} {r' : Option Value}
    {c : Config} {p : Option (Except RuntimeError (Value Names) × Store)} :
    Option.Rel (Matches V m) r r' → Follows distances n c (Gives V m env stack) p →
    Follows distances n
      (match r' with
        | some v => Config.give ⟨control, env, stack, w⟩ v
        | none => c)
      (Gives V m env stack)
      (match r with
        | some v => some (.ok v, s)
        | none => p) := by
  intro hr hnone
  cases hr with
  | none => exact hnone
  | some hm => exact ha.give hm

theorem Agree.read (hV : Guides V distances) (ha : Agree V m s w) (hsees : m.Sees ctx names env)
    {kind : Look} {id : NodeId} {name : Token} (hv : V (.look kind ctx id name)) :
    Follows distances n (Config.read distances ⟨control, env, stack, w⟩ id name)
      (Gives V m env stack) (Lexical.read names name s) :=
  ha.giveFound (ha.lookUp hV hsees hv) (ha.raise name _)

theorem Agree.assign (hV : Guides V distances) (ha : Agree V m s w)
    (hsees : m.Sees ctx names env) {id : NodeId} {name : Token}
    (hlook : V (.look .write ctx id name)) {v : Value Names} {v' : Value}
    (hv : Matches V m v v') :
    Follows distances n (Config.assign distances ⟨control, env, stack, w⟩ id name v')
      (Gives V m env stack) (Lexical.assign names name v s) := by
  unfold Config.assign Lexical.assign Store.get? Store.put
  simp only [Config.heap]
  rw [targetOf, hV.filed hlook]
  cases hd : ctx.hops? name.lexeme with
  | none =>
    rw [hsees.free hd]
    have hglobals := ha.globals name.lexeme
    have hput := ha.put_global name.lexeme hv
    -- The machine asks for the scope of the name, the lexical interpreter for its value.
    have hscope : w.heap.scopeOf? globalEnv name.lexeme =
        if (w.heap.read globalScope name.lexeme).isSome then some globalScope else none :=
      List.find?_singleton
    simp only [hscope]
    generalize s.globals.get? name.lexeme = r at hglobals
    generalize w.heap.read globalScope name.lexeme = r' at hglobals
    cases hglobals with
    | none => exact ha.raise _ _
    | some _ => exact hput.give hv
  | some d =>
    obtain ⟨c, l, hc, hcell, hl⟩ := hsees.bound hd (hV.ready hlook)
    obtain ⟨-, u, u', hu, hr, -⟩ := ha.locals hcell
    have hscope : w.heap.scopeAt? env d name.lexeme = some c :=
      Option.filter_eq_some_iff.2 ⟨hc, w.heap.binds_iff.2 ⟨u', hr⟩⟩
    simp only [hl, hu, hscope]
    exact (ha.put_local hcell hv).give hv

/-- A local name is found in its cell and at its distance. -/
theorem Agree.local? (ha : Agree V m s w) (hsees : m.Sees ctx names env) {x : String} {d : Nat}
    (hd : ctx.hops? x = some d) (hp : ¬Pending ctx x) :
    ∃ v v', s.local? names x = some v ∧ w.heap.getAt? env d x = some v' ∧ Matches V m v v' := by
  obtain ⟨c, l, hc, hcell, hl⟩ := hsees.bound hd hp
  obtain ⟨-, v, v', hv, hr, hm⟩ := ha.locals hcell
  refine ⟨v, v', ?_, ?_, hm⟩
  · rw [Store.local?, hl]
    exact hv
  · rw [Heap.getAt?, hc]
    exact hr

/-! ## Properties -/

theorem Agree.giveMethod (ha : Agree V m s w) {f : Closure Names} {f' : Closure}
    (hf : SameCode V m withThis f f') {i : Nat} {k : Class Names} {k' : Class}
    (hk : SameClass V m k k') :
    Follows distances n (Config.giveMethod ⟨control, env, stack, w⟩ f' ⟨i, k'⟩)
      (Gives V m env stack) (Lexical.boundMethod f ⟨i, k⟩ s) := by
  obtain ⟨v, m', s', hres, hg, hv, hag⟩ := ha.boundMethod hf (i := i) hk
  rw [hres]
  exact .ok ⟨m', _, _, rfl, hg, hag, hv⟩

/-- A method that the class of an object may have. -/
theorem Agree.method (ha : Agree V m s w) (name : Token) {i : Nat} {found k : Class Names}
    {found' k' : Class} (hfound : SameClass V m found found') (hk : SameClass V m k k') :
    Follows distances n
      (match found'.method? name.lexeme with
        | some f => Config.giveMethod ⟨control, env, stack, w⟩ f ⟨i, k'⟩
        | none => Config.raise ⟨control, env, stack, w⟩ name (.undefinedProperty name.lexeme))
      (Gives V m env stack)
      (match found.method? name.lexeme with
        | some f => Lexical.boundMethod f ⟨i, k⟩ s
        | none => Lexical.raise name (.undefinedProperty name.lexeme) s) := by
  have hm := hfound.method? name.lexeme
  generalize found.method? name.lexeme = f at hm
  generalize found'.method? name.lexeme = f' at hm
  cases hm with
  | none => exact ha.raise _ _
  | some hf => exact ha.giveMethod hf hk

theorem Agree.property (ha : Agree V m s w) (name : Token) {v : Value Names} {v' : Value}
    (hv : Matches V m v v') :
    Follows distances n (Config.property ⟨control, env, stack, w⟩ name v') (Gives V m env stack)
      (Lexical.property name v s) := by
  cases hv with
  | object i hk =>
    exact ha.giveFound (ha.fields i name.lexeme) (ha.method name hk hk)
  | _ => exact ha.raise _ _

/-- The scope of `this` lies just inside that of `super`, so that both find the same two. -/
theorem Agree.superMethod (hV : Guides V distances) (ha : Agree V m s w)
    (hsees : m.Sees ctx names env) {id : NodeId} {keyword method : Token}
    (hv : V (.look .super ctx id keyword)) :
    Follows distances n (Config.superMethod distances ⟨control, env, stack, w⟩ id keyword method)
      (Gives V m env stack) (Lexical.superMethod names keyword method s) := by
  obtain ⟨hname, hproper⟩ := hV.super hv
  -- In a method of a class with a superclass, `this` is found one scope before `super`.
  obtain ⟨hops, hthis, hsuper⟩ := hproper.super (hV.clean hv).super
  have hfiled : distances[id]? = some (hops + 1) := by rw [hV.filed hv, hname, hsuper]
  have hpending : ¬Pending ctx "this" := by
    intro h
    obtain ⟨scope, hscope, hlook⟩ := Option.bind_eq_some_iff.1 h
    exact hproper.ready scope (List.mem_of_mem_head? hscope) hlook
  obtain ⟨u, u', hu, hu', hparent⟩ := ha.local? hsees hsuper (hname ▸ hV.ready hv)
  obtain ⟨o, o', ho, ho', hobject⟩ := ha.local? hsees hthis hpending
  unfold Config.superMethod Lexical.superMethod
  simp only [hfiled, hu, ho, Config.heap, hu', Nat.succ_ne_zero, if_false, Nat.add_sub_cancel, ho']
  cases hparent with
  | class_ hk =>
    cases hobject with
    | object i hk' => exact ha.method method hk hk'
    | _ => exact ha.raise _ _
  | _ => exact ha.raise _ _

end Lox.Lexical
