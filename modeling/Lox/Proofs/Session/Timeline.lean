import Lox.Proofs.Machine.Activations
import Lox.Proofs.Session.InternalFaults

/-!
# What was before

A class stays what it was when its declaration was executed, and a bound method keeps its object.
Such statements relate two moments, and the earlier of them may lie in an earlier source. This
module puts the moments of a session in order (`Interpreter.Precedes`, `Session.Timeline`,
`Session.Before`).

Main statements: at each moment methods are with their classes and objects, and the classes were
declared before (`Session.Timeline.placed`). The receivers of a moment are still there later on
(`Session.Timeline.keeps`).
-/

namespace Lox

open Scoping Machine

/-! ## Declarations on record -/

/-- A name that a new scope has. -/
theorem Scoping.Context.hops?_enter_add (ctx : Context) (name : String) :
    (ctx.enter.add name true).hops? name = some 0 := by
  have hscopes : ctx.enter.scopes = [] :: ctx.scopes := rfl
  simp [hops?, add_scopes_cons hscopes, List.findIdx?_cons]

namespace Machine

/-- At one of the moments a class was declared with this superclass and these methods. -/
def Declared (past : Distances → Config → Prop) (k : Class) (parent : Option Class)
    (methods : List FunctionDecl) : Prop :=
  ∃ d c, past d c ∧ c.Declares k parent methods

/-- The same, and the check of scopes has visited the methods just inside the scope of `this`. -/
structure Filed (past : Distances → Config → Prop) (V : Visit → Prop) (k : Class)
    (parent : Option Class) (methods : List FunctionDecl) : Prop where
  declared : Declared past k parent methods
  visited : ∀ f ∈ methods, ∃ (ctx : Context) (kind : FunctionContext),
    ctx.hops? "this" = some 0 ∧ f.Fits V ctx kind

variable {past past' : Distances → Config → Prop} {V W : Visit → Prop} {d : Distances} {c : Config}
  {k : Class} {parent : Option Class} {methods : List FunctionDecl}

theorem Filed.mono (h : Filed past V k parent methods) (hpast : ∀ d c, past d c → past' d c)
    (hVW : ∀ v, V v → W v) : Filed past' W k parent methods := by
  obtain ⟨⟨d, c, hc, hdeclares⟩, hvisited⟩ := h
  refine ⟨⟨d, c, hpast d c hc, hdeclares⟩, fun f hf => ?_⟩
  obtain ⟨ctx, kind, hthis, hfits⟩ := hvisited f hf
  exact ⟨ctx, kind, hthis, hfits.mono hVW⟩

/-- A class that waits for its superclass. -/
theorem StackFits.superclass {h : Heap} {task : Task} {ctx : Context} {env : Env}
    {name site : Token} {rest : List Frame}
    (hst : StackFits V h task ctx env (.superclass name site methods :: rest)) :
    ∀ f ∈ methods, ∃ outer : Context,
      f.Fits V (outer.enter.add "this" true) (methodContext f.name) := by
  obtain _ | ⟨hframe, -⟩ := hst
  cases hframe with
  | superclass _ hm => exact fun f hf => ⟨_, hm f hf⟩

/-- What the machine declares has been visited. -/
theorem Config.Declares.filed (h : c.Declares k parent methods) (hfits : c.Fits V)
    (hc : past d c) : Filed past V k parent methods := by
  refine ⟨⟨d, c, hc, h⟩, fun f hf => ?_⟩
  cases h with
  | @root name _ hcontrol =>
    rw [Config.Fits, hcontrol] at hfits
    obtain ⟨ctx, -, hstmt⟩ := hfits
    exact ⟨_, _, Context.hops?_enter_add _ _, hstmt.classDecl.2 f hf⟩
  | @heir name site _ rest parent hcontrol hstack =>
    rw [Config.Fits, hcontrol] at hfits
    obtain ⟨ctx, hat, -⟩ := hfits
    obtain ⟨outer, hm⟩ := StackFits.superclass (hstack ▸ hat.stack) f hf
    exact ⟨_, _, outer.hops?_enter_add _, hm⟩

end Machine

/-! ## Runs of statements -/

/-- The statement holds no `super`, other than in classes declared there. -/
def Stmt.Bare (s : Stmt) : Prop := ∀ {n id}, ¬(Part.stmt s).Holds n id

namespace Interpreter

variable {D : Class → Option Class → List FunctionDecl → Prop} {h h' : Heap}
  {i i' j : Interpreter} {s : Stmt} {ss : List Stmt} {c c₁ : Config} {fuel fuel' : Nat}
  {signal signal' : Signal}

/-- Two moments through which the execution of statements passes, the first not after the
second. -/
inductive Precedes : Interpreter → List Stmt → Config → Config → Prop
  | within {i : Interpreter} {s : Stmt} {rest : List Stmt} {m n : Nat} : m ≤ n →
      Precedes i (s :: rest) ((step i.distances)^[m] (i.start (.exec s)))
        ((step i.distances)^[n] (i.start (.exec s)))
  | across {i i' : Interpreter} {s : Stmt} {rest : List Stmt} {fuel : Nat} {signal : Signal}
      {c : Config} (m : Nat) :
      i.execute fuel s = some (signal, i') → (∀ e, signal ≠ .raised e) → Passes i' rest c →
      Precedes i (s :: rest) ((step i.distances)^[m] (i.start (.exec s))) c
  | later {i i' : Interpreter} {s : Stmt} {rest : List Stmt} {fuel : Nat} {signal : Signal}
      {c₁ c : Config} :
      i.execute fuel s = some (signal, i') → (∀ e, signal ≠ .raised e) →
      Precedes i' rest c₁ c → Precedes i (s :: rest) c₁ c

/-- A run goes on from a moment to later ones. -/
theorem Passes.precedes (hp : i.Passes ss c) (m : Nat) :
    i.Precedes ss c ((step i.distances)^[m] c) := by
  induction hp with
  | here n =>
    rw [← Function.iterate_add_apply]
    exact .within (Nat.le_add_left n m)
  | later he hne _ ih => exact .later he hne ((execute_eq_some he).1 ▸ ih)

theorem Precedes.first (hp : i.Precedes ss c₁ c) : i.Passes ss c₁ := by
  induction hp with
  | within _ => exact .here _
  | across m _ _ _ => exact .here m
  | later he hne _ ih => exact .later he hne ih

theorem Precedes.second (hp : i.Precedes ss c₁ c) : i.Passes ss c := by
  induction hp with
  | within _ => exact .here _
  | across _ he hne hp => exact .later he hne hp
  | later he hne _ ih => exact .later he hne ih

theorem Passes.next (hp : i.Passes ss c) : i.Passes ss (step i.distances c) :=
  (hp.precedes 1).second

/-- A moment that comes before another one is followed by one that is not after it. -/
theorem Precedes.next (hp : i.Precedes ss c₁ c) (hne : c₁ ≠ c) :
    i.Precedes ss (step i.distances c₁) c := by
  induction hp with
  | @within i s rest m n hle =>
    have hlt : m < n := Nat.lt_of_le_of_ne hle fun heq => hne (heq ▸ rfl)
    rw [← Function.iterate_succ_apply' (step i.distances)]
    exact .within hlt
  | @across i i' s rest fuel signal c m he hraised hp =>
    rw [← Function.iterate_succ_apply' (step i.distances)]
    exact .across (m + 1) he hraised hp
  | later he hraised _ ih => exact .later he hraised ((execute_eq_some he).1 ▸ ih hne)

/-- A statement has one outcome, whatever the fuel. -/
theorem execute_unique (he : i.execute fuel s = some (signal, i'))
    (he' : i.execute fuel' s = some (signal', j)) : signal' = signal ∧ j = i' := by
  have hmax := execute_mono he (Nat.le_max_left fuel fuel')
  rw [execute_mono he' (Nat.le_max_right fuel fuel')] at hmax
  exact Prod.mk.inj (Option.some.inj hmax)

/-- An interpreter in whose heap methods are with their classes and objects, and the receivers of
the heap `h` stay. -/
structure Placed (D : Class → Option Class → List FunctionDecl → Prop) (h : Heap)
    (i : Interpreter) : Prop where
  heap : i.world.heap.Placed D
  keeps : h.Keeps i.world.heap
  env : i.env.Open i.world.heap

namespace Placed

theorem rebase (hi : i.Placed D h) (hk : h'.Keeps i.world.heap) : i.Placed D h' :=
  ⟨hi.heap, hk, hi.env⟩

theorem start (hi : i.Placed D h) (hs : s.Bare) : (i.start (.exec s)).Placed D h :=
  ⟨⟨hi.heap, hi.keeps, hi.env⟩, fun _ _ hholds => absurd hholds hs⟩

/-- After a statement the receivers of all its moments are there. -/
theorem execute (hi : i.Placed D h) (hs : s.Bare)
    (ho : ∀ n, ((step i.distances)^[n] (i.start (.exec s))).Orderly D)
    (he : i.execute fuel s = some (signal, i')) (m : Nat) :
    i'.Placed D h ∧ ((step i.distances)^[m] (i.start (.exec s))).heap.Keeps i'.world.heap := by
  obtain ⟨-, n, c, hc, hres, henv, hworld⟩ := execute_eq_some he
  -- A run that has ended stays as it is, so the end is also `n` steps after the moment `m`.
  have hend : (step i.distances)^[n + m] (i.start (.exec s)) = c := by
    rw [Nat.add_comm, Function.iterate_add_apply, hc, iterate_step_of_result? hres]
  have hstart : (i.start (.exec s)).Placed D h := hi.start hs
  have hplaced : c.Placed D h := hend ▸ hstart.iterate fun k _ => ho k
  have hbase : c.Placed D ((step i.distances)^[m] (i.start (.exec s))).heap := by
    rw [← hend, Function.iterate_add_apply]
    refine Config.Placed.iterate (hstart.iterate fun k _ => ho k).rebase fun k _ => ?_
    rw [← Function.iterate_add_apply]
    exact ho (k + m)
  have hopen := hplaced.stack.open
  exact ⟨⟨hworld ▸ hplaced.heap, hworld ▸ hplaced.keeps, by rwa [henv, hworld]⟩,
    hworld ▸ hbase.keeps⟩

/-- At every moment of a run methods are with their classes and objects, as long as all moments up
to there are orderly. -/
theorem passes (hi : i.Placed D h) (hss : ∀ s ∈ ss, s.Bare) (hp : i.Passes ss c)
    (ho : ∀ c', i.Precedes ss c' c → c'.Orderly D) : c.Placed D h := by
  induction hp with
  | here n =>
    exact (hi.start (hss _ List.mem_cons_self)).iterate fun m hm => ho _ (.within (Nat.le_of_lt hm))
  | later he hne hp ih =>
    obtain ⟨hs, hrest⟩ := List.forall_mem_cons.1 hss
    have hnext := (hi.execute hs (fun m => ho _ (.across m he hne hp)) he 0).1
    exact ih hnext hrest fun c' hc' => ho c' (.later he hne hc')

/-- What is a receiver at a moment stays one. -/
theorem precedes (hi : i.Placed D h) (hss : ∀ s ∈ ss, s.Bare) (hp : i.Precedes ss c₁ c)
    (ho : ∀ c', i.Precedes ss c' c → c'.Orderly D) : c₁.heap.Keeps c.heap := by
  induction hp with
  | @within i s rest m n hle =>
    have hfirst : ((step i.distances)^[m] (i.start (.exec s))).Placed D h :=
      (hi.start (hss _ List.mem_cons_self)).iterate fun k hk =>
        ho _ (.within (Nat.le_trans (Nat.le_of_lt hk) hle))
    obtain ⟨k, rfl⟩ := Nat.exists_eq_add_of_le' hle
    rw [Function.iterate_add_apply]
    refine (Config.Placed.iterate hfirst.rebase fun l hl => ?_).keeps
    rw [← Function.iterate_add_apply]
    exact ho _ (.within (Nat.add_le_add_right (Nat.le_of_lt hl) m))
  | across m he hne hp =>
    obtain ⟨hs, hrest⟩ := List.forall_mem_cons.1 hss
    obtain ⟨hnext, hkeeps⟩ := hi.execute hs (fun m => ho _ (.across m he hne hp)) he m
    exact ((hnext.rebase hkeeps).passes hrest hp fun c' hc' => ho c' (.later he hne hc')).keeps
  | later he hne hp ih =>
    obtain ⟨hs, hrest⟩ := List.forall_mem_cons.1 hss
    have hnext := (hi.execute hs (fun m => ho _ (.across m he hne hp.second)) he 0).1
    exact ih hnext hrest fun c' hc' => ho c' (.later he hne hc')

/-- After a run the receivers of all its moments are there. -/
theorem interpret (hi : i.Placed D h) (hss : ∀ s ∈ ss, s.Bare)
    (ho : ∀ c, i.Passes ss c → c.Orderly D) {error : Option RuntimeError}
    (hrun : i.interpret fuel ss = some (error, i')) :
    i'.Placed D h ∧ ∀ c, i.Passes ss c → c.heap.Keeps i'.world.heap := by
  induction ss generalizing i h with
  | nil =>
    obtain ⟨-, rfl⟩ := Prod.mk.inj (Option.some.inj hrun)
    refine ⟨hi, fun c hp => ?_⟩
    cases hp
  | cons s rest ih =>
    obtain ⟨hs, hrest⟩ := List.forall_mem_cons.1 hss
    rcases interpret_cons hrun with ⟨e, i₁, he, heq⟩ | ⟨signal, i₁, he, hne, hinterpret⟩
    · obtain ⟨-, rfl⟩ := Prod.mk.inj heq
      have hend := hi.execute hs (fun m => ho _ (.here m)) he
      refine ⟨(hend 0).1, fun c hp => ?_⟩
      cases hp with
      | here m => exact (hend m).2
      | later he' hne' _ => exact absurd (execute_unique he he').1 (hne' e)
    · have hend := hi.execute hs (fun m => ho _ (.here m)) he
      have hlater : ∀ c, i₁.Passes rest c → c.Orderly D := fun c hp => ho c (.later he hne hp)
      obtain ⟨hi', hkeeps⟩ := ih (hend 0).1 hrest hlater hinterpret
      refine ⟨hi', fun c hp => ?_⟩
      cases hp with
      | here m => exact (ih ((hend 0).1.rebase (hend m).2) hrest hlater hinterpret).1.keeps
      | later he' _ hp =>
        obtain ⟨-, rfl⟩ := execute_unique he he'
        exact hkeeps c hp

end Placed

/-- The code stays like itself along a run. -/
theorem Passes.alike {N : NodeId → NodeId → Prop} {T : Likeness} (hi : i.Alike N T i)
    (hd : ∀ id id', N id id' → i.distances[id']? = i.distances[id]?) (hss : Stmt.AlikeAll N T ss ss)
    (hp : i.Passes ss c) : c.Alike N T c := by
  induction hp with
  | here n =>
    cases hss with
    | cons hs _ => exact (hi.start hs).iterate hd n
  | @later i i' s rest fuel signal c he _ _ ih =>
    cases hss with
    | cons hs hrest =>
      have hexec := hi.execute hd hs fuel
      rw [he] at hexec
      cases hexec with
      | some hr => exact ih hr.2 ((execute_eq_some he).1 ▸ hd) hrest

end Interpreter

/-! ## Sessions -/

namespace Session

/-- The moments of a source that a session runs, each with the distances that the machine goes
by. -/
def Runs (s : Session) (source : String) (d : Distances) (c : Config) : Prop :=
  s.Accepts source ∧ d = (s.loaded source).distances ∧ s.Passes source c

/-- A session that has come to where it is through sources and resets, and the moments of all
sources that it has run. -/
inductive Timeline : Session → (Distances → Config → Prop) → Prop
  | new (sink : Sink) (clock : Nat → Float) : Timeline (new sink clock) fun _ _ => False
  | run {s s' : Session} {past : Distances → Config → Prop} {fuel : Nat} {source : String}
      {t : Transcript} :
      Timeline s past → s.run fuel source = some (s', t) →
      Timeline s' fun d c => past d c ∨ s.Runs source d c
  | reset {s : Session} {past : Distances → Config → Prop} :
      Timeline s past → Timeline s.reset past

/-- The moments up to one at which a session runs a source. -/
def Before (s : Session) (past : Distances → Config → Prop) (source : String) (c : Config)
    (d₁ : Distances) (c₁ : Config) : Prop :=
  past d₁ c₁ ∨ d₁ = (s.loaded source).distances ∧
    (s.loaded source).Precedes (s.parsed source).statements c₁ c

variable {s s' : Session} {past past' : Distances → Config → Prop} {source : String}
  {d d₁ : Distances} {c c₁ : Config} {vs ran : List Visit} {earlier : List String}

theorem Timeline.reached (h : s.Timeline past) : ∃ earlier, s.Reached earlier := by
  induction h with
  | new sink clock => exact ⟨[], .new sink clock⟩
  | run _ hrun ih =>
    obtain ⟨earlier, hs⟩ := ih
    exact ⟨_, hs.run hrun⟩
  | reset _ ih =>
    obtain ⟨earlier, hs⟩ := ih
    exact ⟨earlier, hs.reset⟩

/-- Each moment of the past is one at which an earlier session ran a source. -/
theorem Timeline.runs (h : s.Timeline past) (hc : past d c) :
    ∃ s₁ past₁ source₁, Timeline s₁ past₁ ∧ s₁.Runs source₁ d c := by
  induction h with
  | new sink clock => exact hc.elim
  | @run s _ past _ source _ h _ ih =>
    rcases hc with hc | hc
    · exact ih hc
    · exact ⟨s, past, source, h, hc⟩
  | reset _ ih => exact ih hc

/-- After each moment of the past there was a next one. -/
theorem Timeline.next (h : s.Timeline past) (hc : past d c) : past d (step d c) := by
  induction h with
  | new sink clock => exact hc
  | run _ _ ih =>
    rcases hc with hc | ⟨ha, rfl, hp⟩
    · exact .inl (ih hc)
    · exact .inr ⟨ha, rfl, hp.next⟩
  | reset _ ih => exact ih hc

theorem Timeline.before_runs (h : s.Timeline past) (ha : s.Accepts source)
    (hc : s.Before past source c d₁ c₁) :
    ∃ s₁ past₁ source₁, Timeline s₁ past₁ ∧ s₁.Runs source₁ d₁ c₁ := by
  rcases hc with hc | ⟨rfl, hc⟩
  · exact h.runs hc
  · exact ⟨s, past, source, h, ha, rfl, hc.first⟩

theorem Timeline.before_next (h : s.Timeline past) (hc : s.Before past source c d₁ c₁)
    (hne : c₁ ≠ c) : s.Before past source c d₁ (step d₁ c₁) := by
  rcases hc with hc | ⟨rfl, hc⟩
  · exact .inl (h.next hc)
  · exact .inr ⟨rfl, hc.next hne⟩

/-- A `super` outside all classes is an offence. -/
theorem Accepts.bare (ha : s.Accepts source) : ∀ st ∈ (s.parsed source).statements, st.Bare := by
  intro st hst n id hholds
  obtain ⟨names, hsub⟩ := Stmt.exists_visits_subset hst Context.top
  obtain ⟨ctx, keyword, hnear, hv⟩ := hholds.visited (Context.top.defineAll names)
  have hmem : Visit.look .super ctx id keyword ∈ s.visits source := by
    rw [visits_of_checks ha.1]
    exact hsub hv
  have hclass := (ha.regular _ hmem).clean.super
  rw [hnear.class_, (Context.Near.defineAll Context.top names).class_] at hclass
  cases hclass

/-- Each moment at which an accepted source runs is orderly. -/
theorem Sound.orderly (h : s.Sound vs ran) (hr : s.Reached earlier) (ha : s.Accepts source)
    (hp : s.Passes source c) (hc : past d c) :
    c.Orderly (Filed past (OnRecord (ran ++ s.visits source))) := by
  obtain ⟨N, hinterpreter, hd, hcode⟩ := hr.spelled ha
  have hfits := h.passes ha hp
  refine ⟨⟨N, c, Interpreter.Passes.alike hinterpreter hd hcode hp⟩,
    fun hdeclares => hdeclares.filed hfits hc, fun hcontrol => ?_⟩
  rw [Config.Fits, hcontrol] at hfits
  obtain ⟨ctx, -, hstmt⟩ := hfits
  obtain ⟨-, id, parent, hvar, -⟩ := hstmt.superclass
  exact ⟨id, parent, hvar⟩

/-- Between two sources: the classes in the heap were declared in the past, and the receivers of
the past are still there. -/
structure Remembers (s : Session) (past : Distances → Config → Prop) (ran : List Visit) :
    Prop where
  sound : ∃ vs, s.Sound vs ran
  placed : s.interpreter.Placed (Filed past (OnRecord ran)) s.interpreter.world.heap
  keeps : ∀ d c, past d c → c.heap.Keeps s.interpreter.world.heap

namespace Remembers

theorem new (sink : Sink) (clock : Nat → Float) :
    (Session.new sink clock).Remembers (fun _ _ => False) [] := by
  refine ⟨⟨[], .new sink clock⟩, ⟨⟨?_, ?_⟩, .refl _, ?_⟩, fun _ _ hc => hc.elim⟩
  · intro scope n v hr
    obtain rfl := Interpreter.eq_of_read_new hr
    trivial
  · intro o n v hr
    cases hr
  · exact Heap.empty.plain_newScope (b := Interpreter.builtins) rfl rfl

/-- The interpreter that is about to run a source. -/
theorem load (h : s.Remembers past ran) (source : String)
    (hpast : ∀ d c, past d c → past' d c) :
    (s.loaded source).Placed (Filed past' (OnRecord (ran ++ s.visits source)))
      s.interpreter.world.heap := by
  have hsub : ran ⊆ ran ++ s.visits source := List.subset_append_left _ _
  exact ⟨h.placed.heap.mono fun hk => hk.mono hpast fun _ => OnRecord.mono hsub, h.placed.keeps,
    h.placed.env⟩

theorem run (h : s.Remembers past ran) (hr : s.Reached earlier) {fuel : Nat} {t : Transcript}
    (hrun : s.run fuel source = some (s', t)) :
    ∃ ran', s'.Remembers (fun d c => past d c ∨ s.Runs source d c) ran' := by
  obtain ⟨vs, hsound⟩ := h.sound
  by_cases ha : s.Accepts source
  · have hload : (s.loaded source).Placed
        (Filed (fun d c => past d c ∨ s.Runs source d c) (OnRecord (ran ++ s.visits source)))
        s.interpreter.world.heap := h.load source fun _ _ => .inl
    have hsound' := hsound.run_accepted ha hrun
    obtain ⟨error, i, hi, rfl, -⟩ := ha.run_eq_some hrun
    obtain ⟨hplaced, hkeeps⟩ := hload.interpret ha.bare
      (fun c hp => hsound.orderly hr ha hp (.inr ⟨ha, rfl, hp⟩)) hi
    refine ⟨_, ⟨_, hsound'⟩, hplaced.rebase (.refl _), ?_⟩
    rintro d c (hc | ⟨-, -, hp⟩)
    · exact (h.keeps d c hc).trans hplaced.keeps
    · exact hkeeps c hp
  · obtain ⟨hsound', hworld, henv⟩ := hsound.run_rejected ha hrun
    refine ⟨ran, ⟨_, hsound'⟩, ⟨?_, .refl _, ?_⟩, ?_⟩
    · rw [hworld]
      exact h.placed.heap.mono fun hk => hk.mono (fun _ _ => .inl) fun _ hv => hv
    · rw [hworld, henv]
      exact h.placed.env
    · rintro d c (hc | ⟨ha', -⟩)
      · rw [hworld]
        exact h.keeps d c hc
      · exact absurd ha' ha

theorem reset (h : s.Remembers past ran) : s.reset.Remembers past ran := by
  obtain ⟨vs, hs⟩ := h.sound
  exact ⟨⟨vs, hs.fresh, hs.unfiled, hs.subset, hs.regular, hs.filed, hs.rests⟩, h.placed, h.keeps⟩

end Remembers

theorem Timeline.remembers (h : s.Timeline past) : ∃ ran, s.Remembers past ran := by
  induction h with
  | new sink clock => exact ⟨[], .new sink clock⟩
  | run h hrun ih =>
    obtain ⟨ran, hs⟩ := ih
    obtain ⟨earlier, hr⟩ := h.reached
    exact hs.run hr hrun
  | reset _ ih =>
    obtain ⟨ran, hs⟩ := ih
    exact ⟨ran, hs.reset⟩

/-- The interpreter that is about to run a source, up to one of its moments. -/
theorem Timeline.loaded (h : s.Timeline past) (ha : s.Accepts source) (c : Config) :
    ∃ vs ran, s.Sound vs ran ∧
      (s.loaded source).Placed (Filed (s.Before past source c) (OnRecord (ran ++ s.visits source)))
        s.interpreter.world.heap ∧
      ∀ c', (s.loaded source).Precedes (s.parsed source).statements c' c →
        c'.Orderly (Filed (s.Before past source c) (OnRecord (ran ++ s.visits source))) := by
  obtain ⟨ran, hs⟩ := h.remembers
  obtain ⟨earlier, hr⟩ := h.reached
  obtain ⟨vs, hsound⟩ := hs.sound
  refine ⟨vs, ran, hsound, hs.load source fun _ _ => .inl, fun c' hc' => ?_⟩
  exact hsound.orderly hr ha hc'.first (.inr ⟨rfl, hc'⟩)

/-- At each moment methods are with their classes and objects, and the classes were declared before
and visited by the check. -/
theorem Timeline.placed (h : s.Timeline past) (ha : s.Accepts source) (hp : s.Passes source c) :
    ∃ vs ran, s.Sound vs ran ∧
      c.Placed (Filed (s.Before past source c) (OnRecord (ran ++ s.visits source)))
        s.interpreter.world.heap := by
  obtain ⟨vs, ran, hsound, hload, horderly⟩ := h.loaded ha c
  exact ⟨vs, ran, hsound, hload.passes ha.bare hp horderly⟩

/-- The receivers of a moment stay where they are. -/
theorem Timeline.keeps (h : s.Timeline past) (ha : s.Accepts source)
    (hp : s.Passes source c) (hc : s.Before past source c d₁ c₁) : c₁.heap.Keeps c.heap := by
  obtain ⟨vs, ran, -, hload, horderly⟩ := h.loaded ha c
  rcases hc with hc | ⟨-, hc⟩
  · obtain ⟨ran', hs⟩ := h.remembers
    exact (hs.keeps d₁ c₁ hc).trans (hload.passes ha.bare hp horderly).keeps
  · exact hload.precedes ha.bare hc horderly

end Session

end Lox
