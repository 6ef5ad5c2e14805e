import Lox.Proofs.Session.Timeline

/-!
# Which method is meant

A property of an object is one of its fields or else a method, which is looked for from the class of
the object upwards. A method of `super` is looked for from the superclass of the class in which the
code stands. The machine finds this class at a distance that was filed before the run, and the
object one scope further in, wherever the code has got to by then: in a nested function, in an
inherited method, in a bound method that was stored somewhere.

Main statement: both searches go through the declarations of classes that were executed before
(`Session.dispatches_to_nearest`).
-/

namespace Lox

open Scoping Machine

/-! ## What a search gives -/

/-- The value is the method bound to the object: a function with the code of the method, inside a
scope that has the object as `this` and nothing else. -/
def Value.IsBound (h : Heap) (f : Closure) (o : Object) (v : Value) : Prop :=
  ∃ id t, v = .function id ⟨f.decl, t :: f.env, f.isInitializer⟩ ∧
    h.read t "this" = some (.object o) ∧ ∀ n, n ≠ "this" → h.read t n = none

theorem Heap.isBound_boundMethod (h : Heap) (f : Closure) (o : Object) :
    (h.boundMethod f o).1.IsBound (h.boundMethod f o).2 f o := by
  have hread : ∀ n, (h.boundMethod f o).2.read h.scopes.size n =
      if "this" = n then some (.object o) else none := by
    intro n
    show (h.newScope [("this", .object o)]).2.read h.scopes.size n = _
    rw [Heap.read_newScope, if_pos rfl, Bindings.get?_cons, Bindings.get?_nil]
  refine ⟨_, h.scopes.size, rfl, ?_, fun n hn => ?_⟩
  · rw [hread, if_pos rfl]
  · rw [hread, if_neg hn.symm]

namespace Machine.Config

variable {c : Config} {d : Distances} {o : Object} {name keyword : Token} {rest : List Frame}
  {id : NodeId}

/-- The machine gives what a search for a method has found, bound to the object, or says that there
is no such property. -/
def Answers (c : Config) (o : Object) (name : Token) : Option Closure → Prop
  | some f => ∃ v, c.control = .signal (.value v) ∧ v.IsBound c.heap f o
  | none => c.control = .signal (.raised (.fault name (.undefinedProperty name.lexeme)))

theorem answers_giveMethod (c : Config) (f : Closure) (o : Object) (name : Token) :
    (c.giveMethod f o).Answers o name (some f) :=
  ⟨_, rfl, c.heap.isBound_boundMethod f o⟩

theorem property_field {v : Value} (hv : (c.heap.fieldsOf o).get? name.lexeme = some v) :
    c.property name (.object o) = c.give v := by
  simp only [property, hv]

/-- A property that is no field. -/
theorem answers_property (hnone : (c.heap.fieldsOf o).get? name.lexeme = none) :
    (c.property name (.object o)).Answers o name (o.class_.method? name.lexeme) ∧
      (c.property name (.object o)).stack = c.stack := by
  simp only [property, hnone]
  split
  · next found hfound =>
    rw [hfound]
    exact ⟨c.answers_giveMethod found o name, rfl⟩
  · next hmissing =>
    rw [hmissing]
    exact ⟨rfl, rfl⟩

/-- A method of the superclass, where everything is in its place. -/
theorem answers_superMethod {hops : Nat} {parent : Class} (hd : d[id]? = some (hops + 1))
    (hparent : c.heap.getAt? c.env (hops + 1) "super" = some (.class_ parent))
    (hthis : c.heap.getAt? c.env hops "this" = some (.object o)) :
    (c.superMethod d id keyword name).Answers o name (parent.method? name.lexeme) ∧
      (c.superMethod d id keyword name).stack = c.stack := by
  simp only [superMethod, hd, hparent, Nat.succ_ne_zero, if_false, Nat.add_sub_cancel, hthis]
  split
  · next found hfound =>
    rw [hfound]
    exact ⟨c.answers_giveMethod found o name, rfl⟩
  · next hmissing =>
    rw [hmissing]
    exact ⟨rfl, rfl⟩

/-- The property of an object that the machine is about to look for. -/
def property? (c : Config) : Option (Object × Token) :=
  match c.control, c.stack with
  | .signal (.value (.object o)), .get name :: _ => some (o, name)
  | _, _ => none

theorem exists_of_property? (h : c.property? = some (o, name)) :
    c.control = .signal (.value (.object o)) ∧ ∃ rest, c.stack = .get name :: rest := by
  obtain ⟨control, env, stack, world⟩ := c
  unfold property? at h
  dsimp only at h
  split at h <;> cases h
  exact ⟨rfl, _, rfl⟩

theorem step_get (hcontrol : c.control = .signal (.value (.object o)))
    (hstack : c.stack = .get name :: rest) :
    step d c = { c with stack := rest }.property name (.object o) := by
  obtain ⟨control, env, stack, world⟩ := c
  cases hcontrol
  cases hstack
  rfl

theorem step_super {method : Token} (hcontrol : c.control = .eval (.super id keyword method)) :
    step d c = c.superMethod d id keyword method := by
  obtain ⟨control, env, stack, world⟩ := c
  cases hcontrol
  rfl

end Machine.Config

/-! ## Where `super` finds its class -/

namespace Session

variable {s : Session} {past : Distances → Config → Prop} {source : String} {c : Config}
  {vs ran : List Visit}

/-- The distance on file for a `super` in a method is not more than the number of scopes in
between. -/
theorem Sound.distance_le (h : s.Sound vs ran) {k : Class} {parent : Option Class}
    {methods : List FunctionDecl} (hk : Filed past (OnRecord ran) k parent methods)
    {f : FunctionDecl} (hf : f ∈ methods) {depth : Nat} {id : NodeId}
    (hholds : (Part.function false f).Holds depth id) :
    ∃ hops ≤ depth, s.interpreter.distances[id]? = some (hops + 1) := by
  obtain ⟨ctx, kind, hthis, hfits⟩ := hk.visited f hf
  obtain ⟨ctx', keyword, hnear, hv⟩ := hholds.visited ctx kind
  have hv : Visit.look .super ctx' id keyword ∈ ran := hfits.visited _ hv
  obtain ⟨hclean, hspelled, hproper⟩ := h.regular _ hv
  have hname : keyword.lexeme = "super" := Kind.eq_super_of_ofWord (hspelled _ rfl)
  obtain ⟨hops, hthis', hsuper⟩ := Context.Proper.super hproper hclean.super
  obtain ⟨hops', hle, hnear'⟩ := hnear.hops hthis
  obtain rfl : hops' = hops := Option.some.inj (hnear'.symm.trans hthis')
  exact ⟨hops', hle, (h.filed hv).trans (hname ▸ hsuper)⟩

/-- A `super` at hand: it stands in a method, the machine is in an activation of the method, and the
superclass and the object are where the distance on file says. -/
theorem Timeline.superclass (h : s.Timeline past) (ha : s.Accepts source)
    (hp : s.Passes source c) {id : NodeId} {keyword method : Token}
    (hcontrol : c.control = .eval (.super id keyword method)) :
    ∃ V k parent methods f o depth,
      Filed (s.Before past source c) V k (some parent) methods ∧ f.decl ∈ methods ∧
      (Part.function true f.decl).Holds depth id ∧ c.heap.Activation c.env depth k f o ∧
      (s.loaded source).distances[id]? = some (depth + 1) ∧
      c.heap.getAt? c.env (depth + 1) "super" = some (.class_ parent) ∧
      parent.Stands (Filed (s.Before past source c) V) c.heap := by
  obtain ⟨vs, ran, hsound, hplaced⟩ := h.placed ha hp
  have hload := hsound.load ha
  obtain ⟨hops, w, this, hd, hsuper, hthis⟩ := hsound.findsSuper ha hp id keyword method hcontrol
  have hcode := hplaced.control
  rw [hcontrol] at hcode
  obtain ⟨depth, k, f, o, hactive, hstands, hholds⟩ := hcode .here
  obtain ⟨name, hmethod⟩ := hactive.method
  -- The filed distance leads to the innermost `this`, which is that of the activation.
  obtain ⟨parent?, methods, hD, hlast, -⟩ := hstands.declared hmethod
  obtain ⟨hops', hle, hd'⟩ := hload.distance_le hD hlast.mem hholds
  obtain rfl : hops' = hops := Nat.succ.inj (Option.some.inj (hd'.symm.trans hd))
  obtain rfl : depth = hops' := Nat.le_antisymm (hactive.le_of_getAt? hthis) hle
  obtain ⟨parent, methods, hD, hmem, rfl, hparent⟩ :=
    hstands.superclass hmethod (hactive.getAt?_succ "super" ▸ hsuper)
  exact ⟨_, k, parent, methods, f, o, depth, hD, hmem, hholds.method, hactive, hd, hsuper, hparent⟩

/-- Methods are found where they were declared. At any moment of a session, let the machine look for
a property of an object. It gives the field with this name if the object has one. Otherwise it goes
from the class of the object upwards through the declarations, as they were executed, to the
nearest class with such a method, and gives the last one with the name in its declaration, bound to
the object; without such a class it says that the property is undefined. If the machine is at a
`super`, the code stands in a method of a class that was declared as a subclass, and the machine is
in an activation of this method. The search starts at the superclass that the class got from its
declaration, and what it finds is bound to the object that is `this` in the activation. -/
theorem dispatches_to_nearest (h : s.Timeline past) (ha : s.Accepts source)
    (hp : s.Passes source c) :
    (∀ {o name rest}, c.control = .signal (.value (.object o)) → c.stack = .get name :: rest →
      (∀ v, (c.heap.fieldsOf o).get? name.lexeme = some v →
        step (s.loaded source).distances c =
          { c with control := .signal (.value v), stack := rest }) ∧
      ((c.heap.fieldsOf o).get? name.lexeme = none →
        ∃ found, o.class_.Finds (Declared (s.Before past source c)) name.lexeme found ∧
          (step (s.loaded source).distances c).Answers o name found ∧
          (step (s.loaded source).distances c).stack = rest)) ∧
    ∀ {id keyword method}, c.control = .eval (.super id keyword method) →
      ∃ k parent methods f o depth found,
        Declared (s.Before past source c) k (some parent) methods ∧ f.decl ∈ methods ∧
        (Part.function true f.decl).Holds depth id ∧ c.heap.Activation c.env depth k f o ∧
        c.heap.get? c.env "this" = some (.object o) ∧
        parent.Finds (Declared (s.Before past source c)) method.lexeme found ∧
        (step (s.loaded source).distances c).Answers o method found ∧
        (step (s.loaded source).distances c).stack = c.stack := by
  constructor
  · intro o name rest hcontrol hstack
    rw [Config.step_get hcontrol hstack]
    constructor
    · exact fun v hv => Config.property_field (c := { c with stack := rest }) hv
    · intro hnone
      obtain ⟨vs, ran, -, hplaced⟩ := h.placed ha hp
      -- The object is placed, so its class and the ancestors stand for executed declarations.
      have hclass := hplaced.control
      rw [hcontrol] at hclass
      have hfinds := (Class.Stands.finds hclass name.lexeme).mono fun hk => hk.declared
      obtain ⟨hanswers, hrest⟩ := Config.answers_property (c := { c with stack := rest }) hnone
      exact ⟨_, hfinds, hanswers, hrest⟩
  · intro id keyword method hcontrol
    obtain ⟨V, k, parent, methods, f, o, depth, hD, hmem, hholds, hactive, hd, hsuper, hparent⟩ :=
      h.superclass ha hp hcontrol
    rw [Config.step_super hcontrol]
    -- The method is looked for in the superclass, and bound to the object of the activation.
    obtain ⟨hanswers, hstack⟩ := Config.answers_superMethod hd hsuper hactive.getAt?_this
    exact ⟨k, parent, methods, f, o, depth, _, hD.declared, hmem, hholds, hactive,
      hactive.get?_this, (hparent.finds method.lexeme).mono fun hk => hk.declared, hanswers, hstack⟩

/-- A method stores a function that has a `super`, under the very name of the superclass. When the
function is called, the method has returned. -/
theorem dispatches_to_nearest_after_return :
    let source :=
      "{ class A { m() {} } class B < A { m() { fun f() { super.m; } A = f; } } B().m(); A(); }"
    let name : Token := ⟨.identifier, "m", none, 1⟩
    let distances := (still.loaded source).distances
    still.Accepts source ∧
      (∃ c o rest found, still.Passes source c ∧ c.control = .signal (.value (.object o)) ∧
        c.stack = .get name :: rest ∧
        o.class_.Finds (Declared (still.Before (fun _ _ => False) source c)) "m" found ∧
        (step distances c).Answers o name found) ∧
      ∃ c keyword, still.Passes source c ∧ c.control = .eval (.super 1 keyword name) ∧
        c.env = [5, 4, 3, 2, 1, 0] ∧ ∃ k parent methods f o depth found,
          Declared (still.Before (fun _ _ => False) source c) k (some parent) methods ∧
          f.decl ∈ methods ∧ c.heap.Activation c.env depth k f o ∧
          parent.Finds (Declared (still.Before (fun _ _ => False) source c)) "m" found ∧
          (step distances c).Answers o name found := by
  intro source name distances
  have ha : still.Accepts source := accepts_iff.2 ⟨rfl, by decide +kernel⟩
  have htime : still.Timeline fun _ _ => False := .new {} fun _ => 0
  refine ⟨ha, ?_, ?_⟩
  -- After 14 steps the property `m` of the new object is asked for.
  · have hmoment : (still.moment? source 14).bind (fun c => c.property?.map fun p =>
        (p.2, ((c.heap.fieldsOf p.1).get? p.2.lexeme).isNone)) = some (name, true) := by
      decide +kernel
    obtain ⟨c, hc, hat⟩ := Option.bind_eq_some_iff.1 hmoment
    obtain ⟨⟨o, site⟩, hproperty, hfield⟩ := Option.map_eq_some_iff.1 hat
    obtain ⟨rfl, hnone⟩ := Prod.mk.inj hfield
    obtain ⟨hcontrol, rest, hstack⟩ := Config.exists_of_property? hproperty
    have hp := passes_of_moment? hc
    obtain ⟨found, hfinds, hanswers, -⟩ :=
      ((dispatches_to_nearest htime ha hp).1 hcontrol hstack).2 (Option.isNone_iff_eq_none.1 hnone)
    exact ⟨c, o, rest, found, hp, hcontrol, hstack, hfinds, hanswers⟩
  -- After 34 steps `f` runs under the name `A`, and the call of `m` has long returned.
  · have hmoment : (still.moment? source 34).map (fun c => (c.super?, c.env)) =
        some (some (1, name), [5, 4, 3, 2, 1, 0]) := by decide +kernel
    obtain ⟨c, hc, hat⟩ := Option.map_eq_some_iff.1 hmoment
    obtain ⟨hsuper, henv⟩ := Prod.mk.inj hat
    obtain ⟨keyword, hcontrol⟩ := Config.exists_of_super? hsuper
    have hp := passes_of_moment? hc
    obtain ⟨k, parent, methods, f, o, depth, found, hk, hmem, -, hactive, -, hfinds, hanswers, -⟩ :=
      (dispatches_to_nearest htime ha hp).2 hcontrol
    exact ⟨c, keyword, hp, hcontrol, henv, k, parent, methods, f, o, depth, found, hk, hmem,
      hactive, hfinds, hanswers⟩

end Session

end Lox
