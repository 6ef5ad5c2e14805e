import Lox.Proofs.Machine.Calls
import Lox.Proofs.Session.Dispatch
import Lox.Proofs.Session.WellFounded

/-!
# Initializers give their objects

A class that is called makes an object and runs the initializer on it, if there is one. An
initializer may return early, call other initializers, store its object anywhere and assign to
names, and yet what a call of it gives is the object that it is bound to. The machine reads the
object back from the scope around the initializer, after everything has been done, so it matters
that nothing can happen to `this` (`Heap.Keeps`).

Main statement: `Session.initializers_give_objects`.
-/

namespace Lox

open Scoping Machine

/-- The class that a value is. -/
def Value.class? : Value → Option Class
  | .class_ k => some k
  | _ => none

theorem Value.eq_of_class? {v : Value} {k : Class} (h : v.class? = some k) : v = .class_ k := by
  unfold Value.class? at h
  split at h <;> cases h
  rfl

theorem Machine.Signal.ne_raised_of_error? {s : Signal} (h : s.error? = none) (e : RuntimeError) :
    s ≠ .raised e := by
  rintro rfl
  cases h

namespace Machine.Config

variable {c : Config} {d : Distances} {o : Object} {v : Value} {name : String}

/-- There is no such object, and nothing refers to one: neither a scope nor a field, nor anything
else that the machine has got. -/
structure Lacks (c : Config) (o : Object) : Prop where
  absent : c.heap.fields[o.id]? = none
  scopes : ∀ {scope n o'}, c.heap.read scope n = some (.object o') → o'.id ≠ o.id
  fields : ∀ {owner n o'}, (c.heap.fieldsOf owner).get? n = some (.object o') → o'.id ≠ o.id
  layout : ∃ l : Layout, c.In l ∧ l.objects ≤ o.id

theorem In.lacks {l : Layout} (h : c.In l) (ho : c.heap.fields.size ≤ o.id) : c.Lacks o := by
  rw [h.heap.fields_size] at ho
  -- All objects that are laid out have smaller ids than the number of objects.
  refine ⟨?_, fun hr => ?_, fun hr => ?_, l, h, ho⟩
  · exact Array.getElem?_eq_none (h.heap.fields_size ▸ ho)
  · have hin : Object.In l _ := h.heap.scopes hr
    exact Nat.ne_of_lt (Nat.lt_of_lt_of_le hin.id_lt ho)
  · have hin : Object.In l _ := h.heap.fields hr
    exact Nat.ne_of_lt (Nat.lt_of_lt_of_le hin.id_lt ho)

variable (d c) in
/-- The machine gives a method of an object that it has found under a name: as a property that is
no field, or with `super`. -/
inductive Obtains (name : String) (o : Object) (v : Value) : Prop
  | property {site : Token} {rest : List Frame} :
      site.lexeme = name → c.control = .signal (.value (.object o)) → c.stack = .get site :: rest →
      (c.heap.fieldsOf o).get? name = none → (step d c).control = .signal (.value v) →
      Obtains name o v
  | super {id : NodeId} {keyword method : Token} :
      method.lexeme = name → c.control = .eval (.super id keyword method) →
      c.heap.get? c.env "this" = some (.object o) → (step d c).control = .signal (.value v) →
      Obtains name o v

/-- A search that gives a value has found a method. -/
theorem Answers.isBound {site : Token} {found : Option Closure} (h : c.Answers o site found)
    (hcontrol : c.control = .signal (.value v)) : ∃ f, found = some f ∧ v.IsBound c.heap f o := by
  cases found with
  | none =>
    rw [Answers, hcontrol] at h
    cases h
  | some f =>
    obtain ⟨w, hw, hbound⟩ := h
    rw [hcontrol] at hw
    cases hw
    exact ⟨f, rfl, hbound⟩

theorem Obtains.not_calls {d' : Distances} (h : c.Obtains d' name o v) {callee : Value}
    {arguments : List Value} {rest : List Frame} : ¬c.Calls callee arguments rest := by
  intro hcalls
  cases h with
  | property _ _ hstack _ _ =>
    cases hcalls with
    | plain _ hstack' => cases hstack.symm.trans hstack'
    | applied _ hstack' => cases hstack.symm.trans hstack'
  | super _ hcontrol _ _ =>
    cases hcalls with
    | plain hcontrol' _ => cases hcontrol.symm.trans hcontrol'
    | applied hcontrol' _ => cases hcontrol.symm.trans hcontrol'

end Machine.Config

namespace Session

variable {s : Session} {past : Distances → Config → Prop} {source : String} {c : Config}
  {o : Object} {v : Value} {name : String}

/-- A method that a program gets hold of is bound to its object, and it is an initializer by its
name. -/
theorem Timeline.isBound (h : s.Timeline past) (ha : s.Accepts source) (hp : s.Passes source c)
    (hv : c.Obtains (s.loaded source).distances name o v) :
    ∃ f, v.IsBound (step (s.loaded source).distances c).heap f o ∧
      f.isInitializer = decide (name = "init") := by
  cases hv with
  | @property site rest hname hcontrol hstack hnone hgives =>
    subst hname
    obtain ⟨vs, ran, -, hplaced⟩ := h.placed ha hp
    have hclass := hplaced.control
    rw [hcontrol] at hclass
    rw [Config.step_get hcontrol hstack] at hgives ⊢
    obtain ⟨hanswers, -⟩ := Config.answers_property (c := { c with stack := rest }) hnone
    obtain ⟨f, hf, hbound⟩ := hanswers.isBound hgives
    exact ⟨f, hbound, Class.Stands.isInitializer hclass hf⟩
  | super hname hcontrol hthis hgives =>
    subst hname
    obtain ⟨V, k, parent, methods, g, o', depth, -, -, -, hactive, hd, hsuper, hparent⟩ :=
      h.superclass ha hp hcontrol
    obtain rfl : o' = o := by
      have heq := hactive.get?_this.symm.trans hthis
      cases heq
      rfl
    rw [Config.step_super hcontrol] at hgives ⊢
    obtain ⟨hanswers, -⟩ := Config.answers_superMethod hd hsuper hactive.getAt?_this
    obtain ⟨f, hf, hbound⟩ := hanswers.isBound hgives
    exact ⟨f, hbound, hparent.isInitializer hf⟩

/-- Initializers give their objects. At any moment of a session, let the machine call a class. If
the call comes back without an error, it gives an object of exactly this class, and before the call
there was no such object. Or let the machine call a value that it obtained at an earlier moment
under the name `init`, as a method of an object and not as a field. If the call comes back without
an error, it gives this very object. -/
theorem initializers_give_objects (h : s.Timeline past) (ha : s.Accepts source)
    (hp : s.Passes source c) :
    (∀ {k arguments rest n signal}, c.Calls (.class_ k) arguments rest →
      c.ComesBack (s.loaded source).distances rest n signal → (∀ e, signal ≠ .raised e) →
      ∃ o, signal = .value (.object o) ∧ o.class_ = k ∧ c.Lacks o) ∧
    ∀ {d₁ c₁ o v arguments rest n signal}, s.Before past source c d₁ c₁ →
      c₁.Obtains d₁ "init" o v → c.Calls v arguments rest →
      c.ComesBack (s.loaded source).distances rest n signal → (∀ e, signal ≠ .raised e) →
      signal = .value (.object o) := by
  constructor
  · intro k arguments rest n signal hcalls hback herror
    rcases hback.outcome hcalls with ⟨w, rfl⟩ | ⟨e, rfl⟩
    · obtain rfl := hback.instance_of hcalls
      obtain ⟨earlier, hr⟩ := h.reached
      obtain ⟨l, -, hin⟩ := Moment.layout hr (.running ha hp)
      exact ⟨_, rfl, rfl, hin.lacks (Nat.le_refl _)⟩
    · exact absurd rfl (herror e)
  · intro d₁ c₁ o v arguments rest n signal hbefore hv hcalls hback herror
    rcases hback.outcome hcalls with ⟨w, rfl⟩ | ⟨e, rfl⟩
    · obtain ⟨s₁, past₁, source₁, h₁, ha₁, rfl, hp₁⟩ := h.before_runs ha hbefore
      obtain ⟨f, ⟨id, t, rfl, hthis, -⟩, hinit⟩ := h₁.isBound ha₁ hp₁ hv
      let code : Closure := ⟨f.decl, t :: f.env, f.isInitializer⟩
      have hcode : code.isInitializer = true := hinit
      obtain ⟨m, -, hread⟩ := hback.initializer hcode hcalls
      -- A moment at which a method is obtained is none at which a call is made.
      have hne : c₁ ≠ c := by
        rintro rfl
        exact hv.not_calls hcalls
      -- The object is in its scope from the moment of binding to the end of the call.
      have hrun := hp.precedes m
      have hkeeps := (h.keeps ha hp (h.before_next hbefore hne)).trans
        (h.keeps ha hrun.second (.inr ⟨rfl, hrun⟩))
      have hthis' := hkeeps.this hthis
      exact congrArg Signal.value (Option.some.inj (hread.symm.trans hthis'))
    · exact absurd rfl (herror e)

theorem moment?_succ (s : Session) (source : String) (n : Nat) :
    s.moment? source (n + 1) =
      (s.moment? source n).map (step (s.loaded source).distances) := by
  simp only [moment?, Option.map_map, Function.comp_def, Function.iterate_succ_apply']

/-- A class is called whose initializer calls that of the superclass, which returns early. Then the
initializer of the new object is called once more. -/
theorem initializers_give_objects_early :
    let source :=
      "{ class A { init() { return; } } class B < A { init() { super.init(); } } B().init(); }"
    let distances := (still.loaded source).distances
    still.Accepts source ∧
      (∃ c k rest n o, still.Passes source c ∧ c.Calls (.class_ k) [] rest ∧
        c.ComesBack distances rest n (.value (.object o)) ∧ o.class_ = k ∧ c.Lacks o) ∧
      ∃ c₁ c o v rest n, still.Passes source c ∧
        still.Before (fun _ _ => False) source c distances c₁ ∧
        c₁.Obtains distances "init" o v ∧ c.Calls v [] rest ∧
        c.ComesBack distances rest n (.value (.object o)) := by
  intro source distances
  have ha : still.Accepts source := accepts_iff.2 ⟨rfl, by decide +kernel⟩
  have htime : still.Timeline fun _ _ => False := .new {} fun _ => 0
  refine ⟨ha, ?_, ?_⟩
  -- After 13 steps the class `B` is called.
  · have hmoment : (still.moment? source 13).bind (fun c => c.call?.bind fun p =>
        p.1.class?.bind fun k =>
          (Machine.run distances 20 (c.alone.call (.class_ k) p.2 [])).map (·.1.error?)) =
        some none := by decide +kernel
    obtain ⟨c, hc, hat⟩ := Option.bind_eq_some_iff.1 hmoment
    obtain ⟨⟨v, paren⟩, hcall, hat⟩ := Option.bind_eq_some_iff.1 hat
    obtain ⟨k, hk, hat⟩ := Option.bind_eq_some_iff.1 hat
    obtain ⟨⟨signal, e⟩, hrun, herror⟩ := Option.map_eq_some_iff.1 hat
    obtain rfl := Value.eq_of_class? hk
    have hp := passes_of_moment? hc
    obtain ⟨rest, n, hcalls, hback⟩ := Config.comesBack_of_call? hcall hrun
    obtain ⟨o, rfl, hclass, hlacks⟩ := (initializers_give_objects htime ha hp).1 hcalls hback
      (Signal.ne_raised_of_error? herror)
    exact ⟨c, k, rest, n, o, hp, hcalls, hback, hclass, hlacks⟩
  -- After 27 steps `init` is asked for, and with the next step it is called.
  · have hfirst : (still.moment? source 27).bind (fun c => c.property?.map fun p =>
        (p.2.lexeme, ((c.heap.fieldsOf p.1).get? "init").isNone)) = some ("init", true) := by
      decide +kernel
    have hmoment : (still.moment? source 28).bind (fun c => c.call?.bind fun p =>
        (Machine.run distances 20 (c.alone.call p.1 p.2 [])).map (·.1.error?)) = some none := by
      decide +kernel
    obtain ⟨c₁, hc₁, hat₁⟩ := Option.bind_eq_some_iff.1 hfirst
    obtain ⟨⟨o, site⟩, hproperty, hfield⟩ := Option.map_eq_some_iff.1 hat₁
    obtain ⟨hname, hnone⟩ := Prod.mk.inj hfield
    obtain ⟨hcontrol₁, rest₁, hstack₁⟩ := Config.exists_of_property? hproperty
    obtain ⟨c, hc, hat⟩ := Option.bind_eq_some_iff.1 hmoment
    obtain ⟨⟨v, paren⟩, hcall, hat⟩ := Option.bind_eq_some_iff.1 hat
    obtain ⟨⟨signal, e⟩, hrun, herror⟩ := Option.map_eq_some_iff.1 hat
    obtain rfl : step distances c₁ = c := by
      rw [moment?_succ, hc₁] at hc
      exact Option.some.inj hc
    have hp := passes_of_moment? hc
    have hbefore : still.Before (fun _ _ => False) source (step distances c₁) distances c₁ :=
      .inr ⟨rfl, (passes_of_moment? hc₁).precedes 1⟩
    have hv : c₁.Obtains distances "init" o v :=
      .property hname hcontrol₁ hstack₁ (Option.isNone_iff_eq_none.1 hnone)
        (Config.exists_of_call? hcall).1
    obtain ⟨rest, n, hcalls, hback⟩ := Config.comesBack_of_call? hcall hrun
    obtain rfl := (initializers_give_objects htime ha hp).2 hbefore hv hcalls hback
      (Signal.ne_raised_of_error? herror)
    exact ⟨c₁, _, o, v, rest, n, hp, hbefore, hv, hcalls, hback⟩

end Session

end Lox
