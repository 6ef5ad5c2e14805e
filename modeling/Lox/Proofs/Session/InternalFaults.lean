import Lox.Proofs.Machine.Receivers
import Lox.Proofs.Session.Alike
import Lox.Proofs.Session.Lookup
import Lox.Proofs.Token.Segments

/-!
# Faults that no session can come to

Some errors of the lexer, the grammar and the machine guard against what other parts already rule
out. Numbers and strings of a source have values. Operators are those of the grammar. The check of
scopes rejects every `super` outside a subclass, and where it stands in one, the static scopes say
that the superclass and the object are in their places. Initializers are bound whenever a program
gets hold of them.

Main statement: `Session.no_internal_faults`.
-/

namespace Lox

open Scoping Machine

/-- An error that no source can cause. -/
def StaticError.isInternal : StaticError → Bool
  | .lexical ⟨_, .invalidNumber _⟩ => true
  | .grammar ⟨_, .malformedLiteral⟩ => true
  | .lexical _ | .grammar _ | .scoping _ => false

/-! ## Static errors -/

/-- Numbers and strings among the tokens have values. -/
def Likeness.valued : Likeness :=
  .on fun t => t.kind = .number ∨ t.kind = .string → t.literal.isSome

theorem parse_fault (source : String) {e : GrammarError}
    (h : e ∈ (parse 0 (Lexer.tokens (scan source))).errors) : e.fault ≠ .malformedLiteral := by
  have hvalued : List.Forall₂ Likeness.valued.rel (programTokens (Lexer.tokens (scan source)))
      (programTokens (Lexer.tokens (scan source))) :=
    List.forall₂_same.2 fun t ht =>
      ⟨rfl, fun hk => scan_literal source ((List.takeWhile_sublist _).subset ht) hk⟩
  -- A closing token is neither a number nor a string.
  let C : Correspondence := ⟨.valued, fun t _ => t.kind = .eof, AnyNode, fun _ => trivial⟩
  have halike := List.forall₂_same.1
    (parse_alike C hvalued (closingToken_kind _) 0 0 trivial).2.1 e h
  intro hfault
  obtain ⟨hk, hnone⟩ := halike.malformed hfault
  rcases halike.site with hrel | hend
  · have hsome := hrel.2 hk
    rw [hnone] at hsome
    cases hsome
  · rcases hk with hk | hk <;> cases hk.symm.trans hend

namespace Session

variable {s s' : Session} {vs ran : List Visit} {source : String} {earlier : List String}
  {c : Config}

theorem syntaxErrors_isInternal (source : String) :
    ∀ e ∈ syntaxErrors source, e.isInternal = false := by
  refine List.forall_mem_append.2 ⟨?_, ?_⟩
  · refine List.forall_mem_map.2 fun e he => ?_
    have hfault := scan_fault source he
    obtain ⟨line, fault⟩ := e
    cases fault with
    | invalidNumber text => exact absurd rfl (hfault text)
    | _ => rfl
  · refine List.forall_mem_map.2 fun e he => ?_
    have hfault := parse_fault source he
    obtain ⟨site, fault⟩ := e
    cases fault with
    | malformedLiteral => exact absurd rfl hfault
    | _ => rfl

theorem errors_isInternal {fuel : Nat} {t : Transcript} (h : s.run fuel source = some (s', t)) :
    ∀ e ∈ t.errors, e.isInternal = false := by
  by_cases hc : s.Checks source
  · rw [run_of_checks hc] at h
    split at h
    · obtain ⟨r, -, hr⟩ := Option.map_eq_some_iff.1 h
      obtain ⟨-, rfl⟩ := Prod.mk.inj hr
      exact List.forall_mem_nil _
    · obtain ⟨-, rfl⟩ := Prod.mk.inj (Option.some.inj h)
      exact List.forall_mem_map.2 fun _ _ => rfl
  · rw [run_of_syntaxErrors hc] at h
    obtain ⟨-, rfl⟩ := Prod.mk.inj (Option.some.inj h)
    exact syntaxErrors_isInternal source

/-! ## What `super` finds -/

theorem exists_getAt? {h : Heap} {env : Env} {d : Nat} {name : String}
    (hb : ∃ s, env[d]? = some s ∧ h.binds s name) : ∃ v, h.getAt? env d name = some v := by
  obtain ⟨s, hs, hb⟩ := hb
  obtain ⟨v, hread⟩ := h.binds_iff.1 hb
  exact ⟨v, Option.bind_eq_some_iff.2 ⟨s, hs, hread⟩⟩

/-- Wherever a source comes to `super`, the superclass and the object are in their places. -/
theorem Sound.findsSuper (h : s.Sound vs ran) (ha : s.Accepts source) (hp : s.Passes source c) :
    c.FindsSuper (s.loaded source).distances := by
  intro id keyword method hc
  have hload := h.load ha
  have hfits := h.passes ha hp
  rw [Config.Fits, hc] at hfits
  obtain ⟨ctx, hat, hfit⟩ := hfits
  have hrecord := Expr.fits_super.1 hfit
  have hv : Visit.look .super ctx id keyword ∈ ran ++ s.visits source := hrecord
  obtain ⟨hclean, hspelled, hproper⟩ := hload.regular _ hv
  have hname : keyword.lexeme = "super" := Kind.eq_super_of_ofWord (hspelled _ rfl)
  obtain ⟨hops, hthis, hsuper⟩ := Context.Proper.super hproper hclean.super
  rw [← hname] at hsuper
  -- `super` is not in the innermost scope, and `this` is ready wherever it is.
  have hready : ctx.innermost? keyword ≠ some false := by
    intro hfalse
    have hzero := Context.hops?_of_innermost? hfalse
    rw [hsuper] at hzero
    cases hzero
  have hready' : ctx.innermost? ⟨.thisWord, "this", none, 0⟩ ≠ some false := by
    intro hfalse
    obtain ⟨scope, hscope, hlook⟩ := Option.bind_eq_some_iff.1 hfalse
    exact Context.Proper.ready hproper scope (List.mem_of_mem_head? hscope) hlook
  obtain ⟨parent, hparent⟩ := exists_getAt? (hat.place.bound hsuper hready)
  obtain ⟨this, hthis⟩ := exists_getAt? (hat.place.bound hthis hready')
  exact ⟨hops, parent, this, (hload.filed hv).trans hsuper, hname ▸ hparent, hthis⟩

end Session

/-! ## Runs -/

namespace Interpreter

variable {i i' : Interpreter} {N : NodeId → NodeId → Prop} {ss : List Stmt} {c : Config}

/-- An interpreter that has run statements rests where it started or at a moment of the run, and an
error that it gives was raised at one. -/
theorem Passes.of_interpret {fuel : Nat} {error : Option RuntimeError}
    (h : i.interpret fuel ss = some (error, i')) :
    (i' = i ∨ ∃ c, i.Passes ss c ∧ i'.world = c.world) ∧
      ∀ site cause, error = some (.fault site cause) →
        ∃ c, i.Passes ss c ∧ c.control = .signal (.raised (.fault site cause)) := by
  induction ss generalizing i with
  | nil =>
    obtain ⟨rfl, rfl⟩ := Prod.mk.inj (Option.some.inj h)
    refine ⟨.inl rfl, fun site cause herror => ?_⟩
    obtain ⟨fault, -, hfault⟩ := Option.map_eq_some_iff.1 herror
    cases hfault
  | cons s ss ih =>
    rcases interpret_cons h with ⟨e, j, he, heq⟩ | ⟨signal, j, he, hne, hinterpret⟩
    · obtain ⟨rfl, rfl⟩ := Prod.mk.inj heq
      obtain ⟨-, n, c, rfl, hres, -, hworld⟩ := execute_eq_some he
      refine ⟨.inr ⟨_, .here n, hworld⟩, fun site cause herror => ⟨_, .here n, ?_⟩⟩
      cases herror
      exact (Config.result?_eq_some.1 hres).1
    · obtain ⟨hrest, herror⟩ := ih hinterpret
      obtain ⟨-, n, c, rfl, -, -, hworld⟩ := execute_eq_some he
      refine ⟨.inr ?_, fun site cause hfault => ?_⟩
      · rcases hrest with rfl | ⟨c, hp, hworld'⟩
        · exact ⟨_, .here n, hworld⟩
        · exact ⟨c, .later he hne hp, hworld'⟩
      · obtain ⟨c, hp, hc⟩ := herror site cause hfault
        exact ⟨c, .later he hne hp, hc⟩

/-- At no moment of a run is an internal fault raised. -/
theorem Passes.sane (hi : i.world.heap.Tied) (hcode : i.Alike N .spelled i)
    (hd : ∀ id id', N id id' → i.distances[id']? = i.distances[id]?)
    (hs : Stmt.AlikeAll N .spelled ss ss)
    (hsuper : ∀ c, i.Passes ss c → c.FindsSuper i.distances) (hp : i.Passes ss c) : c.Sane := by
  have hstart : ∀ {i : Interpreter} {s : Stmt}, i.world.heap.Tied → (i.start (.exec s)).Sane :=
    fun hi => ⟨⟨hi, List.forall_mem_nil _⟩, trivial⟩
  induction hp with
  | @here i s rest n =>
    cases hs with
    | cons hhead _ =>
      exact (hstart hi).iterate (hcode.start hhead) hd (fun m => hsuper _ (.here m)) n
  | @later i i' s rest fuel signal c he hne _ ih =>
    cases hs with
    | cons hhead hrest =>
      obtain ⟨hdistances, n, c', hc', -, -, hworld⟩ := execute_eq_some he
      have hend := (hstart (s := s) hi).iterate (hcode.start hhead) hd
        (fun m => hsuper _ (.here m)) n
      rw [hc'] at hend
      have hexec := hcode.execute hd hhead fuel
      rw [he] at hexec
      cases hexec with
      | some hr =>
        refine ih (hworld ▸ hend.heap) hr.2 (hdistances ▸ hd) hrest fun c hc => ?_
        rw [hdistances]
        exact hsuper c (.later he hne hc)

end Interpreter

namespace Session

variable {s s' : Session} {source : String} {earlier : List String} {c : Config}

theorem Reached.history (h : s.Reached earlier) : ∃ vs, s.History vs := by
  induction h with
  | new sink clock => exact ⟨[], .new sink clock⟩
  | run _ hrun ih =>
    obtain ⟨vs, hs⟩ := ih
    exact ⟨_, hs.run hrun⟩
  | reset _ ih =>
    obtain ⟨vs, hs⟩ := ih
    exact ⟨vs, hs.reset⟩

theorem reads_spelled (source : String) : Reads .spelled source :=
  fun t ht => ⟨rfl, scan_spelled source t ht⟩

/-- The code of a session and of a source that it accepts is spelled as the kinds of its words say.
-/
theorem Reached.spelled (h : s.Reached earlier) (ha : s.Accepts source) :
    ∃ N, (s.loaded source).Alike N .spelled (s.loaded source) ∧
      (∀ id id', N id id' →
        (s.loaded source).distances[id']? = (s.loaded source).distances[id]?) ∧
      Stmt.AlikeAll N .spelled (s.parsed source).statements (s.parsed source).statements := by
  have hself : s.Alike .spelled s := h.alike fun source _ => reads_spelled source
  have hfiled : (s.filed source).Alike .spelled (s.filed source) :=
    hself.extend (extends_filed hself.unfiled _ _ _) (extends_filed hself.unfiled _ _ _) rfl rfl
  have hcode : Stmt.AlikeAll ((s.filed source).SameNode (s.filed source)) .spelled
      (s.parsed source).statements (s.parsed source).statements :=
    ((reads_spelled source).parsed_alike s s).refine
      (visitsMatch ha ha hself.unfiled hself.unfiled) Context.top (List.Subset.refl _)
      (List.Subset.refl _)
  exact ⟨_, hfiled.interpreter, fun _ _ hid => hid.2.2, hcode⟩

/-- At no moment of a source is an internal fault raised, from a heap that is in order. -/
theorem Reached.sane (h : s.Reached earlier) (ht : s.interpreter.world.heap.Tied)
    (ha : s.Accepts source) (hp : s.Passes source c) : c.Sane := by
  obtain ⟨vs, hs⟩ := h.history
  obtain ⟨ran, hsound⟩ := hs.sound
  obtain ⟨N, hinterpreter, hd, hcode⟩ := h.spelled ha
  exact Interpreter.Passes.sane (i := s.loaded source) ht hinterpreter hd hcode
    (fun c hc => hsound.findsSuper ha hc) hp

theorem tied_new (sink : Sink) (clock : Nat → Float) :
    (new sink clock).interpreter.world.heap.Tied := by
  have hempty : Heap.empty.Tied :=
    ⟨fun hr => by simp [Heap.read, Heap.empty] at hr, fun hr => by cases hr⟩
  have hclock : Kind.ofWord "clock" = .identifier := by decide
  exact (hempty.newScope_single (Value.suits_of_identifier hclock (.builtin .clock)) trivial).tied

/-- Between two sources the heap of a session is in order. -/
theorem Reached.tied (h : s.Reached earlier) : s.interpreter.world.heap.Tied := by
  induction h with
  | new sink clock => exact tied_new sink clock
  | @run s s' earlier fuel source t h hrun ih =>
    by_cases ha : s.Accepts source
    · obtain ⟨error, i, hi, rfl, -⟩ := ha.run_eq_some hrun
      rcases (Interpreter.Passes.of_interpret hi).1 with rfl | ⟨c, hp, hworld⟩
      · exact ih
      · have hsane := h.sane ih ha hp
        exact hworld ▸ hsane.heap
    · obtain ⟨rfl, -⟩ := run_eq_some_of_not_accepts ha hrun
      exact ih
  | reset _ ih => exact ih

theorem Reached.raised (h : s.Reached earlier) (ha : s.Accepts source) (hp : s.Passes source c)
    {site : Token} {cause : RuntimeFault}
    (hc : c.control = .signal (.raised (.fault site cause))) : cause.isInternal = false := by
  have hsane := (h.sane h.tied ha hp).control
  rwa [hc] at hsane

/-- Internal faults are out of reach. Whatever a session has come through and whatever source it is
given, it reports no number that cannot be read and no literal without a value, and at no moment of
the run is a fault raised that no program can cause: an operator that is none, a `super` without a
class, without a method or bound to something else than a class, or an initializer without an
object. -/
theorem no_internal_faults (h : s.Reached earlier) (source : String) :
    (∀ fuel s' t, s.run fuel source = some (s', t) →
      (∀ e ∈ t.errors, e.isInternal = false) ∧
        ∀ site cause, t.runtimeError = some (.fault site cause) → cause.isInternal = false) ∧
    (s.Accepts source → ∀ c, s.Passes source c → ∀ site cause,
      c.control = .signal (.raised (.fault site cause)) → cause.isInternal = false) := by
  refine ⟨fun fuel s' t hrun => ⟨errors_isInternal hrun, fun site cause hfault => ?_⟩,
    fun ha c hp site cause hc => h.raised ha hp hc⟩
  by_cases ha : s.Accepts source
  · rw [run_of_accepts ha] at hrun
    obtain ⟨⟨error, i⟩, hi, hend⟩ := Option.map_eq_some_iff.1 hrun
    obtain ⟨-, rfl⟩ := Prod.mk.inj hend
    obtain ⟨c, hp, hc⟩ := (Interpreter.Passes.of_interpret hi).2 site cause hfault
    exact h.raised ha hp hc
  · -- A source that is not run has no runtime error.
    by_cases hc : s.Checks source
    · rw [run_of_checks hc, if_neg fun ho => ha ⟨hc, ho⟩] at hrun
      obtain ⟨-, rfl⟩ := Prod.mk.inj (Option.some.inj hrun)
      cases hfault
    · rw [run_of_syntaxErrors hc] at hrun
      obtain ⟨-, rfl⟩ := Prod.mk.inj (Option.some.inj hrun)
      cases hfault

/-- A subclass calls the initializer of its superclass, which does not end well. -/
theorem no_internal_faults_super :
    let source :=
      "{ class A { init() { -this; } } class B < A { init() { super.init(); } } B(); }"
    still.Accepts source ∧
      (∃ c, still.Passes source c ∧ ∃ keyword method,
        c.control = .eval (.super 2 keyword method)) ∧
      (still.run 60 source).map (·.2.runtimeError) =
        some (some (.fault ⟨.minus, "-", none, 1⟩ .operandNotNumber)) ∧
      ∀ c, still.Passes source c → ∀ site cause,
        c.control = .signal (.raised (.fault site cause)) → cause.isInternal = false := by
  intro source
  have ha : still.Accepts source := accepts_iff.2 ⟨rfl, by decide +kernel⟩
  have hmoment : (still.moment? source 15).map Config.super? =
      some (some (2, ⟨.identifier, "init", none, 1⟩)) := by decide +kernel
  obtain ⟨c, hc, hsuper⟩ := Option.map_eq_some_iff.1 hmoment
  obtain ⟨keyword, hcontrol⟩ := Config.exists_of_super? hsuper
  exact ⟨ha, ⟨c, passes_of_moment? hc, keyword, _, hcontrol⟩, by decide +kernel,
    (no_internal_faults (Reached.new {} fun _ => 0) source).2 ha⟩

end Session

end Lox
