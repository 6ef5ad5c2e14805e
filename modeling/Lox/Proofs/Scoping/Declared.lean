import Lox.Interpreter
import Lox.Proofs.Scoping.Distances
import Lox.Proofs.Scoping.Offences
import Lox.Proofs.Scoping.Supers
import Lox.Proofs.Tree.Nodes

/-!
# Scopes by position

The scopes around a place can be read off the program without a walk through it: blocks and
functions have one each, and a class puts one with `this` around its methods and, if it has a
superclass, one with `super` around that (`Trail.scopes`). A block or a function has the names that
are declared in it up to the place. A declaration counts from the inside of its own statement on, so
a variable counts in its initializer, and a function and a class in their bodies.

The check of scopes has a context instead, which it changes on the way. It comes to every part of a
program in one context (`Trail.context`), and the names in its scopes are those that the place has
(`Context.Shows`). So what is filed for a node is the number of scopes between the node and the
nearest one that has its name.

Main statement: `distances_match_scopes`.
-/

namespace Lox

open Scoping

/-! ## Scopes -/

namespace Part

/-- The names that parts declare, one after another. -/
def declaredNames (parts : List Part) : List Token := parts.flatMap fun p => p.declares?.toList

/-- The scopes that a part puts around its part at index `i`, innermost first, each with the names
that it has there. -/
def scopes : Part → Nat → List (List String)
  | stmt (.block statements), i =>
    [(declaredNames ((stmt (.block statements)).parts.take (i + 1))).map Token.lexeme]
  | function isMethod f, i =>
    [(declaredNames ((function isMethod f).parts.take (i + 1))).map Token.lexeme]
  | stmt (.classDecl _ superclass _), i =>
    if i < superclass.toList.length then []
    else ["this"] :: superclass.toList.map fun _ => ["super"]
  | _, _ => []

end Part

namespace Trail

/-- The scopes around a place, innermost first. -/
def scopes (trail : Trail) : List (List String) := trail.flatMap fun entry => entry.1.scopes entry.2

/-- The innermost scope around the place that has the name is the one at index `d`. -/
def Declares (trail : Trail) (name : String) (d : Nat) : Prop :=
  ∃ names, trail.scopes[d]? = some names ∧ name ∈ names ∧
    ∀ k < d, ∀ others, trail.scopes[k]? = some others → name ∉ others

end Trail

namespace Scoping

/-- The static scope has exactly the names. -/
def StaticScope.Has (scope : StaticScope) (names : List String) : Prop :=
  ∀ name, (scope.lookup name).isSome ↔ name ∈ names

/-- The scopes of the context have exactly the names. -/
def Context.Shows (ctx : Context) (scopes : List (List String)) : Prop :=
  List.Forall₂ StaticScope.Has ctx.scopes scopes

theorem StaticScope.isSome_lookup_cons (scope : StaticScope) (name : String) (ready : Bool)
    (other : String) :
    (((name, ready) :: scope).lookup other).isSome ↔
      other = name ∨ (scope.lookup other).isSome := by
  by_cases heq : other = name
  · simp [heq]
  · have hb : (other == name) = false := beq_false_of_ne heq
    simp [List.lookup_cons, hb, heq]

theorem StaticScope.has_nil : StaticScope.Has [] [] := fun _ => by simp

theorem StaticScope.Has.cons {scope : StaticScope} {names : List String} (h : scope.Has names)
    (name : String) (ready : Bool) :
    StaticScope.Has ((name, ready) :: scope) (names ++ [name]) := by
  intro other
  rw [isSome_lookup_cons, h other, List.mem_append, List.mem_singleton, or_comm]

namespace Context

variable {ctx : Context} {scopes : List (List String)}

/-- Names defined in the innermost scope. -/
theorem Shows.defineAll {names : List String} {outer : List (List String)}
    (h : ctx.Shows (names :: outer)) (more : List Token) :
    (ctx.defineAll more).Shows ((names ++ more.map Token.lexeme) :: outer) := by
  induction more generalizing ctx names with
  | nil =>
    rw [List.map_nil, List.append_nil]
    exact h
  | cons name rest ih =>
    have hadd : (ctx.define name).Shows ((names ++ [name.lexeme]) :: outer) := by
      obtain ⟨scope, below, hscope, hbelow, hctx⟩ := List.forall₂_cons_right_iff.1 h
      rw [Shows, Context.define, add_scopes_cons hctx]
      exact .cons (hscope.cons _ _) hbelow
    have hrest := ih hadd
    rw [List.append_assoc] at hrest
    exact hrest

theorem Shows.enter (h : ctx.Shows scopes) : ctx.enter.Shows ([] :: scopes) :=
  .cons StaticScope.has_nil h

/-- A name counts whether it is ready or not. -/
theorem Shows.declare {name : Token} (h : (ctx.define name).Shows scopes) :
    (ctx.declare name).Shows scopes := by
  -- On the outermost level nothing is added, by either of the two.
  cases hs : ctx.scopes with
  | nil =>
    rw [Shows, Context.declare, add_scopes_nil hs]
    rwa [Shows, Context.define, add_scopes_nil hs] at h
  | cons scope outer =>
    rw [Shows, Context.define, add_scopes_cons hs] at h
    rw [Shows, Context.declare, add_scopes_cons hs]
    cases h with
    | cons hscope houter =>
      refine .cons (fun other => ?_) houter
      rw [← hscope other, StaticScope.isSome_lookup_cons, StaticScope.isSome_lookup_cons]

theorem Shows.methods (h : ctx.Shows scopes) (superclass : Option Expr) :
    (ctx.methods superclass.isSome).Shows
      ((["this"] :: superclass.toList.map fun _ => ["super"]) ++ scopes) := by
  have hone (name : String) : StaticScope.Has [(name, true)] [name] :=
    StaticScope.has_nil.cons name true
  cases superclass with
  | none => exact .cons (hone "this") h
  | some e => exact .cons (hone "this") (.cons (hone "super") h)

/-- The innermost scope with a name is the same on both sides. -/
theorem Shows.hops?_eq (h : ctx.Shows scopes) (name : String) :
    ctx.hops? name = scopes.findIdx? fun names => name ∈ names := by
  unfold hops?
  unfold Shows at h
  generalize ctx.scopes = inner at h
  induction h with
  | nil => rfl
  | @cons scope names inner scopes hscope _ ih =>
    have hboth : (scope.lookup name).isSome = decide (name ∈ names) := by
      rw [Bool.eq_iff_iff, hscope name, decide_eq_true_iff]
    rw [List.findIdx?_cons, List.findIdx?_cons, ih, hboth]

theorem Shows.hops?_eq_none_iff (h : ctx.Shows scopes) (name : String) :
    ctx.hops? name = none ↔ ∀ names ∈ scopes, name ∉ names := by
  simp [h.hops?_eq]

theorem Shows.hops?_eq_some_iff (h : ctx.Shows scopes) (name : String) (d : Nat) :
    ctx.hops? name = some d ↔ ∃ names, scopes[d]? = some names ∧ name ∈ names ∧
      ∀ k < d, ∀ others, scopes[k]? = some others → name ∉ others := by
  rw [h.hops?_eq, List.findIdx?_eq_some_iff_getElem]
  constructor
  · rintro ⟨hd, hmem, hfirst⟩
    refine ⟨scopes[d], List.getElem?_eq_getElem hd, by simpa using hmem, fun k hk others ho => ?_⟩
    obtain ⟨hlt, rfl⟩ := List.getElem?_eq_some_iff.1 ho
    simpa using hfirst k hk
  · rintro ⟨names, hnames, hmem, hfirst⟩
    obtain ⟨hd, rfl⟩ := List.getElem?_eq_some_iff.1 hnames
    refine ⟨hd, by simpa using hmem, fun k hk => ?_⟩
    simpa using hfirst k hk _ (List.getElem?_eq_getElem (Nat.lt_trans hk hd))

end Context

/-! ## Contexts -/

end Scoping

namespace Part

/-- The context in which the check of scopes comes to the part at index `i` of an owner, if it comes
to the owner in the given one. -/
def contextAt (ctx : Context) : Part → Nat → Context
  | program statements, i => ctx.defineAll (declaredNames ((program statements).parts.take i))
  | stmt (.block statements), i =>
    ctx.enter.defineAll (declaredNames ((stmt (.block statements)).parts.take i))
  | stmt (.varDecl name _), _ => ctx.declare name
  | stmt (.funDecl f), _ => ctx.define f.name
  | stmt (.classDecl name superclass _), i =>
    let inner := { ctx.define name with class_ := .of (some superclass) }
    if i < superclass.toList.length then inner else inner.methods superclass.isSome
  | function isMethod f, i =>
    (ctx.call (.of (some (isMethod, f)))).defineAll
      (declaredNames ((function isMethod f).parts.take i))
  | stmt (.expression _), _ | stmt (.print _), _ | stmt (.ret _ _), _ | stmt (.branch _ _ _), _
  | stmt (.loop _ _), _ | param _, _ | expr _, _ => ctx

/-- What the check of scopes visits in a part. -/
def visits (ctx : Context) : Part → List Visit
  | program statements => Stmt.visitsAll ctx statements
  | stmt s => s.visits ctx
  | function isMethod f => f.visits ctx (.of (some (isMethod, f)))
  | param _ => []
  | expr e => e.visits ctx

/-- The statements in the part are plain. -/
def Plain : Part → Prop
  | program statements => Stmt.PlainAll statements
  | stmt s => s.Plain
  | function _ f => f.Plain
  | param _ | expr _ => True

end Part

theorem Stmt.PlainAll.of_mem {ss : List Stmt} (h : Stmt.PlainAll ss) {s : Stmt} (hs : s ∈ ss) :
    s.Plain := by
  induction ss with
  | nil => cases hs
  | cons first rest ih =>
    rcases List.mem_cons.1 hs with rfl | hs
    · exact h.1
    · exact ih h.2 hs

theorem FunctionDecl.PlainAll.of_mem {fs : List FunctionDecl} (h : FunctionDecl.PlainAll fs)
    {f : FunctionDecl} (hf : f ∈ fs) : f.Plain := by
  induction fs with
  | nil => cases hf
  | cons first rest ih =>
    rcases List.mem_cons.1 hf with rfl | hf
    · exact h.1
    · exact ih h.2 hf

theorem Stmt.mem_parts_branch {condition : Expr} {thenBranch : Stmt} {elseBranch : Option Stmt}
    {part : Part} (h : part ∈ (Stmt.branch condition thenBranch elseBranch).parts) :
    part = .expr condition ∨ part = .stmt thenBranch ∨
      ∃ other, elseBranch = some other ∧ part = .stmt other := by
  rcases List.mem_cons.1 h with h | h
  · exact .inl h
  rcases List.mem_cons.1 h with h | h
  · exact .inr (.inl h)
  · obtain ⟨other, ho, rfl⟩ := List.mem_map.1 h
    exact .inr (.inr ⟨other, Option.mem_toList.1 ho, rfl⟩)

theorem Stmt.Plain.branch {condition : Expr} {thenBranch : Stmt} {elseBranch : Option Stmt}
    (h : (Stmt.branch condition thenBranch elseBranch).Plain) :
    (thenBranch.Plain ∧ thenBranch.declared = []) ∧
      ∀ other, elseBranch = some other → other.Plain ∧ other.declared = [] := by
  cases elseBranch with
  | none => exact ⟨h, nofun⟩
  | some other =>
    refine ⟨h.1, fun _ ho => ?_⟩
    cases ho
    exact h.2

theorem Stmt.Plain.part {s : Stmt} {part : Part} (h : s.Plain) (hp : part ∈ s.parts) :
    part.Plain := by
  cases s with
  | expression e | print e =>
    obtain rfl := List.mem_singleton.1 hp
    trivial
  | varDecl name value | ret keyword value =>
    obtain ⟨e, -, rfl⟩ := List.mem_map.1 hp
    trivial
  | block ss =>
    obtain ⟨s, hs, rfl⟩ := List.mem_map.1 hp
    exact Stmt.PlainAll.of_mem h hs
  | loop condition body =>
    rcases List.mem_pair.1 hp with rfl | rfl
    · trivial
    · exact h.1
  | branch condition thenBranch elseBranch =>
    rcases Stmt.mem_parts_branch hp with rfl | rfl | ⟨other, ho, rfl⟩
    · trivial
    · exact h.branch.1.1
    · exact (h.branch.2 other ho).1
  | funDecl f =>
    obtain rfl := List.mem_singleton.1 hp
    exact h
  | classDecl name superclass methods =>
    rcases List.mem_append.1 hp with hp | hp
    · obtain ⟨e, -, rfl⟩ := List.mem_map.1 hp
      trivial
    · obtain ⟨f, hf, rfl⟩ := List.mem_map.1 hp
      cases superclass with
      | none => exact FunctionDecl.PlainAll.of_mem h hf
      | some e => exact FunctionDecl.PlainAll.of_mem h.2 hf

namespace Part

theorem Plain.part {owner part : Part} (h : owner.Plain) (hp : part ∈ owner.parts) :
    part.Plain := by
  cases owner with
  | program ss =>
    obtain ⟨s, hs, rfl⟩ := List.mem_map.1 hp
    exact Stmt.PlainAll.of_mem h hs
  | function isMethod f =>
    obtain ⟨name, params, body⟩ := f
    rcases List.mem_append.1 hp with hp | hp
    · obtain ⟨param, -, rfl⟩ := List.mem_map.1 hp
      trivial
    · obtain ⟨s, hs, rfl⟩ := List.mem_map.1 hp
      exact Stmt.PlainAll.of_mem h hs
  | param name => cases hp
  | expr e =>
    obtain ⟨inner, -, rfl⟩ := List.mem_map.1 hp
    trivial
  | stmt s => exact Stmt.Plain.part h hp

theorem program_not_mem_parts (ss : List Stmt) (owner : Part) : .program ss ∉ owner.parts := by
  cases owner with
  | stmt s => cases s <;> simp [parts, Stmt.parts]
  | _ => simp [parts]

/-! ## Every part is visited in its context -/

theorem declaredNames_append (xs ys : List Part) :
    declaredNames (xs ++ ys) = declaredNames xs ++ declaredNames ys :=
  List.flatMap_append

theorem declaredNames_params (params : List Token) :
    declaredNames (params.map param) = params := by
  induction params with
  | nil => rfl
  | cons p rest ih => exact congrArg (p :: ·) ih

end Part

theorem Scoping.Context.defineAll_append (ctx : Context) (names more : List Token) :
    ctx.defineAll (names ++ more) = (ctx.defineAll names).defineAll more :=
  List.foldl_append

/-- What is declared up to and including a part. -/
theorem Scoping.Context.defineAll_declaredNames {ctx : Context} {parts : List Part} {part : Part}
    {i : Nat} (hi : parts[i]? = some part) :
    (ctx.defineAll (Part.declaredNames (parts.take i))).defineAll part.declares?.toList =
      ctx.defineAll (Part.declaredNames (parts.take (i + 1))) := by
  have htake : parts.take (i + 1) = parts.take i ++ [part] := by
    rw [List.take_add_one, hi]
    rfl
  have hlast : Part.declaredNames [part] = part.declares?.toList := List.flatMap_singleton ..
  rw [htake, Part.declaredNames_append, Context.defineAll_append, hlast]

theorem Stmt.visits_subset_visitsAll {ss : List Stmt} (h : Stmt.PlainAll ss) {s : Stmt} {i : Nat}
    (hs : ss[i]? = some s) (ctx : Context) :
    s.visits (ctx.defineAll (Part.declaredNames ((ss.map .stmt).take i))) ⊆
      Stmt.visitsAll ctx ss := by
  induction ss generalizing ctx i with
  | nil => cases hs
  | cons first rest ih =>
    rw [Stmt.visitsAll]
    cases i with
    | zero =>
      cases hs
      exact List.subset_append_left _ _
    | succ i =>
      have hrest := ih h.2 hs (ctx.defineAll first.declared)
      rw [h.1.declared_eq, ← Context.defineAll_append] at hrest
      rw [h.1.declared_eq]
      exact List.subset_append_of_subset_right _ hrest

theorem FunctionDecl.visits_subset_visitsAll {fs : List FunctionDecl} {f : FunctionDecl}
    (hf : f ∈ fs) (ctx : Context) :
    f.visits ctx (methodContext f.name) ⊆ FunctionDecl.visitsAll ctx fs := by
  induction fs with
  | nil => cases hf
  | cons first rest ih =>
    rw [FunctionDecl.visitsAll]
    rcases List.mem_cons.1 hf with rfl | hf
    · exact List.subset_append_left _ _
    · exact List.subset_append_of_subset_right _ (ih hf)

/-- An element of a list that may be absent, or of the list after it. -/
theorem getElem?_toList_append {α β : Type} {a? : Option α} {make : α → β} {rest : List β} {b : β}
    {i : Nat} (h : (a?.toList.map make ++ rest)[i]? = some b) :
    (∃ a, a? = some a ∧ i = 0 ∧ b = make a) ∨
      (a?.toList.length ≤ i ∧ rest[i - a?.toList.length]? = some b) := by
  cases a? with
  | none => exact .inr ⟨Nat.zero_le _, h⟩
  | some a =>
    cases i with
    | zero =>
      cases h
      exact .inl ⟨a, rfl, rfl, rfl⟩
    | succ i => exact .inr ⟨Nat.succ_le_succ (Nat.zero_le _), h⟩

theorem Stmt.visits_part_subset {s : Stmt} {part : Part} {i : Nat} (h : s.Plain)
    (hi : s.parts[i]? = some part) (ctx : Context) :
    part.visits ((Part.stmt s).contextAt ctx i) ⊆ s.visits ctx := by
  cases s with
  | expression e | print e =>
    obtain rfl := List.mem_singleton.1 (List.mem_of_getElem? hi)
    exact List.Subset.refl _
  | varDecl name value =>
    obtain ⟨e, he, rfl⟩ := List.mem_map.1 (List.mem_of_getElem? hi)
    obtain rfl := Option.mem_toList.1 he
    exact List.subset_cons_self _ _
  | ret keyword value =>
    obtain ⟨e, he, rfl⟩ := List.mem_map.1 (List.mem_of_getElem? hi)
    obtain rfl := Option.mem_toList.1 he
    exact List.subset_cons_self _ _
  | block ss =>
    rw [Stmt.parts, List.getElem?_map, Option.map_eq_some_iff] at hi
    obtain ⟨s, hs, rfl⟩ := hi
    exact Stmt.visits_subset_visitsAll h hs ctx.enter
  | loop condition body =>
    rcases List.mem_pair.1 (List.mem_of_getElem? hi) with rfl | rfl
    · exact List.subset_append_left _ _
    · exact List.subset_append_right _ _
  | branch condition thenBranch elseBranch =>
    have hmem := Stmt.mem_parts_branch (List.mem_of_getElem? hi)
    cases elseBranch with
    | none =>
      rcases hmem with rfl | rfl | ⟨other, ho, rfl⟩
      · exact List.subset_append_left _ _
      · exact List.subset_append_right _ _
      · cases ho
    | some other =>
      -- A first branch that is plain declares nothing, so both are visited in the same context.
      rw [Stmt.visits, h.1.2]
      rcases hmem with rfl | rfl | ⟨_, ho, rfl⟩
      · exact List.subset_append_of_subset_left _ (List.subset_append_left _ _)
      · exact List.subset_append_of_subset_left _ (List.subset_append_right _ _)
      · cases ho
        exact List.subset_append_right _ _
  | funDecl f =>
    obtain rfl := List.mem_singleton.1 (List.mem_of_getElem? hi)
    exact List.subset_cons_self _ _
  | classDecl name superclass methods =>
    -- A superclass comes before the methods, and outside of their scopes.
    rcases getElem?_toList_append hi with ⟨e, rfl, rfl, rfl⟩ | ⟨hle, hrest⟩
    · refine List.subset_cons_of_subset _ (List.subset_cons_of_subset _ ?_)
      exact List.subset_append_left _ _
    · rw [List.getElem?_map, Option.map_eq_some_iff] at hrest
      obtain ⟨f, hf, rfl⟩ := hrest
      rw [Part.contextAt, if_neg (Nat.not_lt.2 hle)]
      have hmethods (ctx : Context) :=
        FunctionDecl.visits_subset_visitsAll (List.mem_of_getElem? hf) ctx
      cases superclass with
      | none => exact List.subset_cons_of_subset _ (hmethods _)
      | some e =>
        refine List.subset_cons_of_subset _ (List.subset_cons_of_subset _ ?_)
        exact List.subset_append_of_subset_right _ (hmethods _)

/-- What the check visits in a part, it visits in the owner. -/
theorem Part.visits_subset {owner part : Part} {i : Nat} (h : owner.Plain)
    (hi : owner.parts[i]? = some part) (ctx : Context) :
    part.visits (owner.contextAt ctx i) ⊆ owner.visits ctx := by
  cases owner with
  | program ss =>
    rw [Part.parts, List.getElem?_map, Option.map_eq_some_iff] at hi
    obtain ⟨s, hs, rfl⟩ := hi
    exact Stmt.visits_subset_visitsAll h hs ctx
  | stmt s => exact Stmt.visits_part_subset h hi ctx
  | function isMethod f =>
    obtain ⟨name, params, body⟩ := f
    by_cases hlt : i < params.length
    · rw [Part.parts, List.getElem?_append_left (by simpa using hlt), List.getElem?_map,
        Option.map_eq_some_iff] at hi
      obtain ⟨param, -, rfl⟩ := hi
      exact List.nil_subset _
    · have hle := Nat.not_lt.1 hlt
      rw [Part.parts, List.getElem?_append_right (by simpa using hle), List.getElem?_map,
        Option.map_eq_some_iff, List.length_map] at hi
      obtain ⟨s, hs, rfl⟩ := hi
      -- The body goes on in the scope of the parameters.
      have hnames : declaredNames ((function isMethod ⟨name, params, body⟩).parts.take i) =
          params ++ declaredNames ((body.map stmt).take (i - params.length)) := by
        rw [Part.parts, List.take_append, List.take_of_length_le (by simpa using hle),
          declaredNames_append, declaredNames_params, List.length_map]
      rw [contextAt, hnames, Context.defineAll_append]
      exact List.subset_append_of_subset_right _ (Stmt.visits_subset_visitsAll h hs _)
  | param name => cases hi
  | expr e =>
    obtain ⟨inner, hmem, rfl⟩ := List.mem_map.1 (List.mem_of_getElem? hi)
    exact Expr.visits_subset hmem ctx

/-! ## The context of a place has the scopes of the place -/

theorem Stmt.Plain.declares?_eq_none {s : Stmt} (h : s.Plain) (hd : s.declared = []) :
    (Part.stmt s).declares? = none := by
  rw [h.declared_eq] at hd
  exact Option.toList_eq_nil_iff.1 hd

namespace Scoping.Context

/-- What the check knows when it comes to a part: behind it, the names in the scopes are those that
the place has, and around it are the function and the class of the place. -/
structure Located (ctx : Context) (trail : Trail) (part : Part) : Prop where
  shows : (ctx.defineAll part.declares?.toList).Shows trail.scopes
  function : ctx.function = .of trail.function?
  class_ : ctx.class_ = .of trail.superclass?

variable {ctx : Context} {trail : Trail} {owner part : Part} {i : Nat}

/-- The same context, where nothing is declared and no scope, function or class begins. -/
theorem Located.inside (h : ctx.Located trail owner) (hd : owner.declares? = none)
    (hs : owner.scopes i = []) (hf : owner.function? = none) (hc : owner.superclass? = none)
    (hp : part.declares? = none) : ctx.Located ((owner, i) :: trail) part where
  shows := by
    have hshows := h.shows
    rw [hd] at hshows
    rw [hp, Trail.scopes, List.flatMap_cons, hs]
    exact hshows
  function := by simp [h.function, Trail.function?, hf]
  class_ := by simp [h.class_, Trail.superclass?, hc]

/-- Inside a scope whose names are those of the parts up to the one at hand. -/
theorem Located.inScope (h : ctx.Shows trail.scopes) {inner : Context}
    (hinner : inner.scopes = [] :: ctx.scopes) (hi : owner.parts[i]? = some part)
    (hs : owner.scopes i = [(Part.declaredNames (owner.parts.take (i + 1))).map Token.lexeme])
    (hf : inner.function = .of (Trail.function? ((owner, i) :: trail)))
    (hc : inner.class_ = .of (Trail.superclass? ((owner, i) :: trail))) :
    (inner.defineAll (Part.declaredNames (owner.parts.take i))).Located
      ((owner, i) :: trail) part where
  shows := by
    have hempty : inner.Shows ([] :: trail.scopes) := by
      rw [Shows, hinner]
      exact h.enter
    rw [defineAll_declaredNames hi, Trail.scopes, List.flatMap_cons, hs]
    exact hempty.defineAll _
  function := (defineAll_function _ _).trans hf
  class_ := (defineAll_class_ _ _).trans hc

/-- Statements on the outermost level are in no scope. -/
theorem Located.program {ss : List Stmt} (h : ctx.Located trail (.program ss))
    (htop : ctx.scopes = []) (hi : (Part.program ss).parts[i]? = some part) :
    ((Part.program ss).contextAt ctx i).Located ((.program ss, i) :: trail) part where
  shows := by
    have hshows : ctx.Shows trail.scopes := h.shows
    have hscopes : Trail.scopes ((.program ss, i) :: trail) = trail.scopes := rfl
    rw [Shows, htop, List.forall₂_nil_left_iff] at hshows
    rw [Part.contextAt, defineAll_declaredNames hi, Shows, defineAll_scopes_nil htop, hscopes,
      hshows]
    exact .nil
  function := (defineAll_function _ _).trans h.function
  class_ := (defineAll_class_ _ _).trans h.class_

/-- The superclass clause and the methods of a class. -/
theorem Located.classDecl {name : Token} {superclass : Option Expr}
    {methods : List FunctionDecl}
    (h : ctx.Located trail (.stmt (.classDecl name superclass methods)))
    (hi : (Part.stmt (.classDecl name superclass methods)).parts[i]? = some part) :
    ((Part.stmt (.classDecl name superclass methods)).contextAt ctx i).Located
      ((.stmt (.classDecl name superclass methods), i) :: trail) part := by
  have hshows : (ctx.define name).Shows trail.scopes := h.shows
  have hfunction : (ctx.define name).function = .of trail.function? :=
    (ctx.add_function _ _).trans h.function
  have hpart : part.declares? = none := by
    rcases List.mem_append.1 (List.mem_of_getElem? hi) with hmem | hmem
    · obtain ⟨e, -, rfl⟩ := List.mem_map.1 hmem
      rfl
    · obtain ⟨f, -, rfl⟩ := List.mem_map.1 hmem
      rfl
  -- The superclass clause is outside the scopes of `this` and `super`, and the methods are inside.
  by_cases hlt : i < superclass.toList.length
  · refine ⟨?_, ?_, ?_⟩
    · rw [hpart, Part.contextAt, if_pos hlt, Trail.scopes, List.flatMap_cons, Part.scopes,
        if_pos hlt]
      exact hshows
    · rw [Part.contextAt, if_pos hlt]
      exact hfunction
    · rw [Part.contextAt, if_pos hlt]
      rfl
  · refine ⟨?_, ?_, ?_⟩
    · rw [hpart, Part.contextAt, if_neg hlt, Trail.scopes, List.flatMap_cons, Part.scopes,
        if_neg hlt]
      have hinner : { ctx.define name with class_ := .of (some superclass) }.Shows trail.scopes :=
        hshows
      exact hinner.methods superclass
    · rw [Part.contextAt, if_neg hlt]
      cases superclass <;> exact hfunction
    · rw [Part.contextAt, if_neg hlt]
      cases superclass <;> rfl

theorem Located.stmt {s : Stmt} (h : ctx.Located trail (.stmt s)) (hp : s.Plain)
    (hi : (Part.stmt s).parts[i]? = some part) :
    ((Part.stmt s).contextAt ctx i).Located ((.stmt s, i) :: trail) part := by
  have hmem := List.mem_of_getElem? hi
  cases s with
  | expression e | print e =>
    obtain rfl := List.mem_singleton.1 hmem
    exact h.inside rfl rfl rfl rfl rfl
  | ret keyword value =>
    obtain ⟨e, -, rfl⟩ := List.mem_map.1 hmem
    exact h.inside rfl rfl rfl rfl rfl
  | varDecl name value =>
    obtain ⟨e, -, rfl⟩ := List.mem_map.1 hmem
    -- Behind the declaration the name is ready, and in the initializer it is only declared; it
    -- counts in both.
    have hshows : (ctx.define name).Shows trail.scopes := h.shows
    exact ⟨hshows.declare, (ctx.add_function _ _).trans h.function,
      (ctx.add_class_ _ _).trans h.class_⟩
  | block ss => exact Located.inScope h.shows rfl hi rfl h.function h.class_
  | loop condition body =>
    rcases List.mem_pair.1 hmem with rfl | rfl
    · exact h.inside rfl rfl rfl rfl rfl
    · exact h.inside rfl rfl rfl rfl (hp.1.declares?_eq_none hp.2)
  | branch condition thenBranch elseBranch =>
    refine h.inside rfl rfl rfl rfl ?_
    obtain ⟨⟨hp₁, hd₁⟩, helse⟩ := hp.branch
    rcases Stmt.mem_parts_branch hmem with rfl | rfl | ⟨other, ho, rfl⟩
    · rfl
    · exact hp₁.declares?_eq_none hd₁
    · exact (helse other ho).1.declares?_eq_none (helse other ho).2
  | funDecl f =>
    obtain rfl := List.mem_singleton.1 hmem
    exact ⟨h.shows, (ctx.add_function _ _).trans h.function, (ctx.add_class_ _ _).trans h.class_⟩
  | classDecl name superclass methods => exact h.classDecl hi

/-- From an owner to one of its parts. -/
theorem Located.down (h : ctx.Located trail owner) (hp : owner.Plain)
    (htop : ∀ ss, owner = .program ss → ctx.scopes = []) (hi : owner.parts[i]? = some part) :
    (owner.contextAt ctx i).Located ((owner, i) :: trail) part := by
  cases owner with
  | program ss => exact h.program (htop ss rfl) hi
  | stmt s => exact h.stmt hp hi
  | function isMethod f => exact Located.inScope h.shows rfl hi rfl rfl h.class_
  | param name => cases hi
  | expr e =>
    obtain ⟨inner, -, rfl⟩ := List.mem_map.1 (List.mem_of_getElem? hi)
    exact h.inside rfl rfl rfl rfl rfl

end Scoping.Context

/-- The context in which the check of scopes comes to a place. -/
def Trail.context : Trail → Context
  | [] => .top
  | (owner, i) :: trail => owner.contextAt (context trail) i

/-- The check comes to every place of a program in the context of the place. -/
theorem Reaches.visited {ss : List Stmt} (hplain : Stmt.PlainAll ss) {trail : Trail} {part : Part}
    (h : Reaches (.program ss) trail part) :
    part.Plain ∧ trail.context.Located trail part ∧
      part.visits trail.context ⊆ Stmt.visitsAll .top ss := by
  -- From the whole program down to the part: each owner hands its parts the contexts that it has
  -- for them, and visits what they visit.
  induction h with
  | here => exact ⟨hplain, ⟨.nil, rfl, rfl⟩, List.Subset.refl _⟩
  | @down trail owner part i howner hi ih =>
    obtain ⟨hp, hlocated, hsub⟩ := ih
    refine ⟨hp.part (List.mem_of_getElem? hi), hlocated.down hp ?_ hi,
      List.Subset.trans (Part.visits_subset hp hi _) hsub⟩
    -- only the whole program is a program
    intro ss' hss
    cases howner with
    | here => rfl
    | down _ hj => exact absurd (hss ▸ List.mem_of_getElem? hj) (Part.program_not_mem_parts ss' _)

/-! ## What is filed -/

/-- The id and the name of a node that looks its name up. -/
def Expr.sought? : Expr → Option (NodeId × Token)
  | .var id name | .assign id name _ | .this id name | .super id name _ => some (id, name)
  | .constant _ | .grouping _ | .unary _ _ | .binary _ _ _ | .logical _ _ _ | .call _ _ _
  | .get _ _ | .set _ _ _ => none

/-- The check looks up the name of such a node. -/
theorem Expr.exists_look {e : Expr} {id : NodeId} {name : Token} (h : e.sought? = some (id, name))
    (ctx : Context) : ∃ kind, Visit.look kind ctx id name ∈ e.visits ctx ∧
      (kind = .this ↔ e = .this id name) := by
  cases e <;> cases h
  case var => exact ⟨.read, List.mem_singleton_self _, by simp⟩
  case assign => exact ⟨.write, List.mem_append_right _ (List.mem_singleton_self _), by simp⟩
  case this => exact ⟨.this, List.mem_singleton_self _, by simp⟩
  case super => exact ⟨.super, List.mem_singleton_self _, by simp⟩

theorem ClassContext.of_eq_outside {superclass? : Option (Option Expr)} :
    ClassContext.of superclass? = .outside ↔ superclass? = none := by
  rcases superclass? with _ | _ | _ <;> simp [ClassContext.of]

/-- What is on file for a node is what its place says: the number of scopes between the node and the
nearest one that has the name, and nothing exactly if no scope around the node has it. -/
def Scoping.Distances.MatchesAt (table : Distances) (trail : Trail) (id : NodeId)
    (name : String) : Prop :=
  (∀ d, table[id]? = some d ↔ trail.Declares name d) ∧
    (table[id]? = none ↔ ∀ names ∈ trail.scopes, name ∉ names)

/-- What is filed for a node among the visits to a program. -/
theorem Scoping.Distances.file_visits {table : Distances} {vs : List Visit} {trail : Trail}
    {e : Expr} {id : NodeId} {name : Token} (hnd : (vs.filterMap Visit.id?).Nodup)
    (hsought : e.sought? = some (id, name)) (hnone : table[id]? = none)
    (hlocated : trail.context.Located trail (.expr e))
    (hsub : e.visits trail.context ⊆ vs) :
    (e = .this id name ∧ trail.superclass? = none →
      (table.file (vs.flatMap Visit.findings))[id]? = none) ∧
    (¬(e = .this id name ∧ trail.superclass? = none) →
      (table.file (vs.flatMap Visit.findings)).MatchesAt trail id name.lexeme) := by
  obtain ⟨kind, hlook, hkind⟩ := Expr.exists_look hsought trail.context
  have houtside : trail.context.class_ = .outside ↔ trail.superclass? = none := by
    rw [hlocated.class_, ClassContext.of_eq_outside]
  constructor
  · rintro ⟨he, hclass⟩
    obtain ⟨before, hbefore, heq⟩ := exists_getElem?_file hnd (hsub hlook) rfl hnone
    -- Outside all classes `this` is an offence, and nothing is filed for it.
    rw [heq, hkind.2 he, Visit.findings, if_pos (houtside.2 hclass)]
    exact hbefore
  · intro hnot
    have hthis : kind = .this → trail.context.class_ ≠ .outside :=
      fun hk hc => hnot ⟨hkind.1 hk, houtside.1 hc⟩
    have hshows : trail.context.Shows trail.scopes := hlocated.shows
    rw [MatchesAt, getElem?_file_visits hnd (hsub hlook) hthis hnone]
    exact ⟨hshows.hops?_eq_some_iff name.lexeme, hshows.hops?_eq_none_iff name.lexeme⟩

/-- The words `this` and `super` in a source are spelled so. -/
theorem Expr.keyword_of_scan {firstId : NodeId} {source : String} {trail : Trail} {e : Expr}
    {id : NodeId} {name : Token}
    (hreach : Reaches (.program (parse firstId (Lexer.tokens (scan source))).statements) trail
      (.expr e)) :
    (e = .this id name → name.lexeme = "this") ∧
      (∀ method, e = .super id name method → name.lexeme = "super") := by
  obtain ⟨d, -, -, hread⟩ := parse_read firstId (Lexer.tokens (scan source))
  obtain ⟨-, -, hsub⟩ := hreach.visited hread.plain
  -- a name that the check comes to is a token of the source, and so spelled like its kind
  have hspelled : ∀ v ∈ e.visits trail.context, ∀ m, v.mention? = some m →
      Kind.ofWord m.token.lexeme = m.kind := by
    intro v hv m hm
    have hmem : m ∈ Stmt.mentionsAll (parse firstId (Lexer.tokens (scan source))).statements := by
      rw [← Stmt.filterMap_visitsAll .top]
      exact List.mem_filterMap.2 ⟨v, hsub hv, hm⟩
    obtain ⟨hk, ht⟩ := hread.built.named m hmem
    have htoken := scan_spelled source m.token ((List.takeWhile_sublist _).subset ht)
    exact (htoken (hk ▸ Visit.isWord_mention? hm)).trans hk
  constructor
  · rintro rfl
    exact Kind.eq_this_of_ofWord (hspelled _ (List.mem_singleton_self _) _ rfl)
  · rintro method rfl
    exact Kind.eq_super_of_ofWord (hspelled _ (List.mem_singleton_self _) _ rfl)

/-- What is on file for the nodes of a program that was read from tokens.

* For a node that looks its name up, it is what the place of the node says, except for `this`
  outside all classes, for which it is nothing. For the nodes of other programs it is what it was.
* The check comes to every statement of the program with as many scopes as there are around it, in
  the function and the class that are around it, and leaves it in the same.
* In a source, the name of `this` is "this" and that of `super` is "super". -/
theorem distances_match_scopes (i : Interpreter) (firstId : NodeId) (tokens : List Token)
    (hnew : ∀ id ∈ (Part.program (parse firstId tokens).statements).ids,
      i.distances[id]? = none) :
    let program := (parse firstId tokens).statements
    let table := (i.learn (check program)).distances
    (∀ trail e id name, Reaches (.program program) trail (.expr e) →
      e.sought? = some (id, name) →
      (e = .this id name ∧ trail.superclass? = none → table[id]? = none) ∧
      (¬(e = .this id name ∧ trail.superclass? = none) →
        table.MatchesAt trail id name.lexeme)) ∧
    (∀ id ∉ (Part.program program).ids, table[id]? = i.distances[id]?) ∧
    (∀ trail s, Reaches (.program program) trail (.stmt s) →
      let before := trail.context
      let after := before.defineAll s.declared
      s.visits before ⊆ Stmt.visitsAll .top program ∧
      (∀ rest, Stmt.findingsAll before (s :: rest) =
        s.findings before ++ Stmt.findingsAll after rest) ∧
      before.scopes.length = trail.scopes.length ∧
      before.function = .of trail.function? ∧ before.class_ = .of trail.superclass? ∧
      after.scopes.length = before.scopes.length ∧
      after.function = before.function ∧ after.class_ = before.class_) ∧
    (∀ source, tokens = Lexer.tokens (scan source) →
      ∀ trail e id name, Reaches (.program program) trail (.expr e) →
      (e = .this id name → name.lexeme = "this") ∧
      (∀ method, e = .super id name method → name.lexeme = "super")) := by
  intro program table
  obtain ⟨d, -, -, hread⟩ := parse_read firstId tokens
  -- The ids of the visits are those of the nodes, each of which is visited once.
  have hids : (Stmt.visitsAll .top program).filterMap Visit.id? = (Part.program program).ids :=
    Stmt.filterMap_id?_visitsAll .top program
  have htable : table =
      i.distances.file ((Stmt.visitsAll .top program).flatMap Visit.findings) :=
    congrArg i.distances.file (Stmt.findingsAll_eq .top program)
  have hnd : ((Stmt.visitsAll .top program).filterMap Visit.id?).Nodup :=
    hids ▸ hread.built.fresh.nodup
  refine ⟨fun trail e id name hreach hsought => ?_, fun id hid => ?_,
    fun trail s hreach => ?_, fun source hsource trail e id name hreach => ?_⟩
  · obtain ⟨-, hlocated, hsub⟩ := hreach.visited hread.plain
    obtain ⟨kind, hlook, -⟩ := Expr.exists_look hsought trail.context
    have hmem : id ∈ (Part.program program).ids :=
      hids ▸ List.mem_filterMap.2 ⟨_, hsub hlook, rfl⟩
    rw [htable]
    exact Distances.file_visits hnd hsought (hnew id hmem) hlocated hsub
  · rw [htable]
    exact Distances.getElem?_file_of_not_mem (hids ▸ hid)
  · obtain ⟨-, hlocated, hsub⟩ := hreach.visited hread.plain
    refine ⟨hsub, fun _ => rfl, ?_, hlocated.function, hlocated.class_,
      trail.context.length_scopes_defineAll _, trail.context.defineAll_function _,
      trail.context.defineAll_class_ _⟩
    rw [← hlocated.shows.length_eq, trail.context.length_scopes_defineAll]
  · subst hsource
    exact Expr.keyword_of_scan hreach

/-- A block that declares a name and reads it in a function. -/
def readInFunction : List Token :=
  [⟨.leftBrace, "\x7b", none, 1⟩, ⟨.varWord, "var", none, 1⟩, ⟨.identifier, "a", none, 1⟩,
    ⟨.semicolon, ";", none, 1⟩, ⟨.funWord, "fun", none, 1⟩, ⟨.identifier, "f", none, 1⟩,
    ⟨.leftParen, "(", none, 1⟩, ⟨.rightParen, ")", none, 1⟩, ⟨.leftBrace, "\x7b", none, 1⟩,
    ⟨.identifier, "a", none, 1⟩, ⟨.semicolon, ";", none, 1⟩, ⟨.rightBrace, "\x7d", none, 1⟩,
    ⟨.rightBrace, "\x7d", none, 1⟩]

/-- Between the name and its declaration lies the scope of the function. -/
theorem distances_match_scopes_in_function :
    (∀ id ∈ (Part.program (parse 0 readInFunction).statements).ids,
      (Interpreter.new ⟨.empty, none, false⟩ fun _ => 0).distances[id]? = none) ∧
    ((Interpreter.new ⟨.empty, none, false⟩ fun _ => 0).learn
      (check (parse 0 readInFunction).statements)).distances[0]? = some 1 := by
  have hnew : ∀ id ∈ (Part.program (parse 0 readInFunction).statements).ids,
      (Interpreter.new ⟨.empty, none, false⟩ fun _ => 0).distances[id]? = none := by
    intro id _
    exact Std.TreeMap.getElem?_emptyc
  refine ⟨hnew, ?_⟩
  have hreach : Reaches (.program (parse 0 readInFunction).statements) _
      (.expr (.var 0 ⟨.identifier, "a", none, 1⟩)) :=
    .down (i := 0) (.down (i := 0) (.down (i := 0) (.down (i := 1) (.down (i := 0) .here rfl) rfl)
      rfl) rfl) rfl
  have hmatch := ((distances_match_scopes _ 0 readInFunction hnew).1 _ _ 0 _ hreach rfl).2 nofun
  refine (hmatch.1 1).2 ⟨["a", "f"], rfl, by decide, ?_⟩
  intro k hk others hothers
  obtain rfl : k = 0 := by omega
  cases hothers
  exact List.not_mem_nil

end Lox
