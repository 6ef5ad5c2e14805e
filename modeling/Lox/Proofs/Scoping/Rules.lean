import Lox.Proofs.Tree.Places
import Lox.Scoping.Context

/-!
# The rules of scoping

The rules are stated without the check of scopes, by looking at a place of a program and at what
stands around it (`Offends`): a name declared again in one local scope, a local variable read in
its own initializer, a misplaced `return`, `this` or `super`, and a class that inherits from
itself.

A program has finitely many places, and at each of them the rules can be decided
(`mem_offencesAt`), so the offences of a program can be listed, each once
(`mem_offencePlaces`, `nodup_offencePlaces`).
-/

namespace Lox

/-! ## What parts are for their surroundings -/

namespace Part

/-- The declarations directly inside belong to a scope of their own. The outermost level of a
program is not a scope. -/
def isScope : Part → Bool
  | stmt (.block _) | function _ _ => true
  | _ => false

/-- The name that the part declares where it stands. -/
def declares? : Part → Option Token
  | param name | stmt (.varDecl name _) | stmt (.classDecl name _ _) => some name
  | stmt (.funDecl f) => some f.name
  | _ => none

/-- The variable that the part declares. -/
def var? : Part → Option Token
  | stmt (.varDecl name _) => some name
  | _ => none

/-- The function that the part is, and whether it is a method. -/
def function? : Part → Option (Bool × FunctionDecl)
  | function isMethod f => some (isMethod, f)
  | _ => none

/-- The superclass, if any, of the class that the part declares. -/
def superclass? : Part → Option (Option Expr)
  | stmt (.classDecl _ superclass _) => some superclass
  | _ => none

end Part

namespace Trail

/-- What is declared at the place is local. -/
def isLocal : Trail → Bool
  | [] => false
  | (owner, _) :: _ => owner.isScope

/-- The name is declared earlier in the local scope of the place. -/
def redeclares (name : String) : Trail → Bool
  | [] => false
  | (owner, i) :: _ =>
    owner.isScope && (owner.parts.take i).any fun part => part.declares?.any (·.lexeme == name)

/-- The place lies in the initializer of a local variable with the name. -/
def initializes (name : String) : Trail → Bool
  | [] => false
  | (part, _) :: outer =>
    (isLocal outer && part.var?.any (·.lexeme == name)) || initializes name outer

/-- The innermost function around the place, and whether it is a method. -/
def function? (trail : Trail) : Option (Bool × FunctionDecl) :=
  trail.findSome? (·.1.function?)

/-- The superclass, if any, of the innermost class around the place. -/
def superclass? (trail : Trail) : Option (Option Expr) :=
  trail.findSome? (·.1.superclass?)

/-- A scope has one name more behind a declaration. -/
theorem redeclares_next {trail : Trail} {owner part : Part} {i : Nat}
    (hi : owner.parts[i]? = some part) (name : String) :
    redeclares name ((owner, i + 1) :: trail) =
      (redeclares name ((owner, i) :: trail) ||
        (owner.isScope && part.declares?.any (·.lexeme == name))) := by
  have htake : owner.parts.take (i + 1) = owner.parts.take i ++ [part] := by
    rw [List.take_add_one, hi]
    rfl
  rw [redeclares, redeclares, htake, List.any_append, Bool.and_or_distrib_left]
  simp

end Trail

namespace Scoping

/-! ## The rules -/

/-- The part at the trail breaks a rule of scoping. -/
inductive Offends (trail : Trail) : Part → ScopeError → Prop where
  | redeclared {part : Part} {name : Token} :
      part.declares? = some name → trail.redeclares name.lexeme →
        Offends trail part ⟨name, .redeclared⟩
  | readInInitializer {id : NodeId} {name : Token} :
      trail.initializes name.lexeme →
        Offends trail (.expr (.var id name)) ⟨name, .readInInitializer⟩
  | returnOutside {keyword : Token} {value : Option Expr} :
      trail.function? = none →
        Offends trail (.stmt (.ret keyword value)) ⟨keyword, .returnOutside⟩
  | returnFromInitializer {keyword : Token} {value : Expr} {f : FunctionDecl} :
      trail.function? = some (true, f) → f.name.lexeme = "init" →
        Offends trail (.stmt (.ret keyword (some value))) ⟨keyword, .returnFromInitializer⟩
  | thisOutside {id : NodeId} {keyword : Token} :
      trail.superclass? = none →
        Offends trail (.expr (.this id keyword)) ⟨keyword, .thisOutside⟩
  | superOutside {id : NodeId} {keyword method : Token} :
      trail.superclass? = none →
        Offends trail (.expr (.super id keyword method)) ⟨keyword, .superOutside⟩
  | superWithoutSuperclass {id : NodeId} {keyword method : Token} :
      trail.superclass? = some none →
        Offends trail (.expr (.super id keyword method)) ⟨keyword, .superWithoutSuperclass⟩
  | inheritsItself {name superclass : Token} {id : NodeId} {methods : List FunctionDecl} :
      superclass.lexeme = name.lexeme →
        Offends trail (.stmt (.classDecl name (some (.var id superclass)) methods))
          ⟨superclass, .inheritsItself⟩

/-- What a declaration at the trail does wrong. -/
def redeclaredAt (trail : Trail) (name : Token) : List ScopeError :=
  if trail.redeclares name.lexeme then [⟨name, .redeclared⟩] else []

/-- What a part at the trail does wrong, declarations apart. -/
def misusesAt (trail : Trail) : Part → List ScopeError
  | .expr (.var _ name) =>
    if trail.initializes name.lexeme then [⟨name, .readInInitializer⟩] else []
  | .expr (.this _ keyword) =>
    if trail.superclass?.isNone then [⟨keyword, .thisOutside⟩] else []
  | .expr (.super _ keyword _) =>
    match trail.superclass? with
    | none => [⟨keyword, .superOutside⟩]
    | some none => [⟨keyword, .superWithoutSuperclass⟩]
    | some (some _) => []
  | .stmt (.ret keyword value) =>
    match trail.function? with
    | none => [⟨keyword, .returnOutside⟩]
    | some (isMethod, f) =>
      if isMethod ∧ f.name.lexeme = "init" ∧ value.isSome then
        [⟨keyword, .returnFromInitializer⟩] else []
  | .stmt (.classDecl name (some (.var _ superclass)) _) =>
    if superclass.lexeme = name.lexeme then [⟨superclass, .inheritsItself⟩] else []
  | _ => []

/-- All that a part at the trail does wrong itself. -/
def offencesAt (trail : Trail) (part : Part) : List ScopeError :=
  part.declares?.toList.flatMap (redeclaredAt trail) ++ misusesAt trail part

theorem mem_redeclaredAt {trail : Trail} {part : Part} {e : ScopeError} :
    e ∈ part.declares?.toList.flatMap (redeclaredAt trail) ↔
      ∃ name, part.declares? = some name ∧ trail.redeclares name.lexeme ∧
        e = ⟨name, .redeclared⟩ := by
  simp [redeclaredAt]

theorem mem_misusesAt {trail : Trail} {part : Part} {e : ScopeError} :
    e ∈ misusesAt trail part ↔ Offends trail part e ∧ e.fault ≠ .redeclared := by
  constructor
  · intro h
    -- One case for each kind of part that can offend, and one for all others.
    unfold misusesAt at h
    split at h
    case h_1 =>
      obtain ⟨hi, h⟩ := List.mem_ite_nil_right.1 h
      obtain rfl := List.mem_singleton.1 h
      exact ⟨.readInInitializer hi, nofun⟩
    case h_2 =>
      obtain ⟨hn, h⟩ := List.mem_ite_nil_right.1 h
      obtain rfl := List.mem_singleton.1 h
      exact ⟨.thisOutside (Option.isNone_iff_eq_none.1 hn), nofun⟩
    case h_3 =>
      split at h
      · obtain rfl := List.mem_singleton.1 h
        exact ⟨.superOutside ‹_›, nofun⟩
      · obtain rfl := List.mem_singleton.1 h
        exact ⟨.superWithoutSuperclass ‹_›, nofun⟩
      · cases h
    case h_4 =>
      split at h
      · obtain rfl := List.mem_singleton.1 h
        exact ⟨.returnOutside ‹_›, nofun⟩
      · obtain ⟨⟨rfl, hinit, hv⟩, he⟩ := List.mem_ite_nil_right.1 h
        obtain rfl := List.mem_singleton.1 he
        obtain ⟨v, rfl⟩ := Option.isSome_iff_exists.1 hv
        exact ⟨.returnFromInitializer ‹_› hinit, nofun⟩
    case h_5 =>
      obtain ⟨hs, h⟩ := List.mem_ite_nil_right.1 h
      obtain rfl := List.mem_singleton.1 h
      exact ⟨.inheritsItself hs, nofun⟩
    case h_6 => cases h
  · rintro ⟨h, hne⟩
    cases h with
    | redeclared => exact absurd rfl hne
    | readInInitializer h => simp [misusesAt, h]
    | returnOutside h => simp [misusesAt, h]
    | returnFromInitializer h hi => simp [misusesAt, h, hi]
    | thisOutside h => simp [misusesAt, h]
    | superOutside h => simp [misusesAt, h]
    | superWithoutSuperclass h => simp [misusesAt, h]
    | inheritsItself h => simp [misusesAt, h]

/-- The rules can be decided. -/
theorem mem_offencesAt {trail : Trail} {part : Part} {e : ScopeError} :
    e ∈ offencesAt trail part ↔ Offends trail part e := by
  rw [offencesAt, List.mem_append, mem_redeclaredAt, mem_misusesAt]
  constructor
  · rintro (⟨name, hd, hr, rfl⟩ | ⟨h, -⟩)
    · exact .redeclared hd hr
    · exact h
  · intro h
    by_cases hf : e.fault = .redeclared
    · cases h with
      | redeclared hd hr => exact .inl ⟨_, hd, hr, rfl⟩
      | _ => cases hf
    · exact .inr ⟨h, hf⟩

theorem nodup_misusesAt (trail : Trail) (part : Part) : (misusesAt trail part).Nodup := by
  unfold misusesAt
  split
  case h_3 | h_4 => grind
  case h_6 => exact List.nodup_nil
  all_goals split <;> simp

theorem nodup_offencesAt (trail : Trail) (part : Part) : (offencesAt trail part).Nodup := by
  refine List.nodup_append.2 ⟨?_, nodup_misusesAt trail part, ?_⟩
  · cases part.declares? with
    | none => exact List.nodup_nil
    | some name =>
      rw [Option.toList_some, List.flatMap_singleton, redeclaredAt]
      split
      · exact List.nodup_singleton _
      · exact List.nodup_nil
  · intro x hx y hy hxy
    obtain ⟨name, -, -, rfl⟩ := mem_redeclaredAt.1 hx
    exact (mem_misusesAt.1 hy).2 (hxy ▸ rfl)

/-! ## Programs -/

/-- The program breaks a rule of scoping at the trail. -/
def Offence (statements : List Stmt) (trail : Trail) (error : ScopeError) : Prop :=
  ∃ part, Reaches (.program statements) trail part ∧ Offends trail part error

/-- The offences of a program and where they are. -/
def offencePlaces (statements : List Stmt) : List (Trail × ScopeError) :=
  ((Part.program statements).places []).flatMap fun (trail, part) =>
    (offencesAt trail part).map (trail, ·)

theorem mem_offencePlaces {statements : List Stmt} {trail : Trail} {error : ScopeError} :
    (trail, error) ∈ offencePlaces statements ↔ Offence statements trail error := by
  rw [offencePlaces, List.mem_flatMap]
  constructor
  · rintro ⟨⟨t, part⟩, hplace, h⟩
    obtain ⟨e, he, heq⟩ := List.mem_map.1 h
    cases heq
    exact ⟨part, Part.mem_places.1 hplace, mem_offencesAt.1 he⟩
  · rintro ⟨part, hreach, hoff⟩
    exact ⟨(trail, part), Part.mem_places.2 hreach,
      List.mem_map.2 ⟨error, mem_offencesAt.2 hoff, rfl⟩⟩

theorem nodup_offencePlaces (statements : List Stmt) : (offencePlaces statements).Nodup := by
  refine List.nodup_flatMap.2 ⟨fun (trail, part) _ => ?_, ?_⟩
  · exact (nodup_offencesAt trail part).map fun x y h => (Prod.mk.inj h).2
  · refine (List.pairwise_map.1 (Part.nodup_places _ [])).imp fun {x y} hne p hx hy => ?_
    obtain ⟨_, -, rfl⟩ := List.mem_map.1 hx
    obtain ⟨_, -, heq⟩ := List.mem_map.1 hy
    exact hne (Prod.mk.inj heq).1.symm

end Scoping

end Lox
