import Lox.Tree
import Mathlib.Data.List.Nodup

/-!
# Places in a program

A program is made of parts: its statements, their expressions, the functions that they declare,
and so on (`Part.parts`). A *trail* says where a part stands: the parts around it, innermost
first, each with the index of the next part inside it. The same text may stand at several places
of a program, but a trail leads to one part only.

`Reaches` says which part stands at which trail, and `Part.places` lists all of them, with no
trail twice (`Part.mem_places`, `Part.nodup_places`).
-/

namespace Lox

/-! ## Parts -/

/-- A part of a program. -/
inductive Part where
  | program (statements : List Stmt)
  | stmt (s : Stmt)
  | function (isMethod : Bool) (f : FunctionDecl)
  | param (name : Token)
  | expr (e : Expr)

/-- The expressions directly inside an expression. -/
def Expr.parts : Expr → List Expr
  | .constant _ | .var _ _ | .this _ _ | .super _ _ _ => []
  | .grouping inner => [inner]
  | .unary _ right => [right]
  | .binary left _ right | .logical left _ right => [left, right]
  | .assign _ _ value => [value]
  | .call callee _ arguments => callee :: arguments
  | .get object _ => [object]
  | .set object _ value => [value, object]

/-- The parts directly inside a statement. -/
def Stmt.parts : Stmt → List Part
  | .expression expr | .print expr => [.expr expr]
  | .varDecl _ value | .ret _ value => value.toList.map .expr
  | .block statements => statements.map .stmt
  | .branch condition thenBranch elseBranch =>
    .expr condition :: .stmt thenBranch :: elseBranch.toList.map .stmt
  | .loop condition body => [.expr condition, .stmt body]
  | .funDecl function => [.function false function]
  | .classDecl _ superclass methods =>
    superclass.toList.map .expr ++ methods.map (.function true)

namespace Part

/-- The parts directly inside a part. The parameters of a function come before its body. -/
def parts : Part → List Part
  | program statements => statements.map stmt
  | stmt s => s.parts
  | function _ f => f.params.map param ++ f.body.map stmt
  | param _ => []
  | expr e => e.parts.map expr

/-- The size of the tree. -/
noncomputable def weight : Part → Nat
  | program statements => sizeOf statements
  | stmt s => sizeOf s
  | function _ f => sizeOf f
  | param _ => 0
  | expr e => sizeOf e

end Part

theorem Expr.sizeOf_lt_of_mem_parts {e inner : Expr} (h : inner ∈ e.parts) :
    sizeOf inner < sizeOf e := by
  cases e with
  | call callee paren arguments =>
    rw [Expr.call.sizeOf_spec]
    obtain rfl | h := List.mem_cons.1 h
    · omega
    · have := List.sizeOf_lt_of_mem h
      omega
  | constant | var | this | super => cases h
  | grouping | unary | assign | get =>
    obtain rfl := List.mem_singleton.1 h
    simp +arith
  | binary | logical | set =>
    simp only [Expr.parts, List.mem_cons, List.not_mem_nil, or_false] at h
    obtain rfl | rfl := h <;> simp +arith

/-- A part of a statement that may be absent. -/
theorem Part.weight_lt_of_mem_toList {α : Type} [SizeOf α] {make : α → Part}
    (hmake : ∀ a, (make a).weight = sizeOf a) {a? : Option α} {part : Part}
    (h : part ∈ a?.toList.map make) : part.weight < sizeOf a? := by
  obtain ⟨a, ha, rfl⟩ := List.mem_map.1 h
  obtain rfl := Option.mem_toList.1 ha
  rw [hmake]
  simp

/-- One of several parts. -/
theorem Part.weight_lt_of_mem_map {α : Type} [SizeOf α] {make : α → Part}
    (hmake : ∀ a, (make a).weight = sizeOf a) {as : List α} {part : Part}
    (h : part ∈ as.map make) : part.weight < sizeOf as := by
  obtain ⟨a, ha, rfl⟩ := List.mem_map.1 h
  rw [hmake]
  exact List.sizeOf_lt_of_mem ha

theorem Stmt.weight_lt_of_mem_parts {s : Stmt} {part : Part} (h : part ∈ s.parts) :
    part.weight < sizeOf s := by
  cases s with
  | expression | print | funDecl =>
    obtain rfl := List.mem_singleton.1 h
    simp [Part.weight]
  | varDecl name value | ret name value =>
    have := Part.weight_lt_of_mem_toList (fun _ => rfl) h
    simp only [Stmt.varDecl.sizeOf_spec, Stmt.ret.sizeOf_spec]
    omega
  | block statements =>
    have := Part.weight_lt_of_mem_map (fun _ => rfl) h
    simp only [Stmt.block.sizeOf_spec]
    omega
  | loop condition body =>
    simp only [Stmt.parts, List.mem_cons, List.not_mem_nil, or_false] at h
    obtain rfl | rfl := h <;> simp +arith [Part.weight]
  | branch condition thenBranch elseBranch =>
    rw [Stmt.branch.sizeOf_spec]
    obtain rfl | h := List.mem_cons.1 h
    · simp +arith [Part.weight]
    obtain rfl | h := List.mem_cons.1 h
    · simp +arith [Part.weight]
    · have := Part.weight_lt_of_mem_toList (fun _ => rfl) h
      omega
  | classDecl name superclass methods =>
    rw [Stmt.classDecl.sizeOf_spec]
    obtain h | h := List.mem_append.1 h
    · have := Part.weight_lt_of_mem_toList (fun _ => rfl) h
      omega
    · have := Part.weight_lt_of_mem_map (fun _ => rfl) h
      omega

theorem Part.weight_lt_of_mem_parts {owner part : Part} (h : part ∈ owner.parts) :
    part.weight < owner.weight := by
  cases owner with
  | program statements => exact weight_lt_of_mem_map (fun _ => rfl) h
  | stmt s => exact s.weight_lt_of_mem_parts h
  | function isMethod f =>
    obtain ⟨name, params, body⟩ := f
    rw [weight, FunctionDecl.mk.sizeOf_spec]
    obtain h | h := List.mem_append.1 h
    · obtain ⟨param, -, rfl⟩ := List.mem_map.1 h
      simp +arith [weight]
    · have : part.weight < sizeOf body := weight_lt_of_mem_map (fun _ => rfl) h
      omega
  | param name => cases h
  | expr e =>
    obtain ⟨inner, hi, rfl⟩ := List.mem_map.1 h
    exact Expr.sizeOf_lt_of_mem_parts hi

/-! ## Trails -/

/-- The parts around a place, innermost first, each with the index of the next part inside. -/
abbrev Trail := List (Part × Nat)

/-- The part stands at the trail. -/
inductive Reaches (root : Part) : Trail → Part → Prop where
  | here : Reaches root [] root
  | down {trail : Trail} {owner part : Part} {i : Nat} :
      Reaches root trail owner → owner.parts[i]? = some part →
        Reaches root ((owner, i) :: trail) part

namespace Part

/-- The places in a part that stands at the trail, from the outside in and from left to right. -/
def places (trail : Trail) (part : Part) : List (Trail × Part) :=
  (trail, part) :: part.parts.attach.zipIdx.flatMap fun ⟨⟨inner, _⟩, i⟩ =>
    inner.places ((part, i) :: trail)
termination_by part.weight
decreasing_by exact weight_lt_of_mem_parts ‹_›

/-- The places in parts that stand in a row in their owner, the first of them at index `i`. -/
def placesAll (trail : Trail) (owner : Part) (i : Nat) (parts : List Part) :
    List (Trail × Part) :=
  (parts.zipIdx i).flatMap fun (part, i) => part.places ((owner, i) :: trail)

theorem places_eq (trail : Trail) (part : Part) :
    part.places trail = (trail, part) :: placesAll trail part 0 part.parts := by
  have h : part.parts.zipIdx = part.parts.attach.zipIdx.map (Prod.map Subtype.val id) := by
    rw [← List.zipIdx_map, List.attach_map_subtype_val]
  rw [places, placesAll, h, List.flatMap_map]
  rfl

theorem placesAll_cons (trail : Trail) (owner : Part) (i : Nat) (part : Part) (rest : List Part) :
    placesAll trail owner i (part :: rest) =
      part.places ((owner, i) :: trail) ++ placesAll trail owner (i + 1) rest := rfl

theorem placesAll_append (trail : Trail) (owner : Part) (i : Nat) (xs ys : List Part) :
    placesAll trail owner i (xs ++ ys) =
      placesAll trail owner i xs ++ placesAll trail owner (i + xs.length) ys := by
  rw [placesAll, List.zipIdx_append, List.flatMap_append]
  rfl

theorem mem_placesAll {trail t : Trail} {owner part : Part} {parts : List Part} :
    (t, part) ∈ placesAll trail owner 0 parts ↔
      ∃ (i : Nat) (inner : Part), parts[i]? = some inner ∧
        (t, part) ∈ inner.places ((owner, i) :: trail) := by
  simp only [placesAll, List.mem_flatMap, Prod.exists, List.mem_zipIdx_iff_getElem?]
  exact exists_comm

/-- An induction over the parts of a program. -/
theorem induction_on {motive : Part → Prop}
    (step : ∀ owner, (∀ part ∈ owner.parts, motive part) → motive owner) (part : Part) :
    motive part :=
  step part fun inner _ => induction_on step inner
termination_by part.weight
decreasing_by exact weight_lt_of_mem_parts ‹_›

/-! ## All places, each once -/

/-- Every place in a part is reached through the part. -/
theorem suffix_of_mem_places (part : Part) : ∀ {trail t : Trail} {inner : Part},
    (t, inner) ∈ part.places trail → trail <:+ t := by
  induction part using induction_on with
  | step owner ih =>
    intro trail t inner h
    rw [places_eq, List.mem_cons, mem_placesAll] at h
    obtain h | ⟨i, child, hi, h⟩ := h
    · cases h
      exact List.suffix_refl _
    · exact (List.suffix_cons _ _).trans (ih child (List.mem_of_getElem? hi) h)

/-- What stands directly inside a place is a place. -/
theorem mem_places_down (part : Part) : ∀ {trail t : Trail} {owner inner : Part} {i : Nat},
    (t, owner) ∈ part.places trail → owner.parts[i]? = some inner →
      ((owner, i) :: t, inner) ∈ part.places trail := by
  induction part using induction_on with
  | step part ih =>
    intro trail t owner inner i h hi
    rw [places_eq, List.mem_cons, mem_placesAll] at h ⊢
    obtain h | ⟨j, child, hj, h⟩ := h
    · cases h
      refine .inr ⟨i, inner, hi, ?_⟩
      rw [places_eq]
      exact List.mem_cons_self
    · exact .inr ⟨j, child, hj, ih child (List.mem_of_getElem? hj) h hi⟩

theorem reaches_of_mem_places {root : Part} (part : Part) : ∀ {trail t : Trail} {inner : Part},
    Reaches root trail part → (t, inner) ∈ part.places trail → Reaches root t inner := by
  induction part using induction_on with
  | step part ih =>
    intro trail t inner hr h
    rw [places_eq, List.mem_cons, mem_placesAll] at h
    obtain h | ⟨i, child, hi, h⟩ := h
    · cases h
      exact hr
    · exact ih child (List.mem_of_getElem? hi) (hr.down hi) h

/-- The places in a program are those that its trails reach. -/
theorem mem_places {root part : Part} {trail : Trail} :
    (trail, part) ∈ root.places [] ↔ Reaches root trail part := by
  refine ⟨reaches_of_mem_places root .here, fun h => ?_⟩
  induction h with
  | here =>
    rw [places_eq]
    exact List.mem_cons_self
  | down _ hi ih => exact mem_places_down root ih hi

/-- Places in different parts of one owner have different trails. -/
theorem ne_of_mem_places {trail t u : Trail} {owner x y p q : Part} {i j : Nat} (hij : i ≠ j)
    (ht : (t, p) ∈ x.places ((owner, i) :: trail))
    (hu : (u, q) ∈ y.places ((owner, j) :: trail)) : t ≠ u := by
  rintro rfl
  have hlen : ((owner, i) :: trail).length = ((owner, j) :: trail).length := rfl
  have heq : (owner, i) :: trail = (owner, j) :: trail :=
    (List.suffix_of_suffix_length_le (suffix_of_mem_places x ht) (suffix_of_mem_places y hu)
      (Nat.le_of_eq hlen)).eq_of_length hlen
  simp [hij] at heq

/-- No trail is listed twice. -/
theorem nodup_places (part : Part) : ∀ trail : Trail,
    ((part.places trail).map Prod.fst).Nodup := by
  induction part using induction_on with
  | step owner ih =>
    intro trail
    rw [places_eq, List.map_cons, List.nodup_cons]
    constructor
    · intro h
      obtain ⟨⟨t, inner⟩, h, rfl⟩ := List.mem_map.1 h
      obtain ⟨i, child, -, h⟩ := mem_placesAll.1 h
      exact Nat.not_succ_le_self _ (suffix_of_mem_places child h).length_le
    · rw [placesAll, List.map_flatMap, List.nodup_flatMap]
      constructor
      · rintro ⟨child, i⟩ h
        exact ih child (List.mem_of_getElem? (List.mem_zipIdx_iff_getElem?.1 h)) _
      · have hindices : (owner.parts.zipIdx.map Prod.snd).Nodup := by
          rw [List.zipIdx_map_snd]
          exact List.nodup_range'
        refine (List.pairwise_map.1 hindices).imp fun {x y} hne t hx hy => ?_
        obtain ⟨⟨_, p⟩, hp, rfl⟩ := List.mem_map.1 hx
        obtain ⟨⟨_, q⟩, hq, heq⟩ := List.mem_map.1 hy
        exact ne_of_mem_places hne hp hq heq.symm

end Part

end Lox
