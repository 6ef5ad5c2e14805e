import Lox.Proofs.Tree.Places
import Lox.Proofs.Tree.Shape
import Mathlib.Data.List.Pairwise

/-!
# Nodes and their ids

Four sorts of expressions look a name up, and each such node carries an id. The ids in a program are
those of the nodes at its places, whether they are collected from the places or from the names that
the program mentions (`Part.ids_places`). So if no id is there twice, an id leads to one place
(`Part.trail_eq`).
-/

namespace Lox

/-- If no two elements of a list have the same id, then an id leads to one element. -/
theorem eq_of_nodup_filterMap {α β : Type} {f : α → Option β} {l : List α}
    (h : (l.filterMap f).Nodup) {a a' : α} (ha : a ∈ l) (ha' : a' ∈ l) {b : β}
    (hb : f a = some b) (hb' : f a' = some b) : a = a' := by
  have hsymm : Std.Symm fun a a' => ∀ b, f a = some b → ∀ b', f a' = some b' → b ≠ b' :=
    ⟨fun _ _ hdiffer b hb b' hb' => (hdiffer b' hb' b hb).symm⟩
  have hpair := List.pairwise_filterMap.1 h
  by_contra hne
  exact hpair.forall ha ha' hne b hb b hb' rfl

/-- The id of an expression that looks a name up. -/
def Expr.id? : Expr → Option NodeId
  | .var id _ | .assign id _ _ | .this id _ | .super id _ _ => some id
  | .constant _ | .grouping _ | .unary _ _ | .binary _ _ _ | .logical _ _ _ | .call _ _ _
  | .get _ _ | .set _ _ _ => none

/-! ## Names in several trees -/

theorem Expr.mentionsAll_eq (es : List Expr) : Expr.mentionsAll es = es.flatMap Expr.mentions := by
  induction es with
  | nil => rfl
  | cons e es ih => rw [Expr.mentionsAll, ih, List.flatMap_cons]

theorem Stmt.mentionsAll_eq (ss : List Stmt) : Stmt.mentionsAll ss = ss.flatMap Stmt.mentions := by
  induction ss with
  | nil => rfl
  | cons s ss ih => rw [Stmt.mentionsAll, ih, List.flatMap_cons]

theorem FunctionDecl.mentionsAll_eq (fs : List FunctionDecl) :
    FunctionDecl.mentionsAll fs = fs.flatMap FunctionDecl.mentions := by
  induction fs with
  | nil => rfl
  | cons f fs ih => rw [FunctionDecl.mentionsAll, ih, List.flatMap_cons]

theorem Expr.mentions?_eq (e : Option Expr) :
    Expr.mentions? e = e.toList.flatMap Expr.mentions := by
  cases e with
  | none => rfl
  | some e => exact (List.flatMap_singleton ..).symm

/-! ## The ids in a part -/

namespace Part

/-- The id of a part that looks a name up. -/
def id? : Part → Option NodeId
  | expr e => e.id?
  | program _ | stmt _ | function _ _ | param _ => none

/-- The names in a part. -/
def mentions : Part → List Mention
  | program statements => Stmt.mentionsAll statements
  | stmt s => s.mentions
  | function _ f => f.mentions
  | param name => [.declared name]
  | expr e => e.mentions

/-- The ids in a part. -/
def ids (part : Part) : List NodeId := part.mentions.filterMap Mention.id?

theorem ids_param (name : Token) : (param name).ids = [] := rfl

theorem flatMap_ids_expr (es : List Expr) :
    (es.map expr).flatMap ids = (es.flatMap Expr.mentions).filterMap Mention.id? := by
  rw [List.flatMap_map, List.filterMap_flatMap]
  rfl

theorem flatMap_ids_stmt (ss : List Stmt) :
    (ss.map stmt).flatMap ids = (Stmt.mentionsAll ss).filterMap Mention.id? := by
  rw [Stmt.mentionsAll_eq, List.flatMap_map, List.filterMap_flatMap]
  rfl

theorem flatMap_ids_function (isMethod : Bool) (fs : List FunctionDecl) :
    (fs.map (function isMethod)).flatMap ids =
      (FunctionDecl.mentionsAll fs).filterMap Mention.id? := by
  rw [FunctionDecl.mentionsAll_eq, List.flatMap_map, List.filterMap_flatMap]
  rfl

/-- An assignment comes after its value among the names, and before it among the places. -/
theorem ids_expr_perm (e : Expr) :
    (expr e).ids.Perm (e.id?.toList ++ (e.parts.map expr).flatMap ids) := by
  rw [flatMap_ids_expr, ids, mentions]
  cases e with
  | assign id name value => simp [Expr.id?, Expr.parts, Expr.mentions]
  | call callee paren arguments =>
    simp [Expr.id?, Expr.parts, Expr.mentions, Expr.mentionsAll_eq]
  | _ => simp [Expr.id?, Expr.parts, Expr.mentions]

theorem ids_stmt (s : Stmt) : (stmt s).ids = s.parts.flatMap ids := by
  cases s with
  | expression e => exact (List.append_nil _).symm
  | print e => exact (List.append_nil _).symm
  | varDecl name value =>
    rw [Stmt.parts, flatMap_ids_expr, ← Expr.mentions?_eq]
    rfl
  | block ss =>
    rw [Stmt.parts, flatMap_ids_stmt]
    rfl
  | branch condition thenBranch elseBranch =>
    cases elseBranch with
    | none => simp [ids, mentions, Stmt.parts, Stmt.mentions]
    | some other => simp [ids, mentions, Stmt.parts, Stmt.mentions]
  | loop condition body => simp [ids, mentions, Stmt.parts, Stmt.mentions]
  | funDecl f => exact (List.append_nil _).symm
  | ret keyword value =>
    rw [Stmt.parts, flatMap_ids_expr, ← Expr.mentions?_eq]
    rfl
  | classDecl name superclass methods =>
    rw [Stmt.parts, List.flatMap_append, flatMap_ids_function]
    cases superclass with
    | none => rfl
    | some e => simp [ids, mentions, Stmt.mentions, Mention.declared]

/-- The ids in a part are its own and those in the parts directly inside it. -/
theorem ids_perm (part : Part) : part.ids.Perm (part.id?.toList ++ part.parts.flatMap ids) := by
  cases part with
  | program ss =>
    rw [parts, flatMap_ids_stmt]
    exact .refl _
  | stmt s =>
    rw [ids_stmt]
    exact .refl _
  | function isMethod f =>
    obtain ⟨name, params, body⟩ := f
    have hparts : (params.map param).flatMap ids = [] := by
      simp [List.flatMap_map, ids_param]
    have hnames : (params.map Mention.declared).filterMap Mention.id? = [] :=
      List.filterMap_eq_nil_iff.2 (by simp [Mention.declared])
    rw [parts, List.flatMap_append, hparts, flatMap_ids_stmt, ids, mentions, FunctionDecl.mentions,
      List.filterMap_append, hnames]
    exact .refl _
  | param name => exact .refl _
  | expr e => exact ids_expr_perm e

/-! ## The ids at the places of a part -/

/-- Parts in a row have the ids that they have one by one. -/
theorem ids_placesAll (trail : Trail) (owner : Part) {parts : List Part}
    (h : ∀ part ∈ parts, ∀ trail : Trail,
      ((part.places trail).filterMap (·.2.id?)).Perm part.ids) (i : Nat) :
    ((placesAll trail owner i parts).filterMap (·.2.id?)).Perm (parts.flatMap ids) := by
  induction parts generalizing i with
  | nil => exact .refl _
  | cons part rest ih =>
    obtain ⟨hpart, hrest⟩ := List.forall_mem_cons.1 h
    rw [placesAll_cons, List.filterMap_append, List.flatMap_cons]
    exact (hpart _).append (ih hrest (i + 1))

/-- The ids in a part are those at its places. -/
theorem ids_places (part : Part) :
    ∀ trail : Trail, ((part.places trail).filterMap (·.2.id?)).Perm part.ids := by
  induction part using induction_on with
  | step owner ih =>
    intro trail
    have hown : ((owner.places trail).filterMap (·.2.id?)) =
        owner.id?.toList ++ (placesAll trail owner 0 owner.parts).filterMap (·.2.id?) := by
      rw [places_eq, List.filterMap_cons]
      cases owner.id? <;> rfl
    rw [hown]
    exact ((ids_placesAll trail owner ih 0).append_left _).trans owner.ids_perm.symm

variable {root : Part} {trail trail' : Trail} {e e' : Expr} {id : NodeId}

/-- An id in a part is that of a node at one of its places. -/
theorem mem_ids_iff :
    id ∈ root.ids ↔ ∃ trail e, Reaches root trail (.expr e) ∧ e.id? = some id := by
  rw [← (ids_places root []).mem_iff, List.mem_filterMap]
  constructor
  · rintro ⟨⟨trail, part⟩, hmem, hid⟩
    cases part with
    | expr e => exact ⟨trail, e, mem_places.1 hmem, hid⟩
    | _ => cases hid
  · rintro ⟨trail, e, hreaches, hid⟩
    exact ⟨(trail, .expr e), mem_places.2 hreaches, hid⟩

/-- If no id is there twice, then an id leads to one place. -/
theorem trail_eq (hnodup : root.ids.Nodup) (h : Reaches root trail (.expr e))
    (h' : Reaches root trail' (.expr e')) (hid : e.id? = some id) (hid' : e'.id? = some id) :
    trail = trail' := by
  have hplaces := (ids_places root []).nodup_iff.2 hnodup
  have heq := eq_of_nodup_filterMap hplaces (mem_places.2 h) (mem_places.2 h') hid hid'
  exact congrArg Prod.fst heq

end Part

end Lox
