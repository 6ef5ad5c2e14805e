import Lox.Proofs.Scoping.Visit
import Mathlib.Data.List.Basic

/-!
# What is on file about a node

The check files a distance at a visit to a node, under the id of the node. As long as no two
visits share an id, what is on file about a node is what the check found when it came there
(`Distances.getElem?_file_visits`), and a program leaves what is on file about the nodes of other
programs alone (`Distances.getElem?_file_of_not_mem`).
-/

namespace Lox.Scoping

variable {table : Distances} {id : NodeId}

/-! ## The ids under which something is filed -/

/-- The id under which a finding is filed. -/
def Finding.id? : Finding → Option NodeId
  | .distance id _ => some id
  | .offence _ => none

theorem filterMap_ite {p : Prop} [Decidable p] (error : ScopeError) :
    (if p then [Finding.offence error] else []).filterMap Finding.id? = [] := by
  split <;> rfl

theorem filterMap_misplacedSuper (ctx : Context) (keyword : Token) :
    (ctx.misplacedSuper keyword).filterMap Finding.id? = [] := by
  unfold Context.misplacedSuper
  split <;> rfl

theorem filterMap_selfInheritance (name : Token) (superclass : Expr) :
    (selfInheritance name superclass).filterMap Finding.id? = [] := by
  unfold selfInheritance
  split
  · exact filterMap_ite _
  · rfl

theorem sublist_lookup (ctx : Context) (id : NodeId) (name : Token) :
    ((ctx.lookup id name).filterMap Finding.id?).Sublist [id] := by
  unfold Context.lookup
  cases ctx.hops? name.lexeme with
  | none => exact List.nil_sublist _
  | some d => exact List.Sublist.refl _

/-- A visit files nothing but the distance of its node. -/
theorem Visit.sublist_findings (v : Visit) :
    (v.findings.filterMap Finding.id?).Sublist v.id?.toList := by
  cases v with
  | look kind ctx id name =>
    have hlook := sublist_lookup ctx id name
    cases kind with
    | read =>
      rw [findings, List.filterMap_append, Context.earlyRead, filterMap_ite]
      exact hlook
    | write => exact hlook
    | this =>
      rw [findings]
      split
      · exact List.nil_sublist _
      · exact hlook
    | super =>
      rw [findings, List.filterMap_append, filterMap_misplacedSuper]
      exact hlook
  | declare ctx name =>
    rw [findings, Context.redeclaration, filterMap_ite]
    exact List.nil_sublist _
  | ret ctx keyword value =>
    rw [findings, Context.misplacedReturn, List.filterMap_append, filterMap_ite, filterMap_ite]
    exact List.nil_sublist _
  | inherit name superclass =>
    rw [findings, filterMap_selfInheritance]
    exact List.nil_sublist _

theorem sublist_flatMap_findings (vs : List Visit) :
    ((vs.flatMap Visit.findings).filterMap Finding.id?).Sublist (vs.filterMap Visit.id?) := by
  induction vs with
  | nil => exact List.Sublist.refl _
  | cons v vs ih =>
    have hcons : (v :: vs).filterMap Visit.id? = v.id?.toList ++ vs.filterMap Visit.id? := by
      rw [List.filterMap_cons]
      cases v.id? <;> rfl
    rw [List.flatMap_cons, List.filterMap_append, hcons]
    exact v.sublist_findings.append ih

/-! ## The table -/

namespace Distances

theorem file_append (table : Distances) (a b : List Finding) :
    table.file (a ++ b) = (table.file a).file b :=
  List.foldl_append

/-- Findings leave alone what is on file under other ids. -/
theorem getElem?_file_of_not_filed {findings : List Finding}
    (h : id ∉ findings.filterMap Finding.id?) : (table.file findings)[id]? = table[id]? := by
  induction findings generalizing table with
  | nil => rfl
  | cons f rest ih =>
    cases f with
    | offence error => exact ih h
    | distance other hops =>
      have hid : (Finding.distance other hops).id? = some other := rfl
      rw [List.filterMap_cons_some hid, List.mem_cons, not_or] at h
      have hinsert : (table.insert other hops)[id]? = table[id]? := by
        simp [Std.TreeMap.getElem?_insert, Ne.symm h.1]
      exact (ih h.2).trans hinsert

/-- Offences leave the table alone. -/
theorem file_of_filterMap_eq_nil {findings : List Finding}
    (h : findings.filterMap Finding.id? = []) : table.file findings = table := by
  induction findings generalizing table with
  | nil => rfl
  | cons f rest ih =>
    cases f with
    | offence error => exact ih h
    | distance other hops => cases h

theorem getElem?_file_lookup (table : Distances) (ctx : Context) (id other : NodeId)
    (name : Token) :
    (table.file (ctx.lookup id name))[other]? =
      if id = other then (ctx.hops? name.lexeme).or table[other]? else table[other]? := by
  unfold Context.lookup
  cases ctx.hops? name.lexeme with
  | none => simp [file]
  | some d =>
    by_cases h : id = other <;> simp [file, Std.TreeMap.getElem?_insert, h]

/-- A first visit to a node. Outside classes there is nothing that `this` could stand for. -/
theorem getElem?_file_findings {kind : Look} {ctx : Context} {name : Token}
    (hthis : kind = .this → ctx.class_ ≠ .outside) (hnone : table[id]? = none) :
    (table.file (Visit.look kind ctx id name).findings)[id]? = ctx.hops? name.lexeme := by
  have hlook : (table.file (ctx.lookup id name))[id]? = ctx.hops? name.lexeme := by
    rw [getElem?_file_lookup, if_pos rfl, hnone, Option.or_none]
  cases kind with
  | read =>
    rw [Visit.findings, file_append, Context.earlyRead,
      file_of_filterMap_eq_nil (filterMap_ite _), hlook]
  | write => rw [Visit.findings, hlook]
  | this => rw [Visit.findings, if_neg (hthis rfl), hlook]
  | super =>
    rw [Visit.findings, file_append,
      file_of_filterMap_eq_nil (filterMap_misplacedSuper ctx name), hlook]

/-- A program says nothing about the nodes of others. -/
theorem getElem?_file_of_not_mem {vs : List Visit} (h : id ∉ vs.filterMap Visit.id?) :
    (table.file (vs.flatMap Visit.findings))[id]? = table[id]? :=
  getElem?_file_of_not_filed fun hmem => h ((sublist_flatMap_findings vs).subset hmem)

/-- What is on file about a node was filed at the visit to it. -/
theorem exists_getElem?_file {vs : List Visit} (hnd : (vs.filterMap Visit.id?).Nodup) {v : Visit}
    (hv : v ∈ vs) (hid : v.id? = some id) (hnone : table[id]? = none) :
    ∃ before : Distances, before[id]? = none ∧
      (table.file (vs.flatMap Visit.findings))[id]? = (before.file v.findings)[id]? := by
  obtain ⟨before, after, rfl⟩ := List.append_of_mem hv
  rw [List.filterMap_append, List.filterMap_cons_some hid, List.nodup_append] at hnd
  obtain ⟨-, hafter, hbefore⟩ := hnd
  have hb : id ∉ before.filterMap Visit.id? := fun hmem =>
    hbefore id hmem id List.mem_cons_self rfl
  have ha : id ∉ after.filterMap Visit.id? := (List.nodup_cons.1 hafter).1
  refine ⟨table.file (before.flatMap Visit.findings), ?_, ?_⟩
  · rw [getElem?_file_of_not_mem hb, hnone]
  · rw [List.flatMap_append, List.flatMap_cons, file_append, file_append,
      getElem?_file_of_not_mem ha]

/-- What is on file about a node is what was found at the visit to it. -/
theorem getElem?_file_visits {vs : List Visit} (hnd : (vs.filterMap Visit.id?).Nodup)
    {kind : Look} {ctx : Context} {name : Token} (hv : Visit.look kind ctx id name ∈ vs)
    (hthis : kind = .this → ctx.class_ ≠ .outside) (hnone : table[id]? = none) :
    (table.file (vs.flatMap Visit.findings))[id]? = ctx.hops? name.lexeme := by
  obtain ⟨before, hbefore, heq⟩ := exists_getElem?_file hnd hv rfl hnone
  rw [heq, getElem?_file_findings hthis hbefore]

end Distances

end Lox.Scoping
