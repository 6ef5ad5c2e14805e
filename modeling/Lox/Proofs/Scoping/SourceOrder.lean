import Lox.Proofs.Grammar.Language
import Lox.Proofs.Grammar.Parametric
import Lox.Proofs.Grammar.Written
import Lox.Proofs.Scoping.Alike
import Lox.Proofs.Scoping.Offences
import Lox.Proofs.Token.Segments

/-!
# The order of offences

The check lists offences in the order in which it walks a program. That is the order of their tokens
in the source, unless one of two kinds of nodes turns it round: the value of a property assignment
is checked before the object, and the body of a `for` before the increment (`Turned`).

Equal tokens may stand at several places of a source, so the place of an offence is found by
numbering the tokens before they are parsed (`numbered`); parsing does not look at lines.

Main statement: the offences of a source that parses come in the order of their places, but for
pairs that are turned round, and without such pairs their lines never decrease
(`offences_in_source_order`).
-/

namespace Lox

namespace Scoping

/-! ## Places of offences -/

theorem sites_sublist {trail : Trail} {part : Part} (name : Option Token) (keywords : List Token)
    (hname : part.declares? = name)
    (hkeywords : ((misusesAt trail part).map ScopeError.site).Sublist keywords) :
    ((offencesAt trail part).map ScopeError.site).Sublist (name.toList ++ keywords) := by
  rw [offencesAt, hname, List.map_append]
  refine List.Sublist.append ?_ hkeywords
  cases name with
  | none => exact List.nil_sublist _
  | some name =>
    rw [Option.toList_some, List.flatMap_singleton, redeclaredAt]
    split <;> simp

/-- A part is at fault only at its marks, and at one after the other. -/
theorem sites_sublist_marks (trail : Trail) (part : Part) :
    ((offencesAt trail part).map ScopeError.site).Sublist part.marks := by
  -- A part offends with the name that it declares, or else with its keyword or superclass.
  cases part with
  | program | function => exact List.nil_sublist _
  | param name => exact sites_sublist (some name) [] rfl (List.nil_sublist _)
  | expr e =>
    cases e with
    | var _ name | this _ name =>
      refine sites_sublist none [name] rfl ?_
      rw [misusesAt]
      split <;> simp
    | super _ keyword _ =>
      refine sites_sublist none [keyword] rfl ?_
      rw [misusesAt]
      split <;> simp
    | _ => exact List.nil_sublist _
  | stmt s =>
    cases s with
    | varDecl name => exact sites_sublist (some name) [] rfl (List.nil_sublist _)
    | funDecl f => exact sites_sublist (some f.name) [] rfl (List.nil_sublist _)
    | ret keyword value =>
      refine sites_sublist none [keyword] rfl ?_
      rw [misusesAt]
      split
      · simp
      · split <;> simp
    | classDecl name superclass methods =>
      cases superclass with
      | none => exact sites_sublist (some name) [] rfl (List.nil_sublist _)
      | some superclass =>
        cases superclass with
        | var _ superclass =>
          refine sites_sublist (some name) [superclass] rfl ?_
          rw [misusesAt]
          split <;> simp
        | _ => exact sites_sublist (some name) [] rfl (List.nil_sublist _)
    | _ => exact List.nil_sublist _

theorem hasMark_of_mem_offencesIn {x : ScopeError} (part : Part) : ∀ {trail : Trail},
    x ∈ offencesIn trail part → part.HasMark x.site := by
  induction part using Part.induction_on with
  | step part ih =>
    intro trail hx
    rw [offencesIn_eq, List.mem_append] at hx
    -- An offence of the part itself is at one of its marks; all others are at marks inside.
    obtain hx | hx := hx
    · exact .mark ((sites_sublist_marks trail part).subset (List.mem_map_of_mem hx))
    · obtain ⟨⟨t, inner⟩, hplace, hx⟩ := List.mem_flatMap.1 hx
      obtain ⟨i, child, hi, hplace⟩ := Part.mem_placesAll.1 hplace
      have hmem : child ∈ part.parts := List.mem_of_getElem? hi
      exact .inside hmem (ih child hmem (List.mem_flatMap.2 ⟨_, hplace, hx⟩))

/-! ## What is checked in another order than it is written -/

/-- The first token is checked before the second, though it is written behind it. -/
inductive Turned (root : Part) (t u : Token) : Prop
  | assignment {trail : Trail} {object value : Expr} {name : Token} :
      Reaches root trail (.expr (.set object name value)) → (Part.expr value).HasMark t →
      (Part.expr object).HasMark u → u.line < t.line → Turned root t u
  | increment {trail : Trail} {condition step : Expr} {body : Stmt} :
      Reaches root trail (.stmt (.loop condition (.block [body, .expression step]))) →
      (Part.stmt body).HasMark t → (Part.expr step).HasMark u → u.line < t.line → Turned root t u

theorem Turned.lt {root : Part} {t u : Token} (h : Turned root t u) : u.line < t.line := by
  cases h with
  | assignment _ _ _ hlt | increment _ _ _ hlt => exact hlt

/-- The tokens are in order, or the program turns them round. -/
def InTurn (root : Part) (p q : ScopeError) : Prop :=
  p.site.line ≤ q.site.line ∨ Turned root p.site q.site

theorem offencesInAll_eq (trail : Trail) (owner : Part) (i : Nat) (parts : List Part) :
    offencesInAll trail owner i parts =
      (parts.zipIdx i).flatMap fun (part, i) => offencesIn ((owner, i) :: trail) part :=
  List.flatMap_assoc

/-- Parts of which each is in turn, and which are in turn among each other. -/
theorem pairwise_offencesInAll {R : ScopeError → ScopeError → Prop} {trail : Trail} {owner : Part}
    {parts : List Part}
    (hparts : ∀ i part, parts[i]? = some part →
      (offencesIn ((owner, i) :: trail) part).Pairwise R)
    (hcross : parts.Pairwise fun a b => ∀ p q, a.HasMark p.site → b.HasMark q.site → R p q) :
    (offencesInAll trail owner 0 parts).Pairwise R := by
  rw [offencesInAll_eq, List.pairwise_flatMap]
  constructor
  · rintro ⟨part, i⟩ h
    exact hparts i part (List.mem_zipIdx_iff_getElem?.1 h)
  · rw [← List.zipIdx_map_fst 0 parts, List.pairwise_map] at hcross
    refine hcross.imp fun {a b} h p hp q hq => ?_
    exact h p q (hasMark_of_mem_offencesIn a.1 hp) (hasMark_of_mem_offencesIn b.1 hq)

/-- In the loop that stands for a `for` the body comes before the increment. -/
theorem pairwise_offencesIn_increment {root : Part} {trail : Trail} {condition step : Expr}
    {body : Stmt}
    (hr : Reaches root trail (.stmt (.loop condition (.block [body, .expression step]))))
    (hparts : [.expr condition, .expr step, .stmt body].Pairwise Part.Before)
    (hin : ∀ part ∈ [.expr condition, .expr step, .stmt body], ∀ trail, Reaches root trail part →
      (offencesIn trail part).Pairwise (InTurn root)) :
    (offencesIn trail (.stmt (.loop condition (.block [body, .expression step])))).Pairwise
      (InTurn root) := by
  simp only [List.forall_mem_cons, List.pairwise_cons] at hin hparts
  obtain ⟨hcondition, hstep, hbody, -⟩ := hin
  obtain ⟨⟨hbefore, hbefore', -⟩, ⟨hturned, -⟩, -⟩ := hparts
  -- The increment is two levels down, in a statement of its own at the end of the block.
  have hblock : Reaches root _ (.stmt (.block [body, .expression step])) := hr.down (i := 1) rfl
  have hlast : Reaches root _ (.stmt (.expression step)) := hblock.down (i := 1) rfl
  rw [offencesIn_of_nil rfl]
  refine pairwise_offencesInAll ?_ (List.pairwise_pair.2 fun p q hp hq => .inl ?_)
  · rintro (_ | _ | i) inner hi <;> cases hi
    · exact hcondition _ (hr.down rfl)
    · rw [offencesIn_of_nil rfl]
      refine pairwise_offencesInAll ?_ (List.pairwise_pair.2 fun p q hp hq => ?_)
      · rintro (_ | _ | i) inner hi <;> cases hi
        · exact hbody _ (hblock.down rfl)
        · rw [offencesIn_of_nil rfl]
          refine pairwise_offencesInAll ?_ (List.pairwise_singleton _ _)
          rintro (_ | i) inner hi <;> cases hi
          exact hstep _ (hlast.down rfl)
      · have hq' := Part.hasMark_expression.1 hq
        exact .inr (.increment hr hp hq' (hturned _ _ hq' hp))
  · obtain hq | hq := Part.hasMark_incremented.1 hq
    · exact Nat.le_of_lt (hbefore' _ _ hp hq)
    · exact Nat.le_of_lt (hbefore _ _ hp hq)

/-- What the check lists in a part that is in order is in turn. -/
theorem pairwise_offencesIn {root part : Part} (h : part.Ordered) {trail : Trail}
    (hr : Reaches root trail part) : (offencesIn trail part).Pairwise (InTurn root) := by
  induction h generalizing trail with
  | @node part hmarks hinner hparts _ ih =>
    rw [offencesIn_eq]
    refine List.pairwise_append.2 ⟨?_, ?_, fun p hp q hq => ?_⟩
    -- First the offences of the part itself, then those of its parts; the marks come before all
    -- that is inside.
    · have hsites := hmarks.sublist (sites_sublist_marks trail part)
      exact (List.pairwise_map.1 hsites).imp .inl
    · refine pairwise_offencesInAll (fun i inner hi => ?_) (hparts.imp fun h p q hp hq => ?_)
      · exact ih inner (List.mem_of_getElem? hi) (hr.down hi)
      · exact .inl (Nat.le_of_lt (h p.site q.site hp hq))
    · have hp' := (sites_sublist_marks trail part).subset (List.mem_map_of_mem hp)
      rw [offencesInAll_eq] at hq
      obtain ⟨⟨inner, i⟩, hi, hq⟩ := List.mem_flatMap.1 hq
      have hmem := List.mem_of_getElem? (List.mem_zipIdx_iff_getElem?.1 hi)
      exact .inl (hinner _ hp' inner hmem _ (hasMark_of_mem_offencesIn inner hq))
  | @assignment object value name hbefore _ _ iho ihv =>
    rw [offencesIn_of_nil rfl]
    refine pairwise_offencesInAll ?_ (List.pairwise_pair.2 fun p q hp hq => ?_)
    -- The value is checked before the object, against the order in which they are written.
    · rintro (_ | _ | i) inner hi <;> cases hi
      · exact ihv (hr.down rfl)
      · exact iho (hr.down rfl)
    · exact .inr (.assignment hr hp hq (hbefore _ _ hq hp))
  | increment hparts _ _ _ ihc ihs ihb =>
    refine pairwise_offencesIn_increment hr hparts ?_
    simp only [List.forall_mem_cons]
    exact ⟨fun _ => ihc, fun _ => ihs, fun _ => ihb, List.forall_mem_nil _⟩

/-! ## Numbered tokens -/

/-- The tokens with their places in the list for lines. -/
def numbered (tokens : List Token) : List Token := tokens.mapIdx fun i t => { t with line := i }

/-- A token of a list, and the same one with its place for a line. -/
def placed (tokens : List Token) : Likeness :=
  ⟨fun t t' => tokens[t'.line]? = some t ∧ t' = { t with line := t'.line }, And.right⟩

theorem increasing_numbered (tokens : List Token) : Syntax.Increasing (numbered tokens) := by
  refine List.pairwise_iff_getElem.2 fun i j hi hj hij => ?_
  simpa [numbered] using hij

theorem placed_numbered {tokens front : List Token} (h : front <+: tokens) :
    List.Forall₂ (placed tokens).rel front (numbered front) := by
  refine List.forall₂_iff_get.2 ⟨List.length_mapIdx.symm, fun i hi _ => ?_⟩
  have hget : tokens[i]? = some front[i] :=
    List.getElem?_eq_some_iff.2 ⟨_, (h.getElem hi).symm⟩
  simp [numbered, placed, hget]

/-- What is done to the tokens of a list one by one, their kinds apart, is done to those of the
program in it. -/
theorem programTokens_mapIdx {f : Nat → Token → Token} (hf : ∀ i t, (f i t).kind = t.kind)
    (tokens : List Token) :
    programTokens (tokens.mapIdx f) = (programTokens tokens).mapIdx f := by
  induction tokens generalizing f with
  | nil => rfl
  | cons t ts ih =>
    have hrest := ih (f := fun i => f (i + 1)) fun i => hf (i + 1)
    rw [programTokens] at hrest
    by_cases hk : t.kind = .eof
    · simp [programTokens, List.mapIdx_cons, hf, hk]
    · simpa [programTokens, List.mapIdx_cons, hf, hk] using hrest

/-! ## Whole sources -/

/-- Tokens that stand further and further in a list that goes down line by line. -/
theorem pairwise_line_of_places {tokens : List Token} {errors places : List ScopeError}
    (h : List.Forall₂ (fun e p => tokens[p.site.line]? = some e.site) errors places)
    (hlines : tokens.Pairwise fun t u => t.line ≤ u.line)
    (hplaces : places.Pairwise fun p q => p.site.line ≤ q.site.line) :
    errors.Pairwise fun e f => e.site.line ≤ f.site.line := by
  refine List.pairwise_iff_getElem.2 fun i j hi hj hij => ?_
  have hi' := h.length_eq ▸ hi
  have hj' := h.length_eq ▸ hj
  obtain ⟨hp, he⟩ := List.getElem?_eq_some_iff.1 (h.get hi hi')
  obtain ⟨hq, hf⟩ := List.getElem?_eq_some_iff.1 (h.get hj hj')
  have hle := List.pairwise_iff_getElem.1 hplaces i j hi' hj' hij
  have hget := List.pairwise_iff_getElem.1 hlines _ _ hp hq
  simp only [List.get_eq_getElem] at he hf hget
  rw [← he, ← hf]
  obtain hlt | heq := Nat.lt_or_eq_of_le hle
  · exact hget hlt
  · simp only [heq, Nat.le_refl]

/-- In a source that parses, the offences come in the order of their places, exactly if no two of
them are turned round; then they come line by line. -/
theorem offences_in_source_order (firstId : NodeId) (source : String)
    (hparsed : (parse firstId (Lexer.tokens (scan source))).errors = []) :
    let tokens := Lexer.tokens (scan source)
    let errors := offences (check (parse firstId tokens).statements)
    let program := (parse firstId (numbered tokens)).statements
    let places := offences (check program)
    List.Forall₂ (fun e p => tokens[p.site.line]? = some e.site ∧ p.fault = e.fault) errors places ∧
    places.Pairwise (InTurn (.program program)) ∧
    (places.Pairwise (fun p q => p.site.line ≤ q.site.line) ↔
      places.Pairwise fun p q => ¬Turned (.program program) p.site q.site) ∧
    (places.Pairwise (fun p q => p.site.line ≤ q.site.line) →
      errors.Pairwise fun e f => e.site.line ≤ f.site.line) := by
  intro tokens errors program places
  -- Numbering the tokens changes lines only, so the numbered list has the same program with the
  -- same offences.
  have hprogram : programTokens (numbered tokens) = numbered (programTokens tokens) :=
    programTokens_mapIdx (f := fun i t => { t with line := i }) (fun _ _ => rfl) tokens
  have hplaced : List.Forall₂ (placed tokens).rel (programTokens tokens)
      (programTokens (numbered tokens)) :=
    hprogram ▸ placed_numbered (List.takeWhile_prefix _)
  have hstatements := statements_alike hplaced firstId firstId
  have hsound := parse_sound (errors_eq_nil_of_alike hplaced firstId firstId hparsed)
  -- In the numbered list every token is further down than those before it, so its tree is in order.
  have hordered : (Part.program program).Ordered :=
    .of_blank (hsound.ordered (hprogram ▸ increasing_numbered _))
  obtain ⟨d, -, -, hread⟩ := parse_read firstId (numbered tokens)
  have hplaces : places = offencesIn [] (.program program) := by
    rw [← map_snd_offencePlaces]
    exact offences_check hread.plain
  have hturn : places.Pairwise (InTurn (.program program)) :=
    hplaces ▸ pairwise_offencesIn hordered .here
  have hsites : List.Forall₂ (fun e p => tokens[p.site.line]? = some e.site ∧ p.fault = e.fault)
      errors places := hstatements.offences.imp fun e p h => ⟨h.site.1, h.fault⟩
  have hlines := (Lexer.pairwise_line_tokens 1 (Lexer.segments source.toList)).2
  rw [← scan_eq_items] at hlines
  refine ⟨hsites, hturn, ⟨fun h => ?_, fun h => ?_⟩, fun h => ?_⟩
  · exact h.imp fun hle hturned => Nat.not_lt_of_le hle (Turned.lt hturned)
  · exact (hturn.and h).imp fun h => h.1.resolve_right h.2
  · exact pairwise_line_of_places (hsites.imp fun _ _ h => h.1) hlines h

/-- In an assignment to a property of `this`, the keyword of the value is reported first. -/
theorem offences_in_source_order_assignment :
    (parse 0 (Lexer.tokens (scan "this\n.a = this;"))).errors = [] ∧
    Turned (.program (parse 0 (numbered (Lexer.tokens (scan "this\n.a = this;")))).statements)
      ⟨.thisWord, "this", none, 4⟩ ⟨.thisWord, "this", none, 0⟩ := by
  have hparsed : (parse 0 (Lexer.tokens (scan "this\n.a = this;"))).errors = [] := by
    decide +kernel
  have hplaces : offences
      (check (parse 0 (numbered (Lexer.tokens (scan "this\n.a = this;")))).statements) =
        [⟨⟨.thisWord, "this", none, 4⟩, .thisOutside⟩,
          ⟨⟨.thisWord, "this", none, 0⟩, .thisOutside⟩] := by
    decide +kernel
  have hturn := (offences_in_source_order 0 "this\n.a = this;" hparsed).2.1
  rw [hplaces] at hturn
  exact ⟨hparsed, (List.pairwise_pair.1 hturn).resolve_left (by decide)⟩

/-- Offences may come in another order than they are written. -/
theorem offences_out_of_order :
    ¬∀ (firstId : NodeId) (source : String),
      (parse firstId (Lexer.tokens (scan source))).errors = [] →
      (offences (check (parse firstId (Lexer.tokens (scan source))).statements)).Pairwise
        fun e f => e.site.line ≤ f.site.line := by
  intro h
  have hlines := h 0 "this\n.a = this;" (by decide +kernel)
  revert hlines
  decide +kernel

example :
    let program := (parse 0 (Lexer.tokens (scan "for (;; this)\n  return;"))).statements
    (offences (check program)).map (fun e => (e.fault, e.site.line)) =
      [(.returnOutside, 2), (.thisOutside, 1)] := by
  decide +kernel

end Scoping

end Lox
