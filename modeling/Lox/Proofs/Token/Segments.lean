import Lox.Proofs.Token.Scanner
import Mathlib.Data.List.Basic
import Mathlib.Data.List.TakeWhile
import Mathlib.Tactic.Common

/-!
# Segments, newlines and lines

What a segment can be (`Shape.Proper`): a number or string has a value, and every row of digits that
the lexer takes for a number can be read as one.

A newline ends every segment but an open string. So a source that does not end within a string can
be followed by a newline and another source, and each is cut into segments as if it stood alone
(`segments_newline`). The tokens of the second stand on lines further down, and nothing else about
them changes (`scan_newline_of_closed`).
-/

namespace Lox

namespace Lexer

/-! ## Shapes -/

/-- What a segment of a source can be. -/
def Shape.Proper : Shape → Prop
  | .lexeme kind literal => kind ≠ .eof ∧ (kind = .number ∨ kind = .string → literal.isSome)
  | .badNumber => False
  | .blank | .comment | .stray _ | .openString => True

/-- A row that ends with a text, or at the head of what follows it, is not made longer by that. -/
theorem takeWhile_append_stop {p : Char → Bool} (xs ys : List Char)
    (h : xs.dropWhile p ≠ [] ∨ ∀ c ∈ ys.head?, p c = false) :
    (xs ++ ys).takeWhile p = xs.takeWhile p ∧ (xs ++ ys).dropWhile p = xs.dropWhile p ++ ys := by
  induction xs with
  | nil =>
    cases ys with
    | nil => exact ⟨rfl, rfl⟩
    | cons c ys =>
      have hc : p c = false := h.resolve_left (fun hnil => hnil rfl) c rfl
      simp [hc]
  | cons c xs ih =>
    by_cases hc : p c
    · rw [List.dropWhile_cons_of_pos hc] at h
      obtain ⟨htake, hdrop⟩ := ih h
      simp [hc, htake, hdrop]
    · simp [hc]

/-- A row of characters of a class, and after it something else. -/
theorem takeWhile_append_of_head {p : Char → Bool} {xs : List Char} (hx : ∀ c ∈ xs, p c)
    (ys : List Char) (hy : ∀ c ∈ ys.head?, p c = false) :
    (xs ++ ys).takeWhile p = xs ∧ (xs ++ ys).dropWhile p = ys := by
  obtain ⟨htake, hdrop⟩ := takeWhile_append_stop xs ys (.inr hy)
  rw [htake, hdrop, List.takeWhile_eq_self_iff.2 hx, List.dropWhile_eq_nil_iff.2 hx]
  exact ⟨rfl, rfl⟩

/-- A fraction is empty, or a point and digits after it. -/
theorem fraction_cases (cs : List Char) :
    fraction cs = [] ∨ ∃ d ds, fraction cs = '.' :: d :: ds ∧ ∀ c ∈ d :: ds, c.isDigit := by
  unfold fraction
  split
  · next d rest =>
    split
    · next hd =>
      refine .inr ⟨d, _, rfl, List.forall_mem_cons.2 ⟨hd, fun c hc => ?_⟩⟩
      exact List.mem_takeWhile_imp hc
    · exact .inl rfl
  · exact .inl rfl

/-- A row of digits is a number. -/
theorem decimal?_whole {digits : List Char} (hne : digits ≠ []) (hd : ∀ c ∈ digits, c.isDigit) :
    decimal? digits = some (numberValue digits []) := by
  have hempty : digits.isEmpty = false := List.isEmpty_eq_false_iff.2 hne
  simp [decimal?, List.takeWhile_eq_self_iff.2 hd, List.dropWhile_eq_nil_iff.2 hd, hempty]

/-- So are two rows with a point between them. -/
theorem decimal?_point {digits places : List Char} (hne : digits ≠ [])
    (hd : ∀ c ∈ digits, c.isDigit) (hp : ∀ c ∈ places, c.isDigit) :
    decimal? (digits ++ '.' :: places) = some (numberValue digits places) := by
  have hempty : digits.isEmpty = false := List.isEmpty_eq_false_iff.2 hne
  have hall : places.all Char.isDigit := List.all_eq_true.2 hp
  obtain ⟨htake, hdrop⟩ := takeWhile_append_of_head hd ('.' :: places)
    fun x hx => Option.some.inj hx ▸ rfl
  simp [decimal?, htake, hdrop, hempty, hall]

/-- What the lexer takes for a number can be read as one. -/
theorem isSome_decimal? {c : Char} (hc : c.isDigit) (cs : List Char) :
    (decimal? (c :: cs.takeWhile Char.isDigit ++ fraction (cs.dropWhile Char.isDigit))).isSome := by
  have hdigits : ∀ x ∈ c :: cs.takeWhile Char.isDigit, x.isDigit :=
    List.forall_mem_cons.2 ⟨hc, fun x hx => List.mem_takeWhile_imp hx⟩
  rcases fraction_cases (cs.dropWhile Char.isDigit) with hf | ⟨d, ds, hf, hds⟩
  · rw [hf, List.append_nil, decimal?_whole (List.cons_ne_nil _ _) hdigits]
    rfl
  · rw [hf, decimal?_point (List.cons_ne_nil _ _) hdigits hds]
    rfl

theorem bare_proper {kind : Kind} (h : kind ∉ [.eof, .number, .string]) (text : List Char) :
    (bare kind text).shape.Proper := by
  simp only [List.mem_cons, List.not_mem_nil, or_false, not_or] at h
  exact ⟨h.1, fun hk => absurd hk (not_or.2 h.2)⟩

theorem number_proper {c : Char} (hc : c.isDigit) (cs : List Char) :
    (number c cs).1.shape.Proper := by
  obtain ⟨value, hvalue⟩ := Option.isSome_iff_exists.1 (isSome_decimal? hc cs)
  simp only [number, hvalue]
  simp [Shape.Proper]

theorem quoted_proper (cs : List Char) : (quoted cs).1.shape.Proper := by
  unfold quoted
  split
  · trivial
  · simp [Shape.Proper]

theorem ofWord_not_mem (word : String) : Kind.ofWord word ∉ [.eof, .number, .string] := by
  unfold Kind.ofWord
  cases h : Kind.keywords.lookup word with
  | none => decide
  | some kind =>
    have hall : ∀ p ∈ Kind.keywords, p.2 ∉ [Kind.eof, .number, .string] := by decide
    obtain ⟨l₁, l₂, heq, -⟩ := List.lookup_eq_some_iff.1 h
    exact hall (word, kind) (heq ▸ List.mem_append_right _ List.mem_cons_self)

theorem punctuator?_not_mem {c : Char} {kind : Kind} (h : punctuator? c = some kind) :
    kind ∉ [.eof, .number, .string] := by
  unfold punctuator? at h
  split at h <;> cases h <;> decide

theorem operator?_not_mem {c : Char} {alone joined : Kind}
    (h : operator? c = some (alone, joined)) :
    alone ∉ [.eof, .number, .string] ∧ joined ∉ [.eof, .number, .string] := by
  unfold operator? at h
  split at h <;> cases h <;> decide

theorem first_proper (c : Char) (cs : List Char) : (first c cs).1.shape.Proper := by
  unfold first
  split
  · next h => exact bare_proper (punctuator?_not_mem h) _
  · next h =>
    obtain ⟨halone, hjoined⟩ := operator?_not_mem h
    unfold operator
    split
    · exact bare_proper hjoined _
    · exact bare_proper halone _
  · split
    · trivial
    split
    · unfold slash
      split
      · trivial
      · exact bare_proper (by decide) _
    split
    · exact quoted_proper cs
    split
    · next hc => exact number_proper hc cs
    split
    · exact bare_proper (ofWord_not_mem _) _
    · trivial

theorem segments_proper (cs : List Char) : ∀ s ∈ segments cs, s.shape.Proper := by
  fun_induction segments cs with
  | case1 => exact List.forall_mem_nil _
  | case2 c cs ih => exact List.forall_mem_cons.2 ⟨first_proper c cs, ih⟩

/-! ## A newline ends a segment -/

section

variable (cs more : List Char)

/-- What stops at newlines stops at the first one. -/
theorem takeWhile_newline {p : Char → Bool} (hp : p '\n' = false) :
    (cs ++ '\n' :: more).takeWhile p = cs.takeWhile p ∧
      (cs ++ '\n' :: more).dropWhile p = cs.dropWhile p ++ '\n' :: more :=
  takeWhile_append_stop _ _ (.inr fun _ hc => Option.some.inj hc ▸ hp)

theorem fraction_newline : fraction (cs ++ '\n' :: more) = fraction cs := by
  cases cs with
  | nil => rfl
  | cons c rest =>
    by_cases hc : c = '.'
    · subst hc
      cases rest with
      | nil => rfl
      | cons d rest =>
        rw [List.cons_append, List.cons_append, fraction, fraction,
          (takeWhile_newline rest more (p := Char.isDigit) rfl).1]
    · rw [List.cons_append, fraction_of_ne _ hc, fraction_of_ne _ hc]

theorem number_newline (c : Char) :
    number c (cs ++ '\n' :: more) = ((number c cs).1, (number c cs).2 ++ '\n' :: more) := by
  obtain ⟨htake, hdrop⟩ := takeWhile_newline cs more (p := Char.isDigit) rfl
  have hle : (fraction (cs.dropWhile Char.isDigit)).length ≤
      (cs.dropWhile Char.isDigit).length := by
    have h := congrArg List.length (fraction_append (cs.dropWhile Char.isDigit))
    rw [List.length_append] at h
    omega
  simp only [number, htake, hdrop, fraction_newline, List.drop_append_of_le_length hle]

theorem word_newline (c : Char) :
    word c (cs ++ '\n' :: more) = ((word c cs).1, (word c cs).2 ++ '\n' :: more) := by
  obtain ⟨htake, hdrop⟩ := takeWhile_newline cs more (p := inWord) (by decide)
  simp only [word, htake, hdrop]

theorem slash_newline :
    slash (cs ++ '\n' :: more) = ((slash cs).1, (slash cs).2 ++ '\n' :: more) := by
  cases cs with
  | nil => rfl
  | cons c rest =>
    by_cases hc : c = '/'
    · subst hc
      obtain ⟨htake, hdrop⟩ := takeWhile_newline rest more (p := (· ≠ '\n')) (by decide)
      rw [List.cons_append, slash, slash, htake, hdrop]
    · rw [List.cons_append, slash_of_ne _ hc, slash_of_ne _ hc, List.cons_append]

theorem operator_newline (c : Char) (alone joined : Kind) :
    operator c alone joined (cs ++ '\n' :: more) =
      ((operator c alone joined cs).1, (operator c alone joined cs).2 ++ '\n' :: more) := by
  cases cs with
  | nil => rfl
  | cons d rest =>
    by_cases hd : d = '='
    · subst hd
      rfl
    · rw [List.cons_append, operator_of_ne _ _ _ _ hd, operator_of_ne _ _ _ _ hd, List.cons_append]

theorem quoted_newline (h : (quoted cs).1.shape ≠ .openString) :
    quoted (cs ++ '\n' :: more) = ((quoted cs).1, (quoted cs).2 ++ '\n' :: more) := by
  cases hclose : cs.dropWhile (· ≠ '"') with
  | nil =>
    unfold quoted at h
    rw [hclose] at h
    exact absurd rfl h
  | cons close rest =>
    obtain ⟨htake, hdrop⟩ := takeWhile_append_stop cs ('\n' :: more)
      (.inl (hclose ▸ List.cons_ne_nil close rest))
    unfold quoted
    simp only [htake, hdrop, hclose, List.cons_append]

/-- A segment that is closed is not changed by a newline after the text. -/
theorem first_newline (c : Char) (h : (first c cs).1.shape ≠ .openString) :
    first c (cs ++ '\n' :: more) = ((first c cs).1, (first c cs).2 ++ '\n' :: more) := by
  unfold first at h ⊢
  split
  · rfl
  · exact operator_newline cs more c _ _
  · next hp ho =>
    rw [hp, ho] at h
    dsimp only at h
    split
    · rfl
    · next hblank =>
      rw [if_neg hblank] at h
      split
      · exact slash_newline cs more
      · next hslash =>
        rw [if_neg hslash] at h
        split
        · next hquote =>
          rw [if_pos hquote] at h
          exact quoted_newline cs more h
        · split
          · exact number_newline cs more c
          · split
            · exact word_newline cs more c
            · rfl

end

/-- A text without an open string, and a newline with more after it, are cut into segments apart. -/
theorem segments_newline (cs more : List Char) (h : ∀ s ∈ segments cs, s.shape ≠ .openString) :
    segments (cs ++ '\n' :: more) = segments cs ++ ⟨.blank, ['\n']⟩ :: segments more := by
  fun_induction segments cs with
  | case1 =>
    rw [List.nil_append, segments]
    rfl
  | case2 c cs ih =>
    obtain ⟨hfirst, hrest⟩ := List.forall_mem_cons.1 h
    rw [List.cons_append, segments, first_newline cs more c hfirst, ih hrest, List.cons_append]

/-! ## Lines -/

/-- The items of segments that start on `line`, without the end of the source. -/
def innerItems (line : Nat) : List Segment → List Item
  | [] => []
  | s :: rest =>
    let line := line + s.text.count '\n'
    (s.item? line).toList ++ innerItems line rest

theorem items_append (line : Nat) (xs ys : List Segment) :
    items line (xs ++ ys) =
      innerItems line xs ++ items (line + (xs.flatMap Segment.text).count '\n') ys := by
  induction xs generalizing line with
  | nil => rfl
  | cons s xs ih =>
    rw [List.cons_append, items, innerItems, ih, List.flatMap_cons, List.count_append,
      List.append_assoc, Nat.add_assoc]

end Lexer

/-- The token some lines further down. -/
def Token.down (t : Token) (lines : Nat) : Token := { t with line := t.line + lines }

/-- The error some lines further down. -/
def LexicalError.down (e : LexicalError) (lines : Nat) : LexicalError :=
  { e with line := e.line + lines }

namespace Lexer

/-- What a source yields, some lines further down. -/
def Item.down (lines : Nat) : Item → Item
  | .ok t => .ok (t.down lines)
  | .error e => .error (e.down lines)

theorem item?_down (s : Segment) (line lines : Nat) :
    s.item? (line + lines) = (s.item? line).map (Item.down lines) := by
  unfold Segment.item?
  split <;> rfl

theorem items_down (line lines : Nat) (ss : List Segment) :
    items (line + lines) ss = (items line ss).map (Item.down lines) := by
  induction ss generalizing line with
  | nil => rfl
  | cons s rest ih =>
    rw [items, items, List.map_append, Nat.add_right_comm, ih, item?_down]
    cases s.item? (line + s.text.count '\n') <;> rfl

/-! ## Whole sources -/

theorem tokens_append (xs ys : List Item) : tokens (xs ++ ys) = tokens xs ++ tokens ys :=
  List.filterMap_append

theorem errors_append (xs ys : List Item) : errors (xs ++ ys) = errors xs ++ errors ys :=
  List.filterMap_append

theorem tokens_down (lines : Nat) (xs : List Item) :
    tokens (xs.map (Item.down lines)) = (tokens xs).map (Token.down · lines) := by
  induction xs with
  | nil => rfl
  | cons x xs ih =>
    cases x with
    | ok t => exact congrArg (t.down lines :: ·) ih
    | error e => exact ih

theorem errors_down (lines : Nat) (xs : List Item) :
    errors (xs.map (Item.down lines)) = (errors xs).map (LexicalError.down · lines) := by
  induction xs with
  | nil => rfl
  | cons x xs ih =>
    cases x with
    | ok t => exact ih
    | error e => exact congrArg (e.down lines :: ·) ih

/-- What a source yields comes from one of its segments, its end apart. -/
theorem mem_innerItems {line : Nat} {ss : List Segment} {item : Item}
    (h : item ∈ innerItems line ss) : ∃ s ∈ ss, ∃ line, s.item? line = some item := by
  induction ss generalizing line with
  | nil => cases h
  | cons s rest ih =>
    rcases List.mem_append.1 h with h | h
    · exact ⟨s, List.mem_cons_self, _, Option.mem_toList.1 h⟩
    · obtain ⟨s', hs', hitem⟩ := ih h
      exact ⟨s', List.mem_cons_of_mem _ hs', hitem⟩

theorem mem_tokens {xs : List Item} {t : Token} : t ∈ tokens xs ↔ .ok t ∈ xs := by
  constructor
  · intro h
    obtain ⟨item, hmem, hitem⟩ := List.mem_filterMap.1 h
    cases item with
    | ok t' => exact Option.some.inj hitem ▸ hmem
    | error e => cases hitem
  · intro h
    exact List.mem_filterMap.2 ⟨_, h, rfl⟩

theorem mem_errors {xs : List Item} {e : LexicalError} : e ∈ errors xs ↔ .error e ∈ xs := by
  constructor
  · intro h
    obtain ⟨item, hmem, hitem⟩ := List.mem_filterMap.1 h
    cases item with
    | ok t => cases hitem
    | error e' => exact Option.some.inj hitem ▸ hmem
  · intro h
    exact List.mem_filterMap.2 ⟨_, h, rfl⟩

theorem item?_line {s : Segment} {line : Nat} {t : Token} (h : s.item? line = some (.ok t)) :
    t.line = line := by
  unfold Segment.item? at h
  split at h <;> cases h
  rfl

/-- Tokens come line by line. -/
theorem pairwise_line_tokens (line : Nat) (ss : List Segment) :
    (∀ t ∈ tokens (items line ss), line ≤ t.line) ∧
      (tokens (items line ss)).Pairwise fun t u => t.line ≤ u.line := by
  induction ss generalizing line with
  | nil => exact ⟨List.forall_mem_singleton.2 (Nat.le_refl _), List.pairwise_singleton _ _⟩
  | cons s rest ih =>
    obtain ⟨hle, hrest⟩ := ih (line + s.text.count '\n')
    have hfirst : ∀ t ∈ tokens (s.item? (line + s.text.count '\n')).toList,
        t.line = line + s.text.count '\n' :=
      fun t ht => item?_line (Option.mem_toList.1 (mem_tokens.1 ht))
    rw [items, tokens_append]
    refine ⟨fun t ht => ?_, List.pairwise_append.2 ⟨?_, hrest, fun t ht u hu => ?_⟩⟩
    · rcases List.mem_append.1 ht with ht | ht
      · exact hfirst t ht ▸ Nat.le_add_right _ _
      · exact Nat.le_trans (Nat.le_add_right _ _) (hle t ht)
    · exact List.pairwise_of_forall_mem_list fun t ht u hu =>
        Nat.le_of_eq ((hfirst t ht).trans (hfirst u hu).symm)
    · exact hfirst t ht ▸ hle u hu

/-- Tokens before the end: none of them closes the source, and numbers and strings have values. -/
theorem innerItems_token {line : Nat} {cs : List Char} {t : Token}
    (h : t ∈ tokens (innerItems line (segments cs))) :
    t.kind ≠ .eof ∧ (t.kind = .number ∨ t.kind = .string → t.literal.isSome) := by
  obtain ⟨s, hs, l, hitem⟩ := mem_innerItems (mem_tokens.1 h)
  have hproper := segments_proper cs s hs
  unfold Segment.item? at hitem
  split at hitem
  · cases hitem
  · cases hitem
  · next kind literal hshape =>
    rw [hshape] at hproper
    cases hitem
    exact hproper
  · cases hitem
  · cases hitem
  · cases hitem

/-- Segments that report no open string have none. -/
theorem ne_openString_of_errors {line : Nat} {ss : List Segment}
    (h : ∀ e ∈ errors (innerItems line ss), e.fault ≠ .unterminatedString) :
    ∀ s ∈ ss, s.shape ≠ .openString := by
  induction ss generalizing line with
  | nil => exact List.forall_mem_nil _
  | cons s rest ih =>
    rw [innerItems, errors_append] at h
    obtain ⟨hs, hrest⟩ := List.forall_mem_append.1 h
    refine List.forall_mem_cons.2 ⟨fun hshape => ?_, ih hrest⟩
    rw [Segment.item?, hshape] at hs
    exact hs _ List.mem_cons_self rfl

end Lexer

open Lexer

theorem scan_eq (source : String) :
    scan source = innerItems 1 (segments source.toList) ++
      [.ok (Token.endOfFile (1 + source.toList.count '\n'))] := by
  have h := items_append 1 (segments source.toList) []
  rwa [List.append_nil, flatMap_segments, ← scan_eq_items] at h

theorem errors_scan (source : String) :
    errors (scan source) = errors (innerItems 1 (segments source.toList)) := by
  rw [scan_eq, errors_append]
  exact List.append_nil _

/-- A source that does not end within a string, and one after it on a line of its own, yield what
each yields alone; the second stands further down. -/
theorem scan_newline_of_closed {source : String}
    (h : ∀ e ∈ errors (scan source), e.fault ≠ .unterminatedString) (more : String) :
    scan (source ++ "\n" ++ more) = innerItems 1 (segments source.toList) ++
      (scan more).map (Item.down (1 + source.toList.count '\n')) := by
  rw [errors_scan] at h
  have hlist : (source ++ "\n" ++ more).toList = source.toList ++ '\n' :: more.toList := by
    simp [String.toList_append]
  rw [scan_eq_items, hlist, segments_newline _ _ (ne_openString_of_errors h), items_append,
    flatMap_segments, items, scan_eq_items more, ← items_down]
  show _ ++ items (1 + _ + 1) _ = _
  rw [Nat.add_assoc 1, Nat.add_comm _ 1]

theorem scan_newline {source : String} (h : errors (scan source) = []) (more : String) :
    scan (source ++ "\n" ++ more) = innerItems 1 (segments source.toList) ++
      (scan more).map (Item.down (1 + source.toList.count '\n')) :=
  scan_newline_of_closed (h ▸ List.forall_mem_nil _) more

theorem scan_literal (source : String) {t : Token} (h : t ∈ tokens (scan source))
    (hk : t.kind = .number ∨ t.kind = .string) : t.literal.isSome := by
  rw [scan_eq, tokens_append] at h
  rcases List.mem_append.1 h with h | h
  · exact (innerItems_token h).2 hk
  · cases List.mem_singleton.1 h
    rcases hk with hk | hk <;> cases hk

/-- Every number of a source can be read. -/
theorem scan_fault (source : String) {e : LexicalError} (h : e ∈ errors (scan source))
    (text : String) : e.fault ≠ .invalidNumber text := by
  rw [errors_scan] at h
  obtain ⟨s, hs, l, hitem⟩ := mem_innerItems (mem_errors.1 h)
  have hproper := segments_proper source.toList s hs
  unfold Segment.item? at hitem
  split at hitem
  · cases hitem
  · cases hitem
  · cases hitem
  · cases hitem
    nofun
  · next hshape =>
    rw [hshape] at hproper
    exact hproper.elim
  · cases hitem
    nofun

end Lox
