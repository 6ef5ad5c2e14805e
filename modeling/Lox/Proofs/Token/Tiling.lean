import Lox.Proofs.Token.Segments
import Mathlib.Data.List.Basic
import Mathlib.Data.List.TakeWhile
import Mathlib.Tactic.Common

/-!
# A source is tiled by its segments

The lexical grammar says which texts are tokens (`Lexer.Lexeme`). A source is cut into blanks,
comments, lexemes, characters that start nothing and at most one open string at the end, and nothing
is left out in between.

Main statement: the cut accounts for everything that a source yields, and for every line number
(`scan_tiles`). A line is found by counting the newlines in the text before a segment and in the
segment itself, wherever these newlines stand.
-/

namespace Lox

namespace Lexer

/-! ## The lexical grammar -/

/-- The lexemes of one character that nothing extends. -/
def punctuators : List (Char × Kind) :=
  [('(', .leftParen), (')', .rightParen), ('\x7b', .leftBrace), ('\x7d', .rightBrace),
    (',', .comma), ('.', .dot), ('-', .minus), ('+', .plus), (';', .semicolon), ('*', .star)]

/-- The lexemes that `=` extends: the kind alone and the kind with it. -/
def operators : List (Char × Kind × Kind) :=
  [('!', .bang, .bangEqual), ('=', .equal, .equalEqual), ('<', .less, .lessEqual),
    ('>', .greater, .greaterEqual)]

/-- The words that are no identifiers. -/
def reserved : List (String × Kind) :=
  [("and", .andWord), ("class", .classWord), ("else", .elseWord), ("false", .falseWord),
    ("fun", .funWord), ("for", .forWord), ("if", .ifWord), ("nil", .nilWord), ("or", .orWord),
    ("print", .printWord), ("return", .returnWord), ("super", .superWord), ("this", .thisWord),
    ("true", .trueWord), ("var", .varWord), ("while", .whileWord)]

/-- The texts that are tokens: the kind of the token, the value that it carries, and the text. -/
inductive Lexeme : Kind → Option Literal → List Char → Prop
  | punctuator {c : Char} {kind : Kind} : (c, kind) ∈ punctuators → Lexeme kind none [c]
  | slash : Lexeme .slash none ['/']
  | alone {c : Char} {alone joined : Kind} :
      (c, alone, joined) ∈ operators → Lexeme alone none [c]
  | joined {c : Char} {alone joined : Kind} :
      (c, alone, joined) ∈ operators → Lexeme joined none [c, '=']
  | string {body : List Char} :
      '"' ∉ body → Lexeme .string (some (.text (String.ofList body))) ('"' :: body ++ ['"'])
  | whole {digits : List Char} :
      digits ≠ [] → (∀ c ∈ digits, c.isDigit) →
      Lexeme .number (some (.number (numberValue digits []))) digits
  | decimal {digits places : List Char} :
      digits ≠ [] → places ≠ [] → (∀ c ∈ digits ++ places, c.isDigit) →
      Lexeme .number (some (.number (numberValue digits places))) (digits ++ '.' :: places)
  | word {c : Char} {cs : List Char} :
      c.isAlpha ∨ c = '_' → (∀ x ∈ cs, x.isAlphanum ∨ x = '_') →
      Lexeme ((reserved.lookup (String.ofList (c :: cs))).getD .identifier) none (c :: cs)

/-! ## The tables of the scanner -/

theorem mem_punctuators {c : Char} {kind : Kind} :
    (c, kind) ∈ punctuators ↔ punctuator? c = some kind := by
  constructor
  · intro h
    have hall : ∀ p ∈ punctuators, punctuator? p.1 = some p.2 := by decide
    exact hall _ h
  · intro h
    unfold punctuator? at h
    split at h <;> cases h <;> decide

theorem mem_operators {c : Char} {alone joined : Kind} :
    (c, alone, joined) ∈ operators ↔ operator? c = some (alone, joined) := by
  constructor
  · intro h
    have hall : ∀ p ∈ operators, operator? p.1 = some p.2 := by decide
    exact hall _ h
  · intro h
    unfold operator? at h
    split at h <;> cases h <;> decide

theorem reserved_eq : reserved = Kind.keywords := rfl

theorem startsWord_iff {c : Char} : startsWord c ↔ c.isAlpha ∨ c = '_' := by
  simp [startsWord]

theorem inWord_iff {c : Char} : inWord c ↔ c.isAlphanum ∨ c = '_' := by
  simp [inWord]

/-- The words of the scanner are those of the grammar. -/
theorem Lexeme.of_word {c : Char} {cs : List Char} (hc : startsWord c) (hcs : ∀ x ∈ cs, inWord x) :
    Lexeme (Kind.ofWord (String.ofList (c :: cs))) none (c :: cs) :=
  .word (startsWord_iff.1 hc) fun x hx => inWord_iff.1 (hcs x hx)

/-- A lexeme that has a number for its value is read as this number. -/
theorem Lexeme.decimal?_eq {kind : Kind} {x : Float} {text : List Char}
    (h : Lexeme kind (some (.number x)) text) : decimal? text = some x := by
  cases h with
  | whole hne hdigits => exact decimal?_whole hne hdigits
  | decimal hne _ hall =>
    obtain ⟨hdigits, hplaces⟩ := List.forall_mem_append.1 hall
    exact decimal?_point hne hdigits hplaces

/-- A character that starts nothing: it is no blank and opens no string, and no lexeme starts with
it. A comment starts like a lexeme. -/
structure StartsNothing (c : Char) : Prop where
  blank : isBlank c = false
  quote : c ≠ '"'
  lexeme : ∀ kind literal cs, ¬Lexeme kind literal (c :: cs)

/-- A segment is what its shape says, before the text `after`. -/
def Segment.Stands (s : Segment) (after : List Char) : Prop :=
  match s.shape with
  | .blank => ∃ c ∈ [' ', '\r', '\t', '\n'], s.text = [c]
  | .comment => ∃ body, '\n' ∉ body ∧ s.text = '/' :: '/' :: body ∧ ∀ c ∈ after.head?, c = '\n'
  | .lexeme kind literal => Lexeme kind literal s.text
  | .stray c => s.text = [c] ∧ StartsNothing c
  | .badNumber => False
  | .openString => ∃ body, '"' ∉ body ∧ s.text = '"' :: body ∧ after = []

/-! ## The first segment -/

theorem not_mem_takeWhile_ne (x : Char) (cs : List Char) : x ∉ cs.takeWhile (· ≠ x) := by
  intro h
  have hne := List.mem_takeWhile_imp h
  simp at hne

theorem slash_stands (cs : List Char) : (slash cs).1.Stands (slash cs).2 := by
  unfold slash
  split
  · next rest =>
    refine ⟨_, not_mem_takeWhile_ne '\n' rest, rfl, fun c hc => ?_⟩
    have hstop := List.head?_dropWhile_not (· ≠ '\n') rest
    rw [hc] at hstop
    simpa using hstop
  · exact Lexeme.slash

theorem quoted_stands (cs : List Char) : (quoted cs).1.Stands (quoted cs).2 := by
  unfold quoted
  cases hclose : cs.dropWhile (· ≠ '"') with
  | nil =>
    refine ⟨cs, fun hmem => ?_, rfl, rfl⟩
    exact of_decide_eq_true (List.dropWhile_eq_nil_iff.1 hclose '"' hmem) rfl
  | cons close rest =>
    have hstop := List.head?_dropWhile_not (· ≠ '"') cs
    rw [hclose] at hstop
    obtain rfl : close = '"' := by simpa using hstop
    exact Lexeme.string (not_mem_takeWhile_ne '"' cs)

/-- The number is read from the digits before the point and from those after it. -/
theorem number_stands {c : Char} (hc : c.isDigit) (cs : List Char) :
    (number c cs).1.Stands (number c cs).2 := by
  have hdigits : ∀ x ∈ c :: cs.takeWhile Char.isDigit, x.isDigit :=
    List.forall_mem_cons.2 ⟨hc, fun x hx => List.mem_takeWhile_imp hx⟩
  have hne : c :: cs.takeWhile Char.isDigit ≠ [] := List.cons_ne_nil _ _
  rcases fraction_cases (cs.dropWhile Char.isDigit) with hf | ⟨d, ds, hf, hds⟩
  · have hvalue := decimal?_whole hne hdigits
    simp only [number, hf, List.append_nil, hvalue]
    exact Lexeme.whole hne hdigits
  · have hvalue := decimal?_point hne hdigits hds
    simp only [number, hf, hvalue]
    exact Lexeme.decimal hne (List.cons_ne_nil _ _) (List.forall_mem_append.2 ⟨hdigits, hds⟩)

/-- No rule of the grammar starts with a character that none of the cases of `first` takes. -/
theorem startsNothing_of_first {c : Char} (hp : punctuator? c = none) (ho : operator? c = none)
    (hblank : ¬isBlank c) (hslash : c ≠ '/') (hquote : c ≠ '"') (hdigit : ¬c.isDigit)
    (hword : ¬startsWord c) : StartsNothing c where
  blank := by simpa using hblank
  quote := hquote
  lexeme := by
    intro kind literal cs h
    generalize htext : c :: cs = text at h
    cases h with
    | punctuator h => cases htext; simp [mem_punctuators, hp] at h
    | slash => cases htext; exact hslash rfl
    | alone h => cases htext; simp [mem_operators, ho] at h
    | joined h => cases htext; simp [mem_operators, ho] at h
    | string _ => cases htext; exact hquote rfl
    | whole _ hdigits =>
      subst htext
      exact hdigit (hdigits c List.mem_cons_self)
    | @decimal digits places hne _ hdigits =>
      obtain ⟨d, ds, rfl⟩ := List.exists_cons_of_ne_nil hne
      cases htext
      exact hdigit (hdigits c List.mem_cons_self)
    | word h _ => cases htext; exact hword (startsWord_iff.2 h)

/-- The first segment is what its shape says. -/
theorem first_stands (c : Char) (cs : List Char) : (first c cs).1.Stands (first c cs).2 := by
  unfold first
  split
  · next hp => exact Lexeme.punctuator (mem_punctuators.2 hp)
  · next ho =>
    unfold operator
    split
    · exact Lexeme.joined (mem_operators.2 ho)
    · exact Lexeme.alone (mem_operators.2 ho)
  · next hp ho =>
    split
    · next hblank =>
      refine ⟨c, ?_, rfl⟩
      simpa [isBlank, or_assoc] using hblank
    next hblank =>
    split
    · exact slash_stands cs
    next hslash =>
    split
    · exact quoted_stands cs
    next hquote =>
    split
    · next hdigit => exact number_stands hdigit cs
    next hdigit =>
    split
    · next hword => exact Lexeme.of_word hword fun x hx => List.mem_takeWhile_imp hx
    · next hword =>
      exact ⟨rfl, startsNothing_of_first hp ho hblank hslash hquote hdigit hword⟩

/-! ## The whole cut -/

/-- The text of segments in a row. -/
def textOf (ss : List Segment) : List Char := ss.flatMap Segment.text

/-- Every segment of a source is what its shape says. -/
theorem segments_stand (cs : List Char) {before after : List Segment} {s : Segment}
    (h : segments cs = before ++ s :: after) : s.Stands (textOf after) := by
  fun_induction segments cs generalizing before with
  | case1 => simp at h
  | case2 c cs ih =>
    cases before with
    | nil =>
      obtain ⟨rfl, rfl⟩ := List.cons.inj h
      rw [textOf, flatMap_segments]
      exact first_stands c cs
    | cons s' before => exact ih (List.cons.inj h).2

/-! ## Lines -/

/-- What a segment yields after some text. A token and an open string stand on the line on which
they end, and a stray character on the line that has been reached before it. -/
def Segment.yield? (before : List Char) (s : Segment) : Option Item :=
  match s.shape with
  | .lexeme kind literal =>
    some (.ok ⟨kind, String.ofList s.text, literal, 1 + (before ++ s.text).count '\n'⟩)
  | .stray c => some (.error ⟨1 + before.count '\n', .unexpected c⟩)
  | .openString => some (.error ⟨1 + (before ++ s.text).count '\n', .unterminatedString⟩)
  | .blank | .comment | .badNumber => none

theorem Segment.Stands.item? {s : Segment} {after : List Char} (h : s.Stands after)
    (before : List Char) :
    s.item? (1 + (before ++ s.text).count '\n') = s.yield? before := by
  unfold Segment.Stands at h
  unfold Segment.item? Segment.yield?
  split at h
  · simp_all
  · simp_all
  · simp_all
  · next c hshape =>
    -- A newline is a blank, so a character that starts nothing leaves the line as it is.
    have hc : c ≠ '\n' := by
      rintro rfl
      exact absurd h.2.blank (by decide)
    simp [hshape, h.1, List.count_append, hc]
  · exact h.elim
  · simp_all

/-- Counting on from line to line gives the same as counting from the start. -/
theorem items_eq_yield (before ss : List Segment) (h : ∀ s ∈ ss, ∃ after, s.Stands after) :
    items (1 + (textOf before).count '\n') ss =
      (ss.zipIdx before.length).filterMap
          (fun p => p.1.yield? (textOf ((before ++ ss).take p.2))) ++
        [.ok (Token.endOfFile (1 + (textOf (before ++ ss)).count '\n'))] := by
  induction ss generalizing before with
  | nil => simp [items]
  | cons s rest ih =>
    obtain ⟨⟨after, hs⟩, hrest⟩ := List.forall_mem_cons.1 h
    have htext : textOf (before ++ [s]) = textOf before ++ s.text := by simp [textOf]
    have hline : 1 + (textOf before).count '\n' + s.text.count '\n' =
        1 + (textOf (before ++ [s])).count '\n' := by
      rw [htext, List.count_append, Nat.add_assoc]
    have hnext := ih (before ++ [s]) hrest
    rw [List.length_append, List.length_singleton, List.append_assoc,
      List.singleton_append] at hnext
    rw [items, hline, hnext, htext, hs.item?, List.zipIdx_cons, List.filterMap_cons]
    simp only [List.take_left]
    cases s.yield? (textOf before) <;> rfl

end Lexer

open Lexer

/-- The items of a source are those of its segments, each on the line that it has in the source. -/
theorem scan_eq_yield (source : String) :
    scan source =
      (segments source.toList).zipIdx.filterMap
          (fun p => p.1.yield? (textOf ((segments source.toList).take p.2))) ++
        [.ok (Token.endOfFile (1 + source.toList.count '\n'))] := by
  have htext : textOf (segments source.toList) = source.toList := flatMap_segments _
  have hitems := items_eq_yield [] (segments source.toList) fun s hs => by
    obtain ⟨before, after, heq⟩ := List.append_of_mem hs
    exact ⟨_, segments_stand _ heq⟩
  rw [List.nil_append, htext] at hitems
  rw [scan_eq_items]
  exact hitems

/-- Scanning loses nothing and counts lines exactly. The scanner reads every source to its end: it
never reads a byte past the end, and each slice that it takes lies within the source, from one
boundary between characters to another. A source is the concatenation of segments: each is a blank,
a comment up to its newline, a lexeme of the grammar, a character that starts nothing, or, at the
end, an open string. The source yields exactly the tokens and errors of the last three kinds, in
this order, and after them the one token that closes it. The line of a token is found by counting
newlines up to the end of its lexeme, that of a stray character by counting those before it, and
that of an open string and of the end by counting all. -/
theorem scan_tiles (source : String) :
    Scanner.items? source = some (scan source) ∧
      ∃ ss : List Segment, textOf ss = source.toList ∧
        scan source =
          ss.zipIdx.filterMap (fun p => p.1.yield? (textOf (ss.take p.2))) ++
            [.ok (Token.endOfFile (1 + source.toList.count '\n'))] ∧
        ∀ before s after, ss = before ++ s :: after →
          s.Stands (textOf after) ∧ ∀ literal, s.shape ≠ .lexeme .eof literal := by
  have hread : Scanner.items? source = some (scan source) := by
    rw [scan_eq_items, Scanner.items?_eq]
  refine ⟨hread, segments source.toList, flatMap_segments _, scan_eq_yield source, ?_⟩
  intro before s after heq
  refine ⟨segments_stand _ heq, fun literal hshape => ?_⟩
  have hs : s ∈ segments source.toList := heq ▸ List.mem_append_right _ List.mem_cons_self
  have hproper := segments_proper _ s hs
  rw [hshape] at hproper
  exact hproper.1 rfl

end Lox
