import Lox.Proofs.Number.Nearest
import Lox.Proofs.Token.Tiling
import Lox.Proofs.Token.Words

/-!
# Tokens are longest matches

Where the lexer stands in front of a lexeme of the grammar, it takes the longest one
(`first_longest`), and it takes none only where there is none (`isLexeme_first_iff`). A lexeme that
is followed by a blank, or by nothing, is taken as it is (`Lexeme.first_eq`), so that a text is at
most one lexeme (`Lexeme.unique`).

Main statement: `scan_longest_match`. It also says what the kind and the value of a token have to do
with its text: a keyword is a whole word that is spelled like it, and the value of a number is the
number nearest to the decimal that is written.
-/

namespace Lox

namespace Lexer

/-! ## What the first character decides -/

theorem isBlank_iff {c : Char} :
    isBlank c ↔ c = ' ' ∨ c = '\r' ∨ c = '\t' ∨ c = '\n' := by
  simp [isBlank, or_assoc]

theorem not_isDigit_of_startsWord {c : Char} (h : startsWord c) : c.isDigit = false := by
  rw [startsWord, Bool.or_eq_true, decide_eq_true_eq] at h
  rcases h with h | rfl
  · grind [Char.isAlpha, Char.isUpper, Char.isLower, Char.isDigit]
  · rfl

theorem inWord_of_isDigit {c : Char} (h : c.isDigit) : inWord c := by
  simp [inWord, Char.isAlphanum, h]

theorem inWord_of_startsWord {c : Char} (h : startsWord c) : inWord c := by
  unfold startsWord at h
  unfold inWord Char.isAlphanum
  grind

/-- Before a character of words, the first segment is a number or a word. -/
theorem first_of_inWord {c : Char} (h : inWord c) (cs : List Char) :
    first c cs = if c.isDigit then number c cs else if startsWord c then word c cs
      else (⟨.stray c, [c]⟩, cs) := by
  have hp : punctuator? c = none := by
    unfold punctuator?
    split <;> first | rfl | exact absurd h (by decide)
  have ho : operator? c = none := by
    unfold operator?
    split <;> first | rfl | exact absurd h (by decide)
  have hblank : ¬isBlank c := by
    intro hblank
    rcases isBlank_iff.1 hblank with rfl | rfl | rfl | rfl <;> exact absurd h (by decide)
  have hslash : c ≠ '/' := by
    rintro rfl
    exact absurd h (by decide)
  have hquote : c ≠ '"' := by
    rintro rfl
    exact absurd h (by decide)
  rw [first, hp, ho]
  simp only [hblank, hslash, hquote, if_false, Bool.false_eq_true]

theorem first_of_isDigit {c : Char} (h : c.isDigit) (cs : List Char) :
    first c cs = number c cs := by
  rw [first_of_inWord (inWord_of_isDigit h), if_pos h]

theorem first_of_startsWord {c : Char} (h : startsWord c) (cs : List Char) :
    first c cs = word c cs := by
  rw [first_of_inWord (inWord_of_startsWord h), if_neg (by simp [not_isDigit_of_startsWord h]),
    if_pos h]

theorem first_of_punctuator? {c : Char} {kind : Kind} (h : punctuator? c = some kind)
    (cs : List Char) : first c cs = (bare kind [c], cs) := by
  rw [first, h]

theorem first_of_operator? {c : Char} {alone joined : Kind}
    (h : operator? c = some (alone, joined)) (cs : List Char) :
    first c cs = operator c alone joined cs := by
  have hp : punctuator? c = none := by
    unfold operator? at h
    split at h <;> first | rfl | cases h
  rw [first, hp, h]

/-! ## A lexeme before a blank -/

/-- Nothing follows, or a blank does. -/
def Ends (after : List Char) : Prop := ∀ c ∈ after.head?, isBlank c

namespace Ends

theorem nil : Ends [] := fun _ hc => absurd hc (by simp)

variable {after : List Char}

theorem head_ne (h : Ends after) {c : Char} (hc : isBlank c = false) : after.head? ≠ some c := by
  intro hhead
  rw [h c hhead] at hc
  exact absurd hc (by decide)

/-- A row of characters of a class without blanks ends there. -/
theorem stops (h : Ends after) {p : Char → Bool} (hp : ∀ c, p c → inWord c) :
    ∀ c ∈ after.head?, p c = false := by
  intro c hc
  refine Bool.eq_false_iff.2 fun hpc => ?_
  have hword := hp c hpc
  rcases isBlank_iff.1 (h c hc) with rfl | rfl | rfl | rfl <;> exact absurd hword (by decide)

end Ends

theorem quoted_closed {body : List Char} (h : '"' ∉ body) (after : List Char) :
    quoted (body ++ '"' :: after) =
      (⟨.lexeme .string (some (.text (String.ofList body))), '"' :: body ++ ['"']⟩, after) := by
  have hbody : ∀ c ∈ body, decide (c ≠ '"') = true := by
    intro c hc
    simpa using ne_of_mem_of_not_mem hc h
  obtain ⟨htake, hdrop⟩ := takeWhile_append_of_head hbody ('"' :: after)
    fun c hc => Option.some.inj hc ▸ rfl
  rw [quoted, htake, hdrop]

/-- Places after a point are read together with all digits that follow. -/
theorem fraction_places {places : List Char} (hne : places ≠ []) (h : ∀ c ∈ places, c.isDigit)
    (after : List Char) :
    fraction ('.' :: (places ++ after)) = '.' :: (places ++ after.takeWhile Char.isDigit) := by
  obtain ⟨d, ds, rfl⟩ := List.exists_cons_of_ne_nil hne
  obtain ⟨hd, hds⟩ := List.forall_mem_cons.1 h
  rw [List.cons_append, fraction, if_pos hd, List.takeWhile_append_of_pos hds, List.cons_append]

theorem Lexeme.ne_nil {kind : Kind} {literal : Option Literal} {text : List Char}
    (h : Lexeme kind literal text) : text ≠ [] := by
  cases h with
  | whole hne _ => exact hne
  | decimal _ _ _ => exact List.append_ne_nil_of_right_ne_nil _ (List.cons_ne_nil _ _)
  | _ => exact List.cons_ne_nil _ _

/-- Where a lexeme stands before a blank or at the end, it is the first segment. -/
theorem Lexeme.first_eq {kind : Kind} {literal : Option Literal} {c : Char} {cs after : List Char}
    (h : Lexeme kind literal (c :: cs)) (hafter : Ends after) :
    first c (cs ++ after) = (⟨.lexeme kind literal, c :: cs⟩, after) := by
  -- One case for each rule of the grammar. The blank behind ends what the lexer takes.
  generalize htext : c :: cs = text at h
  cases h with
  | punctuator h =>
    cases htext
    exact first_of_punctuator? (mem_punctuators.1 h) _
  | slash =>
    cases htext
    exact slash_of_head (hafter.head_ne rfl)
  | alone h =>
    cases htext
    rw [first_of_operator? (mem_operators.1 h)]
    exact operator_of_head (hafter.head_ne rfl) _ _ _
  | joined h =>
    cases htext
    rw [first_of_operator? (mem_operators.1 h)]
    rfl
  | @string body h =>
    rw [List.cons_append] at htext ⊢
    obtain ⟨rfl, rfl⟩ := List.cons.inj htext
    rw [List.append_assoc]
    exact quoted_closed h after
  | whole _ hdigits =>
    subst htext
    obtain ⟨hc, hcs⟩ := List.forall_mem_cons.1 hdigits
    obtain ⟨htake, hdrop⟩ := takeWhile_append_of_head hcs after
      (hafter.stops fun _ => inWord_of_isDigit)
    -- No point follows, so there is no fraction.
    have hfraction := fraction_of_head (hafter.head_ne (c := '.') rfl)
    have hvalue := decimal?_whole (List.cons_ne_nil c cs) hdigits
    rw [first_of_isDigit hc]
    simp only [number, htake, hdrop, hfraction, List.append_nil, hvalue, List.length_nil,
      List.drop_zero]
  | @decimal digits places hne hplaces hall =>
    obtain ⟨d, ds, rfl⟩ := List.exists_cons_of_ne_nil hne
    rw [List.cons_append] at htext
    obtain ⟨rfl, rfl⟩ := List.cons.inj htext
    obtain ⟨hdigits, hp⟩ := List.forall_mem_append.1 hall
    obtain ⟨hc, hds⟩ := List.forall_mem_cons.1 hdigits
    obtain ⟨htake, hdrop⟩ := takeWhile_append_of_head hds ('.' :: (places ++ after))
      fun x hx => Option.some.inj hx ▸ rfl
    have hstop := (takeWhile_append_of_head (List.forall_mem_nil _) after
      (hafter.stops fun _ => inWord_of_isDigit)).1
    have hfraction := fraction_places hplaces hp after
    rw [List.nil_append] at hstop
    rw [hstop, List.append_nil] at hfraction
    have hvalue := decimal?_point (List.cons_ne_nil c ds) hdigits hp
    rw [first_of_isDigit hc, List.append_assoc, List.cons_append]
    simp only [number, htake, hdrop, hfraction, hvalue]
    simp
  | word hc hcs =>
    cases htext
    obtain ⟨htake, hdrop⟩ := takeWhile_append_of_head (fun x hx => inWord_iff.2 (hcs x hx)) after
      (hafter.stops fun _ => id)
    rw [first_of_startsWord (startsWord_iff.2 hc), Lexer.word, htake, hdrop]
    rfl

/-- A text is at most one lexeme. -/
theorem Lexeme.unique {kind kind' : Kind} {literal literal' : Option Literal} {text : List Char}
    (h : Lexeme kind literal text) (h' : Lexeme kind' literal' text) :
    kind' = kind ∧ literal' = literal := by
  obtain ⟨c, cs, rfl⟩ := List.exists_cons_of_ne_nil h.ne_nil
  have hsame := (h'.first_eq .nil).symm.trans (h.first_eq .nil)
  simpa using congrArg (fun r => r.1.shape) hsame

/-! ## A lexeme at the front of a text -/

/-- The segment is a lexeme. -/
def Segment.isLexeme (s : Segment) : Bool :=
  match s.shape with
  | .lexeme _ _ => true
  | _ => false

theorem Segment.isLexeme_iff {s : Segment} :
    s.isLexeme ↔ ∃ kind literal, s.shape = .lexeme kind literal := by
  unfold Segment.isLexeme
  split
  · next kind literal h => exact ⟨fun _ => ⟨kind, literal, h⟩, fun _ => rfl⟩
  · next h => exact ⟨fun hf => absurd hf (by decide), fun ⟨kind, literal, hs⟩ => absurd hs (h _ _)⟩

theorem number_isLexeme {c : Char} (hc : c.isDigit) (cs : List Char) :
    (number c cs).1.isLexeme := by
  obtain ⟨value, hvalue⟩ := Option.isSome_iff_exists.1 (isSome_decimal? hc cs)
  simp only [number, hvalue]
  rfl

/-- Where a lexeme stands at the front of a text that is no comment, the first segment is a lexeme
that is at least as long. -/
theorem Lexeme.prefix_first {kind : Kind} {literal : Option Literal} {text : List Char} {c : Char}
    {cs : List Char} (h : Lexeme kind literal text) (hfront : text <+: c :: cs)
    (hcomment : ¬['/', '/'] <+: c :: cs) :
    (first c cs).1.isLexeme ∧ text <+: (first c cs).1.text := by
  obtain ⟨after, hafter⟩ := hfront
  cases h with
  | punctuator h =>
    cases hafter
    rw [first_of_punctuator? (mem_punctuators.1 h)]
    exact ⟨rfl, List.prefix_rfl⟩
  | slash =>
    rw [List.singleton_append] at hafter
    obtain ⟨rfl, rfl⟩ := List.cons.inj hafter
    -- A second slash would make it a comment.
    have hhead : after.head? ≠ some '/' := by
      intro hhead
      obtain ⟨rest, rfl⟩ := List.head?_eq_some_iff.1 hhead
      exact hcomment ⟨rest, rfl⟩
    have hfirst : first '/' after = (bare .slash ['/'], after) := slash_of_head hhead
    rw [hfirst]
    exact ⟨rfl, List.prefix_rfl⟩
  | alone h =>
    cases hafter
    rw [first_of_operator? (mem_operators.1 h)]
    -- An operator and the `=` behind it are read as one lexeme, which is longer.
    unfold operator
    split
    · exact ⟨rfl, List.prefix_append [_] ['=']⟩
    · exact ⟨rfl, List.prefix_rfl⟩
  | joined h =>
    cases hafter
    rw [first_of_operator? (mem_operators.1 h)]
    exact ⟨rfl, List.prefix_rfl⟩
  | @string body h =>
    rw [List.cons_append, List.cons_append, List.append_assoc] at hafter
    obtain ⟨rfl, rfl⟩ := List.cons.inj hafter
    have hfirst : first '"' (body ++ (['"'] ++ after)) = _ := quoted_closed h after
    rw [hfirst]
    exact ⟨rfl, List.prefix_rfl⟩
  | @whole digits hne hdigits =>
    obtain ⟨d, ds, rfl⟩ := List.exists_cons_of_ne_nil hne
    obtain ⟨rfl, rfl⟩ := List.cons.inj hafter
    obtain ⟨hc, hds⟩ := List.forall_mem_cons.1 hdigits
    rw [first_of_isDigit hc]
    refine ⟨number_isLexeme hc _, ?_⟩
    show d :: ds <+: d :: (ds ++ after).takeWhile Char.isDigit ++ fraction _
    rw [List.takeWhile_append_of_pos hds, List.cons_append, List.append_assoc]
    exact List.prefix_append (d :: ds) _
  | @decimal digits places hne hplaces hall =>
    obtain ⟨d, ds, rfl⟩ := List.exists_cons_of_ne_nil hne
    rw [List.append_assoc, List.cons_append] at hafter
    obtain ⟨rfl, rfl⟩ := List.cons.inj hafter
    obtain ⟨hdigits, hp⟩ := List.forall_mem_append.1 hall
    obtain ⟨hc, hds⟩ := List.forall_mem_cons.1 hdigits
    rw [first_of_isDigit hc]
    refine ⟨number_isLexeme hc _, ?_⟩
    obtain ⟨htake, hdrop⟩ := takeWhile_append_of_head hds ('.' :: (places ++ after))
      fun x hx => Option.some.inj hx ▸ rfl
    show d :: ds ++ '.' :: places <+:
      d :: (ds ++ '.' :: (places ++ after)).takeWhile Char.isDigit ++
        fraction ((ds ++ '.' :: (places ++ after)).dropWhile Char.isDigit)
    rw [htake, hdrop, fraction_places hplaces hp, List.prefix_append_right_inj]
    exact List.prefix_append ('.' :: places) _
  | @word c' cs' hc hcs =>
    obtain ⟨rfl, rfl⟩ := List.cons.inj hafter
    rw [first_of_startsWord (startsWord_iff.2 hc)]
    refine ⟨rfl, ?_⟩
    show c' :: cs' <+: c' :: (cs' ++ after).takeWhile inWord
    rw [List.takeWhile_append_of_pos fun x hx => inWord_iff.2 (hcs x hx)]
    exact List.prefix_append (c' :: cs') _

/-- Of the lexemes at the front of `rest`, `text` is the longest. A comment is no lexeme. -/
structure Longest (kind : Kind) (literal : Option Literal) (text rest : List Char) : Prop where
  lexeme : Lexeme kind literal text
  front : text <+: rest
  longest : ∀ kind' literal' text', Lexeme kind' literal' text' → text' <+: rest → text' <+: text
  comment : ¬['/', '/'] <+: rest

/-- At the front of `rest` there is no lexeme, no comment, no blank and no opening quote. -/
structure Unreadable (rest : List Char) : Prop where
  lexeme : ∀ kind literal text, Lexeme kind literal text → ¬text <+: rest
  comment : ¬['/', '/'] <+: rest
  blank : ∀ c ∈ rest.head?, isBlank c = false
  quote : rest.head? ≠ some '"'

section

variable {c : Char} {cs : List Char}

theorem first_of_comment (h : ['/', '/'] <+: c :: cs) : (first c cs).1.shape = .comment := by
  obtain ⟨rest, hrest⟩ := h
  obtain ⟨rfl, rfl⟩ := List.cons.inj hrest
  rfl

/-- A lexeme that is read is the longest one. -/
theorem first_longest {kind : Kind} {literal : Option Literal}
    (h : (first c cs).1.shape = .lexeme kind literal) :
    Longest kind literal (first c cs).1.text (c :: cs) := by
  have hstands := first_stands c cs
  have hcomment : ¬['/', '/'] <+: c :: cs := by
    intro hcomment
    rw [first_of_comment hcomment] at h
    cases h
  rw [Segment.Stands, h] at hstands
  exact ⟨hstands, ⟨_, first_append c cs⟩,
    fun _ _ _ h' hfront => (h'.prefix_first hfront hcomment).2, hcomment⟩

/-- A lexeme is read wherever there is one. -/
theorem isLexeme_first_iff :
    (first c cs).1.isLexeme ↔ ∃ kind literal text, Longest kind literal text (c :: cs) := by
  constructor
  · intro h
    obtain ⟨kind, literal, hshape⟩ := Segment.isLexeme_iff.1 h
    exact ⟨kind, literal, _, first_longest hshape⟩
  · rintro ⟨kind, literal, text, h⟩
    exact (h.lexeme.prefix_first h.front h.comment).1

/-- A character is taken for a stray one exactly where nothing can be read. -/
theorem stray_first_iff (x : Char) :
    (first c cs).1.shape = .stray x ↔ Unreadable (c :: cs) ∧ c = x := by
  have hstands := first_stands c cs
  have happend := first_append c cs
  generalize (first c cs).1 = s at hstands happend ⊢
  unfold Segment.Stands at hstands
  constructor
  · intro h
    rw [h] at hstands
    obtain ⟨htext, hnothing⟩ := hstands
    rw [htext] at happend
    obtain ⟨rfl, -⟩ := List.cons.inj happend
    -- Every lexeme begins with a character that starts something, and `x` starts nothing.
    have hlexeme : ∀ kind literal text, Lexeme kind literal text → ¬text <+: x :: cs := by
      intro kind literal text hlexeme hfront
      obtain ⟨d, ds, rfl⟩ := List.exists_cons_of_ne_nil hlexeme.ne_nil
      obtain ⟨rfl, -⟩ := List.cons_prefix_cons.1 hfront
      exact hnothing.lexeme _ _ _ hlexeme
    refine ⟨⟨hlexeme, fun hcomment => ?_, fun d hd => ?_, fun hquote => ?_⟩, rfl⟩
    · exact hlexeme _ _ _ .slash ((List.prefix_append ['/'] ['/']).trans hcomment)
    · exact Option.some.inj hd ▸ hnothing.blank
    · exact hnothing.quote (Option.some.inj hquote)
  · rintro ⟨hun, rfl⟩
    split at hstands
    -- All other shapes are excluded: each of them stands at the front of the text.
    · obtain ⟨b, hb, htext⟩ := hstands
      rw [htext] at happend
      obtain ⟨rfl, -⟩ := List.cons.inj happend
      exact absurd (isBlank_iff.2 (by simpa using hb)) (Bool.eq_false_iff.1 (hun.blank b rfl))
    · obtain ⟨body, -, htext, -⟩ := hstands
      rw [htext] at happend
      exact absurd ⟨_, happend⟩ hun.comment
    · exact absurd ⟨_, happend⟩ (hun.lexeme _ _ _ hstands)
    · next y hshape =>
      rw [hstands.1] at happend
      obtain ⟨rfl, -⟩ := List.cons.inj happend
      exact hshape
    · exact hstands.elim
    · obtain ⟨body, -, htext, -⟩ := hstands
      rw [htext] at happend
      obtain ⟨rfl, -⟩ := List.cons.inj happend
      exact absurd rfl hun.quote

end

/-! ## Kinds and values -/

/-- A word has the kind that it spells. -/
theorem Lexeme.ofWord {kind : Kind} {literal : Option Literal} {text : List Char}
    (h : Lexeme kind literal text) (hword : kind.isWord) :
    Kind.ofWord (String.ofList text) = kind := by
  cases h with
  | punctuator h =>
    exact absurd hword (Bool.eq_false_iff.1 (isWord_of_punctuator? (mem_punctuators.1 h)))
  | alone h =>
    exact absurd hword (Bool.eq_false_iff.1 (isWord_of_operator? (mem_operators.1 h)).1)
  | joined h =>
    exact absurd hword (Bool.eq_false_iff.1 (isWord_of_operator? (mem_operators.1 h)).2)
  | word _ _ => rfl
  | _ => exact absurd hword (by decide)

theorem Lexeme.keyword {word : String} {key : Kind} (h : (word, key) ∈ Kind.keywords) :
    Lexeme key none word.toList := by
  have hall : ∀ p ∈ Kind.keywords, p.1.toList.head?.any startsWord ∧ p.1.toList.all inWord ∧
      Kind.ofWord p.1 = p.2 := by decide +kernel
  obtain ⟨hhead, hin, (hkey : Kind.ofWord word = key)⟩ := hall _ h
  cases hlist : word.toList with
  | nil =>
    rw [hlist] at hhead
    exact absurd hhead (by decide)
  | cons c cs =>
    rw [hlist] at hhead hin
    rw [← hkey, ← String.ofList_toList (s := word), hlist]
    exact .of_word hhead (List.forall_mem_cons.1 (List.all_eq_true.1 hin)).2

/-- A lexeme is a keyword exactly if it is spelled like one. -/
theorem Lexeme.keyword_iff {kind key : Kind} {literal : Option Literal} {text : List Char}
    {word : String} (h : Lexeme kind literal text) (hkey : (word, key) ∈ reserved) :
    kind = key ↔ String.ofList text = word := by
  rw [reserved_eq] at hkey
  -- The table of keywords has each word and each kind once.
  have hwords : ∀ p ∈ Kind.keywords, p.2.isWord ∧ p.2 ≠ .identifier ∧
      ∀ q ∈ Kind.keywords, q.2 = p.2 → q.1 = p.1 := by decide +kernel
  obtain ⟨hword, hne, hinj⟩ := hwords _ hkey
  constructor
  · rintro rfl
    exact hinj _ (Kind.mem_keywords_of_ofWord (h.ofWord hword) hne) rfl
  · rintro rfl
    have hkeyword := Lexeme.keyword hkey
    rw [String.toList_ofList] at hkeyword
    exact (hkeyword.unique h).1

/-- The exact value of a row of digits with places after the point. -/
def decimalValue (digits places : List Char) : ℚ :=
  digitsValue digits + digitsValue places / 10 ^ places.length

theorem digitsValue_append (digits places : List Char) :
    digitsValue (digits ++ places) =
      digitsValue digits * 10 ^ places.length + digitsValue places := by
  -- The fold goes on from the value so far, which each place multiplies by ten.
  have hfold : ∀ n, places.foldl (fun n c => 10 * n + (c.toNat - '0'.toNat)) n =
      n * 10 ^ places.length + digitsValue places := by
    unfold digitsValue
    induction places with
    | nil => simp
    | cons c places ih =>
      intro n
      rw [List.foldl_cons, List.foldl_cons, ih, ih (10 * 0 + _), List.length_cons, pow_succ]
      ring
  rw [← hfold, digitsValue, digitsValue, List.foldl_append]

/-- The number of a lexeme is the one that is nearest to its value. -/
theorem isNearest_numberValue (digits places : List Char) :
    Number.IsNearest (decimalValue digits places) (numberValue digits places).toBits.toNat := by
  have hnearest := Number.isNearest_ofDecimal (digitsValue (digits ++ places)) places.length
  have hten : (10 : ℚ) ^ places.length ≠ 0 := pow_ne_zero _ (by norm_num)
  rwa [digitsValue_append, Nat.cast_add, Nat.cast_mul, Nat.cast_pow, Nat.cast_ofNat, add_div,
    mul_div_cancel_right₀ _ hten, ← digitsValue_append] at hnearest

end Lexer

open Lexer

/-- A token carries the value of its text: a string what stands between the quotes, a number the
number nearest to its decimal value, and other tokens carry nothing. -/
def Token.Carries (t : Token) : Prop :=
  match t.kind with
  | .string => ∃ body, t.lexeme = "\"" ++ body ++ "\"" ∧ t.literal = some (.text body)
  | .number => ∃ digits places x,
    t.lexeme.toList = digits ++ (if places = [] then [] else '.' :: places) ∧
      (∀ c ∈ digits ++ places, c.isDigit) ∧ t.literal = some (.number x) ∧
      Number.IsNearest (decimalValue digits places) x.toBits.toNat
  | _ => t.literal = none

namespace Lexer

theorem carries_of_none {kind : Kind} (h : kind ∉ [.eof, .number, .string]) (text : String)
    (line : Nat) : (Token.mk kind text none line).Carries := by
  unfold Token.Carries
  split
  · next hk => simp [show kind = _ from hk] at h
  · next hk => simp [show kind = _ from hk] at h
  · rfl

/-- What a lexeme says about its value. -/
theorem Lexeme.carries {kind : Kind} {literal : Option Literal} {text : List Char}
    (h : Lexeme kind literal text) (line : Nat) :
    (Token.mk kind (String.ofList text) literal line).Carries := by
  cases h with
  | punctuator h => exact carries_of_none (punctuator?_not_mem (mem_punctuators.1 h)) _ _
  | slash => exact carries_of_none (by decide) _ _
  | alone h => exact carries_of_none (operator?_not_mem (mem_operators.1 h)).1 _ _
  | joined h => exact carries_of_none (operator?_not_mem (mem_operators.1 h)).2 _ _
  | @string body _ =>
    refine ⟨String.ofList body, String.toList_inj.1 ?_, rfl⟩
    simp
  | whole _ hdigits =>
    refine ⟨text, [], _, ?_, ?_, rfl, isNearest_numberValue text []⟩
    · simp
    · simpa using hdigits
  | @decimal digits places _ hplaces hall =>
    refine ⟨digits, places, _, ?_, hall, rfl, isNearest_numberValue digits places⟩
    simp [hplaces]
  | word _ _ => exact carries_of_none (ofWord_not_mem _) _ _

/-- Every segment of a source is the first one of what is left. -/
theorem eq_first_of_segments {cs : List Char} {before after : List Segment} {s : Segment}
    (h : segments cs = before ++ s :: after) :
    ∃ c rest, s.text ++ textOf after = c :: rest ∧ s = (first c rest).1 := by
  fun_induction segments cs generalizing before with
  | case1 => simp at h
  | case2 c cs ih =>
    cases before with
    | nil =>
      obtain ⟨rfl, rfl⟩ := List.cons.inj h
      exact ⟨c, cs, by rw [textOf, flatMap_segments, first_append], rfl⟩
    | cons s' before => exact ih (List.cons.inj h).2

/-- What a segment yields, by its shape. -/
theorem Segment.yield?_eq_ok {before : List Char} {s : Segment} {t : Token}
    (h : s.yield? before = some (.ok t)) :
    s.shape = .lexeme t.kind t.literal ∧ t.lexeme = String.ofList s.text := by
  unfold Segment.yield? at h
  split at h
  · next hshape =>
    cases h
    exact ⟨hshape, rfl⟩
  all_goals cases h

theorem Segment.exists_yield?_ok_iff {before : List Char} {s : Segment} :
    (∃ t, s.yield? before = some (.ok t)) ↔ s.isLexeme := by
  rw [Segment.isLexeme_iff]
  constructor
  · rintro ⟨t, h⟩
    exact ⟨_, _, (Segment.yield?_eq_ok h).1⟩
  · rintro ⟨kind, literal, h⟩
    unfold Segment.yield?
    rw [h]
    exact ⟨_, rfl⟩

theorem Segment.exists_yield?_unexpected_iff {before : List Char} {s : Segment} {c : Char} :
    (∃ line, s.yield? before = some (.error ⟨line, .unexpected c⟩)) ↔ s.shape = .stray c := by
  constructor
  · rintro ⟨line, h⟩
    unfold Segment.yield? at h
    split at h <;> cases h
    assumption
  · intro h
    unfold Segment.yield?
    rw [h]
    exact ⟨_, rfl⟩

end Lexer

/-- Tokens are longest matches. A source is the concatenation of segments that are what their shape
says, so that all but the tokens are blanks, comments, characters that start nothing and an open
string at the end, and they account for all that the source yields. Where a segment stands, a token
comes up exactly if a lexeme is at the front of what is left, and it is the longest one there: its
kind is a keyword exactly if its whole text is spelled like that keyword, and it carries the value
of its text. A character is unexpected exactly where no lexeme, no comment, no blank and no opening
quote is at the front. -/
theorem scan_longest_match (source : String) :
    ∃ ss : List Segment, textOf ss = source.toList ∧
      scan source =
        ss.zipIdx.filterMap (fun p => p.1.yield? (textOf (ss.take p.2))) ++
          [.ok (Token.endOfFile (1 + source.toList.count '\n'))] ∧
      ∀ before s after, ss = before ++ s :: after →
        let rest := s.text ++ textOf after
        s.Stands (textOf after) ∧
        (∀ t, s.yield? (textOf before) = some (.ok t) →
          Longest t.kind t.literal t.lexeme.toList rest ∧ t.Carries ∧
            ∀ word key, (word, key) ∈ reserved → (t.kind = key ↔ t.lexeme = word)) ∧
        ((∃ t, s.yield? (textOf before) = some (.ok t)) ↔
          ∃ kind literal text, Longest kind literal text rest) ∧
        ∀ c, (∃ line, s.yield? (textOf before) = some (.error ⟨line, .unexpected c⟩)) ↔
          Unreadable rest ∧ rest.head? = some c := by
  refine ⟨segments source.toList, flatMap_segments _, scan_eq_yield source, ?_⟩
  intro before s after heq rest
  -- Each segment is the first one of the text from its position on.
  refine ⟨segments_stand _ heq, ?_⟩
  obtain ⟨c, cs, hrest, rfl⟩ := eq_first_of_segments heq
  rw [show rest = c :: cs from hrest]
  refine ⟨fun t ht => ?_, ?_, fun x => ?_⟩
  · obtain ⟨hshape, hlexeme⟩ := Segment.yield?_eq_ok ht
    have hlongest := first_longest hshape
    have hcarries := hlongest.lexeme.carries t.line
    rw [← hlexeme] at hcarries
    refine ⟨?_, hcarries, fun word key hkey => ?_⟩
    · rw [hlexeme, String.toList_ofList]
      exact hlongest
    · rw [hlexeme]
      exact hlongest.lexeme.keyword_iff hkey
  · exact Segment.exists_yield?_ok_iff.trans isLexeme_first_iff
  · rw [Segment.exists_yield?_unexpected_iff, stray_first_iff, List.head?_cons, Option.some.injEq]

end Lox
