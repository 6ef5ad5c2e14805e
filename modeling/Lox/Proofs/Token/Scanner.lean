import Lox.Proofs.Token.Bytes
import Lox.Proofs.Token.Cut

/-!
# The scanner cuts a source into segments

A scanner between two characters of a source reads the first segment of what is left and is between
two characters again (`scanToken_eq`). On the way it slices the source only at boundaries between
characters (`slice?_eq`), and every line feed is counted once.

Main statement: the scanner never fails, and what it yields are the items of the segments
(`items?_eq`).
-/

namespace Lox

namespace Scanner

open Lexer (Segment Item)

variable {s : Scanner} {before text after cs : List Char} {c : Char}

/-! ## Boundaries between characters -/

/-- The scanner stands between two texts that make up the source. -/
structure At (s : Scanner) (before after : List Char) : Prop where
  src : s.src.toList = before ++ after
  curr : s.curr = (codes before).length

/-- The scanner after a text. -/
def past (s : Scanner) (text : List Char) : Scanner :=
  s.further (codes text).length (text.count '\n')

@[simp] theorem src_past (s : Scanner) (text : List Char) : (s.past text).src = s.src := rfl

@[simp] theorem start_past (s : Scanner) (text : List Char) : (s.past text).start = s.start := rfl

@[simp] theorem curr_past (s : Scanner) (text : List Char) :
    (s.past text).curr = s.curr + (codes text).length := rfl

@[simp] theorem past_nil (s : Scanner) : s.past [] = s := rfl

theorem past_append (s : Scanner) (text text' : List Char) :
    s.past (text ++ text') = (s.past text).past text' := by
  simp [past]

/-- Bytes of ASCII that are no newline are characters. -/
theorem further_eq_past (h : ∀ x ∈ text, x.toNat < 128 ∧ x ≠ '\n') :
    s.further text.length 0 = s.past text := by
  have hnone : text.count '\n' = 0 := List.count_eq_zero.2 fun hmem => (h _ hmem).2 rfl
  rw [past, codes_ascii fun x hx => (h x hx).1, hnone]

theorem utf8ByteSize_ofList (cs : List Char) :
    (String.ofList cs).utf8ByteSize = (codes cs).length := by
  have hlen := len_eq (new (String.ofList cs))
  simpa [new, len] using hlen

namespace At

theorem rest_eq (h : s.At before after) : s.rest = codes after := by
  rw [rest, h.src, h.curr, codes_append, List.drop_left]

theorem past (h : s.At before (text ++ after)) : (s.past text).At (before ++ text) after where
  src := by
    rw [List.append_assoc]
    exact h.src
  curr := by
    rw [codes_append, List.length_append, ← h.curr]
    rfl

theorem past_char (h : s.At before (c :: after)) : (s.past [c]).At (before ++ [c]) after :=
  past (List.singleton_append ▸ h)

theorem curr_le_len (h : s.At before after) : s.curr ≤ s.len := by
  rw [len_eq, h.src, h.curr, codes_append, List.length_append]
  exact Nat.le_add_right _ _

theorem isAtEnd_iff (h : s.At before after) : s.isAtEnd ↔ after = [] := by
  rw [Scanner.isAtEnd_iff, h.rest_eq]
  constructor
  · intro hnil
    cases after with
    | nil => rfl
    | cons c cs => exact absurd (List.append_eq_nil_iff.1 hnil).1 (codesOf_ne_nil c)
  · rintro rfl
    rfl

theorem curr_eq_len_iff (h : s.At before after) : s.curr = s.len ↔ after = [] := by
  rw [← h.isAtEnd_iff, isAtEnd, decide_eq_true_iff]
  exact ⟨Nat.le_of_eq ∘ Eq.symm, Nat.le_antisymm h.curr_le_len⟩

end At

/-- The bytes between two texts. -/
theorem extract_append (before text after : String) :
    (before ++ text ++ after).toByteArray.extract before.utf8ByteSize
      (before.utf8ByteSize + text.utf8ByteSize) = text.toByteArray := by
  have hbefore : before.toByteArray.size = before.utf8ByteSize := rfl
  have htext : text.toByteArray.size = text.utf8ByteSize := rfl
  have hnone : before.toByteArray.extract before.utf8ByteSize
      (before.utf8ByteSize + text.utf8ByteSize) = ByteArray.empty := by
    rw [ByteArray.extract_eq_empty_iff]
    omega
  have hall : text.toByteArray.extract 0 text.utf8ByteSize = text.toByteArray := by
    rw [← htext, ByteArray.extract_zero_size]
  simp [String.toByteArray_append, ByteArray.extract_append, hbefore, htext, hnone, hall]

/-- A text can be sliced out of the source from one boundary between characters to another. -/
theorem slice?_eq (before text after : List Char) {i j : Nat}
    (hsrc : s.src.toList = before ++ text ++ after)
    (hi : i = (codes before).length) (hj : j = (codes (before ++ text)).length) :
    ∃ piece, s.slice? i j = some piece ∧ piece.copy = String.ofList text := by
  have heq : s.src = String.ofList before ++ String.ofList text ++ String.ofList after := by
    rw [← String.ofList_append, ← String.ofList_append, ← hsrc, String.ofList_toList]
  have hi' : i = (String.ofList before).utf8ByteSize := hi.trans (utf8ByteSize_ofList _).symm
  have hj' : j = (String.ofList before).utf8ByteSize + (String.ofList text).utf8ByteSize := by
    rw [hj, utf8ByteSize_ofList, utf8ByteSize_ofList, codes_append, List.length_append]
  -- Both ends are lengths of texts that the source begins with, so no character is cut.
  have hstart : String.Pos.Raw.IsValid s.src ⟨i⟩ := by
    refine String.Pos.Raw.isValid_iff_exists_append.2
      ⟨String.ofList before, String.ofList text ++ String.ofList after, ?_, ?_⟩
    · rw [heq, String.append_assoc]
    · rw [hi']
      rfl
  have hstop : String.Pos.Raw.IsValid s.src ⟨j⟩ := by
    refine String.Pos.Raw.isValid_iff_exists_append.2
      ⟨String.ofList before ++ String.ofList text, String.ofList after, heq, ?_⟩
    rw [hj', String.rawEndPos, String.utf8ByteSize_append]
  have hle : i ≤ j := by
    rw [hi', hj']
    exact Nat.le_add_right _ _
  refine ⟨_, dif_pos ⟨hstart, hstop, hle⟩, String.toByteArray_inj.1 ?_⟩
  rw [String.toByteArray_copy_slice]
  show s.src.toByteArray.extract i j = _
  rw [hi', hj', heq]
  exact extract_append _ _ _

/-! ## The first byte of a text -/

/-- A class that takes no character beyond ASCII and no null is decided by the next byte. -/
theorem head_codes {p : Char → Bool} (hp : ∀ c : Char, 128 ≤ c.toNat → p c = false)
    (cs : List Char) : p ((codes cs).head?.getD '\x00') = p (cs.head?.getD '\x00') := by
  cases cs with
  | nil => rfl
  | cons c cs =>
    rcases Nat.lt_or_ge c.toNat 128 with hc | hc
    · rw [codes_cons, codesOf_ascii hc]
      rfl
    -- The first byte lies beyond ASCII as its character does, and the class takes neither.
    · obtain ⟨d, ds, hd, hbeyond⟩ := exists_codesOf_eq_cons c
      rw [codes_cons, hd]
      exact (hp d (hbeyond hc)).trans (hp c hc).symm

theorem head?_codes {x : Char} (hx : x.toNat < 128) (cs : List Char) :
    (codes cs).head? = some x ↔ cs.head? = some x := by
  cases cs with
  | nil => rfl
  | cons c cs =>
    rcases Nat.lt_or_ge c.toNat 128 with hc | hc
    · rw [codes_cons, codesOf_ascii hc]
      rfl
    · obtain ⟨d, ds, hd, hbeyond⟩ := exists_codesOf_eq_cons c
      have hdx := ne_of_beyond (hbeyond hc) hx
      have hcx := ne_of_beyond hc hx
      rw [codes_cons, hd]
      simp [hdx, hcx]

/-! ## Loops over characters -/

namespace At

theorem matchByte (h : s.At before after) {x : Char} (hx : x.toNat < 128 ∧ x ≠ '\n') :
    s.matchByte x =
      some (if after.head? = some x then (true, s.past [x]) else (false, s)) := by
  have hfurther : s.further 1 0 = s.past [x] := further_eq_past (List.forall_mem_singleton.2 hx)
  simp only [matchByte_eq, h.rest_eq, head?_codes hx.1, hfurther]

/-- A loop over a class of ASCII characters reads the characters of that class. -/
theorem advanceWhile (h : s.At before after) {p : Char → Bool}
    (hp : ∀ c : Char, 128 ≤ c.toNat → p c = false) (hzero : p '\x00' = false)
    (hline : p '\n' = false) : s.advanceWhile p = some (s.past (after.takeWhile p)) := by
  have hnone : (after.takeWhile p).count '\n' = 0 := List.count_eq_zero.2 fun hmem => by
    rw [List.mem_takeWhile_imp hmem] at hline
    cases hline
  rw [advanceWhile_eq hzero, h.rest_eq, takeWhile_codes hp, Scanner.past, hnone]

theorem advanceString (h : s.At before after) :
    s.advanceString = some (s.past (after.takeWhile (· ≠ '"'))) := by
  have hbeyond (c : Char) (hc : 128 ≤ c.toNat) : decide (c ≠ '"') = true :=
    decide_eq_true (ne_of_beyond hc (by decide))
  rw [advanceString_eq, h.rest_eq, takeWhile_codes hbeyond, count_codes (by decide)]
  rfl

theorem skipLine (h : s.At before after) :
    s.skipLine = some (s.past (after.takeWhile (· ≠ '\n'))) := by
  have hbeyond (c : Char) (hc : 128 ≤ c.toNat) : decide (c ≠ '\n') = true :=
    decide_eq_true (ne_of_beyond hc (by decide))
  have hnone : (after.takeWhile (· ≠ '\n')).count '\n' = 0 := List.count_eq_zero.2 fun hmem => by
    have hne := List.mem_takeWhile_imp hmem
    simp at hne
  rw [skipLine_eq h.curr_le_len, h.rest_eq, takeWhile_codes hbeyond, Scanner.past, hnone]

theorem advance (h : s.At before (c :: after)) (hc : c.toNat < 128 ∧ c ≠ '\n') :
    ∃ b, Char.ofUInt8 b = c ∧ s.advance = some (b, s.past [c]) := by
  have hrest := h.rest_eq
  rw [codes_cons, codesOf_ascii hc.1] at hrest
  rw [← further_eq_past (List.forall_mem_singleton.2 hc)]
  exact advance_of_rest hrest

theorem fraction (h : s.At before after) : s.fraction = some (s.past (Lexer.fraction after)) := by
  have hpoint : decide (Char.ofUInt8 s.peek = '.') = decide (after.head?.getD '\x00' = '.') := by
    rw [peek_eq, h.rest_eq]
    exact head_codes (p := (· = '.'))
      (fun c hc => decide_eq_false (ne_of_beyond hc (by decide))) after
  unfold Scanner.fraction
  rw [hpoint]
  match after with
  | [] => rfl
  | c :: cs =>
    by_cases hc : c = '.'
    · subst hc
      have hnext : (Char.ofUInt8 s.peekNext).isDigit = (cs.head?.getD '\x00').isDigit := by
        rw [peekNext_eq, h.rest_eq, codes_cons, codesOf_ascii (by decide)]
        exact head_codes isDigit_beyond cs
      obtain ⟨b, -, hadvance⟩ := h.advance (by decide)
      have hdigits := h.past_char.advanceWhile isDigit_beyond rfl rfl
      rw [hnext, hadvance]
      cases cs with
      | nil => rfl
      | cons d ds =>
        by_cases hd : d.isDigit
        · simp [Lexer.fraction, hd, hdigits, ← past_append]
        · simp [Lexer.fraction, hd]
    · simp [hc, Lexer.fraction_of_ne _ hc]

end At

/-! ## Lexemes -/

/-- What the scanner makes of a segment that it has read. -/
def reading (s : Scanner) (seg : Segment) : Except LexicalError Unit × Scanner :=
  let s' := s.past seg.text
  match seg.shape with
  | .blank | .comment => (.ok (), s')
  | .lexeme kind literal => (.ok (), s'.emit kind literal)
  | .stray c => (.error ⟨s'.line, .unexpected c⟩, s')
  | .badNumber => (.error ⟨s'.line, .invalidNumber (String.ofList seg.text)⟩, s')
  | .openString => (.error ⟨s'.line, .unterminatedString⟩, s')

namespace At

theorem operator (h : (s.past [c]).At before cs) (alone joined : Kind) :
    (s.past [c]).operator alone joined =
      some (s.reading (Lexer.operator c alone joined cs).1) := by
  unfold Scanner.operator
  rw [h.matchByte (x := '=') (by decide)]
  match cs with
  | [] => rfl
  | d :: ds =>
    by_cases hd : d = '='
    · subst hd
      simp [Lexer.operator, Lexer.bare, reading, ← past_append]
    · simp [Lexer.operator_of_ne _ _ _ _ hd, Lexer.bare, reading, hd]

theorem slash (h : (s.past ['/']).At before cs) :
    (s.past ['/']).slash = some (s.reading (Lexer.slash cs).1) := by
  unfold Scanner.slash
  rw [h.matchByte (x := '/') (by decide)]
  match cs with
  | [] => rfl
  | d :: ds =>
    by_cases hd : d = '/'
    · subst hd
      have hskip := h.past_char.skipLine
      rw [← past_append, ← past_append] at hskip
      simp only [List.head?_cons, if_true, ← past_append]
      exact congrArg (Option.bind · _) hskip
    · simp [Lexer.slash_of_ne _ hd, Lexer.bare, reading, hd]

/-- The text of a lexeme can be sliced out of the source once it has been read. -/
theorem slice? (h : s.At before (text ++ after)) (hstart : s.start = s.curr) :
    ∃ piece, (s.past text).slice? (s.past text).start (s.past text).curr = some piece ∧
      piece.copy = String.ofList text :=
  slice?_eq _ _ _ (h.src.trans (List.append_assoc _ _ _).symm) (hstart.trans h.curr) h.past.curr

theorem string (h : s.At before ('"' :: cs)) (hstart : s.start = s.curr) :
    (s.past ['"']).string = some (s.reading (Lexer.quoted cs).1) := by
  have hopen := h.past_char
  have hstop := List.head?_dropWhile_not (· ≠ '"') cs
  have hsplit := List.takeWhile_append_dropWhile (p := (· ≠ '"')) (l := cs)
  have hloop := hopen.advanceString
  unfold Scanner.string Lexer.quoted
  -- What is left splits at the first quote, if there is one.
  generalize cs.takeWhile (· ≠ '"') = body at *
  generalize cs.dropWhile (· ≠ '"') = tail at *
  subst hsplit
  have hbody := hopen.past
  rw [← past_append, List.singleton_append] at hloop hbody
  cases tail with
  | nil =>
    have hend := hbody.isAtEnd_iff.2 rfl
    simp [hloop, hend, reading]
  | cons close rest =>
    obtain rfl : close = '"' := by simpa using hstop
    have hend : (s.past ('"' :: body)).isAtEnd = false :=
      Bool.eq_false_iff.2 fun hend => by cases hbody.isAtEnd_iff.1 hend
    obtain ⟨b, -, hclose⟩ := hbody.advance (by decide)
    rw [← past_append, List.cons_append] at hclose
    have hquote : codesOf '"' = ['"'] := codesOf_ascii (by decide)
    -- The quotes are one byte each, so the slice begins and ends one byte further in.
    obtain ⟨piece, hpiece, hcopy⟩ := slice?_eq (s := s.past ('"' :: (body ++ ['"'])))
      (i := s.start + 1) (j := (s.past ('"' :: (body ++ ['"']))).curr - 1)
      (before ++ ['"']) body ('"' :: rest)
      (by simpa using h.src) (by simp [hstart, h.curr, hquote])
      (by simp [h.curr, hquote, Nat.add_assoc])
    simp [-curr_past, hloop, hend, hclose, reading, hpiece, hcopy]

theorem number (h : s.At before (c :: cs)) (hstart : s.start = s.curr) :
    (s.past [c]).number = some (s.reading (Lexer.number c cs).1) := by
  have hfirst := h.past_char
  have hdigits := hfirst.advanceWhile isDigit_beyond rfl rfl
  rw [← List.takeWhile_append_dropWhile (p := Char.isDigit) (l := cs)] at hfirst
  have hpoint := hfirst.past.fraction
  -- The digits, the point and its places are the text of the segment, which is sliced out whole.
  have htext : s.At before ((Lexer.number c cs).1.text ++ (Lexer.number c cs).2) := by
    rwa [Lexer.number_append]
  obtain ⟨piece, hpiece, hcopy⟩ := htext.slice? hstart
  have hpast : (((s.past [c]).past (cs.takeWhile Char.isDigit)).past
      (Lexer.fraction (cs.dropWhile Char.isDigit))) = s.past (Lexer.number c cs).1.text := by
    rw [← past_append, ← past_append]
    rfl
  rw [hpast] at hpoint
  unfold Scanner.number
  rw [hdigits]
  simp only [Option.bind_eq_bind, Option.bind_some, hpoint, hpiece, hcopy, String.toList_ofList]
  cases hvalue : Lexer.decimal? (Lexer.number c cs).1.text with
  | some value =>
    have hshape : (Lexer.number c cs).1.shape = .lexeme .number (some (.number value)) := by
      unfold Lexer.number at hvalue ⊢
      simp only at hvalue ⊢
      rw [hvalue]
    simp [reading, hshape]
  | none =>
    have hshape : (Lexer.number c cs).1.shape = .badNumber := by
      unfold Lexer.number at hvalue ⊢
      simp only at hvalue ⊢
      rw [hvalue]
    simp [reading, hshape]

theorem word (h : s.At before (c :: cs)) (hstart : s.start = s.curr) :
    (s.past [c]).word = some (s.reading (Lexer.word c cs).1) := by
  have hletters := h.past_char.advanceWhile inWord_beyond (by decide) (by decide)
  have htext : s.At before ((Lexer.word c cs).1.text ++ (Lexer.word c cs).2) := by
    rwa [Lexer.word_append]
  obtain ⟨piece, hpiece, hcopy⟩ := htext.slice? hstart
  rw [← past_append, List.singleton_append] at hletters
  unfold Scanner.word
  simp only [Lexer.word, Lexer.bare] at hpiece hcopy
  simp [-curr_past, -start_past, hletters, hpiece, hcopy, reading, Lexer.word, Lexer.bare]

theorem unexpected (h : s.At before (c :: cs)) (hstart : s.start = s.curr) (hc : c ≠ '\n') :
    (s.further 1 0).unexpected = some (s.reading ⟨.stray c, [c]⟩) := by
  -- Whatever the length of the character, the slice begins where it does, so it is in front.
  obtain ⟨piece, hpiece, hcopy⟩ := slice?_eq (s := s.further 1 0) (i := s.start) (j := s.len)
    before (c :: cs) [] (by simpa [further] using h.src) (hstart.trans h.curr)
    (by rw [len_eq, h.src])
  have hfront : piece.front? = some c := by
    rw [String.Slice.front?_eq, hcopy, String.toList_ofList]
    rfl
  have hline : [c].count '\n' = 0 := List.count_eq_zero.2 fun hmem =>
    hc (List.mem_singleton.1 hmem).symm
  unfold Scanner.unexpected
  show Option.bind ((s.further 1 0).slice? s.start s.len) _ = _
  rw [hpiece]
  simp [hfront, reading, Scanner.past, further, hstart, hline]

end At

/-- What starts with a character of ASCII is told by its one byte. -/
theorem At.lexeme (h : s.At before (c :: cs)) (hstart : s.start = s.curr) (hc : c.toNat < 128) :
    (s.further 1 0).lexeme c = some (s.reading (Lexer.first c cs).1) := by
  -- A newline is counted, so it is not one of the bytes on which `past` and `further` agree.
  by_cases hline : c = '\n'
  · subst hline
    rfl
  have hfurther : s.further 1 0 = s.past [c] :=
    further_eq_past (List.forall_mem_singleton.2 ⟨hc, hline⟩)
  have hfirst := h.past_char
  unfold Scanner.lexeme Lexer.first
  cases hp : Lexer.punctuator? c with
  | some kind =>
    rw [hfurther]
    rfl
  | none =>
  cases ho : Lexer.operator? c with
  | some kinds =>
    rw [hfurther]
    exact hfirst.operator _ _
  | none =>
  simp only [Lexer.isBlank, hline, decide_false, Bool.or_false, if_false]
  split
  · rw [hfurther]
    rfl
  split
  · next heq =>
    subst heq
    rw [hfurther]
    exact hfirst.slash
  split
  · next heq =>
    subst heq
    rw [hfurther]
    exact h.string hstart
  split
  · rw [hfurther]
    exact h.number hstart
  split
  · rw [hfurther]
    exact h.word hstart
  · exact h.unexpected hstart hline

/-- A character beyond ASCII starts nothing. -/
theorem first_beyond (hc : 128 ≤ c.toNat) (cs : List Char) :
    Lexer.first c cs = (⟨.stray c, [c]⟩, cs) := by
  have hne {x : Char} (hx : x.toNat < 128) : c ≠ x := ne_of_beyond hc hx
  simp [Lexer.first, punctuator?_beyond hc, operator?_beyond hc, isDigit_beyond c hc,
    startsWord_beyond c hc, Lexer.isBlank, hne]

/-- Neither does a byte beyond ASCII. -/
theorem lexeme_beyond (hc : 128 ≤ c.toNat) (s : Scanner) : s.lexeme c = s.unexpected := by
  have hne {x : Char} (hx : x.toNat < 128) : c ≠ x := ne_of_beyond hc hx
  simp [Scanner.lexeme, punctuator?_beyond hc, operator?_beyond hc, isDigit_beyond c hc,
    startsWord_beyond c hc, hne]

/-- Between two characters, the scanner reads the first segment of what is left. -/
theorem scanToken_eq (h : s.At before (c :: cs)) (hstart : s.start = s.curr) :
    s.scanToken = some (s.reading (Lexer.first c cs).1) := by
  -- The scanner goes by the first byte of the character.
  obtain ⟨d, ds, hd, hbeyond⟩ := exists_codesOf_eq_cons c
  have hrest : s.rest = d :: (ds ++ codes cs) := by
    rw [h.rest_eq, codes_cons, hd, List.cons_append]
  obtain ⟨b, hb, hadvance⟩ := advance_of_rest hrest
  have hscan : s.scanToken = (s.further 1 0).lexeme d := by
    unfold scanToken
    rw [hadvance]
    exact congrArg (fun x => (s.further 1 0).lexeme x) hb
  rw [hscan]
  rcases Nat.lt_or_ge c.toNat 128 with hc | hc
  · rw [codesOf_ascii hc] at hd
    rw [← (List.cons.inj hd).1]
    exact h.lexeme hstart hc
  · rw [lexeme_beyond (hbeyond hc), first_beyond hc]
    exact h.unexpected hstart (ne_of_beyond hc (by decide))

/-! ## The items of a source -/

section

variable {s' : Scanner}

/-- The scanner in front of its next lexeme. -/
def ready (s : Scanner) : Scanner := { s with start := s.curr, pending := none }

theorem next_of_error {e : LexicalError} (hlt : s.curr < s.len)
    (h : s.ready.scanToken = some (.error e, s')) : s.next = some (some (.error e, s')) := by
  rw [next.eq_def, if_pos (Nat.le_of_lt hlt), if_neg (Nat.ne_of_lt hlt)]
  split <;> next heq => cases h.symm.trans heq <;> rfl

theorem next_of_blank (hlt : s.curr < s.len) (h : s.ready.scanToken = some (.ok (), s'))
    (hpending : s'.pending = none) : s.next = s'.next := by
  rw [next.eq_def, if_pos (Nat.le_of_lt hlt), if_neg (Nat.ne_of_lt hlt)]
  split <;> next heq => cases h.symm.trans heq <;> rw [hpending]

theorem next_of_lexeme {kind : Kind} {literal : Option Literal} {piece : String.Slice}
    (hlt : s.curr < s.len) (h : s.ready.scanToken = some (.ok (), s'))
    (hpending : s'.pending = some (kind, literal))
    (hpiece : s'.slice? s'.start s'.curr = some piece) :
    s.next =
      some (some (.ok ⟨kind, piece.copy, literal, s'.line⟩, { s' with pending := none })) := by
  rw [next.eq_def, if_pos (Nat.le_of_lt hlt), if_neg (Nat.ne_of_lt hlt)]
  split <;> next heq => cases h.symm.trans heq <;> simp [hpending, hpiece]

theorem drain_of_item {item : Item} (h : s.next = some (some (item, s'))) (items : Array Item) :
    s.drain items = s'.drain (items.push item) := by
  rw [drain.eq_def]
  split <;> next heq => cases h.symm.trans heq <;> rfl

theorem drain_of_end (h : s.next = some none) (items : Array Item) :
    s.drain items = some items := by
  rw [drain.eq_def]
  split <;> next heq => cases h.symm.trans heq <;> rfl

theorem drain_of_blank (h : s.next = s'.next) (items : Array Item) :
    s.drain items = s'.drain items := by
  rw [drain.eq_def, drain.eq_def, h]

end

/-- A segment without an item is passed over, and any other yields its item. -/
theorem next_eq (h : s.At before (c :: cs)) :
    let seg := (Lexer.first c cs).1
    ∃ s', s'.At (before ++ seg.text) (Lexer.first c cs).2 ∧
      s'.line = s.line + seg.text.count '\n' ∧
      s.next = match seg.item? s'.line with
        | some item => some (some (item, s'))
        | none => s'.next := by
  intro seg
  have hmore : s.curr ≠ s.len := fun heq => by cases h.curr_eq_len_iff.1 heq
  have hlt : s.curr < s.len := Nat.lt_of_le_of_ne h.curr_le_len hmore
  -- The scanner goes to the front of its next lexeme without moving.
  have hready : s.ready.At before (seg.text ++ (Lexer.first c cs).2) := by
    rw [Lexer.first_append]
    exact ⟨h.src, h.curr⟩
  obtain ⟨piece, hpiece, hcopy⟩ := hready.slice? rfl
  have hpast := hready.past
  have hscan : s.ready.scanToken = some (s.ready.reading seg) :=
    scanToken_eq ⟨h.src, h.curr⟩ rfl
  unfold Segment.item?
  unfold reading at hscan
  cases hshape : seg.shape with
  | blank =>
    rw [hshape] at hscan
    exact ⟨_, hpast, rfl, next_of_blank hlt hscan rfl⟩
  | comment =>
    rw [hshape] at hscan
    exact ⟨_, hpast, rfl, next_of_blank hlt hscan rfl⟩
  | lexeme kind literal =>
    rw [hshape] at hscan
    have hnext := next_of_lexeme hlt hscan rfl hpiece
    rw [hcopy] at hnext
    exact ⟨_, ⟨hpast.src, hpast.curr⟩, rfl, hnext⟩
  | stray x =>
    rw [hshape] at hscan
    exact ⟨_, hpast, rfl, next_of_error hlt hscan⟩
  | badNumber =>
    rw [hshape] at hscan
    exact ⟨_, hpast, rfl, next_of_error hlt hscan⟩
  | openString =>
    rw [hshape] at hscan
    exact ⟨_, hpast, rfl, next_of_error hlt hscan⟩

theorem next_at_end (h : s.At before []) :
    s.next = some (some (.ok (Token.endOfFile s.line), s.further 1 0)) := by
  have hlen := h.curr_eq_len_iff.2 rfl
  rw [next.eq_def, if_pos h.curr_le_len, if_pos hlen]
  rfl

theorem next_past_end (h : s.At before []) : (s.further 1 0).next = some none := by
  have hlen := h.curr_eq_len_iff.2 rfl
  have hgt : ¬(s.further 1 0).curr ≤ (s.further 1 0).len := by
    show ¬s.curr + 1 ≤ s.len
    omega
  rw [next.eq_def, if_neg hgt]

/-- What is drained is collected behind what has been collected. -/
theorem drain_eq (h : s.At before after) (collected : Array Item) :
    (s.drain collected).map Array.toList =
      some (collected.toList ++ Lexer.items s.line (Lexer.segments after)) := by
  -- Along the segments: the scanner stands at the front of one, and collects its item if any.
  fun_induction Lexer.segments after generalizing s before collected with
  | case1 =>
    rw [drain_of_item (next_at_end h), drain_of_end (next_past_end h), Option.map_some,
      Array.toList_push]
    rfl
  | case2 c cs ih =>
    obtain ⟨s', hs', hline, hnext⟩ := next_eq h
    have hrest := ih hs'
    rw [Lexer.items, ← hline]
    cases hitem : (Lexer.first c cs).1.item? s'.line with
    | none =>
      rw [hitem] at hnext
      rw [drain_of_blank hnext, hrest]
      rfl
    | some item =>
      rw [hitem] at hnext
      rw [drain_of_item hnext, hrest, Array.toList_push, List.append_assoc]
      rfl

/-- The scanner reads every source without fail, and yields the items of its segments. -/
theorem items?_eq (source : String) :
    items? source = some (Lexer.items 1 (Lexer.segments source.toList)) := by
  have h : (new source).At [] source.toList := ⟨rfl, rfl⟩
  exact drain_eq h #[]

end Scanner

open Lexer

/-- What a source yields are the items of its segments. -/
theorem scan_eq_items (source : String) : scan source = items 1 (segments source.toList) := by
  rw [scan, Scanner.items?_eq, Option.getD_some]

end Lox
