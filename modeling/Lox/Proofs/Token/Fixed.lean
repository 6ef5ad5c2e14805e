import Lox.Proofs.Token.Longest

/-!
# What a text says about its token

Most kinds have one text only (`Kind.text?`), and a token of such a kind is known from it up to its
line. So is an identifier from its own text, which is not the text of any of these kinds
(`fixed?_name`). Two tokens that are written alike are therefore the same but for their lines, and a
text can be read without a look at the source that it comes from.
-/

namespace Lox

open Lexer

/-! ## Kinds with one text -/

/-- The text of a token, for the kinds that have one text only. -/
def Kind.text? : Kind → Option String
  | .leftParen => some "("
  | .rightParen => some ")"
  | .leftBrace => some "\x7b"
  | .rightBrace => some "\x7d"
  | .comma => some ","
  | .dot => some "."
  | .minus => some "-"
  | .plus => some "+"
  | .semicolon => some ";"
  | .slash => some "/"
  | .star => some "*"
  | .bang => some "!"
  | .bangEqual => some "!="
  | .equal => some "="
  | .equalEqual => some "=="
  | .greater => some ">"
  | .greaterEqual => some ">="
  | .less => some "<"
  | .lessEqual => some "<="
  | .identifier | .string | .number | .eof => none
  | .andWord => some "and"
  | .classWord => some "class"
  | .elseWord => some "else"
  | .falseWord => some "false"
  | .funWord => some "fun"
  | .forWord => some "for"
  | .ifWord => some "if"
  | .nilWord => some "nil"
  | .orWord => some "or"
  | .printWord => some "print"
  | .returnWord => some "return"
  | .superWord => some "super"
  | .thisWord => some "this"
  | .trueWord => some "true"
  | .varWord => some "var"
  | .whileWord => some "while"

/-- The kind that has a text as its only one. -/
def Kind.fixed? (text : String) : Option Kind := Kind.all.find? fun k => k.text? = some text

namespace Kind

theorem mem_all (k : Kind) : k ∈ all := by
  cases k <;> decide

theorem text?_keyword : ∀ p ∈ keywords, p.2.text? = some p.1 := by decide

/-- No two kinds have the same text. -/
theorem fixed?_of_text? {k : Kind} {w : String} (h : k.text? = some w) : fixed? w = some k := by
  have hall : ∀ k ∈ all, ∀ w ∈ k.text?, fixed? w = some k := by decide +kernel
  exact hall k k.mem_all w h

theorem text?_of_fixed? {k : Kind} {w : String} (h : fixed? w = some k) : k.text? = some w :=
  of_decide_eq_true (List.find?_some (p := fun k : Kind => k.text? = some w) h)

end Kind

namespace Lexer

variable {kind : Kind} {literal : Option Literal} {text : List Char} {w : String}

/-- A kind that has one text only has this text, and no value. -/
theorem Lexeme.eq_text (h : Lexeme kind literal text) (hk : kind.text? = some w) :
    text = w.toList ∧ literal = none := by
  cases h with
  | punctuator hp =>
    have htext : ∀ p ∈ punctuators, ∀ w ∈ p.2.text?, [p.1] = w.toList := by decide
    exact ⟨htext _ hp w hk, rfl⟩
  | slash =>
    cases hk
    exact ⟨rfl, rfl⟩
  | alone ho =>
    have htext : ∀ p ∈ operators, ∀ w ∈ p.2.1.text?, [p.1] = w.toList := by decide
    exact ⟨htext _ ho w hk, rfl⟩
  | joined ho =>
    have htext : ∀ p ∈ operators, ∀ w ∈ p.2.2.text?, [p.1, '='] = w.toList := by decide
    exact ⟨htext _ ho w hk, rfl⟩
  | string _ | whole _ _ | decimal _ _ _ => cases hk
  | @word c cs _ _ =>
    change (Kind.ofWord (String.ofList (c :: cs))).text? = some w at hk
    have hne : Kind.ofWord (String.ofList (c :: cs)) ≠ .identifier := by
      intro hid
      rw [hid] at hk
      cases hk
    have htext := Kind.text?_keyword _ (Kind.mem_keywords_of_ofWord rfl hne)
    obtain rfl := Option.some.inj (hk.symm.trans htext)
    exact ⟨String.toList_ofList.symm, rfl⟩

/-- Such a text is a token of this kind. -/
theorem lexeme_of_text? (h : kind.text? = some w) : Lexeme kind none w.toList := by
  cases kind with
  | identifier | string | number | eof => cases h
  | slash =>
    cases h
    exact .slash
  | bang | equal | greater | less =>
    cases h
    exact .alone (mem_operators.2 rfl)
  | bangEqual | equalEqual | greaterEqual | lessEqual =>
    cases h
    exact .joined (mem_operators.2 rfl)
  | leftParen | rightParen | leftBrace | rightBrace | comma | dot | minus | plus | semicolon
  | star =>
    cases h
    exact .punctuator (mem_punctuators.2 rfl)
  | _ =>
    cases h
    exact .keyword (by decide)

end Lexer

/-! ## Names -/

/-- A text that is an identifier. -/
def IsName (w : String) : Prop := Lexeme .identifier none w.toList

namespace IsName

variable {w : String}

theorem fixed? (h : IsName w) : Kind.fixed? w = none := by
  cases hk : Kind.fixed? w with
  | none => rfl
  | some k =>
    have htext := Kind.text?_of_fixed? hk
    obtain ⟨rfl, -⟩ := h.unique (lexeme_of_text? htext)
    cases htext

/-- The characters of a name. -/
theorem chars (h : IsName w) :
    ∃ c cs, w.toList = c :: cs ∧ startsWord c ∧ ∀ x ∈ c :: cs, inWord x := by
  unfold IsName at h
  generalize htext : w.toList = text at h
  generalize hkind : Kind.identifier = kind at h
  cases h with
  | punctuator hp =>
    have hword := isWord_of_punctuator? (mem_punctuators.1 hp)
    rw [← hkind] at hword
    cases hword
  | alone ho =>
    have hword := (isWord_of_operator? (mem_operators.1 ho)).1
    rw [← hkind] at hword
    cases hword
  | joined ho =>
    have hword := (isWord_of_operator? (mem_operators.1 ho)).2
    rw [← hkind] at hword
    cases hword
  | slash => cases hkind
  | word hc hcs =>
    have hstarts := startsWord_iff.2 hc
    exact ⟨_, _, rfl, hstarts, List.forall_mem_cons.2
      ⟨inWord_of_startsWord hstarts, fun x hx => inWord_iff.2 (hcs x hx)⟩⟩

end IsName

/-! ## Tokens without their lines -/

namespace Token

/-- The token without its line. -/
def unplaced (t : Token) : Token := { t with line := 0 }

/-- The token of a kind that has one text only. -/
def ofKind (k : Kind) : Token := ⟨k, k.text?.getD "", none, 0⟩

/-- An identifier. -/
def name (w : String) : Token := ⟨.identifier, w, none, 0⟩

/-- The token is of a kind that has one text only, and it has this text. -/
structure Is (k : Kind) (t : Token) : Prop where
  text : k.text? = some t.lexeme
  eq : t.unplaced = ofKind k

theorem Is.kind {k : Kind} {t : Token} (h : t.Is k) : t.kind = k := congrArg Token.kind h.eq

/-- The token is an identifier, and spelled like one. -/
structure IsIdentifier (t : Token) : Prop where
  name : IsName t.lexeme
  eq : t.unplaced = Token.name t.lexeme

/-- The token is what the lexical grammar says about its text. -/
def IsLexeme (t : Token) : Prop := Lexeme t.kind t.literal t.lexeme.toList

variable {t : Token}

theorem IsLexeme.is (h : t.IsLexeme) {k : Kind} (hk : t.kind = k) (htext : k.text?.isSome) :
    t.Is k := by
  obtain ⟨w, hw⟩ := Option.isSome_iff_exists.1 htext
  obtain ⟨kind, lexeme, literal, line⟩ := t
  obtain rfl : kind = k := hk
  obtain ⟨hlexeme, hliteral⟩ := Lexeme.eq_text h hw
  obtain rfl : lexeme = w := String.toList_inj.1 hlexeme
  obtain rfl : literal = none := hliteral
  refine ⟨hw, ?_⟩
  rw [ofKind, hw]
  rfl

theorem IsLexeme.isIdentifier (h : t.IsLexeme) (hk : t.kind = .identifier) : t.IsIdentifier := by
  obtain ⟨kind, lexeme, literal, line⟩ := t
  obtain rfl : kind = .identifier := hk
  have hcarries : literal = none := Lexeme.carries h line
  subst hcarries
  exact ⟨h, rfl⟩

/-- Only a string stands for a text. -/
theorem IsLexeme.string (h : t.IsLexeme) {body : String} (ht : t.literal = some (.text body)) :
    t.kind = .string := by
  unfold IsLexeme at h
  rw [ht] at h
  generalize t.kind = kind at h ⊢
  generalize t.lexeme.toList = text at h
  cases h
  rfl

/-- A number in a source has no sign, though it may be infinite. -/
theorem IsLexeme.number_le (h : t.IsLexeme) {x : Float} (ht : t.literal = some (.number x)) :
    x.toBits.toNat ≤ Number.infinityBits := by
  unfold IsLexeme at h
  rw [ht] at h
  generalize t.lexeme.toList = text at h
  generalize t.kind = kind at h
  cases h with
  | whole | decimal => exact (isNearest_numberValue _ _).le_infinity

/-- Every token of a source is what the lexical grammar says, but for the one that closes it. -/
theorem isLexeme_of_scan {source : String} (h : t ∈ tokens (scan source)) (ht : t.kind ≠ .eof) :
    t.IsLexeme := by
  rw [scan_eq, tokens_append] at h
  rcases List.mem_append.1 h with h | h
  · obtain ⟨s, hs, line, hitem⟩ := mem_innerItems (mem_tokens.1 h)
    obtain ⟨before, after, hsplit⟩ := List.append_of_mem hs
    have hstands := segments_stand _ hsplit
    unfold Segment.item? at hitem
    unfold Segment.Stands at hstands
    split at hitem
    · cases hitem
    · cases hitem
    · next kind literal hshape =>
      rw [hshape] at hstands
      cases hitem
      unfold IsLexeme
      rwa [String.toList_ofList]
    · cases hitem
    · cases hitem
    · cases hitem
  · cases List.mem_singleton.1 h
    exact absurd rfl ht

end Token

end Lox
