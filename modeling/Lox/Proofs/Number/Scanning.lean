import Lox.Proofs.Number.Reading
import Lox.Proofs.Token.Separated

/-!
# Printed numbers are tokens

The lexical grammar has no sign and no exponent, so a number has to do without both to be read from
a source. For a finite number without a sign both texts are then lexemes: the one of a token list
always, and what a program prints as long as it has no exponent. Such a text is scanned to a single
token, which carries the very number that has been written, down to its last bit
(`scan_number_texts`).
-/

namespace Lox.Number

open Lexer (Lexeme digitsValue numberValue)

variable {bits : Nat} {x : Float}

/-! ## Whole numbers with a point -/

/-- The digits of a whole number are a lexeme with a zero behind the point as well. -/
theorem lexeme_wholeDigits_point (hwhole : isWhole bits = true) (h : bits ≤ infinityBits) :
    Lexeme .number (some (.number (ofMagnitude bits))) (wholeDigits bits ++ ['.', '0']) := by
  have hne : wholeDigits bits ≠ [] := digitsOf_ne_nil _
  have hdigits : ∀ c ∈ wholeDigits bits ++ ['0'], c.isDigit := by
    intro c hc
    rcases List.mem_append.1 hc with hc | hc
    · exact isDigit_of_mem_digitsOf hc
    · rw [List.mem_singleton.1 hc]
      rfl
  have hlexeme := Lexeme.decimal hne (List.cons_ne_nil '0' []) hdigits
  have hvalue : digitsValue (wholeDigits bits ++ ['0']) = units bits / unitsOfOne * 10 := by
    rw [Lexer.digitsValue_append, wholeDigits, digitsValue_digitsOf]
    rfl
  have hnearest : nearest (units bits / unitsOfOne * 10 * unitsOfOne) 10 = bits := by
    rw [Nat.mul_right_comm, units_div_mul_cancel hwhole]
    exact nearest_units (by decide) h
  rwa [numberValue, hvalue, List.length_singleton, ofDecimal, Nat.pow_eq, pow_one, hnearest]
    at hlexeme

/-! ## The texts of numbers without a sign -/

/-- A whole number has no tenths. -/
theorem onePlace_of_isWhole (hwhole : isWhole bits = true) :
    onePlace bits = wholeDigits bits ++ ['.', '0'] := by
  have htenths : 10 * units bits = 10 * (units bits / unitsOfOne) * unitsOfOne := by
    rw [Nat.mul_assoc, units_div_mul_cancel hwhole]
  have hdigits : 10 * (units bits / unitsOfOne) / Nat.pow 10 1 = units bits / unitsOfOne :=
    Nat.mul_div_cancel_left _ (by decide)
  have hrest : 10 * (units bits / unitsOfOne) % Nat.pow 10 1 = 0 := Nat.mul_mod_right _ _
  have hnone : ¬(unitsOfOne < 2 * 0 ∨ 2 * 0 = unitsOfOne ∧
      10 * (units bits / unitsOfOne) % 2 = 1) := by
    have hpos := unitsOfOne_pos
    omega
  rw [onePlace, htenths, Nat.mul_mod_left, Nat.mul_div_cancel _ unitsOfOne_pos]
  simp only [if_neg hnone, fixed, hdigits, hrest]
  rfl

/-- The text of an integer and the text with one place are the same for a whole number. They part
where a zero has a sign: an integer zero has none. -/
theorem integerText_truncated (hwhole : isWhole (magnitude x) = true)
    (hsign : isNegative x = true → magnitude x ≠ 0) :
    integerText (truncated x) ++ ".0" = signed (isNegative x) (onePlace (magnitude x)) := by
  have hpoint (body : List Char) (negative : Bool) :
      signed negative body ++ ".0" = signed negative (body ++ ['.', '0']) := by
    refine String.toList_inj.1 ?_
    cases negative <;> simp [signed]
  rw [onePlace_of_isWhole hwhole, ← hpoint, wholeDigits, integerText, truncated]
  have hpos : isNegative x = true → units (magnitude x) / unitsOfOne ≠ 0 := by
    intro hneg hzero
    have hunits := units_div_mul_cancel hwhole
    rw [hzero, Nat.zero_mul, ← units_of_lt binade_pos] at hunits
    exact hsign hneg (units_strictMono.injective hunits.symm)
  generalize units (magnitude x) / unitsOfOne = whole at hpos ⊢
  cases hneg : isNegative x with
  | false =>
    have hnonneg : ¬(whole : Int) < 0 := Int.not_lt.2 (Int.natCast_nonneg whole)
    simp only [Bool.false_eq_true, if_false, decide_eq_false hnonneg, Int.natAbs_natCast]
  | true =>
    have hbelow : -(whole : Int) < 0 :=
      Int.neg_neg_of_pos (Int.natCast_pos.2 (Nat.pos_of_ne_zero (hpos hneg)))
    simp only [if_true, decide_eq_true hbelow, Int.natAbs_neg, Int.natAbs_natCast]

/-- The two ways in which a token list shows such a number. -/
theorem toList_literalText (h : IsPlain x) :
    (literalText x).toList =
      if isWhole x.toBits.toNat then wholeDigits x.toBits.toNat ++ ['.', '0']
      else (shortest .larger x.toBits.toNat).positional := by
  have hfinite : decide (infinityBits ≤ x.toBits.toNat) = false :=
    decide_eq_false (Nat.not_le.2 h)
  have hsign := isNegative_of_isPlain h
  unfold literalText
  rw [magnitude_of_isPlain h]
  dsimp only
  rw [hfinite, Bool.false_or]
  cases hwhole : isWhole x.toBits.toNat with
  | false =>
    rw [Bool.not_false, if_pos rfl, if_neg Bool.false_ne_true]
    exact toList_shortestText h
  | true =>
    have hplace : (signed (isNegative x) (onePlace x.toBits.toNat)).toList =
        wholeDigits x.toBits.toNat ++ ['.', '0'] := by
      rw [hsign, toList_signed, onePlace_of_isWhole hwhole]
    have hinteger := integerText_truncated (x := x) (by rwa [magnitude_of_isPlain h])
      (fun hneg => by rw [hsign] at hneg; cases hneg)
    rw [magnitude_of_isPlain h] at hinteger
    rw [Bool.not_true, if_neg Bool.false_ne_true, if_pos rfl]
    rcases Nat.lt_or_ge (units x.toBits.toNat) (integerLimit * unitsOfOne) with hsmall | hlarge
    · rw [if_pos hsmall, hinteger]
      exact hplace
    · rw [if_neg (Nat.not_lt.2 hlarge)]
      exact hplace

theorem lexeme_literalText (h : IsPlain x) :
    Lexeme .number (some (.number x)) (literalText x).toList := by
  rw [toList_literalText h]
  split
  · next hwhole =>
    have hlexeme := lexeme_wholeDigits_point hwhole (Nat.le_of_lt h)
    rwa [ofMagnitude_of_isPlain h] at hlexeme
  · exact lexeme_shortest h

/-! ## Back through the scanner -/

/-- A value below a whole number, counted in units. -/
theorem value_lt_iff {limit : Nat} : value bits < limit ↔ units bits < limit * unitsOfOne := by
  rw [value, div_lt_iff₀ (Nat.cast_pos.2 unitsOfOne_pos), ← Nat.cast_mul, Nat.cast_lt]

/-- The token of a number has no newline in its text, so it ends on the first line. -/
theorem scan_of_lexeme_number {source : String}
    (h : Lexeme .number (some (.number x)) source.toList) :
    scan source = [.ok ⟨.number, source, some (.number x), 1⟩, .ok (Token.endOfFile 1)] := by
  have hcount : source.toList.count '\n' = 0 := by
    rw [List.count_eq_zero]
    intro hmem
    rcases (Numeral.of_lexeme h).mem _ hmem with hdigit | hpoint
    · exact absurd hdigit (by decide)
    · exact absurd hpoint (by decide)
  have hscan := scan_of_lexeme h
  rwa [hcount] at hscan

/-- Printed numbers are read back exactly. The text that a token list shows for a finite number
without a sign is scanned to one number token, which is the whole text and carries this number, and
so is what a program prints for a number below `10 ^ 21`. -/
theorem scan_number_texts (hfinite : IsFinite x) (hsign : isNegative x = false) :
    scan (literalText x) =
        [.ok ⟨.number, literalText x, some (.number x), 1⟩, .ok (Token.endOfFile 1)] ∧
      (value (magnitude x) < 10 ^ 21 →
        scan (text x) =
          [.ok ⟨.number, text x, some (.number x), 1⟩, .ok (Token.endOfFile 1)]) := by
  have hplain : IsPlain x := by
    have hbits : x.toBits.toNat < signWeight := Nat.not_le.1 (of_decide_eq_false hsign)
    unfold IsFinite at hfinite
    rwa [magnitude, Nat.mod_eq_of_lt hbits] at hfinite
  refine ⟨scan_of_lexeme_number (lexeme_literalText hplain), fun hsmall => ?_⟩
  rw [magnitude_of_isPlain hplain] at hsmall
  have hlimit : ((10 : ℚ) ^ 21) = exponentFrom := by
    rw [exponentFrom, Nat.pow_eq, Nat.cast_pow, Nat.cast_ofNat]
  rw [hlimit, value_lt_iff] at hsmall
  exact scan_of_lexeme_number (lexeme_text hplain hsmall)

/-- The sum of a tenth and two tenths is not the number nearest to three tenths, and the digits that
tell them apart are kept. -/
theorem scan_number_texts_fraction :
    let x := Float.ofBits 0x3fd3333333333334
    IsFinite x ∧ isNegative x = false ∧ value (magnitude x) < 10 ^ 21 ∧
      literalText x = "0.30000000000000004" ∧ text x = "0.30000000000000004" ∧
      scan "0.30000000000000004" =
        [.ok ⟨.number, "0.30000000000000004", some (.number x), 1⟩,
          .ok (Token.endOfFile 1)] := by
  intro x
  have hfinite : IsFinite x := by
    unfold IsFinite
    decide +kernel
  have hsign : isNegative x = false := by decide +kernel
  have hunits : units (magnitude x) < 10 ^ 21 * unitsOfOne := by decide +kernel
  have hsmall : value (magnitude x) < 10 ^ 21 := by
    have hlimit := value_lt_iff.2 hunits
    rwa [Nat.cast_pow, Nat.cast_ofNat] at hlimit
  have hliteral : literalText x = "0.30000000000000004" := by decide +kernel
  have htext : text x = "0.30000000000000004" := by decide +kernel
  have hscan := (scan_number_texts hfinite hsign).2 hsmall
  rw [htext] at hscan
  exact ⟨hfinite, hsign, hsmall, hliteral, htext, hscan⟩

end Lox.Number
