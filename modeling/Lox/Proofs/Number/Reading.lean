import Lox.Number.Text
import Lox.Proofs.Token.Longest

/-!
# Numbers that are printed can be read back

Whatever decimal the search for the fewest digits comes to, it reads back as the number that it was
to stand for (`bits_shortest`): the search only takes a decimal after a look at what it reads back
as, and the exact expansion stands in if there is none. The texts are read by what they say. One
with an exponent is moved by so many places, any other is a lexeme and is read as the number in a
source is, and what counts is only the quotient that they come to (`nearest_congr`).

Main statement: what a program prints for a finite number without a sign is read as this number
(`read?_text`).
-/

namespace Lox.Number

open Lexer (Lexeme digitsValue decimal? numberValue)

/-! ## Rows of digits -/

theorem digitsValue_eq (digits : List Char) :
    digitsValue digits = Nat.ofDigitChars 10 digits 0 := by
  rfl

theorem digitsValue_digitsOf (n : Nat) : digitsValue (digitsOf n) = n := by
  rw [digitsValue_eq, digitsOf, Nat.ofDigitChars_toDigits (by decide) (by decide)]

theorem isDigit_of_mem_digitsOf {n : Nat} {c : Char} (h : c ∈ digitsOf n) : c.isDigit :=
  Nat.isDigit_of_mem_toDigits (by decide) (by decide) h

theorem digitsOf_ne_nil (n : Nat) : digitsOf n ≠ [] := Nat.toDigits_ne_nil

theorem length_digitsOf_le {n places : Nat} (hpos : 0 < places) (h : n < 10 ^ places) :
    (digitsOf n).length ≤ places :=
  (Nat.length_toDigits_le_iff (by decide) hpos).2 h

/-! ## Quotients -/

variable {bits : Nat}

/-- What a quotient is rounded to depends on the quotient alone. -/
theorem nearest_congr {num num' den den' : Nat} (hden : 0 < den) (hden' : 0 < den')
    (h : num * den' = num' * den) : nearest num den = nearest num' den' := by
  have hone : (unitsOfOne : ℚ) ≠ 0 := Nat.cast_ne_zero.2 unitsOfOne_pos.ne'
  have hd : (den : ℚ) ≠ 0 := Nat.cast_ne_zero.2 hden.ne'
  have hd' : (den' : ℚ) ≠ 0 := Nat.cast_ne_zero.2 hden'.ne'
  have hsame : (num : ℚ) / (den * unitsOfOne) = num' / (den' * unitsOfOne) := by
    rw [div_eq_div_iff (mul_ne_zero hd hone) (mul_ne_zero hd' hone), ← mul_assoc, ← mul_assoc]
    exact_mod_cast congrArg (· * unitsOfOne) h
  exact (hsame ▸ isNearest_nearest num hden).unique (isNearest_nearest num' hden')

/-- A number is the nearest one to its own value. -/
theorem isNearest_value (h : bits ≤ infinityBits) : IsNearest (value bits) bits where
  le_infinity := h
  near other _ := by
    rw [sub_self, abs_zero]
    exact abs_nonneg _
  even other _ hne hsame := by
    rw [sub_self, abs_zero, abs_eq_zero, sub_eq_zero] at hsame
    exact absurd (value_strictMono.injective hsame) hne

theorem nearest_units {den : Nat} (hden : 0 < den) (h : bits ≤ infinityBits) :
    nearest (units bits * den) den = bits := by
  have hnearest := isNearest_nearest (units bits * den) hden
  have hd : (den : ℚ) ≠ 0 := Nat.cast_ne_zero.2 hden.ne'
  rw [Nat.cast_mul, mul_comm (den : ℚ), mul_div_mul_right _ _ hd] at hnearest
  exact hnearest.unique (isNearest_value h)

/-! ## Decimals -/

theorem lastPlaces_pos : 0 < lastPlaces := by
  unfold lastPlaces
  generalize unitPlaces = places
  exact Nat.pow_pos (by decide)

/-- A unit is a power of ten in the last place. -/
theorem unitsOfOne_mul_lastPlaces : unitsOfOne * lastPlaces = 10 ^ unitPlaces := by
  unfold unitsOfOne lastPlaces
  generalize unitPlaces = places
  rw [Nat.pow_eq, Nat.pow_eq, ← Nat.mul_pow]

namespace Decimal

/-- Zeros at the end make no difference. -/
theorem bits_trim (d : Decimal) : d.trim.bits = d.bits := by
  fun_induction trim d with
  | case1 d h ih =>
    have hsplit : d.digits / 10 * 10 = d.digits := Nat.div_mul_cancel (Nat.dvd_of_mod_eq_zero h.1)
    rw [ih, bits, bits, Nat.pow_eq, Nat.pow_eq, pow_succ', ← mul_assoc, hsplit]
  | case2 d h => rfl

end Decimal

/-- A decimal is only taken if it reads back. -/
theorem bits_of_closest {tie : Tie} {exact shift : Nat} {d : Decimal}
    (h : closest tie bits exact shift = some d) : d.bits = bits := by
  unfold closest at h
  dsimp only at h
  split at h
  · next hlow =>
    cases h
    exact hlow.1
  · split at h
    · next hhigh =>
      cases h
      exact hhigh
    · cases h

/-- The decimal with the fewest digits reads back. -/
theorem bits_shortest (tie : Tie) (h : bits ≤ infinityBits) : (shortest tie bits).bits = bits := by
  unfold shortest
  dsimp only
  rw [Decimal.bits_trim]
  cases hfound : (List.range 17).findSome? fun k => closest tie bits (units bits * lastPlaces)
      (digitCount (units bits * lastPlaces) - (k + 1)) with
  | none =>
    rw [Option.getD_none, Decimal.bits, Nat.pow_eq, pow_zero, mul_one]
    exact nearest_units lastPlaces_pos h
  | some d =>
    obtain ⟨k, -, hk⟩ := List.exists_of_findSome?_eq_some hfound
    exact bits_of_closest hk

/-! ## Texts without an exponent -/

/-- A decimal, and a power of ten that it is to be divided by or multiplied with. -/
theorem nearest_eq_bits (d : Decimal) {num den : Nat} (hden : 0 < den)
    (h : num * lastPlaces = d.digits * 10 ^ d.shift * den) : nearest num den = d.bits :=
  nearest_congr hden lastPlaces_pos h

theorem length_places {n places : Nat} (hpos : 0 < places) (h : n < 10 ^ places) :
    (List.replicate (places - (digitsOf n).length) '0' ++ digitsOf n).length = places := by
  have hle := length_digitsOf_le hpos h
  rw [List.length_append, List.length_replicate]
  omega

theorem digitsValue_places (n zeros : Nat) :
    digitsValue (List.replicate zeros '0' ++ digitsOf n) = n := by
  have hzeros : digitsValue (List.replicate zeros '0') = 0 := by
    rw [digitsValue_eq, Nat.ofDigitChars_replicate_zero, Nat.mul_zero]
  rw [Lexer.digitsValue_append, hzeros, Nat.zero_mul, Nat.zero_add, digitsValue_digitsOf]

/-- The digits of a whole number are a lexeme. -/
theorem lexeme_digitsOf (n : Nat) :
    Lexeme .number (some (.number (ofDecimal n 0))) (digitsOf n) := by
  have hlexeme := Lexeme.whole (digitsOf_ne_nil n) fun _ => isDigit_of_mem_digitsOf
  rwa [numberValue, List.append_nil, digitsValue_digitsOf, List.length_nil] at hlexeme

/-- So are the digits before and after a point. -/
theorem lexeme_fixed (n places : Nat) :
    Lexeme .number (some (.number (ofDecimal n places))) (fixed n places) := by
  unfold fixed
  split
  · next hzero =>
    subst hzero
    exact lexeme_digitsOf n
  · next hne =>
    have hpos := Nat.pos_of_ne_zero hne
    have hlt : n % 10 ^ places < 10 ^ places := Nat.mod_lt _ (Nat.pow_pos (by decide))
    have hlength := length_places hpos hlt
    have hplaces : ∀ c ∈ List.replicate (places - (digitsOf (n % 10 ^ places)).length) '0' ++
        digitsOf (n % 10 ^ places), c.isDigit := by
      intro c hc
      rcases List.mem_append.1 hc with hc | hc
      · rw [List.eq_of_mem_replicate hc]
        rfl
      · exact isDigit_of_mem_digitsOf hc
    have hlexeme := Lexeme.decimal (digitsOf_ne_nil (n / 10 ^ places))
      (List.ne_nil_of_length_pos (hlength.symm ▸ hpos))
      (List.forall_mem_append.2 ⟨fun _ => isDigit_of_mem_digitsOf, hplaces⟩)
    rwa [numberValue, Lexer.digitsValue_append, hlength, digitsValue_places, digitsValue_digitsOf,
      Nat.div_add_mod'] at hlexeme

/-- A decimal without an exponent is a lexeme, whose value is what the decimal reads back as. -/
theorem lexeme_positional (d : Decimal) :
    Lexeme .number (some (.number (ofMagnitude d.bits))) d.positional := by
  unfold Decimal.positional
  split
  · next hshift =>
    have hbits : nearest (d.digits * unitsOfOne) (10 ^ (unitPlaces - d.shift)) = d.bits := by
      refine nearest_eq_bits d (Nat.pow_pos (by decide)) ?_
      rw [Nat.mul_assoc, unitsOfOne_mul_lastPlaces, Nat.mul_assoc, ← pow_add,
        Nat.add_sub_cancel' (Nat.le_of_lt hshift)]
    have hlexeme := lexeme_fixed d.digits (unitPlaces - d.shift)
    rwa [ofDecimal, Nat.pow_eq, hbits] at hlexeme
  · next hshift =>
    have hbits : nearest (d.digits * 10 ^ (d.shift - unitPlaces) * unitsOfOne) (10 ^ 0) =
        d.bits := by
      refine nearest_eq_bits d (Nat.pow_pos (by decide)) ?_
      rw [Nat.mul_assoc, unitsOfOne_mul_lastPlaces, pow_zero, Nat.mul_one, Nat.mul_assoc,
        ← pow_add, Nat.sub_add_cancel (Nat.not_lt.1 hshift)]
    have hlexeme := lexeme_digitsOf (d.digits * 10 ^ (d.shift - unitPlaces))
    rwa [ofDecimal, Nat.pow_eq, hbits] at hlexeme

/-- The units of a whole number are so many times those of one. -/
theorem units_div_mul_cancel (hwhole : isWhole bits = true) :
    units bits / unitsOfOne * unitsOfOne = units bits :=
  Nat.div_mul_cancel (Nat.dvd_of_mod_eq_zero (of_decide_eq_true hwhole))

/-- All digits of a whole number are a lexeme, too. -/
theorem lexeme_wholeDigits (hwhole : isWhole bits = true) (h : bits ≤ infinityBits) :
    Lexeme .number (some (.number (ofMagnitude bits))) (wholeDigits bits) := by
  have hnearest := nearest_units Nat.one_pos h
  rw [Nat.mul_one] at hnearest
  have hlexeme := lexeme_digitsOf (units bits / unitsOfOne)
  rwa [ofDecimal, units_div_mul_cancel hwhole, Nat.pow_eq, pow_zero, hnearest] at hlexeme

/-! ## Texts with an exponent -/

/-- The places by which a power of ten moves the point to the right and to the left. -/
def moved : List Char → Nat × Nat
  | '-' :: digits => (0, digitsValue digits)
  | digits => (digitsValue digits, 0)

/-- The number that a text says, which may end with a power of ten after an `e`. -/
def read? (text : List Char) : Option Float :=
  match text.dropWhile (· ≠ 'e') with
  | [] => decimal? text
  | _ :: power =>
    let mantissa := text.takeWhile (· ≠ 'e')
    let whole := mantissa.takeWhile Char.isDigit
    let places := (mantissa.dropWhile Char.isDigit).drop 1
    some (ofMagnitude (nearest (digitsValue (whole ++ places) * 10 ^ (moved power).1 * unitsOfOne)
      (10 ^ (places.length + (moved power).2))))

theorem moved_digits {digits : List Char} (h : ∀ c ∈ digits, c.isDigit) :
    moved digits = (digitsValue digits, 0) := by
  unfold moved
  split
  · exact absurd (h '-' List.mem_cons_self) (by decide)
  · rfl

theorem moved_power (power : Int) :
    moved ((if power < 0 then ['-'] else []) ++ digitsOf power.natAbs) =
      (power.toNat, (-power).toNat) := by
  split
  · rw [List.singleton_append, moved, digitsValue_digitsOf]
    congr 1
    · omega
    · omega
  · rw [List.nil_append, moved_digits fun _ => isDigit_of_mem_digitsOf, digitsValue_digitsOf]
    congr 1
    · omega
    · omega

theorem ne_e_of_isDigit {c : Char} (h : c.isDigit) : c ≠ 'e' := by
  rintro rfl
  exact absurd h (by decide)

/-- A number without an exponent is read as the number in a source is. -/
theorem read?_of_not_mem {text : List Char} (h : 'e' ∉ text) : read? text = decimal? text := by
  have hdrop : text.dropWhile (· ≠ 'e') = [] := by
    rw [List.dropWhile_eq_nil_iff]
    intro c hc
    exact decide_eq_true fun he => h (he ▸ hc)
  rw [read?, hdrop]

/-- One digit before the point and the others behind it, moved by a power of ten. -/
theorem read?_moved {c : Char} {rest point power : List Char}
    (hdigits : ∀ x ∈ c :: rest, x.isDigit) (hpoint : point = [] ∧ rest = [] ∨ point = ['.']) :
    read? (c :: (point ++ rest) ++ 'e' :: power) =
      some (ofMagnitude (nearest (digitsValue (c :: rest) * 10 ^ (moved power).1 * unitsOfOne)
        (10 ^ (rest.length + (moved power).2)))) := by
  obtain ⟨hc, hrest⟩ := List.forall_mem_cons.1 hdigits
  have hmantissa : ∀ x ∈ c :: (point ++ rest), decide (x ≠ 'e') := by
    intro x hx
    apply decide_eq_true
    rcases List.mem_cons.1 hx with rfl | hx
    · exact ne_e_of_isDigit hc
    · rcases List.mem_append.1 hx with hx | hx
      · rcases hpoint with ⟨rfl, -⟩ | rfl
        · cases hx
        · rw [List.mem_singleton.1 hx]
          decide
      · exact ne_e_of_isDigit (hrest x hx)
  obtain ⟨htake, hdrop⟩ := Lexer.takeWhile_append_of_head hmantissa ('e' :: power)
    fun x hx => Option.some.inj hx ▸ rfl
  have hwhole : (c :: (point ++ rest)).takeWhile Char.isDigit = [c] ∧
      ((c :: (point ++ rest)).dropWhile Char.isDigit).drop 1 = rest := by
    rcases hpoint with ⟨rfl, rfl⟩ | rfl
    · simp [hc]
    · simp [hc]
  rw [read?, hdrop]
  simp only [htake, hwhole.1, hwhole.2, List.singleton_append]

/-- How a decimal is written with an exponent. -/
theorem scientific_eq (d : Decimal) : ∃ c rest point, digitsOf d.digits = c :: rest ∧
    (point = [] ∧ rest = [] ∨ point = ['.']) ∧
    d.scientific [] = c :: (point ++ rest) ++ 'e' ::
      ((if d.exponent < 0 then ['-'] else []) ++ digitsOf d.exponent.natAbs) := by
  rw [Decimal.scientific]
  cases hdigits : digitsOf d.digits with
  | nil => exact absurd hdigits (digitsOf_ne_nil _)
  | cons c rest =>
    cases rest with
    | nil => exact ⟨c, [], [], rfl, .inl ⟨rfl, rfl⟩, rfl⟩
    | cons c' rest => exact ⟨c, c' :: rest, ['.'], rfl, .inr rfl, rfl⟩

/-- A decimal with an exponent is read as what it reads back as. -/
theorem read?_scientific (d : Decimal) :
    read? (d.scientific []) = some (ofMagnitude d.bits) := by
  obtain ⟨c, rest, point, hdigits, hpoint, htext⟩ := scientific_eq d
  have hall : ∀ x ∈ c :: rest, x.isDigit := by
    rw [← hdigits]
    exact fun _ => isDigit_of_mem_digitsOf
  rw [htext, read?_moved hall hpoint, moved_power, ← hdigits, digitsValue_digitsOf,
    nearest_eq_bits d (Nat.pow_pos (by decide))]
  have hlength : (digitsOf d.digits).length = rest.length + 1 := congrArg List.length hdigits
  have hplaces : d.exponent.toNat + unitPlaces =
      d.shift + (rest.length + (-d.exponent).toNat) := by
    rw [Decimal.exponent, hlength]
    omega
  rw [Nat.mul_assoc, unitsOfOne_mul_lastPlaces, Nat.mul_assoc, ← pow_add, hplaces, Nat.mul_assoc,
    ← pow_add]

/-! ## Characters of numbers -/

/-- A text that starts with a digit and has only digits and certain other characters. -/
structure Numeral (others text : List Char) : Prop where
  head : ∃ c ∈ text.head?, c.isDigit
  mem : ∀ c ∈ text, c.isDigit ∨ c ∈ others

namespace Numeral

variable {others others' front back : List Char}

theorem mono (h : Numeral others front) (hsub : others ⊆ others') : Numeral others' front :=
  ⟨h.head, fun c hc => (h.mem c hc).imp_right fun hm => hsub hm⟩

theorem append (h : Numeral others front) (hback : ∀ c ∈ back, c.isDigit ∨ c ∈ others) :
    Numeral others (front ++ back) := by
  obtain ⟨c, hc, hdigit⟩ := h.head
  refine ⟨⟨c, ?_, hdigit⟩, fun x hx => ?_⟩
  · rw [List.head?_append, Option.mem_def.1 hc]
    rfl
  · exact (List.mem_append.1 hx).elim (h.mem x) (hback x)

/-- A number in a source is one, with a point at most. -/
theorem of_lexeme {kind : Kind} {x : Float} {text : List Char}
    (h : Lexeme kind (some (.number x)) text) : Numeral ['.'] text := by
  have hrow : ∀ {digits : List Char}, digits ≠ [] → (∀ c ∈ digits, c.isDigit) →
      Numeral ['.'] digits := by
    intro digits hne hdigits
    obtain ⟨c, cs, rfl⟩ := List.exists_cons_of_ne_nil hne
    exact ⟨⟨c, rfl, hdigits c List.mem_cons_self⟩, fun c hc => .inl (hdigits c hc)⟩
  cases h with
  | whole hne hdigits => exact hrow hne hdigits
  | decimal hne _ hall =>
    obtain ⟨hdigits, hplaces⟩ := List.forall_mem_append.1 hall
    refine (hrow hne hdigits).append ?_
    exact List.forall_mem_cons.2 ⟨.inr List.mem_cons_self, fun c hc => .inl (hplaces c hc)⟩

theorem scientific (d : Decimal) : Numeral ['.', 'e', '-'] (d.scientific []) := by
  obtain ⟨c, rest, point, hdigits, hpoint, htext⟩ := scientific_eq d
  have hall : ∀ x ∈ c :: rest, x.isDigit := by
    rw [← hdigits]
    exact fun _ => isDigit_of_mem_digitsOf
  obtain ⟨hc, hrest⟩ := List.forall_mem_cons.1 hall
  have hmantissa : Numeral ['.', 'e', '-'] ([c] ++ (point ++ rest)) := by
    refine append ⟨⟨c, rfl, hc⟩, List.forall_mem_singleton.2 (.inl hc)⟩ fun x hx => ?_
    rcases List.mem_append.1 hx with hx | hx
    · rcases hpoint with ⟨rfl, -⟩ | rfl
      · cases hx
      · exact .inr (List.mem_singleton.1 hx ▸ List.mem_cons_self)
    · exact .inl (hrest x hx)
  rw [htext]
  refine hmantissa.append (List.forall_mem_cons.2 ⟨.inr (by decide), fun x hx => ?_⟩)
  rcases List.mem_append.1 hx with hx | hx
  · split at hx
    · rw [List.mem_singleton.1 hx]
      exact .inr (by decide)
    · cases hx
  · exact .inl (isDigit_of_mem_digitsOf hx)

/-- A text without an exponent is read as the number in a source is. -/
theorem read?_eq (h : Numeral ['.'] front) : read? front = decimal? front := by
  refine read?_of_not_mem fun he => ?_
  rcases h.mem 'e' he with hdigit | hpoint
  · exact absurd hdigit (by decide)
  · exact absurd hpoint (by decide)

end Numeral

/-! ## What a program prints -/

/-- A number that is neither infinite nor undefined. -/
def IsFinite (x : Float) : Prop := magnitude x < infinityBits

/-- A finite number without a sign. -/
def IsPlain (x : Float) : Prop := x.toBits.toNat < infinityBits

theorem IsFinite.isPlain {x : Float} (h : IsFinite x) (hsign : x.toBits.toNat ≤ infinityBits) :
    IsPlain x := by
  have hmagnitude : magnitude x = x.toBits.toNat :=
    Nat.mod_eq_of_lt (Nat.lt_of_le_of_lt hsign (by decide))
  unfold IsPlain
  rwa [← hmagnitude]

theorem magnitude_of_isPlain {x : Float} (h : IsPlain x) : magnitude x = x.toBits.toNat :=
  Nat.mod_eq_of_lt (Nat.lt_trans h (by decide))

theorem isNegative_of_isPlain {x : Float} (h : IsPlain x) : isNegative x = false :=
  decide_eq_false (Nat.not_le.2 (Nat.lt_trans h (by decide)))

theorem ofMagnitude_of_isPlain {x : Float} (h : IsPlain x) : ofMagnitude x.toBits.toNat = x := by
  apply Float.toBits_inj.1
  apply UInt64.toNat_inj.1
  exact toBits_ofMagnitude (Nat.le_of_lt h)

/-- The three ways in which a program prints such a number. -/
theorem toList_signed (body : List Char) : (signed false body).toList = body := by
  rw [signed, if_neg Bool.false_ne_true, String.toList_ofList]

theorem toList_shortestText {x : Float} (h : IsPlain x) :
    (shortestText x).toList = (shortest .larger x.toBits.toNat).positional := by
  unfold shortestText
  rw [magnitude_of_isPlain h, isNegative_of_isPlain h]
  dsimp only
  rw [if_neg (Nat.not_lt.2 (Nat.le_of_lt h)), if_neg (Nat.ne_of_lt h), toList_signed]

theorem toList_text {x : Float} (h : IsPlain x) :
    (text x).toList =
      if exponentFrom * unitsOfOne ≤ units x.toBits.toNat then
        (shortest .larger x.toBits.toNat).scientific []
      else if isWhole x.toBits.toNat then wholeDigits x.toBits.toNat
      else (shortest .larger x.toBits.toNat).positional := by
  have hfinite : decide (x.toBits.toNat < infinityBits) = true := decide_eq_true h
  unfold text
  rw [magnitude_of_isPlain h, isNegative_of_isPlain h]
  simp only [hfinite, Bool.true_and, decide_eq_true_eq]
  split
  · exact toList_signed _
  split
  · exact toList_signed _
  · exact toList_shortestText h

/-- The digits of a number that is not whole. -/
theorem lexeme_shortest {x : Float} (h : IsPlain x) :
    Lexeme .number (some (.number x)) (shortest .larger x.toBits.toNat).positional := by
  have hlexeme := lexeme_positional (shortest .larger x.toBits.toNat)
  rwa [bits_shortest _ (Nat.le_of_lt h), ofMagnitude_of_isPlain h] at hlexeme

/-- Without an exponent the text is a lexeme. -/
theorem lexeme_text {x : Float} (h : IsPlain x)
    (hsmall : units x.toBits.toNat < exponentFrom * unitsOfOne) :
    Lexeme .number (some (.number x)) (text x).toList := by
  rw [toList_text h, if_neg (Nat.not_le.2 hsmall)]
  split
  · next hwhole =>
    have hlexeme := lexeme_wholeDigits hwhole (Nat.le_of_lt h)
    rwa [ofMagnitude_of_isPlain h] at hlexeme
  · exact lexeme_shortest h

theorem numeral_text {x : Float} (h : IsPlain x) : Numeral ['.', 'e', '-'] (text x).toList := by
  have hpoint : ['.'] ⊆ ['.', 'e', '-'] := by decide
  rcases Nat.lt_or_ge (units x.toBits.toNat) (exponentFrom * unitsOfOne) with hsmall | hlarge
  · exact (Numeral.of_lexeme (lexeme_text h hsmall)).mono hpoint
  · rw [toList_text h, if_pos hlarge]
    exact .scientific _

/-- What a program prints for a finite number without a sign is read as this number. -/
theorem read?_text {x : Float} (h : IsPlain x) : read? (text x).toList = some x := by
  rcases Nat.lt_or_ge (units x.toBits.toNat) (exponentFrom * unitsOfOne) with hsmall | hlarge
  · have hlexeme := lexeme_text h hsmall
    rw [(Numeral.of_lexeme hlexeme).read?_eq, hlexeme.decimal?_eq]
  · rw [toList_text h, if_pos hlarge, read?_scientific, bits_shortest _ (Nat.le_of_lt h),
      ofMagnitude_of_isPlain h]

end Lox.Number
