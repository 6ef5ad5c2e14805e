import Lox.Number.Units
import Mathlib

/-!
# Rounding to the nearest number

A pattern stands for an exact value, and the patterns up to that of infinity have ever larger
values. `IsNearest` says which of them is the nearest to a given rational number: no other one is
nearer, and of two that are equally near it is the even one. The pattern of infinity takes part with
the value that a number after the largest one would have, so that what lies beyond the halfway point
to it becomes infinite. There is only one such pattern (`IsNearest.unique`).

Main statement: a decimal is read as the number that is nearest to its exact value
(`isNearest_ofDecimal`).

The library is imported whole because no smaller part of it has the lemmas on packed floats
(`Float.Model.UnpackedFloat.pack_unpack_of_valid`).
-/

namespace Lox.Number

/-! ## Patterns and their values -/

/-- The exact value of a pattern without a sign. -/
def value (bits : Nat) : ℚ := units bits / unitsOfOne

/-- The pattern whose value is nearest to `x`. -/
structure IsNearest (x : ℚ) (bits : Nat) : Prop where
  le_infinity : bits ≤ infinityBits
  near : ∀ other ≤ infinityBits, |value bits - x| ≤ |value other - x|
  even : ∀ other ≤ infinityBits, other ≠ bits → |value other - x| = |value bits - x| →
    bits % 2 = 0

theorem binade_pos : 0 < binade := Nat.zero_lt_succ _

/-- The patterns of the smallest scale count their units. -/
theorem units_of_lt {bits : Nat} (h : bits < binade) : units bits = bits := by
  rw [units, if_pos (Nat.div_eq_of_lt h), Nat.mod_eq_of_lt h]

/-- On the other scales a unit counts twice as much as on the one before. -/
theorem units_add {rest : Nat} (shift : Nat) (h : rest < binade) :
    units ((shift + 1) * binade + rest) = (binade + rest) * 2 ^ shift := by
  have hdiv : ((shift + 1) * binade + rest) / binade = shift + 1 := by
    rw [Nat.add_comm, Nat.add_mul_div_right _ _ binade_pos, Nat.div_eq_of_lt h, Nat.zero_add]
  have hmod : ((shift + 1) * binade + rest) % binade = rest := by
    rw [Nat.add_comm, Nat.add_mul_mod_self_right, Nat.mod_eq_of_lt h]
  rw [units, hdiv, hmod, if_neg (Nat.succ_ne_zero shift), Nat.add_sub_cancel, Nat.pow_eq]

/-- A pattern that is given by its scale and by the count of units on that scale. The scale has to
be the smallest one, or the count has to be too large for a smaller one. -/
theorem units_scaled {shift whole : Nat} (h : shift = 0 ∨ binade ≤ whole)
    (hle : whole ≤ 2 * binade) : units (shift * binade + whole) = whole * 2 ^ shift := by
  rcases Nat.lt_or_ge whole binade with hsmall | hlarge
  · obtain rfl : shift = 0 := h.resolve_right (Nat.not_le_of_lt hsmall)
    rw [Nat.zero_mul, Nat.zero_add, units_of_lt hsmall, pow_zero, Nat.mul_one]
  obtain ⟨rest, rfl⟩ := Nat.exists_eq_add_of_le hlarge
  rcases Nat.lt_or_ge rest binade with hrest | hrest
  · rw [← units_add shift hrest, Nat.succ_mul, Nat.add_assoc]
  · -- The first pattern of the next scale.
    obtain rfl : rest = binade := by omega
    have hnext : shift * binade + (binade + binade) = (shift + 1 + 1) * binade + 0 := by ring
    rw [hnext, units_add _ binade_pos, pow_succ]
    ring

/-- Every pattern has a scale and a count of units. -/
theorem exists_scale (bits : Nat) : ∃ shift whole, bits = shift * binade + whole ∧
    (shift = 0 ∨ binade ≤ whole) ∧ whole < 2 * binade := by
  have hdiv := Nat.div_add_mod' bits binade
  have hmod := Nat.mod_lt bits binade_pos
  cases hscale : bits / binade with
  | zero =>
    rw [hscale] at hdiv
    exact ⟨0, bits, by omega, .inl rfl, by omega⟩
  | succ shift =>
    rw [hscale, Nat.succ_mul] at hdiv
    exact ⟨shift, binade + bits % binade, by omega, .inr (by omega), by omega⟩

theorem units_strictMono : StrictMono units := by
  refine strictMono_nat_of_lt_succ fun bits => ?_
  obtain ⟨shift, whole, rfl, hscale, hlt⟩ := exists_scale bits
  rw [Nat.add_assoc, units_scaled hscale (by omega), units_scaled (by omega) (by omega)]
  exact Nat.mul_lt_mul_of_pos_right (Nat.lt_succ_self whole) (Nat.two_pow_pos shift)

theorem unitsOfOne_pos : 0 < unitsOfOne := by
  unfold unitsOfOne
  generalize unitPlaces = places
  exact Nat.two_pow_pos places

theorem value_strictMono : StrictMono value := fun _ _ h =>
  div_lt_div_of_pos_right (Nat.cast_lt.2 (units_strictMono h)) (Nat.cast_pos.2 unitsOfOne_pos)

/-! ## The nearest pattern -/

section

variable {u v x : ℚ}

/-- Beyond the midpoint of two numbers the larger one is nearer. -/
theorem larger_nearer_iff (h : u < v) : |v - x| ≤ |u - x| ↔ u + v ≤ 2 * x := by
  rcases abs_cases (v - x) with ⟨hv, _⟩ | ⟨hv, _⟩ <;>
    rcases abs_cases (u - x) with ⟨hu, _⟩ | ⟨hu, _⟩ <;> rw [hu, hv] <;> constructor <;> intro <;>
    linarith

/-- Before the midpoint of two numbers the smaller one is nearer. -/
theorem smaller_nearer_iff (h : u < v) : |u - x| ≤ |v - x| ↔ 2 * x ≤ u + v := by
  rcases abs_cases (v - x) with ⟨hv, _⟩ | ⟨hv, _⟩ <;>
    rcases abs_cases (u - x) with ⟨hu, _⟩ | ⟨hu, _⟩ <;> rw [hu, hv] <;> constructor <;> intro <;>
    linarith

end

/-- A pattern is nearest if it is nearest among its neighbours. -/
theorem isNearest_of_neighbours {x : ℚ} {bits : Nat} (hle : bits ≤ infinityBits)
    (hbelow : ∀ low, low + 1 = bits → value low + value bits ≤ 2 * x ∧
      (value low + value bits = 2 * x → bits % 2 = 0))
    (habove : bits < infinityBits → 2 * x ≤ value bits + value (bits + 1) ∧
      (2 * x = value bits + value (bits + 1) → bits % 2 = 0)) : IsNearest x bits := by
  -- Values grow with the patterns, so the midpoint with the neighbour is the nearest one.
  have hlower : ∀ other, other < bits → value other + value bits ≤ 2 * x ∧
      (value other + value bits = 2 * x → bits % 2 = 0) := by
    intro other h
    obtain ⟨low, rfl⟩ := Nat.exists_eq_add_of_lt h
    have hmono : value other ≤ value (other + low) :=
      value_strictMono.monotone (Nat.le_add_right _ _)
    obtain ⟨hmid, heven⟩ := hbelow _ rfl
    exact ⟨by linarith, fun hsame => heven (by linarith)⟩
  have hupper : ∀ other, bits < other → other ≤ infinityBits →
      2 * x ≤ value bits + value other ∧ (2 * x = value bits + value other → bits % 2 = 0) := by
    intro other h hother
    have hmono : value (bits + 1) ≤ value other := value_strictMono.monotone h
    obtain ⟨hmid, heven⟩ := habove (h.trans_le hother)
    exact ⟨by linarith, fun hsame => heven (by linarith)⟩
  refine ⟨hle, fun other hother => ?_, fun other hother hne hsame => ?_⟩
  · rcases lt_trichotomy other bits with h | rfl | h
    · exact (larger_nearer_iff (value_strictMono h)).2 (hlower other h).1
    · exact le_rfl
    · exact (smaller_nearer_iff (value_strictMono h)).2 (hupper other h hother).1
  · rcases lt_or_gt_of_ne hne with h | h
    · have hmid := (smaller_nearer_iff (value_strictMono h)).1 hsame.le
      exact (hlower other h).2 (le_antisymm (hlower other h).1 hmid)
    · have hmid := (larger_nearer_iff (value_strictMono h)).1 hsame.le
      exact (hupper other h hother).2 (le_antisymm (hupper other h hother).1 hmid)

/-- Two patterns cannot both be nearest: they would both be even, and a pattern between them would
be nearer. -/
theorem IsNearest.unique {x : ℚ} {a b : Nat} (ha : IsNearest x a) (hb : IsNearest x b) :
    a = b := by
  wlog hlt : a < b generalizing a b
  · rcases Nat.lt_or_eq_of_le (Nat.le_of_not_lt hlt) with h | h
    · exact (this hb ha h).symm
    · exact h.symm
  have hsame : |value a - x| = |value b - x| :=
    le_antisymm (ha.near b hb.le_infinity) (hb.near a ha.le_infinity)
  have hevena := ha.even b hb.le_infinity hlt.ne' hsame.symm
  have hevenb := hb.even a ha.le_infinity hlt.ne hsame
  -- Both are even, so there is a pattern between them, and it is nearer than the ends.
  have hbetween : a + 1 < b := by omega
  have hlow : value a < value (a + 1) := value_strictMono (Nat.lt_succ_self a)
  have hhigh : value (a + 1) < value b := value_strictMono hbetween
  have hmid := (larger_nearer_iff (hlow.trans hhigh)).1 hsame.ge
  have hnear := (smaller_nearer_iff hlow).1 (ha.near (a + 1) (hbetween.le.trans hb.le_infinity))
  linarith

/-- From the pattern below a number to the nearest one: it is the next one beyond the midpoint, and
at the midpoint if that makes it even. -/
theorem isNearest_of_floor {x : ℚ} {low : Nat} {up : Prop} [Decidable up] (hlow : value low ≤ x)
    (hhigh : x < value (low + 1)) (hup : up ↔ value low + value (low + 1) < 2 * x ∨
      value low + value (low + 1) = 2 * x ∧ low % 2 = 1) :
    IsNearest x (min (if up then low + 1 else low) infinityBits) := by
  by_cases hinf : infinityBits ≤ low
  · -- No pattern is above infinity.
    rw [Nat.min_eq_right (by split <;> omega)]
    have hx : value infinityBits ≤ x := (value_strictMono.monotone hinf).trans hlow
    refine isNearest_of_neighbours le_rfl (fun below hbelow => ?_) fun h => absurd h (lt_irrefl _)
    have hlt : value below < value infinityBits := value_strictMono (by omega)
    exact ⟨by linarith, fun h => by linarith⟩
  rw [Nat.min_eq_left (by split <;> omega)]
  split
  · next h =>
    refine isNearest_of_neighbours (by omega) (fun below hbelow => ?_) fun _ => ?_
    -- Rounded up: the pattern below is the one that was found.
    · obtain rfl : below = low := by omega
      rcases hup.1 h with hmid | ⟨hmid, hodd⟩
      · exact ⟨hmid.le, fun hsame => absurd hsame hmid.ne⟩
      · exact ⟨hmid.le, fun _ => by omega⟩
    · have hlt : value (low + 1) < value (low + 1 + 1) := value_strictMono (Nat.lt_succ_self _)
      exact ⟨by linarith, fun h => by linarith⟩
  · next h =>
    -- Rounded down: the number is not beyond the midpoint, and at it only if the pattern is even.
    rw [hup, not_or, not_and, not_lt] at h
    refine isNearest_of_neighbours (by omega) (fun below hbelow => ?_) fun _ => ?_
    · have hlt : value below < value low := value_strictMono (by omega)
      exact ⟨by linarith, fun h => by linarith⟩
    · exact ⟨h.1, fun hsame => Nat.mod_two_ne_one.1 (h.2 hsame.symm)⟩

/-! ## Rounding a quotient -/

/-- The scale on which `nearest` rounds. -/
def scale (num den : Nat) : Nat := (num / den).log2 - 52

/-- On its scale a quotient has at most 53 binary digits, and exactly 53 unless the scale is the
smallest one. -/
theorem whole_bounds (num den : Nat) :
    (scale num den = 0 ∨ binade ≤ num / (den * 2 ^ scale num den)) ∧
      num / (den * 2 ^ scale num den) < 2 * binade := by
  have hbinade : binade = 2 ^ 52 := rfl
  rw [← Nat.div_div_eq_div_mul, Nat.div_lt_iff_lt_mul (Nat.two_pow_pos _),
    Nat.le_div_iff_mul_le (Nat.two_pow_pos _), hbinade, ← pow_add, ← pow_succ', ← pow_add]
  constructor
  · refine (Nat.eq_zero_or_pos (scale num den)).imp id fun hpos => ?_
    unfold scale at hpos ⊢
    have hne : num / den ≠ 0 := by
      intro hzero
      rw [hzero] at hpos
      exact absurd hpos (by decide)
    rw [Nat.add_sub_cancel' (by omega)]
    exact Nat.log2_self_le hne
  · unfold scale
    exact Nat.lt_log2_self.trans_le (Nat.pow_le_pow_right Nat.zero_lt_two (by omega))

/-- What `nearest` does: it finds the pattern below the quotient and compares with the midpoint to
the next one. -/
theorem nearest_eq (num : Nat) {den : Nat} (hden : 0 < den) :
    ∃ low, units low * den ≤ num ∧ num < units (low + 1) * den ∧
      nearest num den = min (if units low * den + units (low + 1) * den < 2 * num ∨
        units low * den + units (low + 1) * den = 2 * num ∧ low % 2 = 1 then low + 1 else low)
        infinityBits := by
  obtain ⟨hscale, hlt⟩ := whole_bounds num den
  generalize hshift : scale num den = shift at hscale hlt
  generalize hstep : den * 2 ^ shift = step at hscale hlt
  generalize hwhole : num / step = whole at hscale hlt
  have hpos : 0 < step := hstep ▸ Nat.mul_pos hden (Nat.two_pow_pos _)
  have hnum : whole * step + num % step = num := hwhole ▸ Nat.div_add_mod' num step
  have hrest : num % step < step := Nat.mod_lt _ hpos
  -- Times the denominator, the pattern below is worth `whole` steps, and the next one a step more.
  have hlow : units (shift * binade + whole) * den = whole * step := by
    rw [units_scaled hscale (by omega), ← hstep]
    ring
  have hhigh : units (shift * binade + whole + 1) * den = whole * step + step := by
    rw [Nat.add_assoc, units_scaled (by omega) (by omega), ← hstep]
    ring
  refine ⟨shift * binade + whole, by omega, by omega, ?_⟩
  -- A scale starts at an even pattern, so the parity is that of the count on the scale.
  have hodd : (shift * binade + whole) % 2 = whole % 2 := by unfold binade; omega
  have hnearest : nearest num den = min (shift * binade +
      if step < 2 * (num % step) ∨ 2 * (num % step) = step ∧ whole % 2 = 1 then whole + 1
      else whole) infinityBits := by
    unfold scale at hshift
    simp only [nearest, Nat.pow_eq, hshift, hstep, hwhole]
  rw [hnearest, hlow, hhigh, hodd]
  congr 1
  split <;> split <;> omega

/-- `nearest` gives the nearest pattern. -/
theorem isNearest_nearest (num : Nat) {den : Nat} (hden : 0 < den) :
    IsNearest (num / (den * unitsOfOne)) (nearest num den) := by
  obtain ⟨low, hlow, hhigh, heq⟩ := nearest_eq num hden
  have hscale : (0 : ℚ) < den * unitsOfOne :=
    mul_pos (Nat.cast_pos.2 hden) (Nat.cast_pos.2 unitsOfOne_pos)
  -- All values are brought over one denominator, and then their numerators are compared.
  have hvalue : ∀ bits, value bits = (units bits * den : Nat) / (den * unitsOfOne : ℚ) := by
    intro bits
    rw [value, Nat.cast_mul, mul_comm (den : ℚ), mul_div_mul_right]
    exact Nat.cast_ne_zero.2 hden.ne'
  have hmid : value low + value (low + 1) =
      (units low * den + units (low + 1) * den : Nat) / (den * unitsOfOne : ℚ) := by
    rw [hvalue, hvalue, ← add_div, Nat.cast_add]
  have hx : (2 : ℚ) * (num / (den * unitsOfOne)) = (2 * num : Nat) / (den * unitsOfOne : ℚ) := by
    rw [← mul_div_assoc, Nat.cast_mul, Nat.cast_ofNat]
  have hfloor : value low ≤ num / (den * unitsOfOne) := by
    rw [hvalue]
    exact div_le_div_of_nonneg_right (Nat.cast_le.2 hlow) hscale.le
  have hceil : (num : ℚ) / (den * unitsOfOne) < value (low + 1) := by
    rw [hvalue]
    exact div_lt_div_of_pos_right (Nat.cast_lt.2 hhigh) hscale
  rw [heq]
  refine isNearest_of_floor hfloor hceil ?_
  rw [hmid, hx, div_lt_div_iff_of_pos_right hscale, div_left_inj' hscale.ne', Nat.cast_lt,
    Nat.cast_inj]

/-! ## Decimals -/

/-- A pattern up to that of infinity is the pattern of a number. -/
theorem toBits_ofMagnitude {bits : Nat} (h : bits ≤ infinityBits) :
    (ofMagnitude bits).toBits.toNat = bits := by
  unfold infinityBits at h
  have hbits : bits.toUInt64.toBitVec.toNat = bits := by
    show bits % 2 ^ 64 = bits
    omega
  have hvalid : Float.Model.Format.binary64.Valid bits.toUInt64.toBitVec := by
    -- Up to infinity, only infinity itself has the largest exponent, and its mantissa is zero.
    refine ⟨fun hexponent hmantissa => absurd ?_ hmantissa⟩
    rw [Float.Model.UnpackedFloat.unpackExponent_def] at hexponent
    rw [Float.Model.UnpackedFloat.unpackMantissa_def]
    have hexp := congrArg BitVec.toNat hexponent
    apply BitVec.eq_of_toNat_eq
    simp only [Nat.toUInt64_eq, BitVec.extractLsb'_toNat, hbits, Nat.shiftRight_eq_div_pow,
      Nat.reducePow, BitVec.reduceNeg, BitVec.toNat_ofNat, Nat.mod_succ, pow_zero, Nat.div_one,
      Nat.zero_mod] at hexp ⊢
    omega
  have hpack := Float.Model.UnpackedFloat.pack_unpack_of_valid hvalid
  show (Float.Model.UnpackedFloat.pack _ (Float.Model.UnpackedFloat.unpack _ _)).toNat = bits
  rw [hpack, hbits]

/-- A decimal is read as the number nearest to its value. -/
theorem isNearest_ofDecimal (digits places : Nat) :
    IsNearest (digits / 10 ^ places) (ofDecimal digits places).toBits.toNat := by
  have hten : 0 < Nat.pow 10 places := Nat.pow_pos (Nat.zero_lt_succ 9)
  have hnearest := isNearest_nearest (digits * unitsOfOne) hten
  have hone : (unitsOfOne : ℚ) ≠ 0 := Nat.cast_ne_zero.2 unitsOfOne_pos.ne'
  rw [ofDecimal, toBits_ofMagnitude hnearest.le_infinity]
  rwa [Nat.cast_mul, mul_div_mul_right _ _ hone, Nat.pow_eq, Nat.cast_pow, Nat.cast_ofNat]
    at hnearest

end Lox.Number
