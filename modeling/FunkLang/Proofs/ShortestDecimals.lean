-- Decimals of numbers. The decimal that is found for a magnitude reads back, and
-- none with fewer places does. It has the fewest significant digits as well: if it
-- had more than another one, the power of ten between the two would read back too,
-- with one place less.
import FunkLang.Number.Numeral
import FunkLang.Proofs.Rounding

namespace FunkLang

/-! ## Decimals that read back -/

/-- The size of a decimal with this many places, in units. -/
def decimalUnits (digits places : Nat) : ℚ := digits / 10 ^ places * unitsPerOne

/-- A decimal with this many places is read as the magnitude of a rank. -/
def ReadsBack (rank digits places : Nat) : Prop :=
  nearestRank (digits * unitsPerOne) (10 ^ places) = rank

section ReadsBack

variable {rank digits places digits' places' : Nat}

theorem decimalUnits_le (h : digits * 10 ^ places' ≤ digits' * 10 ^ places) :
    decimalUnits digits places ≤ decimalUnits digits' places' := by
  have hcast : (digits : ℚ) * 10 ^ places' ≤ digits' * 10 ^ places := by exact_mod_cast h
  have hvalue : (digits : ℚ) / 10 ^ places ≤ digits' / 10 ^ places' := by
    rw [div_le_div_iff₀ (by positivity) (by positivity)]
    exact hcast
  exact mul_le_mul_of_nonneg_right hvalue (Nat.cast_nonneg _)

theorem decimalUnits_eq_iff {units : Nat} :
    decimalUnits digits places = units ↔ digits * unitsPerOne = units * 10 ^ places := by
  have hpower : (10 : ℚ) ^ places ≠ 0 := by positivity
  unfold decimalUnits
  rw [div_mul_eq_mul_div, div_eq_iff hpower]
  norm_cast

theorem readsBack_iff :
    ReadsBack rank digits places ↔ RoundsTo (decimalUnits digits places) rank := by
  have hpower : 0 < 10 ^ places := by positivity
  unfold ReadsBack decimalUnits
  rw [nearestRank_eq_iff hpower, Nat.cast_mul, Nat.cast_pow, Nat.cast_ofNat, div_mul_eq_mul_div]

/-- Only the value of a decimal counts. -/
theorem ReadsBack.of_mul_eq (h : ReadsBack rank digits places)
    (heq : digits' * 10 ^ places = digits * 10 ^ places') : ReadsBack rank digits' places' := by
  have hunits : decimalUnits digits' places' = decimalUnits digits places :=
    le_antisymm (decimalUnits_le heq.le) (decimalUnits_le heq.ge)
  rw [readsBack_iff] at h ⊢
  rw [hunits]
  exact h

theorem readsBack_exact (h : digits * unitsPerOne = unitsOfRank rank * 10 ^ places) :
    ReadsBack rank digits places := by
  rw [readsBack_iff, decimalUnits_eq_iff.mpr h]
  exact RoundsTo.exact rank

end ReadsBack

/-! ## One count of places -/

section DecimalAt

variable {rank places digits : Nat}

/-- The decimal below a magnitude, or just as large. -/
def decimalBelow (rank places : Nat) : Nat := unitsOfRank rank * 10 ^ places / unitsPerOne

theorem decimalBelow_le : decimalUnits (decimalBelow rank places) places ≤ unitsOfRank rank := by
  have hpower : (0 : ℚ) < 10 ^ places := by positivity
  have hfloor : decimalBelow rank places * unitsPerOne ≤ unitsOfRank rank * 10 ^ places :=
    Nat.div_mul_le_self _ _
  unfold decimalUnits
  rw [div_mul_eq_mul_div, div_le_iff₀ hpower]
  exact_mod_cast hfloor

theorem le_decimalAbove :
    (unitsOfRank rank : ℚ) ≤ decimalUnits (decimalBelow rank places + 1) places := by
  have hpower : (0 : ℚ) < 10 ^ places := by positivity
  have hceil : unitsOfRank rank * 10 ^ places ≤ (decimalBelow rank places + 1) * unitsPerOne := by
    rw [Nat.mul_comm (_ + 1)]
    exact (Nat.lt_mul_div_succ _ unitsPerOne_pos).le
  unfold decimalUnits
  rw [div_mul_eq_mul_div, le_div_iff₀ hpower]
  exact_mod_cast hceil

/-- If a decimal reads back, then one of the two neighbours of the magnitude does. -/
theorem ReadsBack.neighbour (h : ReadsBack rank digits places) :
    ReadsBack rank (decimalBelow rank places) places ∨
      ReadsBack rank (decimalBelow rank places + 1) places := by
  have hexact := RoundsTo.exact rank
  simp only [readsBack_iff] at h ⊢
  by_cases hle : digits ≤ decimalBelow rank places
  · left
    exact h.convex hexact (decimalUnits_le (Nat.mul_le_mul_right _ hle)) decimalBelow_le
  · right
    exact hexact.convex h le_decimalAbove
      (decimalUnits_le (Nat.mul_le_mul_right _ (Nat.not_le.mp hle)))

theorem roundHalfEven_cases (num den : Nat) :
    roundHalfEven num den = num / den ∨ roundHalfEven num den = num / den + 1 := by
  unfold roundHalfEven
  dsimp only
  split
  · exact Or.inr rfl
  · exact Or.inl rfl

theorem neighbour?_eq_some {passes : Nat → Bool} {below nearer found : Nat}
    (h : neighbour? passes below nearer = some found)
    (hnearer : nearer = below ∨ nearer = below + 1) : passes found = true := by
  unfold neighbour? at h
  split at h
  · rename_i hbelow habove
    cases h
    rcases hnearer with rfl | rfl
    · exact hbelow
    · exact habove
  · rename_i hbelow _
    cases h
    exact hbelow
  · rename_i habove
    cases h
    exact habove
  · cases h

theorem neighbour?_eq_none {passes : Nat → Bool} {below nearer : Nat}
    (h : neighbour? passes below nearer = none) :
    passes below = false ∧ passes (below + 1) = false := by
  unfold neighbour? at h
  split at h
  · cases h
  · cases h
  · cases h
  · rename_i hbelow habove
    exact ⟨hbelow, habove⟩

theorem decimalAt?_eq (rank places : Nat) :
    decimalAt? rank places =
      neighbour? (fun digits => nearestRank (digits * unitsPerOne) (10 ^ places) == rank)
        (decimalBelow rank places)
        (roundHalfEven (unitsOfRank rank * 10 ^ places) unitsPerOne) := by
  have hpower : Nat.pow 10 places = 10 ^ places := rfl
  unfold decimalAt? decimalBelow
  rw [hpower]

theorem decimalAt?_readsBack (h : decimalAt? rank places = some digits) :
    ReadsBack rank digits places := by
  rw [decimalAt?_eq] at h
  have hpasses := neighbour?_eq_some h (roundHalfEven_cases _ _)
  rw [beq_iff_eq] at hpasses
  exact hpasses

theorem decimalAt?_eq_none (h : decimalAt? rank places = none) :
    ¬ ReadsBack rank digits places := by
  rw [decimalAt?_eq] at h
  obtain ⟨hbelow, habove⟩ := neighbour?_eq_none h
  rw [beq_eq_false_iff_ne] at hbelow habove
  intro hdigits
  exact hdigits.neighbour.elim hbelow habove

end DecimalAt

/-! ## The fewest places -/

/-- With so many places every magnitude is a decimal. -/
theorem readsBack_last {rank places : Nat} (h : unitsPerOne = 2 ^ places) :
    ReadsBack rank (decimalBelow rank places) places := by
  apply readsBack_exact
  have hpower : 10 ^ places = 5 ^ places * unitsPerOne := by
    rw [h, ← Nat.mul_pow]
  unfold decimalBelow
  rw [hpower, ← Nat.mul_assoc, Nat.mul_div_cancel _ unitsPerOne_pos]

/-- What a search finds is right if what it finds at each count is, and what it takes after the
last one. Nothing is to be found at the counts before it. -/
theorem firstFound_spec {find? : Nat → Option Nat} {last : Nat → Nat} {right : Nat → Nat → Prop}
    (hfind : ∀ count found, find? count = some found → right found count) {total : Nat}
    (hlast : right (last total) total) {left count : Nat} (htotal : count + left = total) :
    let result := firstFound find? last left count
    right result.1 result.2 ∧ count ≤ result.2 ∧
      ∀ fewer, count ≤ fewer → fewer < result.2 → find? fewer = none := by
  induction left generalizing count with
  | zero =>
    obtain rfl : count = total := htotal
    exact ⟨hlast, le_refl _, fun fewer hle hlt => absurd hle (Nat.not_le.mpr hlt)⟩
  | succ left ih =>
    unfold firstFound
    cases h : find? count with
    | some found =>
      exact ⟨hfind _ _ h, le_refl _, fun fewer hle hlt => absurd hle (Nat.not_le.mpr hlt)⟩
    | none =>
      have hnext : count + 1 + left = total := by omega
      obtain ⟨hright, hle, hfewer⟩ := ih hnext
      refine ⟨hright, Nat.le_of_succ_le hle, fun fewer hfrom hlt => ?_⟩
      by_cases hfirst : fewer = count
      · rw [hfirst]
        exact h
      · exact hfewer fewer (Nat.lt_of_le_of_ne hfrom (Ne.symm hfirst)) hlt

theorem shortestDecimal_eq (rank : Nat) :
    shortestDecimal rank = firstFound (decimalAt? rank) (decimalBelow rank) 1073 1 := by
  have hlast (places : Nat) :
      unitsOfRank rank * Nat.pow 10 places / unitsPerOne = decimalBelow rank places := rfl
  unfold shortestDecimal
  simp only [hlast]

/-- The decimal of a magnitude reads back, it has a place after the point, and with fewer places
than that none reads back. -/
theorem shortestDecimal_spec (rank : Nat) :
    let found := shortestDecimal rank
    ReadsBack rank found.1 found.2 ∧ 1 ≤ found.2 ∧
      ∀ fewer, 1 ≤ fewer → fewer < found.2 → ∀ digits, ¬ ReadsBack rank digits fewer := by
  have hfind : ∀ places digits, decimalAt? rank places = some digits →
      ReadsBack rank digits places := fun _ _ => decimalAt?_readsBack
  have hlast : ReadsBack rank (decimalBelow rank 1074) 1074 := readsBack_last unitsPerOne_eq
  rw [shortestDecimal_eq]
  have htotal : 1 + 1073 = 1074 := rfl
  obtain ⟨hreads, hle, hfewer⟩ := firstFound_spec hfind hlast htotal
  refine ⟨hreads, hle, fun fewer hone hlt digits => ?_⟩
  exact decimalAt?_eq_none (hfewer fewer hone hlt)

/-! ## The fewest significant digits -/

section Significant

variable {rank digits places : Nat}

theorem ReadsBack.between {lower upper middle p q r : Nat} (hlower : ReadsBack rank lower p)
    (hupper : ReadsBack rank upper q) (hle : lower * 10 ^ r ≤ middle * 10 ^ p)
    (hle' : middle * 10 ^ q ≤ upper * 10 ^ r) : ReadsBack rank middle r := by
  rw [readsBack_iff] at *
  exact hlower.convex hupper (decimalUnits_le hle) (decimalUnits_le hle')

/-- A whole number is read as a whole magnitude. -/
theorem ReadsBack.whole (h : ReadsBack rank digits 0) : unitsPerOne ∣ unitsOfRank rank := by
  obtain ⟨last, hlast⟩ : ∃ last, unitsPerOne = 2 ^ last := ⟨1074, unitsPerOne_eq⟩
  have hone : 0 < 10 ^ 0 := by decide
  have hunits := unitsOfRank_nearestRank (digits * unitsPerOne) hone
  unfold ReadsBack at h
  dsimp only at hunits
  rw [h, pow_zero, Nat.one_mul] at hunits
  generalize (digits * unitsPerOne / 1).log2 - 52 = shift at hunits
  by_cases hle : last ≤ shift
  · rw [hunits, hlast]
    exact Nat.dvd_mul_left_of_dvd (Nat.pow_dvd_pow 2 hle) _
  · have hdvd : 2 ^ shift ∣ digits * unitsPerOne := by
      rw [hlast]
      exact Nat.dvd_mul_left_of_dvd (Nat.pow_dvd_pow 2 (Nat.not_le.mp hle).le) _
    rw [hunits, roundHalfEven_of_dvd (Nat.two_pow_pos shift) hdvd]
    exact Nat.dvd_mul_left _ _

theorem ReadsBack.places_pos (h : ReadsBack rank digits places)
    (hwhole : ¬ unitsPerOne ∣ unitsOfRank rank) : 1 ≤ places := by
  by_contra hnone
  obtain rfl : places = 0 := by omega
  exact hwhole h.whole

/-- Zeros at the end do not count. -/
theorem ReadsBack.drop_zeros {zeros : Nat} (h : ReadsBack rank (digits * 10 ^ zeros) places)
    (hwhole : ¬ unitsPerOne ∣ unitsOfRank rank) : ReadsBack rank digits (places - zeros) := by
  by_cases hle : zeros ≤ places
  · apply h.of_mul_eq
    rw [Nat.mul_assoc, ← pow_add, Nat.add_sub_of_le hle]
  · have hnatural : ReadsBack rank (digits * 10 ^ (zeros - places)) 0 := by
      apply h.of_mul_eq
      rw [Nat.mul_assoc, ← pow_add, Nat.sub_add_cancel (Nat.not_le.mp hle).le, pow_zero,
        Nat.mul_one]
    exact absurd hnatural.whole hwhole

/-- If some decimal of a magnitude that is not whole is below a power of ten, without its point,
so is the one that is found. -/
theorem shortestDecimal_lt (hwhole : ¬ unitsPerOne ∣ unitsOfRank rank)
    (h : ReadsBack rank digits places) {size : Nat} (hsize : digits < 10 ^ size) :
    (shortestDecimal rank).1 < 10 ^ size := by
  obtain ⟨hfound, hone, hfewer⟩ := shortestDecimal_spec rank
  generalize (shortestDecimal rank).1 = found at *
  generalize (shortestDecimal rank).2 = least at *
  have hplaces : least ≤ places := by
    by_contra hlt
    exact hfewer places (h.places_pos hwhole) (Nat.not_le.mp hlt) digits h
  by_contra hge
  rw [Nat.not_lt] at hge
  cases size with
  | zero =>
    obtain rfl : digits = 0 := by omega
    have hzero : ReadsBack rank 0 0 := h.of_mul_eq (by rw [Nat.zero_mul, Nat.zero_mul])
    exact hwhole hzero.whole
  | succ size =>
    -- The power of ten is between the two decimals, and ends in a zero.
    obtain ⟨fewer, rfl⟩ := Nat.exists_eq_succ_of_ne_zero (Nat.ne_of_gt hone)
    have hpower : 10 ^ size * 10 ^ (fewer + 1) = 10 ^ (size + 1) * 10 ^ fewer := by ring
    have hlow : digits * 10 ^ fewer ≤ 10 ^ size * 10 ^ places := calc
      digits * 10 ^ fewer ≤ 10 ^ (size + 1) * 10 ^ fewer := Nat.mul_le_mul_right _ hsize.le
      _ = 10 ^ size * 10 ^ (fewer + 1) := hpower.symm
      _ ≤ 10 ^ size * 10 ^ places :=
        Nat.mul_le_mul_left _ (Nat.pow_le_pow_right (by decide) hplaces)
    have hhigh : 10 ^ size * 10 ^ (fewer + 1) ≤ found * 10 ^ fewer := by
      rw [hpower]
      exact Nat.mul_le_mul_right _ hge
    have hbetween := h.between hfound hlow hhigh
    exact hfewer fewer (hbetween.places_pos hwhole) (Nat.lt_succ_self fewer) _ hbetween

end Significant

end FunkLang
