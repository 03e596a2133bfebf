-- Rounding. The rank found for a quotient is that of the nearest magnitude, and
-- of two equally near ones the even one. The ranks go on past the last finite
-- magnitude, so that it too has neighbours on both sides.
import FunkLang.Number
import Mathlib.Algebra.Order.Field.Basic
import Mathlib.Data.Rat.Cast.Order
import Mathlib.Order.Monotone.Basic
import Mathlib.Tactic.FieldSimp
import Mathlib.Tactic.Linarith
import Mathlib.Tactic.NormNum
import Mathlib.Tactic.Positivity
import Mathlib.Tactic.Ring

namespace FunkLang

/-! ## Spacing -/

theorem unitsOfRank_small {rank : Nat} (h : rank < binade) : unitsOfRank rank = rank := by
  unfold unitsOfRank
  rw [if_pos h]

theorem unitsOfRank_binade (exponent : Nat) {place : Nat} (h : place < binade) :
    unitsOfRank ((exponent + 1) * binade + place) = (binade + place) * 2 ^ exponent := by
  have hdiv : ((exponent + 1) * binade + place) / binade = exponent + 1 := by
    unfold binade at *
    omega
  have hmod : ((exponent + 1) * binade + place) % binade = place := by
    unfold binade at *
    omega
  have hlarge : ¬ (exponent + 1) * binade + place < binade := by
    unfold binade at *
    omega
  unfold unitsOfRank
  rw [if_neg hlarge, hdiv, hmod, Nat.shiftLeft_eq, Nat.add_sub_cancel]

/-- Every rank is in a binade, the first of which has the spacing of the second. -/
theorem rank_cases (rank : Nat) :
    rank < binade ∨ ∃ exponent place, place < binade ∧ rank = (exponent + 1) * binade + place := by
  by_cases h : rank < binade
  · exact Or.inl h
  · right
    refine ⟨rank / binade - 1, rank % binade, ?_, ?_⟩
    · exact Nat.mod_lt rank (by decide)
    · unfold binade at *
      omega

/-- How far it is from one magnitude to the next. -/
theorem unitsOfRank_succ (rank : Nat) :
    unitsOfRank (rank + 1) = unitsOfRank rank + 2 ^ (rank / binade - 1) := by
  rcases rank_cases rank with h | ⟨exponent, place, h, rfl⟩
  · have hdiv : rank / binade = 0 := Nat.div_eq_of_lt h
    rw [unitsOfRank_small h, hdiv]
    by_cases hnext : rank + 1 < binade
    · rw [unitsOfRank_small hnext]
      rfl
    · have hfirst : rank + 1 = (0 + 1) * binade + 0 := by omega
      rw [hfirst, unitsOfRank_binade 0 (by decide)]
      simp
      omega
  · have hdiv : ((exponent + 1) * binade + place) / binade - 1 = exponent := by
      unfold binade at *
      omega
    rw [hdiv, unitsOfRank_binade exponent h]
    by_cases hnext : place + 1 < binade
    · rw [Nat.add_assoc, unitsOfRank_binade exponent hnext]
      ring
    · have hfirst : (exponent + 1) * binade + place + 1 = (exponent + 1 + 1) * binade + 0 := by
        unfold binade at *
        omega
      have hplace : place = binade - 1 := by omega
      rw [hfirst, unitsOfRank_binade (exponent + 1) (by decide), hplace, pow_succ]
      unfold binade
      ring

theorem unitsOfRank_strictMono : StrictMono unitsOfRank := by
  apply strictMono_nat_of_lt_succ
  intro rank
  rw [unitsOfRank_succ]
  have hspacing : 0 < 2 ^ (rank / binade - 1) := Nat.two_pow_pos _
  omega

theorem unitsOfRank_inj {rank other : Nat} : unitsOfRank rank = unitsOfRank other ↔ rank = other :=
  unitsOfRank_strictMono.injective.eq_iff

/-- The magnitudes of one binade and the first one after it, as multiples of their spacing. -/
theorem unitsOfRank_multiple {shift count : Nat} (hcount : count ≤ 2 * binade)
    (hshift : shift = 0 ∨ binade ≤ count) :
    unitsOfRank (shift * binade + count) = count * 2 ^ shift := by
  by_cases hsmall : count < binade
  · have hzero : shift = 0 := by omega
    subst hzero
    rw [Nat.zero_mul, Nat.zero_add, unitsOfRank_small hsmall, pow_zero, Nat.mul_one]
  · by_cases hlast : count = 2 * binade
    · have hfirst : shift * binade + count = (shift + 1 + 1) * binade + 0 := by
        unfold binade at *
        omega
      rw [hfirst, unitsOfRank_binade (shift + 1) (by decide), hlast, pow_succ]
      ring
    · have hplace : shift * binade + count = (shift + 1) * binade + (count - binade) := by
        unfold binade at *
        omega
      rw [hplace, unitsOfRank_binade shift (by omega), Nat.add_sub_of_le (by omega)]

/-! ## The nearest magnitude -/

/-- The magnitude of a rank is nearest to a size, counted in units, and where another one is just
as near the rank is even. -/
structure RoundsTo (x : ℚ) (rank : Nat) : Prop where
  nearest : ∀ other, |x - unitsOfRank rank| ≤ |x - unitsOfRank other|
  even : ∀ other, other ≠ rank → |x - unitsOfRank rank| = |x - unitsOfRank other| → rank % 2 = 0

section Distances

variable {x a b : ℚ}

theorem upper_nearer (h : a < b) : |x - b| ≤ |x - a| ↔ a + b ≤ 2 * x := by
  rw [← sq_le_sq]
  constructor
  · intro hle
    nlinarith
  · intro hle
    nlinarith

theorem lower_nearer (h : a < b) : |x - a| ≤ |x - b| ↔ 2 * x ≤ a + b := by
  rw [← sq_le_sq]
  constructor
  · intro hle
    nlinarith
  · intro hle
    nlinarith

theorem equally_near (h : a < b) : |x - a| = |x - b| ↔ a + b = 2 * x := by
  rw [le_antisymm_iff, lower_nearer h, upper_nearer h]
  constructor
  · intro hle
    linarith [hle.1, hle.2]
  · intro heq
    constructor <;> linarith

end Distances

namespace RoundsTo

variable {x y z : ℚ} {rank other : Nat}

theorem units_lt (h : rank < other) : (unitsOfRank rank : ℚ) < unitsOfRank other :=
  Nat.cast_lt.mpr (unitsOfRank_strictMono h)

/-- A size rounds to a rank that is not too high for it and not too low. -/
theorem of_between
    (below : ∀ other < rank, (unitsOfRank other : ℚ) + unitsOfRank rank ≤ 2 * x ∧
      ((unitsOfRank other : ℚ) + unitsOfRank rank = 2 * x → rank % 2 = 0))
    (above : ∀ other > rank, 2 * x ≤ unitsOfRank rank + unitsOfRank other ∧
      ((unitsOfRank rank : ℚ) + unitsOfRank other = 2 * x → rank % 2 = 0)) : RoundsTo x rank where
  nearest other := by
    rcases Nat.lt_trichotomy other rank with h | rfl | h
    · exact (upper_nearer (units_lt h)).mpr (below other h).1
    · exact le_refl _
    · exact (lower_nearer (units_lt h)).mpr (above other h).1
  even other hne heq := by
    rcases Nat.lt_or_gt_of_ne hne with h | h
    · exact (below other h).2 ((equally_near (units_lt h)).mp heq.symm)
    · exact (above other h).2 ((equally_near (units_lt h)).mp heq)

theorem below (h : RoundsTo x rank) (hlt : other < rank) :
    (unitsOfRank other : ℚ) + unitsOfRank rank ≤ 2 * x :=
  (upper_nearer (units_lt hlt)).mp (h.nearest other)

theorem above (h : RoundsTo x rank) (hlt : rank < other) :
    2 * x ≤ unitsOfRank rank + unitsOfRank other :=
  (lower_nearer (units_lt hlt)).mp (h.nearest other)

theorem even_below (h : RoundsTo x rank) (hlt : other < rank)
    (heq : (unitsOfRank other : ℚ) + unitsOfRank rank = 2 * x) : rank % 2 = 0 :=
  h.even other (Nat.ne_of_lt hlt) ((equally_near (units_lt hlt)).mpr heq).symm

theorem even_above (h : RoundsTo x rank) (hlt : rank < other)
    (heq : (unitsOfRank rank : ℚ) + unitsOfRank other = 2 * x) : rank % 2 = 0 :=
  h.even other (Nat.ne_of_gt hlt) ((equally_near (units_lt hlt)).mpr heq)

/-- A magnitude rounds to itself. -/
theorem exact (rank : Nat) : RoundsTo (unitsOfRank rank) rank where
  nearest other := by
    rw [sub_self, abs_zero]
    exact abs_nonneg _
  even other hne heq := by
    rw [sub_self, abs_zero, eq_comm, abs_eq_zero, sub_eq_zero, Nat.cast_inj] at heq
    exact absurd (unitsOfRank_inj.mp heq).symm hne

/-- Two ranks are not both even without an odd one between them, which would be nearer. -/
theorem not_lt (h : RoundsTo x rank) (h' : RoundsTo x other) : ¬ rank < other := by
  intro hlt
  have hlow := h.above hlt
  have hhigh := h'.below hlt
  have hmiddle : (unitsOfRank rank : ℚ) + unitsOfRank other = 2 * x := by linarith
  have heven := h.even_above hlt hmiddle
  have heven' := h'.even_below hlt hmiddle
  have hnext : rank + 1 < other := by omega
  have hnear := h.above (Nat.lt_succ_self rank)
  have hgap := units_lt hnext
  linarith

theorem unique (h : RoundsTo x rank) (h' : RoundsTo x other) : rank = other :=
  Nat.le_antisymm (Nat.not_lt.mp (h'.not_lt h)) (Nat.not_lt.mp (h.not_lt h'))

/-- What lies between two sizes that round to a rank rounds to it too. -/
theorem convex (hx : RoundsTo x rank) (hz : RoundsTo z rank) (hxy : x ≤ y) (hyz : y ≤ z) :
    RoundsTo y rank := by
  apply of_between
  · intro other hlt
    have hlow := hx.below hlt
    refine ⟨by linarith, fun heq => hx.even_below hlt ?_⟩
    linarith
  · intro other hlt
    have hhigh := hz.above hlt
    refine ⟨by linarith, fun heq => hz.even_above hlt ?_⟩
    linarith

/-- The neighbours of a rank decide. -/
theorem of_neighbours
    (below : ∀ lower, rank = lower + 1 → (unitsOfRank lower : ℚ) + unitsOfRank rank ≤ 2 * x ∧
      ((unitsOfRank lower : ℚ) + unitsOfRank rank = 2 * x → rank % 2 = 0))
    (above : 2 * x ≤ unitsOfRank rank + unitsOfRank (rank + 1) ∧
      ((unitsOfRank rank : ℚ) + unitsOfRank (rank + 1) = 2 * x → rank % 2 = 0)) :
    RoundsTo x rank := by
  apply of_between
  · intro other hlt
    obtain ⟨lower, rfl⟩ : ∃ lower, rank = lower + 1 := ⟨rank - 1, by omega⟩
    have hle : (unitsOfRank other : ℚ) ≤ unitsOfRank lower :=
      Nat.cast_le.mpr (unitsOfRank_strictMono.monotone (Nat.le_of_lt_succ hlt))
    have hbelow := below lower rfl
    refine ⟨by linarith [hbelow.1], fun heq => hbelow.2 ?_⟩
    linarith [hbelow.1]
  · intro other hlt
    have hle : (unitsOfRank (rank + 1) : ℚ) ≤ unitsOfRank other :=
      Nat.cast_le.mpr (unitsOfRank_strictMono.monotone hlt)
    refine ⟨by linarith [above.1], fun heq => above.2 ?_⟩
    linarith [above.1]

end RoundsTo

/-! ## What is found -/

/-- The whole number found is at most one half away, and an even one if it is just that far. -/
theorem roundHalfEven_near (num : Nat) {den : Nat} (hden : 0 < den) :
    2 * roundHalfEven num den * den ≤ 2 * num + den ∧
      2 * num ≤ 2 * roundHalfEven num den * den + den ∧
      (2 * roundHalfEven num den * den = 2 * num + den ∨
        2 * num = 2 * roundHalfEven num den * den + den → roundHalfEven num den % 2 = 0) := by
  have hsplit := Nat.div_add_mod num den
  have hrest := Nat.mod_lt num hden
  unfold roundHalfEven
  dsimp only
  generalize num / den = whole at *
  generalize num % den = rest at *
  subst hsplit
  have hdown : 2 * whole * den = 2 * (den * whole) := by ring
  have hup : 2 * (whole + 1) * den = 2 * (den * whole) + 2 * den := by ring
  by_cases hround : den < 2 * rest ∨ den = 2 * rest ∧ whole % 2 = 1
  · rw [if_pos (by simpa using hround), hup]
    omega
  · rw [if_neg (by simpa using hround), hdown]
    omega

theorem roundHalfEven_of_dvd {num den : Nat} (hden : 0 < den) (h : den ∣ num) :
    roundHalfEven num den * den = num := by
  obtain ⟨times, rfl⟩ := h
  unfold roundHalfEven
  simp only [Nat.mul_div_cancel_left times hden, Nat.mul_mod_right, Nat.mul_zero]
  have hround : (decide (den < 0) || den == 0 && times % 2 == 1) = false := by
    simp
    omega
  rw [hround, if_neg Bool.false_ne_true, Nat.mul_comm]

/-- The binade of a quotient: its spacing is the least that leaves at most twice as many multiples
as a binade has places. -/
theorem spacing_bounds (num : Nat) {den : Nat} (hden : 0 < den) :
    let shift := (num / den).log2 - 52
    num < 2 * binade * (den * 2 ^ shift) ∧ (shift = 0 ∨ binade * (den * 2 ^ shift) ≤ num) := by
  dsimp only
  generalize hwhole : num / den = whole
  have hbinade : binade = 2 ^ 52 := rfl
  have hlow : den * whole ≤ num := hwhole ▸ Nat.mul_div_le num den
  have hhigh : num < den * (whole + 1) := hwhole ▸ Nat.lt_mul_div_succ num hden
  have hlog : whole + 1 ≤ 2 ^ (whole.log2 + 1) := Nat.lt_log2_self
  constructor
  · have hpow : 2 ^ (whole.log2 + 1) ≤ 2 * binade * 2 ^ (whole.log2 - 52) := by
      rw [hbinade, ← pow_succ', ← pow_add]
      exact Nat.pow_le_pow_right (by decide) (by omega)
    calc num < den * (whole + 1) := hhigh
      _ ≤ den * (2 * binade * 2 ^ (whole.log2 - 52)) :=
        Nat.mul_le_mul_left den (hlog.trans hpow)
      _ = 2 * binade * (den * 2 ^ (whole.log2 - 52)) := by ring
  · by_cases hsmall : whole.log2 ≤ 52
    · exact Or.inl (by omega)
    · right
      have hne : whole ≠ 0 := by
        rintro rfl
        simp at hsmall
      have hpow : binade * 2 ^ (whole.log2 - 52) ≤ whole := by
        rw [hbinade, ← pow_add, Nat.add_sub_of_le (by omega)]
        exact Nat.log2_self_le hne
      calc binade * (den * 2 ^ (whole.log2 - 52)) = den * (binade * 2 ^ (whole.log2 - 52)) := by
            ring
        _ ≤ den * whole := Nat.mul_le_mul_left den hpow
        _ ≤ num := hlow

/-- The multiple of that spacing that is found is of the binade, or the first one after it. -/
theorem count_bounds (num : Nat) {den : Nat} (hden : 0 < den) :
    let shift := (num / den).log2 - 52
    let count := roundHalfEven num (den * 2 ^ shift)
    count ≤ 2 * binade ∧ (shift = 0 ∨ binade ≤ count) := by
  obtain ⟨hhigh, hlow⟩ := spacing_bounds num hden
  dsimp only at *
  generalize (num / den).log2 - 52 = shift at *
  have hunit : 0 < den * 2 ^ shift := Nat.mul_pos hden (Nat.two_pow_pos shift)
  obtain ⟨hdown, hup, -⟩ := roundHalfEven_near num hunit
  generalize den * 2 ^ shift = unit at *
  generalize roundHalfEven num unit = count at *
  constructor
  · by_contra hmore
    nlinarith
  · refine hlow.imp_right fun hlow => ?_
    by_contra hless
    nlinarith

theorem unitsOfRank_nearestRank (num : Nat) {den : Nat} (hden : 0 < den) :
    let shift := (num / den).log2 - 52
    unitsOfRank (nearestRank num den) = roundHalfEven num (den * 2 ^ shift) * 2 ^ shift := by
  obtain ⟨hcount, hshift⟩ := count_bounds num hden
  unfold nearestRank
  dsimp only at *
  rw [Nat.shiftLeft_eq]
  exact unitsOfRank_multiple hcount hshift

/-- A size that is this many times the spacing of its binade rounds to the nearest multiple. -/
theorem roundsTo_multiple {times : ℚ} {count shift : Nat} (hcount : count ≤ 2 * binade)
    (hshift : shift = 0 ∨ binade ≤ count) (hlow : shift = 0 ∨ (binade : ℚ) ≤ times)
    (hdown : 2 * (count : ℚ) ≤ 2 * times + 1) (hup : 2 * times ≤ 2 * (count : ℚ) + 1)
    (htie : 2 * (count : ℚ) = 2 * times + 1 ∨ 2 * times = 2 * (count : ℚ) + 1 → count % 2 = 0) :
    RoundsTo (times * 2 ^ shift) (shift * binade + count) := by
  have hspacing : (0 : ℚ) < 2 ^ shift := by positivity
  have hunits : (unitsOfRank (shift * binade + count) : ℚ) = count * 2 ^ shift := by
    rw [unitsOfRank_multiple hcount hshift]
    push_cast
    rfl
  have heven : count % 2 = 0 → (shift * binade + count) % 2 = 0 := by
    unfold binade
    omega
  apply RoundsTo.of_neighbours
  · intro lower hlower
    rw [hunits]
    by_cases hinside : shift = 0 ∨ binade < count
    · have hne : count ≠ 0 := by
        rintro rfl
        rcases hinside with rfl | hinside
        · simp at hlower
        · exact Nat.not_lt_zero _ hinside
      obtain ⟨fewer, rfl⟩ := Nat.exists_eq_succ_of_ne_zero hne
      obtain rfl : lower = shift * binade + fewer := by omega
      have hlast : (unitsOfRank (shift * binade + fewer) : ℚ) = fewer * 2 ^ shift := by
        rw [unitsOfRank_multiple (by omega) (by omega)]
        push_cast
        rfl
      rw [hlast]
      push_cast at hdown htie ⊢
      refine ⟨by nlinarith, fun heq => heven (htie (Or.inl ?_))⟩
      nlinarith
    · -- The size is in the binade that this rank begins, and the rank before is in a denser one.
      have hfirst : count = binade := by omega
      have hless : (unitsOfRank lower : ℚ) < count * 2 ^ shift := by
        rw [← hunits]
        exact RoundsTo.units_lt (by omega)
      have htimes : (count : ℚ) ≤ times := hfirst ▸ hlow.resolve_left (by omega)
      have hle : (count : ℚ) * 2 ^ shift ≤ times * 2 ^ shift := by gcongr
      exact ⟨by linarith, fun heq => by linarith⟩
  · have hnext : (count : ℚ) * 2 ^ shift + 2 ^ shift ≤
        unitsOfRank (shift * binade + count + 1) := by
      rw [unitsOfRank_succ]
      push_cast
      rw [hunits]
      gcongr
      · norm_num
      · rcases hshift with rfl | hbinade
        · exact Nat.zero_le _
        · unfold binade at *
          omega
    rw [hunits]
    refine ⟨by nlinarith, fun heq => heven (htie (Or.inr ?_))⟩
    nlinarith

/-- The rank found for a quotient is the one that it rounds to. -/
theorem nearestRank_roundsTo (num : Nat) {den : Nat} (hden : 0 < den) :
    RoundsTo ((num : ℚ) / den) (nearestRank num den) := by
  obtain ⟨-, hlow⟩ := spacing_bounds num hden
  obtain ⟨hcount, hshift⟩ := count_bounds num hden
  unfold nearestRank
  dsimp only at *
  generalize (num / den).log2 - 52 = shift at *
  rw [Nat.shiftLeft_eq]
  have hunit : 0 < den * 2 ^ shift := Nat.mul_pos hden (Nat.two_pow_pos shift)
  obtain ⟨hdown, hup, htie⟩ := roundHalfEven_near num hunit
  generalize hunits : den * 2 ^ shift = unit at *
  generalize roundHalfEven num unit = count at *
  have hpos : (0 : ℚ) < unit := Nat.cast_pos.mpr hunit
  obtain ⟨times, htimes⟩ : ∃ times : ℚ, times * unit = num :=
    ⟨num / unit, div_mul_cancel₀ _ hpos.ne'⟩
  have hx : (num : ℚ) / den = times * 2 ^ shift := by
    rw [div_eq_iff (Nat.cast_ne_zero.mpr hden.ne'), ← htimes, ← hunits]
    push_cast
    ring
  rw [hx]
  have hdown' : 2 * (count : ℚ) * unit ≤ 2 * (times * unit) + unit := by
    rw [htimes]
    exact_mod_cast hdown
  have hup' : 2 * (times * unit) ≤ 2 * (count : ℚ) * unit + unit := by
    rw [htimes]
    exact_mod_cast hup
  apply roundsTo_multiple hcount hshift
  · refine hlow.imp_right fun hlow => ?_
    have hlow' : (binade : ℚ) * unit ≤ times * unit := by
      rw [htimes]
      exact_mod_cast hlow
    exact le_of_mul_le_mul_right hlow' hpos
  · nlinarith
  · nlinarith
  · intro heq
    apply htie
    refine heq.imp (fun heq => ?_) fun heq => ?_
    · have hcast : (2 * count * unit : ℚ) = 2 * num + unit := by
        rw [← htimes, heq]
        ring
      exact_mod_cast hcast
    · have hcast : (2 * num : ℚ) = 2 * count * unit + unit := by
        rw [← htimes, ← mul_assoc, heq]
        ring
      exact_mod_cast hcast

theorem nearestRank_eq_iff {num den rank : Nat} (hden : 0 < den) :
    nearestRank num den = rank ↔ RoundsTo ((num : ℚ) / den) rank := by
  have hrounds := nearestRank_roundsTo num hden
  constructor
  · rintro rfl
    exact hrounds
  · exact hrounds.unique

/-! ## The nearest number -/

theorem unitsPerOne_eq : unitsPerOne = 2 ^ 1074 := by
  unfold unitsPerOne
  generalize 1074 = places
  exact Nat.one_shiftLeft places

theorem unitsPerOne_pos : 0 < unitsPerOne := by
  rw [unitsPerOne_eq]
  positivity

/-- The exact magnitude of a rank. -/
def magnitude (rank : Nat) : ℚ := unitsOfRank rank / unitsPerOne

theorem magnitude_eq_iff {rank whole : Nat} :
    magnitude rank = whole ↔ unitsOfRank rank = whole * unitsPerOne := by
  have hone : (unitsPerOne : ℚ) ≠ 0 := Nat.cast_ne_zero.mpr unitsPerOne_pos.ne'
  unfold magnitude
  rw [div_eq_iff hone]
  norm_cast

/-- The least magnitude that is too large for a finite number. It is half way from the last finite
one to the power of two above it. -/
def overflow : ℚ := 2 ^ 1024 - 2 ^ 970

/-- A number is the nearest one to a magnitude, with a sign. Of two that are equally near it is the
one of even rank. -/
def Number.IsNearest (negative : Bool) (x : ℚ) : Number → Prop
  | nan => False
  | infinite sign => sign = negative ∧ overflow ≤ x
  | finite sign rank => sign = negative ∧ x < overflow ∧ ∀ other : Fin finiteRanks,
    |x - magnitude rank| ≤ |x - magnitude other| ∧
      (other ≠ rank → |x - magnitude rank| = |x - magnitude other| → rank.val % 2 = 0)

theorem magnitude_distance (x : ℚ) (rank : Nat) :
    |x / unitsPerOne - magnitude rank| = |x - unitsOfRank rank| / unitsPerOne := by
  have hone : |(unitsPerOne : ℚ)| = unitsPerOne := abs_of_nonneg (Nat.cast_nonneg _)
  unfold magnitude
  rw [← sub_div, abs_div, hone]

/-- The last magnitude of a binade and the first one of the next, together. -/
theorem binade_end (exponent : Nat) :
    (unitsOfRank ((exponent + 1) * binade + (binade - 1)) : ℚ) +
      unitsOfRank ((exponent + 1 + 1) * binade + 0) = (2 ^ 54 - 1) * 2 ^ exponent := by
  rw [unitsOfRank_binade exponent (by decide), unitsOfRank_binade (exponent + 1) (by decide)]
  push_cast
  rw [pow_succ]
  norm_num [binade]
  ring

/-- The overflow is half way between the last finite rank and the one after it. -/
theorem overflow_units :
    (unitsOfRank (finiteRanks - 1) : ℚ) + unitsOfRank finiteRanks =
      2 * (overflow * unitsPerOne) := by
  have hlast : finiteRanks - 1 = (2045 + 1) * binade + (binade - 1) := by decide
  have hnext : finiteRanks = (2045 + 1 + 1) * binade + 0 := by decide
  have hends := binade_end 2045
  have hexponent : (2 : ℚ) ^ 2045 = 2 * (2 ^ 970 * 2 ^ 1074) := by
    rw [← pow_add, ← pow_succ']
  have hlarge : (2 : ℚ) ^ 1024 = 2 ^ 54 * 2 ^ 970 := by
    rw [← pow_add]
  rw [← hlast, ← hnext, hexponent] at hends
  rw [unitsPerOne_eq, overflow, hlarge, hends, Nat.cast_pow, Nat.cast_ofNat]
  generalize (2 : ℚ) ^ 970 = a
  generalize (2 : ℚ) ^ 1074 = b
  ring

theorem RoundsTo.lt_overflow {x : ℚ} {rank : Nat} (h : RoundsTo x rank) :
    rank < finiteRanks ↔ x / unitsPerOne < overflow := by
  have hunits := overflow_units
  have hone : (0 : ℚ) < unitsPerOne := Nat.cast_pos.mpr unitsPerOne_pos
  rw [div_lt_iff₀ hone]
  constructor
  · intro hlt
    have habove := h.above hlt
    by_cases hlast : rank = finiteRanks - 1
    · -- The last finite rank is odd, so it does not win a tie.
      have hodd : rank % 2 ≠ 0 := hlast ▸ by decide
      have hne : 2 * x ≠ unitsOfRank rank + unitsOfRank finiteRanks := fun heq =>
        hodd (h.even_above hlt heq.symm)
      rw [← hlast] at hunits
      have := lt_of_le_of_ne habove hne
      linarith
    · have hless := units_lt (show rank < finiteRanks - 1 by omega)
      linarith
  · intro hlt
    by_contra hge
    have hbelow := h.below (show finiteRanks - 1 < rank by unfold finiteRanks binade at *; omega)
    have hle : (unitsOfRank finiteRanks : ℚ) ≤ unitsOfRank rank :=
      Nat.cast_le.mpr (unitsOfRank_strictMono.monotone (Nat.not_lt.mp hge))
    linarith

theorem Number.isNearest_ofUnits (negative : Bool) (num : Nat) {den : Nat} (hden : 0 < den) :
    (ofUnits negative num den).IsNearest negative ((num : ℚ) / den / unitsPerOne) := by
  have hrounds := nearestRank_roundsTo num hden
  have hone : (0 : ℚ) < unitsPerOne := Nat.cast_pos.mpr unitsPerOne_pos
  unfold ofUnits
  dsimp only
  split
  · rename_i hfinite
    refine ⟨rfl, hrounds.lt_overflow.mp hfinite, fun other => ?_⟩
    rw [magnitude_distance, magnitude_distance, div_le_div_iff_of_pos_right hone,
      div_left_inj' hone.ne']
    exact ⟨hrounds.nearest other, fun hne => hrounds.even other (Fin.val_ne_of_ne hne)⟩
  · rename_i hinfinite
    exact ⟨rfl, not_lt.mp fun h => hinfinite (hrounds.lt_overflow.mpr h)⟩

theorem Number.isNearest_ofDecimal (negative : Bool) (digits places : Nat) :
    (ofDecimal negative digits places).IsNearest negative (digits / 10 ^ places) := by
  have hone : (unitsPerOne : ℚ) ≠ 0 := Nat.cast_ne_zero.mpr unitsPerOne_pos.ne'
  have hvalue : ((digits * unitsPerOne : Nat) : ℚ) / (Nat.pow 10 places : Nat) / unitsPerOne =
      digits / 10 ^ places := by
    rw [Nat.pow_eq]
    push_cast
    field_simp
  rw [← hvalue]
  exact isNearest_ofUnits negative _ (Nat.pow_pos (by decide))

/-! ## Only one number is nearest -/

namespace Number

variable {negative sign sign' : Bool} {x : ℚ} {n n' : Number} {rank other : Fin finiteRanks}

theorem magnitude_lt (h : rank < other) : magnitude rank < magnitude other := by
  have hone : (0 : ℚ) < unitsPerOne := Nat.cast_pos.mpr unitsPerOne_pos
  unfold magnitude
  rw [div_lt_div_iff_of_pos_right hone]
  exact RoundsTo.units_lt h

/-- Two equally near magnitudes are both even, and then one between them is nearer. -/
theorem IsNearest.not_below (h : (finite sign rank).IsNearest negative x)
    (h' : (finite sign' other).IsNearest negative x) : ¬ rank < other := by
  intro hlt
  have hmagnitude := magnitude_lt hlt
  have hlow := (lower_nearer hmagnitude).mp (h.2.2 other).1
  have hhigh := (upper_nearer hmagnitude).mp (h'.2.2 rank).1
  have hmiddle : |x - magnitude rank| = |x - magnitude other| :=
    (equally_near hmagnitude).mpr (by linarith)
  have heven := (h.2.2 other).2 hlt.ne' hmiddle
  have heven' := (h'.2.2 rank).2 hlt.ne hmiddle.symm
  have hbound := other.isLt
  let next : Fin finiteRanks := ⟨rank + 1, by omega⟩
  have hnear := (lower_nearer (magnitude_lt (show rank < next from Nat.lt_succ_self _))).mp
    (h.2.2 next).1
  have hgap := magnitude_lt (show next < other from by
    apply Fin.lt_def.mpr
    show rank.val + 1 < other.val
    omega)
  linarith

theorem IsNearest.unique (h : n.IsNearest negative x) (h' : n'.IsNearest negative x) : n = n' := by
  cases n with
  | nan => exact absurd h id
  | infinite sign =>
    cases n' with
    | nan => exact absurd h' id
    | infinite sign' => rw [h.1, h'.1]
    | finite sign' other => exact absurd h'.2.1 (not_lt.mpr h.2)
  | finite sign rank =>
    cases n' with
    | nan => exact absurd h' id
    | infinite sign' => exact absurd h.2.1 (not_lt.mpr h'.2)
    | finite sign' other =>
      rw [h.1, h'.1, le_antisymm (not_lt.mp (h'.not_below h)) (not_lt.mp (h.not_below h'))]

theorem isNearest_ofNat (k : Nat) : (ofNat k).IsNearest false k := by
  have hnearest := isNearest_ofUnits false (k * unitsPerOne) Nat.one_pos
  have hone : (unitsPerOne : ℚ) ≠ 0 := Nat.cast_ne_zero.mpr unitsPerOne_pos.ne'
  rwa [Nat.cast_one, div_one, Nat.cast_mul, mul_div_cancel_right₀ _ hone] at hnearest

end Number

end FunkLang
