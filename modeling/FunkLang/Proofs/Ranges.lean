-- Ranges. A range function takes natural numbers only, and its numbers are found in exact integers
-- and rounded one by one. So the end of a range is right for every step, and two ranges that meet
-- make one, also where neighbouring integers round to one number.
import FunkLang.Proofs.Indexing

namespace FunkLang

/-! ## Whole numbers -/

/-- A number is a natural one, exactly. Zero may have either sign. -/
def Number.IsWhole (n : Number) (k : Nat) : Prop :=
  ∃ negative rank, n = finite negative rank ∧ magnitude rank = k ∧ (negative = true → k = 0)

theorem Number.toNat?_eq_some {n : Number} {k : Nat} : n.toNat? = some k ↔ n.IsWhole k := by
  -- A rank is zero exactly if its size is.
  have hzero : ∀ rank, unitsOfRank rank = k * unitsPerOne → (rank = 0 ↔ k = 0) := by
    intro rank hunits
    have hnone : unitsOfRank 0 = 0 := unitsOfRank_small (by decide)
    rw [← unitsOfRank_inj, hnone, hunits, Nat.mul_eq_zero, or_iff_left unitsPerOne_pos.ne']
  constructor
  · intro h
    obtain ⟨negative, rank, rfl⟩ := exists_of_toNat? h
    obtain ⟨hunits, hsign⟩ := toNat?_finite.mp h
    refine ⟨negative, rank, rfl, magnitude_eq_iff.mpr hunits, fun hnegative => ?_⟩
    exact (hzero rank hunits).mp (hsign hnegative)
  · rintro ⟨negative, rank, rfl, hmagnitude, hsign⟩
    have hunits := magnitude_eq_iff.mp hmagnitude
    exact toNat?_finite.mpr ⟨hunits, fun hnegative => (hzero rank hunits).mpr (hsign hnegative)⟩

theorem Number.isWhole_ofNat {k : Nat} (hk : k < 2 ^ 53) : (ofNat k).IsWhole k :=
  toNat?_eq_some.mp (toNat?_ofNat hk)

/-! ## What a call may give -/

/-- The cause of a fault is an argument that has the right type and a value that will not do. -/
def FaultCause.IsInvalidArgument : FaultCause → Prop
  | badBound _ _ | backwards _ | zeroStep | notNumeral _ => True
  | _ => False

namespace Builtin

/-- From any machine the run gives a new iter of these elements. -/
def MakesIter (call : Run Value) (elements : Array Value) : Prop :=
  ∀ m, ∃ i m', call m = .ok (.iter i) m' ∧ m'.heap.iter i = elements

/-- From any machine the run fails on an invalid argument, and changes nothing. -/
def Refuses (call : Run Value) (line : Int) : Prop :=
  ∃ cause : FaultCause, cause.IsInvalidArgument ∧
    ∀ m, call m = .error (.fault ⟨cause, some line⟩) m

/-- These are bounds of a range, and the natural numbers that they are. -/
structure Bounds (lo hi step : Number) (a b s : Nat) : Prop where
  low : lo.IsWhole a
  high : hi.IsWhole b
  step : step.IsWhole s
  forward : a ≤ b
  moving : 1 ≤ s

/-- The element at each place is the number nearest to `a + i * s`, for those that are below `b`,
and there are no others. -/
def Holds (a b s : Nat) (elements : Array Value) : Prop :=
  ∀ i v, elements[i]? = some v ↔
    a + i * s < b ∧ ∃ n, v = .number n ∧ n.IsNearest false ((a + i * s : Nat) : ℚ)

/-- A run is the range of these numbers. -/
structure Ranges (lo hi step : Number) (line : Int) (call : Run Value) : Prop where
  succeeds : ∀ m, (∃ v m', call m = .ok v m') ↔ ∃ a b s, Bounds lo hi step a b s
  makes : ∀ a b s, Bounds lo hi step a b s →
    ∃ elements, MakesIter call elements ∧ Holds a b s elements
  refuses : (¬ ∃ a b s, Bounds lo hi step a b s) → Refuses call line

/-- One run succeeds if the other does, and does the same then. -/
def Agree (call other : Run Value) : Prop := ∀ m v m', call m = .ok v m' ↔ other m = .ok v m'

/-! ## The numbers of a range -/

section Progression

variable {a b c s : Nat}

theorem lt_count_iff (hs : 1 ≤ s) (i : Nat) : i < (b - a + s - 1) / s ↔ a + i * s < b := by
  rw [← Nat.succ_le_iff, Nat.le_div_iff_mul_le hs, Nat.succ_mul]
  omega

theorem getElem?_progression (hs : 1 ≤ s) (i : Nat) :
    (progression a b s)[i]? =
      if a + i * s < b then some (.number (.ofNat (a + i * s))) else none := by
  unfold progression
  rw [Array.getElem?_map, Array.getElem?_range]
  by_cases h : a + i * s < b
  · rw [if_pos h, if_pos ((lt_count_iff hs i).mpr h)]
    rfl
  · rw [if_neg h, if_neg fun hi => h ((lt_count_iff hs i).mp hi)]
    rfl

theorem holds_progression (hs : 1 ≤ s) : Holds a b s (progression a b s) := by
  intro i v
  have hnearest := Number.isNearest_ofNat (a + i * s)
  rw [getElem?_progression hs]
  constructor
  · intro h
    by_cases hlt : a + i * s < b
    · rw [if_pos hlt] at h
      cases h
      exact ⟨hlt, _, rfl, hnearest⟩
    · rw [if_neg hlt] at h
      cases h
  · rintro ⟨hlt, n, rfl, hn⟩
    rw [if_pos hlt, hn.unique hnearest]

theorem Holds.getElem? {elements : Array Value} (h : Holds a b s elements) {i : Nat}
    (hi : a + i * s < b) : elements[i]? = some (.number (.ofNat (a + i * s))) :=
  (h i _).mpr ⟨hi, _, rfl, Number.isNearest_ofNat _⟩

/-- Ranges that meet make one. -/
theorem progression_append (hab : a ≤ b) (hbc : b ≤ c) :
    progression a c 1 = progression a b 1 ++ progression b c 1 := by
  have hsize : (progression a b 1).size = b - a := by
    simp [progression]
  apply Array.ext_getElem?
  intro i
  rw [Array.getElem?_append, hsize]
  simp only [getElem?_progression le_rfl, Nat.mul_one]
  by_cases hi : i < b - a
  · rw [if_pos hi, if_pos (by omega), if_pos (by omega)]
  · rw [if_neg hi, show b + (i - (b - a)) = a + i by omega]

end Progression

/-! ## The calls -/

section Calls

variable {b : Builtin} {lo hi step : Number} {low high by_ : Nat} {line : Int}

theorem bound_whole {n : Number} {k : Nat} (h : n.IsWhole k) (b : Builtin) (line : Int) :
    bound b (.number n) line = pure k := by
  simp only [bound, Number.toNat?_eq_some.mpr h]

theorem bound_not_whole {n : Number} (h : ¬ ∃ k, n.IsWhole k) (b : Builtin) (line : Int) :
    bound b (.number n) line = Run.fail (.badBound b n) line := by
  have hnone : n.toNat? = none := by
    cases hn : n.toNat? with
    | none => rfl
    | some k => exact absurd ⟨k, Number.toNat?_eq_some.mp hn⟩ h
  simp only [bound, hnone]

/-- What the range functions have in common: the bounds in order, and then the iter. -/
def rangeOf (b : Builtin) (lo hi step : Number) (line : Int) : Run Value := do
  let low ← bound b (.number lo) line
  let high ← bound b (.number hi) line
  let step ← bound b (.number step) line
  rangeIter b low high step line

theorem refuses_fail (cause : FaultCause) (h : cause.IsInvalidArgument) (line : Int) :
    Refuses (Run.fail cause line) line :=
  ⟨cause, h, fun _ => rfl⟩

theorem rangeOf_bounds (h : Bounds lo hi step low high by_) (b : Builtin) (line : Int) :
    rangeOf b lo hi step line = Run.allocate (·.addIter (progression low high by_)) := by
  unfold rangeOf rangeIter
  rw [bound_whole h.low, bound_whole h.high, bound_whole h.step]
  simp only [pure_bind]
  rw [if_neg (Nat.not_lt.mpr h.forward), if_neg (Nat.one_le_iff_ne_zero.mp h.moving)]

theorem makesIter_rangeOf (h : Bounds lo hi step low high by_) (b : Builtin) (line : Int) :
    MakesIter (rangeOf b lo hi step line) (progression low high by_) := by
  intro m
  rw [rangeOf_bounds h]
  exact exists_iter m (progression low high by_)

/-- The first thing that is wrong with the bounds is what the call fails on. -/
theorem refuses_rangeOf (h : ¬ ∃ low high by_, Bounds lo hi step low high by_) (b : Builtin)
    (line : Int) : Refuses (rangeOf b lo hi step line) line := by
  unfold rangeOf
  by_cases hlow : ∃ low, lo.IsWhole low
  · obtain ⟨low, hlow⟩ := hlow
    rw [bound_whole hlow, pure_bind]
    by_cases hhigh : ∃ high, hi.IsWhole high
    · obtain ⟨high, hhigh⟩ := hhigh
      rw [bound_whole hhigh, pure_bind]
      by_cases hstep : ∃ by_, step.IsWhole by_
      · obtain ⟨by_, hstep⟩ := hstep
        rw [bound_whole hstep, pure_bind]
        unfold rangeIter
        by_cases hback : high < low
        · rw [if_pos hback]
          exact refuses_fail (.backwards b) trivial line
        · by_cases hzero : by_ = 0
          · rw [if_neg hback, if_pos hzero]
            exact refuses_fail .zeroStep trivial line
          · have hbounds : Bounds lo hi step low high by_ :=
              ⟨hlow, hhigh, hstep, Nat.not_lt.mp hback, Nat.one_le_iff_ne_zero.mpr hzero⟩
            exact absurd ⟨low, high, by_, hbounds⟩ h
      · rw [bound_not_whole hstep]
        exact refuses_fail (.badBound b step) trivial line
    · rw [bound_not_whole hhigh]
      exact refuses_fail (.badBound b hi) trivial line
  · rw [bound_not_whole hlow]
    exact refuses_fail (.badBound b lo) trivial line

theorem ranges_rangeOf (b : Builtin) (lo hi step : Number) (line : Int) :
    Ranges lo hi step line (rangeOf b lo hi step line) where
  succeeds m := by
    constructor
    · rintro ⟨v, m', hcall⟩
      by_contra h
      obtain ⟨cause, -, hfail⟩ := refuses_rangeOf h b line
      rw [hfail m] at hcall
      cases hcall
    · rintro ⟨low, high, by_, h⟩
      obtain ⟨i, m', hcall, -⟩ := makesIter_rangeOf h b line m
      exact ⟨.iter i, m', hcall⟩
  makes low high by_ h :=
    ⟨progression low high by_, makesIter_rangeOf h b line, holds_progression h.moving⟩
  refuses h := refuses_rangeOf h b line

/-- Which function it is shows in the messages only. -/
theorem agree_rangeOf (b b' : Builtin) (lo hi step : Number) (line : Int) :
    Agree (rangeOf b lo hi step line) (rangeOf b' lo hi step line) := by
  intro m v m'
  by_cases h : ∃ low high by_, Bounds lo hi step low high by_
  · obtain ⟨low, high, by_, h⟩ := h
    rw [rangeOf_bounds h, rangeOf_bounds h]
  · obtain ⟨cause, -, hfail⟩ := refuses_rangeOf h b line
    obtain ⟨cause', -, hfail'⟩ := refuses_rangeOf h b' line
    rw [hfail m, hfail' m]
    simp

variable {one zero : Number}

theorem call_range_eq (hone : one.IsWhole 1) (room : Nat) (lo hi : Number) (line : Int) :
    Builtin.range.call room [.number lo, .number hi] line = rangeOf .range lo hi one line := by
  unfold rangeOf
  rw [bound_whole hone]
  rfl

theorem call_rangeTo_eq (hzero : zero.IsWhole 0) (hone : one.IsWhole 1) (room : Nat) (hi : Number)
    (line : Int) :
    Builtin.rangeTo.call room [.number hi] line = rangeOf .rangeTo zero hi one line := by
  unfold rangeOf
  rw [bound_whole hone, bound_whole hzero]
  rfl

end Calls

end Builtin

/-! ## The law -/

open Builtin in
/-- A range by steps succeeds exactly if its bounds are natural numbers, in order, and the step is
at least one. It then holds the number nearest to `a + i * s` for each `i` for which that is below
the end, and for no other. The other two ranges are it by steps of one, and from zero. All of them
refuse all other numbers. Two ranges that meet make one. -/
theorem ranges_step_in_exact_integers (lo hi step : Number) (room : Nat) (line : Int) :
    Ranges lo hi step line (rangeSkip.call room [.number lo, .number hi, .number step] line) ∧
    (∀ one, one.IsWhole 1 →
      Ranges lo hi one line (range.call room [.number lo, .number hi] line) ∧
      Agree (range.call room [.number lo, .number hi] line)
        (rangeSkip.call room [.number lo, .number hi, .number one] line) ∧
      ∀ zero, zero.IsWhole 0 →
        Ranges zero hi one line (rangeTo.call room [.number hi] line) ∧
        Agree (rangeTo.call room [.number hi] line)
          (range.call room [.number zero, .number hi] line)) ∧
    ∀ middle a b c, lo.IsWhole a → middle.IsWhole b → hi.IsWhole c → a ≤ b → b ≤ c →
      ∃ first second,
        MakesIter (range.call room [.number lo, .number middle] line) first ∧
        MakesIter (range.call room [.number middle, .number hi] line) second ∧
        MakesIter (range.call room [.number lo, .number hi] line) (first ++ second) := by
  refine ⟨ranges_rangeOf .rangeSkip lo hi step line, ?_, ?_⟩
  · intro one hone
    rw [call_range_eq hone]
    have hranges := ranges_rangeOf .range lo hi one line
    refine ⟨hranges, agree_rangeOf .range .rangeSkip lo hi one line, ?_⟩
    intro zero hzero
    rw [call_rangeTo_eq hzero hone, call_range_eq hone]
    exact ⟨ranges_rangeOf .rangeTo zero hi one line, agree_rangeOf .rangeTo .range zero hi one line⟩
  · intro middle a b c hlow hmiddle hhigh hab hbc
    have hone : (Number.ofNat 1).IsWhole 1 := Number.isWhole_ofNat (by norm_num)
    simp only [call_range_eq hone]
    refine ⟨progression a b 1, progression b c 1, ?_, ?_, ?_⟩
    · exact makesIter_rangeOf ⟨hlow, hmiddle, hone, hab, le_rfl⟩ .range line
    · exact makesIter_rangeOf ⟨hmiddle, hhigh, hone, hbc, le_rfl⟩ .range line
    · rw [← progression_append hab hbc]
      exact makesIter_rangeOf ⟨hlow, hhigh, hone, hab.trans hbc, le_rfl⟩ .range line

/-- Two to the power of 53 and the integer after it round to one number, and still both have their
place in a range. -/
theorem range_past_the_exact_integers :
    let lo := Number.ofNat (2 ^ 53)
    let hi := Number.ofNat (2 ^ 53 + 4)
    ∃ elements, Builtin.MakesIter
        (Builtin.rangeSkip.call 0 [.number lo, .number hi, .number (.ofNat 1)] 1) elements ∧
      elements[0]? = some (.number lo) ∧ elements[1]? = some (.number lo) ∧
      elements[3]? = some (.number hi) ∧ elements[4]? = none := by
  intro lo hi
  have hbounds : Builtin.Bounds lo hi (.ofNat 1) (2 ^ 53) (2 ^ 53 + 4) 1 := by
    constructor
    · exact Number.toNat?_eq_some.mp (by decide +kernel)
    · exact Number.toNat?_eq_some.mp (by decide +kernel)
    · exact Number.isWhole_ofNat (by norm_num)
    · norm_num
    · norm_num
  have hfirst : Number.ofNat (2 ^ 53 + 0 * 1) = lo := by decide +kernel
  have hsecond : Number.ofNat (2 ^ 53 + 1 * 1) = lo := by decide +kernel
  have hlast : Number.ofNat (2 ^ 53 + 3 * 1) = hi := by decide +kernel
  obtain ⟨elements, hmakes, hholds⟩ :=
    (ranges_step_in_exact_integers lo hi (.ofNat 1) 0 1).1.makes _ _ _ hbounds
  refine ⟨elements, hmakes, ?_, ?_, ?_, ?_⟩
  · rw [hholds.getElem? (by norm_num), hfirst]
  · rw [hholds.getElem? (by norm_num), hsecond]
  · rw [hholds.getElem? (by norm_num), hlast]
  · by_contra hsome
    obtain ⟨v, hv⟩ := Option.ne_none_iff_exists'.mp hsome
    have hlt := ((hholds 4 v).mp hv).1
    norm_num at hlt

end FunkLang
