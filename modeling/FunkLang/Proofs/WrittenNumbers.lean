-- How numbers are written. Every finite number is written as a numeral, with a minus
-- sign if it has one, and this text reads back, so no two of them are written alike.
-- A whole number is written with all of its digits, and any other one with as few
-- significant digits as read back.
import FunkLang.Proofs.Numerals
import FunkLang.Proofs.ShortestDecimals

namespace FunkLang

/-! ## Significant digits -/

section Digits

variable {text : List Char}

/-- How many significant digits a text has: the zeros at the two ends do not count. -/
def significant (text : List Char) : Nat :=
  (trim (· == '0') (text.filter Char.isDigit)).length

theorem dropWhile_zeros (text : List Char) :
    ∃ count, text = List.replicate count '0' ++ text.dropWhile (· == '0') := by
  refine ⟨(text.takeWhile (· == '0')).length, ?_⟩
  have hzeros : text.takeWhile (· == '0') =
      List.replicate (text.takeWhile (· == '0')).length '0' := by
    rw [List.eq_replicate_iff]
    refine ⟨rfl, fun c hc => ?_⟩
    have hzero := List.mem_takeWhile_imp hc
    simpa using hzero
  rw [← hzeros, List.takeWhile_append_dropWhile]

theorem trim_zeros (text : List Char) :
    ∃ before after, text =
      List.replicate before '0' ++ (trim (· == '0') text ++ List.replicate after '0') := by
  obtain ⟨before, hbefore⟩ := dropWhile_zeros text
  obtain ⟨after, hafter⟩ := dropWhile_zeros (text.dropWhile (· == '0')).reverse
  refine ⟨before, after, ?_⟩
  have hwhole := congrArg List.reverse hafter
  rw [List.reverse_reverse, List.reverse_append, List.reverse_replicate] at hwhole
  unfold trim
  rw [← hwhole, ← hbefore]

theorem mem_of_mem_trim {c : Char} (h : c ∈ trim (· == '0') text) : c ∈ text := by
  obtain ⟨before, after, htext⟩ := trim_zeros text
  rw [htext]
  exact List.mem_append_right _ (List.mem_append_left _ h)

/-- The digits that are left do not begin with a zero. -/
theorem head_trim_zeros {c : Char} {rest : List Char} (h : trim (· == '0') text = c :: rest) :
    c ≠ '0' := by
  unfold trim at h
  have hsuffix := List.dropWhile_suffix (· == '0') (l := (text.dropWhile (· == '0')).reverse)
  have hprefix := List.reverse_prefix.mpr hsuffix
  rw [List.reverse_reverse, h] at hprefix
  obtain ⟨more, hmore⟩ := hprefix
  have hhead := List.head?_dropWhile_not (· == '0') text
  rw [← hmore] at hhead
  simpa using hhead

theorem value_trim_zeros (text : List Char) :
    ∃ after, Nat.ofDigitChars 10 text 0 =
      Nat.ofDigitChars 10 (trim (· == '0') text) 0 * 10 ^ after := by
  obtain ⟨before, after, htext⟩ := trim_zeros text
  refine ⟨after, ?_⟩
  conv_lhs => rw [htext]
  rw [Nat.ofDigitChars_append, Nat.ofDigitChars_append, Nat.ofDigitChars_replicate_zero,
    Nat.ofDigitChars_replicate_zero, Nat.mul_zero, Nat.mul_comm]

theorem value_cons (c : Char) (text : List Char) :
    Nat.ofDigitChars 10 (c :: text) 0 =
      10 ^ text.length * (c.toNat - '0'.toNat) + Nat.ofDigitChars 10 text 0 := by
  rw [Nat.ofDigitChars_cons, Nat.ofDigitChars_eq_ofDigitChars_zero, Nat.mul_zero, Nat.zero_add]

theorem digit_bounds {c : Char} (h : c.isDigit) : '0'.toNat ≤ c.toNat ∧ c.toNat ≤ '9'.toNat := by
  unfold Char.isDigit at h
  simp only [Bool.and_eq_true, decide_eq_true_eq] at h
  exact h

theorem value_lt (h : ∀ c ∈ text, c.isDigit) : Nat.ofDigitChars 10 text 0 < 10 ^ text.length := by
  induction text with
  | nil => decide
  | cons c text ih =>
    have hrest := ih fun d hd => h d (List.mem_cons_of_mem c hd)
    have hdigit : c.toNat - '0'.toNat ≤ 9 := by
      have hbounds := digit_bounds (h c List.mem_cons_self)
      simp at *
      omega
    rw [value_cons, List.length_cons, pow_succ]
    nlinarith

theorem le_value {c : Char} (hdigit : c.isDigit) (hzero : c ≠ '0') :
    10 ^ text.length ≤ Nat.ofDigitChars 10 (c :: text) 0 := by
  have hpos : 1 ≤ c.toNat - '0'.toNat := by
    have hbounds := digit_bounds hdigit
    have hne : c.toNat ≠ '0'.toNat := fun heq => hzero (Char.toNat_inj.mp heq)
    omega
  rw [value_cons]
  calc 10 ^ text.length ≤ 10 ^ text.length * (c.toNat - '0'.toNat) := Nat.le_mul_of_pos_right _ hpos
    _ ≤ _ := Nat.le_add_right _ _

/-- Digits below a power of ten have no more significant ones than its exponent. -/
theorem length_trim_le (h : ∀ c ∈ text, c.isDigit) {size : Nat}
    (hsize : Nat.ofDigitChars 10 text 0 < 10 ^ size) : (trim (· == '0') text).length ≤ size := by
  obtain ⟨zeros, hvalue⟩ := value_trim_zeros text
  cases htrim : trim (· == '0') text with
  | nil => exact Nat.zero_le size
  | cons c rest =>
    have hmem : c ∈ text := mem_of_mem_trim (htrim ▸ List.mem_cons_self)
    have hle : 10 ^ rest.length ≤ Nat.ofDigitChars 10 (c :: rest) 0 :=
      le_value (h c hmem) (head_trim_zeros htrim)
    rw [htrim] at hvalue
    have hpos : 0 < 10 ^ zeros := by positivity
    have hpower : 10 ^ rest.length < 10 ^ size := by nlinarith
    exact (Nat.pow_lt_pow_iff_right (by decide)).mp hpower

end Digits

/-! ## The numeral of a magnitude -/

/-- The number that the digits of a numeral are without the point. -/
def Numeral.joined (n : Numeral) : Nat := Nat.ofDigitChars 10 (n.whole ++ n.fraction) 0

theorem Numeral.Digits.mem_joined {n : Numeral} (h : n.Digits) {c : Char}
    (hc : c ∈ n.whole ++ n.fraction) : c.isDigit := by
  rcases List.mem_append.mp hc with hc | hc
  · exact h.whole c hc
  · exact h.fraction c hc

/-- The sign and the point of a numeral are no digits. -/
theorem Numeral.Digits.significant_eq {n : Numeral} (h : n.Digits) (negative : Bool) :
    significant (minusIf negative ++ n.text) =
      (trim (· == '0') (n.whole ++ n.fraction)).length := by
  have hsign : (minusIf negative).filter Char.isDigit = [] := by
    cases negative <;> rfl
  have hwhole : n.whole.filter Char.isDigit = n.whole := List.filter_eq_self.mpr h.whole
  have hfraction : n.fraction.filter Char.isDigit = n.fraction :=
    List.filter_eq_self.mpr h.fraction
  have htext : n.text.filter Char.isDigit = n.whole ++ n.fraction := by
    unfold text
    split
    · rename_i hnone
      rw [hwhole, List.isEmpty_iff.mp hnone, List.append_nil]
    · rw [List.filter_append, hwhole, List.filter_cons_of_neg (by decide), hfraction]
  unfold significant
  rw [List.filter_append, hsign, htext, List.nil_append]

/-- A numeral is written for a magnitude, and read as it. -/
structure Numeral.Writes (n : Numeral) (rank : Nat) : Prop where
  digits : n.Digits
  text : magnitudeText rank = n.text
  readsBack : ReadsBack rank n.joined n.fraction.length

theorem toDigits_isDigit (number : Nat) : ∀ c ∈ Nat.toDigits 10 number, c.isDigit :=
  fun _ => Nat.isDigit_of_mem_toDigits (by decide) (by decide)

/-- What is written with a point is a numeral with just these digits and places. -/
theorem pointed_eq (digits : Nat) {places : Nat} (hplaces : 1 ≤ places) :
    ∃ n : Numeral, n.Digits ∧ pointed digits places = n.text ∧ n.joined = digits ∧
      n.fraction.length = places := by
  unfold pointed Numeral.joined
  dsimp only
  generalize hpadded : List.replicate (places + 1 - (Nat.toDigits 10 digits).length) '0' ++
    Nat.toDigits 10 digits = padded
  have hlength : places + 1 ≤ padded.length := by
    rw [← hpadded, List.length_append, List.length_replicate]
    omega
  have hdigit : ∀ c ∈ padded, c.isDigit := by
    intro c hc
    rw [← hpadded] at hc
    rcases List.mem_append.mp hc with hc | hc
    · rw [List.eq_of_mem_replicate hc]
      rfl
    · exact toDigits_isDigit digits c hc
  have hvalue : Nat.ofDigitChars 10 padded 0 = digits := by
    rw [← hpadded, Nat.ofDigitChars_append, Nat.ofDigitChars_replicate_zero, Nat.mul_zero,
      Nat.ofDigitChars_ten_toDigits]
  have hfraction : (padded.drop (padded.length - places)).length = places := by
    rw [List.length_drop]
    omega
  have hsome : padded.drop (padded.length - places) ≠ [] := by
    intro hnil
    rw [hnil] at hfraction
    exact absurd hfraction (Nat.ne_of_lt hplaces)
  refine ⟨⟨padded.take (padded.length - places), padded.drop (padded.length - places)⟩,
    ⟨?_, ?_, ?_⟩, ?_, ?_, hfraction⟩
  · rw [ne_eq, List.take_eq_nil_iff]
    rintro (hnone | hnil)
    · omega
    · rw [hnil] at hlength
      cases hlength
  · exact fun c hc => hdigit c (List.mem_of_mem_take hc)
  · exact fun c hc => hdigit c (List.mem_of_mem_drop hc)
  · rw [Numeral.text_of_fraction hsome]
  · rw [List.take_append_drop]
    exact hvalue

theorem magnitudeText_whole {rank whole : Nat} (h : unitsOfRank rank = whole * unitsPerOne) :
    magnitudeText rank = Nat.toDigits 10 whole := by
  unfold magnitudeText
  dsimp only
  rw [h, Nat.mul_mod_left, if_pos rfl, Nat.mul_div_cancel _ unitsPerOne_pos]

theorem magnitudeText_pointed {rank : Nat} (h : ¬ unitsPerOne ∣ unitsOfRank rank) :
    magnitudeText rank = pointed (shortestDecimal rank).1 (shortestDecimal rank).2 := by
  unfold magnitudeText
  dsimp only
  rw [if_neg (mt Nat.dvd_of_mod_eq_zero h)]

/-- The numeral of a magnitude that is not whole has the digits of the shortest decimal. -/
theorem exists_writes_joined {rank : Nat} (h : ¬ unitsPerOne ∣ unitsOfRank rank) :
    ∃ n : Numeral, n.Writes rank ∧ n.joined = (shortestDecimal rank).1 := by
  obtain ⟨hreads, hplaces, -⟩ := shortestDecimal_spec rank
  obtain ⟨n, hdigits, htext, hjoined, hlength⟩ := pointed_eq (shortestDecimal rank).1 hplaces
  refine ⟨n, ⟨hdigits, ?_, ?_⟩, hjoined⟩
  · rw [magnitudeText_pointed h, htext]
  · rw [hjoined, hlength]
    exact hreads

theorem exists_writes (rank : Nat) : ∃ n : Numeral, n.Writes rank := by
  by_cases h : unitsPerOne ∣ unitsOfRank rank
  · obtain ⟨whole, hwhole⟩ := h
    rw [Nat.mul_comm] at hwhole
    have hjoined : (⟨Nat.toDigits 10 whole, []⟩ : Numeral).joined = whole := by
      unfold Numeral.joined
      rw [List.append_nil, Nat.ofDigitChars_ten_toDigits]
    refine ⟨⟨Nat.toDigits 10 whole, []⟩, ⟨Nat.toDigits_ne_nil, toDigits_isDigit whole, nofun⟩,
      magnitudeText_whole hwhole, ?_⟩
    rw [hjoined]
    apply readsBack_exact
    rw [hwhole, List.length_nil, pow_zero, Nat.mul_one]
  · obtain ⟨n, hn, -⟩ := exists_writes_joined h
    exact ⟨n, hn⟩

/-! ## Reading back -/

namespace Number

variable {negative : Bool} {rank : Fin finiteRanks}

theorem ofDecimal_eq_finite {sign : Bool} {digits places : Nat} :
    ofDecimal negative digits places = finite sign rank ↔
      sign = negative ∧ ReadsBack rank digits places := by
  have hpower : Nat.pow 10 places = 10 ^ places := rfl
  unfold ofDecimal ofUnits ReadsBack
  rw [hpower]
  dsimp only
  generalize nearestRank (digits * unitsPerOne) (10 ^ places) = found
  by_cases h : found < finiteRanks
  · rw [dif_pos h, finite.injEq, Fin.ext_iff, eq_comm]
  · rw [dif_neg h]
    constructor
    · nofun
    · rintro ⟨-, rfl⟩
      exact absurd rank.isLt h

theorem value_eq_finite {n : Numeral} {sign : Bool} :
    n.value negative = finite sign rank ↔
      sign = negative ∧ ReadsBack rank n.joined n.fraction.length :=
  ofDecimal_eq_finite

theorem chars_finite (negative : Bool) (rank : Fin finiteRanks) :
    (finite negative rank).chars = minusIf negative ++ magnitudeText rank := rfl

/-- A finite number is written as a numeral that reads back. -/
theorem chars_eq (negative : Bool) (rank : Fin finiteRanks) :
    ∃ n : Numeral, n.Writes rank ∧ (finite negative rank).chars = minusIf negative ++ n.text := by
  obtain ⟨n, hn⟩ := exists_writes rank
  refine ⟨n, hn, ?_⟩
  rw [chars_finite, hn.text]

theorem ofText?_chars (negative : Bool) (rank : Fin finiteRanks) :
    ofText? (finite negative rank).chars = some (finite negative rank) := by
  obtain ⟨n, hn, htext⟩ := chars_eq negative rank
  rw [htext, ofText?_minusIf hn.digits, value_eq_finite.mpr ⟨rfl, hn.readsBack⟩]

/-- Of a number that is not whole, no text that reads back has fewer significant digits than the
one that is written. -/
theorem significant_le (hwhole : ¬ unitsPerOne ∣ unitsOfRank rank) {text : List Char}
    (h : ofText? text = some (finite negative rank)) :
    significant (finite negative rank).chars ≤ significant text := by
  obtain ⟨sign, n, hn, rfl, hvalue⟩ := ofText?_eq_some.mp h
  obtain ⟨-, hreads⟩ := value_eq_finite.mp hvalue.symm
  obtain ⟨zeros, hjoined⟩ := value_trim_zeros (n.whole ++ n.fraction)
  obtain ⟨shortest, hshortest, hfound⟩ := exists_writes_joined hwhole
  have hdigits : ∀ c ∈ trim (· == '0') (n.whole ++ n.fraction), c.isDigit :=
    fun c hc => hn.mem_joined (mem_of_mem_trim hc)
  unfold Numeral.joined at hreads hfound
  rw [hjoined] at hreads
  have hsize := shortestDecimal_lt hwhole (hreads.drop_zeros hwhole) (value_lt hdigits)
  rw [← hfound] at hsize
  rw [chars_finite, hshortest.text, hshortest.digits.significant_eq, hn.significant_eq]
  exact length_trim_le (fun c hc => hshortest.digits.mem_joined hc) hsize

/-! ## Sixty-four bits -/

section Bits

variable {bits : Nat}

/-- The bits of a finite number are its sign and its rank. -/
theorem ofBits_eq (small : bits < 2 ^ 64) (rank : Fin finiteRanks) (h : bits % 2 ^ 63 = rank) :
    ofBits bits = finite (2 ^ 63 ≤ bits) rank := by
  have hhalf : 2048 * binade = 2 ^ 63 := by decide
  have hsign : (bits / 2 ^ 63 % 2 == 1) = decide (2 ^ 63 ≤ bits) := by
    rw [Bool.eq_iff_iff, beq_iff_eq, decide_eq_true_iff]
    omega
  unfold ofBits
  dsimp only
  rw [hhalf, hsign]
  have hrank : bits % 2 ^ 63 < finiteRanks := h ▸ rank.isLt
  rw [dif_pos hrank]
  congr

theorem toBits_ofBits (small : bits < 2 ^ 64) (rank : Fin finiteRanks) (h : bits % 2 ^ 63 = rank) :
    (ofBits bits).toBits = bits := by
  have hhalf : 2048 * binade = 2 ^ 63 := by decide
  rw [ofBits_eq small rank h]
  unfold toBits
  by_cases hge : 2 ^ 63 ≤ bits
  · simp only [hhalf, hge, decide_true, if_true]
    omega
  · simp only [hge, decide_false, Bool.false_eq_true, if_false]
    omega

theorem isBlank_of_digit {c : Char} (h : c.isDigit) : isBlank c = false := by
  have hbounds := digit_bounds h
  simp at hbounds
  unfold isBlank isSeparator
  simp
  omega

theorem trimBlanks_eq {text : List Char} (h : ∀ c ∈ text, isBlank c = false) :
    trimBlanks text = text := by
  have hdrop (text : List Char) (h : ∀ c ∈ text, isBlank c = false) :
      text.dropWhile isBlank = text := by
    cases text with
    | nil => rfl
    | cons c rest => rw [List.dropWhile_cons_of_neg (by simp [h c List.mem_cons_self])]
  have hreverse : ∀ c ∈ text.reverse, isBlank c = false :=
    fun c hc => h c (List.mem_reverse.mp hc)
  unfold trimBlanks trim
  rw [hdrop text h, hdrop _ hreverse, List.reverse_reverse]

/-- There is no blank in a numeral. -/
theorem trimBlanks_numeral {n : Numeral} (h : n.Digits) (negative : Bool) :
    trimBlanks (minusIf negative ++ n.text) = minusIf negative ++ n.text := by
  apply trimBlanks_eq
  intro c hc
  rcases List.mem_append.mp hc with hc | hc
  · unfold minusIf at hc
    split at hc
    · cases List.mem_singleton.mp hc
      rfl
    · cases hc
  · unfold Numeral.text at hc
    split at hc
    · exact isBlank_of_digit (h.whole c hc)
    · rcases List.mem_append.mp hc with hc | hc
      · exact isBlank_of_digit (h.whole c hc)
      · rcases List.mem_cons.mp hc with rfl | hc
        · rfl
        · exact isBlank_of_digit (h.fraction c hc)

/-- Every finite number reads back, bit for bit, from the text that it is printed as. The text is
a numeral with a minus sign if the number has one, and without a sign it is a literal of that
number. A whole number is printed with all of its digits, and any other one with as few significant
digits as read back. No two numbers are printed alike. -/
theorem text_round_trip (room : Nat) (line : Int) (m : Machine) (small : bits < 2 ^ 64)
    (finite : bits % 2 ^ 63 < 2047 * 2 ^ 52) :
    let x := ofBits bits
    let negative : Bool := 2 ^ 63 ≤ bits
    (∃ n : Numeral, n.Digits ∧ x.text.toList = minusIf negative ++ n.text) ∧
      (∃ y : Number, y.toBits = bits ∧
        Builtin.call room .toNumber [.string x.text] line m = .ok (.number y) m) ∧
      (negative = false → IsLiteral x.text ∧ ∃ y : Number, y.toBits = bits ∧
        ∀ limits free at_ m', (Expr.atom ⟨.number, x.text, at_⟩).eval limits (free + 3) m' =
          .ok (.number y) m') ∧
      (∀ whole : Nat, magnitude (bits % 2 ^ 63) = whole →
        x.text.toList = minusIf negative ++ Nat.toDigits 10 whole) ∧
      ((∀ whole : Nat, magnitude (bits % 2 ^ 63) ≠ whole) → ∀ text, ofText? text = some x →
        significant x.text.toList ≤ significant text) ∧
      ∀ other, other < 2 ^ 64 → other % 2 ^ 63 < 2047 * 2 ^ 52 →
        (ofBits other).text = x.text → other = bits := by
  obtain ⟨rank, hrank⟩ : ∃ rank : Fin finiteRanks, bits % 2 ^ 63 = rank :=
    ⟨⟨bits % 2 ^ 63, finite⟩, rfl⟩
  have hx := ofBits_eq small rank hrank
  have hbits := toBits_ofBits small rank hrank
  dsimp only
  rw [hx] at hbits ⊢
  rw [hrank]
  generalize hnegative : decide (2 ^ 63 ≤ bits) = negative at *
  obtain ⟨n, hn, htext⟩ := chars_eq negative rank
  have hvalue : n.value negative = .finite negative rank :=
    value_eq_finite.mpr ⟨rfl, hn.readsBack⟩
  have hlist : (Number.finite negative rank).text.toList = minusIf negative ++ n.text := by
    unfold text
    rw [String.toList_ofList, htext]
  refine ⟨⟨n, hn.digits, hlist⟩, ⟨_, hbits, ?_⟩, ?_, ?_, ?_, ?_⟩
  · apply Builtin.call_toNumber_of_some
    rw [hlist, trimBlanks_numeral hn.digits, ofText?_minusIf hn.digits, hvalue]
  · rintro rfl
    have hplain : (Number.finite false rank).text.toList = n.text := hlist
    refine ⟨isLiteral_iff.mpr ⟨n, hn.digits, hplain⟩, _, hbits, ?_⟩
    intro limits free at_ m'
    rw [Expr.eval_numeral hn.digits hplain, hvalue]
  · intro whole hwhole
    rw [hlist, ← hn.text, magnitudeText_whole (magnitude_eq_iff.mp hwhole)]
  · intro hwhole other hother
    unfold text
    rw [String.toList_ofList]
    refine significant_le ?_ hother
    rintro ⟨whole, heq⟩
    rw [Nat.mul_comm] at heq
    exact hwhole whole (magnitude_eq_iff.mpr heq)
  · intro other hsmall hfinite hsame
    obtain ⟨rank', hrank'⟩ : ∃ rank' : Fin finiteRanks, other % 2 ^ 63 = rank' :=
      ⟨⟨other % 2 ^ 63, hfinite⟩, rfl⟩
    have hother := toBits_ofBits hsmall rank' hrank'
    rw [ofBits_eq hsmall rank' hrank'] at hother hsame
    have hchars := congrArg String.toList hsame
    unfold text at hchars
    rw [String.toList_ofList, String.toList_ofList] at hchars
    have hread := ofText?_chars (2 ^ 63 ≤ other) rank'
    rw [hchars, ofText?_chars] at hread
    cases hread
    rw [← hother, ← hbits]

/-- The number nearest to one tenth reads back. -/
theorem text_round_trip_tenth :
    ∃ y : Number, y.toBits = 0x3FB999999999999A ∧
      Builtin.call 8 .toNumber [.string (ofBits 0x3FB999999999999A).text] 1 (.start "" 0) =
        .ok (.number y) (.start "" 0) :=
  (text_round_trip 8 1 (.start "" 0) (by decide) (by decide)).2.1

example : (ofBits 0x3FB999999999999A).text = "0.1" := by decide +kernel

end Bits

end Number
end FunkLang
