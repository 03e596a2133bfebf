-- Indexing. The numbers at which a list or a string can be read are those of the range over its
-- length, and an element of a list can be replaced at the same ones. The iter of a collection
-- holds what is read at these numbers, in order. All of this is so as long as the length is small
-- enough for the natural numbers up to it to be exact.
import FunkLang.Proofs.Operations
import FunkLang.Proofs.Rounding

namespace FunkLang

/-! ## Exact natural numbers -/

namespace Number

variable {k : Nat}

theorem two_pow_dvd_unitsPerOne {exponent : Nat} (h : exponent ≤ 1074) :
    2 ^ exponent ∣ unitsPerOne := by
  rw [unitsPerOne_eq]
  generalize 1074 = places at *
  exact pow_dvd_pow 2 h

/-- A natural number below two to the power of 53 has its exact size. -/
theorem unitsOfRank_ofNat (hk : k < 2 ^ 53) :
    unitsOfRank (nearestRank (k * unitsPerOne) 1) = k * unitsPerOne := by
  have hsize : k * unitsPerOne < 2 ^ (53 + 1074) := by
    rw [pow_add, ← unitsPerOne_eq]
    exact Nat.mul_lt_mul_of_pos_right hk unitsPerOne_pos
  have hlog : (k * unitsPerOne).log2 - 52 ≤ 1074 := by
    by_cases hzero : k * unitsPerOne = 0
    · rw [hzero, Nat.log2_zero]
      exact Nat.zero_le _
    · have hlt := (Nat.log2_lt hzero).mpr hsize
      omega
  have hunits := unitsOfRank_nearestRank (k * unitsPerOne) Nat.one_pos
  rw [hunits, Nat.div_one, Nat.one_mul]
  apply roundHalfEven_of_dvd (Nat.two_pow_pos _)
  exact Nat.dvd_mul_left_of_dvd (two_pow_dvd_unitsPerOne hlog) k

theorem nearestRank_ofNat_lt (hk : k < 2 ^ 53) :
    nearestRank (k * unitsPerOne) 1 < finiteRanks := by
  have hrounds := nearestRank_roundsTo (k * unitsPerOne) Nat.one_pos
  have hone : (unitsPerOne : ℚ) ≠ 0 := Nat.cast_ne_zero.mpr unitsPerOne_pos.ne'
  rw [hrounds.lt_overflow, Nat.cast_mul, Nat.cast_one, div_one, mul_div_cancel_right₀ _ hone]
  have hcast : (k : ℚ) < 2 ^ 53 := by exact_mod_cast hk
  have hlarge : (2 : ℚ) ^ 53 ≤ overflow := by
    have hsplit : (2 : ℚ) ^ 1024 = 2 ^ 54 * 2 ^ 970 := by
      rw [← pow_add]
    have hpower : (1 : ℚ) ≤ 2 ^ 970 := one_le_pow₀ (by norm_num)
    unfold overflow
    rw [hsplit]
    clear hsplit
    generalize (2 : ℚ) ^ 970 = power at *
    linarith
  exact lt_of_lt_of_le hcast hlarge

theorem ofNat_eq_finite (hk : k < 2 ^ 53) :
    ∃ rank : Fin finiteRanks, ofNat k = finite false rank ∧
      unitsOfRank rank = k * unitsPerOne := by
  refine ⟨⟨_, nearestRank_ofNat_lt hk⟩, ?_, unitsOfRank_ofNat hk⟩
  unfold ofNat ofUnits
  exact dif_pos (nearestRank_ofNat_lt hk)

theorem toNat?_finite {negative : Bool} {rank : Fin finiteRanks} :
    (finite negative rank).toNat? = some k ↔
      unitsOfRank rank = k * unitsPerOne ∧ (negative = true → rank.val = 0) := by
  have hone := unitsPerOne_pos
  have hdvd : unitsOfRank rank % unitsPerOne = 0 ∧ unitsOfRank rank / unitsPerOne = k ↔
      unitsOfRank rank = k * unitsPerOne := by
    constructor
    · rintro ⟨hmod, rfl⟩
      exact (Nat.div_mul_cancel (Nat.dvd_of_mod_eq_zero hmod)).symm
    · intro hunits
      rw [hunits, Nat.mul_mod_left, Nat.mul_div_cancel k hone]
      exact ⟨rfl, rfl⟩
  rw [← hdvd]
  unfold toNat?
  cases negative <;> by_cases hmod : unitsOfRank rank % unitsPerOne = 0 <;>
    by_cases hzero : rank.val = 0 <;> simp [hmod, hzero]

/-- To be equal to a natural number is to be that number, or its negative if it is zero. -/
theorem same_ofNat_iff (hk : k < 2 ^ 53) (n : Number) :
    n.same (ofNat k) = true ↔ n.toNat? = some k := by
  obtain ⟨rank, hrank, hunits⟩ := ofNat_eq_finite hk
  rw [hrank]
  cases n with
  | nan => simp [same, compareBy, place?, toNat?]
  | infinite negative =>
    have hlt := rank.isLt
    cases negative <;> (simp [same, compareBy, place?, toNat?]; omega)
  | finite negative other =>
    rw [toNat?_finite, ← hunits, unitsOfRank_inj]
    cases negative with
    | false => simp [same, compareBy, place?]
    | true =>
      simp [same, compareBy, place?]
      omega

theorem toNat?_ofNat (hk : k < 2 ^ 53) : (ofNat k).toNat? = some k := by
  obtain ⟨rank, hrank, hunits⟩ := ofNat_eq_finite hk
  rw [hrank, toNat?_finite]
  exact ⟨hunits, fun h => absurd h Bool.false_ne_true⟩

theorem exists_of_toNat? {n : Number} (h : n.toNat? = some k) :
    ∃ negative rank, n = finite negative rank := by
  cases n with
  | nan => cases h
  | infinite negative => cases h
  | finite negative rank => exact ⟨negative, rank, rfl⟩

/-- Numbers that are one natural number are equal. -/
theorem same_of_toNat? {n other : Number} (hn : n.toNat? = some k) (ho : other.toNat? = some k) :
    other.same n = true := by
  obtain ⟨negative, rank, rfl⟩ := exists_of_toNat? hn
  obtain ⟨sign, place, rfl⟩ := exists_of_toNat? ho
  rw [toNat?_finite] at hn ho
  have hranks : place.val = rank.val := unitsOfRank_inj.mp (ho.1.trans hn.1.symm)
  cases negative <;> cases sign <;> simp_all [same, compareBy, place?]

end Number

/-! ## Reading -/

/-- A number is equal to one of these elements. -/
def Number.IsAmong (n : Number) (elements : Array Value) : Prop :=
  ∃ k, .number k ∈ elements ∧ n.same k = true

/-- The elements of a list, or the characters of a string. -/
def Value.items? (h : Heap) : Value → Option (List Value)
  | list i => some (h.list i).toList
  | string s => some (s.toList.map fun c => string c.toString)
  | _ => none

section Reading

variable {m : Machine} {x : Value} {items : List Value} {n : Number} {k room : Nat} {at_ : Expr}
  {line : Int}

theorem items?_cases (hx : x.items? m.heap = some items) :
    (∃ i, x = .list i ∧ items = (m.heap.list i).toList) ∨
      ∃ s, x = .string s ∧ items = s.toList.map fun c => .string c.toString := by
  cases x with
  | list i => exact Or.inl ⟨i, rfl, (Option.some_inj.mp hx).symm⟩
  | string s => exact Or.inr ⟨s, rfl, (Option.some_inj.mp hx).symm⟩
  | _ => cases hx

theorem slot_of_lt {length : Nat} (hn : n.toNat? = some k) (hk : k < length) :
    Run.slot length (.number n) line m = .ok k m := by
  simp only [Run.slot, hn, if_pos hk]
  rfl

theorem slot_of_not {length : Nat} (hn : ∀ k, n.toNat? = some k → ¬ k < length) :
    Run.slot length (.number n) line m =
      .error (.fault ⟨.outOfRange n length, some line⟩) m := by
  cases hnat : n.toNat? with
  | none =>
    simp only [Run.slot, hnat]
    rfl
  | some k =>
    simp only [Run.slot, hnat, if_neg (hn k hnat)]
    rfl

/-- Reading at a natural number that is less than the length gives what is there. -/
theorem element_of_lt (hx : x.items? m.heap = some items) (hn : n.toNat? = some k)
    (hk : k < items.length) : Run.element at_ x (.number n) m = .ok items[k] m := by
  rcases items?_cases hx with ⟨i, rfl, rfl⟩ | ⟨s, rfl, rfl⟩
  · have hslot : Run.slot (m.heap.list i).size (.number n) at_.line m = .ok k m :=
      slot_of_lt hn hk
    refine (bind_of_ok (x := get) rfl).trans ((bind_of_ok hslot).trans ?_)
    rw [Array.getElem?_eq_getElem hk]
    rfl
  · rw [List.length_map] at hk
    refine (bind_of_ok (slot_of_lt hn hk)).trans ?_
    rw [List.getElem?_eq_getElem hk, List.getElem_map]
    rfl

/-- Reading at any other number fails. -/
theorem element_of_not (hx : x.items? m.heap = some items)
    (hn : ∀ k, n.toNat? = some k → ¬ k < items.length) :
    Run.element at_ x (.number n) m =
      .error (.fault ⟨.outOfRange n items.length, some at_.line⟩) m := by
  rcases items?_cases hx with ⟨i, rfl, rfl⟩ | ⟨s, rfl, rfl⟩
  · exact (bind_of_ok (x := get) rfl).trans (bind_of_error (slot_of_not hn))
  · rw [List.length_map] at hn ⊢
    exact bind_of_error (slot_of_not hn)

theorem element_eq_ok_iff (hx : x.items? m.heap = some items) {v : Value} :
    Run.element at_ x (.number n) m = .ok v m ↔
      ∃ k, n.toNat? = some k ∧ items[k]? = some v := by
  constructor
  · intro h
    by_cases hn : ∃ k, n.toNat? = some k ∧ k < items.length
    · obtain ⟨k, hn, hk⟩ := hn
      rw [element_of_lt hx hn hk, EStateM.Result.ok.injEq] at h
      exact ⟨k, hn, List.getElem?_eq_some_iff.mpr ⟨hk, h.1⟩⟩
    · rw [element_of_not hx fun k hk hlt => hn ⟨k, hk, hlt⟩] at h
      cases h
  · rintro ⟨k, hn, hv⟩
    obtain ⟨hk, rfl⟩ := List.getElem?_eq_some_iff.mp hv
    exact element_of_lt hx hn hk

theorem element_ok_iff (hx : x.items? m.heap = some items) :
    (∃ v, Run.element at_ x (.number n) m = .ok v m) ↔
      ∃ k, n.toNat? = some k ∧ k < items.length := by
  simp only [element_eq_ok_iff hx]
  constructor
  · rintro ⟨v, k, hn, hv⟩
    exact ⟨k, hn, (List.getElem?_eq_some_iff.mp hv).1⟩
  · rintro ⟨k, hn, hk⟩
    exact ⟨items[k], k, hn, List.getElem?_eq_getElem hk⟩

/-! ## Lengths, ranges and iters -/

theorem call_len (hx : x.items? m.heap = some items) :
    Builtin.len.call room [x] line m = .ok (.number (.ofNat items.length)) m := by
  rcases items?_cases hx with ⟨i, rfl, rfl⟩ | ⟨s, rfl, rfl⟩
  · rfl
  · rw [List.length_map, String.length_toList]
    rfl

theorem call_len_iter (i : Nat) :
    Builtin.len.call room [.iter i] line m = .ok (.number (.ofNat (m.heap.iter i).size)) m := rfl

/-- A new iter, which holds these elements. -/
theorem exists_iter (m : Machine) (elements : Array Value) :
    ∃ i m1, Run.allocate (·.addIter elements) m = .ok (.iter i) m1 ∧
      m1.heap.iter i = elements :=
  ⟨m.heap.iters.size, { m with heap := (m.heap.addIter elements).2 }, rfl,
    (Heap.iter_addIter elements).trans (if_pos rfl)⟩

theorem call_iter (hx : x.items? m.heap = some items) :
    Builtin.iter.call room [x] line m = Run.allocate (·.addIter items.toArray) m := by
  rcases items?_cases hx with ⟨i, rfl, rfl⟩ | ⟨s, rfl, rfl⟩
  · rfl
  · rfl

theorem call_rangeTo (hn : n.toNat? = some k) :
    Builtin.rangeTo.call room [.number n] line m =
      Run.allocate (·.addIter (Builtin.progression 0 k 1)) m := by
  have hbound : Builtin.bound .rangeTo (.number n) line m = .ok k m := by
    simp only [Builtin.bound, hn]
    rfl
  refine (bind_of_ok hbound).trans ?_
  unfold Builtin.rangeIter
  rw [if_neg (Nat.not_lt_zero k), if_neg Nat.one_ne_zero]

theorem mem_progression {v : Value} :
    v ∈ Builtin.progression 0 k 1 ↔ ∃ i < k, v = .number (.ofNat i) := by
  unfold Builtin.progression
  simp only [Array.mem_map, Array.mem_range, Nat.mul_one, Nat.zero_add, Nat.sub_zero,
    Nat.add_sub_cancel, Nat.div_one, eq_comm]

/-- The numbers of a range from zero are the natural numbers below its end. -/
theorem isAmong_progression (hk : k < 2 ^ 53) :
    n.IsAmong (Builtin.progression 0 k 1) ↔ ∃ i, n.toNat? = some i ∧ i < k := by
  constructor
  · rintro ⟨p, hp, hsame⟩
    obtain ⟨i, hi, heq⟩ := mem_progression.mp hp
    cases heq
    exact ⟨i, (Number.same_ofNat_iff (hi.trans hk) n).mp hsame, hi⟩
  · rintro ⟨i, hn, hi⟩
    have hsame := (Number.same_ofNat_iff (hi.trans hk) n).mpr hn
    exact ⟨.ofNat i, mem_progression.mpr ⟨i, hi, rfl⟩, hsame⟩

end Reading

/-! ## Replacing -/

section Replacing

variable {m : Machine} {i k : Nat} {n : Number} {v : Value} {at_ : Expr}

/-- The machine after an element of a list is replaced. -/
def Machine.withElement (m : Machine) (i slot : Nat) (v : Value) : Machine :=
  { m with heap := m.heap.setElement i slot v }

theorem items?_withElement (m : Machine) (i k : Nat) (v : Value) :
    (Value.list i).items? (m.withElement i k v).heap = some ((m.heap.list i).toList.set k v) := by
  have hself := Heap.list_setElement_self (h := m.heap) (i := i) k v
  refine (congrArg (fun elements : Array Value => some elements.toList) hself).trans ?_
  rw [Array.toList_setIfInBounds]

theorem setElement_of_lt (hn : n.toNat? = some k) (hk : k < (m.heap.list i).size) :
    Run.setElement at_ (.list i) (.number n) v m = .ok v (m.withElement i k v) := by
  refine (bind_of_ok (x := get) rfl).trans ?_
  exact (bind_of_ok (slot_of_lt hn hk)).trans rfl

theorem setElement_of_not (hn : ∀ k, n.toNat? = some k → ¬ k < (m.heap.list i).size) :
    Run.setElement at_ (.list i) (.number n) v m =
      .error (.fault ⟨.outOfRange n (m.heap.list i).size, some at_.line⟩) m := by
  refine (bind_of_ok (x := get) rfl).trans ?_
  exact bind_of_error (slot_of_not hn)

theorem setElement_eq_ok_iff {w : Value} {m' : Machine} :
    Run.setElement at_ (.list i) (.number n) v m = .ok w m' ↔
      ∃ k, n.toNat? = some k ∧ k < (m.heap.list i).size ∧ w = v ∧ m' = m.withElement i k v := by
  constructor
  · intro h
    by_cases hn : ∃ k, n.toNat? = some k ∧ k < (m.heap.list i).size
    · obtain ⟨k, hn, hk⟩ := hn
      rw [setElement_of_lt hn hk, EStateM.Result.ok.injEq] at h
      exact ⟨k, hn, hk, h.1.symm, h.2.symm⟩
    · rw [setElement_of_not fun k hk hlt => hn ⟨k, hk, hlt⟩] at h
      cases h
  · rintro ⟨k, hn, hk, rfl, rfl⟩
    exact setElement_of_lt hn hk

end Replacing

/-! ## All together -/

/-- After the element at a number has been replaced: it is the new value, and what is read at any
other number is what it was. -/
structure Replaced (at_ : Expr) (x : Value) (n : Number) (v : Value) (m m' : Machine) : Prop where
  self : Run.element at_ x (.number n) m' = .ok v m'
  others : ∀ k, k.same n = false → ∀ w,
    Run.element at_ x (.number k) m' = .ok w m' ↔ Run.element at_ x (.number k) m = .ok w m
  length : ∀ room line size, Builtin.len.call room [x] line m = .ok size m →
    Builtin.len.call room [x] line m' = .ok size m'

theorem replaced_withElement {m : Machine} {i k : Nat} {n : Number} (v : Value) (at_ : Expr)
    (hn : n.toNat? = some k) (hk : k < (m.heap.list i).size) :
    Replaced at_ (.list i) n v m (m.withElement i k v) where
  self := by
    rw [element_eq_ok_iff (items?_withElement m i k v)]
    exact ⟨k, hn, List.getElem?_set_self hk⟩
  others other hother w := by
    rw [element_eq_ok_iff (items?_withElement m i k v), element_eq_ok_iff rfl]
    have hne : ∀ place, other.toNat? = some place → k ≠ place := by
      rintro place hplace rfl
      rw [Number.same_of_toNat? hn hplace] at hother
      cases hother
    constructor
    · rintro ⟨place, hplace, hw⟩
      rw [List.getElem?_set_ne (hne place hplace)] at hw
      exact ⟨place, hplace, hw⟩
    · rintro ⟨place, hplace, hw⟩
      refine ⟨place, hplace, ?_⟩
      rw [List.getElem?_set_ne (hne place hplace)]
      exact hw
  length room line size h := by
    rw [call_len rfl, EStateM.Result.ok.injEq] at h
    rw [call_len (items?_withElement m i k v), List.length_set, h.1]

theorem join_characters (s : String) : String.join (s.toList.map fun c => c.toString) = s := by
  apply String.toList_inj.mp
  rw [String.toList_join, List.flatMap_map]
  simp

/-- A list or a string of less than two to the power of 53 items can be read at the numbers of the
range over its length, and at no others. Its iter holds what is read there, in order, and is as
long; for a string, this put together is the string. An element of a list can be replaced at the
same numbers, and nothing else of the list changes. -/
theorem indexing_ranges_iters_and_lengths_agree {m : Machine} {x : Value} {items : List Value}
    (hx : x.items? m.heap = some items) (hsize : items.length < 2 ^ 53) (at_ : Expr) (room : Nat)
    (line : Int) :
    ∃ length range iter m1 m2,
      Builtin.len.call room [x] line m = .ok (.number length) m ∧
      Builtin.rangeTo.call room [.number length] line m = .ok (.iter range) m1 ∧
      Builtin.iter.call room [x] line m = .ok (.iter iter) m2 ∧
      Builtin.len.call room [.iter iter] line m2 = .ok (.number length) m2 ∧
      length.toNat? = some (m2.heap.iter iter).size ∧
      (∀ n, ((∃ v, Run.element at_ x (.number n) m = .ok v m) ↔ n.IsAmong (m1.heap.iter range)) ∧
        (¬ n.IsAmong (m1.heap.iter range) → Run.element at_ x (.number n) m =
          .error (.fault ⟨.outOfRange n items.length, some at_.line⟩) m)) ∧
      (∀ k v, (m2.heap.iter iter)[k]? = some v →
        Run.element at_ x (.number (.ofNat k)) m = .ok v m) ∧
      (∀ s, x = .string s → ∃ texts, (m2.heap.iter iter).toList = texts.map Value.string ∧
        String.join texts = s) ∧
      ∀ i, x = .list i → ∀ n v,
        ((∃ w m', Run.setElement at_ x (.number n) v m = .ok w m') ↔
          ∃ w, Run.element at_ x (.number n) m = .ok w m) ∧
        ∀ w m', Run.setElement at_ x (.number n) v m = .ok w m' →
          w = v ∧ Replaced at_ x n v m m' := by
  have hlength := Number.toNat?_ofNat hsize
  obtain ⟨range, m1, hrange, hnumbers⟩ := exists_iter m (Builtin.progression 0 items.length 1)
  obtain ⟨iter, m2, hiter, hitems⟩ := exists_iter m items.toArray
  have hsame : (m2.heap.iter iter).size = items.length := congrArg Array.size hitems
  refine ⟨.ofNat items.length, range, iter, m1, m2, call_len hx,
    (call_rangeTo hlength).trans hrange, (call_iter hx).trans hiter, ?_, ?_, fun n => ?_,
    fun k v hv => ?_, fun s hs => ?_, fun i hi n v => ?_⟩
  · rw [call_len_iter, hsame]
  · rw [hsame, hlength]
  · rw [hnumbers, isAmong_progression hsize]
    refine ⟨element_ok_iff hx, fun hn => element_of_not hx fun k hk hlt => ?_⟩
    exact hn ⟨k, hk, hlt⟩
  · rw [hitems, List.getElem?_toArray] at hv
    have hk := (List.getElem?_eq_some_iff.mp hv).1
    exact (element_eq_ok_iff hx).mpr ⟨k, Number.toNat?_ofNat (hk.trans hsize), hv⟩
  · subst hs
    cases hx
    refine ⟨s.toList.map fun c => c.toString, ?_, join_characters s⟩
    rw [hitems, List.map_map]
    rfl
  · subst hi
    have hlist : (Value.list i).items? m.heap = some (m.heap.list i).toList := rfl
    simp only [setElement_eq_ok_iff, element_ok_iff hlist, Array.length_toList]
    constructor
    · constructor
      · rintro ⟨w, m', k, hn, hk, -, -⟩
        exact ⟨k, hn, hk⟩
      · rintro ⟨k, hn, hk⟩
        exact ⟨v, _, k, hn, hk, rfl, rfl⟩
    · rintro w m' ⟨k, hn, hk, rfl, rfl⟩
      exact ⟨rfl, replaced_withElement w at_ hn hk⟩

theorem a_list_of_two_is_indexed_by_its_range :
    let m := { Machine.start "" 0 with heap := (Heap.empty.addList #[.nil, .bool true]).2 }
    let at_ := Expr.atom ⟨.name, "pair", 1⟩
    (Value.list 0).items? m.heap = some [.nil, .bool true] ∧
      [Value.nil, .bool true].length < 2 ^ 53 ∧
      ∃ length range m1, Builtin.len.call 0 [.list 0] 1 m = .ok (.number length) m ∧
        Builtin.rangeTo.call 0 [.number length] 1 m = .ok (.iter range) m1 ∧
        ∀ n, ((∃ v, Run.element at_ (.list 0) (.number n) m = .ok v m) ↔
            n.IsAmong (m1.heap.iter range)) ∧
          ((∃ w m', Run.setElement at_ (.list 0) (.number n) .nil m = .ok w m') ↔
            ∃ v, Run.element at_ (.list 0) (.number n) m = .ok v m) := by
  intro m at_
  have hx : (Value.list 0).items? m.heap = some [.nil, .bool true] := rfl
  obtain ⟨length, range, _, m1, _, hlength, hrange, -, -, -, hread, -, -, hreplace⟩ :=
    indexing_ranges_iters_and_lengths_agree hx (by decide) at_ 0 1
  refine ⟨hx, by decide, length, range, m1, hlength, hrange, fun n => ⟨(hread n).1, ?_⟩⟩
  exact (hreplace 0 rfl n .nil).1

end FunkLang
