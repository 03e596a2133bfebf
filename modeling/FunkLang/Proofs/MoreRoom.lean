-- Texts and comparisons at more room. One that fits into some room comes out
-- the same in every greater one, and each fits into some room unless there is
-- a value that contains itself.
import FunkLang.Value.Equality
import FunkLang.Value.Rendering
import Mathlib.Data.Set.Finite.Lattice
import Mathlib.Order.Interval.Finset.Nat
import Mathlib.Order.Interval.Set.Nat
import Mathlib.Order.WellFounded
import Mathlib.Tactic.ByContra

namespace FunkLang

/-! ## Lists -/

theorem mapM_mono {α β : Type} {f g : α → Option β} (h : ∀ a b, f a = some b → g a = some b)
    {items : List α} {all : List β} (hall : items.mapM f = some all) :
    items.mapM g = some all := by
  induction items generalizing all with
  | nil => exact hall
  | cons a rest ih =>
    rw [List.mapM_cons] at hall ⊢
    simp only [Option.bind_eq_bind, Option.bind_eq_some_iff] at hall ⊢
    obtain ⟨b, hb, bs, hbs, hpure⟩ := hall
    exact ⟨b, h a b hb, bs, ih hbs, hpure⟩

/-- What is made of each item in some room is made of all of them in one room. -/
theorem mapM_of_room {α β : Type} {f : Nat → α → Option β}
    (mono : ∀ a b room more, f room a = some b → room ≤ more → f more a = some b)
    {items : List α} (each : ∀ a ∈ items, ∃ room b, f room a = some b) :
    ∃ room all, items.mapM (f room) = some all := by
  induction items with
  | nil => exact ⟨0, [], rfl⟩
  | cons a rest ih =>
    obtain ⟨room, b, hb⟩ := each a List.mem_cons_self
    obtain ⟨room', bs, hbs⟩ := ih fun a ha => each a (List.mem_cons_of_mem _ ha)
    refine ⟨max room room', b :: bs, ?_⟩
    rw [List.mapM_cons]
    rw [mono a b _ _ hb (Nat.le_max_left _ _)]
    rw [mapM_mono (fun a b h => mono a b _ _ h (Nat.le_max_right room room')) hbs]
    rfl

/-! ## Texts -/

namespace Value

/-- A text that fits is the same in any greater room. -/
theorem text?_mono {h : Heap} {v : Value} {room more : Nat} {t : String}
    (ht : v.text? h room = some t) (hle : room ≤ more) : v.text? h more = some t := by
  induction room using Nat.strongRecOn generalizing v more t with
  | ind room ih =>
    have parts {r r' : Nat} (hr : r < room) (hle : r ≤ r') {items : List Value}
        {texts : List String} (htexts : items.mapM (text? h r) = some texts) :
        items.mapM (text? h r') = some texts :=
      mapM_mono (fun _ _ ht => ih r hr ht hle) htexts
    cases v with
    | list i | iter i =>
      match room, more, hle with
      | 0, _, _ | 1, _, _ | 2, _, _ => simp [text?] at ht
      | r + 3, r' + 3, hle =>
        simp only [text?, Option.bind_eq_bind, Option.bind_eq_some_iff] at ht ⊢
        obtain ⟨texts, htexts, hpure⟩ := ht
        exact ⟨texts, parts (by omega) (by omega) htexts, hpure⟩
    | record i =>
      match room, more, hle with
      | 0, _, _ => simp [text?] at ht
      | r + 1, r' + 1, hle =>
        simp only [text?, Option.bind_eq_bind, Option.bind_eq_some_iff] at ht ⊢
        obtain ⟨texts, htexts, hpure⟩ := ht
        refine ⟨texts, mapM_mono (fun entry text htext => ?_) htexts, hpure⟩
        obtain ⟨part, hpart, rfl⟩ := Option.map_eq_some_iff.mp htext
        exact Option.map_eq_some_iff.mpr ⟨part, ih r (by omega) hpart (by omega), rfl⟩
    | _ =>
      match room, more, hle with
      | 0, _, _ => simp [text?] at ht
      | r + 1, r' + 1, _ => simpa only [text?] using ht

end Value

/-! ## Comparisons -/

theorem allSame_mono {f g : Value → Value → Option Bool}
    (h : ∀ x y b, f x y = some b → g x y = some b) {xs ys : List Value} {b : Bool}
    (hb : allSame f xs ys = some b) : allSame g xs ys = some b := by
  induction xs generalizing ys with
  | nil => cases ys <;> exact hb
  | cons x xs ih =>
    cases ys with
    | nil => exact hb
    | cons y ys =>
      unfold allSame at hb ⊢
      cases hxy : f x y with
      | none =>
        rw [hxy] at hb
        cases hb
      | some same =>
        rw [hxy] at hb
        rw [h x y same hxy]
        cases same with
        | true => exact ih hb
        | false => exact hb

theorem sameElements_mono {f g : Value → Value → Option Bool}
    (h : ∀ x y b, f x y = some b → g x y = some b) {xs ys : Array Value} {b : Bool}
    (hb : sameElements f xs ys = some b) : sameElements g xs ys = some b := by
  unfold sameElements at hb ⊢
  by_cases hsize : xs.size = ys.size
  · rw [if_pos hsize] at hb ⊢
    exact allSame_mono h hb
  · rwa [if_neg hsize] at hb ⊢

theorem sameFields_mono {f g : Value → Value → Option Bool}
    (h : ∀ x y b, f x y = some b → g x y = some b) {xs ys : Table Value} {b : Bool}
    (hb : sameFields f xs ys = some b) : sameFields g xs ys = some b := by
  unfold sameFields at hb ⊢
  split at hb
  · rename_i hnames
    rw [if_pos hnames]
    exact allSame_mono h hb
  · rename_i hnames
    rwa [if_neg hnames]

/-- A comparison that looks into no parts needs no room. -/
theorem Value.same?_plain (h : Heap) {v w : Value}
    (plain : v.kind ≠ w.kind ∨ v.kind ∉ [ValueKind.list, .iter, .record]) (room : Nat) :
    v.same? h room w = some ((v.same? h 0 w).getD false) := by
  cases v <;> cases w <;> first
    | simp [kind] at plain; done
    | simp only [same?, Option.getD_some]

/-- A comparison that fits is the same in any greater room. -/
theorem Value.same?_mono {h : Heap} {v w : Value} {room more : Nat} {b : Bool}
    (hb : v.same? h room w = some b) (hle : room ≤ more) : v.same? h more w = some b := by
  induction room using Nat.strongRecOn generalizing v w more b with
  | ind room ih =>
    by_cases plain : v.kind ≠ w.kind ∨ v.kind ∉ [ValueKind.list, .iter, .record]
    · rwa [same?_plain h plain more, ← same?_plain h plain room]
    · rw [not_or, not_not, not_not] at plain
      obtain ⟨hkind, hmem⟩ := plain
      match room, more, hle with
      | 0, _, _ | 1, _, _ | 2, _, _ => cases v <;> cases w <;> simp [kind, same?] at hkind hmem hb
      | r + 3, r' + 3, hle =>
        have inner (x y : Value) (c : Bool) (hc : x.same? h r y = some c) :
            x.same? h r' y = some c := ih r (by omega) hc (by omega)
        cases v <;> cases w <;> simp only [kind, reduceCtorEq] at hkind <;>
          simp only [same?] at hb ⊢
        case list => exact sameElements_mono inner hb
        case iter => exact sameElements_mono inner hb
        case record => exact sameFields_mono inner hb
        all_goals exact hb

/-! ## Values that contain themselves -/

namespace Value

/-- The elements and fields of a value. -/
def parts (h : Heap) : Value → List Value
  | list i => (h.list i).toList
  | iter i => (h.iter i).toList
  | record i => (h.record i).entries.map (·.2)
  | _ => []

/-- A value is an element or a field of itself, or of one of its own, and so on. -/
def ContainsItself (h : Heap) (v : Value) : Prop :=
  Relation.TransGen (fun part whole => part ∈ whole.parts h) v v

/-- Only the objects of the heap have parts. -/
theorem finite_of_parts (h : Heap) : {v : Value | v.parts h ≠ []}.Finite := by
  refine Set.Finite.subset (s := (list '' Set.Iio h.lists.size) ∪ (iter '' Set.Iio h.iters.size) ∪
    (record '' Set.Iio h.records.size)) (Set.toFinite _) ?_
  intro v hv
  cases v with
  | list i =>
    by_cases hi : i < h.lists.size
    · exact Or.inl (Or.inl ⟨i, hi, rfl⟩)
    · exact absurd (by simp [parts, Heap.list, hi]) hv
  | iter i =>
    by_cases hi : i < h.iters.size
    · exact Or.inl (Or.inr ⟨i, hi, rfl⟩)
    · exact absurd (by simp [parts, Heap.iter, hi]) hv
  | record i =>
    by_cases hi : i < h.records.size
    · exact Or.inr ⟨i, hi, rfl⟩
    · exact absurd (by simp [parts, Heap.record, hi, Table.empty]) hv
  | _ => exact absurd rfl hv

/-- A value is the other one, an element or a field of it, or of one of its own, and so on. -/
def Within (h : Heap) (part whole : Value) : Prop :=
  Relation.ReflTransGen (fun part whole => part ∈ whole.parts h) part whole

/-- Where nothing inside a value contains itself, the way down from it ends. -/
theorem acc_of_within {h : Heap} {v : Value}
    (grounded : ∀ w : Value, w.Within h v → ¬ w.ContainsItself h) :
    Acc (fun part whole : Value => part ∈ whole.parts h) v := by
  by_contra hacc
  obtain ⟨down, rfl, hdown⟩ := not_acc_iff_exists_descending_chain.mp hacc
  have below : ∀ i j, i < j → Relation.TransGen (fun part whole => part ∈ whole.parts h)
      (down j) (down i) := by
    intro i j hij
    induction j, hij using Nat.le_induction with
    | base => exact .single (hdown i)
    | succ j _ ih => exact .head (hdown j) ih
  have inside (i : Nat) : (down i).Within h (down 0) := by
    rcases i.eq_zero_or_pos with rfl | hi
    · exact .refl
    · exact (below 0 i hi).to_reflTransGen
  have inj : Function.Injective down := by
    intro i j heq
    rcases Nat.lt_trichotomy i j with hlt | rfl | hlt
    · have hloop := below i j hlt
      rw [← heq] at hloop
      exact absurd hloop (grounded _ (inside i))
    · rfl
    · have hloop := below j i hlt
      rw [heq] at hloop
      exact absurd hloop (grounded _ (inside j))
  refine Set.infinite_of_injective_forall_mem inj (fun i => ?_) (finite_of_parts h)
  exact List.ne_nil_of_mem (hdown i)

/-- Where no value contains itself, the way down from any value ends. -/
theorem acc_of_grounded {h : Heap} (grounded : ∀ v : Value, ¬ v.ContainsItself h) (v : Value) :
    Acc (fun part whole : Value => part ∈ whole.parts h) v :=
  acc_of_within fun w _ => grounded w

end Value

/-- There is a value that contains itself. -/
def Heap.Bottomless (h : Heap) : Prop := ∃ v : Value, v.ContainsItself h

/-! ## Where everything fits -/

section Fits

variable {h : Heap}

theorem comparisons_of_room {xs : List Value}
    (each : ∀ x ∈ xs, ∀ y, ∃ room b, x.same? h room y = some b) (ys : List Value) :
    ∃ room b, allSame (Value.same? h room) xs ys = some b := by
  induction xs generalizing ys with
  | nil => cases ys <;> exact ⟨0, _, rfl⟩
  | cons x xs ih =>
    cases ys with
    | nil => exact ⟨0, false, rfl⟩
    | cons y ys =>
      obtain ⟨room, b, hb⟩ := each x List.mem_cons_self y
      cases b with
      | false => exact ⟨room, false, by simp only [allSame, hb]⟩
      | true =>
        obtain ⟨room', b', hb'⟩ := ih (fun w hw => each w (List.mem_cons_of_mem _ hw)) ys
        refine ⟨max room room', b', ?_⟩
        simp only [allSame]
        rw [Value.same?_mono hb (Nat.le_max_left _ _)]
        exact allSame_mono (fun _ _ _ h => Value.same?_mono h (Nat.le_max_right _ _)) hb'

/-- A value has a text, unless there is one that contains itself. -/
theorem Value.has_text (grounded : ¬ h.Bottomless) (v : Value) :
    ∃ room t, v.text? h room = some t := by
  induction acc_of_grounded (fun v hv => grounded ⟨v, hv⟩) v with
  | intro v _ ih =>
    have mono (w : Value) (t : String) (room more : Nat) (ht : w.text? h room = some t)
        (hle : room ≤ more) : w.text? h more = some t := text?_mono ht hle
    cases v with
    | list i | iter i =>
      obtain ⟨room, texts, htexts⟩ := mapM_of_room mono ih
      simp only [parts] at htexts
      exact ⟨room + 3, _, by simp only [text?, htexts]; rfl⟩
    | record i =>
      have fields : ∀ entry ∈ (h.record i).entries, ∃ room text,
          ((text? h room entry.2).map fun text => entry.1 ++ ":" ++ text) = some text := by
        intro entry hentry
        obtain ⟨room, t, ht⟩ := ih entry.2 (List.mem_map.mpr ⟨entry, hentry, rfl⟩)
        exact ⟨room, entry.1 ++ ":" ++ t, by rw [ht]; rfl⟩
      obtain ⟨room, texts, htexts⟩ := mapM_of_room (fun entry text room more ht hle => by
        obtain ⟨t, ht', rfl⟩ := Option.map_eq_some_iff.mp ht
        exact Option.map_eq_some_iff.mpr ⟨t, text?_mono ht' hle, rfl⟩) fields
      exact ⟨room + 1, _, by simp only [text?, htexts]; rfl⟩
    | _ => exact ⟨1, _, rfl⟩

/-- Two values can be compared, unless there is one that contains itself. -/
theorem Value.has_comparison (grounded : ¬ h.Bottomless) (v w : Value) :
    ∃ room b, v.same? h room w = some b := by
  induction acc_of_grounded (fun v hv => grounded ⟨v, hv⟩) v generalizing w with
  | intro v below ih =>
    clear below
    by_cases plain : v.kind ≠ w.kind ∨ v.kind ∉ [ValueKind.list, .iter, .record]
    · exact ⟨0, _, same?_plain h plain 0⟩
    · rw [not_or, not_not, not_not] at plain
      have each := comparisons_of_room ih
      obtain ⟨hkind, hmem⟩ := plain
      cases v <;> cases w <;> simp only [kind, reduceCtorEq] at hkind <;>
        simp only [parts] at each
      case list.list i j =>
        obtain ⟨room, b, hb⟩ := each (h.list j).toList
        refine ⟨room + 3, if (h.list i).size = (h.list j).size then b else false, ?_⟩
        simp only [same?, sameElements, hb]
        split <;> rfl
      case iter.iter i j =>
        obtain ⟨room, b, hb⟩ := each (h.iter j).toList
        refine ⟨room + 3, if (h.iter i).size = (h.iter j).size then b else false, ?_⟩
        simp only [same?, sameElements, hb]
        split <;> rfl
      case record.record i j =>
        obtain ⟨room, b, hb⟩ := each ((h.record i).names.filterMap (h.record j).get?)
        refine ⟨room + 3, if (h.record i).names.length = (h.record j).names.length &&
          (h.record i).names.all (h.record j).contains then b else false, ?_⟩
        simp only [same?, sameFields, hb]
        split <;> rfl
      all_goals simp [kind] at hmem

end Fits

end FunkLang
