-- Comparisons. Where one of two values unfolds to a tree, the comparison of the two ends,
-- and it finds them equal exactly when they unfold to the same tree, the order of the fields
-- aside. Two values that do not unfold are never found equal.
import FunkLang.Proofs.Unfoldings
import Mathlib.Data.List.Perm.Subperm

namespace FunkLang

/-! ## Numbers -/

namespace Number

theorem finiteRanks_pos : 0 < finiteRanks := by decide

/-- Zero, of either sign. -/
def IsZero (n : Number) : Prop := ∃ negative, n = .finite negative ⟨0, finiteRanks_pos⟩

/-- Two doubles are numerically equal: neither is NaN, and they are the same or both zero. -/
def Equals (x y : Number) : Prop := x ≠ .nan ∧ (x = y ∨ x.IsZero ∧ y.IsZero)

theorem isZero_finite {negative : Bool} {rank : Fin finiteRanks} :
    (finite negative rank).IsZero ↔ rank.val = 0 := by
  constructor
  · rintro ⟨_, h⟩
    cases h
    rfl
  · intro h
    exact ⟨negative, congrArg (finite negative) (Fin.ext h)⟩

theorem not_isZero_infinite (negative : Bool) : ¬ (infinite negative).IsZero := by
  rintro ⟨_, h⟩
  cases h

theorem same_iff {x y : Number} : x.same y = true ↔ x.Equals y := by
  have hranks := finiteRanks_pos
  cases x with
  | nan => simp [same, compareBy, place?, Equals]
  | infinite s =>
    cases y with
    | nan => simp [same, compareBy, place?, Equals, not_isZero_infinite]
    | infinite t =>
      cases s <;> cases t <;> simp [same, compareBy, place?, Equals, not_isZero_infinite] <;> omega
    | finite t r =>
      have hr := r.isLt
      cases s <;> cases t <;>
        simp [same, compareBy, place?, Equals, not_isZero_infinite] <;> omega
  | finite s q =>
    have hq := q.isLt
    cases y with
    | nan =>
      simp only [same, compareBy, place?, Equals]
      simp only [reduceCtorEq, ne_eq, not_false_eq_true, true_and, false_or, Bool.false_eq_true,
        false_iff]
      rintro ⟨_, _, h⟩
      cases h
    | infinite t =>
      cases s <;> cases t <;>
        simp [same, compareBy, place?, Equals, not_isZero_infinite] <;> omega
    | finite t r =>
      have hr := r.isLt
      cases s <;> cases t <;>
        simp [same, compareBy, place?, Equals, isZero_finite, Fin.ext_iff] <;> omega

theorem Equals.symm {x y : Number} (h : x.Equals y) : y.Equals x := by
  obtain ⟨hx, rfl | ⟨hzero, ⟨s, rfl⟩⟩⟩ := h
  · exact ⟨hx, .inl rfl⟩
  · exact ⟨Number.noConfusion, .inr ⟨⟨s, rfl⟩, hzero⟩⟩

theorem Equals.trans {x y z : Number} (h : x.Equals y) (h' : y.Equals z) : x.Equals z := by
  obtain ⟨hx, rfl | ⟨hzero, hzero'⟩⟩ := h
  · exact h'
  · obtain ⟨_, rfl | ⟨_, hzero''⟩⟩ := h'
    · exact ⟨hx, .inr ⟨hzero, hzero'⟩⟩
    · exact ⟨hx, .inr ⟨hzero, hzero''⟩⟩

theorem equals_self {x : Number} : x.Equals x ↔ x ≠ .nan := ⟨And.left, fun h => ⟨h, .inl rfl⟩⟩

end Number

/-! ## Equal trees -/

namespace Unfolding

/-- The same tree: leaves of one sort with equal contents, lists or iters of one length whose
elements are the same tree place by place, and records with the same names and the same tree under
each name. -/
inductive Same : Unfolding → Unfolding → Prop
  | nil : Same .nil .nil
  | bool (b : Bool) : Same (.bool b) (.bool b)
  | number {x y : Number} (equal : x.Equals y) : Same (.number x) (.number y)
  | string (s : String) : Same (.string s) (.string s)
  | builtin (b : Builtin) : Same (.builtin b) (.builtin b)
  | function (at_ : Nat) (name : String) : Same (.function at_ name) (.function at_ name)
  | list {xs ys : List Unfolding} (length : xs.length = ys.length)
      (each : ∀ x y, (x, y) ∈ xs.zip ys → Same x y) : Same (.list xs) (.list ys)
  | iter {xs ys : List Unfolding} (length : xs.length = ys.length)
      (each : ∀ x y, (x, y) ∈ xs.zip ys → Same x y) : Same (.iter xs) (.iter ys)
  | record {xs ys : List (String × Unfolding)}
      (names : ∀ key, key ∈ xs.map Prod.fst ↔ key ∈ ys.map Prod.fst)
      (each : ∀ key x y, (key, x) ∈ xs → (key, y) ∈ ys → Same x y) : Same (.record xs) (.record ys)

/-- NaN stands somewhere in the tree. -/
inductive HasNaN : Unfolding → Prop
  | here : HasNaN (.number .nan)
  | within {t part : Unfolding} (mem : part ∈ t.parts) (inside : part.HasNaN) : HasNaN t

namespace Same

variable {t u v : Unfolding} {xs ys : List Unfolding}

theorem of_list (each : List.Forall₂ Same xs ys) : Same (.list xs) (.list ys) :=
  .list each.length_eq fun _ _ hmem => (List.forall₂_iff_zip.mp each).2 hmem

theorem of_iter (each : List.Forall₂ Same xs ys) : Same (.iter xs) (.iter ys) :=
  .iter each.length_eq fun _ _ hmem => (List.forall₂_iff_zip.mp each).2 hmem

theorem symm (h : t.Same u) : u.Same t := by
  induction h with
  | nil => exact .nil
  | bool b => exact .bool b
  | number equal => exact .number equal.symm
  | string s => exact .string s
  | builtin b => exact .builtin b
  | function i name => exact .function i name
  | list length _ ih => exact of_list (List.forall₂_iff_zip.mpr ⟨length, @ih⟩).flip
  | iter length _ ih => exact of_iter (List.forall₂_iff_zip.mpr ⟨length, @ih⟩).flip
  | record names _ ih =>
    exact .record (fun key => (names key).symm) fun key y x hy hx => ih key x y hx hy

theorem trans (h : t.Same u) (h' : u.Same v) : t.Same v := by
  induction h generalizing v with
  | number equal =>
    cases h' with
    | number equal' => exact .number (equal.trans equal')
  | list length _ ih =>
    cases h' with
    | list length' each' =>
      have hxs := List.forall₂_iff_zip.mpr ⟨length, @ih⟩
      have hys := List.forall₂_iff_zip.mpr ⟨length', @each'⟩
      exact of_list (forall₂_trans (fun _ _ _ hxy hyz => hxy hyz) hxs hys)
  | iter length _ ih =>
    cases h' with
    | iter length' each' =>
      have hxs := List.forall₂_iff_zip.mpr ⟨length, @ih⟩
      have hys := List.forall₂_iff_zip.mpr ⟨length', @each'⟩
      exact of_iter (forall₂_trans (fun _ _ _ hxy hyz => hxy hyz) hxs hys)
  | record names _ ih =>
    cases h' with
    | record names' each' =>
      refine .record (fun key => (names key).trans (names' key)) fun key x z hx hz => ?_
      obtain ⟨y, hy⟩ := mem_names_iff.mp ((names key).mp (mem_names_iff.mpr ⟨x, hx⟩))
      exact ih key x y hx hy (each' key y z hy hz)
  | _ => exact h'

theorem depth_le (h : t.Same u) : t.depth ≤ u.depth := by
  have items {xs ys : List Unfolding} (length : xs.length = ys.length)
      (ih : ∀ x y, (x, y) ∈ xs.zip ys → x.depth ≤ y.depth) : depthOfAll xs ≤ depthOfAll ys := by
    rw [depthOfAll_le]
    intro x hx
    obtain ⟨y, hy, hxy⟩ := exists_mem_of_forall₂ (List.forall₂_iff_zip.mpr ⟨length, @ih⟩) hx
    exact hxy.trans (depthOfAll_le.mp le_rfl y hy)
  induction h with
  | list length _ ih | iter length _ ih =>
    rw [depth, depth]
    exact Nat.succ_le_succ (items length ih)
  | record names _ ih =>
    rw [depth, depth, depthOfFields_eq, depthOfFields_eq]
    refine Nat.succ_le_succ (depthOfAll_le.mpr fun x hmem => ?_)
    obtain ⟨⟨key, _⟩, hx, rfl⟩ := List.mem_map.mp hmem
    obtain ⟨y, hy⟩ := mem_names_iff.mp ((names key).mp (mem_names_iff.mpr ⟨_, hx⟩))
    exact (ih key _ y hx hy).trans (depthOfAll_le.mp le_rfl y (List.mem_map_of_mem hy))
  | _ => exact Nat.zero_le _

/-- Equal trees are equally deep. -/
theorem depth_eq (h : t.Same u) : t.depth = u.depth := le_antisymm h.depth_le h.symm.depth_le

theorem part_self (h : t.Same t) {part : Unfolding} (hpart : part ∈ t.parts) : part.Same part := by
  cases h with
  | list length each | iter length each =>
    exact List.forall₂_same.mp (List.forall₂_iff_zip.mpr ⟨length, @each⟩) part hpart
  | record names each =>
    obtain ⟨⟨key, _⟩, hx, rfl⟩ := List.mem_map.mp hpart
    exact each key _ _ hx hx
  | _ => exact absurd hpart List.not_mem_nil

/-- The tree of a value is equal to itself unless it has a NaN in it. -/
theorem self_iff {h : Heap} {v : Value} (hv : Unfolds h v t) : t.Same t ↔ ¬ t.HasNaN := by
  constructor
  · intro hself hnan
    clear hv
    induction hnan with
    | here =>
      cases hself with
      | number equal => exact equal.1 rfl
    | within mem _ ih => exact ih (hself.part_self mem)
  · intro hnan
    induction hv with
    | nil => exact .nil
    | bool b => exact .bool b
    | number n => exact .number (Number.equals_self.mpr fun hn => hnan (hn ▸ .here))
    | string s => exact .string s
    | builtin b => exact .builtin b
    | function i => exact .function i _
    | list length _ ih =>
      refine of_list (List.forall₂_same.mpr fun x hx => ?_)
      obtain ⟨_, _, hself⟩ := exists_mem_of_forall₂ (List.forall₂_iff_zip.mpr ⟨length, @ih⟩).flip hx
      exact hself fun hnan' => hnan (.within hx hnan')
    | iter length _ ih =>
      refine of_iter (List.forall₂_same.mpr fun x hx => ?_)
      obtain ⟨_, _, hself⟩ := exists_mem_of_forall₂ (List.forall₂_iff_zip.mpr ⟨length, @ih⟩).flip hx
      exact hself fun hnan' => hnan (.within hx hnan')
    | @record i fields names _ ih =>
      refine .record (fun _ => Iff.rfl) fun key x y hx hy => ?_
      obtain ⟨v, hv⟩ := exists_mem_of_names names.symm hx
      rw [← eq_of_distinct (names ▸ (h.record i).distinct) hx hy]
      exact ih key v x hv hx fun hnan' => hnan (.within (List.mem_map_of_mem hx) hnan')

end Same
end Unfolding

/-! ## One step of a comparison -/

section Steps

variable {f : Value → Value → Option Bool}

theorem allSame_eq_true {xs ys : List Value} :
    allSame f xs ys = some true ↔ List.Forall₂ (fun x y => f x y = some true) xs ys := by
  induction xs generalizing ys with
  | nil => cases ys <;> simp [allSame]
  | cons x xs ih =>
    cases ys with
    | nil => simp [allSame]
    | cons y ys =>
      rw [List.forall₂_cons, ← ih, allSame]
      cases f x y with
      | none => simp
      | some same => cases same <;> simp

theorem allSame_isSome {xs ys : List Value} (each : ∀ x y, (x, y) ∈ xs.zip ys → (f x y).isSome) :
    (allSame f xs ys).isSome := by
  induction xs generalizing ys with
  | nil => cases ys <;> rfl
  | cons x xs ih =>
    cases ys with
    | nil => rfl
    | cons y ys =>
      rw [List.zip_cons_cons] at each
      obtain ⟨same, hsame⟩ := Option.isSome_iff_exists.mp (each x y List.mem_cons_self)
      rw [allSame, hsame]
      cases same with
      | false => rfl
      | true => exact ih fun x y hxy => each x y (List.mem_cons_of_mem _ hxy)

theorem sameElements_eq_true {xs ys : Array Value} :
    sameElements f xs ys = some true ↔
      List.Forall₂ (fun x y => f x y = some true) xs.toList ys.toList := by
  unfold sameElements
  by_cases hsize : xs.size = ys.size
  · rw [if_pos hsize, allSame_eq_true]
  · rw [if_neg hsize]
    exact iff_of_false (by simp) fun h => hsize (by simpa using h.length_eq)

theorem sameElements_isSome {xs ys : Array Value}
    (each : ∀ x ∈ xs.toList, ∀ y ∈ ys.toList, (f x y).isSome) : (sameElements f xs ys).isSome := by
  unfold sameElements
  split
  · refine allSame_isSome fun x y hxy => ?_
    obtain ⟨hx, hy⟩ := List.of_mem_zip hxy
    exact each x hx y hy
  · rfl

theorem findEntry_isSome {α : Type} {name : String} {entries : List (String × α)}
    (h : name ∈ entries.map Prod.fst) : (findEntry name entries).isSome := by
  induction entries with
  | nil => cases h
  | cons entry rest ih =>
    obtain ⟨key, v⟩ := entry
    rw [findEntry]
    by_cases hkey : key = name
    · rw [if_pos hkey]
      rfl
    · rw [if_neg hkey]
      exact ih ((List.mem_cons.mp h).resolve_left (Ne.symm hkey))

namespace Table

variable {α : Type} {a b : Table α}

theorem mem_entries_iff {key : String} {v : α} : (key, v) ∈ a.entries ↔ a.get? key = some v := by
  refine ⟨fun hmem => ?_, mem_of_findEntry⟩
  have hnames : key ∈ a.entries.map Prod.fst := mem_names_iff.mpr ⟨v, hmem⟩
  obtain ⟨w, hw⟩ := Option.isSome_iff_exists.mp (findEntry_isSome hnames)
  rw [get?, hw, eq_of_distinct a.distinct hmem (mem_of_findEntry hw)]

theorem contains_iff {key : String} : a.contains key = true ↔ key ∈ a.names := by
  unfold contains names
  rw [Option.isSome_iff_exists, mem_names_iff]
  simp only [mem_entries_iff]

/-- Tables with as many names, each of the one a name of the other, have the same names. -/
theorem same_names_iff : (a.names.length = b.names.length && a.names.all b.contains) = true ↔
    ∀ key, key ∈ a.names ↔ key ∈ b.names := by
  rw [Bool.and_eq_true, decide_eq_true_iff, List.all_eq_true]
  simp only [contains_iff]
  constructor
  · rintro ⟨hlength, hsub⟩ key
    exact ((List.subperm_of_subset a.distinct hsub).perm_of_length_le hlength.ge).mem_iff
  · intro hiff
    exact ⟨((List.perm_ext_iff_of_nodup a.distinct b.distinct).mpr hiff).length_eq,
      fun key hkey => (hiff key).mp hkey⟩

/-- What stands in a table under the names of some entries, in their order. -/
theorem forall₂_filterMap {R : α → α → Prop} {entries : List (String × α)}
    (hsub : ∀ key ∈ entries.map Prod.fst, key ∈ b.names) :
    List.Forall₂ R (entries.map (·.2)) ((entries.map Prod.fst).filterMap b.get?) ↔
      ∀ key x y, (key, x) ∈ entries → (key, y) ∈ b.entries → R x y := by
  induction entries with
  | nil => simp
  | cons entry rest ih =>
    obtain ⟨key, x⟩ := entry
    rw [List.map_cons, List.forall_mem_cons] at hsub
    obtain ⟨y, hy⟩ := mem_names_iff.mp hsub.1
    rw [List.map_cons, List.map_cons, List.filterMap_cons_some (mem_entries_iff.mp hy),
      List.forall₂_cons, ih hsub.2]
    constructor
    · rintro ⟨hxy, hrest⟩ key' x' y' hx' hy'
      rcases List.mem_cons.mp hx' with heq | hx'
      · cases heq
        rwa [eq_of_distinct b.distinct hy' hy]
      · exact hrest key' x' y' hx' hy'
    · intro hall
      exact ⟨hall key x y List.mem_cons_self hy,
        fun key' x' y' hx' => hall key' x' y' (List.mem_cons_of_mem _ hx')⟩

end Table

theorem sameFields_eq_true {a b : Table Value} :
    sameFields f a b = some true ↔ (∀ key, key ∈ a.names ↔ key ∈ b.names) ∧
      ∀ key x y, (key, x) ∈ a.entries → (key, y) ∈ b.entries → f x y = some true := by
  unfold sameFields
  rw [← Table.same_names_iff]
  split
  · rename_i hnames
    have hsub := fun key => (Table.same_names_iff.mp hnames key).mp
    rw [allSame_eq_true, Table.names, Table.forall₂_filterMap hsub]
    exact ⟨fun h => ⟨hnames, h⟩, fun h => h.2⟩
  · rename_i hnames
    exact iff_of_false (by simp) fun h => hnames h.1

/-- The comparison of two tables ends if those of the values under each key do. -/
theorem sameFields_isSome {a b : Table Value}
    (each : ∀ key x y, (key, x) ∈ a.entries → (key, y) ∈ b.entries → (f x y).isSome) :
    (sameFields f a b).isSome := by
  unfold sameFields
  split
  · rename_i hnames
    have hsub := fun key => (Table.same_names_iff.mp hnames key).mp
    have hpairs := (Table.forall₂_filterMap hsub).mpr each
    exact allSame_isSome fun x y hxy => List.forall₂_zip hpairs hxy
  · rfl

end Steps

/-! ## Comparisons of values -/

namespace Value

variable {h : Heap} {a b : Value} {room : Nat}

/-- A comparison ends where those of the parts end with three less of the room. -/
theorem same?_isSome_of_parts
    (each : ∀ x ∈ a.parts h, ∀ y ∈ b.parts h, (x.same? h room y).isSome) :
    (a.same? h (room + 3) b).isSome := by
  by_cases plain : a.kind ≠ b.kind ∨ a.kind ∉ [ValueKind.list, .iter, .record]
  · rw [same?_plain h plain]
    rfl
  · rw [not_or, not_not, not_not] at plain
    obtain ⟨hkind, hmem⟩ := plain
    cases a <;> cases b <;> simp only [kind, reduceCtorEq] at hkind <;> simp only [same?]
    case list.list => exact sameElements_isSome each
    case iter.iter => exact sameElements_isSome each
    case record.record =>
      exact sameFields_isSome fun key x y hx hy =>
        each x (List.mem_map_of_mem hx) y (List.mem_map_of_mem hy)
    all_goals rfl

theorem depth_pos {t : Unfolding} (ht : Unfolds h a t)
    (hkind : a.kind ∈ [ValueKind.list, .iter, .record]) : 0 < t.depth := by
  cases ht with
  | list | iter | record => exact Nat.succ_pos _
  | _ => simp [kind] at hkind

/-- Where one of two values unfolds to a tree, a room that the depth of the tree fits into is
enough for their comparison. -/
theorem same?_isSome {t : Unfolding} (ht : Unfolds h a t ∨ Unfolds h b t)
    (hroom : 3 * t.depth ≤ room) : (a.same? h room b).isSome := by
  induction hdepth : t.depth using Nat.strongRecOn generalizing a b t room with
  | ind depth ih =>
    subst hdepth
    by_cases plain : a.kind ≠ b.kind ∨ a.kind ∉ [ValueKind.list, .iter, .record]
    · rw [same?_plain h plain]
      rfl
    · rw [not_or, not_not, not_not] at plain
      obtain ⟨hkind, hmem⟩ := plain
      have hpos : 0 < t.depth := ht.elim (depth_pos · hmem) (depth_pos · (hkind ▸ hmem))
      obtain ⟨room, rfl⟩ : ∃ r, room = r + 3 := ⟨room - 3, by omega⟩
      -- one step down both values: the tree of a part is less deep, whichever side it is on
      refine same?_isSome_of_parts fun x hx y hy => ?_
      obtain ⟨u, hu, hxy⟩ : ∃ u ∈ t.parts, Unfolds h x u ∨ Unfolds h y u := by
        rcases ht with ht | ht
        · obtain ⟨u, hu, hx'⟩ := ht.of_mem_parts hx
          exact ⟨u, hu, .inl hx'⟩
        · obtain ⟨u, hu, hy'⟩ := ht.of_mem_parts hy
          exact ⟨u, hu, .inr hy'⟩
      have hlt := Unfolding.depth_lt hu
      exact ih u.depth hlt hxy (by omega) rfl

/-- Where a comparison of items finds all of them equal, the items unfold in step. -/
theorem trees_of_forall₂ {xs ys : List Value}
    (h' : List.Forall₂ (fun x y => ∃ t u, Unfolds h x t ∧ Unfolds h y u ∧ t.Same u ∧
      3 * t.depth ≤ room) xs ys) :
    ∃ ts us, List.Forall₂ (Unfolds h) xs ts ∧ List.Forall₂ (Unfolds h) ys us ∧
      List.Forall₂ Unfolding.Same ts us ∧ 3 * Unfolding.depthOfAll ts ≤ room := by
  induction h' with
  | nil => exact ⟨[], [], .nil, .nil, .nil, Nat.zero_le _⟩
  | cons hxy _ ih =>
    obtain ⟨t, u, ht, hu, hsame, hroom⟩ := hxy
    obtain ⟨ts, us, hts, hus, hall, hroom'⟩ := ih
    refine ⟨t :: ts, u :: us, .cons ht hts, .cons hu hus, .cons hsame hall, ?_⟩
    rw [Unfolding.depthOfAll]
    omega

/-- What is found equal unfolds to the same tree. -/
theorem trees_of_same? (hab : a.same? h room b = some true) :
    ∃ t u, Unfolds h a t ∧ Unfolds h b u ∧ t.Same u ∧ 3 * t.depth ≤ room := by
  induction room using Nat.strongRecOn generalizing a b with
  | ind room ih =>
    unfold same? at hab
    split at hab
    case h_1 room i j =>
      obtain ⟨ts, us, hts, hus, hall, hroom⟩ := trees_of_forall₂
        ((sameElements_eq_true.mp hab).imp fun _ _ => ih room (by omega))
      refine ⟨_, _, .of_list hts, .of_list hus, .of_list hall, ?_⟩
      rw [Unfolding.depth]
      omega
    case h_2 room i j =>
      obtain ⟨ts, us, hts, hus, hall, hroom⟩ := trees_of_forall₂
        ((sameElements_eq_true.mp hab).imp fun _ _ => ih room (by omega))
      refine ⟨_, _, .of_iter hts, .of_iter hus, .of_iter hall, ?_⟩
      rw [Unfolding.depth]
      omega
    case h_3 room i j =>
      obtain ⟨hnames, each⟩ := sameFields_eq_true.mp hab
      have trees {key : String} {x y : Value} (hx : (key, x) ∈ (h.record i).entries)
          (hy : (key, y) ∈ (h.record j).entries) := ih room (by omega) (each key x y hx hy)
      obtain ⟨t, ht⟩ : ∃ t, Unfolds h (.record i) t := by
        refine Unfolds.of_parts fun part hpart => ?_
        obtain ⟨⟨key, x⟩, hx, rfl⟩ := List.mem_map.mp hpart
        obtain ⟨y, hy⟩ := mem_names_iff.mp ((hnames key).mp (mem_names_iff.mpr ⟨x, hx⟩))
        obtain ⟨t, _, ht, _⟩ := trees hx hy
        exact ⟨t, ht⟩
      obtain ⟨u, hu⟩ : ∃ u, Unfolds h (.record j) u := by
        refine Unfolds.of_parts fun part hpart => ?_
        obtain ⟨⟨key, y⟩, hy, rfl⟩ := List.mem_map.mp hpart
        obtain ⟨x, hx⟩ := mem_names_iff.mp ((hnames key).mpr (mem_names_iff.mpr ⟨y, hy⟩))
        obtain ⟨_, u, _, hu, _⟩ := trees hx hy
        exact ⟨u, hu⟩
      cases ht with
      | @record _ fields names eachTree =>
      cases hu with
      | @record _ fields' names' eachTree' =>
      have inStep {key : String} {t u : Unfolding} (ht : (key, t) ∈ fields)
          (hu : (key, u) ∈ fields') : t.Same u ∧ 3 * t.depth ≤ room := by
        obtain ⟨x, hx⟩ := exists_mem_of_names names.symm ht
        obtain ⟨y, hy⟩ := exists_mem_of_names names'.symm hu
        obtain ⟨t', u', ht', hu', hsame, hroom⟩ := trees hx hy
        rw [(eachTree key x t hx ht).unique ht', (eachTree' key y u hy hu).unique hu']
        exact ⟨hsame, hroom⟩
      have hkeys : ∀ key, key ∈ fields.map Prod.fst ↔ key ∈ fields'.map Prod.fst := by
        rw [← names, ← names']
        exact hnames
      refine ⟨_, _, .record names eachTree, .record names' eachTree',
        .record hkeys fun key t u ht hu => (inStep ht hu).1, ?_⟩
      have hdepth : Unfolding.depthOfAll (fields.map Prod.snd) ≤ room / 3 := by
        rw [Unfolding.depthOfAll_le]
        intro t hmem
        obtain ⟨⟨key, t⟩, ht, rfl⟩ := List.mem_map.mp hmem
        obtain ⟨u, hu⟩ := mem_names_iff.mp ((hkeys key).mp (mem_names_iff.mpr ⟨t, ht⟩))
        exact (Nat.le_div_iff_mul_le (by omega)).mpr (by rw [Nat.mul_comm]; exact (inStep ht hu).2)
      rw [Unfolding.depth, Unfolding.depthOfFields_eq]
      omega
    case h_7 => exact ⟨_, _, .nil, .nil, .nil, Nat.zero_le _⟩
    case h_8 x y =>
      rw [Option.some_inj, beq_iff_eq] at hab
      exact ⟨_, _, .bool x, .bool y, hab ▸ .bool x, Nat.zero_le _⟩
    case h_9 x y =>
      rw [Option.some_inj, Number.same_iff] at hab
      exact ⟨_, _, .number x, .number y, .number hab, Nat.zero_le _⟩
    case h_10 x y =>
      rw [Option.some_inj, beq_iff_eq] at hab
      exact ⟨_, _, .string x, .string y, hab ▸ .string x, Nat.zero_le _⟩
    case h_11 x y =>
      rw [Option.some_inj, beq_iff_eq] at hab
      exact ⟨_, _, .builtin x, .builtin y, hab ▸ .builtin x, Nat.zero_le _⟩
    case h_12 i j =>
      rw [Option.some_inj, beq_iff_eq] at hab
      exact ⟨_, _, .function i, .function j, hab ▸ .function i _, Nat.zero_le _⟩
    all_goals cases hab

/-- Items that unfold to the same trees in step are found equal in step. -/
theorem sameAll_of_trees {as bs : List Value} {xs ys : List Unfolding}
    (has : List.Forall₂ (Unfolds h) as xs) (hbs : List.Forall₂ (Unfolds h) bs ys)
    (heach : List.Forall₂ (fun x y => ∀ {a b : Value} {room : Nat}, Unfolds h a x → Unfolds h b y →
      3 * x.depth ≤ room → a.same? h room b = some true) xs ys)
    (hroom : 3 * Unfolding.depthOfAll xs ≤ room) :
    List.Forall₂ (fun a b => a.same? h room b = some true) as bs := by
  have hfits := forall₂_imp_mem heach (S := fun x y => ∀ a b : Value, Unfolds h a x →
      Unfolds h b y → a.same? h room b = some true) fun x hx y hxy a b ha hb => by
    have hdepth := Unfolding.depthOfAll_le.mp le_rfl x hx
    exact hxy ha hb (by omega)
  have hleft : List.Forall₂ (fun a y => ∀ b : Value, Unfolds h b y →
      a.same? h room b = some true) as ys :=
    forall₂_trans (fun a x y ha hxy b hb => hxy a b ha hb) has hfits
  exact forall₂_trans (fun a y b hay hb => hay b hb) hleft hbs.flip

/-- What unfolds to the same tree is found equal. -/
theorem same?_of_trees {t u : Unfolding} (ht : Unfolds h a t) (hu : Unfolds h b u)
    (hsame : t.Same u) (hroom : 3 * t.depth ≤ room) : a.same? h room b = some true := by
  induction hsame generalizing a b room with
  | nil | bool | string | builtin | function =>
    cases ht
    cases hu
    simp [same?]
  | number equal =>
    cases ht
    cases hu
    simp [same?, Number.same_iff.mpr equal]
  | list length each ih =>
    obtain ⟨room, rfl⟩ : ∃ r, room = r + 3 := ⟨room - 3, by rw [Unfolding.depth] at hroom; omega⟩
    cases ht with
    | list lengthA eachA =>
    cases hu with
    | list lengthB eachB =>
    rw [same?, sameElements_eq_true]
    rw [Unfolding.depth] at hroom
    exact sameAll_of_trees (List.forall₂_iff_zip.mpr ⟨lengthA, @eachA⟩)
      (List.forall₂_iff_zip.mpr ⟨lengthB, @eachB⟩) (List.forall₂_iff_zip.mpr ⟨length, @ih⟩)
      (by omega)
  | iter length each ih =>
    obtain ⟨room, rfl⟩ : ∃ r, room = r + 3 := ⟨room - 3, by rw [Unfolding.depth] at hroom; omega⟩
    cases ht with
    | iter lengthA eachA =>
    cases hu with
    | iter lengthB eachB =>
    rw [same?, sameElements_eq_true]
    rw [Unfolding.depth] at hroom
    exact sameAll_of_trees (List.forall₂_iff_zip.mpr ⟨lengthA, @eachA⟩)
      (List.forall₂_iff_zip.mpr ⟨lengthB, @eachB⟩) (List.forall₂_iff_zip.mpr ⟨length, @ih⟩)
      (by omega)
  | record names each ih =>
    obtain ⟨room, rfl⟩ : ∃ r, room = r + 3 := ⟨room - 3, by rw [Unfolding.depth] at hroom; omega⟩
    cases ht with
    | record namesA eachA =>
    cases hu with
    | record namesB eachB =>
    rw [same?, sameFields_eq_true, namesA, namesB]
    refine ⟨names, fun key x y hx hy => ?_⟩
    obtain ⟨t, ht⟩ := exists_mem_of_names namesA hx
    obtain ⟨u, hu⟩ := exists_mem_of_names namesB hy
    have hdepth := Unfolding.depth_lt (t := .record _) (List.mem_map_of_mem ht)
    dsimp only at hdepth
    exact ih key t u ht hu (eachA key x t hx ht) (eachB key y u hy hu) (by omega)

theorem same?_eq_true_iff : a.same? h room b = some true ↔
    ∃ t u, Unfolds h a t ∧ Unfolds h b u ∧ t.Same u ∧ 3 * t.depth ≤ room :=
  ⟨trees_of_same?, fun ⟨_, _, ht, hu, hsame, hroom⟩ => same?_of_trees ht hu hsame hroom⟩

theorem same?_symm (hab : a.same? h room b = some true) : b.same? h room a = some true := by
  obtain ⟨t, u, ht, hu, hsame, hroom⟩ := same?_eq_true_iff.mp hab
  exact same?_eq_true_iff.mpr ⟨u, t, hu, ht, hsame.symm, hsame.depth_eq ▸ hroom⟩

theorem same?_trans {c : Value} (hab : a.same? h room b = some true)
    (hbc : b.same? h room c = some true) : a.same? h room c = some true := by
  obtain ⟨t, u, ht, hu, hsame, hroom⟩ := same?_eq_true_iff.mp hab
  obtain ⟨u', v, hu', hv, hsame', _⟩ := same?_eq_true_iff.mp hbc
  rw [← hu.unique hu'] at hsame'
  exact same?_eq_true_iff.mpr ⟨t, v, ht, hv, hsame.trans hsame', hroom⟩

/-- Equality is structural. Where one of two values unfolds to a tree, and the room is enough for
its depth, the comparison of the two ends, its answer is whether they unfold to the same tree, and
it is the answer of the comparison the other way round. What is found equal to the same value is
equal, a value is equal to itself exactly when its tree has no NaN, and two values that do not
unfold are never found equal. -/
theorem equality_is_that_of_unfoldings (h : Heap) (room : Nat) (a b : Value) :
    (∀ t, Unfolds h a t ∨ Unfolds h b t → 3 * t.depth ≤ room →
      ∃ answer, a.same? h room b = some answer ∧ b.same? h room a = some answer ∧
        (answer = true ↔ ∃ t u, Unfolds h a t ∧ Unfolds h b u ∧ t.Same u)) ∧
    (∀ c, a.same? h room b = some true → b.same? h room c = some true →
      a.same? h room c = some true) ∧
    (∀ t, Unfolds h a t → 3 * t.depth ≤ room → (a.same? h room a = some true ↔ ¬ t.HasNaN)) ∧
    ((¬ ∃ t, Unfolds h a t) → (¬ ∃ t, Unfolds h b t) → a.same? h room b ≠ some true) := by
  refine ⟨fun t ht hroom => ?_, fun c => same?_trans, fun t ht hroom => ?_, fun ha _ hab => ?_⟩
  · obtain ⟨answer, hanswer⟩ := Option.isSome_iff_exists.mp (same?_isSome ht hroom)
    obtain ⟨answer', hanswer'⟩ := Option.isSome_iff_exists.mp (same?_isSome ht.symm hroom)
    have heq : answer = answer' := by
      rw [Bool.eq_iff_iff]
      constructor
      · rintro rfl
        exact Option.some_inj.mp (hanswer'.symm.trans (same?_symm hanswer))
      · rintro rfl
        exact Option.some_inj.mp (hanswer.symm.trans (same?_symm hanswer'))
    refine ⟨answer, hanswer, heq ▸ hanswer', ?_, ?_⟩
    · rintro rfl
      obtain ⟨t, u, ht, hu, hsame, _⟩ := trees_of_same? hanswer
      exact ⟨t, u, ht, hu, hsame⟩
    · rintro ⟨t', u', ht', hu', hsame⟩
      have hdepth : 3 * t'.depth ≤ room := by
        rcases ht with ht | ht
        · rwa [ht'.unique ht]
        · rwa [hsame.depth_eq, hu'.unique ht]
      exact Option.some_inj.mp (hanswer.symm.trans (same?_of_trees ht' hu' hsame hdepth))
  · rw [← Unfolding.Same.self_iff ht]
    constructor
    · intro haa
      obtain ⟨t', u', ht', hu', hsame, _⟩ := trees_of_same? haa
      rwa [ht'.unique ht, hu'.unique ht] at hsame
    · exact fun hself => same?_of_trees ht ht hself hroom
  · obtain ⟨t, _, ht, _⟩ := trees_of_same? hab
    exact ha ⟨t, ht⟩

/-- A record twice in one list, and in another list once with its fields in the other order. The
last list holds itself. -/
def tangledHeap : Heap where
  lists := #[#[.record 0, .record 0], #[.record 1, .record 0], #[.list 2]]
  iters := #[]
  records := #[(Table.empty.put "a" (.bool true)).put "b" .nil,
    (Table.empty.put "b" .nil).put "a" (.bool true)]
  functions := #[]

theorem shared_records_are_equal_in_any_order :
    (∃ t u, Unfolds tangledHeap (.list 0) t ∧ Unfolds tangledHeap (.list 1) u ∧ t.Same u) ∧
      ∀ room, (Value.list 2).same? tangledHeap room (.list 2) ≠ some true := by
  have shared : Unfolds tangledHeap (.record 0) (.record [("a", .bool true), ("b", .nil)]) := by
    refine .record (by decide) fun key v t hv ht => ?_
    simp only [List.mem_cons, Prod.mk.injEq, List.not_mem_nil, or_false] at ht
    rw [Table.mem_entries_iff] at hv
    rcases ht with ⟨rfl, rfl⟩ | ⟨rfl, rfl⟩
    · cases hv
      exact .bool true
    · cases hv
      exact .nil
  have pair : Unfolds tangledHeap (.list 0) (.list (List.replicate 2 _)) :=
    .of_list (.cons shared (.cons shared .nil))
  constructor
  · obtain ⟨answer, hab, _, hiff⟩ :=
      (equality_is_that_of_unfoldings tangledHeap 6 (.list 0) (.list 1)).1 _ (.inl pair) (by decide)
    have htrue : (Value.list 0).same? tangledHeap 6 (.list 1) = some true := by decide
    exact hiff.mp (Option.some_inj.mp (hab.symm.trans htrue))
  · intro room
    have bottomless : ¬ ∃ t, Unfolds tangledHeap (.list 2) t := by
      rintro ⟨t, ht⟩
      exact ht.not_containsItself (.single (List.mem_singleton.mpr rfl))
    exact (equality_is_that_of_unfoldings tangledHeap room (.list 2) (.list 2)).2.2.2 bottomless
      bottomless

end Value
end FunkLang
