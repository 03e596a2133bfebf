-- Unfoldings. A value with all that it holds written out is a tree, in which an object that the
-- heap shares stands anew at each of its places. A value has such a tree, and only one, unless it
-- contains itself or holds a value that does.
import FunkLang.Proofs.ItemByItem
import FunkLang.Proofs.MoreRoom

namespace FunkLang

/-! ## Trees -/

/-- A value with its parts written out. A function is a leaf, known by its place in the heap: the
scope that it was declared in is no part of it. -/
inductive Unfolding
  | nil
  | bool (b : Bool)
  | number (n : Number)
  | string (s : String)
  | builtin (b : Builtin)
  | function (at_ : Nat) (name : String)
  | list (items : List Unfolding)
  | iter (items : List Unfolding)
  | record (fields : List (String × Unfolding))

namespace Unfolding

/-- The elements and fields of a tree. -/
def parts : Unfolding → List Unfolding
  | list items => items
  | iter items => items
  | record fields => fields.map Prod.snd
  | _ => []

mutual

/-- How many lists, iters and records stand inside each other. -/
def depth : Unfolding → Nat
  | list items => depthOfAll items + 1
  | iter items => depthOfAll items + 1
  | record fields => depthOfFields fields + 1
  | _ => 0

/-- The greatest depth of some trees. -/
def depthOfAll : List Unfolding → Nat
  | [] => 0
  | t :: rest => max t.depth (depthOfAll rest)

/-- The greatest depth of some fields. -/
def depthOfFields : List (String × Unfolding) → Nat
  | [] => 0
  | (_, t) :: rest => max t.depth (depthOfFields rest)

end

theorem depthOfAll_le {items : List Unfolding} {n : Nat} :
    depthOfAll items ≤ n ↔ ∀ t ∈ items, t.depth ≤ n := by
  induction items with
  | nil => simp [depthOfAll]
  | cons t rest ih => simp [depthOfAll, ih]

theorem depthOfFields_eq (fields : List (String × Unfolding)) :
    depthOfFields fields = depthOfAll (fields.map Prod.snd) := by
  induction fields with
  | nil => rfl
  | cons field rest ih => simp [depthOfFields, depthOfAll, ih]

/-- A part is less deep than the whole. -/
theorem depth_lt {t part : Unfolding} (h : part ∈ t.parts) : part.depth < t.depth := by
  cases t with
  | list items | iter items =>
    rw [depth, Nat.lt_succ_iff]
    exact depthOfAll_le.mp le_rfl part h
  | record fields =>
    rw [depth, depthOfFields_eq, Nat.lt_succ_iff]
    exact depthOfAll_le.mp le_rfl part h
  | _ => exact absurd h List.not_mem_nil

end Unfolding

/-! ## Values and their trees -/

/-- A value unfolds to a tree: the same leaf, or a collection of the same sort whose parts unfold to
the parts of the tree, elements in their order and fields under their names. -/
inductive Unfolds (h : Heap) : Value → Unfolding → Prop
  | nil : Unfolds h .nil .nil
  | bool (b : Bool) : Unfolds h (.bool b) (.bool b)
  | number (n : Number) : Unfolds h (.number n) (.number n)
  | string (s : String) : Unfolds h (.string s) (.string s)
  | builtin (b : Builtin) : Unfolds h (.builtin b) (.builtin b)
  | function (i : Nat) : Unfolds h (.function i) (.function i (h.function i).name)
  | list {i : Nat} {items : List Unfolding} (length : (h.list i).toList.length = items.length)
      (each : ∀ v t, (v, t) ∈ (h.list i).toList.zip items → Unfolds h v t) :
      Unfolds h (.list i) (.list items)
  | iter {i : Nat} {items : List Unfolding} (length : (h.iter i).toList.length = items.length)
      (each : ∀ v t, (v, t) ∈ (h.iter i).toList.zip items → Unfolds h v t) :
      Unfolds h (.iter i) (.iter items)
  | record {i : Nat} {fields : List (String × Unfolding)}
      (names : (h.record i).names = fields.map Prod.fst)
      (each : ∀ key v t, (key, v) ∈ (h.record i).entries → (key, t) ∈ fields → Unfolds h v t) :
      Unfolds h (.record i) (.record fields)

namespace Unfolds

variable {h : Heap} {v : Value} {t u : Unfolding}

theorem of_list {i : Nat} {items : List Unfolding}
    (each : List.Forall₂ (Unfolds h) (h.list i).toList items) :
    Unfolds h (.list i) (.list items) :=
  .list each.length_eq fun _ _ hmem => (List.forall₂_iff_zip.mp each).2 hmem

theorem of_iter {i : Nat} {items : List Unfolding}
    (each : List.Forall₂ (Unfolds h) (h.iter i).toList items) :
    Unfolds h (.iter i) (.iter items) :=
  .iter each.length_eq fun _ _ hmem => (List.forall₂_iff_zip.mp each).2 hmem

/-- A value whose parts unfold does so itself. -/
theorem of_parts (each : ∀ part ∈ v.parts h, ∃ t, Unfolds h part t) : ∃ t, Unfolds h v t := by
  cases v with
  | list i =>
    obtain ⟨items, hitems⟩ := exists_forall₂ each
    exact ⟨.list items, of_list hitems⟩
  | iter i =>
    obtain ⟨items, hitems⟩ := exists_forall₂ each
    exact ⟨.iter items, of_iter hitems⟩
  | record i =>
    have each' : ∀ entry ∈ (h.record i).entries, ∃ field : String × Unfolding,
        entry.1 = field.1 ∧ Unfolds h entry.2 field.2 := by
      intro entry hentry
      obtain ⟨t, ht⟩ := each entry.2 (List.mem_map_of_mem hentry)
      exact ⟨(entry.1, t), rfl, ht⟩
    obtain ⟨fields, hfields⟩ := exists_forall₂ each'
    have names : (h.record i).entries.map Prod.fst = fields.map Prod.fst := by
      refine List.forall₂_eq_eq_eq ▸ List.forall₂_map_left_iff.mpr
        (List.forall₂_map_right_iff.mpr ?_)
      exact hfields.imp fun _ _ hf => hf.1
    refine ⟨.record fields, .record names fun key v t hv ht => ?_⟩
    obtain ⟨⟨_, u⟩, hu, rfl, hvu⟩ := exists_mem_of_forall₂ hfields hv
    rwa [eq_of_distinct (names ▸ (h.record i).distinct) ht hu]
  | nil => exact ⟨_, .nil⟩
  | bool b => exact ⟨_, .bool b⟩
  | number n => exact ⟨_, .number n⟩
  | string s => exact ⟨_, .string s⟩
  | builtin b => exact ⟨_, .builtin b⟩
  | function i => exact ⟨_, .function i⟩

/-- A part of a value unfolds to a part of its tree. -/
theorem of_mem_parts (hv : Unfolds h v t) {part : Value} (hpart : part ∈ v.parts h) :
    ∃ u ∈ t.parts, Unfolds h part u := by
  cases hv with
  | list length each | iter length each =>
    exact exists_mem_of_forall₂ (List.forall₂_iff_zip.mpr ⟨length, each _ _⟩) hpart
  | record names each =>
    obtain ⟨⟨key, _⟩, hentry, rfl⟩ := List.mem_map.mp hpart
    obtain ⟨u, hu⟩ := exists_mem_of_names names hentry
    exact ⟨u, List.mem_map_of_mem hu, each key _ u hentry hu⟩
  | _ => exact absurd hpart List.not_mem_nil

/-- A value has one tree. -/
theorem unique (hv : Unfolds h v t) (hu : Unfolds h v u) : t = u := by
  induction hv generalizing u with
  | list length each ih =>
    cases hu with
    | list length' each' =>
      have hitems := List.forall₂_iff_zip.mpr ⟨length, @ih⟩
      have hitems' := List.forall₂_iff_zip.mpr ⟨length', @each'⟩
      rw [eq_of_forall₂ (fun v t u ht hu => ht hu) hitems hitems']
  | iter length each ih =>
    cases hu with
    | iter length' each' =>
      have hitems := List.forall₂_iff_zip.mpr ⟨length, @ih⟩
      have hitems' := List.forall₂_iff_zip.mpr ⟨length', @each'⟩
      rw [eq_of_forall₂ (fun v t u ht hu => ht hu) hitems hitems']
  | record names each ih =>
    cases hu with
    | record names' each' =>
      rw [eq_of_names (names.symm.trans names') fun key t u ht hu => ?_]
      obtain ⟨v, hv⟩ := exists_mem_of_names names.symm ht
      exact ih key v t hv ht (each' key v u hv hu)
  | _ =>
    cases hu
    rfl

/-! ## Where there is a tree -/

/-- What is inside a value unfolds to a tree that is no deeper, and less deep if it is farther
in. -/
theorem depth_lt_of_inside {w : Value} (hv : Unfolds h v t)
    (hw : Relation.TransGen (fun part whole => part ∈ whole.parts h) w v) :
    ∃ u, Unfolds h w u ∧ u.depth < t.depth := by
  induction hw using Relation.TransGen.head_induction_on with
  | single hpart =>
    obtain ⟨u, hu, hwu⟩ := hv.of_mem_parts hpart
    exact ⟨u, hwu, Unfolding.depth_lt hu⟩
  | head hpart _ ih =>
    obtain ⟨u, hu, hdepth⟩ := ih
    obtain ⟨u', hu', hwu'⟩ := hu.of_mem_parts hpart
    exact ⟨u', hwu', (Unfolding.depth_lt hu').trans hdepth⟩

/-- What unfolds does not contain itself. -/
theorem not_containsItself (hv : Unfolds h v t) : ¬ v.ContainsItself h := by
  intro hloop
  obtain ⟨u, hu, hdepth⟩ := hv.depth_lt_of_inside hloop
  rw [hv.unique hu] at hdepth
  exact Nat.lt_irrefl _ hdepth

end Unfolds

/-- A value unfolds to a tree exactly when nothing inside it contains itself. -/
theorem Value.unfolds_iff (h : Heap) (v : Value) :
    (∃ t, Unfolds h v t) ↔ ∀ w : Value, w.Within h v → ¬ w.ContainsItself h := by
  constructor
  · rintro ⟨t, ht⟩ w hw
    rcases Relation.reflTransGen_iff_eq_or_transGen.mp hw with rfl | hw
    · exact ht.not_containsItself
    · obtain ⟨u, hu, _⟩ := ht.depth_lt_of_inside hw
      exact hu.not_containsItself
  · intro grounded
    induction acc_of_within grounded with
    | intro v _ ih =>
      refine Unfolds.of_parts fun part hpart => ih part hpart fun w hw => ?_
      exact grounded w (hw.tail hpart)

end FunkLang
