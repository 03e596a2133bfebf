-- Scopes that lie on others. Every scope of the second tree shows one of the
-- first. Either it has the names of that scope, and then it is the only one, or
-- it has none and lies inside of another scope that shows the same. So a name
-- stands for the same in a scope as in the one that it shows.
import FunkLang.Proofs.ScopeTree

namespace FunkLang

/-! ## Worlds -/

/-- Which scope each of the first `size` scopes shows, and if it is the one that has its names.
The current scope is `here`. -/
structure World where
  size : Nat
  view : Nat → Nat
  real : Nat → Prop
  here : Nat
  inside : here < size

namespace World

/-- More scopes, where those that there were show what they did. -/
structure Extends (W W' : World) : Prop where
  size : W.size ≤ W'.size
  view : ∀ i < W.size, W'.view i = W.view i
  real : ∀ i < W.size, (W'.real i ↔ W.real i)

/-- More scopes, and the same current one. -/
structure Grows (W W' : World) : Prop extends W.Extends W' where
  here : W'.here = W.here

/-- A new scope becomes the current one. It shows the scope `shown`. -/
def opened (W : World) (shown : Nat) (fresh : Prop) : World where
  size := W.size + 1
  view i := if i = W.size then shown else W.view i
  real i := if i = W.size then fresh else W.real i
  here := W.size
  inside := Nat.lt_succ_self _

/-- Back in the scope that was the current one of `V`, where `W` has all the scopes of `V`. -/
def back (W V : World) (h : V.size ≤ W.size) : World :=
  { W with here := V.here, inside := Nat.lt_of_lt_of_le V.inside h }

/-- The current scope has names of its own. -/
def Open (W : World) : Prop := W.real W.here

variable {U V W : World} {shown : Nat} {fresh : Prop}

theorem Extends.refl (W : World) : W.Extends W :=
  ⟨Nat.le_refl _, fun _ _ => rfl, fun _ _ => Iff.rfl⟩

theorem Extends.trans (h : U.Extends V) (h' : V.Extends W) : U.Extends W where
  size := Nat.le_trans h.size h'.size
  view i hi := (h'.view i (Nat.lt_of_lt_of_le hi h.size)).trans (h.view i hi)
  real i hi := (h'.real i (Nat.lt_of_lt_of_le hi h.size)).trans (h.real i hi)

theorem Grows.refl (W : World) : W.Grows W := ⟨.refl W, rfl⟩

theorem Grows.trans (h : U.Grows V) (h' : V.Grows W) : U.Grows W :=
  ⟨h.toExtends.trans h'.toExtends, h'.here.trans h.here⟩

theorem Grows.open (h : V.Grows W) (hopen : V.Open) : W.Open := by
  unfold Open
  rw [h.here]
  exact (h.real V.here V.inside).mpr hopen

theorem view_opened : (W.opened shown fresh).view W.size = shown := if_pos rfl

theorem real_opened : (W.opened shown fresh).real W.size ↔ fresh := iff_of_eq (if_pos rfl)

theorem extends_opened (W : World) (shown : Nat) (fresh : Prop) :
    W.Extends (W.opened shown fresh) where
  size := Nat.le_succ _
  view _ hi := if_neg (Nat.ne_of_lt hi)
  real _ hi := iff_of_eq (if_neg (Nat.ne_of_lt hi))

theorem extends_back (W V : World) (h : V.size ≤ W.size) : W.Extends (W.back V h) :=
  ⟨Nat.le_refl _, fun _ _ => rfl, fun _ _ => Iff.rfl⟩

/-- Back in its current scope, a world with more scopes grows out of one. -/
theorem Extends.back (h : V.Extends W) : V.Grows (W.back V h.size) :=
  ⟨h.trans (extends_back W V _), rfl⟩

/-- What grows out of a world with one scope more, grows out of that world when the scope is
left. -/
theorem Grows.back (h : (V.opened shown fresh).Grows W) :
    V.Grows (W.back V (Nat.le_of_succ_le h.size)) :=
  ((extends_opened V shown fresh).trans h.toExtends).back

/-! ## Scopes -/

/-- A scope of `t'` shows one of `t`. If it is the one that has its names, the scopes around them
show one another too; otherwise it has no names, and the scope around it shows the same. -/
structure ShowsAt {α : Type} (W : World) (t t' : ScopeTree α) (i : Nat) : Prop where
  below : W.view i < t.size
  names : W.real i → t'.table i = t.table (W.view i)
  around : W.real i → (t'.parent? i).map W.view = t.parent? (W.view i)
  blank : ¬ W.real i → t'.table i = .empty
  behind : ¬ W.real i → ∃ p, t'.parent? i = some p ∧ W.view p = W.view i

/-- The scopes of `t'` show those of `t`, as the world says. -/
structure Shows {α : Type} (W : World) (t t' : ScopeTree α) : Prop where
  grounded : t.Grounded
  grounded' : t'.Grounded
  size : t'.size = W.size
  once : ∀ i < W.size, ∀ j < W.size, W.real i → W.real j → W.view i = W.view j → i = j
  scopes : ∀ i < W.size, W.ShowsAt t t' i

end World

section Shows

variable {α : Type} {W : World} {t t' : ScopeTree α}

namespace World.Shows

/-- Every scope of a grounded tree may show itself. -/
theorem refl (grounded : t.Grounded) {here : Nat} (inside : here < t.size) :
    Shows ⟨t.size, id, fun _ => True, here, inside⟩ t t where
  grounded := grounded
  grounded' := grounded
  size := rfl
  once _ _ _ _ _ _ h := h
  scopes i hi :=
    { below := hi
      names := fun _ => rfl
      around := fun _ => congrFun Option.map_id (t.parent? i)
      blank := fun h => absurd trivial h
      behind := fun h => absurd trivial h }

/-- Which scope is the current one does not matter. -/
theorem back (h : W.Shows t t') {V : World} (hsize : V.size ≤ W.size) :
    (W.back V hsize).Shows t t' :=
  { h with scopes := fun i hi => { h.scopes i hi with } }

theorem lt_of_parent? (h : W.Shows t t') {i p : Nat} (hi : i < W.size)
    (hp : t'.parent? i = some p) : p < W.size :=
  Nat.lt_trans (h.grounded' i p hp) hi

/-- A name stands for the same. -/
theorem get?_eq (h : W.Shows t t') {i : Nat} (hi : i < W.size) (name : String) :
    t'.get? i name = t.get? (W.view i) name := by
  induction i using Nat.strongRecOn with
  | ind i ih =>
    have hshown := h.scopes i hi
    by_cases hreal : W.real i
    · rw [ScopeTree.get?_eq h.grounded', ScopeTree.get?_eq h.grounded, hshown.names hreal,
        ← hshown.around hreal]
      cases hp : t'.parent? i with
      | none => rfl
      | some p =>
        change _ = Option.or _ (t.get? (W.view p) name)
        rw [← ih p (h.grounded' i p hp) (h.lt_of_parent? hi hp)]
        rfl
    · obtain ⟨p, hp, hview⟩ := hshown.behind hreal
      rw [ScopeTree.get?_eq h.grounded', hshown.blank hreal, hp, ← hview]
      exact ih p (h.grounded' i p hp) (h.lt_of_parent? hi hp)

/-- A name is found in the scope that shows where it is found, and that one has names. -/
theorem home?_eq (h : W.Shows t t') {i : Nat} (hi : i < W.size) (name : String) :
    (t'.home? i name).map W.view = t.home? (W.view i) name ∧
      ∀ j, t'.home? i name = some j → j < W.size ∧ W.real j := by
  induction i using Nat.strongRecOn with
  | ind i ih =>
    have hshown := h.scopes i hi
    by_cases hreal : W.real i
    · rw [ScopeTree.home?_eq h.grounded', ScopeTree.home?_eq h.grounded, hshown.names hreal,
        ← hshown.around hreal]
      split
      · refine ⟨rfl, fun j hj => ?_⟩
        cases hj
        exact ⟨hi, hreal⟩
      · cases hp : t'.parent? i with
        | none => exact ⟨rfl, nofun⟩
        | some p => exact ih p (h.grounded' i p hp) (h.lt_of_parent? hi hp)
    · obtain ⟨p, hp, hview⟩ := hshown.behind hreal
      rw [ScopeTree.home?_eq h.grounded', hshown.blank hreal, hp, ← hview]
      exact ih p (h.grounded' i p hp) (h.lt_of_parent? hi hp)

/-! ### Names -/

/-- A name is set in a scope and in the one that shows it. -/
theorem declare (h : W.Shows t t') {j : Nat} (hj : j < W.size) (hreal : W.real j) (name : String)
    (v : α) : W.Shows (t.declare (W.view j) name v) (t'.declare j name v) where
  grounded i p hp := h.grounded i p (by rwa [ScopeTree.parent?_declare] at hp)
  grounded' i p hp := h.grounded' i p (by rwa [ScopeTree.parent?_declare] at hp)
  size := by rw [ScopeTree.size_declare, h.size]
  once := h.once
  scopes i hi := by
    have hshown := h.scopes i hi
    constructor
    case below =>
      rw [ScopeTree.size_declare]
      exact hshown.below
    case names =>
      intro hi'
      by_cases hij : i = j
      · subst hij
        rw [ScopeTree.table_declare, ScopeTree.table_declare, if_pos ⟨rfl, h.size ▸ hi⟩,
          if_pos ⟨rfl, hshown.below⟩, hshown.names hi']
      · have hview : W.view i ≠ W.view j := fun heq => hij (h.once i hi j hj hi' hreal heq)
        rw [ScopeTree.table_declare_of_ne hij, ScopeTree.table_declare_of_ne hview,
          hshown.names hi']
    case around =>
      rw [ScopeTree.parent?_declare, ScopeTree.parent?_declare]
      exact hshown.around
    case blank =>
      intro hi'
      have hij : i ≠ j := fun heq => hi' (heq ▸ hreal)
      rw [ScopeTree.table_declare_of_ne hij]
      exact hshown.blank hi'
    case behind =>
      rw [ScopeTree.parent?_declare]
      exact hshown.behind

theorem declareAll (h : W.Shows t t') {j : Nat} (hj : j < W.size) (hreal : W.real j)
    (bindings : List (String × α)) :
    W.Shows (t.declareAll (W.view j) bindings) (t'.declareAll j bindings) := by
  induction bindings generalizing t t' with
  | nil => exact h
  | cons binding rest ih =>
    rw [ScopeTree.declareAll_cons, ScopeTree.declareAll_cons]
    exact ih (h.declare hj hreal binding.1 binding.2)

/-! ### Fresh scopes -/

section Fresh

variable {u : ScopeTree α} {s shown : Nat} {fresh : Prop}

/-- A scope shows what it did, when one is opened in the second tree, and the first one changes
nowhere else but in new scopes. -/
theorem showsAt_opened (h : W.Shows t t') {i : Nat} (hi : i < W.size) (size : t.size ≤ u.size)
    (names : ∀ i < t.size, u.table i = t.table i)
    (around : ∀ i < t.size, u.parent? i = t.parent? i) :
    (W.opened shown fresh).ShowsAt u (t'.enclose s).1 i := by
  have hextends : W.Extends (W.opened shown fresh) := extends_opened W shown fresh
  have hview := hextends.view i hi
  have hreal := hextends.real i hi
  have hparent : (t'.enclose s).1.parent? i = t'.parent? i := by
    rw [ScopeTree.parent?_enclose, h.size, if_neg (Nat.ne_of_lt hi)]
  have hshown := h.scopes i hi
  constructor
  case below =>
    rw [hview]
    exact Nat.lt_of_lt_of_le hshown.below size
  case names =>
    rw [hview, hreal, ScopeTree.table_enclose, names _ hshown.below]
    exact hshown.names
  case around =>
    rw [hview, hreal, hparent, around _ hshown.below]
    intro hreal
    rw [← hshown.around hreal]
    cases hp : t'.parent? i with
    | none => rfl
    | some p => exact congrArg some (hextends.view p (h.lt_of_parent? hi hp))
  case blank =>
    rw [hreal, ScopeTree.table_enclose]
    exact hshown.blank
  case behind =>
    rw [hview, hreal, hparent]
    intro hreal
    obtain ⟨p, hp, hsame⟩ := hshown.behind hreal
    exact ⟨p, hp, (hextends.view p (h.lt_of_parent? hi hp)).trans hsame⟩

/-- If the fresh scope has names, it shows one that no other scope shows. -/
theorem once_opened (h : W.Shows t t') (apart : fresh → t.size ≤ shown) :
    ∀ i < W.size + 1, ∀ j < W.size + 1, (W.opened shown fresh).real i →
      (W.opened shown fresh).real j →
      (W.opened shown fresh).view i = (W.opened shown fresh).view j → i = j := by
  have hextends : W.Extends (W.opened shown fresh) := extends_opened W shown fresh
  have differs {i : Nat} (hi : i < W.size) (hfresh : (W.opened shown fresh).real W.size)
      (hview : (W.opened shown fresh).view i = (W.opened shown fresh).view W.size) : False := by
    rw [hextends.view i hi, view_opened] at hview
    have hbelow := (h.scopes i hi).below
    have hapart := apart (real_opened.mp hfresh)
    omega
  intro i hi j hj hreal hreal' hview
  rcases Nat.lt_succ_iff_lt_or_eq.mp hi with hi | rfl
  · rcases Nat.lt_succ_iff_lt_or_eq.mp hj with hj | rfl
    · rw [hextends.real i hi] at hreal
      rw [hextends.real j hj] at hreal'
      rw [hextends.view i hi, hextends.view j hj] at hview
      exact h.once i hi j hj hreal hreal' hview
    · exact (differs hi hreal' hview).elim
  · rcases Nat.lt_succ_iff_lt_or_eq.mp hj with hj | rfl
    · exact (differs hj hreal hview.symm).elim
    · rfl

theorem parent?_new (h : W.Shows t t') (s : Nat) :
    (t'.enclose s).1.parent? W.size = some s := by
  rw [ScopeTree.parent?_enclose, h.size, if_pos rfl]

theorem table_new (h : W.Shows t t') (s : Nat) : (t'.enclose s).1.table W.size = .empty := by
  rw [ScopeTree.table_enclose, ScopeTree.table_of_size_le (Nat.le_of_eq h.size)]

/-- Scopes inside of scopes that show one another. -/
theorem enclose (h : W.Shows t t') (hs : s < W.size) :
    (W.opened t.size True).Shows (t.enclose (W.view s)).1 (t'.enclose s).1 where
  grounded := ScopeTree.enclose_grounded h.grounded (h.scopes s hs).below
  grounded' := ScopeTree.enclose_grounded h.grounded' (h.size ▸ hs)
  size := (ScopeTree.size_enclose t' s).trans (congrArg Nat.succ h.size)
  once := h.once_opened fun _ => Nat.le_refl _
  scopes i hi := by
    have hsize := ScopeTree.size_enclose t (W.view s)
    rcases Nat.lt_succ_iff_lt_or_eq.mp hi with hi | rfl
    · refine h.showsAt_opened hi (by omega) (fun i _ => ScopeTree.table_enclose t (W.view s) i)
        fun i hi => ?_
      rw [ScopeTree.parent?_enclose, if_neg (Nat.ne_of_lt hi)]
    · constructor
      case below =>
        rw [view_opened]
        omega
      case names =>
        intro _
        rw [view_opened, h.table_new, ScopeTree.table_enclose,
          ScopeTree.table_of_size_le (Nat.le_refl _)]
      case around =>
        intro _
        rw [view_opened, h.parent?_new, ScopeTree.parent?_enclose, if_pos rfl]
        exact congrArg some ((extends_opened W t.size True).view s hs)
      case blank => exact fun hnot => absurd (real_opened.mpr trivial) hnot
      case behind => exact fun hnot => absurd (real_opened.mpr trivial) hnot

/-- A scope inside of another one that shows the same. -/
theorem encloseBlank (h : W.Shows t t') (hs : s < W.size) :
    (W.opened (W.view s) False).Shows t (t'.enclose s).1 where
  grounded := h.grounded
  grounded' := ScopeTree.enclose_grounded h.grounded' (h.size ▸ hs)
  size := (ScopeTree.size_enclose t' s).trans (congrArg Nat.succ h.size)
  once := h.once_opened False.elim
  scopes i hi := by
    rcases Nat.lt_succ_iff_lt_or_eq.mp hi with hi | rfl
    · exact h.showsAt_opened hi (Nat.le_refl _) (fun _ _ => rfl) fun _ _ => rfl
    · constructor
      case below =>
        rw [view_opened]
        exact (h.scopes s hs).below
      case names => exact fun hreal => (real_opened.mp hreal).elim
      case around => exact fun hreal => (real_opened.mp hreal).elim
      case blank => exact fun _ => h.table_new s
      case behind =>
        intro _
        refine ⟨s, h.parent?_new s, ?_⟩
        rw [view_opened]
        exact (extends_opened W (W.view s) False).view s hs

end Fresh
end World.Shows
end Shows
end FunkLang
