-- A blank scope gets names. It showed the scope around it, without names of its own; where nothing
-- else stands in it, it may as well be the scope that the first run opens only now.
import FunkLang.Proofs.BlankScopes
import FunkLang.Proofs.BracedRuns

namespace FunkLang

/-! ## Worlds -/

namespace World

variable {U W : World} {b shown i : Nat}

/-- The scope `b` shows `shown`, and has its names. -/
def settled (W : World) (b shown : Nat) : World :=
  { W with
    view := fun i => if i = b then shown else W.view i
    real := fun i => i = b ∨ W.real i }

theorem view_settled_self : (W.settled b shown).view b = shown := if_pos rfl

theorem view_settled (hi : i ≠ b) : (W.settled b shown).view i = W.view i := if_neg hi

theorem real_settled (hi : i ≠ b) : (W.settled b shown).real i ↔ W.real i := or_iff_right hi

/-- A world stays part of another one in which a scope gets names that is new. -/
theorem Extends.settled (h : U.Extends W) (hb : U.size ≤ b) : U.Extends (W.settled b shown) where
  size := h.size
  view i hi := (view_settled (by omega)).trans (h.view i hi)
  real i hi := (real_settled (by omega)).trans (h.real i hi)

/-- The blank scope `b` comes to show a scope that is opened inside the one that it showed. -/
theorem Shows.settle {α : Type} {t t' : ScopeTree α} (h : W.Shows t t') (hb : b < W.size)
    (blank : ¬ W.real b) (apart : ∀ i, t'.parent? i ≠ some b) :
    (W.settled b t.size).Shows (t.enclose (W.view b)).1 t' where
  grounded := ScopeTree.enclose_grounded h.grounded (h.scopes b hb).below
  grounded' := h.grounded'
  size := h.size
  once i hi j hj hreal hreal' hview := by
    by_cases hib : i = b
    · by_cases hjb : j = b
      · exact hib.trans hjb.symm
      · have hbelow := (h.scopes j hj).below
        rw [hib, view_settled_self, view_settled hjb] at hview
        omega
    · by_cases hjb : j = b
      · have hbelow := (h.scopes i hi).below
        rw [hjb, view_settled_self, view_settled hib] at hview
        omega
      · rw [view_settled hib, view_settled hjb] at hview
        exact h.once i hi j hj ((real_settled hib).mp hreal) ((real_settled hjb).mp hreal') hview
  scopes i hi := by
    have hshown := h.scopes i hi
    have around (hi : i ≠ b) : (t'.parent? i).map (W.settled b t.size).view =
        (t'.parent? i).map W.view := by
      cases hp : t'.parent? i with
      | none => rfl
      | some p =>
        have hpb : p ≠ b := fun heq => apart i (hp.trans (congrArg some heq))
        exact congrArg some (view_settled hpb)
    by_cases hib : i = b
    · subst hib
      obtain ⟨p, hp, hview⟩ := hshown.behind blank
      have hpi : p ≠ i := Nat.ne_of_lt (h.grounded' i p hp)
      constructor
      case below =>
        rw [view_settled_self, ScopeTree.size_enclose]
        exact Nat.lt_succ_self _
      case names =>
        intro _
        rw [view_settled_self, hshown.blank blank, ScopeTree.table_enclose,
          ScopeTree.table_of_size_le (Nat.le_refl _)]
      case around =>
        intro _
        rw [view_settled_self, hp, ScopeTree.parent?_enclose, if_pos rfl, Option.map_some,
          view_settled hpi, hview]
      case blank => exact fun hnot => absurd (Or.inl rfl) hnot
      case behind => exact fun hnot => absurd (Or.inl rfl) hnot
    · have hne : W.view i ≠ t.size := Nat.ne_of_lt hshown.below
      constructor
      case below =>
        rw [view_settled hib, ScopeTree.size_enclose]
        exact Nat.lt_succ_of_lt hshown.below
      case names =>
        rw [real_settled hib, view_settled hib, ScopeTree.table_enclose]
        exact hshown.names
      case around =>
        rw [real_settled hib, view_settled hib, around hib, ScopeTree.parent?_enclose, if_neg hne]
        exact hshown.around
      case blank =>
        rw [real_settled hib]
        exact hshown.blank
      case behind =>
        rw [real_settled hib, view_settled hib]
        intro hnot
        obtain ⟨p, hp, hview⟩ := hshown.behind hnot
        have hpb : p ≠ b := fun heq => apart i (hp.trans (congrArg some heq))
        exact ⟨p, hp, (view_settled hpb).trans hview⟩

end World

/-! ## Machines -/

section Machines

variable {most : Nat} {W : World} {m m' : Machine}

/-- The current scope of the second machine is blank. A name is set in it, while the first machine
opens a scope with that name. -/
theorem Mirrors.settle (h : Mirrors most W m m') (blank : ¬ W.real W.here)
    (apart : BlankIn W.here m') (name : String) (v : Value) :
    Mirrors most (W.settled W.here m.opened) (m.enclose m.scope [(name, v)])
      { m' with scopes := m'.scopes.declare m'.scope name v } := by
  obtain ⟨scopes, functions⟩ := apart.apart h.shows.grounded'
  have shows := h.shows.settle W.inside blank scopes
  rw [← h.scope] at shows
  have opened : Mirrors most (W.settled W.here m.opened) (m.enclose m.scope []) m' :=
    { shows
      here := h.here
      scope := World.view_settled_self.symm
      count := h.count
      twins := fun i => { h.twins i with
        scope := (h.twins i).scope.trans (World.view_settled (functions i)).symm }
      rest := h.rest }
  have declared := opened.declare W.inside (Or.inl rfl) name v
  have same : m'.scopes.declare W.here name v = m'.scopes.declare m'.scope name v := by rw [h.here]
  rw [World.view_settled_self, same] at declared
  exact declared

end Machines
end FunkLang
