-- What a run leaves as it was. Whatever part of a program runs, and however it
-- ends, it goes back to the scope and to the count of active calls that it
-- started with; of the scopes that were there, only the current one can have
-- got names, and only those that the part itself declares.
import FunkLang.Proofs.Evaluation
import FunkLang.Proofs.LocalSteps
import FunkLang.Proofs.ScopeTree

namespace FunkLang

/-! ## The frame of a step -/

theorem builtinScopes_grounded : builtinScopes.Grounded := by
  intro s p hp
  cases s <;> cases hp

/-- How many scopes have been opened. -/
def Machine.opened (m : Machine) : Nat := m.scopes.size

/-- Does a scope have a name of its own? -/
def Machine.Binds (m : Machine) (s : Nat) (name : String) : Prop :=
  (m.scopes.table s).contains name = true

/-- From `m` to `m'`, only names of `added` are new, and they are new in the current scope. -/
structure Kept (added : List String) (m m' : Machine) : Prop where
  scope : m'.scope = m.scope
  depth : m'.depth = m.depth
  opened : m.opened ≤ m'.opened
  noted : m.notes.size ≤ m'.notes.size
  parents : ∀ s < m.opened, m'.scopes.parent? s = m.scopes.parent? s
  bound : ∀ s name, m.Binds s name → m'.Binds s name
  unbound : ∀ s < m.opened, ∀ name, m'.Binds s name →
    m.Binds s name ∨ s = m.scope ∧ name ∈ added

namespace Kept

theorem refl (added : List String) (m : Machine) : Kept added m m where
  scope := rfl
  depth := rfl
  opened := Nat.le_refl _
  noted := Nat.le_refl _
  parents _ _ := rfl
  bound _ _ h := h
  unbound _ _ _ h := Or.inl h

variable {added more : List String} {m m1 m2 : Machine}

theorem mono (h : Kept added m m1) (hsub : ∀ name ∈ added, name ∈ more) : Kept more m m1 :=
  { h with
    unbound := fun s hs name hb =>
      (h.unbound s hs name hb).imp_right fun hn => ⟨hn.1, hsub name hn.2⟩ }

theorem trans (h : Kept added m m1) (h' : Kept added m1 m2) : Kept added m m2 where
  scope := h'.scope.trans h.scope
  depth := h'.depth.trans h.depth
  opened := Nat.le_trans h.opened h'.opened
  noted := Nat.le_trans h.noted h'.noted
  parents s hs := (h'.parents s (Nat.lt_of_lt_of_le hs h.opened)).trans (h.parents s hs)
  bound s name hb := h'.bound s name (h.bound s name hb)
  unbound s hs name hb := by
    rcases h'.unbound s (Nat.lt_of_lt_of_le hs h.opened) name hb with h1 | ⟨hs1, hn⟩
    · exact h.unbound s hs name h1
    · exact Or.inr ⟨hs1.trans h.scope, hn⟩

end Kept

instance (added : List String) : Std.Refl (Kept added) := ⟨Kept.refl added⟩

instance (added : List String) : IsTrans Machine (Kept added) := ⟨fun _ _ _ => Kept.trans⟩

theorem Keeps.more {α : Type} {x : Run α} {added : List String} (h : Keeps (Kept []) x) :
    Keeps (Kept added) x := h.imp fun _ _ hk => hk.mono (by simp)

/-- A run that declares nothing, and then one that declares nothing either. -/
theorem Keeps.andThen {α β : Type} {added : List String} {x : Run α} {f : α → Run β}
    (hx : Keeps (Kept added) x) (hf : ∀ a, Keeps (Kept added) (f a)) :
    Keeps (Kept added) (x >>= f) := hx.bind (fun _ _ h => h) hf

/-! ## Steps that touch no scope -/

/-- A change of the machine that touches neither scopes nor calls. -/
theorem kept_of_same {m m' : Machine} (hscopes : m'.scopes = m.scopes) (hscope : m'.scope = m.scope)
    (hdepth : m'.depth = m.depth) (hnotes : m.notes.size ≤ m'.notes.size) : Kept [] m m' where
  scope := hscope
  depth := hdepth
  opened := Nat.le_of_eq (by unfold Machine.opened; rw [hscopes])
  noted := hnotes
  parents _ _ := by rw [hscopes]
  bound _ _ h := by unfold Machine.Binds at *; rwa [hscopes]
  unbound _ _ _ h := by unfold Machine.Binds at *; rw [hscopes] at h; exact Or.inl h

namespace Run

variable {α β : Type} {added : List String}

theorem keeps_pure (a : α) : Keeps (Kept added) (pure a : Run α) := fun m => Kept.refl added m

theorem keeps_throw (stop : Stop) : Keeps (Kept added) (throw stop : Run α) :=
  fun m => Kept.refl added m

theorem keeps_get : Keeps (Kept added) (get : Run Machine) := fun m => Kept.refl added m

theorem keeps_fail (cause : FaultCause) (line : Int) :
    Keeps (Kept added) (fail cause line : Run α) :=
  keeps_throw _

theorem keeps_note (n : Note) : Keeps (Kept []) (note n) :=
  fun _ => kept_of_same rfl rfl rfl (by simp)

theorem keeps_allocate (make : Heap → Value × Heap) : Keeps (Kept []) (allocate make) :=
  fun _ => kept_of_same rfl rfl rfl (Nat.le_refl _)

theorem keeps_local {kind : FaultCause → Bool} {x : Run α} (h : Local kind x) :
    Keeps (Kept added) x := by
  have kept : ∀ m m' : Machine, SameScopes m m' → Kept added m m' := fun m m' hs =>
    (kept_of_same hs.scopes hs.scope hs.depth (Nat.le_of_eq (by rw [hs.notes]))).mono (by simp)
  exact fun m => (h m).imp (fun _ m' => kept m m') (fun _ m' hs => kept m m' hs.1)

theorem keeps_writeLine (room : Nat) (values : List Value) :
    Keeps (Kept added) (writeLine room values) :=
  keeps_local (local_writeLine room values : Local FaultCause.ofOperator _)

/-! ## Steps that set names -/

theorem binds_declare {m : Machine} {s i : Nat} {name x : String} {v : Value} :
    ({ m with scopes := m.scopes.declare s name v } : Machine).Binds i x ↔
      m.Binds i x ∨ i = s ∧ s < m.opened ∧ x = name :=
  ScopeTree.contains_table_declare

theorem kept_declare (m : Machine) (s : Nat) (name : String) (v : Value)
    (h : s < m.opened → m.Binds s name ∨ s = m.scope ∧ name ∈ added) :
    Kept added m { m with scopes := m.scopes.declare s name v } where
  scope := rfl
  depth := rfl
  opened := by simp [Machine.opened]
  noted := Nat.le_refl _
  parents i _ := by simp
  bound i x hb := binds_declare.mpr (Or.inl hb)
  unbound i _ x hb := by
    rcases binds_declare.mp hb with hb | ⟨rfl, hs, rfl⟩
    · exact Or.inl hb
    · exact h hs

theorem keeps_declare (name : String) (v : Value) : Keeps (Kept [name]) (declare name v) := by
  intro m
  exact kept_declare m m.scope name v fun _ => Or.inr ⟨rfl, by simp⟩

/-- An assignment sets a name where it is bound already. -/
theorem keeps_assign (name : String) (v : Value) (line : Int) :
    Keeps (Kept []) (assign name v line) := by
  intro m
  unfold assign
  rw [ends_bind, ends_get]
  cases h : m.scopes.home? m.scope name with
  | some home =>
    exact kept_declare m home name v fun _ => Or.inl (ScopeTree.contains_of_home? h)
  | none => exact Kept.refl [] m

/-! ## Scopes of their own -/

section Enclose

variable (m : Machine) (parent : Nat) (bindings : List (String × Value))

theorem enclose_scope : (m.enclose parent bindings).scope = m.opened := rfl

theorem enclose_opened : (m.enclose parent bindings).opened = m.opened + 1 := by
  simp [Machine.opened, Machine.enclose]

theorem enclose_parent? (i : Nat) :
    (m.enclose parent bindings).scopes.parent? i =
      if i = m.opened then some parent else m.scopes.parent? i := by
  unfold Machine.opened Machine.enclose
  simp only [ScopeTree.parent?_declareAll, ScopeTree.parent?_enclose]

variable {m parent bindings}

theorem binds_enclose {i : Nat} {x : String} :
    (m.enclose parent bindings).Binds i x ↔
      m.Binds i x ∨ i = m.opened ∧ x ∈ bindings.map Prod.fst := by
  unfold Machine.Binds Machine.enclose
  simp only [ScopeTree.contains_table_declareAll, ScopeTree.table_enclose,
    ScopeTree.enclose_number, ScopeTree.size_enclose]
  simp [Machine.opened]

/-- What happens in a fresh scope leaves the scopes around it as they were. -/
theorem kept_enclosed {m' : Machine} (h : Kept added (m.enclose parent bindings) m') :
    Kept [] m { m' with scope := m.scope } where
  scope := rfl
  depth := h.depth
  opened := by
    have := h.opened
    rw [enclose_opened] at this
    exact Nat.le_of_succ_le this
  noted := h.noted
  parents i hi := by
    have := h.parents i (by rw [enclose_opened]; omega)
    rw [enclose_parent?, if_neg (Nat.ne_of_lt hi)] at this
    exact this
  bound i x hb := h.bound i x (binds_enclose.mpr (Or.inl hb))
  unbound i hi x hb := by
    rcases h.unbound i (by rw [enclose_opened]; omega) x hb with hb | ⟨hscope, _⟩
    · rcases binds_enclose.mp hb with hb | ⟨rfl, _⟩
      · exact Or.inl hb
      · exact absurd hi (Nat.lt_irrefl _)
    · rw [enclose_scope] at hscope
      exact absurd hi (by omega)

end Enclose

theorem keeps_enclosed {parent : Nat} {bindings : List (String × Value)} {body : Run α}
    (h : Keeps (Kept added) body) : Keeps (Kept []) (enclosed parent bindings body) := by
  intro m
  have hbody := h (m.enclose parent bindings)
  unfold enclosed
  simp only
  split
  · rename_i heq
    rw [heq] at hbody
    exact kept_enclosed hbody
  · rename_i heq
    rw [heq] at hbody
    exact kept_enclosed hbody

/-- A call counts one more while its body runs, and one less again after it. -/
theorem keeps_activation {name : String} {line : Int} {body : Run Flow}
    (h : Keeps (Kept []) body) : Keeps (Kept []) (activation name line body) := by
  intro m
  have leave : ∀ m', Kept [] { m with depth := m.depth + 1 } m' →
      Kept [] m { m' with depth := m'.depth - 1 } := by
    intro m' hk
    have hdepth : m'.depth = m.depth + 1 := hk.depth
    exact ⟨hk.scope, by simp [hdepth], hk.opened, hk.noted, hk.parents, hk.bound, hk.unbound⟩
  have hbody := h { m with depth := m.depth + 1 }
  unfold activation
  split <;> rename_i heq <;> rw [heq] at hbody <;> exact leave _ hbody

/-! ## Sequences and loops -/

theorem keeps_inTurn {act : α → Run Flow} {items : List α}
    (h : ∀ a ∈ items, Keeps (Kept added) (act a)) : Keeps (Kept added) (inTurn act items) := by
  induction items with
  | nil => exact keeps_pure _
  | cons a rest ih =>
    unfold inTurn
    refine (h a List.mem_cons_self).andThen fun flow => ?_
    cases flow with
    | next => exact ih fun b hb => h b (List.mem_cons_of_mem _ hb)
    | returned v => exact keeps_pure _

theorem keeps_whileHolds {test : Run Bool} {body : Run Flow} (htest : Keeps (Kept added) test)
    (hbody : Keeps (Kept added) body) (turns : Nat) :
    Keeps (Kept added) (whileHolds test body turns) := by
  induction turns with
  | zero => exact keeps_throw _
  | succ turns ih =>
    unfold whileHolds
    refine htest.andThen fun holds => ?_
    cases holds with
    | false => exact keeps_pure _
    | true =>
      refine hbody.andThen fun flow => ?_
      cases flow with
      | next => exact ih
      | returned v => exact keeps_pure _

theorem keeps_mapM {act : α → Run β} {items : List α} (h : ∀ a, Keeps (Kept added) (act a)) :
    Keeps (Kept added) (items.mapM act) := by
  induction items with
  | nil => exact keeps_pure _
  | cons a rest ih =>
    rw [List.mapM_cons]
    exact (h a).andThen fun b => ih.andThen fun bs => keeps_pure _

theorem keeps_forM {act : α → Run PUnit} {items : List α}
    (h : ∀ a ∈ items, Keeps (Kept added) (act a)) : Keeps (Kept added) (items.forM act) := by
  induction items with
  | nil => exact keeps_pure _
  | cons a rest ih =>
    exact (h a List.mem_cons_self).andThen fun _ => ih fun b hb => h b (List.mem_cons_of_mem _ hb)

end Run
end FunkLang
