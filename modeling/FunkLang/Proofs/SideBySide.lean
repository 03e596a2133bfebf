-- Two passes side by side, one over a program and one over a program that is
-- written in another way. Each step of the one goes with a step of the other,
-- so both come to the same end, unless one of them has too little room.
import FunkLang.Proofs.Outcome
import Mathlib.Data.List.Forall2

namespace FunkLang

variable {ε σ ω α β : Type}

/-! ## States that go together -/

/-- How the states of two passes go together. What is said of two states is said in a world, which
may grow with every step. An error may be for want of room. -/
structure Pairing (ε σ ω : Type) where
  short : ε → Prop
  related : ω → σ → σ → Prop
  grows : ω → ω → Prop
  grows_refl : ∀ w, grows w w
  grows_trans : ∀ {u v w}, grows u v → grows v w → grows u w

namespace Pairing

variable {P P' : Pairing ε σ ω} {left right left' right' : Prop}

/-- Two ends that go together: the same answer or the same error, in related states, or an error
for want of room, of the first pass only if `left` holds, of the second only if `right` does. -/
inductive Even (P : Pairing ε σ ω) (left right : Prop) (w : ω) :
    EStateM.Result ε σ α → EStateM.Result ε σ α → Prop
  | ok {a s s' w'} : P.grows w w' → P.related w' s s' → Even P left right w (.ok a s) (.ok a s')
  | error {e s s' w'} : P.grows w w' → P.related w' s s' →
    Even P left right w (.error e s) (.error e s')
  | left {e s r} : P.short e → left → Even P left right w (.error e s) r
  | right {e s r} : P.short e → right → Even P left right w r (.error e s)

/-- From related states two passes come to ends that go together. -/
def Alike (P : Pairing ε σ ω) (left right : Prop) (x x' : EStateM ε σ α) : Prop :=
  ∀ w s s', P.related w s s' → P.Even left right w (x s) (x' s')

/-- The same pairing, in worlds of which something more holds. -/
def on (P : Pairing ε σ ω) (holds : ω → Prop) : Pairing ε σ ω :=
  { P with related := fun w s s' => P.related w s s' ∧ holds w }

/-! ## Ends -/

/-- An end with all that belongs to it changed. -/
def recast (answer : α → β) (error : ε → ε) (state : σ → σ) :
    EStateM.Result ε σ α → EStateM.Result ε σ β
  | .ok a s => .ok (answer a) (state s)
  | .error e s => .error (error e) (state s)

theorem recast_id (r : EStateM.Result ε σ α) : recast id id id r = r := by
  cases r <;> rfl

namespace Even

variable {w w' : ω} {r r' : EStateM.Result ε σ α}

theorem imp (h : P.Even left right w r r') (hleft : left → left') (hright : right → right') :
    P.Even left' right' w r r' := by
  cases h with
  | ok hw hs => exact .ok hw hs
  | error hw hs => exact .error hw hs
  | left he hl => exact .left he (hleft hl)
  | right he hr => exact .right he (hright hr)

theorem grown (h : P.Even left right w' r r') (hw : P.grows w w') :
    P.Even left right w r r' := by
  cases h with
  | ok hw' hs => exact .ok (P.grows_trans hw hw') hs
  | error hw' hs => exact .error (P.grows_trans hw hw') hs
  | left he hl => exact .left he hl
  | right he hr => exact .right he hr

/-- The states afterwards may be changed to others that go together. -/
theorem recast {answer : α → β} {error : ε → ε} {state state' : σ → σ}
    (h : P.Even left right w r r') (hshort : ∀ e, P.short e → P'.short (error e))
    (hstates : ∀ v s s', P.grows w v → P.related v s s' →
      ∃ v', P'.grows w' v' ∧ P'.related v' (state s) (state' s')) :
    P'.Even left right w' (Pairing.recast answer error state r)
      (Pairing.recast answer error state' r') := by
  cases h with
  | ok hw hs =>
    obtain ⟨v', hv', hs'⟩ := hstates _ _ _ hw hs
    exact .ok hv' hs'
  | error hw hs =>
    obtain ⟨v', hv', hs'⟩ := hstates _ _ _ hw hs
    exact .error hv' hs'
  | left he hl => exact .left (hshort _ he) hl
  | right he hr => exact .right (hshort _ he) hr

/-- What holds of the world may be forgotten. -/
theorem of_on {holds : ω → Prop} (h : (P.on holds).Even left right w r r') :
    P.Even left right w r r' := by
  cases h with
  | ok hw hs => exact .ok hw hs.1
  | error hw hs => exact .error hw hs.1
  | left he hl => exact .left he hl
  | right he hr => exact .right he hr

end Even

/-! ## Passes -/

namespace Alike

variable {x x' : EStateM ε σ α}

theorem imp (h : P.Alike left right x x') (hleft : left → left') (hright : right → right') :
    P.Alike left' right' x x' := fun w s s' hs => (h w s s' hs).imp hleft hright

theorem pure (a : α) : P.Alike left right (Pure.pure a : EStateM ε σ α) (Pure.pure a) :=
  fun w _ _ hs => .ok (P.grows_refl w) hs

theorem throw (e : ε) :
    P.Alike left right (MonadExcept.throw e : EStateM ε σ α) (MonadExcept.throw e) :=
  fun w _ _ hs => .error (P.grows_refl w) hs

theorem bind {f f' : α → EStateM ε σ β} (hx : P.Alike left right x x')
    (hf : ∀ a, P.Alike left right (f a) (f' a)) :
    P.Alike left right (x >>= f) (x' >>= f') := by
  intro w s s' hs
  change P.Even left right w (EStateM.bind x f s) (EStateM.bind x' f' s')
  unfold EStateM.bind
  have hend := hx w s s' hs
  generalize x s = r at hend ⊢
  generalize x' s' = r' at hend ⊢
  cases hend with
  | ok hw hs1 => exact (hf _ _ _ _ hs1).grown hw
  | error hw hs1 => exact .error hw hs1
  | left he hl => exact .left he hl
  | right he hr => exact .right he hr

/-- A look at the state. What follows may use what is seen. -/
theorem get {f f' : σ → EStateM ε σ α}
    (h : ∀ w s s', P.related w s s' → P.Even left right w (f s s) (f' s' s')) :
    P.Alike left right (MonadState.get >>= f) (MonadState.get >>= f') := h

theorem modify {f f' : σ → σ} (h : ∀ w s s', P.related w s s' → P.related w (f s) (f' s')) :
    P.Alike left right (modify f : EStateM ε σ PUnit) (modify f') :=
  fun w s s' hs => .ok (P.grows_refl w) (h w s s' hs)

theorem mapM {act act' : β → EStateM ε σ α} {items : List β}
    (each : ∀ b ∈ items, P.Alike left right (act b) (act' b)) :
    P.Alike left right (items.mapM act) (items.mapM act') := by
  induction items with
  | nil => exact pure []
  | cons b rest ih =>
    rw [List.mapM_cons, List.mapM_cons]
    refine (each b List.mem_cons_self).bind fun a => ?_
    refine (ih fun c hc => each c (List.mem_cons_of_mem _ hc)).bind fun as => ?_
    exact pure (a :: as)

/-- One pass for each item of two lists in step. -/
theorem forM {γ : Type} {act : β → EStateM ε σ PUnit} {act' : γ → EStateM ε σ PUnit}
    {items : List β} {items' : List γ}
    (each : List.Forall₂ (fun b c => P.Alike left right (act b) (act' c)) items items') :
    P.Alike left right (items.forM act) (items'.forM act') := by
  induction each with
  | nil => exact pure PUnit.unit
  | cons h _ ih => exact h.bind fun _ => ih

/-- Less is asked of the worlds before, and no more is said of those afterwards. -/
theorem through {P' : Pairing ε σ ω} (h : P.Alike left right x x')
    (hshort : ∀ e, P.short e → P'.short e) (hgrows : ∀ w w', P.grows w w' → P'.grows w w')
    (before : ∀ w s s', P'.related w s s' → P.related w s s')
    (after : ∀ w w' s s' t t', P'.related w s s' → P.grows w w' → P.related w' t t' →
      P'.related w' t t') : P'.Alike left right x x' := by
  intro w s s' hs
  have hend := h w s s' (before w s s' hs)
  generalize x s = r at hend ⊢
  generalize x' s' = r' at hend ⊢
  cases hend with
  | ok hw hs1 => exact .ok (hgrows _ _ hw) (after _ _ _ _ _ _ hs hw hs1)
  | error hw hs1 => exact .error (hgrows _ _ hw) (after _ _ _ _ _ _ hs hw hs1)
  | left he hl => exact .left (hshort _ he) hl
  | right he hr => exact .right (hshort _ he) hr

variable {holds holds' : ω → Prop}

/-- What holds of all worlds that grow out of one may be carried along. -/
theorem on (up : ∀ w w', P.grows w w' → holds w → holds w') (h : P.Alike left right x x') :
    (P.on holds).Alike left right x x' :=
  h.through (fun _ he => he) (fun _ _ hw => hw) (fun _ _ _ hs => hs.1)
    fun w w' _ _ _ _ hs hw ht => ⟨ht, up w w' hw hs.2⟩

/-- What holds of all worlds need not be carried along. -/
theorem off (always : ∀ w, holds w) (h : (P.on holds).Alike left right x x') :
    P.Alike left right x x' :=
  h.through (fun _ he => he) (fun _ _ hw => hw) (fun w _ _ hs => ⟨hs, always w⟩)
    fun _ _ _ _ _ _ _ _ ht => ht.1

/-- Less is needed than is carried along. -/
theorem onto (up : ∀ w w', P.grows w w' → holds' w → holds' w') (himp : ∀ w, holds' w → holds w)
    (h : (P.on holds).Alike left right x x') : (P.on holds').Alike left right x x' :=
  h.through (fun _ he => he) (fun _ _ hw => hw) (fun w _ _ hs => ⟨hs.1, himp w hs.2⟩)
    fun w w' _ _ _ _ hs hw ht => ⟨ht.1, up w w' hw hs.2⟩

/-- Passes that cannot begin with less than `least` of the room. -/
theorem of_least {least room room' : Nat} {x y : Nat → EStateM ε σ α} {e : ε} (he : P.short e)
    (hx : ∀ r, r < least → x r = MonadExcept.throw e)
    (hy : ∀ r, r < least → y r = MonadExcept.throw e)
    (hleft : room < room' → left) (hright : room' < room → right)
    (h : ∀ r r', room = r + least → room' = r' + least →
      P.Alike left right (x (r + least)) (y (r' + least))) :
    P.Alike left right (x room) (y room') := by
  by_cases hroom : room < least
  · rw [hx room hroom]
    by_cases hroom' : room' < least
    · rw [hy room' hroom']
      exact throw e
    · exact fun _ _ _ _ => .left he (hleft (by omega))
  · by_cases hroom' : room' < least
    · rw [hy room' hroom']
      exact fun _ _ _ _ => .right he (hright (by omega))
    · obtain ⟨r, rfl⟩ : ∃ r, room = r + least := ⟨room - least, by omega⟩
      obtain ⟨r', rfl⟩ : ∃ r', room' = r' + least := ⟨room' - least, by omega⟩
      exact h r r' rfl rfl

end Alike
end Pairing

/-! ## Ends for want of room -/

/-- The same answer or the same error, in states that go together. -/
inductive EndsAlike (related : σ → σ → Prop) :
    EStateM.Result ε σ α → EStateM.Result ε σ α → Prop
  | ok {a s s'} : related s s' → EndsAlike related (.ok a s) (.ok a s')
  | error {e s s'} : related s s' → EndsAlike related (.error e s) (.error e s')

/-- An end with an error for want of room. -/
def EndsShort (short : ε → Prop) : EStateM.Result ε σ α → Prop
  | .ok _ _ => False
  | .error e _ => short e

/-- Two passes, of which each is given some room, come to the same unless they are short of it. The
second may need so much `more` room than the first, but no less than that. -/
structure AlikeButForRoom (short : ε → Prop) (related : σ → σ → Prop) (more : Nat)
    (pass pass' : Nat → EStateM.Result ε σ α) : Prop where
  same : ∀ room room', ¬ EndsShort short (pass room) → ¬ EndsShort short (pass' room') →
    EndsAlike related (pass room) (pass' room')
  enough : ∀ room room', room + more ≤ room' → ¬ EndsShort short (pass room) →
    ¬ EndsShort short (pass' room')
  needed : ∀ room room', room' ≤ room → ¬ EndsShort short (pass' room') →
    ¬ EndsShort short (pass room)

namespace EndsShort

variable {P : Pairing ε σ ω} {short : ε → Prop} {left right : Prop} {w : ω}
  {r r' : EStateM.Result ε σ α}

theorem onLeft (h : EndsShort P.short r) (hleft : left) : P.Even left right w r r' := by
  cases r with
  | ok => exact h.elim
  | error => exact .left h hleft

theorem onRight (h : EndsShort P.short r') (hright : right) : P.Even left right w r r' := by
  cases r' with
  | ok => exact h.elim
  | error => exact .right h hright

theorem bind {x : EStateM ε σ α} {s : σ} (h : EndsShort short (x s)) (f : α → EStateM ε σ β) :
    EndsShort short ((x >>= f) s) := by
  cases hx : x s with
  | ok =>
    rw [hx] at h
    exact h.elim
  | error e s1 =>
    rw [hx] at h
    rwa [bind_of_error hx]

theorem recast (h : EndsShort short r) (state : σ → σ) :
    EndsShort short (Pairing.recast id id state r) := by
  cases r with
  | ok => exact h
  | error => exact h

end EndsShort

theorem EndsAlike.short {short : ε → Prop} {related : σ → σ → Prop} {r r' : EStateM.Result ε σ α}
    (h : EndsAlike related r r') : EndsShort short r' ↔ EndsShort short r := by
  cases h with
  | ok => exact Iff.rfl
  | error => exact Iff.rfl

/-- Passes whose ends go together come to the same. -/
theorem AlikeButForRoom.of_even {P : Pairing ε σ ω} {related : σ → σ → Prop} {more : Nat}
    {pass pass' : Nat → EStateM.Result ε σ α} (w : ω)
    (h : ∀ room room', P.Even (room < room') (room' < room + more) w (pass room) (pass' room'))
    (hrelated : ∀ room room' w', P.grows w w' →
      P.related w' (stateAfter (pass room)) (stateAfter (pass' room')) →
        related (stateAfter (pass room)) (stateAfter (pass' room'))) :
    AlikeButForRoom P.short related more pass pass' := by
  have each (room room' : Nat) : EndsAlike related (pass room) (pass' room') ∨
      EndsShort P.short (pass room) ∧ room < room' ∨
      EndsShort P.short (pass' room') ∧ room' < room + more := by
    have hend := h room room'
    have hstates := hrelated room room'
    generalize pass room = r at hend hstates ⊢
    generalize pass' room' = r' at hend hstates ⊢
    cases hend with
    | ok hgrows hs => exact .inl (.ok (hstates _ hgrows hs))
    | error hgrows hs => exact .inl (.error (hstates _ hgrows hs))
    | left hshort hlt => exact .inr (.inl ⟨hshort, hlt⟩)
    | right hshort hlt => exact .inr (.inr ⟨hshort, hlt⟩)
  refine ⟨fun room room' hr hr' => ?_, fun room room' hle hr => ?_, fun room room' hle hr' => ?_⟩
  · rcases each room room' with halike | ⟨hshort, _⟩ | ⟨hshort, _⟩
    · exact halike
    · exact absurd hshort hr
    · exact absurd hshort hr'
  · rcases each room room' with halike | ⟨hshort, _⟩ | ⟨_, hlt⟩
    · rwa [halike.short]
    · exact absurd hshort hr
    · exact absurd hle (Nat.not_le_of_lt hlt)
  · rcases each room room' with halike | ⟨_, hlt⟩ | ⟨hshort, _⟩
    · rwa [← halike.short]
    · exact absurd hle (Nat.not_le_of_lt hlt)
    · exact absurd hshort hr'

end FunkLang
