-- How a computation with a state ends: with an answer or with an error, and in
-- which state. What the parts of a computation end in gives what the whole
-- ends in, so each law of a run is put together from laws of its steps.
import Mathlib.Order.Defs.Unbundled

namespace FunkLang

variable {ε σ α β : Type}

/-! ## Ends -/

/-- An answer comes as `good` says, and an error as `bad` says. -/
def Ends (good : α → σ → Prop) (bad : ε → σ → Prop) : EStateM.Result ε σ α → Prop
  | .ok a s => good a s
  | .error e s => bad e s

variable {good good' : α → σ → Prop} {bad bad' : ε → σ → Prop}

@[simp] theorem ends_ok {a : α} {s : σ} : Ends good bad (.ok a s) ↔ good a s := Iff.rfl

@[simp] theorem ends_error {e : ε} {s : σ} : Ends good bad (.error e s) ↔ bad e s := Iff.rfl

theorem Ends.imp {r : EStateM.Result ε σ α} (h : Ends good bad r)
    (hgood : ∀ a s, good a s → good' a s) (hbad : ∀ e s, bad e s → bad' e s) :
    Ends good' bad' r := by
  cases r with
  | ok a s => exact hgood a s h
  | error e s => exact hbad e s h

theorem ends_trivial (r : EStateM.Result ε σ α) :
    Ends (fun _ _ => True) (fun _ _ => True) r := by
  cases r with
  | ok a s => trivial
  | error e s => trivial

/-- Nothing is said of errors any more. -/
theorem Ends.forget {r : EStateM.Result ε σ α} (h : Ends good bad r) :
    Ends good (fun _ _ => True) r := h.imp (fun _ _ h => h) fun _ _ _ => trivial

theorem Ends.and {r : EStateM.Result ε σ α} (h : Ends good bad r) (h' : Ends good' bad' r) :
    Ends (fun a s => good a s ∧ good' a s) (fun e s => bad e s ∧ bad' e s) r := by
  cases r with
  | ok a s => exact ⟨h, h'⟩
  | error e s => exact ⟨h, h'⟩

/-- What is asked of an end may use that it is one. -/
theorem Ends.imp_eq {r : EStateM.Result ε σ α} (h : Ends good bad r)
    (hgood : ∀ a s, r = .ok a s → good a s → good' a s)
    (hbad : ∀ e s, r = .error e s → bad e s → bad' e s) : Ends good' bad' r := by
  cases r with
  | ok a s => exact hgood a s rfl h
  | error e s => exact hbad e s rfl h

@[simp] theorem ends_pure {a : α} {s : σ} :
    Ends good bad ((pure a : EStateM ε σ α) s) ↔ good a s := Iff.rfl

@[simp] theorem ends_throw {e : ε} {s : σ} :
    Ends good bad ((throw e : EStateM ε σ α) s) ↔ bad e s := Iff.rfl

@[simp] theorem ends_get {good : σ → σ → Prop} {s : σ} :
    Ends good bad ((get : EStateM ε σ σ) s) ↔ good s s := Iff.rfl

@[simp] theorem ends_set {good : PUnit → σ → Prop} {s s' : σ} :
    Ends good bad ((set s' : EStateM ε σ PUnit) s) ↔ good ⟨⟩ s' := Iff.rfl

@[simp] theorem ends_modify {good : PUnit → σ → Prop} {f : σ → σ} {s : σ} :
    Ends good bad ((modify f : EStateM ε σ PUnit) s) ↔ good ⟨⟩ (f s) := Iff.rfl

/-- One computation after another ends as the second does from where the first has ended. -/
@[simp] theorem ends_bind {good : β → σ → Prop} {x : EStateM ε σ α} {f : α → EStateM ε σ β}
    {s : σ} :
    Ends good bad ((x >>= f) s) ↔ Ends (fun a s => Ends good bad (f a s)) bad (x s) := by
  change Ends good bad (EStateM.bind x f s) ↔ _
  unfold EStateM.bind
  cases x s with
  | ok a s => rfl
  | error e s => rfl

@[simp] theorem ends_map {good : β → σ → Prop} {x : EStateM ε σ α} {f : α → β} {s : σ} :
    Ends good bad ((f <$> x) s) ↔ Ends (fun a s => good (f a) s) bad (x s) := by
  change Ends good bad (EStateM.map f x s) ↔ _
  unfold EStateM.map
  cases x s with
  | ok a s => rfl
  | error e s => rfl

/-! ## Answers -/

theorem bind_eq_ok {s s' : σ} {x : EStateM ε σ α} {f : α → EStateM ε σ β} {b : β} :
    (x >>= f) s = .ok b s' ↔ ∃ a s1, x s = .ok a s1 ∧ f a s1 = .ok b s' := by
  change EStateM.bind x f s = _ ↔ _
  unfold EStateM.bind
  cases x s with
  | ok a s1 =>
    constructor
    · intro h
      exact ⟨a, s1, rfl, h⟩
    · rintro ⟨_, _, hx, h⟩
      cases hx
      exact h
  | error e s1 => simp

theorem bind_of_ok {s s1 : σ} {x : EStateM ε σ α} {f : α → EStateM ε σ β} {a : α}
    (h : x s = .ok a s1) : (x >>= f) s = f a s1 := by
  change EStateM.bind x f s = _
  unfold EStateM.bind
  rw [h]

theorem bind_of_error {s s1 : σ} {x : EStateM ε σ α} {f : α → EStateM ε σ β} {e : ε}
    (h : x s = .error e s1) : (x >>= f) s = .error e s1 := by
  change EStateM.bind x f s = _
  unfold EStateM.bind
  rw [h]

theorem pure_eq_ok {s s' : σ} {a b : α} :
    (pure a : EStateM ε σ α) s = .ok b s' ↔ a = b ∧ s = s' := by
  change EStateM.Result.ok a s = .ok b s' ↔ _
  rw [EStateM.Result.ok.injEq]

/-! ## The state and the error at the end -/

/-- The state that a computation leaves, however it ends. -/
def stateAfter : EStateM.Result ε σ α → σ
  | .ok _ s => s
  | .error _ s => s

/-- What holds of the state at the end holds after an answer and after an error. -/
theorem ends_stateAfter {P : σ → Prop} {r : EStateM.Result ε σ α} :
    P (stateAfter r) ↔ Ends (fun _ s => P s) (fun _ s => P s) r := by
  cases r with
  | ok a s => rfl
  | error e s => rfl

/-- Why a computation stopped, if it did. -/
def error? : EStateM.Result ε σ α → Option ε
  | .ok _ _ => none
  | .error e _ => some e

/-! ## What is kept -/

/-- However the computation ends, `R` relates the state before to the state after. -/
def Keeps (R : σ → σ → Prop) (x : EStateM ε σ α) : Prop :=
  ∀ s, Ends (fun _ s' => R s s') (fun _ s' => R s s') (x s)

section Keeps

variable {R S : σ → σ → Prop}

theorem Keeps.imp {x : EStateM ε σ α} (h : Keeps R x) (hRS : ∀ s s', R s s' → S s s') :
    Keeps S x := fun s => (h s).imp (fun _ s' => hRS s s') (fun _ s' => hRS s s')

theorem Keeps.stateAfter {x : EStateM ε σ α} (h : Keeps R x) (s : σ) : R s (stateAfter (x s)) :=
  ends_stateAfter.mpr (h s)

/-- A computation that is followed by one which keeps still more. -/
theorem Keeps.bind [Std.Refl S] [IsTrans σ R] {x : EStateM ε σ α} {f : α → EStateM ε σ β}
    (hSR : ∀ s s', S s s' → R s s') (hx : Keeps R x) (hf : ∀ a, Keeps S (f a)) :
    Keeps R (x >>= f) := by
  intro s
  rw [ends_bind]
  refine (hx s).imp (fun a s1 h1 => ?_) (fun _ _ h => h)
  exact (hf a s1).imp (fun _ s2 h2 => IsTrans.trans _ _ _ h1 (hSR s1 s2 h2))
    (fun _ s2 h2 => IsTrans.trans _ _ _ h1 (hSR s1 s2 h2))

end Keeps
/-! ## What is yielded -/

/-- From a state as `always` says, an answer is `good` and leaves such a state again, and an
error is as `bad` says. -/
def Yields (always : σ → Prop) (good : α → Prop) (bad : ε → σ → Prop) (x : EStateM ε σ α) :
    Prop :=
  ∀ s, always s → Ends (fun a s => good a ∧ always s) bad (x s)

namespace Yields

variable {always : σ → Prop} {good : α → Prop} {bad : ε → σ → Prop}

theorem pure {a : α} (h : good a) : Yields always good bad (Pure.pure a : EStateM ε σ α) :=
  fun _ hs => ⟨h, hs⟩

theorem throw {e : ε} (h : ∀ s, always s → bad e s) :
    Yields always good bad (MonadExcept.throw e : EStateM ε σ α) := h

theorem imp {good' : α → Prop} {x : EStateM ε σ α} (h : Yields always good bad x)
    (himp : ∀ a, good a → good' a) : Yields always good' bad x := fun s hs =>
  (h s hs).imp (fun a _ ha => ⟨himp a ha.1, ha.2⟩) (fun _ _ he => he)

theorem bind {x : EStateM ε σ α} {f : α → EStateM ε σ β} {good' : β → Prop}
    (hx : Yields always good bad x) (hf : ∀ a, good a → Yields always good' bad (f a)) :
    Yields always good' bad (x >>= f) := by
  intro s hs
  rw [ends_bind]
  exact (hx s hs).imp (fun a s1 h1 => hf a h1.1 s1 h1.2) (fun _ _ he => he)

theorem get : Yields always always bad (MonadState.get : EStateM ε σ σ) := fun _ hs => ⟨hs, hs⟩

theorem mapM {f : α → EStateM ε σ β} {items : List α}
    (each : ∀ a ∈ items, Yields always (fun _ => True) bad (f a)) :
    Yields always (fun _ => True) bad (items.mapM f) := by
  induction items with
  | nil => exact pure trivial
  | cons a rest ih =>
    rw [List.mapM_cons]
    refine (each a List.mem_cons_self).bind fun b _ => ?_
    exact (ih fun a ha => each a (List.mem_cons_of_mem _ ha)).bind fun bs _ => pure trivial

/-- What holds where each item has its answer holds of all items where the list has its answer. -/
theorem forM {f : α → EStateM ε σ PUnit} {fact : α → Prop} {items : List α}
    (each : ∀ a ∈ items, Yields always (fun _ => fact a) bad (f a)) :
    Yields always (fun _ => ∀ a ∈ items, fact a) bad (items.forM f) := by
  induction items with
  | nil => exact pure (by simp)
  | cons a rest ih =>
    refine (each a List.mem_cons_self).bind fun _ ha => ?_
    refine (ih fun a ha => each a (List.mem_cons_of_mem _ ha)).imp fun _ hrest => ?_
    exact List.forall_mem_cons.mpr ⟨ha, hrest⟩

end Yields
end FunkLang
