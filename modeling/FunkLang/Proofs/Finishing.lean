-- Runs that come to an end. From some room for nesting on such a run ends in
-- one way, however much more room there is. If it still ends for want of room,
-- there is a value that contains itself.
import FunkLang.Proofs.Evaluation
import FunkLang.Proofs.LocalSteps
import FunkLang.Proofs.MoreRoom

namespace FunkLang

/-! ## Stops for want of room -/

/-- Nesting that there is no room for. -/
def FaultCause.isDeep : FaultCause → Bool
  | tooDeep | callTooDeep _ => true
  | _ => false

def Stop.isDeep : Stop → Bool
  | fault f => f.cause.isDeep
  | tooDeep => true
  | endless => false

/-- An end for want of room, only where a value contains itself. -/
def Founded {α : Type} : EStateM.Result Stop Machine α → Prop :=
  Ends (fun _ _ => True) fun stop m => stop.isDeep = true → m.heap.Bottomless

/-! ## Runs that finish -/

/-- A run is given by the limits and the room that it has. From a machine as `always` says it
takes no loop to the end of its turns, and an answer is `good`; and its end is the same from some
room on. -/
structure Finishes {α : Type} (calls : Nat) (always : Machine → Prop) (good : α → Prop)
    (x : Limits → Nat → Run α) : Prop where
  yields : ∀ limits room, limits.calls = calls →
    Yields always good (fun stop _ => stop ≠ .endless) (x limits room)
  settles : ∀ m, always m → ∃ enough r,
    (∀ limits room, limits.calls = calls → enough ≤ room → x limits room m = r) ∧ Founded r

namespace Finishes

variable {α β : Type} {calls : Nat} {always : Machine → Prop} {good : α → Prop}
  {x y : Limits → Nat → Run α}

theorem congr (heq : ∀ limits room, limits.calls = calls → y limits room = x limits room)
    (h : Finishes calls always good x) : Finishes calls always good y where
  yields limits room hcalls := by
    rw [heq limits room hcalls]
    exact h.yields limits room hcalls
  settles m hm := by
    obtain ⟨enough, r, hr, founded⟩ := h.settles m hm
    refine ⟨enough, r, fun limits room hcalls hroom => ?_, founded⟩
    rw [heq limits room hcalls]
    exact hr limits room hcalls hroom

theorem pure {a : α} (h : good a) : Finishes calls always good fun _ _ => Pure.pure a where
  yields _ _ _ := .pure h
  settles m _ := ⟨0, .ok a m, fun _ _ _ _ => rfl, trivial⟩

theorem get : Finishes calls always always fun _ _ => (MonadState.get : Run Machine) where
  yields _ _ _ := .get
  settles m _ := ⟨0, .ok m m, fun _ _ _ _ => rfl, trivial⟩

/-- A run that does not depend on the room has only to stop for other reasons. -/
theorem fixed {x : Run α} (h : Yields always good (fun stop _ => stop ≠ .endless) x)
    (shallow : ∀ m, always m → Founded (x m)) : Finishes calls always good fun _ _ => x where
  yields _ _ _ := h
  settles m hm := ⟨0, x m, fun _ _ _ _ => rfl, shallow m hm⟩

theorem fail {cause : FaultCause} {line : Int} (h : cause.isDeep = false) :
    Finishes calls always good fun _ _ => (Run.fail cause line : Run α) := by
  refine fixed (.throw fun _ _ => by simp) fun m _ => ?_
  intro hdeep
  change cause.isDeep = true at hdeep
  rw [h] at hdeep
  cases hdeep

theorem modify {f : Machine → Machine} (h : ∀ m, always m → always (f m)) :
    Finishes calls always (fun _ => True) fun _ _ => (modify f : Run PUnit) :=
  fixed (fun m hm => ⟨trivial, h m hm⟩) fun _ _ => trivial

/-- One run after another ends where the second does, with the greater of the rooms of both. -/
theorem bind {good' : β → Prop} {f : α → Limits → Nat → Run β} (hx : Finishes calls always good x)
    (hf : ∀ a, good a → Finishes calls always good' (f a)) :
    Finishes calls always good' fun limits room => x limits room >>= fun a => f a limits room where
  yields limits room hcalls :=
    (hx.yields limits room hcalls).bind fun a ha => (hf a ha).yields limits room hcalls
  settles m hm := by
    obtain ⟨enough, r, hr, founded⟩ := hx.settles m hm
    have hyields := hx.yields ⟨calls, enough, 0⟩ enough rfl m hm
    rw [hr _ _ rfl (Nat.le_refl _)] at hyields
    cases r with
    | error stop m1 =>
      exact ⟨enough, .error stop m1, fun limits room hcalls hroom =>
        bind_of_error (hr limits room hcalls hroom), founded⟩
    | ok a m1 =>
      obtain ⟨enough', r', hr', founded'⟩ := (hf a hyields.1).settles m1 hyields.2
      refine ⟨max enough enough', r', fun limits room hcalls hroom => ?_, founded'⟩
      exact (bind_of_ok (hr limits room hcalls (by omega))).trans
        (hr' limits room hcalls (by omega))

/-- A run that takes some of the room for itself. -/
theorem shift (cost : Nat) (h : Finishes calls always good x)
    (low : ∀ limits room, room < cost → y limits room = throw .tooDeep)
    (high : ∀ limits room, y limits (room + cost) = x limits room) :
    Finishes calls always good y where
  yields limits room hcalls := by
    by_cases hlow : room < cost
    · rw [low limits room hlow]
      exact .throw fun _ _ => by simp
    · obtain ⟨rest, rfl⟩ := Nat.exists_eq_add_of_le' (Nat.le_of_not_lt hlow)
      rw [high]
      exact h.yields limits rest hcalls
  settles m hm := by
    obtain ⟨enough, r, hr, founded⟩ := h.settles m hm
    refine ⟨enough + cost, r, fun limits room hcalls hroom => ?_, founded⟩
    obtain ⟨rest, rfl⟩ := Nat.exists_eq_add_of_le' (show cost ≤ room by omega)
    rw [high]
    exact hr limits rest hcalls (by omega)

/-- A run whose room is another one, but as large as can be. -/
theorem reroom {room' : Nat → Nat} (h : Finishes calls always good x)
    (large : ∀ enough, ∃ bound, ∀ room, bound ≤ room → enough ≤ room' room) :
    Finishes calls always good fun limits room => x limits (room' room) where
  yields limits room hcalls := h.yields limits (room' room) hcalls
  settles m hm := by
    obtain ⟨enough, r, hr, founded⟩ := h.settles m hm
    obtain ⟨bound, hbound⟩ := large enough
    exact ⟨bound, r, fun limits room hcalls hroom =>
      hr limits (room' room) hcalls (hbound room hroom), founded⟩

theorem spare (more : Nat) (h : Finishes calls always good x) :
    Finishes calls always good fun limits room => x limits (room + more) :=
  h.reroom fun enough => ⟨enough, fun _ _ => by omega⟩

theorem mapM {f : α → Limits → Nat → Run β} {items : List α}
    (each : ∀ a ∈ items, Finishes calls always (fun _ => True) (f a)) :
    Finishes calls always (fun _ => True)
      fun limits room => items.mapM fun a => f a limits room := by
  induction items with
  | nil => exact pure trivial
  | cons a rest ih =>
    simp only [List.mapM_cons]
    refine (each a List.mem_cons_self).bind fun b _ => ?_
    exact (ih fun a ha => each a (List.mem_cons_of_mem _ ha)).bind fun bs _ => pure trivial

theorem inTurn {act : α → Limits → Nat → Run Flow} {items : List α}
    (each : ∀ a ∈ items, Finishes calls always (fun _ => True) (act a)) :
    Finishes calls always (fun _ => True)
      fun limits room => Run.inTurn (fun a => act a limits room) items := by
  induction items with
  | nil => exact pure trivial
  | cons a rest ih =>
    simp only [Run.inTurn]
    refine (each a List.mem_cons_self).bind fun flow _ => ?_
    cases flow with
    | next => exact ih fun b hb => each b (List.mem_cons_of_mem _ hb)
    | returned v => exact pure trivial

theorem forM {act : α → Limits → Nat → Run PUnit} {items : List α}
    (each : ∀ a ∈ items, Finishes calls always (fun _ => True) (act a)) :
    Finishes calls always (fun _ => True)
      fun limits room => items.forM fun a => act a limits room := by
  induction items with
  | nil => exact pure trivial
  | cons a rest ih =>
    refine (each a List.mem_cons_self).bind fun _ _ => ?_
    exact ih fun b hb => each b (List.mem_cons_of_mem _ hb)

/-- What is made of the heap, in the room that there is, fits unless a value contains itself. -/
theorem fitting (make : Heap → Nat → Option α)
    (mono : ∀ h a room more, make h room = some a → room ≤ more → make h more = some a)
    (fits : ∀ h, ¬ h.Bottomless → ∃ room a, make h room = some a) :
    Finishes calls always (fun _ => True)
      fun _ room => MonadState.get >>= fun m => Run.fitting (make m.heap room) where
  yields _ room _ := by
    refine Yields.get.bind fun m _ => ?_
    cases make m.heap room with
    | some a => exact .pure trivial
    | none => exact .throw fun _ _ => by simp
  settles m _ := by
    by_cases hfits : ∃ enough a, make m.heap enough = some a
    · obtain ⟨enough, a, ha⟩ := hfits
      refine ⟨enough, .ok a m, fun _ room _ hroom => ?_, trivial⟩
      change Run.fitting (make m.heap room) m = _
      rw [mono _ a enough room ha hroom]
      rfl
    · have hnone : ∀ room, make m.heap room = none := fun room =>
        Option.eq_none_iff_forall_ne_some.mpr fun a ha => hfits ⟨room, a, ha⟩
      refine ⟨0, .error .tooDeep m, fun _ room _ _ => ?_, fun _ => ?_⟩
      · change Run.fitting (make m.heap room) m = _
        rw [hnone room]
        rfl
      · by_contra hbottom
        exact hfits (fits _ hbottom)

end Finishes

end FunkLang
