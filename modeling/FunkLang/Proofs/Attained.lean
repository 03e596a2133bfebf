-- The machines of a session, between programs and in the middle of one. On none
-- of them does anything lead to a scope or an object that is not there.
import FunkLang.Proofs.Footprint
import FunkLang.Proofs.ScopeDiscipline

namespace FunkLang

/-- All cells. -/
def Everything : Cell → Prop := fun _ => True

/-! ## The first machine -/

theorem builtinScopes_plain : builtinScopes.scopes.toList.all (fun scope => scope.parent.isNone &&
    scope.names.entries.all fun entry => entry.2.cell?.isNone) = true := rfl

theorem ready_start (input : String) (clock : Nat) :
    Ready Everything (Machine.start input clock) := by
  refine ⟨⟨fun c hc => ?_, fun _ _ => trivial⟩, trivial, ?_⟩
  · cases c with
    | scope s =>
      have hs : s < builtinScopes.scopes.size := hc.2
      have hplain := List.all_eq_true.mp builtinScopes_plain _
        (Array.mem_toList_iff.mpr (Array.getElem_mem hs))
      rw [Bool.and_eq_true, List.all_eq_true] at hplain
      have htable : builtinScopes.table s = builtinScopes.scopes[s].names := by
        simp [ScopeTree.table, hs]
      have hparent : builtinScopes.parent? s = builtinScopes.scopes[s].parent := by
        simp [ScopeTree.parent?, hs]
      refine ⟨fun v hv => ?_, fun p hp => ?_⟩
      · obtain ⟨name, hname⟩ := hv
        change (builtinScopes.table s).get? name = some v at hname
        rw [htable] at hname
        exact owned_of_plain (Option.isNone_iff_eq_none.mp (hplain.2 _ (mem_of_findEntry hname)))
      · change builtinScopes.parent? s = some p at hp
        rw [hparent, Option.isNone_iff_eq_none.mp hplain.1] at hp
        cases hp
    | _ => exact absurd hc.2 (Nat.not_lt_zero _)
  · exact Nat.zero_lt_one

/-! ## Programs -/

theorem confined_execTop (limits : Limits) (s : Stmt) {P : Cell → Prop} {m : Machine}
    (ready : Ready P m) : Confined P (fun _ _ => True) (s.execTop limits) m := by
  have hs := (evaluation_owns limits P).2 limits.room s m ready
  unfold Confined Stmt.execTop
  unfold Run.OwnsFlow Confined at hs
  split <;> rename_i heq <;> rw [heq] at hs
  · exact ⟨hs.1, trivial⟩
  · exact hs.1
  · exact hs
  · exact hs

theorem Confined.forM {α : Type} {act : α → Run PUnit} {items : List α} {P : Cell → Prop}
    {m : Machine} (h : Sealed P m)
    (each : ∀ a ∈ items, ∀ m1, Frames P m m1 → Confined P (fun _ _ => True) (act a) m1) :
    Confined P (fun _ _ => True) (items.forM act) m := by
  induction items generalizing m with
  | nil => exact .pure h trivial
  | cons a rest ih =>
    refine (each a List.mem_cons_self m (.refl h)).bind fun _ m1 h1 _ => ?_
    exact ih h1.isSealed fun b hb m2 h2 => each b (List.mem_cons_of_mem _ hb) m2 (h1.trans h2)

theorem confined_evaluate (limits : Limits) (program : List Stmt) {P : Cell → Prop} {m : Machine}
    (ready : Ready P m) : Confined P (fun _ _ => True) (evaluate limits program) m := by
  refine (Run.confined_note _ ready.isSealed).bind fun _ m1 h1 _ => ?_
  exact .forM h1.isSealed fun s _ m2 h2 => confined_execTop limits s ((ready.frames h1).frames h2)

/-- A confined run leaves a machine that differs only in the set. -/
theorem Confined.frames {α : Type} {P : Cell → Prop} {good : α → Machine → Prop} {x : Run α}
    {m : Machine} (h : Confined P good x m) : Frames P m (stateAfter (x m)) := by
  unfold Confined at h
  cases hx : x m with
  | ok a m1 =>
    rw [hx] at h
    exact h.1
  | error stop m1 =>
    rw [hx] at h
    exact h

theorem ready_runOn {limits : Limits} {m : Machine} (program : List Stmt)
    (ready : Ready Everything m) : Ready Everything (runOn limits m program).2 := by
  have hframes := (confined_evaluate limits program ready).frames
  unfold runOn
  split <;> rename_i heq <;> rw [heq] at hframes <;> exact ready.frames hframes

theorem ready_of_reachable {limits : Limits} {m : Machine} (h : Reachable limits m) :
    Ready Everything m := by
  induction h with
  | start input clock => exact ready_start input clock
  | run program _ ih => exact ready_runOn program ih

/-! ## Parts of programs -/

section Visits

variable {limits : Limits} {k room : Nat} {m : Machine} {u : Visit}

theorem ready_only {v : Visit} (hm : Ready Everything v.machine) (hu : u ∈ [v]) :
    Ready Everything u.machine := by
  rw [List.mem_singleton] at hu
  rwa [hu]

/-- An expression is evaluated first, and then come the visits that its value leads to. -/
theorem ready_first {e : Expr} {next : Value → Machine → List Visit} (hm : Ready Everything m)
    (hu : u ∈ visitExpr k room e m :: andThen (e.eval limits room m) next)
    (hnext : ∀ a m1, Ready Everything m1 → Owned Everything m1 a → u ∈ next a m1 →
      Ready Everything u.machine) : Ready Everything u.machine := by
  rw [List.mem_cons, mem_andThen] at hu
  rcases hu with rfl | ⟨a, m1, h1, hu⟩
  · exact hm
  · have howns := (evaluation_owns limits Everything).1 room e m hm
    unfold Run.Owns Confined at howns
    rw [h1] at howns
    exact hnext a m1 (hm.frames howns.1) howns.2 hu

theorem ends_ready {α : Type} {good : α → Machine → Prop} {x : Run α}
    (h : ∀ m, Ready Everything m → Confined Everything good x m) (m : Machine)
    (hm : Ready Everything m) :
    Ends (fun _ m1 => Ready Everything m1) (fun _ m1 => Ready Everything m1) (x m) :=
  Ends.imp (h m hm) (fun _ _ ha => hm.frames ha.1) fun _ _ he => hm.frames he

theorem ready_each {items : List Expr} (hm : Ready Everything m)
    (hu : u ∈ eachVisit (visitExpr k room) (fun e => e.eval limits room) items m) :
    Ready Everything u.machine := by
  obtain ⟨e, _, m1, hm1, rfl⟩ :=
    of_mem_eachVisit (fun e _ => ends_ready ((evaluation_owns limits Everything).1 room e)) hm hu
  exact hm1

theorem ready_statements {body : List Stmt} (hm : Ready Everything m)
    (hu : u ∈ turnVisits (visitStmt k room) (fun s => s.exec limits room) body m) :
    Ready Everything u.machine := by
  obtain ⟨s, _, m1, hm1, rfl⟩ :=
    of_mem_turnVisits (fun s _ => ends_ready ((evaluation_owns limits Everything).2 room s)) hm hu
  exact hm1

theorem Ready.enclose (hm : Ready Everything m) {parent : Nat}
    (hparent : Inside Everything m (.scope parent)) {bindings : List (String × Value)}
    (hbindings : ∀ b ∈ bindings, Owned Everything m b.2) :
    Ready Everything (m.enclose parent bindings) := by
  refine ⟨(hm.isSealed.enclose hparent hbindings).isSealed, trivial, ?_⟩
  simp only [Machine.Has, Run.enclose_scope, Run.enclose_opened]
  exact Nat.lt_succ_self _

/-- The body of a called function starts in a scope inside that of its declaration. -/
theorem ready_called {callee : Value} {args : List Value} {line : Int} (hm : Ready Everything m)
    (hcallee : Owned Everything m callee) (hargs : ∀ v ∈ args, Owned Everything m v)
    (hu : u ∈ bodyVisits limits k room callee args line m) : Ready Everything u.machine := by
  unfold bodyVisits at hu
  split at hu
  · rename_i i
    dsimp only at hu
    split at hu
    · refine ready_statements ?_ hu
      have hnoted : Grown Everything m { m with
          notes := m.notes.push
            (.called (m.heap.function i).name (m.heap.function i).params.length line)
          depth := m.depth + 1 } := hm.isSealed.unchanged rfl rfl
      have hscope := (hm.isSealed.closed _ (hcallee.inside rfl)).around _ rfl
      refine Ready.enclose ⟨hnoted.isSealed, hm.current⟩ hscope fun b hb => ?_
      exact hargs b.2 (List.of_mem_zip hb).2
    · cases hu
  · cases hu

theorem confined_arguments (limits : Limits) (room : Nat) (arguments : List Expr)
    (hm : Ready Everything m) : Confined Everything (fun vs m' => ∀ v ∈ vs, Owned Everything m' v)
      (arguments.mapM fun a => a.eval limits room) m :=
  .mapM (fun _ _ _ h hv => hv.mono h.grows) hm.isSealed fun a _ m1 h1 =>
    (evaluation_owns limits Everything).1 room a m1 (hm.frames h1)

/-- Each turn of a loop over values starts in a scope of its own. -/
theorem ready_turn {name : String} {values : List Value} {body : Stmt}
    (hm : Ready Everything m) (hvalues : ∀ v ∈ values, Owned Everything m v)
    (hu : u ∈ turnVisits (fun w m => visitStmt k room body (m.enclose m.scope [(name, w)]))
      (fun w => do Run.enclosed (← get).scope [(name, w)] (body.exec limits room)) values m) :
    Ready Everything u.machine := by
  have turn : ∀ w ∈ values, ∀ m,
      (Ready Everything m ∧ ∀ v ∈ values, Owned Everything m v) →
        Ends (fun _ m => Ready Everything m ∧ ∀ v ∈ values, Owned Everything m v)
          (fun _ _ => True)
          ((do Run.enclosed (← get).scope [(name, w)] (body.exec limits room) : Run Flow) m) := by
    rintro w hw m ⟨hm, hvalues⟩
    have hturn : Run.OwnsFlow Everything
        (do Run.enclosed (← get).scope [(name, w)] (body.exec limits room)) m :=
      .get (.enclosed hm.isSealed hm.current (by simpa using hvalues w hw) fun opened =>
        (evaluation_owns limits Everything).2 room body _ opened)
    refine Ends.imp hturn (fun _ _ ha => ⟨hm.frames ha.1, fun v hv => ?_⟩) fun _ _ _ => trivial
    exact (hvalues v hv).mono ha.1.grows
  obtain ⟨w, hw, m1, ⟨hm1, hown⟩, rfl⟩ := of_mem_turnVisits turn ⟨hm, hvalues⟩ hu
  exact hm1.enclose hm1.current (by simpa using hown w hw)

/-- Where nothing leads to what is not there, a part of a program visits others of that sort. -/
theorem ready_opens {v : Visit} (hm : Ready Everything v.machine) (hu : u ∈ v.opens limits) :
    Ready Everything u.machine := by
  obtain ⟨part, room, m, k⟩ := v
  unfold Visit.opens at hu
  dsimp only at hm hu
  split at hu
  case h_1 op operand room => exact ready_only hm hu
  case h_2 left op right room =>
    exact ready_first hm hu fun a m1 hm1 _ hu => ready_only hm1 hu
  case h_3 op left right room =>
    refine ready_first hm hu fun a m1 hm1 _ hu => ?_
    split at hu
    · exact ready_only hm1 hu
    · cases hu
  case h_4 name value room => exact ready_only hm hu
  case h_5 collection place value room => exact ready_each hm hu
  case h_6 collection key value room => exact ready_each hm hu
  case h_7 condition yes no room =>
    refine ready_first hm hu fun a m1 hm1 _ hu => ?_
    split at hu
    · exact ready_only hm1 hu
    · cases hu
  case h_8 callee arguments room =>
    refine ready_first hm hu fun f m1 hm1 hf hu => ?_
    rw [List.mem_append, mem_andThen] at hu
    rcases hu with hu | ⟨args, m2, h2, hu⟩
    · exact ready_each hm1 hu
    · have hargs := confined_arguments limits (room + 1) arguments hm1
      unfold Confined at hargs
      rw [h2] at hargs
      exact ready_called (hm1.frames hargs.1) (hf.mono hargs.1.grows) hargs.2 hu
  case h_9 line elements room => exact ready_each hm hu
  case h_10 line entries room => exact ready_each hm hu
  case h_11 collection place room => exact ready_each hm hu
  case h_12 collection key room => exact ready_only hm hu
  case h_13 line value room => exact ready_only hm hu
  case h_14 line value room => exact ready_only hm hu
  case h_15 line name value room => exact ready_only hm hu
  case h_16 line body room => exact ready_statements (hm.enclose hm.current (by simp)) hu
  case h_17 line condition yes no room =>
    refine ready_first hm hu fun a m1 hm1 _ hu => ?_
    split at hu
    · exact ready_only hm1 hu
    · obtain ⟨no, _, rfl⟩ := List.mem_map.mp hu
      exact hm1
    · cases hu
  case h_18 line condition body room =>
    have tests : ∀ m, Ready Everything m → Confined Everything (fun _ _ => True) (do
        Run.truth .while_ (← condition.eval limits room) line) m := fun m hm =>
      ((evaluation_owns limits Everything).1 room condition m hm).bind fun v m1 h1 _ =>
        Run.confined_truth .while_ v line h1.isSealed
    obtain ⟨m1, hm1, rfl | rfl⟩ := of_mem_loopVisits (ends_ready tests)
      (ends_ready ((evaluation_owns limits Everything).2 room body)) hm hu
    · exact hm1
    · exact hm1
  case h_19 line value room => exact ready_only hm hu
  case h_20 line value name body room =>
    refine ready_first hm hu fun w m1 hm1 hw hu => ?_
    exact ready_only (hm1.enclose hm1.current (by simpa using hw)) hu
  case h_21 line name items body room =>
    refine ready_first hm hu fun w m1 hm1 hw hu => ?_
    split at hu
    · rename_i i
      have held := (hm1.isSealed.closed _ (hw.inside rfl)).held
      exact ready_turn hm1 (fun v hv => held v (Array.mem_toList_iff.mp hv)) hu
    · cases hu
  case h_22 => cases hu

end Visits

/-! ## Sessions -/

/-- The machines of a session: between programs, and where a part of a program starts or ends. -/
inductive Attained (limits : Limits) : Machine → Prop
  | between {m : Machine} (h : Reachable limits m) : Attained limits m
  | before {m : Machine} {program : List Stmt} {v : Visit} (h : Reachable limits m)
    (hv : Visited limits m program v) : Attained limits v.machine
  | after {m : Machine} {program : List Stmt} {v : Visit} (h : Reachable limits m)
    (hv : Visited limits m program v) : Attained limits (v.after limits)

theorem ready_of_visited {limits : Limits} {m : Machine} {program : List Stmt} {v : Visit}
    (hm : Ready Everything m) (h : Visited limits m program v) : Ready Everything v.machine := by
  obtain ⟨u, hu, hr⟩ := h
  obtain ⟨_, m1, h1, hu⟩ := mem_andThen.mp hu
  have hm1 : Ready Everything m1 := by
    have hnote := Run.confined_note (.evaluating program.length) hm.isSealed
    unfold Confined at hnote
    rw [h1] at hnote
    exact hm.frames hnote.1
  obtain ⟨s, _, m2, hm2, rfl⟩ :=
    of_mem_eachVisit (fun s _ => ends_ready fun m hm => confined_execTop limits s hm) hm1 hu
  induction hr with
  | refl => exact hm2
  | tail _ hopens ih => exact ready_opens ih hopens

theorem ready_after {limits : Limits} {v : Visit} (hm : Ready Everything v.machine) :
    Ready Everything (v.after limits) := by
  obtain ⟨part, room, m, k⟩ := v
  cases part with
  | expr e => exact hm.frames ((evaluation_owns limits Everything).1 room e m hm).frames
  | stmt s => exact hm.frames ((evaluation_owns limits Everything).2 room s m hm).frames

/-- On no machine of a session does anything lead to what is not there. -/
theorem Attained.ready {limits : Limits} {m : Machine} (h : Attained limits m) :
    Ready Everything m := by
  cases h with
  | between h => exact ready_of_reachable h
  | before h hv => exact ready_of_visited (ready_of_reachable h) hv
  | after h hv => exact ready_after (ready_of_visited (ready_of_reachable h) hv)

end FunkLang
