-- The types of a program that passes its check, and its runs. Where no name is
-- introduced twice and no assignment changes a type, every value of a run is
-- of the type that the check found, if it found one, and values of the wrong
-- kind are met only where the check could not know.
import FunkLang.Program
import FunkLang.Proofs.CheckedTypes
import FunkLang.Proofs.TypedRuns

namespace FunkLang

/-! ## Visits -/

/-- A part that agrees with a typing, on a machine that agrees with it. -/
structure Visit.Typed (T : Typing) (v : Visit) : Prop where
  machine : v.machine.Typed T
  part : T.Admits v.part

section Typed

variable {T : Typing} {limits : Limits} {k room : Nat} {m : Machine} {u : Visit}

theorem eval_typed {e : Expr} {t : Ty} {w : Value} {m1 : Machine} (he : T.typed e t)
    (hm : m.Typed T) (h : e.eval limits room m = .ok w m1) : w.Fits t ∧ m1.Typed T := by
  have hends := (evaluation_typed T limits).1 room e t he 0 m hm
  rwa [h] at hends

theorem exec_typed {s : Stmt} (fine : T.fine s) (hm : m.Typed T) :
    Ends (fun _ m' => m'.Typed T) (fun _ _ => True) (s.exec limits room m) :=
  ((evaluation_typed T limits).2 room s fine 0 m hm).forget

theorem admits_part {e p : Expr} (h : T.Admits (.expr e)) (hp : p ∈ e.parts) :
    T.Admits (.expr p) := by
  obtain ⟨t, ht⟩ := h
  obtain ⟨ts, hts, _⟩ := T.rule ht
  exact typed_of_mem hts hp

theorem typed_part {e p : Expr} (hm : m.Typed T) (h : T.Admits (.expr e)) (hp : p ∈ e.parts)
    (hu : u ∈ [visitExpr k room p m]) : u.Typed T := by
  cases List.mem_singleton.mp hu
  exact ⟨hm, admits_part h hp⟩

/-- An expression is evaluated first, and then come the visits that its value leads to. -/
theorem typed_first {e : Expr} {next : Value → Machine → List Visit} (hm : m.Typed T)
    (he : T.Admits (.expr e))
    (hu : u ∈ visitExpr k room e m :: andThen (e.eval limits room m) next)
    (hnext : ∀ w m1, (∀ t, T.typed e t → w.Fits t) → m1.Typed T → u ∈ next w m1 → u.Typed T) :
    u.Typed T := by
  rw [List.mem_cons, mem_andThen] at hu
  rcases hu with rfl | ⟨w, m1, h1, hu⟩
  · exact ⟨hm, he⟩
  · obtain ⟨t, ht⟩ := he
    exact hnext w m1 (fun t ht => (eval_typed ht hm h1).1) (eval_typed ht hm h1).2 hu

theorem typed_each {items : List Expr} (hm : m.Typed T) (hitems : ∀ e ∈ items, T.Admits (.expr e))
    (hu : u ∈ eachVisit (visitExpr k room) (fun e => e.eval limits room) items m) :
    u.Typed T := by
  have each : ∀ e ∈ items, ∀ m, m.Typed T →
      Ends (fun _ m' => m'.Typed T) (fun _ _ => True) (e.eval limits room m) := by
    intro e he m hm
    obtain ⟨t, ht⟩ := hitems e he
    exact (((evaluation_typed T limits).1 room e t ht k m hm).imp (fun _ _ h => h.2)
      fun _ _ h => h).forget
  obtain ⟨e, he, m1, hm1, rfl⟩ := of_mem_eachVisit each hm hu
  exact ⟨hm1, hitems e he⟩

theorem typed_statements {body : List Stmt} (hm : m.Typed T) (fine : ∀ s ∈ body, T.fine s)
    (hu : u ∈ turnVisits (visitStmt k room) (fun s => s.exec limits room) body m) :
    u.Typed T := by
  obtain ⟨s, hs, m1, hm1, rfl⟩ :=
    of_mem_turnVisits (fun s hs m hm => exec_typed (fine s hs) hm) hm hu
  exact ⟨hm1, fine s hs⟩

theorem typed_called {callee : Value} {args : List Value} {line : Int} (hm : m.Typed T)
    (hu : u ∈ bodyVisits limits k room callee args line m) : u.Typed T := by
  unfold bodyVisits at hu
  split at hu
  · rename_i i
    dsimp only at hu
    split at hu
    · exact typed_statements (hm.called i) (hm.functions i).body hu
    · cases hu
  · cases hu

/-- A visit that agrees with a typing opens only such visits. -/
theorem Visit.Typed.opens {v : Visit} (h : v.Typed T) (hu : u ∈ v.opens limits) : u.Typed T := by
  obtain ⟨part, room, m, k⟩ := v
  obtain ⟨hm, hpart⟩ := h
  unfold Visit.opens at hu
  dsimp only at hm hpart hu
  split at hu
  case h_1 op operand room =>
    exact typed_part hm hpart (by simp [Expr.parts]) hu
  case h_2 left op right room =>
    refine typed_first hm (admits_part hpart (by simp [Expr.parts])) hu fun w m1 _ hm1 hu => ?_
    exact typed_part hm1 hpart (by simp [Expr.parts]) hu
  case h_3 op left right room =>
    refine typed_first hm (admits_part hpart (by simp [Expr.parts])) hu fun w m1 _ hm1 hu => ?_
    split at hu
    · exact typed_part hm1 hpart (by simp [Expr.parts]) hu
    · cases hu
  case h_4 name value room =>
    exact typed_part hm hpart (by simp [Expr.parts]) hu
  case h_5 collection place value room =>
    exact typed_each hm (fun e he => admits_part hpart he) hu
  case h_6 collection key value room => exact typed_each hm (fun e he => admits_part hpart he) hu
  case h_7 condition yes no room =>
    refine typed_first hm (admits_part hpart (by simp [Expr.parts])) hu fun w m1 _ hm1 hu => ?_
    split at hu
    · rename_i b m1
      refine typed_part hm1 hpart ?_ hu
      cases b <;> simp [Expr.parts]
    · cases hu
  case h_8 callee arguments room =>
    refine typed_first hm (admits_part hpart (by simp [Expr.parts])) hu fun f m1 _ hm1 hu => ?_
    have harguments : ∀ e ∈ arguments, T.Admits (.expr e) := fun e he =>
      admits_part hpart (by simp [Expr.parts, he])
    rw [List.mem_append, mem_andThen] at hu
    rcases hu with hu | ⟨args, m2, h2, hu⟩
    · exact typed_each hm1 harguments hu
    · have hends := ends_expressions (fun e => (evaluation_typed T limits).1 (room + 1) e)
        harguments hm1 k
      rw [h2] at hends
      exact typed_called hends hu
  case h_9 line elements room => exact typed_each hm (fun e he => admits_part hpart he) hu
  case h_10 line entries room => exact typed_each hm (fun e he => admits_part hpart he) hu
  case h_11 collection place room => exact typed_each hm (fun e he => admits_part hpart he) hu
  case h_12 collection key room =>
    exact typed_part hm hpart (by simp [Expr.parts]) hu
  case h_13 line value room =>
    cases List.mem_singleton.mp hu
    cases T.judged hpart with
    | expression ht => exact ⟨hm, _, ht⟩
  case h_14 line value room =>
    cases List.mem_singleton.mp hu
    cases T.judged hpart with
    | print ht => exact ⟨hm, _, ht⟩
  case h_15 line name value room =>
    cases List.mem_singleton.mp hu
    cases T.judged hpart with
    | makeValue ht => exact ⟨hm, _, ht⟩
  case h_16 line body room =>
    cases T.judged hpart with
    | block fine => exact typed_statements (hm.enclose (by simp) m.scope) fine hu
  case h_17 line condition yes no room =>
    cases T.judged hpart with
    | if_ ht _ hbranches =>
      refine typed_first hm ⟨_, ht⟩ hu fun w m1 _ hm1 hu => ?_
      split at hu
      · cases List.mem_singleton.mp hu
        exact ⟨hm1, hbranches yes List.mem_cons_self⟩
      · obtain ⟨no, hno, rfl⟩ := List.mem_map.mp hu
        exact ⟨hm1, hbranches no (List.mem_cons_of_mem _ hno)⟩
      · cases hu
  case h_18 line condition body room =>
    cases T.judged hpart with
    | while_ ht hfits fine =>
      have condition_typed := (evaluation_typed T limits).1 room condition
      obtain ⟨m1, hm1, rfl | rfl⟩ := of_mem_loopVisits
        (fun m hm => (ends_test condition_typed ht hfits line hm k).forget)
        (fun m hm => exec_typed fine hm) hm hu
      · exact ⟨hm1, _, ht⟩
      · exact ⟨hm1, fine⟩
  case h_19 line value room =>
    cases List.mem_singleton.mp hu
    cases T.judged hpart with
    | returnValue ht => exact ⟨hm, _, ht⟩
  case h_20 line value name body room =>
    cases T.judged hpart with
    | with_ ht hname fine =>
      refine typed_first hm ⟨_, ht⟩ hu fun w m1 hw hm1 hu => ?_
      cases List.mem_singleton.mp hu
      exact ⟨hm1.enclose (by simpa using ⟨_, hname, hw _ ht⟩) m1.scope, fine⟩
  case h_21 line name items body room =>
    cases T.judged hpart with
    | for_ ht hname fine =>
      refine typed_first hm ⟨_, ht⟩ hu fun w m1 _ hm1 hu => ?_
      split at hu
      · have body_typed := (evaluation_typed T limits).2 room body
        obtain ⟨w, _, m2, hm2, rfl⟩ := of_mem_turnVisits
          (fun w _ m hm => (ends_named body_typed fine hname w.fits_unknown hm k).forget) hm1 hu
        exact ⟨hm2.enclose (by simpa using ⟨_, hname, w.fits_unknown⟩) m2.scope, fine⟩
      · cases hu
  case h_22 => cases hu

theorem typed_of_reaches {v : Visit} (h : v.Typed T) (hr : v.Reaches limits u) : u.Typed T := by
  induction hr with
  | refl => exact h
  | tail _ hopens ih => exact ih.opens hopens

/-- A visit that raises a mismatch has an operand of unknown type. -/
theorem unknown_operand {v : Visit} {stop : Stop} (h : v.Typed T) (raises : v.Raises limits stop)
    (hmismatch : stop.isMismatch = true) : ∃ e ∈ v.part.operands, T.typed e .unknown := by
  suffices hexplains : v.Explains T limits stop v.machine by
    rcases hexplains hmismatch with ⟨u, hu, hstop⟩ | hoperand
    · exact absurd hstop (raises.2 u hu)
    · exact hoperand
  obtain ⟨part, room, m, k⟩ := v
  obtain ⟨hm, hpart⟩ := h
  have hstop := raises.1
  cases part with
  | expr e =>
    obtain ⟨t, ht⟩ := hpart
    have hends := (evaluation_typed T limits).1 room e t ht k m hm
    change error? (e.eval limits room m) = some stop at hstop
    cases heval : e.eval limits room m with
    | ok w m1 =>
      rw [heval] at hstop
      cases hstop
    | error stop' m1 =>
      rw [heval] at hstop hends
      cases hstop
      exact hends
  | stmt s =>
    have hends := (evaluation_typed T limits).2 room s hpart k m hm
    change error? (s.exec limits room m) = some stop at hstop
    cases hexec : s.exec limits room m with
    | ok flow m1 =>
      rw [hexec] at hstop
      cases hstop
    | error stop' m1 =>
      rw [hexec] at hstop hends
      cases hstop
      exact hends

/-! ## Programs -/

theorem execTop_typed {s : Stmt} (fine : T.fine s) (hm : m.Typed T) :
    Ends (fun _ m' => m'.Typed T) (fun _ _ => True) (s.execTop limits m) := by
  have hs : Ends _ _ (s.exec limits limits.room m) := exec_typed fine hm
  unfold Stmt.execTop
  split <;> rename_i heq <;> rw [heq] at hs
  · exact hs
  · trivial
  · trivial
  · trivial

theorem typed_of_visited {program : List Stmt} (fine : ∀ s ∈ program, T.fine s) (hm : m.Typed T)
    (h : Visited limits m program u) : u.Typed T := by
  obtain ⟨top, htop, hr⟩ := h
  obtain ⟨_, m1, h1, htop⟩ := mem_andThen.mp htop
  have hm1 : m1.Typed T := by
    cases h1
    exact ⟨hm.bindings, hm.functions⟩
  obtain ⟨s, hs, m2, hm2, rfl⟩ := of_mem_eachVisit
    (fun s hs m hm => execTop_typed (fine s hs) hm) hm1 htop
  have hstmt : (visitStmt 0 limits.room s m2).Typed T := ⟨hm2, fine s hs⟩
  exact typed_of_reaches hstmt hr

/-- A program stops for a value of the wrong kind where one of its statements does. -/
theorem stops_execTop (s : Stmt) (m : Machine) :
    Ends (fun _ _ => True)
      (fun stop _ => stop.isMismatch = true →
        (visitStmt 0 limits.room s m).stop? limits = some stop)
      (s.execTop limits m) := by
  unfold Stmt.execTop
  cases h : s.exec limits limits.room m with
  | ok flow m1 =>
    cases flow with
    | next => trivial
    | returned w => exact nofun
  | error stop m1 =>
    cases stop with
    | tooDeep => exact nofun
    | fault f => exact fun _ => congrArg error? h
    | endless => exact nofun

theorem stops_program (program : List Stmt) (m : Machine) :
    Ends (fun _ _ => True)
      (fun stop _ => stop.isMismatch = true →
        ∃ v ∈ eachVisit (visitStmt 0 limits.room) (Stmt.execTop limits) program m,
          v.stop? limits = some stop)
      (program.forM (Stmt.execTop limits) m) := by
  induction program generalizing m with
  | nil => trivial
  | cons s rest ih =>
    change Ends _ _ ((s.execTop limits >>= fun _ => rest.forM (Stmt.execTop limits)) m)
    rw [ends_bind]
    refine (stops_execTop s m).imp_eq (fun _ m1 h1 _ => ?_) fun stop _ _ h hmismatch => ?_
    · refine (ih m1).imp (fun _ _ h => h) fun stop _ h hmismatch => ?_
      obtain ⟨v, hv, hstop⟩ := h hmismatch
      refine ⟨v, ?_, hstop⟩
      rw [eachVisit, h1]
      exact List.mem_cons_of_mem _ hv
    · exact ⟨_, List.mem_cons_self, h hmismatch⟩

/-- A run that ends with a value of the wrong kind has met it in one of its visits. -/
theorem exists_visited_raises {program : List Stmt} {f : Fault}
    (hmismatch : f.cause.isMismatch = true)
    (h : (runOn limits m program).1 = some (.fault f)) :
    ∃ v, Visited limits m program v ∧ v.Raises limits (.fault f) := by
  have hstops : Ends (fun _ _ => True)
      (fun stop _ => stop.isMismatch = true →
        ∃ v ∈ topVisits limits m program, v.stop? limits = some stop)
      (evaluate limits program m) := by
    unfold evaluate
    rw [ends_bind]
    exact stops_program program _
  unfold runOn at h
  split at h
  · cases h
  · rename_i stop m1 heq
    rw [heq] at hstops
    cases stop with
    | fault f' =>
      cases h
      obtain ⟨v, hv, hstop⟩ := hstops hmismatch
      obtain ⟨u, hu, raises⟩ := exists_raises hstop
      exact ⟨u, ⟨v, hv, hu⟩, raises⟩
    | tooDeep =>
      cases h
      cases hmismatch
    | endless => cases h

end Typed

/-- In a program that passes its check, introduces no name twice and keeps to the types of its
variables, every expression of every run has a type, and its value is of this type if it is known.
A value of the wrong kind is met only where an operand is of unknown type. -/
theorem values_are_of_their_types {room : Nat} {program : List Stmt} {context : Context}
    (accepted : checkProgram room program .start = .ok () context)
    (distinct : DistinctNames program) (steady : SteadyAssignments room program)
    (limits : Limits) (input : String) (clock : Nat) :
    (∀ v e, Visited limits (.start input clock) program v → v.part = .expr e →
      (∃ t, TypedAs room program e t) ∧
        ∀ t w m, TypedAs room program e t → t ≠ .unknown →
          e.eval limits v.room v.machine = .ok w m →
            w.kind.name = t.name ∨ w.kind = .builtin ∧ t = .function) ∧
      (∀ v f, Visited limits (.start input clock) program v → v.Raises limits (.fault f) →
        f.cause.isMismatch = true → ∃ e ∈ v.part.operands, TypedAs room program e .unknown) ∧
      ∀ f, (runOn limits (.start input clock) program).1 = some (.fault f) →
        f.cause.isMismatch = true →
          ∃ v, Visited limits (.start input clock) program v ∧ v.Raises limits (.fault f) := by
  have fine := (program_sound steady accepted).2
  have typed : ∀ v, Visited limits (.start input clock) program v →
      v.Typed (.ofProgram accepted distinct steady) := fun v hv =>
    typed_of_visited fine (.start _ input clock) hv
  refine ⟨fun v e hv hpart => ?_, fun v f hv raises hmismatch => ?_, fun f h hmismatch => ?_⟩
  · obtain ⟨hm, hadmits⟩ := typed v hv
    rw [hpart] at hadmits
    exact ⟨hadmits, fun t w m ht known heval => (eval_typed ht hm heval).1.name known⟩
  · exact unknown_operand (typed v hv) raises hmismatch
  · exact exists_visited_raises hmismatch h

/-- A program whose function is called with a value of the wrong kind, after an assignment. -/
def mixedSum : List Stmt :=
  [.make 1 ⟨"x", 1⟩ (some (.atom ⟨.string, "a", 1⟩)),
    .expression 2 (.assign ⟨"x", 2⟩ (.atom ⟨.string, "b", 2⟩)),
    .funk 3 ⟨"f", 3⟩ [⟨"y", 3⟩] 3
      [.return_ 4 (some (.binary (.atom ⟨.name, "y", 4⟩) ⟨.plus, "+", 4⟩ (.atom ⟨.name, "x", 4⟩)))],
    .expression 5 (.call (.atom ⟨.name, "f", 5⟩) [.atom ⟨.boolean, "true", 5⟩])]

/-- The sum in the function has an operand of unknown type: its parameter. -/
theorem a_mixed_sum_has_an_unknown_operand :
    ∃ context, checkProgram 20 mixedSum .start = .ok () context ∧ DistinctNames mixedSum ∧
      SteadyAssignments 20 mixedSum ∧
        ∃ v e, Visited ⟨10, 30, 5⟩ (.start "" 0) mixedSum v ∧
          v.Raises ⟨10, 30, 5⟩ (.fault ⟨.notAddable .boolean .string, some 4⟩) ∧
          e ∈ v.part.operands ∧ TypedAs 20 mixedSum e .unknown := by
  obtain ⟨context, accepted⟩ : ∃ context, checkProgram 20 mixedSum .start = .ok () context :=
    ⟨_, rfl⟩
  have distinct : DistinctNames mixedSum := by decide
  have steady : SteadyAssignments 20 mixedSum := by decide +kernel
  have fails : (runOn ⟨10, 30, 5⟩ (.start "" 0) mixedSum).1 =
      some (.fault ⟨.notAddable .boolean .string, some 4⟩) := rfl
  obtain ⟨_, unknown, met⟩ :=
    values_are_of_their_types accepted distinct steady ⟨10, 30, 5⟩ "" 0
  obtain ⟨v, visited, raises⟩ := met _ fails rfl
  obtain ⟨e, he, ht⟩ := unknown v _ visited raises rfl
  exact ⟨context, accepted, distinct, steady, v, e, visited, raises, he, ht⟩

end FunkLang
