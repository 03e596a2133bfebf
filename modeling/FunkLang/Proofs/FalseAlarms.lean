-- No false alarms. A run comes to all parts of straight code in the order of
-- the text, as the check does, and does not get past one to which the check
-- objects. So a program that is rejected fails in the part that the check
-- rejects, or before it comes to that part.
import FunkLang.Proofs.StraightLines
import FunkLang.Proofs.Sums
import FunkLang.Proofs.Termination

namespace FunkLang

/-! ## Visits side by side -/

/-- A run and a check visit the same straight part, the machine of the one following the context
of the other. -/
structure Visit.Meets (v : Visit) (w : CheckVisit) : Prop where
  part : v.part = w.part
  straight : w.part.Straight
  machine : v.machine.Follows w.context

/-- The check of a part fails, and not for want of room. -/
def CheckVisit.Objects (w : CheckVisit) : Prop :=
  ∃ err, w.error? = some err ∧ err.problem ≠ .tooDeep

/-- The visits of a run are paid to the parts that a check visits, one after the other, and none
comes after a part to which the check objects. -/
def InStep (vs : List Visit) (ws : List CheckVisit) : Prop :=
  ∀ i w, ws[i]? = some w → (∀ v, vs[i]? = some v → v.Meets w) ∧ (w.Objects → vs.length ≤ i + 1)

section Visits

open Run

variable {limits : Limits} {active room k : Nat} {m : Machine} {c : Context} {v : Visit}
  {w : CheckVisit} {vs : List Visit} {ws : List CheckVisit} {e : Expr} {s : Stmt} {β : Type}

theorem tooDeep_of_harmless {α : Type} {r : EStateM.Result TypeError Context α}
    (h : Harmless r) {err : TypeError} (herr : error? r = some err) : err.problem = .tooDeep := by
  cases r with
  | ok a c => cases herr
  | error e c =>
    cases herr
    exact h

/-- A run does not get through a part to which the check objects. -/
theorem Visit.Meets.stops (h : v.Meets w) (hobjects : w.Objects) :
    ∃ stop, v.stop? limits = some stop := by
  obtain ⟨part, room, m, active⟩ := v
  obtain ⟨part', k, c⟩ := w
  obtain ⟨rfl : part = part', straight, hm⟩ := h
  obtain ⟨err, herr, hdeep⟩ := hobjects
  cases part with
  | expr e =>
    cases heval : e.eval limits room m with
    | error stop m1 => exact ⟨stop, by rw [Visit.stop?]; simp [heval, error?]⟩
    | ok x m1 =>
      have harmless := (evaluation_vouches limits).1 room e straight m x m1 heval k c hm
      exact absurd (tooDeep_of_harmless harmless herr) hdeep
  | stmt s =>
    cases hexec : s.exec limits room m with
    | error stop m1 => exact ⟨stop, by rw [Visit.stop?]; simp [hexec, error?]⟩
    | ok flow m1 =>
      have harmless := ((evaluation_vouches limits).2 room s straight m flow m1 hexec).2 k c hm
      exact absurd (tooDeep_of_harmless harmless herr) hdeep

theorem inStep_nil : InStep vs [] := by
  intro i w hw
  cases hw

theorem inStep_nothing : InStep [] ws := by
  refine fun i w _ => ⟨fun v hv => ?_, fun _ => Nat.zero_le _⟩
  cases hv

theorem inStep_cons (hv : v.Meets w) (hlast : w.Objects → vs = []) (h : InStep vs ws) :
    InStep (v :: vs) (w :: ws) := by
  intro i u hu
  cases i with
  | zero =>
    cases hu
    refine ⟨fun v' hv' => ?_, fun hobjects => ?_⟩
    · cases hv'
      exact hv
    · rw [hlast hobjects]
      exact Nat.le_refl _
  | succ i =>
    obtain ⟨hmeets, hlength⟩ := h i u hu
    exact ⟨hmeets, fun hobjects => Nat.succ_le_succ (hlength hobjects)⟩

/-- A run that visits one part. -/
theorem inStep_only (hv : v.Meets w) : InStep [v] (w :: ws) :=
  inStep_cons hv (fun _ => rfl) inStep_nothing

theorem InStep.of_prefix {ws' : List CheckVisit} (h : InStep vs ws) (hpre : ws' <+: ws) :
    InStep vs ws' := by
  obtain ⟨others, rfl⟩ := hpre
  intro i w hw
  obtain ⟨hlt, -⟩ := List.getElem?_eq_some_iff.mp hw
  exact h i w ((List.getElem?_append_left hlt).trans hw)

/-! ### Expressions -/

theorem meets_expr (he : (Part.expr e).Straight) (hm : m.Follows c) :
    (visitExpr active room e m).Meets (checkExpr k e c) := ⟨rfl, he, hm⟩

/-- A part is evaluated, and then come the visits to the others. -/
theorem inStep_first (he : (Part.expr e).Straight) (hm : m.Follows c)
    {next : Value → Machine → List Visit} {next' : Ty → Context → List CheckVisit}
    (h : ∀ x m1 t c1, x.Fits t → m1.Follows c1 → InStep (next x m1) (next' t c1)) :
    InStep (visitExpr active room e m :: andThen (e.eval limits room m) next)
      (checkExpr k e c :: andThen (e.check k c) next') := by
  have hmeets : (visitExpr active room e m).Meets (checkExpr k e c) := meets_expr he hm
  refine inStep_cons hmeets (fun hobjects => ?_) ?_
  · have hstops : ∃ stop, (visitExpr active room e m).stop? limits = some stop :=
      hmeets.stops hobjects
    obtain ⟨stop, hstop⟩ := hstops
    rw [stop?_visitExpr] at hstop
    cases heval : e.eval limits room m with
    | ok x m1 =>
      rw [heval] at hstop
      cases hstop
    | error stop m1 => rfl
  · cases hcheck : e.check k c with
    | error err c1 => exact inStep_nil
    | ok t c1 =>
      cases heval : e.eval limits room m with
      | error stop m1 => exact inStep_nothing
      | ok x m1 =>
        obtain ⟨hx, hm1⟩ := straight_eval he hm heval hcheck
        exact h x m1 t c1 hx hm1

theorem inStep_exprs {items : List Expr} (hitems : ∀ e ∈ items, (Part.expr e).Straight)
    (hm : m.Follows c) :
    InStep (eachVisit (visitExpr active room) (fun e => e.eval limits room) items m)
      (eachVisit (checkExpr k) (fun e => e.check k) items c) := by
  induction items generalizing m c with
  | nil => exact inStep_nil
  | cons e rest ih =>
    rw [List.forall_mem_cons] at hitems
    exact inStep_first hitems.1 hm fun _ _ _ _ _ hm1 => ih hitems.2 hm1

/-- After the arguments of a call come the visits to the body, of which there are none here. -/
theorem inStep_arguments {arguments : List Expr} {bodies : List Value → Machine → List Visit}
    (hbodies : ∀ args m c, Machine.Follows m c → bodies args m = [])
    (harguments : ∀ a ∈ arguments, (Part.expr a).Straight) (hm : m.Follows c) :
    InStep (eachVisit (visitExpr active room) (fun a => a.eval limits room) arguments m ++
        andThen (arguments.mapM (fun a => a.eval limits room) m) bodies)
      (eachVisit (checkExpr k) (fun a => a.check k) arguments c) := by
  induction arguments generalizing m c bodies with
  | nil => exact inStep_nil
  | cons a rest ih =>
    rw [List.forall_mem_cons] at harguments
    have heq : eachVisit (visitExpr active room) (fun a => a.eval limits room) (a :: rest) m ++
          andThen ((a :: rest).mapM (fun a => a.eval limits room) m) bodies =
        visitExpr active room a m :: andThen (a.eval limits room m) fun v m1 =>
          eachVisit (visitExpr active room) (fun a => a.eval limits room) rest m1 ++
            andThen (rest.mapM (fun a => a.eval limits room) m1) fun vs => bodies (v :: vs) := by
      rw [eachVisit, List.mapM_cons, List.cons_append]
      cases ha : a.eval limits room m with
      | error stop m1 =>
        rw [bind_of_error ha]
        rfl
      | ok v m1 =>
        rw [bind_of_ok ha]
        cases hrest : rest.mapM (fun a => a.eval limits room) m1 with
        | error stop m2 =>
          rw [bind_of_error hrest]
          simp [andThen, hrest]
        | ok vs m2 =>
          rw [bind_of_ok hrest]
          simp [andThen, hrest, pure, EStateM.pure]
    rw [heq, eachVisit]
    refine inStep_first harguments.1 hm fun v m1 t c1 _ hm1 => ih (fun args => ?_) harguments.2 hm1
    exact hbodies (v :: args)

/-- The parts of an expression are visited as they are checked. -/
theorem inStep_parts (h : ∀ inner, InStep vs (eachVisit (checkExpr inner)
    (fun e => e.check inner) e.parts c)) : InStep vs (checkExpr k e c).opens := by
  unfold CheckVisit.opens
  dsimp only [checkExpr]
  split
  · exact h _
  · exact inStep_nil

/-! ### Statements -/

theorem meets_stmt (hs : (Part.stmt s).Straight) (hm : m.Follows c) :
    (visitStmt active room s m).Meets (checkStmt k s c) := ⟨rfl, hs, hm⟩

/-- A statement is run, and then come the visits to the others. -/
theorem inStep_statement (hs : (Part.stmt s).Straight) (hm : m.Follows c) {act : Run β}
    (hact : ∀ x m1, act m = .ok x m1 → ∃ flow, s.exec limits room m = .ok flow m1)
    {next : β → Machine → List Visit} {next' : Unit → Context → List CheckVisit}
    (h : ∀ x m1 c1, m1.Follows c1 → InStep (next x m1) (next' () c1)) :
    InStep (visitStmt active room s m :: andThen (act m) next)
      (checkStmt k s c :: andThen (s.check k c) next') := by
  have hmeets : (visitStmt active room s m).Meets (checkStmt k s c) := meets_stmt hs hm
  cases hok : act m with
  | error stop m1 => exact inStep_only hmeets
  | ok x m1 =>
    obtain ⟨flow, hexec⟩ := hact x m1 hok
    have hflow := ((evaluation_vouches limits).2 room s hs m flow m1 hexec).1
    subst hflow
    refine inStep_cons hmeets (fun hobjects => ?_) ?_
    · have hstops : ∃ stop, (visitStmt active room s m).stop? limits = some stop :=
        hmeets.stops hobjects
      obtain ⟨stop, hstop⟩ := hstops
      rw [stop?_visitStmt, hexec] at hstop
      cases hstop
    · cases hcheck : s.check k c with
      | error err c1 => exact inStep_nil
      | ok u c1 => exact h x m1 c1 (straight_exec hs hm hexec hcheck)

theorem inStep_statements {body : List Stmt} (hbody : ∀ s ∈ body, (Part.stmt s).Straight)
    (hm : m.Follows c) :
    InStep (turnVisits (visitStmt active room) (fun s => s.exec limits room) body m)
      (eachVisit (checkStmt k) (fun s => s.check k) body c) := by
  induction body generalizing m c with
  | nil => exact inStep_nil
  | cons s rest ih =>
    rw [List.forall_mem_cons] at hbody
    refine inStep_statement hbody.1 hm (fun flow m1 h => ⟨flow, h⟩) fun flow m1 c1 hm1 => ?_
    cases flow with
    | next => exact ih hbody.2 hm1
    | returned x => exact inStep_nothing

/-! ### All visits -/

/-- What a run and a check open where they meet is visited in step. -/
theorem Visit.Meets.opens (h : v.Meets w) : InStep (v.opens limits) w.opens := by
  obtain ⟨part, room, m, active⟩ := v
  obtain ⟨part', k, c⟩ := w
  obtain ⟨hpart, straight, hm⟩ := h
  obtain rfl : part' = part := hpart.symm
  unfold Visit.opens
  dsimp only at straight hm ⊢
  split
  case h_1 op operand room =>
    have hoperand : (Part.expr operand).Straight := straight.operand (by simp [Expr.parts])
    exact inStep_parts fun _ => inStep_only (meets_expr hoperand hm)
  case h_2 left op right room =>
    refine inStep_parts fun _ => ?_
    refine inStep_first (straight.operand (by simp [Expr.parts])) hm fun x m1 t c1 _ hm1 => ?_
    exact inStep_only (meets_expr (straight.operand (by simp [Expr.parts])) hm1)
  case h_3 => cases straight.self
  case h_4 name value room =>
    refine inStep_parts fun _ => inStep_only (meets_expr (straight.operand ?_) hm)
    simp [Expr.parts]
  case h_5 collection place value room =>
    exact inStep_parts fun _ => inStep_exprs (fun e he => straight.operand he) hm
  case h_6 collection key value room =>
    exact inStep_parts fun _ => inStep_exprs (fun e he => straight.operand he) hm
  case h_7 => cases straight.self
  case h_8 callee arguments room =>
    refine inStep_parts fun _ => ?_
    refine inStep_first (straight.operand (by simp [Expr.parts])) hm fun f m1 t c1 _ hm1 => ?_
    refine inStep_arguments (fun args m2 c2 hm2 => bodyVisits_eq_nil hm2) (fun a ha => ?_) hm1
    exact straight.operand (by simp [Expr.parts, ha])
  case h_9 line elements room =>
    exact inStep_parts fun _ => inStep_exprs (fun e he => straight.operand he) hm
  case h_10 line entries room =>
    exact inStep_parts fun _ => inStep_exprs (fun e he => straight.operand he) hm
  case h_11 collection place room =>
    exact inStep_parts fun _ => inStep_exprs (fun e he => straight.operand he) hm
  case h_12 collection key room =>
    refine inStep_parts fun _ => inStep_only (meets_expr (straight.operand ?_) hm)
    simp [Expr.parts]
  case h_13 line value room =>
    have hvalue := straight.part (q := .expr value) (by simp [Part.subparts])
    obtain _ | _ | _ | k := k
    iterate 3 exact inStep_nil
    exact inStep_only (meets_expr hvalue hm)
  case h_14 line value room =>
    have hvalue := straight.part (q := .expr value) (by simp [Part.subparts])
    obtain _ | _ | _ | k := k
    iterate 3 exact inStep_nil
    exact inStep_only (meets_expr hvalue hm)
  case h_15 line name value room =>
    have hvalue := straight.part (q := .expr value) (by simp [Part.subparts])
    obtain _ | _ | _ | k := k
    iterate 3 exact inStep_nil
    exact inStep_only (meets_expr hvalue hm)
  case h_16 line body room =>
    have hbody : ∀ s ∈ body, (Part.stmt s).Straight := fun s hs =>
      straight.part (List.mem_map_of_mem hs)
    obtain _ | _ | _ | _ | _ | _ | k := k
    iterate 6 exact inStep_nil
    change InStep _ (checkAll k body c.inner)
    unfold checkAll
    rw [hoisting_straight hbody]
    exact inStep_statements hbody hm.inner
  case h_17 | h_18 | h_19 | h_21 => cases straight.self
  case h_20 line value name body room =>
    have hvalue := straight.part (q := .expr value) (by simp [Part.subparts])
    have hbody := straight.part (q := .stmt body) (by simp [Part.subparts])
    obtain _ | _ | _ | _ | _ | k := k
    iterate 5 exact inStep_nil
    refine inStep_first hvalue hm fun x m1 t c1 hx hm1 => ?_
    exact inStep_only (meets_stmt hbody (hm1.innerNamed hx))
  case h_22 => exact inStep_nothing

theorem exec_of_execTop {u : Unit} {m' : Machine} (h : s.execTop limits m = .ok u m') :
    s.exec limits limits.room m = .ok .next m' := by
  unfold Stmt.execTop at h
  split at h
  · rename_i heq
    cases h
    exact heq
  all_goals cases h

theorem inStep_top {program : List Stmt} (straight : ∀ s ∈ program, (Part.stmt s).Straight)
    (hm : m.Follows c) :
    InStep (eachVisit (visitStmt 0 limits.room) (Stmt.execTop limits) program m)
      (eachVisit (checkStmt k) (fun s => s.check k) program c) := by
  induction program generalizing m c with
  | nil => exact inStep_nil
  | cons s rest ih =>
    rw [List.forall_mem_cons] at straight
    have hact : ∀ u m1, s.execTop limits m = .ok u m1 →
        ∃ flow, s.exec limits limits.room m = .ok flow m1 :=
      fun u m1 h => ⟨.next, exec_of_execTop h⟩
    exact inStep_statement straight.1 hm hact fun _ m1 c1 hm1 => ih straight.2 hm1

/-- The statements of a program are run as they are checked. -/
theorem inStep_program {program : List Stmt} (straight : ∀ s ∈ program, (Part.stmt s).Straight)
    (hm : m.Follows c) : InStep (topVisits limits m program) (checkAll k program c) := by
  unfold checkAll
  rw [hoisting_straight straight]
  exact inStep_top straight (hm.of_eq rfl rfl rfl)

/-- A run pays its visits to straight code in the order of the parts. -/
theorem partNumber_straight (h : v.part.Straight) (i : Nat) : v.partNumber limits i = i := by
  have hself := h.self
  unfold Visit.partNumber
  split
  case h_5 => rfl
  all_goals
    rename_i hpart
    rw [hpart] at hself
    cases hself

end Visits

/-! ## Where a run stops -/

section Rejected

variable {limits : Limits} {m : Machine} {room : Nat} {program : List Stmt} {err : TypeError}
  {path : List Nat} {w : CheckVisit} {v : Visit}

theorem VisitedAt.ne_nil (h : VisitedAt limits m program path v) : path ≠ [] := by
  cases h with
  | top => exact List.cons_ne_nil _ _
  | part => exact List.cons_ne_nil _ _

theorem VisitedAt.around {i : Nat} (h : VisitedAt limits m program (i :: path) v)
    (hne : path ≠ []) :
    ∃ u j, VisitedAt limits m program path u ∧ u.partNumber limits j = i ∧
      (u.opens limits)[j]? = some v := by
  generalize hpath : i :: path = path' at h
  cases h with
  | top =>
    cases hpath
    exact absurd rfl hne
  | @part path' u j v h hv =>
    cases hpath
    exact ⟨u, j, h, rfl, hv⟩

theorem VisitedAt.suffix {path' : List Nat} (h : VisitedAt limits m program path v)
    (hsuffix : path' <:+ path) (hne : path' ≠ []) : ∃ u, VisitedAt limits m program path' u := by
  induction h with
  | top hv =>
    rcases List.suffix_cons_iff.mp hsuffix with rfl | hnil
    · exact ⟨_, .top hv⟩
    · exact absurd (List.suffix_nil.mp hnil) hne
  | part h hv ih =>
    rcases List.suffix_cons_iff.mp hsuffix with rfl | hinner
    · exact ⟨_, .part h hv⟩
    · exact ih hinner

/-- A run that comes to a part at which the check fails comes there as the check does. -/
theorem FailsAt.meets (straight : ∀ s ∈ program, (Part.stmt s).Straight) (hm : m.Follows .start)
    (hfails : FailsAt room program err path w) (hv : VisitedAt limits m program path v) :
    v.Meets w := by
  induction hfails generalizing v with
  | @top i w hw herr =>
    cases hv with
    | top hv => exact (inStep_program straight hm i w hw).1 v hv
    | part hv => exact absurd rfl hv.ne_nil
  | @part path w i u hfails hu herr ih =>
    obtain ⟨x, j, hx, hj, hopens⟩ := hv.around hfails.ne_nil
    have hmeets := ih hx
    rw [partNumber_straight (hmeets.part ▸ hmeets.straight)] at hj
    subst hj
    exact (hmeets.opens.of_prefix w.examined_prefix j u hu).1 v hopens

/-- It does not come to a part that is behind one at which the check fails. -/
theorem FailsAt.le_number (straight : ∀ s ∈ program, (Part.stmt s).Straight)
    (hm : m.Follows .start) (hdeep : err.problem ≠ .tooDeep) {i j : Nat}
    (hfails : FailsAt room program err (i :: path) w)
    (hv : VisitedAt limits m program (j :: path) v) : j ≤ i := by
  have hobjects : w.Objects := ⟨err, hfails.error, hdeep⟩
  cases hfails with
  | top hw =>
    cases hv with
    | top hv =>
      obtain ⟨hlt, -⟩ := List.getElem?_eq_some_iff.mp hv
      exact Nat.le_of_lt_succ
        (Nat.lt_of_lt_of_le hlt ((inStep_program straight hm i w hw).2 hobjects))
    | part hv => exact absurd rfl hv.ne_nil
  | @part _ u _ _ hfails hu =>
    obtain ⟨x, j', hx, rfl, hopens⟩ := hv.around hfails.ne_nil
    have hmeets := hfails.meets straight hm hx
    have hstep : InStep (x.opens limits) u.examined := hmeets.opens.of_prefix u.examined_prefix
    rw [partNumber_straight (hmeets.part ▸ hmeets.straight)]
    obtain ⟨hlt, -⟩ := List.getElem?_eq_some_iff.mp hopens
    exact Nat.le_of_lt_succ (Nat.lt_of_lt_of_le hlt ((hstep i w hu).2 hobjects))

/-- One path comes after another in the order of the text, and does not lead into the same part:
where their ways part, it takes the later one. -/
def ComesAfter (later path : List Nat) : Prop :=
  ∃ outer i j, i < j ∧ (i :: outer) <:+ path ∧ (j :: outer) <:+ later

/-- A run comes to no part that is behind one at which the check fails. -/
theorem FailsAt.not_after (straight : ∀ s ∈ program, (Part.stmt s).Straight)
    (hm : m.Follows .start) (hdeep : err.problem ≠ .tooDeep)
    (hfails : FailsAt room program err path w) {later : List Nat}
    (hv : VisitedAt limits m program later v) : ¬ ComesAfter later path := by
  rintro ⟨outer, i, j, hlt, hpath, hlater⟩
  obtain ⟨u, hu⟩ := hfails.suffix hpath (List.cons_ne_nil _ _)
  obtain ⟨x, hx⟩ := hv.suffix hlater (List.cons_ne_nil _ _)
  exact absurd (hu.le_number straight hm hdeep hx) (Nat.not_le.mpr hlt)

end Rejected

/-- Where statements come to their end, a check of them has nothing to object. -/
theorem harmless_of_forM {limits : Limits} {m m' : Machine} {room : Nat} {body : List Stmt}
    {c : Context} {u : PUnit} (straight : ∀ s ∈ body, (Part.stmt s).Straight) (hm : m.Follows c)
    (h : body.forM (Stmt.execTop limits) m = .ok u m') :
    Harmless (body.forM (fun s => s.check room) c) := by
  induction body generalizing m c with
  | nil => trivial
  | cons s rest ih =>
    rw [List.forall_mem_cons] at straight
    obtain ⟨_, m1, hs, h⟩ := bind_eq_ok.mp h
    have hexec := exec_of_execTop hs
    obtain ⟨-, vouched⟩ := (evaluation_vouches limits).2 limits.room s straight.1 m _ m1 hexec
    refine harmless_bind (vouched room c hm) fun _ c1 hok => ?_
    exact ih straight.2 (straight_exec straight.1 hm hexec hok) h

/-- A straight program that is rejected, and not for want of room, does not come to its end. -/
theorem evaluate_ne_ok {limits : Limits} {m m' : Machine} {room : Nat} {program : List Stmt}
    {err : TypeError} {c c' : Context} {u : Unit}
    (straight : ∀ s ∈ program, (Part.stmt s).Straight) (hm : m.Follows c)
    (rejected : checkProgram room program c = .error err c') (known : err.problem ≠ .tooDeep) :
    evaluate limits program m ≠ .ok u m' := by
  intro hrun
  obtain ⟨_, m1, hnote, h⟩ := bind_eq_ok.mp hrun
  cases hnote
  have harmless : Harmless (program.forM (fun s => s.check room) c) :=
    harmless_of_forM straight (by exact hm.of_eq rfl rfl rfl) h
  unfold checkProgram at rejected
  rw [list_eq, hoisting_straight straight] at rejected
  rw [rejected] at harmless
  exact absurd harmless known

/-- A program without a `while` that does not come to its end comes to a fault. -/
theorem exists_fault {limits : Limits} {program : List Stmt} {input : String} {clock : Nat}
    (loopless : ∀ s ∈ program, (Part.stmt s).Loopless)
    (h : ∀ u m, evaluate limits program (.start input clock) ≠ .ok u m) :
    ∃ f, (runOn limits (.start input clock) program).1 = some (.fault f) := by
  have ends := (programs_without_while_end program loopless input clock).1 limits
  unfold runOn at ends ⊢
  cases hrun : evaluate limits program (.start input clock) with
  | ok u m => exact absurd hrun (h u m)
  | error stop m =>
    rw [hrun] at ends
    cases stop with
    | fault f => exact ⟨f, rfl⟩
    | tooDeep => exact ⟨_, rfl⟩
    | endless => exact absurd rfl ends

/-- A straight program that is rejected, and not for want of room, fails where it is rejected or
before: its run ends with a fault, it comes to no part behind the rejected one, and if it comes to
that one it does not get through it. -/
theorem a_rejected_straight_program_fails (room : Nat) (program : List Stmt)
    (straight : ∀ s ∈ program, (Part.stmt s).Straight) (err : TypeError) (c : Context)
    (rejected : checkProgram room program .start = .error err c) (known : err.problem ≠ .tooDeep)
    (limits : Limits) (input : String) (clock : Nat) :
    (∃ f, (runProgram limits false input clock program).failure = some (.fault f)) ∧
      ∃ path w, RejectedAt room program err path w ∧
        (∀ later v, VisitedAt limits (.start input clock) program later v →
          ¬ ComesAfter later path) ∧
        ∀ v, VisitedAt limits (.start input clock) program path v →
          ∃ stop, v.stop? limits = some stop := by
  have start := Machine.Follows.start input clock
  refine ⟨?_, ?_⟩
  · refine exists_fault (fun s hs => (straight s hs).loopless) fun u m => ?_
    exact evaluate_ne_ok straight start rejected known
  · obtain ⟨path, w, hrejected, -⟩ := exists_one_rejectedAt rejected
    refine ⟨path, w, hrejected, fun later v hv => ?_, fun v hv => ?_⟩
    · exact hrejected.fails.not_after straight start known hv
    · exact (hrejected.fails.meets straight start hv).stops ⟨err, hrejected.fails.error, known⟩

/-- A program that calls a text, in a block after the declaration of a variable. -/
def callingText : List Stmt :=
  [.make 1 ⟨"a", 1⟩ (some (.atom ⟨.string, "x", 1⟩)),
    .block 2 [.print 2 (.call (.atom ⟨.name, "a", 2⟩) [.atom ⟨.number, "1", 2⟩])]]

theorem atom_straight (mark : Mark Atom) : (Part.expr (.atom mark)).Straight :=
  Part.straight_iff.mpr ⟨rfl, List.forall_mem_nil _⟩

theorem callingText_straight : ∀ s ∈ callingText, (Part.stmt s).Straight := by
  have hmake (name : Name) (text : Mark Atom) :
      (Part.stmt (.make 1 name (some (.atom text)))).Straight :=
    Part.straight_iff.mpr ⟨rfl, List.forall_mem_singleton.mpr (atom_straight text)⟩
  have hcall (f a : Mark Atom) : (Part.expr (.call (.atom f) [.atom a])).Straight :=
    Part.straight_iff.mpr ⟨rfl, List.forall_mem_cons.mpr
      ⟨atom_straight f, List.forall_mem_singleton.mpr (atom_straight a)⟩⟩
  have hblock (e : Expr) (he : (Part.expr e).Straight) :
      (Part.stmt (.block 2 [.print 2 e])).Straight :=
    Part.straight_iff.mpr ⟨rfl, List.forall_mem_singleton.mpr
      (Part.straight_iff.mpr ⟨rfl, List.forall_mem_singleton.mpr he⟩)⟩
  exact List.forall_mem_cons.mpr
    ⟨hmake _ _, List.forall_mem_singleton.mpr (hblock _ (hcall _ _))⟩

theorem a_call_of_a_text_is_no_false_alarm :
    ∃ c, checkProgram standardRoom callingText .start = .error ⟨.notCallable .string, some 2⟩ c ∧
      (∃ f, (runProgram .standard false "" 0 callingText).failure = some (.fault f)) ∧
      ∃ path w, RejectedAt standardRoom callingText ⟨.notCallable .string, some 2⟩ path w ∧
        (∀ later v, VisitedAt .standard (.start "" 0) callingText later v →
          ¬ ComesAfter later path) ∧
        ∀ v, VisitedAt .standard (.start "" 0) callingText path v →
          ∃ stop, v.stop? .standard = some stop := by
  refine ⟨_, rfl, ?_⟩
  exact a_rejected_straight_program_fails standardRoom callingText callingText_straight _ _ rfl
    nofun .standard "" 0

/-! ## Where there is no room -/

theorem sumOfOnes_straight (n : Nat) : (Part.expr (sumOfOnes n)).Straight := by
  induction n with
  | zero => exact atom_straight _
  | succ n ih =>
    exact Part.straight_iff.mpr ⟨rfl, List.forall_mem_cons.mpr
      ⟨ih, List.forall_mem_singleton.mpr (atom_straight _)⟩⟩

/-- Each plus sign takes four of the room of a check. -/
theorem check_sum {n room : Nat} (h : room < 4 * n + 3) (c : Context) :
    (sumOfOnes n).check room c = .error ⟨.tooDeep, none⟩ c := by
  induction n generalizing room with
  | zero =>
    obtain _ | _ | _ | room := room
    iterate 3 rfl
    omega
  | succ n ih =>
    obtain _ | _ | _ | _ | room := room
    iterate 4 rfl
    unfold sumOfOnes
    simp only [Expr.check]
    have hleft : (sumOfOnes n).check room c = .error ⟨.tooDeep, none⟩ c := ih (by omega)
    exact bind_of_error hleft

/-- Each plus sign takes three of the room of a run. -/
theorem eval_sum (limits : Limits) {n room : Nat} (h : 3 * n + 3 ≤ room) (m : Machine) :
    ∃ x, (sumOfOnes n).eval limits room m = .ok (.number x) m := by
  induction n generalizing room with
  | zero =>
    obtain ⟨room, rfl⟩ := Nat.exists_eq_add_of_le' h
    exact ⟨_, rfl⟩
  | succ n ih =>
    obtain ⟨room, rfl⟩ := Nat.exists_eq_add_of_le' (show 3 + 3 ≤ room by omega)
    have hleft : ∃ x, (sumOfOnes n).eval limits (room + 3) m = .ok (.number x) m :=
      ih (by omega)
    obtain ⟨x, hx⟩ := hleft
    unfold sumOfOnes
    simp only [Expr.eval]
    exact ⟨_, bind_of_ok hx⟩

/-- A sum as a statement, checked and run with the ordinary room. -/
theorem checkProgram_sum {n : Nat} (h : 19987 < 4 * n + 3) :
    checkProgram standardRoom [.expression 1 (sumOfOnes n)] .start =
      .error ⟨.tooDeep, none⟩ .start := by
  have hstatement : (Stmt.expression 1 (sumOfOnes n)).check (19987 + 3) .start =
      .error ⟨.tooDeep, none⟩ .start := by
    simp only [Stmt.check]
    exact bind_of_error (check_sum h .start)
  unfold checkProgram
  rw [list_eq]
  exact bind_of_error hstatement

theorem runProgram_sum {n : Nat} (h : 3 * n + 3 ≤ 19987) :
    runProgram .standard false "" 0 [.expression 1 (sumOfOnes n)] = ⟨"", none⟩ := by
  let m := stateAfter (Run.note (.evaluating 1) (.start "" 0))
  obtain ⟨x, hx⟩ := eval_sum .standard h m
  have hexec : (Stmt.expression 1 (sumOfOnes n)).exec .standard (19987 + 3) m = .ok .next m := by
    simp only [Stmt.exec]
    exact bind_of_ok hx
  have htop : (Stmt.expression 1 (sumOfOnes n)).execTop .standard m = .ok () m := by
    unfold Stmt.execTop
    rw [show Limits.standard.room = 19987 + 3 from rfl, hexec]
  have hrun : evaluate .standard [.expression 1 (sumOfOnes n)] (.start "" 0) = .ok () m :=
    bind_of_ok htop
  unfold runProgram runOn
  simp only [hrun]
  rfl

theorem a_long_sum_is_too_deep_to_check :
    readScript (sumScript 5800) = .ok [.expression 1 (sumOfOnes 5800)] ∧
      (∀ s ∈ [Stmt.expression 1 (sumOfOnes 5800)], (Part.stmt s).Straight) ∧
      checkProgram standardRoom [.expression 1 (sumOfOnes 5800)] .start =
        .error ⟨.tooDeep, none⟩ .start ∧
      runProgram .standard false "" 0 [.expression 1 (sumOfOnes 5800)] = ⟨"", none⟩ := by
  have straight : (Part.stmt (.expression 1 (sumOfOnes 5800))).Straight :=
    Part.straight_iff.mpr ⟨rfl, List.forall_mem_singleton.mpr (sumOfOnes_straight 5800)⟩
  exact ⟨readScript_sum 5800, List.forall_mem_singleton.mpr straight, checkProgram_sum (by omega),
    runProgram_sum (by omega)⟩

end FunkLang
