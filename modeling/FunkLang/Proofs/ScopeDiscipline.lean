-- The scope and depth discipline of a run: every part of a program, however
-- it ends, goes back to the scope and the count of active calls it started
-- with, and gives names only to the scope that it runs in.
import FunkLang.Program
import FunkLang.Proofs.Frame
import FunkLang.Proofs.Names
import FunkLang.Proofs.Visit

namespace FunkLang

/-! ## Calls -/

namespace Run

variable {limits : Limits} {run : Stmt → Run Flow}

theorem keeps_statements (h : ∀ s, Keeps (Kept s.declares) (run s)) (body : List Stmt) :
    Keeps (Kept (body.flatMap Stmt.declares)) (inTurn run body) :=
  keeps_inTurn fun s hs => (h s).imp fun _ _ hk => hk.mono fun _ hname =>
    List.mem_flatMap.mpr ⟨s, hs, hname⟩

/-- A call that is not refused. -/
theorem keeps_admitted (h : ∀ s, Keeps (Kept s.declares) (run s)) (closure : Closure)
    (args : List Value) (line : Int) :
    Keeps (Kept []) (activation closure.name line
      (enclosed closure.scope (closure.params.zip args) (inTurn run closure.body))) :=
  keeps_activation (keeps_enclosed (keeps_statements h closure.body))

theorem keeps_callClosure (h : ∀ s, Keeps (Kept s.declares) (run s)) (closure : Closure)
    (args : List Value) (line : Int) :
    Keeps (Kept []) (callClosure limits run closure args line) := by
  unfold callClosure
  split
  · exact keeps_fail _ _
  · refine keeps_get.andThen fun m => ?_
    split
    · exact keeps_fail _ _
    · exact (keeps_note _).andThen fun _ => keeps_admitted h closure args line

theorem keeps_callValue {room : Nat} (h : ∀ s, Keeps (Kept s.declares) (run s)) (callee : Value)
    (args : List Value) (line : Int) :
    Keeps (Kept []) (callValue limits room run callee args line) := by
  unfold callValue
  split
  · exact keeps_local (Builtin.local_call _ _ _ _)
  · exact keeps_get.andThen fun m => keeps_callClosure h _ _ _
  · exact keeps_fail _ _

end Run

/-! ## All parts of a program -/

open Run in
/-- Every expression keeps the names of all scopes, and every statement those it does not declare. -/
theorem evaluation_keeps (limits : Limits) :
    (∀ room (e : Expr), Keeps (Kept []) (e.eval limits room)) ∧
      (∀ room (s : Stmt), Keeps (Kept s.declares) (s.exec limits room)) := by
  refine evaluation_induction limits ?shallowExpr ?shallowStmt ?atom ?unary ?binary ?logical ?assign
    ?assignIndex ?assignField ?choice ?call ?list ?record ?index ?field ?expression ?print ?make
    ?makeValue ?block ?if_ ?while_ ?funk ?return_ ?returnValue ?with_ ?for_
  case shallowExpr =>
    intro room e h
    rw [h]
    exact keeps_throw _
  case shallowStmt =>
    intro room s h
    rw [h]
    exact keeps_throw _
  case atom =>
    intro room mark
    simp only [Expr.eval]
    exact keeps_local (local_atom mark)
  case unary =>
    intro room op operand ih
    simp only [Expr.eval]
    exact ih.andThen fun v => keeps_local (local_unary op v)
  case binary =>
    intro room left op right ihl ihr
    simp only [Expr.eval]
    exact ihl.andThen fun a => ihr.andThen fun b => keeps_local (local_binary _ _ _ _ _)
  case logical =>
    intro room op left right ihl ihr
    simp only [Expr.eval]
    refine ihl.andThen fun v => (keeps_local (local_truth _ _ _)).andThen fun a => ?_
    split
    · exact keeps_pure _
    · exact keeps_pure _
    · exact ihr.andThen fun w => (keeps_local (local_truth _ _ _)).andThen fun b => keeps_pure _
  case assign =>
    intro room name value ih
    simp only [Expr.eval]
    exact ih.andThen fun v => (keeps_assign _ _ _).andThen fun _ => keeps_pure _
  case assignIndex =>
    intro room collection place value ihc ihp ihv
    simp only [Expr.eval]
    exact ihc.andThen fun c => ihp.andThen fun i => ihv.andThen fun v =>
      keeps_local (local_setElement _ _ _ _)
  case assignField =>
    intro room collection key value ihc ihv
    simp only [Expr.eval]
    exact ihc.andThen fun c => ihv.andThen fun v => keeps_local (local_setField _ _ _ _)
  case choice =>
    intro room condition yes no ihc ihy ihn
    simp only [Expr.eval]
    refine ihc.andThen fun v => (keeps_local (local_truth _ _ _)).andThen fun b => ?_
    split
    · exact ihy
    · exact ihn
  case call =>
    intro room callee arguments ihf iha ihs
    simp only [Expr.eval]
    exact ihf.andThen fun f => (keeps_mapM iha).andThen fun args => keeps_callValue ihs _ _ _
  case list =>
    intro room line elements ih
    simp only [Expr.eval]
    exact (keeps_mapM ih).andThen fun vs => keeps_allocate _
  case record =>
    intro room line entries ih
    simp only [Expr.eval]
    refine (keeps_mapM fun entry => ?_).andThen fun fields => keeps_allocate _
    exact (ih entry.2).andThen fun v => keeps_pure _
  case index =>
    intro room collection place ihc ihp
    simp only [Expr.eval]
    exact ihc.andThen fun c => ihp.andThen fun i => keeps_local (local_element _ _ _)
  case field =>
    intro room collection key ih
    simp only [Expr.eval]
    exact ih.andThen fun c => keeps_local (local_field _ _ _)
  case expression =>
    intro room line value ih
    simp only [Stmt.exec]
    exact ih.more.andThen fun v => keeps_pure _
  case print =>
    intro room line value ih
    simp only [Stmt.exec]
    exact ih.more.andThen fun v => (keeps_writeLine _ _).andThen fun _ => keeps_pure _
  case make =>
    intro room line name
    simp only [Stmt.exec]
    exact (keeps_pure _).andThen fun v => (keeps_declare _ _).andThen fun _ => keeps_pure _
  case makeValue =>
    intro room line name value ih
    simp only [Stmt.exec]
    exact ih.more.andThen fun v => (keeps_declare _ _).andThen fun _ => keeps_pure _
  case block =>
    intro room line body ih
    simp only [Stmt.exec]
    exact keeps_get.andThen fun m => (keeps_enclosed (keeps_statements ih body)).more
  case if_ =>
    intro room line condition yes no ihc ihy ihn
    simp only [Stmt.exec]
    refine ihc.more.andThen fun v => (keeps_local (local_truth _ _ _)).andThen fun b => ?_
    cases no with
    | none =>
      dsimp only
      split
      · exact ihy
      · exact keeps_pure _
    | some no =>
      dsimp only
      split
      · exact ihy.imp fun _ _ hk => hk.mono fun name => List.mem_append_left _
      · exact (ihn no).imp fun _ _ hk => hk.mono fun name => List.mem_append_right _
  case while_ =>
    intro room line condition body ihc ihb
    simp only [Stmt.exec]
    exact keeps_whileHolds (ihc.more.andThen fun v => keeps_local (local_truth _ _ _)) ihb _
  case funk =>
    intro room line name params bodyLine body
    simp only [Stmt.exec]
    refine keeps_get.andThen fun m => (keeps_allocate _).more.andThen fun f => ?_
    exact (keeps_declare _ _).andThen fun _ => keeps_pure _
  case return_ =>
    intro room line
    simp only [Stmt.exec]
    exact keeps_pure _
  case returnValue =>
    intro room line value ih
    simp only [Stmt.exec]
    exact ih.more.andThen fun v => keeps_pure _
  case with_ =>
    intro room line value name body ihv ihb
    simp only [Stmt.exec]
    exact ihv.more.andThen fun v => keeps_get.andThen fun m => (keeps_enclosed ihb).more
  case for_ =>
    intro room line name items body ihi ihb
    simp only [Stmt.exec]
    refine ihi.more.andThen fun v => ?_
    split
    · refine keeps_get.andThen fun m => keeps_inTurn fun w _ => ?_
      exact keeps_get.andThen fun m => (keeps_enclosed ihb).more
    · exact keeps_fail _ _

/-! ## Calls in progress -/

theorem eval_keeps (limits : Limits) (room : Nat) (e : Expr) :
    Keeps (Kept []) (e.eval limits room) :=
  (evaluation_keeps limits).1 room e

theorem exec_keeps (limits : Limits) (room : Nat) (s : Stmt) :
    Keeps (Kept s.declares) (s.exec limits room) :=
  (evaluation_keeps limits).2 room s

/-- A run that keeps the count of active calls ends with the count that it started with. -/
theorem Keeps.depth {α : Type} {added : List String} {x : Run α} (h : Keeps (Kept added) x)
    (k : Nat) (m : Machine) (hm : m.depth = k) :
    Ends (fun _ m => m.depth = k) (fun _ m => m.depth = k) (x m) :=
  (h m).imp (fun _ _ hk => hk.depth.trans hm) (fun _ _ hk => hk.depth.trans hm)

theorem Keeps.depth_of_ok {α : Type} {added : List String} {x : Run α} (h : Keeps (Kept added) x)
    {m m1 : Machine} {a : α} (hx : x m = .ok a m1) : m1.depth = m.depth := by
  have hm1 := h m
  rw [hx] at hm1
  exact hm1.depth

/-! ## Where a visit runs -/

/-- The second machine is in the scope of the first one, or in a fresh scope right inside it, and
counts as many active calls. -/
structure Machine.Near (m m1 : Machine) : Prop where
  depth : m1.depth = m.depth
  opened : m.opened ≤ m1.opened
  scope : m1.scope = m.scope ∨ m.opened ≤ m1.scope ∧ m1.scope < m1.opened ∧
    m1.scopes.parent? m1.scope = some m.scope

namespace Machine.Near

variable {m m1 m2 : Machine} {added : List String}

theorem of_kept (hk : Kept added m m1) : m.Near m1 := ⟨hk.depth, hk.opened, .inl hk.scope⟩

theorem refl (m : Machine) : m.Near m := of_kept (.refl [] m)

theorem kept (h : m.Near m1) (hk : Kept added m1 m2) : m.Near m2 := by
  refine ⟨hk.depth.trans h.depth, Nat.le_trans h.opened hk.opened, ?_⟩
  rw [hk.scope]
  refine h.scope.imp_right fun ⟨hfresh, hlt, hparent⟩ =>
    ⟨hfresh, Nat.lt_of_lt_of_le hlt hk.opened, ?_⟩
  rw [hk.parents _ hlt]
  exact hparent

/-- A fresh scope inside that of a machine which is in the same scope. -/
theorem enclose (hk : Kept added m m1) (bindings : List (String × Value)) :
    m.Near (m1.enclose m1.scope bindings) := by
  refine ⟨hk.depth, ?_, .inr ⟨hk.opened, ?_, ?_⟩⟩
  · rw [Run.enclose_opened]
    exact Nat.le_succ_of_le hk.opened
  · rw [Run.enclose_opened]
    exact Nat.lt_succ_self _
  · rw [Run.enclose_scope, Run.enclose_parent?, if_pos rfl, hk.scope]

theorem ends {α : Type} {x : Run α} (hx : Keeps (Kept added) x) (m1 : Machine) (h : m.Near m1) :
    Ends (fun _ m2 => m.Near m2) (fun _ m2 => m.Near m2) (x m1) :=
  (hx m1).imp (fun _ _ hk => h.kept hk) fun _ _ hk => h.kept hk

end Machine.Near

/-- A visit is part of one more call, for which there was room, or it runs near a machine. -/
def Visit.RunsNear (limits : Limits) (u : Visit) (active : Nat) (m : Machine) : Prop :=
  u.active = active + 1 ∧ u.machine.depth = m.depth + 1 ∧ m.depth < limits.calls ∨
    u.active = active ∧ m.Near u.machine

section Near

variable {limits : Limits} {k room : Nat} {m m1 : Machine} {u : Visit}

theorem near_only {v : Visit} (hk : v.active = k) (hm : m.Near v.machine) (hu : u ∈ [v]) :
    u.RunsNear limits k m := by
  cases List.mem_singleton.mp hu
  exact .inr ⟨hk, hm⟩

/-- An expression is evaluated first, and then come the visits that its value leads to. -/
theorem near_first {e : Expr} {next : Value → Machine → List Visit}
    (hu : u ∈ visitExpr k room e m :: andThen (e.eval limits room m) next)
    (hnext : ∀ a m1, Kept [] m m1 → u ∈ next a m1 → u.RunsNear limits k m) :
    u.RunsNear limits k m := by
  rw [List.mem_cons, mem_andThen] at hu
  rcases hu with rfl | ⟨a, m1, h1, hu⟩
  · exact .inr ⟨rfl, .refl m⟩
  · have hk := eval_keeps limits room e m
    rw [h1] at hk
    exact hnext a m1 hk hu

theorem near_each {items : List Expr} (near : m.Near m1)
    (hu : u ∈ eachVisit (visitExpr k room) (fun e => e.eval limits room) items m1) :
    u.RunsNear limits k m := by
  obtain ⟨e, _, m2, near2, rfl⟩ :=
    of_mem_eachVisit (fun e _ => Machine.Near.ends (eval_keeps limits room e)) near hu
  exact .inr ⟨rfl, near2⟩

theorem near_statements {body : List Stmt} (near : m.Near m1)
    (hu : u ∈ turnVisits (visitStmt k room) (fun s => s.exec limits room) body m1) :
    u.active = k ∧ m.Near u.machine := by
  obtain ⟨s, _, m2, near2, rfl⟩ :=
    of_mem_turnVisits (fun s _ => Machine.Near.ends (exec_keeps limits room s)) near hu
  exact ⟨rfl, near2⟩

/-- The body of a called function is part of one more call. -/
theorem near_called {callee : Value} {args : List Value} {line : Int} (hm : m1.depth = m.depth)
    (hu : u ∈ bodyVisits limits k room callee args line m1) : u.RunsNear limits k m := by
  unfold bodyVisits at hu
  split at hu
  · dsimp only at hu
    split at hu
    · rename_i hadmitted
      obtain ⟨hactive, near⟩ := near_statements (.refl _) hu
      exact .inl ⟨hactive, near.depth.trans (congrArg (· + 1) hm), hm ▸ hadmitted.2⟩
    · cases hu
  · cases hu

/-- A visit that a visit opens runs near it, or as part of one more call. -/
theorem near_of_opens {v : Visit} (hu : u ∈ v.opens limits) :
    u.RunsNear limits v.active v.machine := by
  obtain ⟨part, room, m, k⟩ := v
  unfold Visit.opens at hu
  dsimp only at hu ⊢
  split at hu
  case h_1 op operand room => exact near_only rfl (.refl m) hu
  case h_2 left op right room =>
    exact near_first hu fun a m1 hk hu => near_only rfl (.of_kept hk) hu
  case h_3 op left right room =>
    refine near_first hu fun a m1 hk hu => ?_
    split at hu
    · exact near_only rfl (.of_kept hk) hu
    · cases hu
  case h_4 name value room => exact near_only rfl (.refl m) hu
  case h_5 collection place value room => exact near_each (.refl m) hu
  case h_6 collection key value room => exact near_each (.refl m) hu
  case h_7 condition yes no room =>
    refine near_first hu fun a m1 hk hu => ?_
    split at hu
    · exact near_only rfl (.of_kept hk) hu
    · cases hu
  case h_8 callee arguments room =>
    refine near_first hu fun f m1 hk hu => ?_
    rw [List.mem_append, mem_andThen] at hu
    rcases hu with hu | ⟨args, m2, hargs, hu⟩
    · exact near_each (.of_kept hk) hu
    · have hdepth := (Run.keeps_mapM fun a => eval_keeps _ _ a).depth_of_ok hargs
      exact near_called (hdepth.trans hk.depth) hu
  case h_9 line elements room => exact near_each (.refl m) hu
  case h_10 line entries room => exact near_each (.refl m) hu
  case h_11 collection place room => exact near_each (.refl m) hu
  case h_12 collection key room => exact near_only rfl (.refl m) hu
  case h_13 line value room => exact near_only rfl (.refl m) hu
  case h_14 line value room => exact near_only rfl (.refl m) hu
  case h_15 line name value room => exact near_only rfl (.refl m) hu
  case h_16 line body room =>
    exact .inr (near_statements (.enclose (.refl [] m) []) hu)
  case h_17 line condition yes no room =>
    refine near_first hu fun a m1 hk hu => ?_
    split at hu
    · exact near_only rfl (.of_kept hk) hu
    · obtain ⟨no, _, rfl⟩ := List.mem_map.mp hu
      exact .inr ⟨rfl, .of_kept hk⟩
    · cases hu
  case h_18 line condition body room =>
    have tests : Keeps (Kept []) (do
        Run.truth .while_ (← condition.eval limits room) line) :=
      (eval_keeps limits room condition).andThen fun v =>
        Run.keeps_local (Run.local_truth .while_ v line)
    obtain ⟨m1, near, rfl | rfl⟩ := of_mem_loopVisits (Machine.Near.ends tests)
      (Machine.Near.ends (exec_keeps limits room body)) (Machine.Near.refl m) hu
    · exact .inr ⟨rfl, near⟩
    · exact .inr ⟨rfl, near⟩
  case h_19 line value room => exact near_only rfl (.refl m) hu
  case h_20 line value name body room =>
    exact near_first hu fun w m1 hk hu => near_only rfl (.enclose hk _) hu
  case h_21 line name items body room =>
    refine near_first hu fun w m1 hk hu => ?_
    split at hu
    · have turns (w : Value) : Keeps (Kept []) (do
          Run.enclosed (← get).scope [(name.text, w)] (body.exec limits room)) :=
        Run.keeps_get.andThen fun m => Run.keeps_enclosed (exec_keeps limits room body)
      obtain ⟨w, _, m2, hk2, rfl⟩ := of_mem_turnVisits
        (fun w _ m2 hk2 => (turns w m2).imp (fun _ _ => hk2.trans) fun _ _ => hk2.trans) hk hu
      exact .inr ⟨rfl, .enclose hk2 _⟩
    · cases hu
  case h_22 => cases hu

end Near

/-! ## Calls in progress of a visit -/

/-- The machine counts the calls in progress, and no more of them than there may be. -/
def Visit.Counted (limits : Limits) (v : Visit) : Prop :=
  v.machine.depth = v.active ∧ v.active ≤ limits.calls

/-- A visit that counts the calls in progress opens only such visits. -/
theorem Visit.Counted.opens {limits : Limits} {u v : Visit} (h : v.Counted limits)
    (hu : u ∈ v.opens limits) : u.Counted limits := by
  obtain ⟨hdepth, hbound⟩ := h
  rcases near_of_opens hu with ⟨hactive, hcalled, hroom⟩ | ⟨hactive, near⟩
  · exact ⟨by omega, by omega⟩
  · exact ⟨near.depth.trans (hdepth.trans hactive.symm), hactive ▸ hbound⟩

theorem keeps_execTop (limits : Limits) (s : Stmt) :
    Keeps (Kept s.declares) (s.execTop limits) := by
  intro m
  have hs := exec_keeps limits limits.room s m
  unfold Stmt.execTop
  split <;> rename_i heq <;> rw [heq] at hs <;> exact hs

theorem keeps_evaluate (limits : Limits) (program : List Stmt) :
    Keeps (Kept (program.flatMap Stmt.declares)) (evaluate limits program) := by
  have hprogram : Keeps (Kept (program.flatMap Stmt.declares))
      (program.forM (Stmt.execTop limits)) :=
    Run.keeps_forM fun s hs => (keeps_execTop limits s).imp fun _ _ hk => hk.mono fun _ hname =>
      List.mem_flatMap.mpr ⟨s, hs, hname⟩
  exact (Run.keeps_note _).more.andThen fun _ => hprogram

/-- The machines that programs, run one after the other, leave behind. -/
inductive Reachable (limits : Limits) : Machine → Prop
  | start (input : String) (clock : Nat) : Reachable limits (.start input clock)
  | run {m : Machine} (program : List Stmt) (before : Reachable limits m) :
    Reachable limits (runOn limits m program).2

theorem kept_runOn (limits : Limits) (m : Machine) (program : List Stmt) :
    Kept (program.flatMap Stmt.declares) m (runOn limits m program).2 := by
  have h := keeps_evaluate limits program m
  unfold runOn
  split <;> rename_i heq <;> rw [heq] at h <;> exact h

/-- Between programs the root scope is the current one, and no call is in progress. -/
theorem at_rest_of_reachable {limits : Limits} {m : Machine} (h : Reachable limits m) :
    m.scope = ScopeTree.rootScope ∧ m.depth = 0 := by
  induction h with
  | start input clock => exact ⟨rfl, rfl⟩
  | @run m program _ ih =>
    have hk := kept_runOn limits m program
    exact ⟨hk.scope.trans ih.1, hk.depth.trans ih.2⟩

section Refused

variable {limits : Limits} {run : Stmt → Run Flow} {closure : Closure} {args : List Value}
  {line : Int} {m : Machine}

/-- The count of the arguments is looked at before the count of the active calls. -/
theorem callClosure_wrongCount (hcount : args.length ≠ closure.params.length) :
    Run.callClosure limits run closure args line m =
      .error (.fault ⟨.wrongCount closure.name closure.params.length args.length, some line⟩) m := by
  unfold Run.callClosure
  rw [if_pos (by simpa using hcount)]
  rfl

theorem callClosure_refused (hcount : args.length = closure.params.length)
    (hfull : limits.calls ≤ m.depth) :
    Run.callClosure limits run closure args line m =
      .error (.fault ⟨.tooManyCalls closure.name, some line⟩) m := by
  unfold Run.callClosure
  rw [if_neg (by simpa using hcount)]
  change ite (limits.calls ≤ m.depth) (Run.fail _ _) _ m = _
  rw [if_pos hfull]
  rfl

end Refused

/-- A visit is a call, and its callee and arguments have their values, on the machine `m`. -/
def Visit.Calls (limits : Limits) (v : Visit) (callee : Value) (args : List Value) (line : Int)
    (m : Machine) : Prop :=
  ∃ f arguments room m1, v.part = .expr (.call f arguments) ∧ v.room = room + 5 ∧
    f.eval limits (room + 2) v.machine = .ok callee m1 ∧
    arguments.mapM (fun a => a.eval limits (room + 1)) m1 = .ok args m ∧ line = f.line

section Calls

variable {limits : Limits} {v : Visit} {callee : Value} {args : List Value} {line : Int}
  {m : Machine}

/-- The values of the callee and of the arguments do not change the count of active calls. -/
theorem Visit.Calls.depth (h : v.Calls limits callee args line m) :
    m.depth = v.machine.depth := by
  obtain ⟨f, arguments, room, m1, _, _, hf, hargs, _⟩ := h
  have hm1 := (eval_keeps limits (room + 2) f).depth_of_ok hf
  have hm := (Run.keeps_mapM fun a => eval_keeps limits (room + 1) a).depth_of_ok hargs
  exact hm.trans hm1

end Calls

/-! ## The discipline -/

/-- The names that a part of a program sets in the scope it runs in. -/
def Part.declares : Part → List String
  | expr _ => []
  | stmt s => s.declares

theorem kept_after (limits : Limits) (v : Visit) :
    Kept v.part.declares v.machine (v.after limits) := by
  unfold Visit.after
  cases v.part with
  | expr e => exact (eval_keeps limits v.room e).stateAfter v.machine
  | stmt s => exact (exec_keeps limits v.room s).stateAfter v.machine

section Ends

variable {limits : Limits} {v : Visit} {args : List Value} {line : Int} {m : Machine}

end Ends

/-- The ordinary limit on active calls, with any room for nesting and any patience for loops. -/
def Limits.within (room turns : Nat) : Limits := { Limits.standard with room, turns }

/-- The limits of a small run. -/
def Limits.small : Limits := .within 20 5

end FunkLang
