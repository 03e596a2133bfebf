-- The course of a run. The visits that a visit opens come one after the other, and
-- each starts where the one before it has ended, but for what a step in between adds.
-- No step takes a scope, an iter or a function away or changes it, and a visit writes to
-- records only after all that it opens. The first visit that stops is the last one, and
-- the whole stops there as it does.
import FunkLang.Proofs.Finishing
import FunkLang.Proofs.Writes

namespace FunkLang

/-! ## Earlier and later machines -/

/-- An object that no operation changes. -/
def Cell.IsFixed : Cell → Prop
  | .iter _ | .function _ => True
  | _ => False

theorem Cell.IsFixed.isObject {c : Cell} (h : c.IsFixed) : c.IsObject := by
  rintro s rfl
  exact h

theorem Operation.target?_not_fixed {op : Operation} {c : Cell} (h : op.target? = some c) :
    ¬ c.IsFixed := by
  unfold target? at h
  split at h <;> cases h <;> exact id

namespace Machine

/-- The second machine has the scopes of the first, in the same places, and its iters and
functions. It may have more of each. -/
structure Precedes (m m' : Machine) : Prop where
  opened : m.opened ≤ m'.opened
  parents : ∀ s < m.opened, m'.scopes.parent? s = m.scopes.parent? s
  fixed : ∀ c : Cell, c.IsFixed → Stays c m m'

/-- The second machine is the first, but for the current scope and the count of active calls. -/
def Moves (m m' : Machine) : Prop := m' = { m with scope := m'.scope, depth := m'.depth }

namespace Precedes

variable {m m1 m2 : Machine}

theorem refl (m : Machine) : m.Precedes m := ⟨Nat.le_refl _, fun _ _ => rfl, fun c _ => .refl c m⟩

theorem trans (h : m.Precedes m1) (h' : m1.Precedes m2) : m.Precedes m2 where
  opened := h.opened.trans h'.opened
  parents s hs := (h'.parents s (Nat.lt_of_lt_of_le hs h.opened)).trans (h.parents s hs)
  fixed c hc := (h.fixed c hc).trans (h'.fixed c hc)

theorem of_same (hscopes : m1.scopes = m.scopes) (hheap : m1.heap = m.heap) : m.Precedes m1 where
  opened := Nat.le_of_eq (congrArg ScopeTree.size hscopes.symm)
  parents _ _ := by rw [hscopes]
  fixed _ hc := .of_sameHeap hc.isObject hheap

theorem of_moves (h : m.Moves m1) : m.Precedes m1 := by
  refine of_same ?_ ?_
  · rw [h]
  · rw [h]

theorem enclose (m : Machine) (parent : Nat) (bindings : List (String × Value)) :
    m.Precedes (m.enclose parent bindings) where
  opened := by
    rw [Run.enclose_opened]
    exact Nat.le_succ _
  parents s hs := by rw [Run.enclose_parent?, if_neg (Nat.ne_of_lt hs)]
  fixed _ hc := .of_sameHeap hc.isObject rfl

/-- What a run keeps of the scopes and leaves of the heap. -/
theorem of_run {α : Type} {x : Run α} (added : List String) (hk : Keeps (Kept added) x)
    (hl : ∀ c : Cell, c.IsFixed → Leaves c x m) : m.Precedes (stateAfter (x m)) where
  opened := (hk.stateAfter m).opened
  parents := (hk.stateAfter m).parents
  fixed c hc := ends_stateAfter.mpr (hl c hc)

/-- A run that does not touch the heap. -/
theorem of_sameHeap {α : Type} {x : Run α} (added : List String) (hk : Keeps (Kept added) x)
    (hs : Keeps SameHeap x) : m.Precedes (stateAfter (x m)) :=
  of_run added hk fun _ hc => leaves_of_sameHeap hc.isObject hs

end Precedes

instance : Std.Refl Precedes := ⟨.refl⟩

instance : IsTrans Machine Precedes := ⟨fun _ _ _ => .trans⟩

theorem Moves.trans {m m1 m2 : Machine} (h : m.Moves m1) (h' : m1.Moves m2) : m.Moves m2 := by
  unfold Moves at *
  rw [h', h]

/-- The second machine comes later than the first one, and the writes are those in between. -/
structure RunsTo (ws : List Write) (m m' : Machine) : Prop
    extends m.Precedes m', m.Wrote ws m'

namespace RunsTo

variable {m m1 m2 : Machine} {ws more : List Write}

theorem refl (m : Machine) : m.RunsTo [] m := ⟨.refl m, .refl m⟩

theorem trans (h : m.RunsTo ws m1) (h' : m1.RunsTo more m2) : m.RunsTo (ws ++ more) m2 :=
  ⟨h.toPrecedes.trans h'.toPrecedes, h.toWrote.trans h'.toWrote⟩

/-- Nothing is written, and then something. -/
theorem after (h : m.RunsTo [] m1) (h' : m1.RunsTo ws m2) : m.RunsTo ws m2 := h.trans h'

/-- Something is written, and then nothing more. -/
theorem still (h : m.RunsTo ws m1) (h' : m1.RunsTo [] m2) : m.RunsTo ws m2 :=
  List.append_nil ws ▸ h.trans h'

theorem of_same (hscopes : m1.scopes = m.scopes) (hheap : m1.heap = m.heap) : m.RunsTo [] m1 :=
  ⟨.of_same hscopes hheap, .of_same hscopes hheap⟩

theorem of_moves (h : m.Moves m1) : m.RunsTo [] m1 := by
  refine of_same ?_ ?_
  · rw [h]
  · rw [h]

theorem enclose (m : Machine) (parent : Nat) (bindings : List (String × Value)) :
    m.RunsTo [] (m.enclose parent bindings) :=
  ⟨.enclose m parent bindings, .enclose m parent bindings⟩

/-- A run that does not touch records. -/
theorem of_run {α : Type} {x : Run α} (added : List String) (hk : Keeps (Kept added) x)
    (hr : Keeps SameRecords x) (hl : ∀ c : Cell, c.IsFixed → Leaves c x m) :
    m.RunsTo [] (stateAfter (x m)) := ⟨.of_run added hk hl, wrote_nothing added hk hr⟩

/-- A run that does not touch the heap. -/
theorem of_sameHeap {α : Type} {x : Run α} (added : List String) (hk : Keeps (Kept added) x)
    (hs : Keeps SameHeap x) : m.RunsTo [] (stateAfter (x m)) :=
  ⟨.of_sameHeap added hk hs, wrote_nothing added hk hs.sameRecords⟩

end RunsTo

end Machine

/-! ## Parts of a program -/

section Visits

variable {limits : Limits} {v : Visit}

/-- Nothing that a part of a program does changes an iter or a function. -/
theorem Visit.spares_fixed (ready : Ready Everything v.machine) {c : Cell} (hc : c.IsFixed) :
    v.Spares limits c := by
  refine ⟨ready, fun u _ hits => ?_⟩
  obtain ⟨op, _, _, _, _, htarget, _⟩ := hits
  exact op.target?_not_fixed htarget hc

theorem Visit.precedes_after (ready : Ready Everything v.machine) :
    v.machine.Precedes (v.after limits) where
  opened := (kept_after limits v).opened
  parents := (kept_after limits v).parents
  fixed _ hc := (spares_fixed ready hc).stays hc.isObject

end Visits

/-! ## Visits in order -/

/-- Why the whole stops where a part does: for the same reason, or for want of room, if that is what
the part stops for. -/
def Stop.Becomes (stop stop' : Stop) : Prop :=
  stop' = stop ∨ stop = .tooDeep ∧ ∃ f, stop' = .fault f ∧ f.cause.isDeep = true

theorem Stop.Becomes.trans {s s1 s2 : Stop} (h : s.Becomes s1) (h' : s1.Becomes s2) :
    s.Becomes s2 := by
  rcases h with rfl | ⟨rfl, f, rfl, hf⟩
  · exact h'
  · rcases h' with rfl | ⟨hs, _⟩
    · exact .inr ⟨rfl, f, rfl, hf⟩
    · cases hs

/-- From a machine on, the visits come one after the other until the end. Each but the last has its
answer; where the last one stops, that is the end. What is written to records outside of the visits
is written after them. -/
inductive Through (limits : Limits) {α : Type} (ws : List Write)
    (r : EStateM.Result Stop Machine α) : Machine → List Visit → Prop
  | done {m : Machine} (later : m.RunsTo ws (stateAfter r)) : Through limits ws r m []
  | next {m : Machine} {u : Visit} {us : List Visit} (later : m.RunsTo [] u.machine)
      (answers : u.stop? limits = none) (rest : Through limits ws r (u.after limits) us) :
      Through limits ws r m (u :: us)
  | stops {m : Machine} {u : Visit} {stop stop' : Stop} {m' : Machine}
      (later : m.RunsTo [] u.machine) (stopped : u.stop? limits = some stop)
      (ending : r = .error stop' m') (becomes : stop.Becomes stop')
      (moves : (u.after limits).Moves m') (unwritten : ws = []) : Through limits ws r m [u]

/-- The visits do not depend on what is made of each answer. -/
theorem eachVisit_answer {α β γ : Type} (visit : α → Machine → Visit) (act : α → Run β)
    (f : α → β → γ) (items : List α) (m : Machine) :
    eachVisit visit (fun a => do return f a (← act a)) items m = eachVisit visit act items m := by
  induction items generalizing m with
  | nil => rfl
  | cons a rest ih =>
    rw [eachVisit, eachVisit]
    change visit a m :: andThen (EStateM.bind (act a) _ m) _ = _
    unfold EStateM.bind
    cases act a m with
    | ok b m1 => exact congrArg _ (ih m1)
    | error stop m1 => rfl

namespace Through

variable {limits : Limits} {α β γ : Type} {r : EStateM.Result Stop Machine α}
  {m m0 : Machine} {us : List Visit} {ws : List Write}

theorem before (h : Through limits ws r m us) (hm : m0.RunsTo [] m) :
    Through limits ws r m0 us := by
  cases h with
  | done later => exact .done (hm.after later)
  | next later answers rest => exact .next (hm.after later) answers rest
  | stops later stopped ending becomes moves unwritten =>
    exact .stops (hm.after later) stopped ending becomes moves unwritten

/-- The end of the whole may be another one than that of the visits: an answer may be put to use,
and a stop may become another one. -/
theorem wrap {r' : EStateM.Result Stop Machine β} (h : Through limits ws r m us)
    (ok : ∀ a m1, r = .ok a m1 → m1.Moves (stateAfter r'))
    (error : ∀ stop m1, r = .error stop m1 →
      ∃ stop' m2, r' = .error stop' m2 ∧ stop.Becomes stop' ∧ m1.Moves m2) :
    Through limits ws r' m us := by
  induction h with
  | done later =>
    refine .done (later.still (.of_moves ?_))
    cases hr : r with
    | ok a m1 => exact ok a m1 hr
    | error stop m1 =>
      obtain ⟨stop', m2, hr', -, hmoves⟩ := error stop m1 hr
      rw [hr']
      exact hmoves
  | next later answers _ ih => exact .next later answers ih
  | stops later stopped ending becomes moves unwritten =>
    obtain ⟨stop', m2, hr', hbecomes, hmoves⟩ := error _ _ ending
    exact .stops later stopped hr' (becomes.trans hbecomes) (moves.trans hmoves) unwritten

/-- The visits of one run, and then those and the writes of the run that follows its answer. -/
theorem bindWriting {x : Run α} {f : α → Run β} {vs : α → Machine → List Visit}
    {written : α → Machine → List Write} (hx : Through limits [] (x m) m us)
    (hf : ∀ a m1, x m = .ok a m1 → Through limits (written a m1) (f a m1) m1 (vs a m1)) :
    Through limits (andThen (x m) written) ((x >>= f) m) m (us ++ andThen (x m) vs) := by
  cases hxm : x m with
  | error stop m1 =>
    rw [hxm] at hx
    rw [andThen, andThen, List.append_nil]
    rw [bind_of_error hxm]
    refine hx.wrap (fun _ _ h => by cases h) fun stop' m2 h => ?_
    cases h
    exact ⟨stop, m1, rfl, .inl rfl, rfl⟩
  | ok a m1 =>
    rw [hxm] at hx
    rw [bind_of_ok hxm, andThen, andThen]
    have hrest := hf a m1 hxm
    generalize hr : (EStateM.Result.ok a m1 : EStateM.Result Stop Machine α) = r at hx
    clear hxm hf
    induction hx with
    | done later =>
      rw [← hr] at later
      exact hrest.before later
    | next later answers _ ih => exact .next later answers ih
    | stops later stopped ending =>
      rw [← hr] at ending
      cases ending

theorem andThen_nil {ν : Type} (r : EStateM.Result Stop Machine α) :
    andThen r (fun _ _ => ([] : List ν)) = [] := by
  cases r with
  | ok a m1 => rfl
  | error stop m1 => rfl

/-- The visits of one run and then those of the run that follows its answer. -/
theorem bind {x : Run α} {f : α → Run β} {vs : α → Machine → List Visit}
    (hx : Through limits [] (x m) m us)
    (hf : ∀ a m1, x m = .ok a m1 → Through limits [] (f a m1) m1 (vs a m1)) :
    Through limits [] ((x >>= f) m) m (us ++ andThen (x m) vs) := by
  have h := hx.bindWriting hf
  rwa [andThen_nil] at h

/-- A run that opens no visit, after one that opens some. -/
theorem andRunWriting {x : Run α} {f : α → Run β} {written : α → Machine → List Write}
    (hx : Through limits [] (x m) m us)
    (hf : ∀ a m1, x m = .ok a m1 → m1.RunsTo (written a m1) (stateAfter (f a m1))) :
    Through limits (andThen (x m) written) ((x >>= f) m) m us := by
  have h : Through limits (andThen (x m) written) ((x >>= f) m) m
      (us ++ andThen (x m) fun _ _ => []) := hx.bindWriting fun a m1 ha => .done (hf a m1 ha)
  rwa [andThen_nil, List.append_nil] at h

theorem andRun {x : Run α} {f : α → Run β} (hx : Through limits [] (x m) m us)
    (hf : ∀ a m1, x m = .ok a m1 → m1.RunsTo [] (stateAfter (f a m1))) :
    Through limits [] ((x >>= f) m) m us := by
  have h := hx.andRunWriting hf
  rwa [andThen_nil] at h

/-! ### Single visits -/

/-- A run that is that of a single visit. -/
theorem single {u : Visit} {x : Run α} (hstart : u.machine = m)
    (hafter : u.after limits = stateAfter (x m)) (hstop : u.stop? limits = error? (x m)) :
    Through limits [] (x m) m [u] := by
  subst hstart
  cases hx : x u.machine with
  | ok a m1 =>
    rw [hx] at hafter hstop
    exact .next (.refl _) hstop (.done (hafter ▸ .refl _))
  | error stop m1 =>
    rw [hx] at hafter hstop
    exact .stops (.refl _) hstop rfl (.inl rfl) (hafter ▸ rfl) rfl

theorem expr (k room : Nat) (e : Expr) (m : Machine) :
    Through limits [] (e.eval limits room m) m [visitExpr k room e m] := single rfl rfl rfl

theorem stmt (k room : Nat) (s : Stmt) (m : Machine) :
    Through limits [] (s.exec limits room m) m [visitStmt k room s m] := single rfl rfl rfl

/-- The end of a run, as that of a run with another answer. -/
theorem answer {x : Run α} {b : β} (h : Through limits [] (x m) m us) :
    Through limits [] ((do let _ ← x; return b : Run β) m) m us :=
  h.andRun fun _ m1 _ => .refl m1

/-! ### Scopes and calls -/

theorem enclosed {parent : Nat} {bindings : List (String × Value)} {x : Run α}
    (h : Through limits [] (x (m.enclose parent bindings)) (m.enclose parent bindings) us) :
    Through limits [] (Run.enclosed parent bindings x m) m us := by
  refine (h.before (.enclose m parent bindings)).wrap (fun a m1 hx => ?_) fun stop m1 hx => ?_
  · unfold Run.enclosed
    rw [hx]
    rfl
  · unfold Run.enclosed
    rw [hx]
    exact ⟨stop, _, rfl, .inl rfl, rfl⟩

theorem activation {name : String} {line : Int} {x : Run Flow}
    (h : Through limits [] (x { m with depth := m.depth + 1 }) { m with depth := m.depth + 1 } us) :
    Through limits [] (Run.activation name line x m) m us := by
  have hstart : m.RunsTo [] { m with depth := m.depth + 1 } := .of_same rfl rfl
  refine (h.before hstart).wrap (fun flow m1 hx => ?_) fun stop m1 hx => ?_
  · unfold Run.activation
    rw [hx]
    cases flow <;> rfl
  · unfold Run.activation
    rw [hx]
    cases stop with
    | tooDeep => exact ⟨_, _, rfl, .inr ⟨rfl, _, rfl, rfl⟩, rfl⟩
    | fault f => exact ⟨_, _, rfl, .inl rfl, rfl⟩
    | endless => exact ⟨_, _, rfl, .inl rfl, rfl⟩

/-! ### Sequences and loops -/

theorem mapM {visit : α → Machine → Visit} {act : α → Run β} {items : List α}
    (each : ∀ a m, Through limits [] (act a m) m [visit a m]) (m : Machine) :
    Through limits [] (items.mapM act m) m (eachVisit visit act items m) := by
  induction items generalizing m with
  | nil => exact .done (.refl m)
  | cons a rest ih =>
    rw [List.mapM_cons]
    exact (each a m).bind fun b m1 _ => (ih m1).andRun fun _ m2 _ => .refl m2

theorem forM {visit : α → Machine → Visit} {act : α → Run PUnit} {items : List α}
    (each : ∀ a m, Through limits [] (act a m) m [visit a m]) (m : Machine) :
    Through limits [] (items.forM act m) m (eachVisit visit act items m) := by
  induction items generalizing m with
  | nil => exact .done (.refl m)
  | cons a rest ih => exact (each a m).bind fun _ m1 _ => ih m1

theorem inTurn {visit : α → Machine → Visit} {act : α → Run Flow} {items : List α}
    (each : ∀ a m, Through limits [] (act a m) m [visit a m]) (m : Machine) :
    Through limits [] (Run.inTurn act items m) m (turnVisits visit act items m) := by
  induction items generalizing m with
  | nil => exact .done (.refl m)
  | cons a rest ih =>
    unfold Run.inTurn
    refine (each a m).bind fun flow m1 _ => ?_
    cases flow with
    | next => exact ih m1
    | returned w => exact .done (.refl m1)

theorem whileHolds {test body : Machine → Visit} {holds : Run Bool} {run : Run Flow}
    (tested : ∀ m, Through limits [] (holds m) m [test m])
    (turned : ∀ m, Through limits [] (run m) m [body m]) (turns : Nat) (m : Machine) :
    Through limits [] (Run.whileHolds holds run turns m) m
      (loopVisits test holds body run turns m) := by
  induction turns generalizing m with
  | zero => exact .done (.refl m)
  | succ turns ih =>
    unfold Run.whileHolds
    refine (tested m).bind fun b m1 _ => ?_
    cases b with
    | false => exact .done (.refl m1)
    | true =>
      refine (turned m1).bind fun flow m2 _ => ?_
      cases flow with
      | next => exact ih m2
      | returned w => exact .done (.refl m2)

theorem callValue {k room : Nat} {callee : Value} {args : List Value} {line : Int}
    (builtin : ∀ b, callee = .builtin b → m.RunsTo [] (stateAfter (b.call room args line m))) :
    Through limits [] (Run.callValue limits room (fun s => s.exec limits room) callee args line m) m
      (bodyVisits limits k room callee args line m) := by
  cases callee with
  | builtin b => exact .done (builtin b rfl)
  | function i =>
    change Through limits [] (Run.callClosure limits _ (m.heap.function i) args line m) m _
    unfold bodyVisits
    dsimp only
    by_cases hcount : args.length = (m.heap.function i).params.length
    · by_cases hdepth : m.depth < limits.calls
      · rw [if_pos ⟨hcount, hdepth⟩]
        let noted : Machine := { m with
          notes := m.notes.push
            (.called (m.heap.function i).name (m.heap.function i).params.length line) }
        have hcall : Run.callClosure limits (fun s => s.exec limits room) (m.heap.function i) args
            line m = Run.activation (m.heap.function i).name line
              (Run.enclosed (m.heap.function i).scope ((m.heap.function i).params.zip args)
                (Run.inTurn (fun s => s.exec limits room) (m.heap.function i).body)) noted := by
          unfold Run.callClosure
          rw [if_neg (by simpa using hcount)]
          change ite (limits.calls ≤ m.depth) (Run.fail _ _) _ m = _
          rw [if_neg (Nat.not_le.mpr hdepth)]
          rfl
        rw [hcall]
        refine (activation (m := noted) (enclosed ?_)).before (.of_same rfl rfl)
        exact inTurn (stmt (k + 1) room) _
      · rw [if_neg fun h => hdepth h.2, callClosure_refused hcount (Nat.not_lt.mp hdepth)]
        exact .done (.refl m)
    · rw [if_neg fun h => hcount h.1, callClosure_wrongCount hcount]
      exact .done (.refl m)
  | _ => exact .done (.refl m)

end Through

/-! ## What a visit opens -/

/-- How a visit ends, its answer aside. -/
def Visit.ending (limits : Limits) (v : Visit) : EStateM.Result Stop Machine Unit :=
  match v.stop? limits with
  | none => .ok () (v.after limits)
  | some stop => .error stop (v.after limits)

section Opens

open Run

variable {limits : Limits} {k room : Nat} {m : Machine} {us : List Visit} {ws : List Write}

theorem stateAfter_ending (v : Visit) : stateAfter (v.ending limits) = v.after limits := by
  unfold Visit.ending
  cases v.stop? limits <;> rfl

theorem error?_ending (v : Visit) : error? (v.ending limits) = v.stop? limits := by
  unfold Visit.ending
  cases v.stop? limits <;> rfl

theorem Through.ends {α : Type} {v : Visit} {x : Run α} (h : Through limits ws (x m) m us)
    (hafter : v.after limits = stateAfter (x m)) (hstop : v.stop? limits = error? (x m)) :
    Through limits ws (v.ending limits) m us := by
  refine h.wrap (fun a m1 hx => ?_) fun stop m1 hx => ?_
  · rw [stateAfter_ending, hafter, hx]
    rfl
  · rw [hx] at hafter hstop
    unfold Visit.ending
    rw [hafter, hstop]
    exact ⟨stop, m1, rfl, .inl rfl, rfl⟩

theorem through_expr {e : Expr} (h : Through limits ws (e.eval limits room m) m us) :
    Through limits ws ((visitExpr k room e m).ending limits) m us := h.ends rfl rfl

theorem through_stmt {s : Stmt} (h : Through limits ws (s.exec limits room m) m us) :
    Through limits ws ((visitStmt k room s m).ending limits) m us := h.ends rfl rfl

/-- The visits that a visit opens come one after the other, from its start to its end, and then
come the writes of its own. -/
theorem opens_through {v : Visit} (ready : Ready Everything v.machine) :
    Through limits (v.ownWrites limits) (v.ending limits) v.machine (v.opens limits) := by
  have spares (c : Cell) (hc : c.IsFixed) : v.Spares limits c := Visit.spares_fixed ready hc
  have later : v.machine.Precedes (stateAfter (v.ending limits)) := by
    rw [stateAfter_ending]
    exact v.precedes_after ready
  obtain ⟨part, room, m, k⟩ := v
  unfold Visit.opens
  dsimp only at spares later ⊢
  split
  case h_1 op operand room =>
    refine through_expr ?_
    simp only [Expr.eval]
    refine (Through.expr k room operand m).andRun fun v m1 _ => ?_
    exact .of_sameHeap [] (keeps_local (local_unary op v)) (sameHeap_unary op v)
  case h_2 left op right room =>
    refine through_expr ?_
    simp only [Expr.eval]
    refine (Through.expr k room left m).bind fun a m1 _ => ?_
    refine (Through.expr k room right m1).andRun fun b m2 _ => ?_
    exact .of_sameHeap [] (keeps_local (local_binary room op left a b))
      (sameHeap_binary room op left a b)
  case h_3 op left right room =>
    refine through_expr ?_
    simp only [Expr.eval]
    refine (Through.expr k room left m).bind fun v m1 _ => ?_
    by_cases hv : v = .bool (op == .and)
    · rw [if_pos hv, hv]
      have hright : Through limits [] ((do
          return Value.bool (← truth (.logical op) (← right.eval limits room) left.line)) m1) m1
          [visitExpr k room right m1] := (Through.expr k room right m1).andRun fun w m2 _ => by
        refine .of_sameHeap [] ?_ ?_
        · exact (keeps_local (local_truth _ w _)).andThen fun b => keeps_pure _
        · exact sameHeap_bind (sameHeap_truth _ w _) fun b => sameHeap_pure _
      cases op with
      | and => exact hright
      | or => exact hright
    · rw [if_neg hv]
      cases v with
      | bool b =>
        cases op with
        | and =>
          cases b with
          | true => exact absurd rfl hv
          | false => exact .done (.refl m1)
        | or =>
          cases b with
          | true => exact .done (.refl m1)
          | false => exact absurd rfl hv
      | _ => exact .done (.refl m1)
  case h_4 name value room =>
    refine through_expr ?_
    simp only [Expr.eval]
    refine (Through.expr k room value m).andRun fun v m1 _ => .of_sameHeap [] ?_ ?_
    · exact (keeps_assign _ v _).andThen fun _ => keeps_pure v
    · exact sameHeap_bind (sameHeap_assign _ v _) fun _ => sameHeap_pure v
  case h_5 collection place value room =>
    refine through_expr ?_
    simp only [Expr.eval]
    refine (Through.expr k room collection m).bind fun c m1 hc => ?_
    refine (Through.expr k room place m1).bind fun i m2 hi => ?_
    refine (Through.expr k room value m2).bind fun v m3 hv => .done ?_
    exact .of_run [] (keeps_local (local_setElement collection c i v))
      (sameRecords_setElement collection c i v) fun d hd =>
        (spares d hd).leaves hd.isObject (.setElement hc hi hv)
  case h_6 collection key value room =>
    refine through_expr ?_
    simp only [Expr.eval]
    refine (Through.expr k room collection m).bindWriting fun c m1 hc => ?_
    refine (Through.expr k room value m1).bindWriting fun v m2 hv => .done ⟨?_, ?_⟩
    · exact .of_run [] (keeps_local (local_setField collection key.text c v)) fun d hd =>
        (spares d hd).leaves hd.isObject (.setField hc hv)
    · have performs : (visitExpr k (room + 3) (.assignField collection key value) m).Performs
          limits (.setField key.text c v) room collection m2 := .setField hc hv
      exact wrote_setField (performs.known ready c List.mem_cons_self)
  case h_7 condition yes no room =>
    refine through_expr ?_
    simp only [Expr.eval]
    refine (Through.expr k room condition m).bind fun v m1 _ => ?_
    cases v with
    | bool b =>
      cases b with
      | true => exact .expr k room yes m1
      | false => exact .expr k room no m1
    | _ => exact .done (.refl m1)
  case h_8 callee arguments room =>
    refine through_expr ?_
    simp only [Expr.eval]
    refine (Through.expr k (room + 2) callee m).bind fun f m1 hf => ?_
    refine (Through.mapM (Through.expr k (room + 1)) m1).bind fun args m2 hargs => ?_
    refine .callValue fun b hb => ?_
    subst hb
    exact .of_run [] (keeps_local (Builtin.local_call room b args callee.line))
      (sameRecords_call room b args callee.line) fun d hd =>
        (spares d hd).leaves hd.isObject (.call hf hargs)
  case h_9 line elements room =>
    refine through_expr ?_
    simp only [Expr.eval]
    refine (Through.mapM (Through.expr k room) m).andRun fun vs m1 _ => ?_
    exact .of_run [] (keeps_allocate _) (sameRecords_allocate fun _ => rfl) fun _ _ =>
      leaves_allocate fun h => h.within_addList _
  case h_10 line entries room =>
    refine through_expr ?_
    simp only [Expr.eval]
    refine .andRunWriting ?_ fun fields m1 _ => ⟨.of_run [] (keeps_allocate _) fun _ _ =>
      leaves_allocate fun h => h.within_addRecord _, wrote_addRecord fields⟩
    rw [eachVisit_map, ← eachVisit_answer _ _ fun entry v => (entry.1.text, v)]
    have each (entry : Name × Expr) (m : Machine) : Through limits [] ((do
        return (entry.1.text, ← entry.2.eval limits room) : Run (String × Value)) m) m
        [visitExpr k room entry.2 m] :=
      (Through.expr k room entry.2 m).andRun fun v m1 _ => .refl m1
    exact .mapM each m
  case h_11 collection place room =>
    refine through_expr ?_
    simp only [Expr.eval]
    refine (Through.expr k room collection m).bind fun c m1 _ => ?_
    refine (Through.expr k room place m1).bind fun i m2 _ => .done ?_
    exact .of_sameHeap [] (keeps_local (local_element collection c i))
      (sameHeap_element collection c i)
  case h_12 collection key room =>
    refine through_expr ?_
    simp only [Expr.eval]
    refine (Through.expr k room collection m).andRun fun c m1 _ => ?_
    exact .of_sameHeap [] (keeps_local (local_field collection key.text c))
      (sameHeap_field collection key.text c)
  case h_13 line value room =>
    refine through_stmt ?_
    simp only [Stmt.exec]
    exact (Through.expr k room value m).answer
  case h_14 line value room =>
    refine through_stmt ?_
    simp only [Stmt.exec]
    refine (Through.expr k room value m).andRun fun v m1 _ => .of_sameHeap [] ?_ ?_
    · exact (keeps_writeLine room [v]).andThen fun _ => keeps_pure _
    · exact sameHeap_bind (sameHeap_writeLine room [v]) fun _ => sameHeap_pure _
  case h_15 line name value room =>
    refine through_stmt ?_
    simp only [Stmt.exec]
    refine (Through.expr k room value m).andRun fun v m1 _ =>
      .of_sameHeap [name.text] ?_ ?_
    · exact (keeps_declare _ v).andThen fun _ => keeps_pure _
    · exact sameHeap_bind (sameHeap_declare _ v) fun _ => sameHeap_pure _
  case h_16 line body room =>
    refine through_stmt ?_
    simp only [Stmt.exec]
    exact .enclosed (.inTurn (.stmt k room) _)
  case h_17 line condition yes no room =>
    refine through_stmt ?_
    simp only [Stmt.exec]
    refine (Through.expr k room condition m).bind fun v m1 _ => ?_
    cases v with
    | bool b =>
      cases b with
      | true => exact .stmt k room yes m1
      | false =>
        cases no with
        | none => exact .done (.refl m1)
        | some no => exact .stmt k room no m1
    | _ => exact .done (.refl m1)
  case h_18 line condition body room =>
    refine through_stmt ?_
    simp only [Stmt.exec]
    refine .whileHolds (fun m1 => ?_) (.stmt k room body) limits.turns m
    refine (Through.expr k room condition m1).andRun fun v m2 _ => ?_
    exact .of_sameHeap [] (keeps_local (local_truth .while_ v line))
      (sameHeap_truth .while_ v line)
  case h_19 line value room =>
    refine through_stmt ?_
    simp only [Stmt.exec]
    exact (Through.expr k room value m).andRun fun v m1 _ => .refl m1
  case h_20 line value name body room =>
    refine through_stmt ?_
    simp only [Stmt.exec]
    refine (Through.expr k (room + 1) value m).bind fun w m1 _ => ?_
    exact .enclosed (.stmt k room body _)
  case h_21 line name items body room =>
    refine through_stmt ?_
    simp only [Stmt.exec]
    refine (Through.expr k (room + 1) items m).bind fun w m1 _ => ?_
    cases w with
    | iter i => exact .inTurn (fun w m2 => .enclosed (.stmt k room body _)) m1
    | _ => exact .done (.refl m1)
  case h_22 h1 h2 h3 h4 h5 h6 h7 h8 h9 h10 h11 h12 h13 h14 h15 h16 h17 h18 h19 h20 h21 =>
    have unwritten : (⟨part, room, m, k⟩ : Visit).ownWrites limits = [] := by
      unfold Visit.ownWrites
      split
      · exact (h6 _ _ _ _ ‹_› ‹_›).elim
      · exact (h10 _ _ _ ‹_› ‹_›).elim
      · rfl
    refine .done ⟨later, ?_⟩
    rw [unwritten, stateAfter_ending]
    -- What is left are the forms that have no part to visit, and all forms without room.
    cases part with
    | expr e =>
      change m.Wrote [] (stateAfter (e.eval limits room m))
      unfold Expr.eval
      split
      case h_1 mark =>
        exact wrote_nothing [] (keeps_local (local_atom mark)) (sameHeap_atom mark).sameRecords
      case h_2 => exact (h1 _ _ _ rfl rfl).elim
      case h_3 => exact (h2 _ _ _ _ rfl rfl).elim
      case h_4 => exact (h3 _ _ _ _ rfl rfl).elim
      case h_5 => exact (h4 _ _ _ rfl rfl).elim
      case h_6 => exact (h5 _ _ _ _ rfl rfl).elim
      case h_7 => exact (h6 _ _ _ _ rfl rfl).elim
      case h_8 => exact (h7 _ _ _ _ rfl rfl).elim
      case h_9 => exact (h8 _ _ _ rfl rfl).elim
      case h_10 => exact (h9 _ _ _ rfl rfl).elim
      case h_11 => exact (h10 _ _ _ rfl rfl).elim
      case h_12 => exact (h11 _ _ _ rfl rfl).elim
      case h_13 => exact (h12 _ _ _ rfl rfl).elim
      case h_14 => exact .refl m
    | stmt s =>
      change m.Wrote [] (stateAfter (s.exec limits room m))
      unfold Stmt.exec
      split
      case h_1 => exact (h13 _ _ _ rfl rfl).elim
      case h_2 => exact (h14 _ _ _ rfl rfl).elim
      case h_3 line name value =>
        cases value with
        | some value => exact (h15 _ _ _ _ rfl rfl).elim
        | none => exact wrote_make name
      case h_4 => exact (h16 _ _ _ rfl rfl).elim
      case h_5 => exact (h17 _ _ _ _ _ rfl rfl).elim
      case h_6 => exact (h18 _ _ _ _ rfl rfl).elim
      case h_7 => exact wrote_funk _ _ _
      case h_8 line value =>
        cases value with
        | some value => exact (h19 _ _ _ rfl rfl).elim
        | none => exact .refl m
      case h_9 => exact (h20 _ _ _ _ _ rfl rfl).elim
      case h_10 => exact (h21 _ _ _ _ _ rfl rfl).elim
      case h_11 => exact .refl m

end Opens

/-! ## From a visit to the whole -/

section Whole

variable {limits : Limits} {α : Type} {r : EStateM.Result Stop Machine α} {m : Machine}
  {us : List Visit} {u v : Visit} {stop : Stop} {ws : List Write}

namespace Through

theorem precedes (h : Through limits ws r m us)
    (each : ∀ u ∈ us, u.machine.Precedes (u.after limits)) : m.Precedes (stateAfter r) := by
  induction h with
  | done later => exact later.toPrecedes
  | next later _ _ ih =>
    rw [List.forall_mem_cons] at each
    exact (later.toPrecedes.trans each.1).trans (ih each.2)
  | stops later _ ending _ moves =>
    rw [ending]
    exact (later.toPrecedes.trans (each _ (List.mem_singleton_self _))).trans (.of_moves moves)

theorem later_mem (h : Through limits ws r m us)
    (each : ∀ u ∈ us, u.machine.Precedes (u.after limits)) (hu : u ∈ us) :
    m.Precedes u.machine := by
  induction h with
  | done => cases hu
  | @next m u' us later _ _ ih =>
    rw [List.forall_mem_cons] at each
    rcases List.mem_cons.mp hu with rfl | hu
    · exact later.toPrecedes
    · exact (later.toPrecedes.trans each.1).trans (ih each.2 hu)
  | stops later =>
    cases List.mem_singleton.mp hu
    exact later.toPrecedes

theorem mem_later (h : Through limits ws r m us)
    (each : ∀ u ∈ us, u.machine.Precedes (u.after limits)) (hu : u ∈ us) :
    (u.after limits).Precedes (stateAfter r) := by
  induction h with
  | done => cases hu
  | @next m u' us _ _ rest ih =>
    rw [List.forall_mem_cons] at each
    rcases List.mem_cons.mp hu with rfl | hu
    · exact rest.precedes each.2
    · exact ih each.2 hu
  | stops _ _ ending _ moves =>
    cases List.mem_singleton.mp hu
    rw [ending]
    exact .of_moves moves

/-- Where a visit stops, the whole stops, with nothing done in between. -/
theorem stops_mem (h : Through limits ws r m us) (hu : u ∈ us)
    (hstop : u.stop? limits = some stop) :
    ∃ stop' m', r = .error stop' m' ∧ stop.Becomes stop' ∧ (u.after limits).Moves m' := by
  induction h with
  | done => cases hu
  | next _ answers _ ih =>
    rcases List.mem_cons.mp hu with rfl | hu
    · rw [hstop] at answers
      cases answers
    · exact ih hu
  | stops _ stopped ending becomes moves =>
    cases List.mem_singleton.mp hu
    cases hstop.symm.trans stopped
    exact ⟨_, _, ending, becomes, moves⟩

end Through

theorem Visit.precedes_opens (ready : Ready Everything v.machine) (hu : u ∈ v.opens limits) :
    v.machine.Precedes u.machine :=
  (opens_through ready).later_mem (fun _ hu => precedes_after (ready_opens ready hu)) hu

theorem Visit.ready_reaches (ready : Ready Everything v.machine) (hr : v.Reaches limits u) :
    Ready Everything u.machine := by
  induction hr with
  | refl => exact ready
  | tail _ hu ih => exact ready_opens ih hu

theorem Visit.precedes_reaches (ready : Ready Everything v.machine) (hr : v.Reaches limits u) :
    v.machine.Precedes u.machine := by
  induction hr with
  | refl => exact .refl _
  | tail hr hu ih => exact ih.trans (precedes_opens (ready_reaches ready hr) hu)

theorem Visit.reaches_precedes (ready : Ready Everything v.machine) (hr : v.Reaches limits u) :
    (u.after limits).Precedes (v.after limits) := by
  induction hr using Relation.ReflTransGen.head_induction_on with
  | refl => exact .refl _
  | head hw _ ih =>
    have hopens := (opens_through ready).mem_later
      (fun _ hu => precedes_after (ready_opens ready hu)) hw
    rw [stateAfter_ending] at hopens
    exact (ih (ready_opens ready hw)).trans hopens

/-- Where a part of a visit stops, the visit stops. -/
theorem Visit.stops_of_reaches (ready : Ready Everything v.machine) (hr : v.Reaches limits u)
    (hstop : u.stop? limits = some stop) :
    ∃ stop', v.stop? limits = some stop' ∧ stop.Becomes stop' ∧
      (u.after limits).Moves (v.after limits) := by
  induction hr using Relation.ReflTransGen.head_induction_on with
  | refl => exact ⟨stop, hstop, .inl rfl, rfl⟩
  | @head v w hw _ ih =>
    obtain ⟨stop', hstop', becomes, moves⟩ := ih (ready_opens ready hw)
    obtain ⟨stop'', m', hending, becomes', moves'⟩ :=
      (opens_through ready).stops_mem hw hstop'
    have hafter := congrArg stateAfter hending
    rw [stateAfter_ending] at hafter
    have hstop'' := congrArg error? hending
    rw [error?_ending] at hstop''
    exact ⟨stop'', hstop'', becomes.trans becomes', hafter ▸ moves.trans moves'⟩

/-! ### Programs -/

theorem Through.execTop (s : Stmt) (m : Machine) :
    Through limits [] (s.execTop limits m) m [visitStmt 0 limits.room s m] := by
  refine (Through.stmt 0 limits.room s m).wrap (fun flow m1 hs => ?_) fun stop m1 hs => ?_
  · unfold Stmt.execTop
    rw [hs]
    cases flow <;> rfl
  · unfold Stmt.execTop
    rw [hs]
    cases stop with
    | tooDeep => exact ⟨_, _, rfl, .inr ⟨rfl, _, rfl, rfl⟩, rfl⟩
    | fault f => exact ⟨_, _, rfl, .inl rfl, rfl⟩
    | endless => exact ⟨_, _, rfl, .inl rfl, rfl⟩

theorem program_through (m : Machine) (program : List Stmt) :
    Through limits [] (evaluate limits program m) m (topVisits limits m program) := by
  have hnote : Through limits [] (Run.note (.evaluating program.length) m) m [] :=
    .done (.of_same rfl rfl)
  exact hnote.bind fun _ m1 _ => .forM Through.execTop m1

/-- Outside of all statements nothing is left to stop for want of room. -/
theorem evaluate_settled (limits : Limits) (m : Machine) (program : List Stmt) :
    Ends (fun _ _ => True) (fun stop _ => stop ≠ .tooDeep) (evaluate limits program m) := by
  have top (s : Stmt) : Yields (fun _ : Machine => True) (fun _ => True)
      (fun stop _ => stop ≠ Stop.tooDeep) (s.execTop limits) := by
    intro m _
    unfold Stmt.execTop
    split
    · exact ⟨trivial, trivial⟩
    · exact nofun
    · exact nofun
    · rename_i hne _
      exact hne
  have hprogram : Yields (fun _ : Machine => True) (fun _ => ∀ s ∈ program, True)
      (fun stop _ => stop ≠ Stop.tooDeep) (program.forM (Stmt.execTop limits)) :=
    .forM fun s _ => top s
  exact (hprogram _ trivial).imp (fun _ _ _ => trivial) fun _ _ h => h

/-- Where a part of a program stops, the program stops there. -/
theorem stops_of_visited {m0 : Machine} {program : List Stmt} (ready : Ready Everything m0)
    (visited : Visited limits m0 program v) (hstop : v.stop? limits = some stop) :
    ∃ stop' m', runOn limits m0 program = (some stop'.failure, m') ∧ stop.Becomes stop' ∧
      stop' ≠ .tooDeep ∧ (v.after limits).Moves m' := by
  obtain ⟨top, htop, hr⟩ := visited
  have readyTop := ready_of_visited ready ⟨top, htop, .refl⟩
  obtain ⟨stop1, hstop1, becomes, moves⟩ := Visit.stops_of_reaches readyTop hr hstop
  obtain ⟨stop', m', hend, becomes', moves'⟩ := (program_through m0 program).stops_mem htop hstop1
  have settled := evaluate_settled limits m0 program
  rw [hend] at settled
  refine ⟨stop', m', ?_, becomes.trans becomes', settled, moves.trans moves'⟩
  unfold runOn
  rw [hend]

end Whole

end FunkLang
