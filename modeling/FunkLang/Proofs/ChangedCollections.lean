-- What a run changes of the objects that are there. Between the start and the end
-- of a part of a program, an object changes only by an operation on it that the
-- part comes to: an assignment to an element or to a field, or a push.
import FunkLang.Proofs.Evaluation
import FunkLang.Proofs.Operations

namespace FunkLang

/-! ## Steps that change no object -/

def SameHeap (m m' : Machine) : Prop := m'.heap = m.heap

instance : Std.Refl SameHeap := ⟨fun _ => rfl⟩
instance : IsTrans Machine SameHeap := ⟨fun _ _ _ h h' => Eq.trans h' h⟩

namespace Run

variable {α β : Type}

theorem sameHeap_pure (a : α) : Keeps SameHeap (pure a : Run α) := fun _ => rfl

theorem sameHeap_fail (cause : FaultCause) (line : Int) :
    Keeps SameHeap (fail cause line : Run α) := fun _ => rfl

theorem sameHeap_modify {f : Machine → Machine} (h : ∀ m, (f m).heap = m.heap) :
    Keeps SameHeap (modify f : Run PUnit) := h

theorem sameHeap_bind {x : Run α} {f : α → Run β} (hx : Keeps SameHeap x)
    (hf : ∀ a, Keeps SameHeap (f a)) : Keeps SameHeap (x >>= f) := hx.bind (fun _ _ h => h) hf

theorem sameHeap_get {f : Machine → Run α} (hf : ∀ m, Keeps SameHeap (f m)) :
    Keeps SameHeap (get >>= f) := fun m => hf m m

theorem sameHeap_fitting (a? : Option α) : Keeps SameHeap (fitting a?) := by
  cases a? with
  | some a => exact sameHeap_pure a
  | none => exact fun _ => rfl

theorem sameHeap_writeLine (room : Nat) (values : List Value) :
    Keeps SameHeap (writeLine room values) := by
  unfold writeLine
  exact sameHeap_get fun m => sameHeap_bind (sameHeap_fitting _) fun _ =>
    sameHeap_modify fun _ => rfl

theorem sameHeap_note (n : Note) : Keeps SameHeap (note n) := sameHeap_modify fun _ => rfl

theorem sameHeap_declare (name : String) (v : Value) : Keeps SameHeap (declare name v) :=
  sameHeap_get fun _ => sameHeap_modify fun _ => rfl

theorem sameHeap_assign (name : String) (v : Value) (line : Int) :
    Keeps SameHeap (assign name v line) := by
  unfold assign
  refine sameHeap_get fun m => ?_
  split
  · exact sameHeap_modify fun _ => rfl
  · exact sameHeap_fail _ _

theorem sameHeap_atom (mark : Mark Atom) : Keeps SameHeap (atom mark) := by
  unfold atom
  split
  · exact sameHeap_pure _
  · exact sameHeap_pure _
  · exact sameHeap_pure _
  · exact sameHeap_pure _
  · refine sameHeap_get fun m => ?_
    split
    · exact sameHeap_pure _
    · exact fun _ => rfl

theorem sameHeap_truth (by_ : Condition) (v : Value) (line : Int) :
    Keeps SameHeap (truth by_ v line) := by
  unfold truth
  split
  · exact sameHeap_pure _
  · exact sameHeap_fail _ _

theorem truth_eq_ok {by_ : Condition} {v : Value} {line : Int} {m m' : Machine} {b : Bool}
    (h : truth by_ v line m = .ok b m') : v = .bool b ∧ m' = m := by
  unfold truth at h
  split at h
  · obtain ⟨rfl, rfl⟩ := pure_eq_ok.mp h
    exact ⟨rfl, rfl⟩
  · cases h

theorem sameHeap_unary (op : Mark UnaryOp) (v : Value) : Keeps SameHeap (unary op v) := by
  unfold unary
  split
  · exact sameHeap_pure _
  · exact sameHeap_fail _ _
  · exact sameHeap_bind (sameHeap_truth _ _ _) fun _ => sameHeap_pure _

theorem sameHeap_numeric (op : Mark BinaryOp) (combine : Number → Number → Value) (at_ : Expr)
    (a b : Value) : Keeps SameHeap (numeric op combine at_ a b) := by
  unfold numeric
  split
  · exact sameHeap_pure _
  · exact sameHeap_fail _ _
  · exact sameHeap_fail _ _

theorem sameHeap_binary (room : Nat) (op : Mark BinaryOp) (at_ : Expr) (a b : Value) :
    Keeps SameHeap (binary room op at_ a b) := by
  unfold binary
  cases op.kind
  case plus =>
    dsimp only
    split
    · exact sameHeap_pure _
    · exact sameHeap_pure _
    · exact sameHeap_fail _ _
  case equal =>
    exact sameHeap_get fun _ => sameHeap_bind (sameHeap_fitting _) fun _ => sameHeap_pure _
  case unequal =>
    exact sameHeap_get fun _ => sameHeap_bind (sameHeap_fitting _) fun _ => sameHeap_pure _
  all_goals exact sameHeap_numeric _ _ _ _ _

theorem sameHeap_slot (length : Nat) (index : Value) (line : Int) :
    Keeps SameHeap (slot length index line) := fun _ =>
  (atomic_slot length index line).imp (fun _ _ h => congrArg _ h.2) fun _ _ h => congrArg _ h

theorem sameHeap_element (at_ : Expr) (collection index : Value) :
    Keeps SameHeap (element at_ collection index) := by
  unfold element
  split
  · exact sameHeap_get fun _ => sameHeap_bind (sameHeap_slot _ _ _) fun _ => sameHeap_pure _
  · exact sameHeap_bind (sameHeap_slot _ _ _) fun _ => sameHeap_pure _
  · exact sameHeap_fail _ _

theorem sameHeap_field (at_ : Expr) (key : String) (collection : Value) :
    Keeps SameHeap (field at_ key collection) := by
  unfold field
  split
  · refine sameHeap_get fun m => ?_
    split
    · exact sameHeap_pure _
    · exact sameHeap_fail _ _
  · exact sameHeap_fail _ _

end Run

/-! ## Objects that stay -/

/-- A cell that is there is there still, with the same contents. -/
def Stays (c : Cell) (m m' : Machine) : Prop := m.Has c → m'.Has c ∧ m.SameIn m' c

/-- No scope, but an object of the heap. -/
def Cell.IsObject (c : Cell) : Prop := ∀ s, c ≠ .scope s

section Stays

variable {c : Cell} {m m' m1 m1' : Machine}

theorem Stays.refl (c : Cell) (m : Machine) : Stays c m m := fun hc => ⟨hc, .refl m c⟩

theorem Stays.trans (h : Stays c m m') (h' : Stays c m' m1) : Stays c m m1 := fun hc =>
  ⟨(h' (h hc).1).1, (h hc).2.trans (h' (h hc).1).2⟩

/-- Whether an object stays can be seen from the heap. -/
theorem Stays.of_heaps (object : c.IsObject) (h : Stays c m m') (hm : m1.heap = m.heap)
    (hm' : m1'.heap = m'.heap) : Stays c m1 m1' := by
  cases c with
  | scope s => exact absurd rfl (object s)
  | _ =>
    unfold Stays Machine.Has Machine.SameIn at h ⊢
    rw [hm, hm']
    exact h

theorem Stays.of_sameHeap (object : c.IsObject) (h : SameHeap m m') : Stays c m m' :=
  (Stays.refl c m).of_heaps object rfl h

theorem Machine.ChangedAt.stays {d : Cell} (h : m.ChangedAt d m') (hc : some d ≠ some c) :
    Stays c m m' := fun hhas =>
  ⟨(h.has c).mpr hhas, h.others c fun hcd => hc (congrArg some hcd.symm)⟩

/-- An operation leaves all objects as they are but the one that it changes. -/
theorem Operation.Changes.stays {op : Operation} {room : Nat} {answer : Value}
    (h : op.Changes room m answer m') (object : c.IsObject) (hc : op.target? ≠ some c) :
    Stays c m m' := by
  cases op with
  | setElement collection index v =>
    obtain ⟨i, n, slot, rfl, -, -, -, hat, -⟩ := h
    exact hat.stays hc
  | setField key collection v =>
    obtain ⟨i, rfl, hat, -⟩ := h
    exact hat.stays hc
  | print v =>
    obtain ⟨text, -, hm'⟩ := h
    exact .of_sameHeap object (by rw [SameHeap, hm'])
  | call b args =>
    cases b with
    | push =>
      obtain ⟨i, v, rfl, hat, -⟩ := h
      exact hat.stays hc
    | println =>
      obtain ⟨texts, -, hm', -⟩ := h
      exact .of_sameHeap object (by rw [SameHeap, hm'])
    | input =>
      obtain ⟨taken, -, hm'⟩ := h
      exact .of_sameHeap object (by rw [SameHeap, hm'])
    | _ => exact h.same c

end Stays

/-! ## Runs that leave an object alone -/

/-- However the run ends, the object is as it was. -/
def Leaves {α : Type} (c : Cell) (x : Run α) (m : Machine) : Prop :=
  Ends (fun _ m' => Stays c m m') (fun _ m' => Stays c m m') (x m)

section Leaves

variable {α β : Type} {c : Cell} {x : Run α} {m : Machine}

theorem Leaves.pure (a : α) : Leaves c (Pure.pure a : Run α) m := .refl c m

theorem Leaves.fail (cause : FaultCause) (line : Int) : Leaves c (Run.fail cause line : Run α) m :=
  .refl c m

theorem Leaves.bind {f : α → Run β} (hx : Leaves c x m)
    (hf : ∀ a m1, x m = .ok a m1 → Leaves c (f a) m1) : Leaves c (x >>= f) m := by
  unfold Leaves
  rw [ends_bind]
  refine Ends.imp_eq hx (fun a m1 h1 hm1 => ?_) fun _ _ _ h => h
  exact Ends.imp (hf a m1 h1) (fun _ _ h2 => hm1.trans h2) fun _ _ h2 => hm1.trans h2

theorem Leaves.get {f : Machine → Run α} (hf : Leaves c (f m) m) :
    Leaves c (MonadState.get >>= f) m := hf

theorem leaves_allocate {make : Heap → Value × Heap}
    (h : ∀ heap : Heap, heap.Within (make heap).2) : Leaves c (Run.allocate make) m :=
  fun hc => Machine.same_of_within (h m.heap) rfl hc

variable (object : c.IsObject)
include object

theorem leaves_of_sameHeap (h : Keeps SameHeap x) : Leaves c x m :=
  (h m).imp (fun _ _ h => .of_sameHeap object h) fun _ _ h => .of_sameHeap object h

/-- A condition is evaluated, and the run goes on where its truth value is found. -/
theorem leaves_condition {by_ : Condition} {line : Int} {condition : Run Value}
    {next : Bool → Run α} (h : Leaves c condition m)
    (hnext : ∀ b m1, condition m = .ok (.bool b) m1 → Leaves c (next b) m1) :
    Leaves c (condition >>= fun v => Run.truth by_ v line >>= next) m := by
  refine h.bind fun v m1 hv => ?_
  refine (leaves_of_sameHeap object (Run.sameHeap_truth by_ v line)).bind fun b m2 hb => ?_
  obtain ⟨rfl, rfl⟩ := Run.truth_eq_ok hb
  exact hnext b m2 hv

theorem leaves_enclosed {parent : Nat} {bindings : List (String × Value)}
    (h : Leaves c x (m.enclose parent bindings)) :
    Leaves c (Run.enclosed parent bindings x) m := by
  unfold Leaves
  rw [Run.ends_enclosed]
  exact Ends.imp h (fun _ _ h => h.of_heaps object rfl rfl) fun _ _ h => h.of_heaps object rfl rfl

theorem leaves_activation {name : String} {line : Int} {body : Run Flow}
    (h : Leaves c body { m with depth := m.depth + 1 }) :
    Leaves c (Run.activation name line body) m := by
  unfold Leaves
  rw [Run.ends_activation]
  exact Ends.imp h (fun _ _ h => h.of_heaps object rfl rfl) fun _ _ h => h.of_heaps object rfl rfl

end Leaves

/-! ## Visits -/

/-- A visit comes to an operation that changes a cell and does not fail. -/
def Visit.Hits (limits : Limits) (c : Cell) (v : Visit) : Prop :=
  ∃ op room at_ m, v.Performs limits op room at_ m ∧ op.target? = some c ∧ v.stop? limits = none

/-- Nothing leads to what is not there, and no part of the visit changes the cell. -/
structure Visit.Spares (limits : Limits) (c : Cell) (v : Visit) : Prop where
  ready : Ready Everything v.machine
  none : ∀ u, v.Reaches limits u → ¬ u.Hits limits c

section Visits

variable {limits : Limits} {c : Cell} {v u : Visit} {m : Machine} {α β γ : Type}

theorem Visit.Spares.opens (h : v.Spares limits c) (hu : u ∈ v.opens limits) :
    u.Spares limits c where
  ready := ready_opens h.ready hu
  none w hw := h.none w (hw.head hu)

/-- An operation of a visit leaves what the visit spares. -/
theorem Visit.Spares.leaves (h : v.Spares limits c) (object : c.IsObject) {op : Operation}
    {room : Nat} {at_ : Expr} (hop : v.Performs limits op room at_ m) :
    Leaves c (op.run room at_) m := by
  have hends := op.atomic_run (hop.known h.ready) room at_
  refine Ends.imp_eq hends (fun answer m' hok hm' => hm'.stays object fun htarget => ?_) ?_
  · have hstop := hop.ends.stop?_eq
    rw [hok] at hstop
    exact h.none v .refl ⟨op, room, at_, m, hop, htarget, hstop⟩
  · rintro stop m' - rfl
    exact .refl c m'

theorem leaves_each {visit : α → Machine → Visit} {probe : α → Run γ} {act : α → Run β}
    {items : List α}
    (hprobe : ∀ a m b m1, act a m = .ok b m1 → ∃ b', probe a m = .ok b' m1)
    (each : ∀ a m, (visit a m).Spares limits c → Leaves c (act a) m)
    (h : ∀ u ∈ eachVisit visit probe items m, u.Spares limits c) :
    Leaves c (items.mapM act) m := by
  induction items generalizing m with
  | nil => exact .pure []
  | cons a rest ih =>
    rw [eachVisit, List.forall_mem_cons] at h
    rw [List.mapM_cons]
    refine (each a m h.1).bind fun b m1 ha => ?_
    obtain ⟨b', hb'⟩ := hprobe a m b m1 ha
    rw [hb'] at h
    exact (ih h.2).bind fun bs m2 _ => .pure (b :: bs)

theorem leaves_turns {visit : α → Machine → Visit} {act : α → Run Flow} {items : List α}
    (each : ∀ a m, (visit a m).Spares limits c → Leaves c (act a) m)
    (h : ∀ u ∈ turnVisits visit act items m, u.Spares limits c) :
    Leaves c (Run.inTurn act items) m := by
  induction items generalizing m with
  | nil => exact .pure Flow.next
  | cons a rest ih =>
    rw [turnVisits, List.forall_mem_cons] at h
    unfold Run.inTurn
    refine (each a m h.1).bind fun flow m1 ha => ?_
    rw [ha] at h
    cases flow with
    | next => exact ih h.2
    | returned w => exact .pure _

theorem leaves_loop {test body : Machine → Visit} {holds : Run Bool} {run : Run Flow}
    (tested : ∀ m, (test m).Spares limits c → Leaves c holds m)
    (turned : ∀ m, (body m).Spares limits c → Leaves c run m) {turns : Nat}
    (h : ∀ u ∈ loopVisits test holds body run turns m, u.Spares limits c) :
    Leaves c (Run.whileHolds holds run turns) m := by
  induction turns generalizing m with
  | zero => exact .refl c m
  | succ turns ih =>
    rw [loopVisits, List.forall_mem_cons] at h
    unfold Run.whileHolds
    refine (tested m h.1).bind fun b m1 hb => ?_
    rw [hb] at h
    cases b with
    | false => exact .pure _
    | true =>
      have hbody := List.forall_mem_cons.mp h.2
      refine (turned m1 hbody.1).bind fun flow m2 hflow => ?_
      rw [hflow] at hbody
      cases flow with
      | next => exact ih hbody.2
      | returned w => exact .pure _

/-- A call leaves what its operation leaves, or what the body of the function does. -/
theorem leaves_callValue (object : c.IsObject) {k room : Nat} {callee : Value} {args : List Value}
    {line : Int} (body : ∀ s m, (visitStmt (k + 1) room s m).Spares limits c →
      Leaves c (s.exec limits room) m)
    (builtin : ∀ b, callee = .builtin b → Leaves c (b.call room args line) m)
    (h : ∀ u ∈ bodyVisits limits k room callee args line m, u.Spares limits c) :
    Leaves c (Run.callValue limits room (fun s => s.exec limits room) callee args line) m := by
  unfold Run.callValue
  cases callee with
  | builtin b => exact builtin b rfl
  | function i =>
    refine .get ?_
    unfold Run.callClosure
    by_cases hcount : args.length = (m.heap.function i).params.length
    · rw [if_neg (by simpa using hcount)]
      refine .get ?_
      by_cases hdepth : limits.calls ≤ m.depth
      · rw [if_pos hdepth]
        exact .fail _ _
      · rw [if_neg hdepth]
        unfold bodyVisits at h
        dsimp only at h
        rw [if_pos ⟨hcount, Nat.lt_of_not_le hdepth⟩] at h
        refine (leaves_of_sameHeap object (Run.sameHeap_note _)).bind fun _ m1 hm1 => ?_
        cases hm1
        exact leaves_activation object (leaves_enclosed object (leaves_turns body h))
    · rw [if_pos (by simpa using hcount)]
      exact .fail _ _
  | _ => exact .fail _ _

end Visits

/-! ## All parts of a program -/

open Run in
/-- A visit that spares an object leaves it as it is. -/
theorem evaluation_leaves (limits : Limits) {c : Cell} (object : c.IsObject) :
    (∀ room (e : Expr) k m, (visitExpr k room e m).Spares limits c →
        Leaves c (e.eval limits room) m) ∧
      (∀ room (s : Stmt) k m, (visitStmt k room s m).Spares limits c →
        Leaves c (s.exec limits room) m) := by
  refine evaluation_induction limits ?shallowExpr ?shallowStmt ?atom ?unary ?binary ?logical ?assign
    ?assignIndex ?assignField ?choice ?call ?list ?record ?index ?field ?expression ?print ?make
    ?makeValue ?block ?if_ ?while_ ?funk ?return_ ?returnValue ?with_ ?for_
  case shallowExpr =>
    intro room e h k m _
    rw [h]
    exact .refl c m
  case shallowStmt =>
    intro room s h k m _
    rw [h]
    exact .refl c m
  case atom =>
    intro room mark k m _
    simp only [Expr.eval]
    exact leaves_of_sameHeap object (sameHeap_atom mark)
  case unary =>
    intro room op operand ih k m spares
    simp only [Expr.eval]
    refine (ih k m (spares.opens (List.mem_singleton_self _))).bind fun v m1 _ => ?_
    exact leaves_of_sameHeap object (sameHeap_unary op v)
  case binary =>
    intro room left op right ihl ihr k m spares
    simp only [Expr.eval]
    refine (ihl k m (spares.opens List.mem_cons_self)).bind fun a m1 ha => ?_
    have hright := spares.opens (mem_opened ha (List.mem_singleton_self _))
    refine (ihr k m1 hright).bind fun b m2 _ => ?_
    exact leaves_of_sameHeap object (sameHeap_binary room op left a b)
  case logical =>
    intro room op left right ihl ihr k m spares
    simp only [Expr.eval]
    refine leaves_condition object (ihl k m (spares.opens List.mem_cons_self)) fun a m1 ha => ?_
    have hright (hne : Value.bool a = .bool (op == .and)) : Leaves c (do
        return Value.bool (← truth (.logical op) (← right.eval limits room) left.line)) m1 := by
      refine leaves_condition object (ihr k m1 (spares.opens (mem_opened ha ?_))) fun b m2 _ =>
        .pure _
      rw [if_pos hne]
      exact List.mem_singleton_self _
    cases op with
    | and =>
      cases a with
      | true => exact hright rfl
      | false => exact .pure _
    | or =>
      cases a with
      | true => exact .pure _
      | false => exact hright rfl
  case assign =>
    intro room name value ih k m spares
    simp only [Expr.eval]
    refine (ih k m (spares.opens (List.mem_singleton_self _))).bind fun v m1 _ => ?_
    exact (leaves_of_sameHeap object (sameHeap_assign _ _ _)).bind fun _ m2 _ => .pure v
  case assignIndex =>
    intro room collection place value ihc ihp ihv k m spares
    simp only [Expr.eval]
    refine (ihc k m (spares.opens List.mem_cons_self)).bind fun a m1 ha => ?_
    have hplace := spares.opens (mem_opened ha List.mem_cons_self)
    refine (ihp k m1 hplace).bind fun i m2 hi => ?_
    have hvalue := spares.opens (mem_opened ha (mem_opened hi List.mem_cons_self))
    refine (ihv k m2 hvalue).bind fun v m3 hv => ?_
    exact spares.leaves object (.setElement ha hi hv)
  case assignField =>
    intro room collection key value ihc ihv k m spares
    simp only [Expr.eval]
    refine (ihc k m (spares.opens List.mem_cons_self)).bind fun a m1 ha => ?_
    have hvalue := spares.opens (mem_opened ha List.mem_cons_self)
    refine (ihv k m1 hvalue).bind fun v m2 hv => ?_
    exact spares.leaves object (.setField ha hv)
  case choice =>
    intro room condition yes no ihc ihy ihn k m spares
    simp only [Expr.eval]
    refine leaves_condition object (ihc k m (spares.opens List.mem_cons_self)) fun b m1 hb => ?_
    have hbranch := spares.opens (mem_opened hb (List.mem_singleton_self _))
    cases b with
    | true => exact ihy k m1 hbranch
    | false => exact ihn k m1 hbranch
  case call =>
    intro room callee arguments ihf iha ihs k m spares
    simp only [Expr.eval]
    refine (ihf k m (spares.opens List.mem_cons_self)).bind fun f m1 hf => ?_
    refine (leaves_each (fun _ _ b _ h => ⟨b, h⟩) (fun a m => iha a k m) fun u hu =>
      spares.opens (mem_opened hf (List.mem_append_left _ hu))).bind fun args m2 hargs => ?_
    have hbody : ∀ u ∈ bodyVisits limits k room f args callee.line m2, u.Spares limits c :=
      fun u hu => spares.opens (mem_opened hf
        (List.mem_append_right _ (mem_andThen.mpr ⟨args, m2, hargs, hu⟩)))
    refine leaves_callValue object (fun s m => ihs s (k + 1) m) (fun b hb => ?_) hbody
    subst hb
    exact spares.leaves object (.call hf hargs)
  case list =>
    intro room line elements ih k m spares
    simp only [Expr.eval]
    refine (leaves_each (fun _ _ b _ h => ⟨b, h⟩) (fun e m => ih e k m) fun u hu =>
      spares.opens hu).bind fun vs m1 _ => ?_
    exact leaves_allocate fun h => h.within_addList _
  case record =>
    intro room line entries ih k m spares
    simp only [Expr.eval]
    have hvisits : ∀ u ∈ eachVisit (fun entry : Name × Expr => visitExpr k room entry.2)
        (fun entry => entry.2.eval limits room) entries m, u.Spares limits c := by
      rw [← eachVisit_map (visitExpr k room) (fun e => e.eval limits room) (·.2) entries m]
      exact fun u hu => spares.opens hu
    refine (leaves_each (fun entry m b m1 h => ?_) (fun entry m hm => ?_) hvisits).bind
      fun fields m1 _ => ?_
    · obtain ⟨v, m2, hv, h⟩ := bind_eq_ok.mp h
      obtain ⟨-, rfl⟩ := pure_eq_ok.mp h
      exact ⟨v, hv⟩
    · exact (ih entry.2 k m hm).bind fun v m1 _ => .pure _
    · exact leaves_allocate fun h => h.within_addRecord _
  case index =>
    intro room collection place ihc ihp k m spares
    simp only [Expr.eval]
    refine (ihc k m (spares.opens List.mem_cons_self)).bind fun a m1 ha => ?_
    have hplace := spares.opens (mem_opened ha List.mem_cons_self)
    refine (ihp k m1 hplace).bind fun i m2 _ => ?_
    exact leaves_of_sameHeap object (sameHeap_element collection a i)
  case field =>
    intro room collection key ih k m spares
    simp only [Expr.eval]
    refine (ih k m (spares.opens (List.mem_singleton_self _))).bind fun a m1 _ => ?_
    exact leaves_of_sameHeap object (sameHeap_field collection key.text a)
  case expression =>
    intro room line value ih k m spares
    simp only [Stmt.exec]
    exact (ih k m (spares.opens (List.mem_singleton_self _))).bind fun _ _ _ => .pure _
  case print =>
    intro room line value ih k m spares
    simp only [Stmt.exec]
    refine (ih k m (spares.opens (List.mem_singleton_self _))).bind fun v m1 _ => ?_
    exact (leaves_of_sameHeap object (sameHeap_writeLine room [v])).bind fun _ _ _ => .pure _
  case make =>
    intro room line name k m _
    simp only [Stmt.exec]
    refine (Leaves.pure Value.nil).bind fun v m1 _ => ?_
    exact (leaves_of_sameHeap object (sameHeap_declare _ _)).bind fun _ _ _ => .pure _
  case makeValue =>
    intro room line name value ih k m spares
    simp only [Stmt.exec]
    refine (ih k m (spares.opens (List.mem_singleton_self _))).bind fun v m1 _ => ?_
    exact (leaves_of_sameHeap object (sameHeap_declare _ _)).bind fun _ _ _ => .pure _
  case block =>
    intro room line body ih k m spares
    simp only [Stmt.exec]
    refine .get (leaves_enclosed object ?_)
    exact leaves_turns (fun s m1 => ih s k m1) fun u hu => spares.opens hu
  case if_ =>
    intro room line condition yes no ihc ihy ihn k m spares
    simp only [Stmt.exec]
    refine leaves_condition object (ihc k m (spares.opens List.mem_cons_self)) fun b m1 hb => ?_
    cases b with
    | true => exact ihy k m1 (spares.opens (mem_opened hb (List.mem_singleton_self _)))
    | false =>
      cases no with
      | none => exact .pure _
      | some no => exact ihn no k m1 (spares.opens (mem_opened hb (List.mem_singleton_self _)))
  case while_ =>
    intro room line condition body ihc ihb k m spares
    simp only [Stmt.exec]
    refine leaves_loop (fun m1 hm1 => ?_) (fun m1 => ihb k m1) fun u hu => spares.opens hu
    exact (ihc k m1 hm1).bind fun v m2 _ => leaves_of_sameHeap object (sameHeap_truth _ _ _)
  case funk =>
    intro room line name params bodyLine body k m _
    simp only [Stmt.exec]
    refine .get ((leaves_allocate fun h => h.within_addFunction _).bind fun f m1 _ => ?_)
    exact (leaves_of_sameHeap object (sameHeap_declare _ _)).bind fun _ _ _ => .pure _
  case return_ =>
    intro room line k m _
    simp only [Stmt.exec]
    exact .pure _
  case returnValue =>
    intro room line value ih k m spares
    simp only [Stmt.exec]
    exact (ih k m (spares.opens (List.mem_singleton_self _))).bind fun _ _ _ => .pure _
  case with_ =>
    intro room line value name body ihv ihb k m spares
    simp only [Stmt.exec]
    refine (ihv k m (spares.opens List.mem_cons_self)).bind fun v m1 hv => .get ?_
    have hbody := spares.opens (mem_opened hv (List.mem_singleton_self _))
    exact leaves_enclosed object (ihb k _ hbody)
  case for_ =>
    intro room line name items body ihi ihb k m spares
    simp only [Stmt.exec]
    refine (ihi k m (spares.opens List.mem_cons_self)).bind fun v m1 hv => ?_
    cases v with
    | iter i =>
      refine .get (leaves_turns (fun w m2 hm2 => .get ?_) fun u hu =>
        spares.opens (mem_opened hv hu))
      exact leaves_enclosed object (ihb k _ hm2)
    | _ => exact .fail _ _

/-! ## Programs -/

section Programs

variable {limits : Limits}

theorem spares_or_hits {v : Visit} (ready : Ready Everything v.machine) (c : Cell) :
    v.Spares limits c ∨ ∃ u, v.Reaches limits u ∧ u.Hits limits c := by
  by_cases hits : ∃ u, v.Reaches limits u ∧ u.Hits limits c
  · exact Or.inr hits
  · exact Or.inl ⟨ready, fun u hu hhits => hits ⟨u, hu, hhits⟩⟩

theorem Visit.Spares.stays {v : Visit} {c : Cell} (h : v.Spares limits c) (object : c.IsObject) :
    Stays c v.machine (v.after limits) := by
  obtain ⟨part, room, m, k⟩ := v
  obtain ⟨expr, stmt⟩ := evaluation_leaves limits object
  cases part with
  | expr e => exact ends_stateAfter.mpr (expr room e k m h)
  | stmt s => exact ends_stateAfter.mpr (stmt room s k m h)

/-- On every machine, an operation on what is there changes what it says, or it fails and changes
nothing. Where a part of a program comes to an operation, that is one on what is there, and the part
ends as the operation does. And a part of a program leaves an object that is there as it is, if no
assignment to an element or a field of it and no push onto it succeeds in the meantime. -/
theorem operations_change_one_thing (limits : Limits) :
    (∀ (op : Operation) m, op.Known m → ∀ room at_,
      Ends (fun answer m' => op.Changes room m answer m') (fun _ m' => m' = m)
        (op.run room at_ m)) ∧
    ∀ m0 program v, Reachable limits m0 → Visited limits m0 program v →
      (∀ op room at_ m, v.Performs limits op room at_ m →
        Attained limits m ∧ op.Known m ∧ v.EndsAs limits (op.run room at_ m)) ∧
      ∀ c, c.IsObject → v.machine.Has c →
        ((v.after limits).Has c ∧ v.machine.SameIn (v.after limits) c) ∨
          ∃ u, v.Reaches limits u ∧ u.Hits limits c := by
  refine ⟨fun op m known room at_ => op.atomic_run known room at_, ?_⟩
  intro m0 program v reachable visited
  have ready := ready_of_visited (ready_of_reachable reachable) visited
  refine ⟨fun op room at_ m hop => ?_, fun c object hc => ?_⟩
  · obtain ⟨u, hu, rfl⟩ := hop.after_operands
    exact ⟨.after reachable (visited.opens hu), hop.known ready, hop.ends⟩
  · rcases spares_or_hits ready c with spares | hits
    · exact Or.inl (spares.stays object hc)
    · exact Or.inr hits

/-- A program that makes a list. -/
def makingOne : List Stmt := [.make 1 ⟨"xs", 1⟩ (some (.list 1 []))]

/-- A push of the list onto itself, and a program of it. -/
def pushingIt : Expr :=
  .call (.atom ⟨.name, "push", 2⟩) [.atom ⟨.name, "xs", 2⟩, .atom ⟨.name, "xs", 2⟩]

theorem a_push_changes_the_list :
    ∃ m v, Reachable .small m ∧ Visited .small m [.expression 2 pushingIt] v ∧
      v.machine.heap.list 0 = #[] ∧ (v.after .small).heap.list 0 = #[.list 0] ∧
      ∃ u, v.Reaches .small u ∧ u.Hits .small (.list 0) := by
  obtain ⟨atomic, runs⟩ := operations_change_one_thing .small
  let m := (runOn .small (.start "" 0) makingOne).2
  let m1 := { m with notes := m.notes.push (.evaluating 1) }
  have reachable : Reachable .small m := .run _ (.start "" 0)
  have visited : Visited .small m [.expression 2 pushingIt] (visitExpr 0 17 pushingIt m1) :=
    ⟨_, List.mem_cons_self, .single (List.mem_singleton_self _)⟩
  have hempty : m1.heap.list 0 = #[] := rfl
  obtain ⟨performs, objects⟩ := runs m _ _ reachable visited
  have hpush : (visitExpr 0 17 pushingIt m1).Performs .small (.call .push [.list 0, .list 0]) 12
      (.atom ⟨.name, "push", 2⟩) m1 := .call rfl rfl
  obtain ⟨-, known, hends⟩ := performs _ _ _ _ hpush
  have hlist : ((visitExpr 0 17 pushingIt m1).after .small).heap.list 0 = #[.list 0] := by
    have hchanges := atomic _ m1 known 12 (.atom ⟨.name, "push", 2⟩)
    have hafter := congrArg stateAfter hends
    cases hrun : (Operation.call .push [.list 0, .list 0]).run 12 (.atom ⟨.name, "push", 2⟩) m1 with
    | error stop m2 => cases hrun
    | ok answer m2 =>
      rw [hrun] at hchanges hafter
      obtain ⟨i, w, hargs, -, hlist, -⟩ := hchanges
      cases hargs
      rw [hempty] at hlist
      exact (congrArg (·.heap.list 0) hafter).trans hlist
  refine ⟨m, _, reachable, visited, hempty, hlist, ?_⟩
  rcases objects (.list 0) nofun Nat.zero_lt_one with ⟨-, hsame⟩ | hits
  · rw [Machine.SameIn, hlist] at hsame
    cases hsame
  · exact hits

end Programs

end FunkLang
