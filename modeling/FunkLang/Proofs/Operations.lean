-- The operations that do something to what is there: an assignment to an element
-- or to a field, the call of a built-in function, and a print statement. From the
-- moment when its operands have their values, an operation that fails changes
-- nothing, and one that does not fail changes one thing at most.
import FunkLang.Proofs.Encapsulation

namespace FunkLang

/-! ## Operations -/

/-- An operation, with the values of its operands. -/
inductive Operation
  | setElement (collection index value : Value)
  | setField (key : String) (collection value : Value)
  | call (b : Builtin) (args : List Value)
  | print (value : Value)

namespace Operation

/-- The values that an operation is given. -/
def operands : Operation → List Value
  | setElement collection index v => [collection, index, v]
  | setField _ collection v => [collection, v]
  | call _ args => args
  | print v => [v]

/-- The collection that an operation changes, if it does not fail. -/
def target? : Operation → Option Cell
  | setElement (.list i) _ _ => some (.list i)
  | setField _ (.record i) _ => some (.record i)
  | call .push [.list i, _] => some (.list i)
  | _ => none

/-- Runs an operation. A print statement has no value, and counts as `nil`. -/
def run (room : Nat) (at_ : Expr) : Operation → Run Value
  | setElement collection index v => Run.setElement at_ collection index v
  | setField key collection v => Run.setField at_ key collection v
  | call b args => b.call room args at_.line
  | print v => do
    Run.writeLine room [v]
    return .nil

/-- What an operation is given is there. -/
def Known (op : Operation) (m : Machine) : Prop := ∀ v ∈ op.operands, m.Knows v

end Operation

/-! ## What operations change -/

namespace Machine

/-- The second machine has the same cells, and differs in the contents of `c` only. -/
structure ChangedAt (c : Cell) (m m' : Machine) : Prop where
  heap : m' = { m with heap := m'.heap }
  has : ∀ d, m'.Has d ↔ m.Has d
  others : ∀ d, d ≠ c → m.SameIn m' d

/-- The second machine has the cells of the first, with the same contents. It may have more cells,
and another time on its clock. -/
structure Spared (m m' : Machine) : Prop where
  heap : m' = { m with heap := m'.heap, clock := m'.clock }
  same : ∀ c, m.Has c → m'.Has c ∧ m.SameIn m' c

end Machine

/-- What an operation has done that has ended with an answer. -/
def Operation.Changes (room : Nat) (m : Machine) (answer : Value) (m' : Machine) :
    Operation → Prop
  | setElement collection index v => ∃ i n slot, collection = .list i ∧ index = .number n ∧
      n.toNat? = some slot ∧ slot < (m.heap.list i).size ∧
      m.ChangedAt (.list i) m' ∧ (m'.heap.list i).size = (m.heap.list i).size ∧
      (∀ k, (m'.heap.list i)[k]? = if k = slot then some v else (m.heap.list i)[k]?) ∧ answer = v
  | setField key collection v => ∃ i, collection = .record i ∧ m.ChangedAt (.record i) m' ∧
      (∀ x, (m'.heap.record i).get? x = if x = key then some v else (m.heap.record i).get? x) ∧
      answer = v
  | call .push args => ∃ i v, args = [.list i, v] ∧ m.ChangedAt (.list i) m' ∧
      m'.heap.list i = (m.heap.list i).push v ∧ answer = .list i
  | call .println args => ∃ texts, args.mapM (Value.text? m.heap (room - 2)) = some texts ∧
      m' = { m with output := m.output ++ (joined "" texts ++ "\n") } ∧ answer = .nil
  | call .input _ => ∃ taken, m.unread = taken ++ m'.unread ∧ m' = { m with unread := m'.unread }
  | call _ _ => m.Spared m'
  | print v => ∃ text, v.text? m.heap room = some text ∧
      m' = { m with output := m.output ++ (text ++ "\n") }

/-! ## Steps -/

namespace Heap

variable {h : Heap} {i : Nat}

theorem list_push_self (hi : i < h.lists.size) (v : Value) :
    (h.push i v).list i = (h.list i).push v := by
  unfold list push
  rw [Array.getElem?_modify, if_pos rfl, Array.getElem?_eq_getElem hi]
  rfl

theorem list_setElement_self (slot : Nat) (v : Value) :
    (h.setElement i slot v).list i = (h.list i).setIfInBounds slot v := by
  unfold list setElement
  rw [Array.getElem?_modify, if_pos rfl]
  cases h.lists[i]? with
  | none => rfl
  | some elements => rfl

theorem record_setField_self (hi : i < h.records.size) (key : String) (v : Value) :
    (h.setField i key v).record i = (h.record i).put key v := by
  unfold record setField
  rw [Array.getElem?_modify, if_pos rfl, Array.getElem?_eq_getElem hi]
  rfl

/-- The objects of the first heap are on the second too, with the same contents. -/
structure Within (h h' : Heap) : Prop where
  lists : ∀ i < h.lists.size, h'.lists[i]? = h.lists[i]?
  iters : ∀ i < h.iters.size, h'.iters[i]? = h.iters[i]?
  records : ∀ i < h.records.size, h'.records[i]? = h.records[i]?
  functions : ∀ i < h.functions.size, h'.functions[i]? = h.functions[i]?

theorem Within.refl (h : Heap) : h.Within h :=
  ⟨fun _ _ => rfl, fun _ _ => rfl, fun _ _ => rfl, fun _ _ => rfl⟩

theorem getElem?_push_of_lt {α : Type} {xs : Array α} {x : α} {i : Nat} (hi : i < xs.size) :
    (xs.push x)[i]? = xs[i]? := by
  rw [Array.getElem?_push, if_neg (Nat.ne_of_lt hi)]

theorem lt_of_getElem?_eq {α : Type} {xs ys : Array α} (hi : i < xs.size) (h : ys[i]? = xs[i]?) :
    i < ys.size := by
  rw [Array.getElem?_eq_getElem hi, Array.getElem?_eq_some_iff] at h
  exact h.1

theorem within_addList (elements : Array Value) : h.Within (h.addList elements).2 :=
  ⟨fun _ hi => getElem?_push_of_lt hi, fun _ _ => rfl, fun _ _ => rfl, fun _ _ => rfl⟩

theorem within_addIter (elements : Array Value) : h.Within (h.addIter elements).2 :=
  ⟨fun _ _ => rfl, fun _ hi => getElem?_push_of_lt hi, fun _ _ => rfl, fun _ _ => rfl⟩

theorem within_addRecord (fields : Table Value) : h.Within (h.addRecord fields).2 :=
  ⟨fun _ _ => rfl, fun _ _ => rfl, fun _ hi => getElem?_push_of_lt hi, fun _ _ => rfl⟩

theorem within_addFunction (closure : Closure) : h.Within (h.addFunction closure).2 :=
  ⟨fun _ _ => rfl, fun _ _ => rfl, fun _ _ => rfl, fun _ hi => getElem?_push_of_lt hi⟩

end Heap

namespace Machine

variable {m m' : Machine} {c : Cell} {i : Nat}

/-- Where the heap grows and the scopes are the same, every cell is as it was. -/
theorem same_of_within (hheap : m.heap.Within m'.heap) (hscopes : m'.scopes = m.scopes)
    (hc : m.Has c) : m'.Has c ∧ m.SameIn m' c := by
  cases c with
  | scope s =>
    unfold Has SameIn opened at *
    rw [hscopes]
    exact ⟨hc, rfl, rfl⟩
  | function j =>
    have hj := hheap.functions j hc
    exact ⟨Heap.lt_of_getElem?_eq hc hj, by simp only [SameIn, Heap.function, hj]⟩
  | list j =>
    have hj := hheap.lists j hc
    exact ⟨Heap.lt_of_getElem?_eq hc hj, by simp only [SameIn, Heap.list, hj]⟩
  | iter j =>
    have hj := hheap.iters j hc
    exact ⟨Heap.lt_of_getElem?_eq hc hj, by simp only [SameIn, Heap.iter, hj]⟩
  | record j =>
    have hj := hheap.records j hc
    exact ⟨Heap.lt_of_getElem?_eq hc hj, by simp only [SameIn, Heap.record, hj]⟩

theorem Spared.refl (m : Machine) : m.Spared m := ⟨rfl, fun c hc => ⟨hc, .refl m c⟩⟩

theorem spared_clock (now : Nat) : m.Spared { m with clock := now } :=
  ⟨rfl, fun _ => same_of_within (.refl m.heap) rfl⟩

/-- One of the lists is modified. -/
theorem changedAt_modify (change : Array Value → Array Value) :
    m.ChangedAt (.list i)
      { m with heap := { m.heap with lists := m.heap.lists.modify i change } } := by
  refine ⟨rfl, fun d => ?_, fun d hd => ?_⟩
  · cases d <;> simp [Has, opened]
  · cases d with
    | list j =>
      have hij : i ≠ j := fun hij => hd (congrArg _ hij.symm)
      simp only [SameIn, Heap.list, Array.getElem?_modify, if_neg hij]
    | scope s => exact ⟨rfl, rfl⟩
    | _ => rfl

theorem changedAt_setField (key : String) (v : Value) :
    m.ChangedAt (.record i) { m with heap := m.heap.setField i key v } := by
  refine ⟨rfl, fun d => ?_, fun d hd => ?_⟩
  · cases d <;> simp [Has, opened, Heap.setField]
  · cases d with
    | record j => exact Heap.record_setField_of_ne fun hji => hd (congrArg _ hji)
    | scope s => exact ⟨rfl, rfl⟩
    | _ => rfl

theorem spared_addIter (elements : Array Value) :
    m.Spared { m with heap := (m.heap.addIter elements).2 } :=
  ⟨rfl, fun _ => same_of_within (Heap.within_addIter elements) rfl⟩

end Machine

/-! ## Failing without a change -/

/-- A run that changes nothing if it fails. -/
abbrev Atomic {α : Type} (good : α → Machine → Prop) (x : Run α) (m : Machine) : Prop :=
  Ends good (fun _ m' => m' = m) (x m)

section Atomic

variable {α β : Type} {good : β → Machine → Prop} {fact : α → Prop} {m : Machine}

/-- What changes nothing may come before what changes nothing if it fails. -/
theorem Atomic.after {x : Run α} {f : α → Run β} (hx : Atomic (fun a m' => fact a ∧ m' = m) x m)
    (hf : ∀ a, fact a → Atomic good (f a) m) : Atomic good (x >>= f) m := by
  unfold Atomic
  rw [ends_bind]
  refine Ends.imp hx (fun a m1 h1 => ?_) fun _ _ h => h
  obtain ⟨ha, rfl⟩ := h1
  exact hf a ha

/-- A look at the machine changes nothing. -/
theorem Atomic.get {f : Machine → Run β} (hf : Atomic good (f m) m) :
    Atomic good (MonadState.get >>= f) m := hf

theorem atomic_fitting {a? : Option α} :
    Atomic (fun a m' => a? = some a ∧ m' = m) (Run.fitting a?) m := by
  cases a? with
  | some a => exact ⟨rfl, rfl⟩
  | none => exact rfl

theorem atomic_slot (length : Nat) (index : Value) (line : Int) :
    Atomic (fun k m' => (∃ n, index = .number n ∧ n.toNat? = some k ∧ k < length) ∧ m' = m)
      (Run.slot length index line) m := by
  unfold Run.slot
  split
  · split
    · rename_i n _ k hk
      by_cases hlt : k < length
      · rw [if_pos hlt]
        exact ⟨⟨n, rfl, hk, hlt⟩, rfl⟩
      · rw [if_neg hlt]
        exact rfl
    · exact rfl
  · exact rfl

theorem atomic_bound (b : Builtin) (v : Value) (line : Int) :
    Atomic (fun _ m' => True ∧ m' = m) (b.bound v line) m := by
  unfold Builtin.bound
  split
  · split
    · exact ⟨trivial, rfl⟩
    · exact rfl
  · exact rfl

/-- Values are written once all of them have their texts. -/
theorem atomic_writeLine (room : Nat) (values : List Value) :
    Atomic (fun _ m' => ∃ texts, values.mapM (Value.text? m.heap room) = some texts ∧
        m' = { m with output := m.output ++ (joined "" texts ++ "\n") })
      (Run.writeLine room values) m := by
  unfold Run.writeLine
  exact .get (atomic_fitting.after fun texts htexts => ⟨texts, htexts, rfl⟩)

theorem atomic_rangeIter (b : Builtin) (low high step : Nat) (line : Int) :
    Atomic (fun _ m' => m.Spared m') (b.rangeIter low high step line) m := by
  unfold Builtin.rangeIter
  split
  · exact rfl
  · split
    · exact rfl
    · exact Machine.spared_addIter _

theorem atomic_makeIter (v : Value) (line : Int) :
    Atomic (fun _ m' => m.Spared m') (Builtin.makeIter v line) m := by
  unfold Builtin.makeIter
  split
  · exact .get (Machine.spared_addIter _)
  · exact .get (Machine.spared_addIter _)
  · exact Machine.spared_addIter _
  · exact rfl

theorem atomic_size (v : Value) (line : Int) :
    Atomic (fun _ m' => m.Spared m') (Builtin.size v line) m := by
  unfold Builtin.size
  refine .get ?_
  split
  · exact .refl m
  · exact .refl m
  · exact .refl m
  · exact rfl

theorem atomic_readNumber (text : String) (line : Int) :
    Atomic (fun _ m' => m.Spared m') (Builtin.readNumber text line) m := by
  unfold Builtin.readNumber
  split
  · exact .refl m
  · exact rfl

theorem input_eq (unread : List Char) :
    ∃ taken, unread = taken ++ (unread.dropWhile (· != '\n')).drop 1 := by
  refine ⟨unread.takeWhile (· != '\n') ++ (unread.dropWhile (· != '\n')).take 1, ?_⟩
  rw [List.append_assoc, List.take_append_drop, List.takeWhile_append_dropWhile]

end Atomic

namespace Operation

variable {m : Machine} {room : Nat} {at_ : Expr}

theorem run_setElement (collection index v : Value) :
    Atomic (fun answer m' => (setElement collection index v).Changes room m answer m')
      (Run.setElement at_ collection index v) m := by
  unfold Run.setElement
  split
  · rename_i i
    refine .get ((atomic_slot _ index at_.line).after fun slot hslot => ?_)
    obtain ⟨n, hindex, hn, hlt⟩ := hslot
    have hself := Heap.list_setElement_self (h := m.heap) (i := i) slot v
    refine ⟨i, n, slot, rfl, hindex, hn, hlt, Machine.changedAt_modify _, ?_, fun k => ?_, rfl⟩
    · exact (congrArg Array.size hself).trans (Array.size_setIfInBounds)
    · refine (congrArg (·[k]?) hself).trans ?_
      rw [Array.getElem?_setIfInBounds]
      by_cases hk : k = slot
      · rw [if_pos hk, if_pos hk.symm, if_pos hlt]
      · rw [if_neg hk, if_neg (Ne.symm hk)]
  · exact rfl

theorem run_setField {key : String} {collection v : Value}
    (known : (setField key collection v).Known m) :
    Atomic (fun answer m' => (setField key collection v).Changes room m answer m')
      (Run.setField at_ key collection v) m := by
  unfold Run.setField
  split
  · rename_i i
    have hi : m.Has (.record i) := known _ List.mem_cons_self _ rfl
    refine ⟨i, rfl, Machine.changedAt_setField key v, fun x => ?_, rfl⟩
    refine (congrArg (·.get? x) (Heap.record_setField_self hi key v)).trans ?_
    exact Table.get?_put _ _ _ _
  · exact rfl

theorem run_call {b : Builtin} {args : List Value} (known : (call b args).Known m) (line : Int) :
    Atomic (fun answer m' => (call b args).Changes room m answer m') (b.call room args line) m := by
  unfold Builtin.call
  split
  case h_1 => exact Machine.spared_clock _
  case h_2 =>
    have hwrite := atomic_writeLine (m := m) (room - 2) args
    unfold Atomic
    rw [ends_bind]
    refine Ends.imp hwrite (fun _ m' h => ?_) fun _ _ h => h
    obtain ⟨texts, htexts, hm'⟩ := h
    exact ⟨texts, htexts, hm', rfl⟩
  case h_3 =>
    obtain ⟨taken, htaken⟩ := input_eq m.unread
    exact ⟨taken, htaken, rfl⟩
  case h_4 => exact atomic_makeIter _ line
  case h_5 => exact (atomic_bound _ _ line).after fun high _ => atomic_rangeIter _ _ _ _ line
  case h_6 =>
    exact (atomic_bound _ _ line).after fun low _ => (atomic_bound _ _ line).after fun high _ =>
      atomic_rangeIter _ _ _ _ line
  case h_7 =>
    exact (atomic_bound _ _ line).after fun low _ => (atomic_bound _ _ line).after fun high _ =>
      (atomic_bound _ _ line).after fun step _ => atomic_rangeIter _ _ _ _ line
  case h_8 => exact atomic_size _ line
  case h_9 i v =>
    have hi : m.Has (.list i) := known _ List.mem_cons_self _ rfl
    exact ⟨i, v, rfl, Machine.changedAt_modify _, Heap.list_push_self hi v, rfl⟩
  case h_10 => exact rfl
  case h_11 => exact .refl m
  case h_12 => exact atomic_readNumber _ line
  case h_13 => exact rfl
  case h_14 => exact .refl m
  case h_15 => exact rfl

theorem run_print (v : Value) :
    Atomic (fun answer m' => (print v).Changes room m answer m') ((print v).run room at_) m := by
  unfold Atomic run
  rw [ends_bind]
  refine Ends.imp (atomic_writeLine room [v]) (fun _ m' h => ?_) fun _ _ h => h
  obtain ⟨texts, htexts, rfl⟩ := h
  cases htext : v.text? m.heap room with
  | none => simp [htext] at htexts
  | some text =>
    have htexts : texts = [text] := by simpa [htext, eq_comm] using htexts
    subst htexts
    exact ⟨text, htext, rfl⟩

/-- An operation on what is there changes what it says, or it fails and changes nothing. -/
theorem atomic_run {op : Operation} (known : op.Known m) (room : Nat) (at_ : Expr) :
    Atomic (fun answer m' => op.Changes room m answer m') (op.run room at_) m := by
  cases op with
  | setElement collection index v => exact run_setElement collection index v
  | setField key collection v => exact run_setField known
  | call b args => exact run_call known at_.line
  | print v => exact run_print v

end Operation

/-! ## Operations of a run -/

/-- A visit comes to an operation, on the machine that the operands have left. -/
inductive Visit.Performs (limits : Limits) :
    Visit → Operation → (room : Nat) → (at_ : Expr) → Machine → Prop
  | setElement {k room collection place value m c m1 i m2 v m3}
    (hcollection : collection.eval limits room m = .ok c m1)
    (hplace : place.eval limits room m1 = .ok i m2)
    (hvalue : value.eval limits room m2 = .ok v m3) :
    Performs limits (visitExpr k (room + 3) (.assignIndex collection place value) m)
      (.setElement c i v) room collection m3
  | setField {k room collection key value m c m1 v m2}
    (hcollection : collection.eval limits room m = .ok c m1)
    (hvalue : value.eval limits room m1 = .ok v m2) :
    Performs limits (visitExpr k (room + 3) (.assignField collection key value) m)
      (.setField key.text c v) room collection m2
  | call {k room callee m b m1 args m2} {arguments : List Expr}
    (hcallee : callee.eval limits (room + 2) m = .ok (.builtin b) m1)
    (hargs : arguments.mapM (fun a => a.eval limits (room + 1)) m1 = .ok args m2) :
    Performs limits (visitExpr k (room + 5) (.call callee arguments) m)
      (.call b args) room callee m2
  | print {k room line value m v m1} (hvalue : value.eval limits room m = .ok v m1) :
    Performs limits (visitStmt k (room + 3) (.print line value) m) (.print v) room value m1

/-- A visit ends as an operation does. -/
def Visit.EndsAs (limits : Limits) (v : Visit) (r : EStateM.Result Stop Machine Value) : Prop :=
  match v.part with
  | .expr e => e.eval limits v.room v.machine = r
  | .stmt _ => v.after limits = stateAfter r ∧ v.stop? limits = error? r

section Visits

variable {limits : Limits} {v : Visit} {op : Operation} {room : Nat} {at_ : Expr} {m : Machine}

/-- The answer that follows a run does not matter to what it leaves and to why it stops. -/
theorem same_end {α β γ : Type} (x : Run α) (b : β) (c : γ) (m : Machine) :
    stateAfter ((x >>= fun _ => pure b : Run β) m) =
        stateAfter ((x >>= fun _ => pure c : Run γ) m) ∧
      error? ((x >>= fun _ => pure b : Run β) m) = error? ((x >>= fun _ => pure c : Run γ) m) := by
  change stateAfter (EStateM.bind x _ m) = stateAfter (EStateM.bind x _ m) ∧
    error? (EStateM.bind x _ m) = error? (EStateM.bind x _ m)
  unfold EStateM.bind
  cases x m with
  | ok a m1 => exact ⟨rfl, rfl⟩
  | error stop m1 => exact ⟨rfl, rfl⟩

theorem endsAs_expr {k : Nat} {e : Expr} {r : EStateM.Result Stop Machine Value} :
    (visitExpr k room e m).EndsAs limits r ↔ e.eval limits room m = r := Iff.rfl

theorem Visit.Performs.ends (h : v.Performs limits op room at_ m) :
    v.EndsAs limits (op.run room at_ m) := by
  cases h with
  | setElement hcollection hplace hvalue =>
    rw [endsAs_expr, Expr.eval, bind_of_ok hcollection, bind_of_ok hplace, bind_of_ok hvalue]
    rfl
  | setField hcollection hvalue =>
    rw [endsAs_expr, Expr.eval, bind_of_ok hcollection, bind_of_ok hvalue]
    rfl
  | call hcallee hargs =>
    rw [endsAs_expr, Expr.eval, bind_of_ok hcallee, bind_of_ok hargs]
    rfl
  | @print k _ line _ m0 v _ hvalue =>
    have hexec : Stmt.exec limits (room + 3) (.print line at_) m0 =
        (do Run.writeLine room [v]; return Flow.next) m := by
      rw [Stmt.exec, bind_of_ok hvalue]
    have hend := same_end (Run.writeLine room [v]) Flow.next Value.nil m
    rw [← hexec] at hend
    exact hend

theorem Visit.EndsAs.stop?_eq {r : EStateM.Result Stop Machine Value} (h : v.EndsAs limits r) :
    v.stop? limits = error? r := by
  obtain ⟨part, room, m, k⟩ := v
  cases part with
  | expr e => exact congrArg error? h
  | stmt s => exact h.2

theorem owned_of_eval {e : Expr} {w : Value} {m1 : Machine} (ready : Ready Everything m)
    (h : e.eval limits room m = .ok w m1) :
    Ready Everything m1 ∧ Owned Everything m1 w ∧ ∀ c, m.Has c → m1.Has c := by
  have howns := (evaluation_owns limits Everything).1 room e m ready
  unfold Run.Owns Confined at howns
  rw [h] at howns
  exact ⟨ready.frames howns.1, howns.2, howns.1.grows⟩

theorem known_of_owned (h : ∀ v ∈ op.operands, Owned Everything m v) : op.Known m :=
  fun v hv c hc => (h v hv c hc).2

/-- What an operation of a visit is given is there. -/
theorem Visit.Performs.known (h : v.Performs limits op room at_ m)
    (ready : Ready Everything v.machine) : op.Known m := by
  refine known_of_owned ?_
  cases h with
  | setElement hcollection hplace hvalue =>
    obtain ⟨ready1, hc, -⟩ := owned_of_eval ready hcollection
    obtain ⟨ready2, hi, grows2⟩ := owned_of_eval ready1 hplace
    obtain ⟨-, hv, grows3⟩ := owned_of_eval ready2 hvalue
    simp only [Operation.operands, List.forall_mem_cons]
    exact ⟨(hc.mono grows2).mono grows3, hi.mono grows3, hv, by simp⟩
  | setField hcollection hvalue =>
    obtain ⟨ready1, hc, -⟩ := owned_of_eval ready hcollection
    obtain ⟨-, hv, grows2⟩ := owned_of_eval ready1 hvalue
    simp only [Operation.operands, List.forall_mem_cons]
    exact ⟨hc.mono grows2, hv, by simp⟩
  | @call _ _ _ _ _ _ _ _ arguments hcallee hargs =>
    obtain ⟨ready1, -, -⟩ := owned_of_eval ready hcallee
    have howned := confined_arguments limits (room + 1) arguments ready1
    unfold Confined at howned
    rw [hargs] at howned
    exact howned.2
  | print hvalue =>
    obtain ⟨-, hv, -⟩ := owned_of_eval ready hvalue
    simpa [Operation.operands] using hv

/-- The machine that arguments leave is that of the last of them. -/
theorem after_arguments {k : Nat} {arguments : List Expr} {args : List Value} {m1 : Machine}
    (h : arguments.mapM (fun a => a.eval limits room) m = .ok args m1) :
    m1 = m ∨ ∃ u ∈ eachVisit (visitExpr k room) (fun a => a.eval limits room) arguments m,
      u.after limits = m1 := by
  induction arguments generalizing m args with
  | nil =>
    cases h
    exact Or.inl rfl
  | cons a rest ih =>
    rw [List.mapM_cons, bind_eq_ok] at h
    obtain ⟨w, m2, ha, h⟩ := h
    rw [bind_eq_ok] at h
    obtain ⟨ws, m3, hrest, h⟩ := h
    obtain ⟨-, rfl⟩ := pure_eq_ok.mp h
    have hafter : (visitExpr k room a m).after limits = m2 := congrArg stateAfter ha
    rw [eachVisit, ha]
    rcases ih hrest with rfl | ⟨u, hu, hm⟩
    · exact Or.inr ⟨_, List.mem_cons_self, hafter⟩
    · exact Or.inr ⟨u, List.mem_cons_of_mem _ hu, hm⟩

/-- An operation starts on the machine that the visit to its last operand leaves. -/
theorem Visit.Performs.after_operands (h : v.Performs limits op room at_ m) :
    ∃ u ∈ v.opens limits, u.after limits = m := by
  cases h with
  | @setElement k _ _ place value m0 c m1 i m2 w _ hcollection hplace hvalue =>
    refine ⟨visitExpr k room value m2, ?_, congrArg stateAfter hvalue⟩
    exact mem_opened hcollection (mem_opened hplace List.mem_cons_self)
  | @setField k _ _ key value m0 c m1 w _ hcollection hvalue =>
    refine ⟨visitExpr k room value m1, ?_, congrArg stateAfter hvalue⟩
    exact mem_opened hcollection List.mem_cons_self
  | @call k _ _ m0 b m1 args _ arguments hcallee hargs =>
    rcases after_arguments (k := k) hargs with rfl | ⟨u, hu, hm⟩
    · exact ⟨visitExpr k (room + 2) at_ m0, List.mem_cons_self, congrArg stateAfter hcallee⟩
    · exact ⟨u, mem_opened hcallee (List.mem_append_left _ hu), hm⟩
  | @print k _ line _ m0 w _ hvalue =>
    exact ⟨visitExpr k room at_ m0, List.mem_cons_self, congrArg stateAfter hvalue⟩

theorem Visited.opens {m0 : Machine} {program : List Stmt} (h : Visited limits m0 program v)
    {u : Visit} (hu : u ∈ v.opens limits) : Visited limits m0 program u := by
  obtain ⟨top, htop, hv⟩ := h
  exact ⟨top, htop, hv.tail hu⟩

end Visits

end FunkLang
