-- What a call can see and change. A call does not look at the current scope: a
-- function runs in a scope inside that of its declaration. So it changes only
-- what can be reached from the function and the arguments, wherever it is called.
import FunkLang.Proofs.Attained

namespace FunkLang

/-! ## The current scope -/

/-- The same end in another current scope. -/
def inScope {α : Type} (s : Nat) : EStateM.Result Stop Machine α → EStateM.Result Stop Machine α
  | .ok a m => .ok a { m with scope := s }
  | .error stop m => .error stop { m with scope := s }

/-- A run that comes to the same in every current scope, and leaves it as it is. -/
def Scopeless {α : Type} (x : Run α) : Prop :=
  ∀ m s, x { m with scope := s } = inScope s (x m)

namespace Scopeless

variable {α β : Type} {x : Run α}

theorem pure (a : α) : Scopeless (Pure.pure a : Run α) := fun _ _ => rfl

theorem fail (cause : FaultCause) (line : Int) : Scopeless (Run.fail cause line : Run α) :=
  fun _ _ => rfl

theorem bind {f : α → Run β} (hx : Scopeless x) (hf : ∀ a, Scopeless (f a)) :
    Scopeless (x >>= f) := by
  intro m s
  change EStateM.bind x f _ = inScope s (EStateM.bind x f m)
  unfold EStateM.bind
  rw [hx m s]
  cases x m with
  | ok a m1 => exact hf a m1 s
  | error stop m1 => rfl

/-- A look at the machine, but not at its current scope. -/
theorem get {f : Machine → Run α} (hf : ∀ m, Scopeless (f m))
    (same : ∀ m s, f { m with scope := s } = f m) : Scopeless (MonadState.get >>= f) := by
  intro m s
  change f { m with scope := s } { m with scope := s } = inScope s (f m m)
  rw [same m s]
  exact hf m m s

theorem modify {f : Machine → Machine}
    (h : ∀ m s, f { m with scope := s } = { f m with scope := s }) :
    Scopeless (modify f : Run PUnit) := fun m s =>
  congrArg (EStateM.Result.ok PUnit.unit) (h m s)

theorem allocate (make : Heap → Value × Heap) : Scopeless (Run.allocate make) := fun _ _ => rfl

theorem fitting (a? : Option α) : Scopeless (Run.fitting a?) := by
  cases a? with
  | some a => exact pure a
  | none => exact fun _ _ => rfl

theorem writeLine (room : Nat) (values : List Value) : Scopeless (Run.writeLine room values) := by
  refine get (fun m => (fitting _).bind fun texts => ?_) fun _ _ => rfl
  exact modify fun _ _ => rfl

/-- What runs in a fresh scope does not see the scope around it in any other way. -/
theorem enclosed (parent : Nat) (bindings : List (String × Value)) (body : Run α) :
    Scopeless (Run.enclosed parent bindings body) := by
  intro m s
  unfold Run.enclosed
  change (match body (m.enclose parent bindings) with
    | .ok a m1 => EStateM.Result.ok a { m1 with scope := s }
    | .error e m1 => .error e { m1 with scope := s }) = _
  cases body (m.enclose parent bindings) <;> rfl

theorem activation {name : String} {line : Int} {body : Run Flow} (h : Scopeless body) :
    Scopeless (Run.activation name line body) := by
  intro m s
  unfold Run.activation
  rw [h { m with depth := m.depth + 1 } s]
  cases body { m with depth := m.depth + 1 } with
  | ok flow m1 => cases flow <;> rfl
  | error stop m1 => cases stop <;> rfl

/-! ## Calls -/

theorem bound (b : Builtin) (v : Value) (line : Int) : Scopeless (b.bound v line) := by
  unfold Builtin.bound
  split
  · split
    · exact pure _
    · exact fail _ _
  · exact fail _ _

theorem rangeIter (b : Builtin) (low high step : Nat) (line : Int) :
    Scopeless (b.rangeIter low high step line) := by
  unfold Builtin.rangeIter
  split
  · exact fail _ _
  · split
    · exact fail _ _
    · exact allocate _

theorem makeIter (v : Value) (line : Int) : Scopeless (Builtin.makeIter v line) := by
  unfold Builtin.makeIter
  split
  · exact get (fun _ => allocate _) fun _ _ => rfl
  · exact get (fun _ => allocate _) fun _ _ => rfl
  · exact allocate _
  · exact fail _ _

theorem size (v : Value) (line : Int) : Scopeless (Builtin.size v line) := by
  unfold Builtin.size
  refine get (fun m => ?_) fun _ _ => rfl
  dsimp only
  split
  · exact pure _
  · exact pure _
  · exact pure _
  · exact fail _ _

theorem readNumber (text : String) (line : Int) : Scopeless (Builtin.readNumber text line) := by
  unfold Builtin.readNumber
  split
  · exact pure _
  · exact fail _ _

theorem builtin (room : Nat) (b : Builtin) (args : List Value) (line : Int) :
    Scopeless (b.call room args line) := by
  unfold Builtin.call
  split
  case h_1 =>
    exact bind (get (fun _ => (modify fun _ _ => rfl).bind fun _ => pure _) fun _ _ => rfl)
      fun _ => pure _
  case h_2 => exact (writeLine _ _).bind fun _ => pure _
  case h_3 =>
    exact bind (get (fun _ => (modify fun _ _ => rfl).bind fun _ => pure _) fun _ _ => rfl)
      fun _ => pure _
  case h_4 => exact makeIter _ _
  case h_5 => exact (bound _ _ _).bind fun _ => rangeIter _ _ _ _ _
  case h_6 => exact (bound _ _ _).bind fun _ => (bound _ _ _).bind fun _ => rangeIter _ _ _ _ _
  case h_7 =>
    exact (bound _ _ _).bind fun _ => (bound _ _ _).bind fun _ => (bound _ _ _).bind fun _ =>
      rangeIter _ _ _ _ _
  case h_8 => exact size _ _
  case h_9 => exact (modify fun _ _ => rfl).bind fun _ => pure _
  case h_10 => exact fail _ _
  case h_11 => exact pure _
  case h_12 => exact readNumber _ _
  case h_13 => exact fail _ _
  case h_14 => exact pure _
  case h_15 => exact fail _ _

theorem callClosure (limits : Limits) (run : Stmt → Run Flow) (closure : Closure)
    (args : List Value) (line : Int) :
    Scopeless (Run.callClosure limits run closure args line) := by
  unfold Run.callClosure
  split
  · exact fail _ _
  · refine get (fun m => ?_) fun _ _ => rfl
    split
    · exact fail _ _
    · exact (modify fun _ _ => rfl).bind fun _ => activation (enclosed _ _ _)

theorem callValue (limits : Limits) (room : Nat) (run : Stmt → Run Flow) (callee : Value)
    (args : List Value) (line : Int) :
    Scopeless (Run.callValue limits room run callee args line) := by
  unfold Run.callValue
  split
  · exact builtin _ _ _ _
  · exact get (fun _ => callClosure _ _ _ _ _) fun _ _ => rfl
  · exact fail _ _

end Scopeless

/-! ## Encapsulation -/

/-- A value is one of a machine: if it is an object, that object is there. -/
def Machine.Knows (m : Machine) (v : Value) : Prop := ∀ c, v.cell? = some c → m.Has c

/-- The cells that can be reached from some values, and those that are not there yet. -/
def Machine.Territory (m : Machine) (values : List Value) (c : Cell) : Prop :=
  ¬ m.Has c ∨ ∃ v ∈ values, m.Reaches v c

theorem sealed_territory {m : Machine} (ready : Ready Everything m) (values : List Value) :
    Sealed (m.Territory values) m := by
  refine ⟨fun c hc => ?_, fun c hc => Or.inl hc⟩
  obtain ⟨hreach, hhas⟩ := hc
  obtain ⟨v, hv, start, hstart, hpath⟩ := hreach.resolve_left fun hnot => hnot hhas
  have leads := ready.isSealed.closed c ⟨trivial, hhas⟩
  refine ⟨fun w hw d hd => ?_, fun p hp => ?_⟩
  · exact ⟨Or.inr ⟨v, hv, start, hstart, hpath.tail (Or.inl ⟨w, hw, hd⟩)⟩, (leads.held w hw d hd).2⟩
  · exact ⟨Or.inr ⟨v, hv, start, hstart, hpath.tail (Or.inr ⟨p, hp, rfl⟩)⟩, (leads.around p hp).2⟩

theorem owned_territory {m : Machine} {values : List Value} (known : ∀ v ∈ values, m.Knows v)
    {v : Value} (hv : v ∈ values) : Owned (m.Territory values) m v := fun c hc =>
  ⟨Or.inr ⟨v, hv, c, hc, .refl⟩, known v hv c hc⟩

/-- A function is called on a machine of a session, in whatever scope `s` is the current one. What
was there and cannot be reached from the function or the arguments, has the same contents after
the call, however it ends; and in another current scope the call ends in the same way, on a machine
that differs in its current scope only. -/
theorem calls_are_encapsulated (limits : Limits) {m : Machine} (attained : Attained limits m)
    {callee : Value} {args : List Value} (known : ∀ v ∈ callee :: args, m.Knows v)
    (room : Nat) (line : Int) (s : Nat) :
    let call := Run.callValue limits room (fun st => st.exec limits room) callee args line
    (∀ c, m.Has c → (∀ v ∈ callee :: args, ¬ m.Reaches v c) →
      m.SameIn (stateAfter (call { m with scope := s })) c) ∧
      ∀ s', call { m with scope := s' } = inScope s' (call { m with scope := s }) := by
  intro call
  have scopeless : Scopeless call := .callValue limits room _ callee args line
  refine ⟨fun c hc hout => ?_, fun s' => scopeless { m with scope := s } s'⟩
  have enter : Grown (m.Territory (callee :: args)) m { m with scope := s } :=
    (sealed_territory attained.ready _).unchanged rfl rfl
  have owned : ∀ v ∈ callee :: args, Owned (m.Territory (callee :: args)) { m with scope := s } v :=
    fun v hv => (owned_territory known hv).mono enter.grows
  have confined : Run.Owns (m.Territory (callee :: args)) call { m with scope := s } :=
    Run.owns_callValue line enter.isSealed ((evaluation_owns limits _).2 room)
      (owned callee List.mem_cons_self) fun v hv => owned v (List.mem_cons_of_mem _ hv)
  have outside : ¬ m.Territory (callee :: args) c := by
    rintro (hnot | ⟨v, hv, hreach⟩)
    · exact hnot hc
    · exact hout v hv hreach
  exact (enter.same c outside).trans (confined.frames.same c outside)

/-- A program that makes two lists. -/
def makingTwo : List Stmt :=
  [.make 1 ⟨"xs", 1⟩ (some (.list 1 [])), .make 2 ⟨"ys", 2⟩ (some (.list 2 []))]

/-- An element that is pushed onto one list does not show in the other one. -/
theorem a_push_leaves_the_other_list :
    ∃ m, Attained .small m ∧ m.Has (.list 1) ∧
      m.SameIn (stateAfter (Run.callValue .small 20 (fun st => st.exec .small 20)
        (.builtin .push) [.list 0, .nil] 3 { m with scope := 0 })) (.list 1) := by
  have attained : Attained .small (runOn .small (.start "" 0) makingTwo).2 :=
    .between (.run _ (.start "" 0))
  have lists : (runOn .small (.start "" 0) makingTwo).2.heap.lists = #[#[], #[]] := rfl
  have has : ∀ i < 2, (runOn .small (.start "" 0) makingTwo).2.Has (.list i) := by
    intro i hi
    simp only [Machine.Has, lists]
    exact hi
  have known : ∀ v ∈ [.builtin .push, .list 0, .nil],
      (runOn .small (.start "" 0) makingTwo).2.Knows v := by
    intro v hv c hc
    simp only [List.mem_cons, List.not_mem_nil, or_false] at hv
    rcases hv with rfl | rfl | rfl <;> cases hc
    exact has 0 (by decide)
  have unreached : ∀ v ∈ [.builtin .push, .list 0, .nil],
      ¬ (runOn .small (.start "" 0) makingTwo).2.Reaches v (.list 1) := by
    rintro v hv ⟨c, hc, hpath⟩
    simp only [List.mem_cons, List.not_mem_nil, or_false] at hv
    rcases hv with rfl | rfl | rfl <;> cases hc
    rcases hpath.cases_head with h | ⟨d, ⟨w, hw, _⟩ | ⟨p, hp, _⟩, _⟩
    · cases h
    · simp [Machine.Holds, Heap.list, lists] at hw
    · exact hp
  obtain ⟨same, _⟩ := calls_are_encapsulated .small attained known 20 3 0
  exact ⟨_, attained, has 1 (by decide), same (.list 1) (has 1 (by decide)) unreached⟩

end FunkLang
