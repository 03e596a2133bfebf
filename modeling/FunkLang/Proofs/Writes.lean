-- What runs write. The fields of a record come from its literal and from the assignments to it, and
-- no other step of a run touches them, nor does any step unbind a name. A step that writes puts its
-- values under their keys, one after the other.
import FunkLang.Proofs.ChangedCollections

namespace FunkLang

/-! ## Writes -/

/-- A value that is put under a key of a record. -/
structure Write where
  record : Nat
  key : String
  value : Value

/-- What the writes put into a record, in order. -/
def putsOn (i : Nat) (ws : List Write) : List (String × Value) :=
  (ws.filter (·.record = i)).map fun w => (w.key, w.value)

theorem putsOn_append (i : Nat) (ws more : List Write) :
    putsOn i (ws ++ more) = putsOn i ws ++ putsOn i more := by
  unfold putsOn
  rw [List.filter_append, List.map_append]

/-- What a literal puts into the record that it makes. -/
theorem putsOn_fields (i j : Nat) (fields : List (String × Value)) :
    putsOn i (fields.map fun field => ⟨j, field.1, field.2⟩) = if i = j then fields else [] := by
  unfold putsOn
  rw [List.filter_map, List.map_map]
  by_cases h : i = j
  · have hall : fields.filter ((fun w : Write => decide (w.record = i)) ∘
        fun field => ⟨j, field.1, field.2⟩) = fields :=
      List.filter_eq_self.mpr fun _ _ => decide_eq_true h.symm
    rw [hall, if_pos h]
    exact List.map_id fields
  · have hnone : fields.filter ((fun w : Write => decide (w.record = i)) ∘
        fun field => ⟨j, field.1, field.2⟩) = [] :=
      List.filter_eq_nil_iff.mpr fun _ _ => by simpa using Ne.symm h
    rw [hnone, if_neg h]
    rfl

theorem Table.putAll_append {α : Type} (t : Table α) (entries more : List (String × α)) :
    t.putAll (entries ++ more) = (t.putAll entries).putAll more := List.foldl_append

namespace Machine

/-- From the first machine to the second no name is unbound, and each record gets what is written
to it. A record that is not there has no fields. -/
structure Wrote (ws : List Write) (m m' : Machine) : Prop where
  bound : ∀ s name, m.Binds s name → m'.Binds s name
  fields : ∀ i, m'.heap.record i = (m.heap.record i).putAll (putsOn i ws)

namespace Wrote

variable {ws more : List Write} {m m1 m2 : Machine}

theorem refl (m : Machine) : m.Wrote [] m := ⟨fun _ _ h => h, fun _ => rfl⟩

theorem trans (h : m.Wrote ws m1) (h' : m1.Wrote more m2) : m.Wrote (ws ++ more) m2 where
  bound s name hb := h'.bound s name (h.bound s name hb)
  fields i := by rw [h'.fields, h.fields, putsOn_append, Table.putAll_append]

/-- Nothing is written, and then something. -/
theorem after (h : m.Wrote [] m1) (h' : m1.Wrote ws m2) : m.Wrote ws m2 := h.trans h'

theorem of_records {added : List String} (hk : Kept added m m1)
    (hrecords : m1.heap.records = m.heap.records) : m.Wrote [] m1 where
  bound := hk.bound
  fields i := by
    unfold Heap.record
    rw [hrecords]
    rfl

theorem of_same (hscopes : m1.scopes = m.scopes) (hheap : m1.heap = m.heap) : m.Wrote [] m1 where
  bound s name hb := by
    unfold Binds at *
    rwa [hscopes]
  fields i := by
    rw [hheap]
    rfl

theorem enclose (m : Machine) (parent : Nat) (bindings : List (String × Value)) :
    m.Wrote [] (m.enclose parent bindings) where
  bound _ _ hb := Run.binds_enclose.mpr (.inl hb)
  fields _ := rfl

end Wrote
end Machine

/-! ## Steps that write nothing -/

def SameRecords (m m' : Machine) : Prop := m'.heap.records = m.heap.records

instance : Std.Refl SameRecords := ⟨fun _ => rfl⟩
instance : IsTrans Machine SameRecords := ⟨fun _ _ _ h h' => Eq.trans h' h⟩

section Quiet

open Run

variable {α β : Type} {m : Machine} {x : Run α}

theorem Keeps.sameRecords (h : Keeps SameHeap x) : Keeps SameRecords x :=
  h.imp fun _ _ heq => congrArg Heap.records heq

theorem sameRecords_bind {f : α → Run β} (hx : Keeps SameRecords x)
    (hf : ∀ a, Keeps SameRecords (f a)) : Keeps SameRecords (x >>= f) :=
  hx.bind (fun _ _ h => h) hf

theorem sameRecords_fail (cause : FaultCause) (line : Int) :
    Keeps SameRecords (fail cause line : Run α) := fun _ => rfl

theorem sameRecords_get {f : Machine → Run α} (hf : ∀ m, Keeps SameRecords (f m)) :
    Keeps SameRecords (get >>= f) := fun m => hf m m

theorem sameRecords_allocate {make : Heap → Value × Heap}
    (h : ∀ heap, (make heap).2.records = heap.records) : Keeps SameRecords (allocate make) :=
  fun m => h m.heap

theorem sameRecords_setElement (at_ : Expr) (collection index v : Value) :
    Keeps SameRecords (setElement at_ collection index v) := by
  unfold setElement
  split
  · refine sameRecords_get fun m => sameRecords_bind (sameHeap_slot _ _ _).sameRecords fun k => ?_
    exact fun m => rfl
  · exact sameRecords_fail _ _

theorem sameRecords_rangeIter (b : Builtin) (low high step : Nat) (line : Int) :
    Keeps SameRecords (b.rangeIter low high step line) := by
  unfold Builtin.rangeIter
  split
  · exact sameRecords_fail _ _
  · split
    · exact sameRecords_fail _ _
    · exact sameRecords_allocate fun _ => rfl

theorem sameRecords_bound (b : Builtin) (v : Value) (line : Int) :
    Keeps SameRecords (b.bound v line) := fun _ =>
  (atomic_bound b v line).imp (fun _ _ h => h.2 ▸ rfl) fun _ _ h => h ▸ rfl

theorem sameRecords_makeIter (v : Value) (line : Int) :
    Keeps SameRecords (Builtin.makeIter v line) := by
  unfold Builtin.makeIter
  split
  · exact sameRecords_get fun _ => sameRecords_allocate fun _ => rfl
  · exact sameRecords_get fun _ => sameRecords_allocate fun _ => rfl
  · exact sameRecords_allocate fun _ => rfl
  · exact sameRecords_fail _ _

theorem sameRecords_size (v : Value) (line : Int) : Keeps SameRecords (Builtin.size v line) := by
  unfold Builtin.size
  refine sameRecords_get fun m => ?_
  split
  · exact (sameHeap_pure _).sameRecords
  · exact (sameHeap_pure _).sameRecords
  · exact (sameHeap_pure _).sameRecords
  · exact sameRecords_fail _ _

theorem sameRecords_readNumber (text : String) (line : Int) :
    Keeps SameRecords (Builtin.readNumber text line) := by
  unfold Builtin.readNumber
  split
  · exact (sameHeap_pure _).sameRecords
  · exact sameRecords_fail _ _

/-- A built-in function makes iters and pushes onto lists, but touches no record. -/
theorem sameRecords_call (room : Nat) (b : Builtin) (args : List Value) (line : Int) :
    Keeps SameRecords (b.call room args line) := by
  unfold Builtin.call
  split
  case h_1 => exact fun m => rfl
  case h_2 =>
    exact sameRecords_bind (sameHeap_writeLine _ _).sameRecords fun _ => fun m => rfl
  case h_3 => exact fun m => rfl
  case h_4 => exact sameRecords_makeIter _ line
  case h_5 =>
    exact sameRecords_bind (sameRecords_bound _ _ line) fun _ => sameRecords_rangeIter _ _ _ _ line
  case h_6 =>
    exact sameRecords_bind (sameRecords_bound _ _ line) fun _ =>
      sameRecords_bind (sameRecords_bound _ _ line) fun _ => sameRecords_rangeIter _ _ _ _ line
  case h_7 =>
    exact sameRecords_bind (sameRecords_bound _ _ line) fun _ =>
      sameRecords_bind (sameRecords_bound _ _ line) fun _ =>
        sameRecords_bind (sameRecords_bound _ _ line) fun _ => sameRecords_rangeIter _ _ _ _ line
  case h_8 => exact sameRecords_size _ line
  case h_9 => exact fun m => rfl
  case h_10 => exact sameRecords_fail _ _
  case h_11 => exact (sameHeap_pure _).sameRecords
  case h_12 => exact sameRecords_readNumber _ line
  case h_13 => exact sameRecords_fail _ _
  case h_14 => exact (sameHeap_pure _).sameRecords
  case h_15 => exact sameRecords_fail _ _

/-- A run that unbinds no name and touches no record. -/
theorem wrote_nothing (added : List String) (hk : Keeps (Kept added) x)
    (hr : Keeps SameRecords x) : m.Wrote [] (stateAfter (x m)) :=
  .of_records (hk.stateAfter m) (hr.stateAfter m)

theorem wrote_make (name : Name) : m.Wrote [] (stateAfter ((do
    declare name.text (← pure .nil)
    return Flow.next : Run Flow) m)) := by
  refine wrote_nothing [name.text] ?_ ?_
  · exact (keeps_declare _ .nil).andThen fun _ => keeps_pure _
  · exact (sameHeap_bind (sameHeap_declare _ .nil) fun _ => sameHeap_pure _).sameRecords

theorem wrote_funk (name : Name) (params : List Name) (body : List Stmt) :
    m.Wrote [] (stateAfter ((do
      let closure := ⟨name.text, params.map (·.text), body, (← get).scope⟩
      declare name.text (← allocate (·.addFunction closure))
      return Flow.next : Run Flow) m)) := by
  refine wrote_nothing [name.text] ?_ ?_
  · exact keeps_get.andThen fun _ => (keeps_allocate _).more.andThen fun f =>
      (keeps_declare _ f).andThen fun _ => keeps_pure _
  · exact sameRecords_get fun _ => sameRecords_bind (sameRecords_allocate fun _ => rfl) fun f =>
      (sameHeap_bind (sameHeap_declare _ f) fun _ => sameHeap_pure _).sameRecords

end Quiet

/-! ## Steps that write -/

/-- What an assignment to a field writes, if the collection is a record. -/
def Value.puts (collection : Value) (key : String) (v : Value) : List Write :=
  match collection with
  | .record i => [⟨i, key, v⟩]
  | _ => []

section Steps

open Run

variable {m : Machine}

theorem wrote_setField {at_ : Expr} {key : String} {collection v : Value}
    (known : m.Knows collection) :
    m.Wrote (collection.puts key v) (stateAfter (setField at_ key collection v m)) := by
  cases collection with
  | record i =>
    have hi : i < m.heap.records.size := known _ rfl
    refine ⟨fun _ _ hb => hb, fun j => ?_⟩
    change (m.heap.setField i key v).record j = _
    by_cases hij : i = j
    · subst hij
      rw [Heap.record_setField_self hi]
      simp [Value.puts, putsOn, Table.putAll]
    · rw [Heap.record_setField_of_ne (Ne.symm hij)]
      simp [Value.puts, putsOn, hij, Table.putAll]
  | _ => exact .refl m

theorem wrote_addRecord (fields : List (String × Value)) :
    m.Wrote (fields.map fun field => ⟨m.heap.records.size, field.1, field.2⟩)
      (stateAfter (allocate (·.addRecord (Table.empty.putAll fields)) m)) := by
  refine ⟨fun _ _ hb => hb, fun j => ?_⟩
  change (m.heap.addRecord _).2.record j = _
  rw [Heap.record_addRecord, putsOn_fields]
  split
  · rename_i hj
    have hempty : m.heap.record j = .empty := by
      unfold Heap.record
      rw [hj, Array.getElem?_eq_none (Nat.le_refl _)]
      rfl
    rw [hempty]
  · rfl

end Steps

/-! ## The writes of a visit -/

/-- What a visit writes itself, after all that it opens. -/
def Visit.ownWrites (limits : Limits) (v : Visit) : List Write :=
  match v.part, v.room with
  | .expr (.assignField collection key value), room + 3 =>
    andThen (collection.eval limits room v.machine) fun c m =>
      andThen (value.eval limits room m) fun w _ => c.puts key.text w
  | .expr (.record _ entries), room + 3 =>
    andThen ((entries.mapM fun (key, e) => return (key.text, ← e.eval limits room) :
        Run (List (String × Value))) v.machine) fun fields m =>
      fields.map fun field => ⟨m.heap.records.size, field.1, field.2⟩
  | _, _ => []

end FunkLang
