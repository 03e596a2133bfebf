-- Records as maps in the order of insertion. What is written to a record, by its literal and by
-- assignments under whatever name, decides what the record is: its keys in the order of their first
-- writes, each with the value that was written last.
import FunkLang.Proofs.Comparisons
import FunkLang.Proofs.Moments

namespace FunkLang

/-! ## Puts -/

section Puts

variable {α : Type}

/-- The keys in the order of their first puts. -/
def keysInOrder (puts : List (String × α)) : List String := (puts.map Prod.fst).eraseDups

/-- The value that was put last under a key. -/
def lastPut (puts : List (String × α)) (key : String) : Option α := puts.reverse.lookup key

theorem keysInOrder_concat (puts : List (String × α)) (key : String) (v : α) :
    keysInOrder (puts ++ [(key, v)]) =
      if key ∈ keysInOrder puts then keysInOrder puts else keysInOrder puts ++ [key] := by
  unfold keysInOrder
  rw [List.map_append, List.eraseDups_append]
  simp only [List.mem_eraseDups, List.map_cons, List.map_nil]
  by_cases h : key ∈ puts.map Prod.fst
  · simp [List.removeAll, h]
  · simp [List.removeAll, h, List.eraseDups_cons]

theorem lastPut_concat (puts : List (String × α)) (key other : String) (v : α) :
    lastPut (puts ++ [(key, v)]) other = if other = key then some v else lastPut puts other := by
  unfold lastPut
  rw [List.reverse_append, List.reverse_singleton, List.singleton_append, List.lookup_cons]
  by_cases h : other = key
  · rw [beq_iff_eq.mpr h, if_pos h]
  · rw [beq_eq_false_iff_ne.mpr h, if_neg h]

end Puts

/-! ## Tables -/

namespace Table

variable {α : Type}

theorem names_putAll (puts : List (String × α)) : (empty.putAll puts).names = keysInOrder puts := by
  induction puts using List.reverseRecOn with
  | nil => rfl
  | append_singleton puts put ih =>
    obtain ⟨key, v⟩ := put
    rw [putAll_append, keysInOrder_concat, ← ih]
    exact names_put _ key v

theorem get?_putAll (puts : List (String × α)) (key : String) :
    (empty.putAll puts).get? key = lastPut puts key := by
  induction puts using List.reverseRecOn with
  | nil => rfl
  | append_singleton puts put ih =>
    obtain ⟨other, v⟩ := put
    rw [putAll_append, lastPut_concat, ← ih]
    exact get?_put _ other key v

/-- No put moves a key. -/
theorem names_prefix (t : Table α) (puts : List (String × α)) :
    t.names <+: (t.putAll puts).names := by
  induction puts using List.reverseRecOn with
  | nil => exact List.prefix_refl _
  | append_singleton puts put ih =>
    obtain ⟨key, v⟩ := put
    have hput := names_put (t.putAll puts) key v
    rw [putAll_append]
    change t.names <+: ((t.putAll puts).put key v).names
    rw [hput]
    split
    · exact ih
    · exact ih.trans (List.prefix_append _ _)

end Table

/-! ## Texts and comparisons of records -/

section Records

variable {h : Heap}

theorem mapM_congr_mem {α β : Type} {f g : α → Option β} {items : List α}
    (each : ∀ a ∈ items, f a = g a) : items.mapM f = items.mapM g := by
  induction items with
  | nil => rfl
  | cons a rest ih =>
    rw [List.forall_mem_cons] at each
    rw [List.mapM_cons, List.mapM_cons, each.1, ih each.2]

/-- The text of a record lists its keys in their order, each with the text of its value. -/
theorem Value.text?_record (h : Heap) (i room : Nat) : (record i).text? h (room + 1) =
    ((h.record i).names.mapM fun key =>
      ((h.record i).get? key >>= text? h room).map (key ++ ":" ++ ·)).map fun parts =>
        "\x7b" ++ joined ", " parts ++ "\x7d" := by
  have hparts : ((h.record i).names.mapM fun key =>
      ((h.record i).get? key >>= text? h room).map (key ++ ":" ++ ·)) =
        (h.record i).entries.mapM fun field =>
          (text? h room field.2).map (field.1 ++ ":" ++ ·) := by
    unfold Table.names
    rw [List.mapM_map]
    refine mapM_congr_mem fun field hfield => ?_
    simp only [Function.comp_apply, Table.mem_entries_iff.mp hfield]
    rfl
  rw [hparts]
  simp only [text?]
  cases (h.record i).entries.mapM fun field =>
    (text? h room field.2).map (field.1 ++ ":" ++ ·) <;> rfl

/-- Two records are equal if they have the same keys, in whatever order, and equal values under
each of them. -/
theorem Value.same?_records {i j room : Nat} :
    (record i).same? h (room + 3) (record j) = some true ↔
      (∀ key, key ∈ (h.record i).names ↔ key ∈ (h.record j).names) ∧
        ∀ key x y, (h.record i).get? key = some x → (h.record j).get? key = some y →
          x.same? h room y = some true := by
  simp only [same?, sameFields_eq_true, Table.mem_entries_iff]

/-- The comparison of two records ends if those of the values under each key do. -/
theorem Value.same?_records_isSome {i j room : Nat}
    (each : ∀ key x y, (h.record i).get? key = some x → (h.record j).get? key = some y →
      (x.same? h room y).isSome) :
    ((record i).same? h (room + 3) (record j)).isSome := by
  simp only [same?]
  apply sameFields_isSome
  simpa only [Table.mem_entries_iff] using each

end Records

/-! ## Visits of a session -/

/-- The visits of a session: those of its programs, each program on the machine that the ones before
it have left. -/
inductive SessionVisit (limits : Limits) : Machine → List (List Stmt) → Visit → Prop
  | now {m : Machine} {program : List Stmt} {rest : List (List Stmt)} {v : Visit}
      (h : Visited limits m program v) : SessionVisit limits m (program :: rest) v
  | later {m : Machine} {program : List Stmt} {rest : List (List Stmt)} {v : Visit}
      (h : SessionVisit limits (runOn limits m program).2 rest v) :
      SessionVisit limits m (program :: rest) v

section Visits

variable {limits : Limits} {m : Machine} {programs : List (List Stmt)} {us : List Visit}
  {u v : Visit}

theorem Visit.course_infix_of_mem (hv : v ∈ us) :
    v.course limits <:+: us.flatMap (Visit.course limits) :=
  List.infix_of_mem_flatten (List.mem_map_of_mem hv)

theorem Visit.course_infix (hr : v.Reaches limits u) : u.course limits <:+: v.course limits := by
  induction hr using Relation.ReflTransGen.head_induction_on with
  | refl => exact List.infix_refl _
  | @head v w hw _ ih =>
    rw [v.course_eq, List.cons_append]
    exact ((ih.trans (course_infix_of_mem hw)).trans (List.infix_append' [] _ _)).trans
      (List.infix_cons (List.infix_refl _))

/-- The moments of a visit are a stretch of those of the session. -/
theorem SessionVisit.course_infix (h : SessionVisit limits m programs v) :
    v.course limits <:+: sessionCourse limits m programs := by
  induction h with
  | @now m program rest v h =>
    obtain ⟨top, htop, hr⟩ := h
    rw [sessionCourse, List.cons_append]
    exact (((Visit.course_infix hr).trans (Visit.course_infix_of_mem htop)).trans
      (List.infix_append' [] _ _)).trans (List.infix_cons (List.infix_refl _))
  | later _ ih =>
    rw [sessionCourse]
    exact ih.trans (List.suffix_append _ _).isInfix

end Visits

/-! ## The entries of a literal -/

section Literals

variable {limits : Limits} {α β : Type}

theorem length_eachVisit {visit : α → Machine → Visit} {act : α → Run β} {items : List α}
    {answers : List β} {m m' : Machine} (h : items.mapM act m = .ok answers m') :
    (eachVisit visit act items m).length = items.length := by
  induction items generalizing m m' answers with
  | nil => rfl
  | cons a rest ih =>
    rw [List.mapM_cons] at h
    obtain ⟨b, m1, hb, h⟩ := bind_eq_ok.mp h
    obtain ⟨bs, m2, hbs, -⟩ := bind_eq_ok.mp h
    rw [eachVisit, hb, List.length_cons, List.length_cons, andThen, ih hbs]

/-- Each item is answered with its key and its value, in order. -/
theorem keys_of_mapM {key : α → String} {act : α → Run β} {items : List α}
    {answers : List (String × β)} {m m' : Machine}
    (h : items.mapM (fun a => do return (key a, ← act a) : α → Run (String × β)) m =
      .ok answers m') : answers.map Prod.fst = items.map key := by
  induction items generalizing m m' answers with
  | nil =>
    cases h
    rfl
  | cons a rest ih =>
    rw [List.mapM_cons] at h
    obtain ⟨answer, m1, hanswer, h⟩ := bind_eq_ok.mp h
    obtain ⟨others, m2, hothers, h⟩ := bind_eq_ok.mp h
    obtain ⟨v, m3, -, hpure⟩ := bind_eq_ok.mp hanswer
    obtain ⟨rfl, -⟩ := pure_eq_ok.mp hpure
    obtain ⟨rfl, -⟩ := pure_eq_ok.mp h
    rw [List.map_cons, List.map_cons, ih hothers]

/-- A literal that has its answer has evaluated all of its entries, those of a repeated key too, and
writes them in order to a record that nothing was written to. -/
theorem literal_writes {k room : Nat} {line : Int} {entries : List (Name × Expr)}
    {m0 m : Machine} {v : Value}
    (h : (Expr.record line entries).eval limits (room + 3) m0 = .ok v m) :
    let u := visitExpr k (room + 3) (.record line entries) m0
    (u.opens limits).length = entries.length ∧
      (u.ownWrites limits).map Write.key = entries.map (·.1.text) ∧
      ∃ i, v = .record i ∧ ∀ w ∈ u.ownWrites limits, w.record = i := by
  intro u
  rw [Expr.eval] at h
  obtain ⟨fields, m1, hfields, h⟩ := bind_eq_ok.mp h
  cases h
  have hwrites : u.ownWrites limits =
      fields.map fun field => ⟨m1.heap.records.size, field.1, field.2⟩ := by
    change andThen ((entries.mapM _ : Run (List (String × Value))) m0) _ = _
    rw [hfields]
    rfl
  refine ⟨?_, ?_, m1.heap.records.size, rfl, ?_⟩
  · change (eachVisit (visitExpr k room) (fun e => e.eval limits room) (entries.map (·.2)) m0).length
      = _
    rw [eachVisit_map, ← eachVisit_answer _ _ fun entry v => (entry.1.text, v)]
    exact length_eachVisit hfields
  · rw [hwrites, List.map_map]
    exact keys_of_mapM hfields
  · intro w hw
    rw [hwrites] at hw
    obtain ⟨field, -, rfl⟩ := List.mem_map.mp hw
    rfl

end Literals

/-! ## The law -/

/-- What a record is after some puts: its keys in the order of their first puts, each with the value
that was put last, and its text lists them in this order. -/
structure Heap.Holds (h : Heap) (i : Nat) (puts : List (String × Value)) : Prop where
  keys : (h.record i).names = keysInOrder puts
  distinct : (keysInOrder puts).Nodup
  values : ∀ key, (h.record i).get? key = lastPut puts key
  text : ∀ room, (Value.record i).text? h (room + 1) =
    ((keysInOrder puts).mapM fun key =>
      (lastPut puts key >>= Value.text? h room).map (key ++ ":" ++ ·)).map fun parts =>
        "\x7b" ++ joined ", " parts ++ "\x7d"

/-- How two records compare after some puts. Whether they are equal does not depend on the order of
the keys, and there is an answer where the values under each key have one. -/
structure Heap.Compares (h : Heap) (i j : Nat) (puts puts' : List (String × Value)) : Prop where
  equal : ∀ room, (Value.record i).same? h (room + 3) (.record j) = some true ↔
    (∀ key, key ∈ puts.map Prod.fst ↔ key ∈ puts'.map Prod.fst) ∧
      ∀ key x y, lastPut puts key = some x → lastPut puts' key = some y →
        x.same? h room y = some true
  answered : ∀ room, (∀ key x y, lastPut puts key = some x → lastPut puts' key = some y →
    (x.same? h room y).isSome) → ((Value.record i).same? h (room + 3) (.record j)).isSome

section Law

variable {h : Heap} {i j : Nat} {puts puts' : List (String × Value)}

theorem Heap.holds_of_record (hi : h.record i = .putAll .empty puts) : h.Holds i puts := by
  have hkeys : (h.record i).names = keysInOrder puts := hi ▸ Table.names_putAll puts
  have hvalues (key : String) : (h.record i).get? key = lastPut puts key :=
    hi ▸ Table.get?_putAll puts key
  refine ⟨hkeys, hkeys ▸ (h.record i).distinct, hvalues, fun room => ?_⟩
  rw [Value.text?_record, hkeys]
  simp only [hvalues]

theorem Heap.compares_of_record (hi : h.record i = .putAll .empty puts)
    (hj : h.record j = .putAll .empty puts') : h.Compares i j puts puts' := by
  obtain ⟨hkeys, -, hvalues, -⟩ := holds_of_record hi
  obtain ⟨hkeys', -, hvalues', -⟩ := holds_of_record hj
  constructor
  · intro room
    rw [Value.same?_records, hkeys, hkeys']
    simp only [hvalues, hvalues', keysInOrder, List.mem_eraseDups]
  · intro room each
    apply Value.same?_records_isSome
    simpa only [hvalues, hvalues'] using each

end Law

section Sessions

variable {limits : Limits} {input : String} {clock : Nat} {programs : List (List Stmt)}
  {before after : List Moment} {b : Moment}

/-- At every moment, a record is what has been written to it. -/
theorem record_of_course
    (h : sessionCourse limits (.start input clock) programs = before ++ b :: after) (i : Nat) :
    b.machine.heap.record i = .putAll .empty (putsOn i (writesOf (before ++ [b]))) :=
  (sessionCourse_runsTo (ready_start input clock) h).fields i

theorem field_of_record {at_ : Expr} {key : String} {i : Nat} {m : Machine}
    {puts : List (String × Value)} (h : m.heap.Holds i puts) :
    Run.field at_ key (.record i) m = match lastPut puts key with
      | some v => .ok v m
      | none => .error (.fault ⟨.noField key, some at_.line⟩) m := by
  rw [← h.values]
  change (match (m.heap.record i).get? key with
    | some v => pure v
    | none => Run.fail (.noField key) at_.line : Run Value) m = _
  cases (m.heap.record i).get? key <;> rfl

/-- A field that is read in a session has the value that was written last under its key, wherever
the record came from. A key that was not written under is missed at the line of the record, and the
machine stays as it was. -/
theorem field_of_session {k room i : Nat} {collection : Expr} {key : Name} {m0 m : Machine}
    (visited : SessionVisit limits (.start input clock) programs
      (visitExpr k (room + 3) (.field collection key) m0))
    (hrecord : collection.eval limits room m0 = .ok (.record i) m) :
    ∃ before after, sessionCourse limits (.start input clock) programs =
        before ++ (visitExpr k (room + 3) (.field collection key) m0).course limits ++ after ∧
      (Expr.field collection key).eval limits (room + 3) m0 =
        match lastPut (putsOn i (writesOf (before ++
          (visitExpr k (room + 3) (.field collection key) m0).course limits))) key.text with
        | some v => .ok v m
        | none => .error (.fault ⟨.noField key.text, some collection.line⟩) m := by
  generalize hv : visitExpr k (room + 3) (.field collection key) m0 = v at visited
  obtain ⟨before, after, hcourse⟩ := visited.course_infix
  refine ⟨before, after, hcourse.symm, ?_⟩
  have heval : (Expr.field collection key).eval limits (room + 3) m0 =
      Run.field collection key.text (.record i) m := by
    rw [Expr.eval, bind_of_ok hrecord]
  have hafter : v.after limits = m := by
    subst hv
    change stateAfter ((Expr.field collection key).eval limits (room + 3) m0) = m
    rw [heval]
    change stateAfter ((match (m.heap.record i).get? key.text with
      | some w => pure w
      | none => Run.fail (.noField key.text) collection.line : Run Value) m) = m
    cases (m.heap.record i).get? key.text <;> rfl
  -- The end of the read is the last moment of its visit.
  have hend : ∃ front, v.course limits = front ++ [⟨v.ownWrites limits, v.after limits⟩] :=
    ⟨_, v.course_eq limits⟩
  obtain ⟨front, hfront⟩ := hend
  rw [hfront, ← List.append_assoc] at hcourse ⊢
  rw [List.append_assoc _ [_]] at hcourse
  have hrecorded := record_of_course hcourse.symm i
  rw [hafter] at hrecorded
  rw [heval, hafter]
  exact field_of_record (Heap.holds_of_record hrecorded)

/-- A later write moves no key. -/
theorem names_prefix_of_course
    (h : sessionCourse limits (.start input clock) programs = before ++ b :: after) {b' : Moment}
    (hb' : b' ∈ after) (i : Nat) :
    (b.machine.heap.record i).names <+: (b'.machine.heap.record i).names := by
  obtain ⟨between, rest, rfl⟩ := List.append_of_mem hb'
  have hlater : sessionCourse limits (.start input clock) programs =
      (before ++ b :: between) ++ b' :: rest := by
    rw [h, List.append_assoc, List.cons_append]
  have hwrites : writesOf ((before ++ b :: between) ++ [b']) =
      writesOf (before ++ [b]) ++ writesOf (between ++ [b']) := by
    simp [writesOf]
  rw [record_of_course h, record_of_course hlater, hwrites, putsOn_append, Table.putAll_append]
  exact Table.names_prefix _ _

/-- Records are maps in the order of insertion. At every moment of a session, however it came there,
a record has the keys that were written to it, in the order of their first writes, each with the
value that was written last; no later moment moves a key. Its text lists the keys in this order, and
whether it equals another record does not depend on the order. Each field that is read has the value
that was written last, and a key that was never written is missed and changes nothing. Each literal
evaluates and writes all of its entries. -/
theorem records_keep_the_order_of_their_first_writes (limits : Limits) (input : String)
    (clock : Nat) (programs : List (List Stmt)) :
    (∀ before b after, sessionCourse limits (.start input clock) programs = before ++ b :: after →
      let puts := fun i => putsOn i (writesOf (before ++ [b]))
      ∀ i, b.machine.heap.Holds i (puts i) ∧
        (∀ j, b.machine.heap.Compares i j (puts i) (puts j)) ∧
        ∀ b' ∈ after, (b.machine.heap.record i).names <+: (b'.machine.heap.record i).names) ∧
    (∀ k room i collection key m0 m,
      let read := visitExpr k (room + 3) (.field collection key) m0
      SessionVisit limits (.start input clock) programs read →
      collection.eval limits room m0 = .ok (.record i) m →
      ∃ before after, sessionCourse limits (.start input clock) programs =
          before ++ read.course limits ++ after ∧
        (Expr.field collection key).eval limits (room + 3) m0 =
          match lastPut (putsOn i (writesOf (before ++ read.course limits))) key.text with
          | some v => .ok v m
          | none => .error (.fault ⟨.noField key.text, some collection.line⟩) m) ∧
    ∀ k room line entries m0 v m, (Expr.record line entries).eval limits (room + 3) m0 = .ok v m →
      let literal := visitExpr k (room + 3) (.record line entries) m0
      (literal.opens limits).length = entries.length ∧
        (literal.ownWrites limits).map Write.key = entries.map (·.1.text) ∧
        ∃ i, v = .record i ∧ ∀ w ∈ literal.ownWrites limits, w.record = i := by
  refine ⟨fun before b after h i => ⟨?_, fun j => ?_, fun b' hb' => ?_⟩, ?_, ?_⟩
  · exact Heap.holds_of_record (record_of_course h i)
  · exact Heap.compares_of_record (record_of_course h i) (record_of_course h j)
  · exact names_prefix_of_course h hb' i
  · intro k room i collection key m0 m read visited hrecord
    exact field_of_session visited hrecord
  · intro k room line entries m0 v m h
    exact literal_writes h

end Sessions

/-- A repeated key of a literal keeps its first place and gets its last value. -/
example : (runOn .small (.start "" 0) [.print 1 (.record 1 [(⟨"b", 1⟩, .atom ⟨.nil, "nil", 1⟩),
    (⟨"a", 1⟩, .list 1 []), (⟨"b", 1⟩, .atom ⟨.string, "last", 1⟩)])]).2.output =
    "\x7bb:last, a:[]\x7d\n" := by decide +kernel

/-! ## Where the order shows -/

section Loops

variable {h : Heap} {l i j : Nat}

/-- The comparison of a list that holds nothing but itself finds no end. -/
theorem same?_of_loop (hlist : h.list l = #[.list l]) (room : Nat) :
    (Value.list l).same? h room (.list l) = none := by
  induction room using Nat.strongRecOn with
  | ind room ih =>
    match room with
    | 0 | 1 | 2 => rfl
    | room + 3 =>
      simp only [Value.same?, sameElements, hlist, allSame, ih room (by omega)]
      rfl

/-- The comparison of two records by what stands in them. -/
theorem same?_of_entries {fields fields' : List (String × Value)}
    (hi : (h.record i).entries = fields) (hj : (h.record j).entries = fields') (room : Nat) :
    (Value.record i).same? h (room + 3) (.record j) =
      if (fields.map Prod.fst).length = (fields'.map Prod.fst).length &&
          (fields.map Prod.fst).all fun key => (findEntry key fields').isSome then
        allSame (Value.same? h room) (fields.map (·.2))
          ((fields.map Prod.fst).filterMap (findEntry · fields'))
      else some false := by
  subst hi hj
  rfl

/-- A loop under the first key is looked into before the difference under the second one. -/
theorem same?_loop_first (hlist : h.list l = #[.list l])
    (hi : (h.record i).entries = [("x", .list l), ("y", .bool true)])
    (hj : (h.record j).entries = [("x", .list l), ("y", .bool false)]) (room : Nat) :
    (Value.record i).same? h room (.record j) = none := by
  match room with
  | 0 | 1 | 2 => rfl
  | room + 3 =>
    rw [same?_of_entries hi hj]
    change allSame (Value.same? h room) [.list l, .bool true] [.list l, .bool false] = none
    simp only [allSame, same?_of_loop hlist]

/-- A difference under the first key is found before the loop under the second one. -/
theorem same?_loop_last (hi : (h.record i).entries = [("y", .bool true), ("x", .list l)])
    (hj : (h.record j).entries = [("x", .list l), ("y", .bool false)]) (room : Nat) :
    (Value.record i).same? h (room + 3) (.record j) = some false := by
  rw [same?_of_entries hi hj]
  change allSame (Value.same? h room) [.bool true, .list l] [.bool false, .list l] = some false
  simp only [allSame, Value.same?]
  rfl

theorem get?_of_swapped (hi : (h.record i).entries = [("y", .bool true), ("x", .list l)])
    (hj : (h.record j).entries = [("x", .list l), ("y", .bool true)]) (key : String) :
    (h.record i).get? key = (h.record j).get? key := by
  unfold Table.get?
  rw [hi, hj]
  by_cases hx : "x" = key
  · subst hx
    rfl
  · simp only [findEntry, if_neg hx]

end Loops

/-- A program with a list that contains itself. Of three records with this list, the last has the
fields of the first in another order, and the one between them differs in its other field. -/
def comparingLoops : List Stmt :=
  let name (text : String) : Expr := .atom ⟨.name, text, 1⟩
  let truth (text : String) : Expr := .atom ⟨.boolean, text, 1⟩
  [.make 1 ⟨"a", 1⟩ (some (.list 1 [])),
    .expression 1 (.call (name "push") [name "a", name "a"]),
    .make 1 ⟨"r", 1⟩ (some (.record 1 [(⟨"x", 1⟩, name "a"), (⟨"y", 1⟩, truth "true")])),
    .make 1 ⟨"s", 1⟩ (some (.record 1 [(⟨"x", 1⟩, name "a"), (⟨"y", 1⟩, truth "false")])),
    .make 1 ⟨"t", 1⟩ (some (.record 1 [(⟨"y", 1⟩, truth "true"), (⟨"x", 1⟩, name "a")])),
    .print 2 (.binary (name "t") ⟨.equal, "==", 2⟩ (name "s")),
    .print 3 (.binary (name "r") ⟨.equal, "==", 3⟩ (name "s"))]

/-- Fields are compared in the order of the left record, up to the first difference. So the order can
decide whether two records are found to differ, or the comparison is nested too deeply. -/
theorem the_order_of_keys_can_hide_a_difference :
    let m := (runOn .small (.start "" 0) comparingLoops).2
    (∀ key, (m.heap.record 2).get? key = (m.heap.record 0).get? key) ∧
      (∀ room, (Value.record 2).same? m.heap (room + 3) (.record 1) = some false) ∧
      (∀ room, (Value.record 0).same? m.heap room (.record 1) = none) ∧
      m.output = "false\n" ∧
      (runOn .small (.start "" 0) comparingLoops).1 = some (.fault ⟨.tooDeep, some 3⟩) := by
  intro m
  have hlist : m.heap.list 0 = #[.list 0] := by decide +kernel
  have hr : (m.heap.record 0).entries = [("x", .list 0), ("y", .bool true)] := by decide +kernel
  have hs : (m.heap.record 1).entries = [("x", .list 0), ("y", .bool false)] := by decide +kernel
  have ht : (m.heap.record 2).entries = [("y", .bool true), ("x", .list 0)] := by decide +kernel
  exact ⟨get?_of_swapped ht hr, same?_loop_last ht hs, same?_loop_first hlist hr hs,
    by decide +kernel, by decide +kernel⟩

end FunkLang
