-- What can be reached from what. A scope leads to what its names stand for and
-- to the scope around it, a function to the scope it was declared in, and a list,
-- an iter or a record to its parts. A set of these that leads nowhere else stays
-- such a set, whatever is changed in it and whatever is made new.
import FunkLang.Proofs.Frame
import Mathlib.Logic.Relation

namespace FunkLang

/-! ## Cells -/

/-- A scope, or an object of the heap. -/
inductive Cell
  | scope (at_ : Nat)
  | function (at_ : Nat)
  | list (at_ : Nat)
  | iter (at_ : Nat)
  | record (at_ : Nat)
deriving DecidableEq, Repr

/-- The object that a value is, if it is one. -/
def Value.cell? : Value → Option Cell
  | function i => some (.function i)
  | list i => some (.list i)
  | iter i => some (.iter i)
  | record i => some (.record i)
  | _ => none

namespace Machine

/-- A cell is there. -/
def Has (m : Machine) : Cell → Prop
  | .scope s => s < m.opened
  | .function i => i < m.heap.functions.size
  | .list i => i < m.heap.lists.size
  | .iter i => i < m.heap.iters.size
  | .record i => i < m.heap.records.size

/-- A value is in a cell. -/
def Holds (m : Machine) : Cell → Value → Prop
  | .scope s, v => ∃ name, (m.scopes.table s).get? name = some v
  | .function _, _ => False
  | .list i, v => v ∈ m.heap.list i
  | .iter i, v => v ∈ m.heap.iter i
  | .record i, v => ∃ key, (m.heap.record i).get? key = some v

/-- A cell stands in a scope: a scope in the one around it, a function in that of its
declaration. -/
def StandsIn (m : Machine) : Cell → Nat → Prop
  | .scope s, p => m.scopes.parent? s = some p
  | .function i, p => (m.heap.function i).scope = p
  | _, _ => False

/-- One step from a cell to another one. -/
def LeadsTo (m : Machine) (c d : Cell) : Prop :=
  (∃ v, m.Holds c v ∧ v.cell? = some d) ∨ ∃ p, m.StandsIn c p ∧ d = .scope p

/-- A cell can be reached from a value. -/
def Reaches (m : Machine) (v : Value) (d : Cell) : Prop :=
  ∃ c, v.cell? = some c ∧ Relation.ReflTransGen m.LeadsTo c d

/-- A cell has the same contents on both machines: a scope the same names, with the same values,
and the same scope around it. -/
def SameIn (m m' : Machine) : Cell → Prop
  | .scope s =>
    m'.scopes.table s = m.scopes.table s ∧ m'.scopes.parent? s = m.scopes.parent? s
  | .function i => m'.heap.function i = m.heap.function i
  | .list i => m'.heap.list i = m.heap.list i
  | .iter i => m'.heap.iter i = m.heap.iter i
  | .record i => m'.heap.record i = m.heap.record i

theorem SameIn.refl (m : Machine) (c : Cell) : m.SameIn m c := by
  cases c with
  | scope s => exact ⟨rfl, rfl⟩
  | _ => rfl

variable {m m1 m2 : Machine} {c : Cell}

theorem SameIn.trans (h : m.SameIn m1 c) (h' : m1.SameIn m2 c) : m.SameIn m2 c := by
  cases c with
  | scope s => exact ⟨h'.1.trans h.1, h'.2.trans h.2⟩
  | _ => exact Eq.trans h' h

theorem SameIn.holds (h : m.SameIn m1 c) {v : Value} : m1.Holds c v ↔ m.Holds c v := by
  cases c with
  | scope s => simp only [Holds, h.1]
  | function i => exact Iff.rfl
  | _ =>
    simp only [SameIn] at h
    simp only [Holds, h]

theorem SameIn.standsIn (h : m.SameIn m1 c) {p : Nat} : m1.StandsIn c p ↔ m.StandsIn c p := by
  cases c with
  | scope s => simp only [StandsIn, h.2]
  | function i =>
    simp only [SameIn] at h
    simp only [StandsIn, h]
  | _ => exact Iff.rfl

end Machine

/-! ## Sealed sets -/

/-- A cell is there, and belongs to `P`. -/
def Inside (P : Cell → Prop) (m : Machine) (c : Cell) : Prop := P c ∧ m.Has c

/-- If a value is an object, it is one inside `P`. -/
def Owned (P : Cell → Prop) (m : Machine) (v : Value) : Prop :=
  ∀ c, v.cell? = some c → Inside P m c

/-- What a cell leads to is inside `P`. -/
structure LeadsInside (P : Cell → Prop) (m : Machine) (c : Cell) : Prop where
  held : ∀ v, m.Holds c v → Owned P m v
  around : ∀ p, m.StandsIn c p → Inside P m (.scope p)

/-- No cell inside `P` leads out of it, and what is not there yet will belong to it. -/
structure Sealed (P : Cell → Prop) (m : Machine) : Prop where
  closed : ∀ c, Inside P m c → LeadsInside P m c
  fresh : ∀ c, ¬ m.Has c → P c

/-- From `m` to `m'` only cells of `P` have changed. -/
structure Grown (P : Cell → Prop) (m m' : Machine) : Prop where
  isSealed : Sealed P m'
  grows : ∀ c, m.Has c → m'.Has c
  same : ∀ c, ¬ P c → m.SameIn m' c

variable {P : Cell → Prop} {m m' m1 m2 : Machine}

theorem Inside.mono {c : Cell} (h : Inside P m c) (grows : ∀ c, m.Has c → m1.Has c) :
    Inside P m1 c := ⟨h.1, grows c h.2⟩

theorem Owned.mono {v : Value} (h : Owned P m v) (grows : ∀ c, m.Has c → m1.Has c) :
    Owned P m1 v := fun c hc => (h c hc).mono grows

theorem Owned.inside {v : Value} {c : Cell} (h : Owned P m v) (hc : v.cell? = some c) :
    Inside P m c := h c hc

theorem Inside.owned {v : Value} {c : Cell} (h : Inside P m c) (hv : v.cell? = some c) :
    Owned P m v := fun d hd => by
  rw [hv] at hd
  cases hd
  exact h

theorem owned_of_plain {v : Value} (h : v.cell? = none) : Owned P m v := fun c hc => by
  rw [h] at hc
  cases hc

theorem LeadsInside.mono {c : Cell} (h : LeadsInside P m c) (hsame : m.SameIn m1 c)
    (grows : ∀ c, m.Has c → m1.Has c) : LeadsInside P m1 c where
  held v hv := (h.held v (hsame.holds.mp hv)).mono grows
  around p hp := (h.around p (hsame.standsIn.mp hp)).mono grows

theorem Grown.refl (h : Sealed P m) : Grown P m m := ⟨h, fun _ hc => hc, fun c _ => .refl m c⟩

theorem Grown.trans (h : Grown P m m1) (h' : Grown P m1 m2) : Grown P m m2 where
  isSealed := h'.isSealed
  grows c hc := h'.grows c (h.grows c hc)
  same c hc := (h.same c hc).trans (h'.same c hc)

/-- Each cell is as it was, or it belongs to `P` and leads to what is inside `P`. -/
theorem Sealed.grown (h : Sealed P m) (grows : ∀ c, m.Has c → m'.Has c)
    (each : ∀ c, (m.SameIn m' c ∧ (m'.Has c → m.Has c)) ∨ P c ∧ LeadsInside P m' c) :
    Grown P m m' where
  isSealed := {
    closed := fun c hc => by
      rcases each c with ⟨hsame, hhas⟩ | ⟨_, hleads⟩
      · exact (h.closed c ⟨hc.1, hhas hc.2⟩).mono hsame grows
      · exact hleads
    fresh := fun c hc => h.fresh c fun hm => hc (grows c hm) }
  grows := grows
  same := fun c hc => by
    rcases each c with ⟨hsame, _⟩ | ⟨hP, _⟩
    · exact hsame
    · exact absurd hP hc

/-- A change of the machine that touches no cell. -/
theorem Sealed.unchanged (h : Sealed P m) (hscopes : m'.scopes = m.scopes)
    (hheap : m'.heap = m.heap) : Grown P m m' := by
  have has : ∀ c, m'.Has c ↔ m.Has c := by
    intro c
    cases c <;> simp only [Machine.Has, Machine.opened, hscopes, hheap]
  refine h.grown (fun c hc => (has c).mpr hc) fun c => Or.inl ⟨?_, (has c).mp⟩
  cases c <;> simp only [Machine.SameIn, hscopes, hheap, and_self]

/-- A value inside `P` is put into a cell inside `P`, and no other cell changes. -/
theorem Sealed.putIn (h : Sealed P m) {c : Cell} (hc : Inside P m c) {v : Value} (hv : Owned P m v)
    (has : ∀ d, m'.Has d ↔ m.Has d) (others : ∀ d, d ≠ c → m.SameIn m' d)
    (held : ∀ w, m'.Holds c w → m.Holds c w ∨ w = v)
    (around : ∀ p, m'.StandsIn c p → m.StandsIn c p) : Grown P m m' := by
  have grows : ∀ d, m.Has d → m'.Has d := fun d => (has d).mpr
  have before := h.closed c hc
  refine h.grown grows fun d => ?_
  by_cases hd : d = c
  · subst hd
    refine Or.inr ⟨hc.1, ⟨fun w hw => ?_, fun p hp => (before.around p (around p hp)).mono grows⟩⟩
    rcases held w hw with hw | rfl
    · exact (before.held w hw).mono grows
    · exact hv.mono grows
  · exact Or.inl ⟨others d hd, (has d).mp⟩

/-- A cell is made that leads to what is inside `P`, and no other cell changes. The new cell is
inside `P` too. -/
theorem Sealed.made (h : Sealed P m) {c : Cell} (hnew : ¬ m.Has c)
    (has : ∀ d, m'.Has d ↔ m.Has d ∨ d = c) (others : ∀ d, d ≠ c → m.SameIn m' d)
    (held : ∀ w, m'.Holds c w → Owned P m w)
    (around : ∀ p, m'.StandsIn c p → Inside P m (.scope p)) :
    Grown P m m' ∧ Inside P m' c := by
  have grows : ∀ d, m.Has d → m'.Has d := fun d hd => (has d).mpr (Or.inl hd)
  have hc : P c := h.fresh c hnew
  refine ⟨h.grown grows fun d => ?_, hc, (has c).mpr (Or.inr rfl)⟩
  by_cases hd : d = c
  · subst hd
    exact Or.inr ⟨hc, fun w hw => (held w hw).mono grows, fun p hp => (around p hp).mono grows⟩
  · refine Or.inl ⟨others d hd, fun hin => ?_⟩
    exact ((has d).mp hin).resolve_right hd

/-! ## Scopes -/

/-- A name is set in a scope inside `P`. -/
theorem Sealed.declare (h : Sealed P m) {s : Nat} (hs : Inside P m (.scope s)) {v : Value}
    (hv : Owned P m v) (name : String) :
    Grown P m { m with scopes := m.scopes.declare s name v } := by
  refine h.putIn hs hv (fun d => ?_) (fun d hd => ?_) ?_ fun p hp => ?_
  · cases d <;> simp [Machine.Has, Machine.opened]
  · cases d with
    | scope i =>
      have hi : i ≠ s := fun his => hd (congrArg _ his)
      exact ⟨ScopeTree.table_declare_of_ne hi, ScopeTree.parent?_declare _ _ _ _ _⟩
    | _ => rfl
  · rintro w ⟨x, hx⟩
    change ((m.scopes.declare s name v).table s).get? x = some w at hx
    rw [ScopeTree.get?_table_declare hs.2] at hx
    split at hx
    · exact Or.inr (Option.some.inj hx).symm
    · exact Or.inl ⟨x, hx⟩
  · exact (ScopeTree.parent?_declare _ _ _ _ _).symm.trans hp

theorem Sealed.declareAll (h : Sealed P m) {s : Nat} (hs : Inside P m (.scope s))
    {bindings : List (String × Value)} (hbindings : ∀ b ∈ bindings, Owned P m b.2) :
    Grown P m { m with scopes := m.scopes.declareAll s bindings } := by
  induction bindings generalizing m with
  | nil => exact .refl h
  | cons b rest ih =>
    rw [List.forall_mem_cons] at hbindings
    have hfirst := h.declare hs hbindings.1 b.1
    exact hfirst.trans (ih hfirst.isSealed (hs.mono hfirst.grows) fun b hb =>
      (hbindings.2 b hb).mono hfirst.grows)

/-- A scope is opened inside one that is inside `P`. -/
theorem Sealed.open (h : Sealed P m) {parent : Nat} (hparent : Inside P m (.scope parent)) :
    Grown P m { m with scopes := (m.scopes.enclose parent).1 } ∧
      Inside P { m with scopes := (m.scopes.enclose parent).1 } (.scope m.opened) := by
  refine h.made (Nat.lt_irrefl _) (fun d => ?_) (fun d hd => ?_) ?_ fun p hp => ?_
  · cases d <;> simp [Machine.Has, Machine.opened]
    omega
  · cases d with
    | scope i =>
      have hi : i ≠ m.opened := fun hi => hd (congrArg _ hi)
      exact ⟨ScopeTree.table_enclose _ _ _, (ScopeTree.parent?_enclose _ _ _).trans (if_neg hi)⟩
    | _ => rfl
  · rintro w ⟨x, hx⟩
    change ((m.scopes.enclose parent).1.table _).get? x = some w at hx
    have hempty : m.scopes.table m.opened = .empty := ScopeTree.table_of_size_le (Nat.le_refl _)
    rw [ScopeTree.table_enclose, hempty] at hx
    cases hx
  · change (m.scopes.enclose parent).1.parent? _ = some p at hp
    have hone : (m.scopes.enclose parent).1.parent? m.opened = some parent :=
      (ScopeTree.parent?_enclose _ _ _).trans (if_pos rfl)
    rw [hone] at hp
    cases hp
    exact hparent

theorem Sealed.enclose (h : Sealed P m) {parent : Nat} (hparent : Inside P m (.scope parent))
    {bindings : List (String × Value)} (hbindings : ∀ b ∈ bindings, Owned P m b.2) :
    Grown P m (m.enclose parent bindings) := by
  obtain ⟨hopen, hnew⟩ := h.open hparent
  have hall := hopen.isSealed.declareAll hnew fun b hb => (hbindings b hb).mono hopen.grows
  exact (hopen.trans hall).trans (hall.isSealed.unchanged rfl rfl)

/-! ## Objects -/

theorem Table.of_get?_putAll {α : Type} {t : Table α} {entries : List (String × α)} {x : String}
    {value : α} (h : (t.putAll entries).get? x = some value) :
    t.get? x = some value ∨ ∃ entry ∈ entries, entry.2 = value := by
  induction entries generalizing t with
  | nil => exact Or.inl h
  | cons entry rest ih =>
    change ((t.put entry.1 entry.2).putAll rest).get? x = some value at h
    rcases ih h with h | ⟨b, hb, hvalue⟩
    · rw [Table.get?_put] at h
      split at h
      · exact Or.inr ⟨entry, List.mem_cons_self, Option.some.inj h⟩
      · exact Or.inl h
    · exact Or.inr ⟨b, List.mem_cons_of_mem _ hb, hvalue⟩

namespace Heap

variable {h : Heap} {v w : Value} {i j : Nat}

theorem list_addList (elements : Array Value) :
    (h.addList elements).2.list i = if i = h.lists.size then elements else h.list i := by
  unfold list addList
  simp only [Array.getElem?_push]
  split <;> rfl

theorem iter_addIter (elements : Array Value) :
    (h.addIter elements).2.iter i = if i = h.iters.size then elements else h.iter i := by
  unfold iter addIter
  simp only [Array.getElem?_push]
  split <;> rfl

theorem record_addRecord (fields : Table Value) :
    (h.addRecord fields).2.record i = if i = h.records.size then fields else h.record i := by
  unfold record addRecord
  simp only [Array.getElem?_push]
  split <;> rfl

theorem list_push_of_ne (hne : i ≠ j) : (h.push j v).list i = h.list i := by
  unfold list push
  simp only [Array.getElem?_modify, if_neg (Ne.symm hne)]

theorem of_mem_push (hw : w ∈ (h.push j v).list i) : w ∈ h.list i ∨ w = v := by
  by_cases hne : i = j
  · subst hne
    unfold list push at hw
    simp only [Array.getElem?_modify, if_true] at hw
    unfold list
    cases hi : h.lists[i]? with
    | none => simp [hi] at hw
    | some elements => simpa [hi] using hw
  · rw [list_push_of_ne hne] at hw
    exact Or.inl hw

theorem list_setElement_of_ne {slot : Nat} (hne : i ≠ j) :
    (h.setElement j slot v).list i = h.list i := by
  unfold list setElement
  simp only [Array.getElem?_modify, if_neg (Ne.symm hne)]

theorem of_mem_setElement {slot : Nat} (hw : w ∈ (h.setElement j slot v).list i) :
    w ∈ h.list i ∨ w = v := by
  by_cases hne : i = j
  · subst hne
    unfold list setElement at hw
    simp only [Array.getElem?_modify, if_true] at hw
    unfold list
    cases hi : h.lists[i]? with
    | none => simp [hi] at hw
    | some elements =>
      rw [hi] at hw
      exact Array.mem_or_eq_of_mem_setIfInBounds hw
  · rw [list_setElement_of_ne hne] at hw
    exact Or.inl hw

theorem record_setField_of_ne {key : String} (hne : i ≠ j) :
    (h.setField j key v).record i = h.record i := by
  unfold record setField
  simp only [Array.getElem?_modify, if_neg (Ne.symm hne)]

theorem of_get?_setField {key x : String} (hw : ((h.setField j key v).record i).get? x = some w) :
    (h.record i).get? x = some w ∨ w = v := by
  by_cases hne : i = j
  · subst hne
    unfold record setField at hw
    simp only [Array.getElem?_modify, if_true] at hw
    unfold record
    cases hi : h.records[i]? with
    | none =>
      rw [hi] at hw
      exact Or.inl hw
    | some fields =>
      rw [hi] at hw
      simp only [Option.map_some, Option.getD_some, Table.get?_put] at hw ⊢
      split at hw
      · cases hw
        exact Or.inr rfl
      · exact Or.inl hw
  · rw [record_setField_of_ne hne] at hw
    exact Or.inl hw

end Heap

/-- A function is made that stands in a scope inside `P`. It is inside `P` itself. -/
theorem Sealed.addFunction (h : Sealed P m) {f : Closure} (hf : Inside P m (.scope f.scope)) :
    Grown P m { m with heap := (m.heap.addFunction f).2 } ∧
      Owned P { m with heap := (m.heap.addFunction f).2 } (m.heap.addFunction f).1 := by
  refine (h.made (c := .function m.heap.functions.size) (Nat.lt_irrefl _) (fun d => ?_)
    (fun d hd => ?_) (fun v hv => hv.elim) fun p hp => ?_).imp_right fun hin => hin.owned rfl
  · cases d <;> simp [Machine.Has, Machine.opened, Heap.addFunction]
    omega
  · cases d with
    | function i =>
      have hi : i ≠ m.heap.functions.size := fun hi => hd (congrArg _ hi)
      exact (Heap.function_addFunction _ _ _).trans (if_neg hi)
    | scope s => exact ⟨rfl, rfl⟩
    | _ => rfl
  · change ((m.heap.addFunction f).2.function _).scope = p at hp
    rw [Heap.function_addFunction, if_pos rfl] at hp
    subst hp
    exact hf

/-- A list of elements that are inside `P` is made. -/
theorem Sealed.addList (h : Sealed P m) {elements : Array Value}
    (helements : ∀ v ∈ elements, Owned P m v) :
    Grown P m { m with heap := (m.heap.addList elements).2 } ∧
      Owned P { m with heap := (m.heap.addList elements).2 } (m.heap.addList elements).1 := by
  refine (h.made (c := .list m.heap.lists.size) (Nat.lt_irrefl _) (fun d => ?_) (fun d hd => ?_)
    (fun v hv => ?_) fun p hp => hp.elim).imp_right fun hin => hin.owned rfl
  · cases d <;> simp [Machine.Has, Machine.opened, Heap.addList]
    omega
  · cases d with
    | list i =>
      have hi : i ≠ m.heap.lists.size := fun hi => hd (congrArg _ hi)
      exact (Heap.list_addList _).trans (if_neg hi)
    | scope s => exact ⟨rfl, rfl⟩
    | _ => rfl
  · change v ∈ (m.heap.addList elements).2.list _ at hv
    rw [Heap.list_addList, if_pos rfl] at hv
    exact helements v hv

/-- An iter of elements that are inside `P` is made. -/
theorem Sealed.addIter (h : Sealed P m) {elements : Array Value}
    (helements : ∀ v ∈ elements, Owned P m v) :
    Grown P m { m with heap := (m.heap.addIter elements).2 } ∧
      Owned P { m with heap := (m.heap.addIter elements).2 } (m.heap.addIter elements).1 := by
  refine (h.made (c := .iter m.heap.iters.size) (Nat.lt_irrefl _) (fun d => ?_) (fun d hd => ?_)
    (fun v hv => ?_) fun p hp => hp.elim).imp_right fun hin => hin.owned rfl
  · cases d <;> simp [Machine.Has, Machine.opened, Heap.addIter]
    omega
  · cases d with
    | iter i =>
      have hi : i ≠ m.heap.iters.size := fun hi => hd (congrArg _ hi)
      exact (Heap.iter_addIter _).trans (if_neg hi)
    | scope s => exact ⟨rfl, rfl⟩
    | _ => rfl
  · change v ∈ (m.heap.addIter elements).2.iter _ at hv
    rw [Heap.iter_addIter, if_pos rfl] at hv
    exact helements v hv

/-- A record of fields that are inside `P` is made. -/
theorem Sealed.addRecord (h : Sealed P m) {fields : Table Value}
    (hfields : ∀ key v, fields.get? key = some v → Owned P m v) :
    Grown P m { m with heap := (m.heap.addRecord fields).2 } ∧
      Owned P { m with heap := (m.heap.addRecord fields).2 } (m.heap.addRecord fields).1 := by
  refine (h.made (c := .record m.heap.records.size) (Nat.lt_irrefl _) (fun d => ?_) (fun d hd => ?_)
    ?_ fun p hp => hp.elim).imp_right fun hin => hin.owned rfl
  · cases d <;> simp [Machine.Has, Machine.opened, Heap.addRecord]
    omega
  · cases d with
    | record i =>
      have hi : i ≠ m.heap.records.size := fun hi => hd (congrArg _ hi)
      exact (Heap.record_addRecord _).trans (if_neg hi)
    | scope s => exact ⟨rfl, rfl⟩
    | _ => rfl
  · rintro v ⟨key, hkey⟩
    change ((m.heap.addRecord fields).2.record _).get? key = some v at hkey
    rw [Heap.record_addRecord, if_pos rfl] at hkey
    exact hfields key v hkey

/-- A value that is inside `P` is appended to a list of `P`. -/
theorem Sealed.push (h : Sealed P m) {i : Nat} (hi : Inside P m (.list i)) {v : Value}
    (hv : Owned P m v) :
    Grown P m { m with heap := m.heap.push i v } := by
  refine h.putIn hi hv (fun d => ?_) (fun d hd => ?_) (fun w => Heap.of_mem_push) fun p hp => hp
  · cases d <;> simp [Machine.Has, Machine.opened, Heap.push]
  · cases d with
    | list j => exact Heap.list_push_of_ne fun hji => hd (congrArg _ hji)
    | scope s => exact ⟨rfl, rfl⟩
    | _ => rfl

/-- An element of a list of `P` is replaced by a value that is inside `P`. -/
theorem Sealed.setElement (h : Sealed P m) {i : Nat} (hi : Inside P m (.list i)) {v : Value}
    (hv : Owned P m v) (slot : Nat) :
    Grown P m { m with heap := m.heap.setElement i slot v } := by
  refine h.putIn hi hv (fun d => ?_) (fun d hd => ?_) (fun w => Heap.of_mem_setElement)
    fun p hp => hp
  · cases d <;> simp [Machine.Has, Machine.opened, Heap.setElement]
  · cases d with
    | list j => exact Heap.list_setElement_of_ne fun hji => hd (congrArg _ hji)
    | scope s => exact ⟨rfl, rfl⟩
    | _ => rfl

/-- A field of a record of `P` is set to a value that is inside `P`. -/
theorem Sealed.setField (h : Sealed P m) {i : Nat} (hi : Inside P m (.record i)) {v : Value}
    (hv : Owned P m v) (key : String) :
    Grown P m { m with heap := m.heap.setField i key v } := by
  refine h.putIn hi hv (fun d => ?_) (fun d hd => ?_) ?_ fun p hp => hp
  · cases d <;> simp [Machine.Has, Machine.opened, Heap.setField]
  · cases d with
    | record j => exact Heap.record_setField_of_ne fun hji => hd (congrArg _ hji)
    | scope s => exact ⟨rfl, rfl⟩
    | _ => rfl
  · rintro w ⟨x, hx⟩
    exact (Heap.of_get?_setField hx).imp_left fun hx => ⟨x, hx⟩

end FunkLang
