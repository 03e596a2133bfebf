-- A `with` is a block with a declaration. The block evaluates the subject in its own scope, which
-- is blank then, and the `with` in the scope around it; both then run the body in a scope inside of
-- that one, with the name. So they come to the same, in a check and in a run.
import FunkLang.Proofs.NotedShadowing
import FunkLang.Proofs.Parts
import FunkLang.Proofs.SettledScopes
import FunkLang.Proofs.WellFormedMachines

namespace FunkLang

open Pairing

/-! ## Statements -/

/-- The block of a declaration and a statement. -/
def Stmt.declaring (blockLine makeLine : Int) (x : Name) (e : Expr) (s : Stmt) : Stmt :=
  .block blockLine [.make makeLine x (some e), s]

section Blocks

variable {limits : Limits} {line blockLine makeLine : Int} {x : Name} {e : Expr} {s : Stmt}
  {room room' : Nat} {m : Machine}

/-! ## Checks -/

/-- A body that is no function is checked after the declaration. -/
theorem list_declaring (plain : s.isDeclaration = false) (check : Stmt → Check Unit) :
    Check.list check [.make makeLine x (some e), s] =
      (do check (.make makeLine x (some e)); check s) := by
  have hnone : functionNames [.make makeLine x (some e), s] = [] := by
    cases s <;> first | rfl | cases plain
  unfold Check.list
  rw [hnone]
  change (check _ >>= fun _ => check s >>= fun _ => pure PUnit.unit) = _
  simp only [bind_pure_unit]

theorem check_declaring (plain : s.isDeclaration = false) (room : Nat) (c : Context) :
    (Stmt.declaring blockLine makeLine x e s).check (room + 9) c =
      recast id id Context.outer ((do
        let t ← e.check room
        Check.noteShadowing x.text makeLine
        Check.declare x.text t
        s.check (room + 3)) c.inner) := by
  unfold Stmt.declaring
  simp only [Stmt.check]
  rw [inScope_eq_recast, list_declaring plain]
  simp only [Stmt.check, bind_assoc]

theorem check_declaring_short (plain : s.isDeclaration = false) (hroom : room < 9) (c : Context) :
    EndsShort scopedChecks.short
      ((Stmt.declaring blockLine makeLine x e s).check room c) := by
  unfold Stmt.declaring
  by_cases hblock : room < 6
  · rw [Stmt.check_shallow hblock]
    exact rfl
  · obtain ⟨r, rfl⟩ : ∃ r, room = r + 6 := ⟨room - 6, by omega⟩
    have hmake : (Stmt.make makeLine x (some e)).check r = throw ⟨.tooDeep, none⟩ :=
      Stmt.check_shallow (show r < 3 by omega)
    simp only [Stmt.check]
    rw [inScope_eq_recast, list_declaring plain, hmake]
    exact rfl

/-- An expression is checked in a scope without names as it is outside of it. -/
theorem check_inner (e : Expr) (room room' : Nat) (c : Context) :
    e.check room' c.inner = recast id id Context.inner (e.check room c) ∨
      EndsShort scopedChecks.short (e.check room c) ∧ room < room' ∨
      EndsShort scopedChecks.short (e.check room' c.inner) ∧ room' < room := by
  have hend := sameCheck_expr 0 room e room' (false :: List.replicate c.scopes.length true) c
    c.inner ⟨.blank (padded_refl c.scopes), rfl⟩
  have eq_inner {shape : List Bool} {d d' : Context}
      (hshape : shape = false :: List.replicate c.scopes.length true)
      (hd : Padded shape d.scopes d'.scopes ∧ d.shadowed = d'.shadowed) : d' = d.inner := by
    obtain ⟨scopes', shadowed'⟩ := d'
    obtain ⟨hpadded, rfl⟩ : Padded shape d.scopes scopes' ∧ d.shadowed = shadowed' := hd
    rw [hshape] at hpadded
    cases hpadded with
    | blank hrest =>
      have hscopes := hrest.eq_of_replicate
      exact congrArg (fun scopes => Context.mk (.empty :: scopes) d.shadowed) hscopes
  generalize e.check room c = r at hend ⊢
  generalize e.check room' c.inner = r' at hend ⊢
  cases hend with
  | ok hgrows hd => exact .inl (congrArg _ (eq_inner hgrows hd))
  | error hgrows hd => exact .inl (congrArg _ (eq_inner hgrows hd))
  | left hshort hlt => exact .inr (.inl ⟨hshort, hlt⟩)
  | right hshort hcramped => exact .inr (.inr ⟨hshort, by unfold Cramped at hcramped; omega⟩)

/-- A statement is checked the same way with more room and with other notes, unless it is short of
room. -/
theorem scoped_check (formed : s.Formed) (room room' : Nat) {c c' : Context}
    (hc : c'.scopes = c.scopes) :
    scopedChecks.Even (room < room') (room' < room) () (s.check room c) (s.check room' c') := by
  have hnotes := Noteless.stmt room' s () c c' hc
  have hopen : OpenFor s (List.replicate c.scopes.length true) := fun _ => by
    cases c.scopes <;> exact nofun
  have hend := sameCheck_stmt 0 room s s 0 room' (braced_self 0 s) formed _ c c
    ⟨⟨padded_refl c.scopes, rfl⟩, hopen⟩
  generalize s.check room c = r at hend ⊢
  generalize s.check room' c = r1 at hend hnotes
  generalize s.check room' c' = r' at hnotes ⊢
  cases hend with
  | ok hgrows hd =>
    obtain rfl := hgrows
    rw [hd.1.1.context_eq hd.1.2] at hnotes
    exact hnotes.imp False.elim False.elim
  | error hgrows hd =>
    obtain rfl := hgrows
    rw [hd.1.1.context_eq hd.1.2] at hnotes
    exact hnotes.imp False.elim False.elim
  | left hshort hlt => exact .left hshort hlt
  | right hshort hcramped =>
    cases hnotes with
    | error => exact .right hshort (by unfold Cramped at hcramped; omega)
    | left _ h => exact h.elim
    | right _ h => exact h.elim

theorem noteShadowing_eq (name : String) (line : Int) (c : Context) :
    ∃ c', Check.noteShadowing name line c = .ok () c' ∧ c'.scopes = c.scopes := by
  change ∃ c', (if (c.get? name).isSome && !Builtin.isName name then _ else _ : Check Unit) c =
    .ok () c' ∧ _
  split
  · exact ⟨_, rfl, rfl⟩
  · exact ⟨c, rfl, rfl⟩

/-- A `with` is checked as the block is, where both have room to begin with. -/
theorem check_deep (formed : s.Formed) (plain : s.isDeclaration = false) (room room' : Nat)
    (c : Context) :
    scopedChecks.Even (room < room' + 4) (room' < room + 2) ()
      ((Stmt.with_ line e x s).check (room + 5) c)
      ((Stmt.declaring blockLine makeLine x e s).check (room' + 9) c) := by
  rw [check_declaring plain]
  simp only [Stmt.check]
  rcases check_inner e (room + 2) room' c with heq | ⟨hshort, hlt⟩ | ⟨hshort, hlt⟩
  · cases hvalue : e.check (room + 2) c with
    | error err d =>
      rw [hvalue] at heq
      rw [bind_of_error hvalue, bind_of_error heq]
      exact .error (scopedChecks.grows_refl ()) rfl
    | ok t d =>
      rw [hvalue] at heq
      obtain ⟨d', hnote, hscopes⟩ := noteShadowing_eq x.text makeLine d.inner
      rw [bind_of_ok hvalue, bind_of_ok heq, inScope_eq_recast]
      have hnamed : (d'.declare x.text t).scopes = (d.inner.declare x.text t).scopes :=
        congrArg (List.modifyHead _) hscopes
      have hbody := scoped_check formed room (room' + 3) hnamed
      change scopedChecks.Even _ _ _ (recast _ _ _ _) (recast _ _ _ ((do
        Check.noteShadowing x.text makeLine
        Check.declare x.text t
        s.check (room' + 3)) d.inner))
      rw [bind_of_ok hnote]
      exact (hbody.imp (fun _ => by omega) fun _ => by omega).recast (fun _ he => he)
        fun w d1 d1' _ hd => ⟨w, trivial, congrArg (List.drop 1) hd⟩
  · exact (hshort.bind _).onLeft (by omega)
  · exact ((hshort.bind _).recast _).onRight (by omega)

/-- A `with` is checked as the block is. -/
theorem check_with (formed : s.Formed) (plain : s.isDeclaration = false) (room room' : Nat)
    (c : Context) :
    scopedChecks.Even (room < room') (room' < room + 6) () ((Stmt.with_ line e x s).check room c)
      ((Stmt.declaring blockLine makeLine x e s).check room' c) := by
  have short (hroom : room < 5) :
      EndsShort scopedChecks.short ((Stmt.with_ line e x s).check room c) := by
    rw [Stmt.check_shallow hroom]
    exact rfl
  by_cases hroom' : room' < 9
  · by_cases hlt : room' < room + 6
    · exact (check_declaring_short plain hroom' c).onRight hlt
    · exact (short (by omega)).onLeft (by omega)
  · by_cases hroom : room < 5
    · exact (short hroom).onLeft (by omega)
    · obtain ⟨r, rfl⟩ : ∃ r, room = r + 5 := ⟨room - 5, by omega⟩
      obtain ⟨r', rfl⟩ : ∃ r', room' = r' + 9 := ⟨room' - 9, by omega⟩
      exact (check_deep formed plain r r' c).imp (by omega) (by omega)

/-! ## Runs -/

theorem exec_declaring (room : Nat) (m : Machine) :
    (Stmt.declaring blockLine makeLine x e s).exec limits (room + 7) m =
      recast id id (fun n => { n with scope := m.scope }) ((do
        let v ← e.eval limits room
        Run.declare x.text v
        s.exec limits (room + 3)) (m.enclose m.scope [])) := by
  have hbody : Run.inTurn (fun s => s.exec limits (room + 3)) [.make makeLine x (some e), s] =
      (do
        let v ← e.eval limits room
        Run.declare x.text v
        s.exec limits (room + 3)) := by
    rw [Run.inTurn, inTurn_singleton]
    simp only [Stmt.exec, bind_assoc, pure_bind]
  unfold Stmt.declaring
  simp only [Stmt.exec]
  rw [hbody]
  exact SameRun.enclosed_eq_recast _ _ _ m

theorem exec_declaring_short (hroom : room < 7) (m : Machine) :
    EndsShort (mirroredRuns 0).short
      ((Stmt.declaring blockLine makeLine x e s).exec limits room m) := by
  unfold Stmt.declaring
  by_cases hblock : room < 4
  · rw [Stmt.exec_shallow hblock]
    exact rfl
  · obtain ⟨r, rfl⟩ : ∃ r, room = r + 4 := ⟨room - 4, by omega⟩
    have hmake : (Stmt.make makeLine x (some e)).exec limits r = throw .tooDeep :=
      Stmt.exec_shallow (show r < 3 by omega)
    simp only [Stmt.exec]
    change EndsShort _ (Run.enclosed m.scope [] (Run.inTurn _ _) m)
    rw [SameRun.enclosed_eq_recast, Run.inTurn, hmake]
    exact rfl

/-- What the subject leaves, if the first machine evaluates it where it is and the second one in a
blank scope. -/
structure AfterSubject (m n : Machine) (inside : m.scope < m.opened) (W : World) : Prop where
  around : (m.world inside).Extends W
  scope : n.scope = m.scope
  here : W.here = m.opened
  blank : ¬ W.real W.here

theorem afterSubject {n n' : Machine} {inside : m.scope < m.opened} {W : World}
    (hgrows : ((m.world inside).opened m.scope False).Grows W) (hn : Mirrors 0 W n n') :
    AfterSubject m n inside W := by
  have hlt : m.opened < ((m.world inside).opened m.scope False).size := Nat.lt_succ_self _
  refine ⟨(World.extends_opened _ _ _).trans hgrows.toExtends, ?_, hgrows.here, ?_⟩
  · rw [hn.scope, hgrows.here]
    exact (hgrows.view m.opened hlt).trans World.view_opened
  · rw [hgrows.here]
    exact fun hreal => World.real_opened.mp ((hgrows.real m.opened hlt).mp hreal)

/-- A `with` runs as the block does, where both have room to begin with. -/
theorem exec_deep (h : m.WellFormed) (formed : s.Formed) (room room' : Nat) :
    (mirroredRuns 0).Even (room < room' + 3) (room' < room + 1) (m.world h.inside)
      ((Stmt.with_ line e x s).exec limits (room + 4) m)
      ((Stmt.declaring blockLine makeLine x e s).exec limits (room' + 7) m) := by
  rw [exec_declaring]
  simp only [Stmt.exec]
  have cramped {r r' : Nat} (hcramped : Cramped 0 0 r r') : r' < r := by
    unfold Cramped at hcramped
    omega
  have alike (r : Nat) : RunsAlike 0 limits limits r := runsAlike rfl rfl r
  have around : Mirrors 0 ((m.world h.inside).opened m.scope False) m (m.enclose m.scope []) :=
    (h.mirrors 0).encloseBlank
  have hvalue := (alike (room + 1)).eval e room' _ _ _ around
  have howns := owns_blank limits m.opened room' e _ (blankIn_enclose h.ready)
  unfold Run.Owns Confined at howns
  generalize hright : e.eval limits room' (m.enclose m.scope []) = r' at hvalue howns
  generalize hleft : e.eval limits (room + 1) m = r at hvalue
  cases hvalue with
  | left hshort hlt =>
    rw [bind_of_error hleft]
    exact .left hshort (by omega)
  | right hshort hcramped =>
    have hlt := cramped hcramped
    rw [bind_of_error hright]
    exact .right hshort (by omega)
  | @error err n n' W hgrows hn =>
    rw [bind_of_error hleft, bind_of_error hright]
    have after := afterSubject hgrows hn
    have hback : Mirrors 0 _ { n with scope := m.scope } { n' with scope := m.scope } :=
      hn.backTo after.around
    have hsame : { n with scope := m.scope } = n := by rw [← after.scope]
    rw [hsame] at hback
    exact .error after.around.back hback
  | @ok v n n' W hgrows hn =>
    rw [bind_of_ok hleft, bind_of_ok hright]
    have after := afterSubject hgrows hn
    have blank : BlankIn W.here n' := by
      rw [after.here]
      exact (blankIn_enclose h.ready).frames howns.1
    have settled := hn.settle after.blank blank x.text v
    have hbody := ((alike room).exec s s 0 (room' + 3) (braced_self 0 s) formed _ _ _
      ⟨settled, fun _ => .inl rfl⟩).of_on
    change (mirroredRuns 0).Even _ _ _ (Run.enclosed n.scope [(x.text, v)] (s.exec limits room) n)
      (recast _ _ _ (s.exec limits (room' + 3)
        { n' with scopes := n'.scopes.declare n'.scope x.text v }))
    rw [SameRun.enclosed_eq_recast]
    have hextends : (m.world h.inside).Extends (W.settled W.here n.opened) :=
      after.around.settled (Nat.le_of_eq after.here.symm)
    refine (hbody.imp (fun _ => by omega) fun hcramped => ?_).recast (fun _ he => he)
      fun V k k' hgrows' hk => ?_
    · have hlt := cramped hcramped
      omega
    · have hgrown := hextends.trans (World.Grows.toExtends hgrows')
      rw [after.scope]
      exact ⟨_, hgrown.back, Mirrors.backTo hk hgrown⟩

/-- A `with` runs as the block does. -/
theorem exec_with (h : m.WellFormed) (formed : s.Formed) (room room' : Nat) :
    (mirroredRuns 0).Even (room < room') (room' < room + 4) (m.world h.inside)
      ((Stmt.with_ line e x s).exec limits room m)
      ((Stmt.declaring blockLine makeLine x e s).exec limits room' m) := by
  have short (hroom : room < 4) :
      EndsShort (mirroredRuns 0).short ((Stmt.with_ line e x s).exec limits room m) := by
    rw [Stmt.exec_shallow hroom]
    exact rfl
  by_cases hroom' : room' < 7
  · by_cases hlt : room' < room + 4
    · exact (exec_declaring_short hroom' m).onRight hlt
    · exact (short (by omega)).onLeft (by omega)
  · by_cases hroom : room < 4
    · exact (short hroom).onLeft (by omega)
    · obtain ⟨r, rfl⟩ : ∃ r, room = r + 4 := ⟨room - 4, by omega⟩
      obtain ⟨r', rfl⟩ : ∃ r', room' = r' + 7 := ⟨room' - 7, by omega⟩
      exact (exec_deep h formed r r').imp (by omega) (by omega)

end Blocks

/-! ## Effects -/

/-- Two machines that agree on all that was there on `m`, and on everything but scopes and
functions. One may have other scopes than the other since, and functions in them: which of them go
together says a world, where those of before show themselves. -/
structure Machine.AgreeSince (m n n' : Machine) : Prop where
  same : ∀ c, m.Has c → n.SameIn n' c
  rest : n' = n.among n'.scopes n.scope n'.heap.functions
  world : ∃ W : World, Mirrors 0 W n n' ∧ ∀ i < m.opened, W.view i = i ∧ W.real i

theorem Mirrors.agreeSince {m n n' : Machine} {W : World} {inside : m.scope < m.opened}
    (hgrows : (m.world inside).Grows W) (h : Mirrors 0 W n n') (later : m.Precedes n)
    (later' : m.Precedes n') : m.AgreeSince n n' := by
  have hview (i : Nat) (hi : i < m.opened) : W.view i = i := hgrows.view i hi
  have hreal (i : Nat) (hi : i < m.opened) : W.real i := (hgrows.real i hi).mpr trivial
  have hscope : n'.scope = n.scope := by
    rw [h.here, h.scope, hgrows.here]
    exact (hview m.scope inside).symm
  refine ⟨fun c hc => ?_, ?_, W, h, fun i hi => ⟨hview i hi, hreal i hi⟩⟩
  · cases c with
    | scope i =>
      have hi : i < W.size := Nat.lt_of_lt_of_le hc hgrows.size
      have hnames := (h.shows.scopes i hi).names (hreal i hc)
      rw [hview i hc] at hnames
      exact ⟨hnames, (later'.parents i hc).trans (later.parents i hc).symm⟩
    | function i =>
      have before : n.heap.function i = m.heap.function i :=
        (later.fixed (.function i) trivial hc).2
      have after : n'.heap.function i = m.heap.function i :=
        (later'.fixed (.function i) trivial hc).2
      exact after.trans before.symm
    | list i => exact h.list i
    | iter i => exact h.iter i
    | record i => exact h.record i
  · rw [← hscope]
    exact h.rest

theorem precedes_exec {m : Machine} (ready : Ready Everything m) (limits : Limits) (room : Nat)
    (s : Stmt) : m.Precedes (stateAfter (s.exec limits room m)) := by
  have hvisit (v : Visit) : Ready Everything v.machine → v.machine.Precedes (v.after limits) :=
    Visit.precedes_after
  exact hvisit ⟨.stmt s, room, m, 0⟩ ready

/-! ## A `with` and a block -/

/-- Whatever stands in a program that was read: a `with` is checked as the block is in which its
name is declared first, from any context, with the same answer or the same error, and it leaves the
same scopes. On every machine of a session, and on every other one of that sort, it runs as the
block does: it ends in the same way, and leaves the same machine but for scopes that are new. The
block may need a little more room for nesting, but no less. -/
theorem with_is_a_block_with_a_declaration {readRoom : Nat} {tokens : List Token}
    {program : List Stmt} (parsed : parseTokens readRoom tokens = .ok program) {p : Stmt}
    (hp : p ∈ program) {line : Int} {e : Expr} {x : Name} {s : Stmt}
    (within : (Part.stmt p).Contains (.stmt (.with_ line e x s))) (blockLine makeLine : Int) :
    (∀ c, AlikeButForRoom (fun err => err.problem = .tooDeep)
      (fun d d' : Context => d'.scopes = d.scopes) 6
      (fun room => (Stmt.with_ line e x s).check room c)
      (fun room => (Stmt.declaring blockLine makeLine x e s).check room c)) ∧
    (∀ limits m, m.WellFormed → AlikeButForRoom (fun stop => stop.isDeep = true) m.AgreeSince 4
      (fun room => (Stmt.with_ line e x s).exec limits room m)
      (fun room => (Stmt.declaring blockLine makeLine x e s).exec limits room m)) ∧
    ∀ limits input clock programs m,
      (∀ program ∈ programs, ∃ room tokens, parseTokens room tokens = .ok program) →
      m ∈ sessionMoments limits (.start input clock) programs → m.WellFormed := by
  have formed : (Stmt.with_ line e x s).Formed :=
    Part.Formed.within (p := .stmt p) (formed_of_parse parsed p hp) within
  cases formed with
  | with_ hbody plain =>
    refine ⟨fun c => ?_, fun limits m hm => ?_, fun limits input clock programs m hread hmem => ?_⟩
    · exact .of_even () (fun room room' => check_with hbody plain room room' c)
        fun _ _ _ _ hscopes => hscopes
    · exact .of_even (m.world hm.inside) (fun room room' => exec_with hm hbody room room')
        fun room room' W hgrows hmirrors => Mirrors.agreeSince hgrows hmirrors
          (precedes_exec hm.ready limits room _) (precedes_exec hm.ready limits room' _)
    · refine wellFormed_of_moment (fun program hprogram => ?_) hmem
      obtain ⟨room, tokens, hparse⟩ := hread program hprogram
      exact formed_of_parse hparse

/-- A text under the name `x`. -/
def makingText : List Token :=
  [⟨.word .make, "make", 1⟩, ⟨.atom .name, "x", 1⟩, ⟨.sign .equal, "=", 1⟩,
    ⟨.atom .string, "old", 1⟩, ⟨.sign .semicolon, ";", 1⟩, endMark 1]

def makingTextTree : List Stmt := [.make 1 ⟨"x", 1⟩ (some (.atom ⟨.string, "old", 1⟩))]

/-- A longer text under the same name, which is printed. -/
def renewingText : List Token :=
  [⟨.word .with_, "with", 2⟩, ⟨.atom .name, "x", 2⟩, ⟨.sign .plus, "+", 2⟩,
    ⟨.atom .string, "er", 2⟩, ⟨.word .as, "as", 2⟩, ⟨.atom .name, "x", 2⟩,
    ⟨.word .print, "print", 2⟩, ⟨.atom .name, "x", 2⟩, ⟨.sign .semicolon, ";", 2⟩, endMark 2]

def longerText : Expr :=
  .binary (.atom ⟨.name, "x", 2⟩) ⟨.plus, "+", 2⟩ (.atom ⟨.string, "er", 2⟩)

def printingX : Stmt := .print 2 (.atom ⟨.name, "x", 2⟩)

/-- The subject of the `with` sees the name around it, as the initial value in the block does. -/
theorem a_with_and_a_block_renew_a_text :
    parseTokens 60 makingText = .ok makingTextTree ∧
      parseTokens 60 renewingText = .ok [.with_ 2 longerText ⟨"x", 2⟩ printingX] ∧
      EndsAlike (fun d d' : Context => d'.scopes = d.scopes)
        ((Stmt.with_ 2 longerText ⟨"x", 2⟩ printingX).check 20 (Context.start.declare "x" .string))
        ((Stmt.declaring 2 2 ⟨"x", 2⟩ longerText printingX).check 26
          (Context.start.declare "x" .string)) ∧
      ∃ m, m.WellFormed ∧
        EndsAlike m.AgreeSince ((Stmt.with_ 2 longerText ⟨"x", 2⟩ printingX).exec .small 20 m)
          ((Stmt.declaring 2 2 ⟨"x", 2⟩ longerText printingX).exec .small 24 m) ∧
        (stateAfter ((Stmt.with_ 2 longerText ⟨"x", 2⟩ printingX).exec .small 20 m)).output =
          "older\n" := by
  have made : parseTokens 60 makingText = .ok makingTextTree := rfl
  have parsed : parseTokens 60 renewingText = .ok [.with_ 2 longerText ⟨"x", 2⟩ printingX] := rfl
  obtain ⟨checks, runs, moments⟩ := with_is_a_block_with_a_declaration parsed
    (List.mem_singleton_self _) .refl 2 2
  have check := checks (Context.start.declare "x" .string)
  have accepted : ¬ EndsShort (fun err => err.problem = .tooDeep)
      ((Stmt.with_ 2 longerText ⟨"x", 2⟩ printingX).check 20
        (Context.start.declare "x" .string)) := id
  have moment : (runOn .small (.start "" 0) makingTextTree).2 ∈
      sessionMoments .small (.start "" 0) [makingTextTree] := by
    rw [sessionMoments]
    exact List.mem_append_right _ (List.mem_singleton_self _)
  have wellFormed := moments .small "" 0 [makingTextTree] _ (by simpa using ⟨60, makingText, made⟩)
    moment
  have run := runs .small _ wellFormed
  have enough : ¬ EndsShort (fun stop => stop.isDeep = true)
      ((Stmt.with_ 2 longerText ⟨"x", 2⟩ printingX).exec .small 20
        (runOn .small (.start "" 0) makingTextTree).2) := id
  exact ⟨made, parsed, check.same 20 26 accepted (check.enough 20 26 (by decide) accepted), _,
    wellFormed, run.same 20 24 enough (run.enough 20 24 (by decide) enough), rfl⟩

end FunkLang
