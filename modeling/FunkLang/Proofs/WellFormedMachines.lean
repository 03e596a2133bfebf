-- The machines on which programs run that were read. Nothing on them leads to what is not there, a
-- scope stands in one that was opened before, and no function sets a name in a branch or in the
-- body of a loop.
import FunkLang.Proofs.BracedRuns
import FunkLang.Proofs.Moments

namespace FunkLang

/-! ## Machines -/

/-- A machine on which the parts of programs run that were read. -/
structure Machine.WellFormed (m : Machine) : Prop where
  ready : FunkLang.Ready Everything m
  grounded : m.scopes.Grounded
  formed : ∀ i, ∀ s ∈ (m.heap.function i).body, s.Formed

/-- Every scope of a machine shows itself. -/
def Machine.world (m : Machine) (inside : m.scope < m.opened) : World :=
  ⟨m.opened, id, fun _ => True, m.scope, inside⟩

/-- Every function stands in a scope that is there. -/
theorem Ready.function_lt {m : Machine} (ready : Ready Everything m) (i : Nat) :
    (m.heap.function i).scope < m.opened := by
  by_cases hi : i < m.heap.functions.size
  · exact ((ready.isSealed.closed (.function i) ⟨trivial, hi⟩).around _ rfl).2
  · rw [Heap.function_of_size_le (Nat.le_of_not_lt hi)]
    exact Nat.zero_lt_of_lt ready.current.2

/-- If every scope of a later machine stands in one that was opened before it, so does every
scope of an earlier machine. -/
theorem Machine.Precedes.grounded {m n : Machine} (later : m.Precedes n)
    (grounded : n.scopes.Grounded) : m.scopes.Grounded := by
  intro s p hp
  have hs : s < m.opened := by
    refine Nat.lt_of_not_le fun hle => ?_
    rw [ScopeTree.parent?_of_size_le hle] at hp
    cases hp
  exact grounded s p ((later.parents s hs).trans hp)

namespace Machine.WellFormed

variable {m n : Machine}

theorem inside (h : m.WellFormed) : m.scope < m.opened := h.ready.current.2

/-- A machine goes with itself. -/
theorem mirrors (h : m.WellFormed) (most : Nat) : Mirrors most (m.world h.inside) m m where
  shows := .refl h.grounded h.inside
  here := rfl
  scope := rfl
  count := rfl
  twins i := ⟨rfl, rfl, allBraced_self most _, h.formed i, h.ready.function_lt i, rfl⟩
  rest := rfl

/-- What stays on a later machine is as it has to be, if all is so there. -/
theorem of_precedes (ready : FunkLang.Ready Everything m) (later : m.Precedes n)
    (h : n.WellFormed) : m.WellFormed where
  ready := ready
  grounded := later.grounded h.grounded
  formed i := by
    by_cases hi : i < m.heap.functions.size
    · have hsame : n.heap.function i = m.heap.function i := (later.fixed (.function i) trivial hi).2
      rw [← hsame]
      exact h.formed i
    · rw [Heap.function_of_size_le (Nat.le_of_not_lt hi)]
      exact nofun

end Machine.WellFormed

/-! ## Sessions -/

section Sessions

variable {limits : Limits} {m n : Machine} {programs : List (List Stmt)}

/-- The machine after the programs of a session. -/
def sessionEnd (limits : Limits) (m : Machine) (programs : List (List Stmt)) : Machine :=
  programs.foldl (fun m program => (runOn limits m program).2) m

theorem sessionMoments_end (limits : Limits) (m : Machine) (programs : List (List Stmt)) :
    ∃ before, sessionMoments limits m programs = before ++ [sessionEnd limits m programs] := by
  induction programs generalizing m with
  | nil => exact ⟨[], rfl⟩
  | cons program programs ih =>
    obtain ⟨before, heq⟩ := ih (runOn limits m program).2
    refine ⟨m :: (topVisits limits m program).flatMap (Visit.moments limits) ++ before, ?_⟩
    rw [sessionMoments, heq, List.append_assoc]
    rfl

/-- What is there at a moment of a session is there at its end. -/
theorem precedes_sessionEnd (ready : Ready Everything m)
    (hn : n ∈ sessionMoments limits m programs) : n.Precedes (sessionEnd limits m programs) := by
  have hchain : (sessionMoments limits m programs).IsChain Machine.Precedes :=
    sessionMoments_chain ready programs
  obtain ⟨before, heq⟩ := sessionMoments_end limits m programs
  rw [List.isChain_iff_pairwise, heq] at hchain
  rw [heq] at hn
  rcases List.mem_append.mp hn with hn | hn
  · exact (List.pairwise_append.mp hchain).2.2 n hn _ (List.mem_singleton_self _)
  · obtain rfl := List.mem_singleton.mp hn
    exact .refl _

theorem ready_moments {v : Visit} (ready : Ready Everything v.machine) :
    ∀ n ∈ v.moments limits, Ready Everything n := by
  generalize hroom : v.room = room
  induction room using Nat.strongRecOn generalizing v with
  | ind room ih =>
    intro n hn
    rw [Visit.moments_eq, List.cons_append, List.mem_cons, List.mem_append, List.mem_singleton,
      List.mem_flatMap] at hn
    rcases hn with rfl | ⟨u, hu, hn⟩ | rfl
    · exact ready
    · have hlt : u.room < room := hroom ▸ Visit.room_lt hu
      exact ih u.room hlt (ready_opens ready hu) rfl n hn
    · exact ready_after ready

theorem ready_sessionMoments (ready : Ready Everything m) :
    ∀ n ∈ sessionMoments limits m programs, Ready Everything n := by
  induction programs generalizing m with
  | nil =>
    intro n hn
    obtain rfl := List.mem_singleton.mp hn
    exact ready
  | cons program programs ih =>
    intro n hn
    rw [sessionMoments, List.cons_append, List.mem_cons, List.mem_append, List.mem_flatMap] at hn
    rcases hn with rfl | ⟨u, hu, hn⟩ | hn
    · exact ready
    · exact ready_moments (ready_of_visited ready ⟨u, hu, .refl⟩) n hn
    · exact ih (ready_runOn program ready) n hn

/-- A machine that goes with itself does so after a program. -/
theorem mirrors_runOn {program : List Stmt} (formed : ∀ s ∈ program, s.Formed)
    (h : ∃ W : World, Mirrors 0 W m m ∧ W.Open) :
    ∃ W : World, Mirrors 0 W (runOn limits m program).2 (runOn limits m program).2 ∧ W.Open := by
  obtain ⟨W, hm, hopen⟩ := h
  have hend := sameRun_evaluate limits limits rfl rfl formed (allBraced_self 0 program) W m m
    ⟨hm, hopen⟩
  rw [runOn_machine]
  generalize evaluate limits program m = r at hend ⊢
  cases hend with
  | ok _ hn => exact ⟨_, hn⟩
  | error _ hn => exact ⟨_, hn⟩
  | left _ hlt => exact absurd hlt (Nat.lt_irrefl _)
  | right _ hcramped =>
    unfold Cramped at hcramped
    omega

theorem mirrors_sessionEnd (formed : ∀ program ∈ programs, ∀ s ∈ program, s.Formed)
    (h : ∃ W : World, Mirrors 0 W m m ∧ W.Open) :
    ∃ W : World, Mirrors 0 W (sessionEnd limits m programs) (sessionEnd limits m programs) ∧
      W.Open := by
  induction programs generalizing m with
  | nil => exact h
  | cons program programs ih =>
    rw [List.forall_mem_cons] at formed
    exact ih formed.2 (mirrors_runOn formed.1 h)

/-- At every moment of a session of programs that were read, the machine is as it has to be. -/
theorem wellFormed_of_moment {input : String} {clock : Nat}
    (formed : ∀ program ∈ programs, ∀ s ∈ program, s.Formed)
    (hm : m ∈ sessionMoments limits (.start input clock) programs) : m.WellFormed := by
  have start := ready_start input clock
  have hend : sessionEnd limits (.start input clock) programs ∈
      sessionMoments limits (.start input clock) programs := by
    obtain ⟨before, heq⟩ := sessionMoments_end limits (.start input clock) programs
    rw [heq]
    exact List.mem_append_right _ (List.mem_singleton_self _)
  obtain ⟨W, hmirrors, _⟩ : ∃ W : World,
      Mirrors 0 W (sessionEnd limits (.start input clock) programs)
        (sessionEnd limits (.start input clock) programs) ∧ W.Open :=
    mirrors_sessionEnd formed (mirrors_start 0 input clock)
  refine .of_precedes (ready_sessionMoments start m hm) (precedes_sessionEnd start hm) ?_
  exact ⟨ready_sessionMoments start _ hend, hmirrors.shows.grounded,
    fun i => (hmirrors.twins i).formed⟩

end Sessions
end FunkLang
