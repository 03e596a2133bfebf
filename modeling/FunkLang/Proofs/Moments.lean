-- The moments of a session: the machines on which its programs and their parts start and end, in
-- order. What is there at one moment is there at every later one: each scope in its place with its
-- names, each iter with its elements, and each function. Each record has at every moment what was
-- written to it so far.
import FunkLang.Proofs.CourseOfRuns

namespace FunkLang

/-! ## Moments -/

/-- The moments of a visit: its start, those of the visits that it opens, and its end. -/
def Visit.moments (limits : Limits) (v : Visit) : List Machine :=
  v.machine :: (v.opens limits).attach.flatMap (fun ⟨u, _⟩ => u.moments limits) ++
    [v.after limits]
termination_by v.room
decreasing_by exact Visit.room_lt ‹_›

/-- The moments of a session: of programs that run one after the other, from a machine on. -/
def sessionMoments (limits : Limits) : Machine → List (List Stmt) → List Machine
  | m, [] => [m]
  | m, program :: rest => m :: (topVisits limits m program).flatMap (Visit.moments limits) ++
    sessionMoments limits (runOn limits m program).2 rest

/-- Of two moments of one session the first comes before the second. -/
def Later (limits : Limits) (m m' : Machine) : Prop :=
  ∃ input clock programs,
    [m, m'].Sublist (sessionMoments limits (.start input clock) programs)

/-! ## What is written between moments -/

/-- A moment, with what has been written to records since the moment before. -/
structure Moment where
  writes : List Write
  machine : Machine

/-- The moments of a visit with their writes. -/
def Visit.course (limits : Limits) (v : Visit) : List Moment :=
  ⟨[], v.machine⟩ :: (v.opens limits).attach.flatMap (fun ⟨u, _⟩ => u.course limits) ++
    [⟨v.ownWrites limits, v.after limits⟩]
termination_by v.room
decreasing_by exact Visit.room_lt ‹_›

/-- The moments of a session with their writes. -/
def sessionCourse (limits : Limits) : Machine → List (List Stmt) → List Moment
  | m, [] => [⟨[], m⟩]
  | m, program :: rest => ⟨[], m⟩ :: (topVisits limits m program).flatMap (Visit.course limits) ++
    sessionCourse limits (runOn limits m program).2 rest

/-- All that is written, in order. -/
def writesOf (course : List Moment) : List Write := course.flatMap Moment.writes

section Course

variable {limits : Limits} {α : Type} {r : EStateM.Result Stop Machine α} {m m' : Machine}
  {us : List Visit} {v : Visit} {ws : List Write}

theorem Visit.moments_eq (limits : Limits) (v : Visit) : v.moments limits =
    v.machine :: (v.opens limits).flatMap (Visit.moments limits) ++ [v.after limits] := by
  rw [Visit.moments, List.flatMap_subtype fun _ _ => rfl, List.unattach_attach]

theorem Visit.course_eq (limits : Limits) (v : Visit) : v.course limits =
    ⟨[], v.machine⟩ :: (v.opens limits).flatMap (Visit.course limits) ++
      [⟨v.ownWrites limits, v.after limits⟩] := by
  rw [Visit.course, List.flatMap_subtype fun _ _ => rfl, List.unattach_attach]

/-- The moments with their writes are the moments. -/
theorem Visit.course_machines (limits : Limits) (v : Visit) :
    (v.course limits).map Moment.machine = v.moments limits := by
  generalize hroom : v.room = room
  induction room using Nat.strongRecOn generalizing v with
  | ind room ih =>
    rw [course_eq, moments_eq, List.map_append, List.map_cons, List.map_flatMap]
    refine congrArg (fun l => v.machine :: l ++ [v.after limits]) ?_
    exact List.flatMap_congr fun u hu => ih u.room (hroom ▸ room_lt hu) u rfl

theorem sessionCourse_machines (limits : Limits) (m : Machine) (programs : List (List Stmt)) :
    (sessionCourse limits m programs).map Moment.machine = sessionMoments limits m programs := by
  induction programs generalizing m with
  | nil => rfl
  | cons program programs ih =>
    rw [sessionCourse, sessionMoments, List.map_append, List.map_cons, List.map_flatMap, ih]
    simp only [Visit.course_machines]

/-- The second moment comes after the first one, and after its writes. -/
def Moment.Leads (a b : Moment) : Prop := a.machine.RunsTo b.writes b.machine

/-- Visits in order have their moments in order, if each of them has. -/
theorem Through.chain (h : Through limits ws r m us)
    (each : ∀ u ∈ us, (u.course limits).IsChain Moment.Leads) (before : List Write) :
    List.IsChain Moment.Leads
      (⟨before, m⟩ :: us.flatMap (Visit.course limits) ++ [⟨ws, stateAfter r⟩]) := by
  induction h generalizing before with
  | done later => exact List.isChain_pair.mpr later
  | @next m u us later _ _ ih =>
    rw [List.forall_mem_cons, Visit.course_eq, List.cons_append] at each
    have hrest := ih each.2 (u.ownWrites limits)
    rw [List.flatMap_cons, Visit.course_eq]
    simp only [List.cons_append, List.append_assoc, List.nil_append] at hrest ⊢
    rw [List.isChain_cons_cons, List.isChain_cons_split]
    exact ⟨later, each.1, hrest⟩
  | @stops m u _ _ m' later _ ending _ moves unwritten =>
    have hu := each u (List.mem_singleton_self u)
    rw [Visit.course_eq, List.cons_append] at hu
    rw [ending, unwritten, List.flatMap_singleton, Visit.course_eq]
    simp only [List.cons_append, List.append_assoc, List.nil_append]
    rw [List.isChain_cons_cons, List.isChain_cons_split, List.isChain_pair]
    exact ⟨later, hu, .of_moves moves⟩

/-- The induction is on the room: a visit has more of it than those that it opens. -/
theorem Visit.course_chain (ready : Ready Everything v.machine) :
    (v.course limits).IsChain Moment.Leads := by
  generalize hroom : v.room = room
  induction room using Nat.strongRecOn generalizing v with
  | ind room ih =>
    rw [course_eq, ← stateAfter_ending]
    refine (opens_through ready).chain (fun u hu => ih u.room ?_ (ready_opens ready hu) rfl) []
    rw [← hroom]
    exact room_lt hu

theorem runOn_machine (limits : Limits) (m : Machine) (program : List Stmt) :
    (runOn limits m program).2 = stateAfter (evaluate limits program m) := by
  unfold runOn
  cases evaluate limits program m <;> rfl

theorem sessionCourse_head (limits : Limits) (m : Machine) (programs : List (List Stmt)) :
    ∃ rest, sessionCourse limits m programs = ⟨[], m⟩ :: rest := by
  cases programs <;> exact ⟨_, rfl⟩

theorem sessionCourse_chain (ready : Ready Everything m) (programs : List (List Stmt)) :
    (sessionCourse limits m programs).IsChain Moment.Leads := by
  induction programs generalizing m with
  | nil => exact .singleton _
  | cons program programs ih =>
    have hrun : List.IsChain Moment.Leads
        (⟨[], m⟩ :: (topVisits limits m program).flatMap (Visit.course limits) ++
          [⟨[], stateAfter (evaluate limits program m)⟩]) :=
      (program_through m program).chain (fun u hu =>
        Visit.course_chain (ready_of_visited ready ⟨u, hu, .refl⟩)) []
    have hrest : (sessionCourse limits (runOn limits m program).2 programs).IsChain
        Moment.Leads := ih (ready_runOn program ready)
    obtain ⟨rest, heq⟩ := sessionCourse_head limits (runOn limits m program).2 programs
    rw [sessionCourse, heq, List.cons_append, List.isChain_cons_split, ← heq, runOn_machine]
    rw [runOn_machine] at hrest
    exact ⟨hrun, hrest⟩

/-- What leads from each moment to the next leads from the first one to the last. -/
theorem runsTo_of_chain {before : List Moment} {a b : Moment}
    (h : (a :: (before ++ [b])).IsChain Moment.Leads) :
    a.machine.RunsTo (writesOf (before ++ [b])) b.machine := by
  induction before generalizing a with
  | nil =>
    rw [List.nil_append, List.isChain_pair] at h
    unfold writesOf
    rwa [List.nil_append, List.flatMap_singleton]
  | cons c before ih =>
    rw [List.cons_append, List.isChain_cons_cons] at h
    exact h.1.trans (ih h.2)

/-- At every moment of a session, the records have got all that was written so far. -/
theorem sessionCourse_runsTo (ready : Ready Everything m) {programs : List (List Stmt)}
    {before after : List Moment} {b : Moment}
    (h : sessionCourse limits m programs = before ++ b :: after) :
    m.RunsTo (writesOf (before ++ [b])) b.machine := by
  have hchain : (sessionCourse limits m programs).IsChain Moment.Leads :=
    sessionCourse_chain ready programs
  obtain ⟨rest, heq⟩ := sessionCourse_head limits m programs
  rw [h] at hchain
  rw [h] at heq
  cases before with
  | nil =>
    rw [List.nil_append, List.cons.injEq] at heq
    rw [heq.1]
    exact .refl m
  | cons a before =>
    rw [List.cons_append, List.cons.injEq] at heq
    obtain ⟨rfl, -⟩ := heq
    rw [List.cons_append, List.isChain_cons_split] at hchain
    exact runsTo_of_chain hchain.1

/-! ## What is there stays -/

theorem sessionMoments_chain (ready : Ready Everything m) (programs : List (List Stmt)) :
    (sessionMoments limits m programs).IsChain Machine.Precedes := by
  rw [← sessionCourse_machines, List.isChain_map]
  exact (sessionCourse_chain ready programs).imp fun _ _ h => h.toPrecedes

/-- No name is unbound from the first machine to the second. -/
def Machine.StaysBound (m m' : Machine) : Prop := ∀ s name, m.Binds s name → m'.Binds s name

instance : IsTrans Machine Machine.StaysBound :=
  ⟨fun _ _ _ h h' s name hb => h' s name (h s name hb)⟩

theorem sessionMoments_bound (ready : Ready Everything m) (programs : List (List Stmt)) :
    (sessionMoments limits m programs).IsChain Machine.StaysBound := by
  rw [← sessionCourse_machines, List.isChain_map]
  exact (sessionCourse_chain ready programs).imp fun _ _ h => h.bound

end Course

section Moments

variable {limits : Limits} {m m' : Machine} {us : List Visit} {v : Visit}

/-! ## Where the moments of a visit are -/

theorem Visit.moments_sublist (hv : v ∈ us) :
    (v.moments limits).Sublist (us.flatMap (Visit.moments limits)) :=
  List.sublist_flatten_of_mem (List.mem_map_of_mem hv)

theorem Visit.sublist_moments {u : Visit} (hr : v.Reaches limits u) :
    [u.machine, u.after limits].Sublist (v.moments limits) := by
  induction hr using Relation.ReflTransGen.head_induction_on with
  | refl =>
    rw [moments_eq, List.cons_append, List.cons_sublist_cons]
    exact List.sublist_append_right _ _
  | @head v w hw _ ih =>
    rw [moments_eq, List.cons_append]
    exact ((ih.trans (moments_sublist hw)).trans (List.sublist_append_left _ _)).cons _

/-- What comes after a machine of a session belongs to the session. -/
theorem sublist_sessionMoments (h : Reachable limits m) :
    ∃ input clock programs, ∀ more, (sessionMoments limits m more).Sublist
      (sessionMoments limits (.start input clock) (programs ++ more)) := by
  induction h with
  | start input clock => exact ⟨input, clock, [], fun _ => .refl _⟩
  | @run m program _ ih =>
    obtain ⟨input, clock, programs, hsub⟩ := ih
    refine ⟨input, clock, programs ++ [program], fun more => ?_⟩
    rw [List.append_assoc]
    refine List.Sublist.trans ?_ (hsub (program :: more))
    rw [sessionMoments]
    exact List.sublist_append_right _ _

theorem Visited.sublist_moments {m0 : Machine} {program : List Stmt}
    (reachable : Reachable limits m0) (h : Visited limits m0 program v) : ∃ input clock programs,
      [v.machine, v.after limits, (runOn limits m0 program).2].Sublist
        (sessionMoments limits (.start input clock) programs) := by
  obtain ⟨top, htop, hr⟩ := h
  obtain ⟨input, clock, programs, hsub⟩ := sublist_sessionMoments reachable
  refine ⟨input, clock, programs ++ [program], List.Sublist.trans ?_ (hsub [program])⟩
  rw [sessionMoments, List.cons_append]
  refine List.Sublist.cons _ ?_
  exact ((Visit.sublist_moments hr).trans (Visit.moments_sublist htop)).append (.refl _)

/-- What is there at one moment of a session is there at every later one. -/
theorem Later.precedes (h : Later limits m m') : m.Precedes m' := by
  obtain ⟨input, clock, programs, hsub⟩ := h
  have hchain : (sessionMoments limits (.start input clock) programs).IsChain Machine.Precedes :=
    sessionMoments_chain (ready_start input clock) programs
  exact List.pairwise_pair.mp ((List.isChain_iff_pairwise.mp hchain).sublist hsub)

/-- A name that is bound at one moment of a session is bound at every later one. -/
theorem Later.bound (h : Later limits m m') : m.StaysBound m' := by
  obtain ⟨input, clock, programs, hsub⟩ := h
  have hchain : (sessionMoments limits (.start input clock) programs).IsChain
      Machine.StaysBound := sessionMoments_bound (ready_start input clock) programs
  exact List.pairwise_pair.mp ((List.isChain_iff_pairwise.mp hchain).sublist hsub)

end Moments

end FunkLang
