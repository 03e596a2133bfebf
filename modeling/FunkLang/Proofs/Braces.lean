-- Braces around single statements. A statement that declares nothing may stand
-- in a block of its own, on its line, wherever a statement stands: as a branch,
-- as a body, or in a list of statements. A block takes some of the room for
-- nesting, so a program in braces may need a multiple of the room.
import FunkLang.Proofs.Names
import FunkLang.Proofs.SideBySide

namespace FunkLang

/-! ## Programs in braces -/

mutual

/-- A statement, and the same one with braces around single statements in it, at most `most`
around any, and this many around itself. -/
inductive Braced (most : Nat) : (blocks : Nat) → Stmt → Stmt → Prop
  | expression {line value} : Braced most 0 (.expression line value) (.expression line value)
  | print {line value} : Braced most 0 (.print line value) (.print line value)
  | make {line name value} : Braced most 0 (.make line name value) (.make line name value)
  | block {line body body'} : AllBraced most body body' →
    Braced most 0 (.block line body) (.block line body')
  | if_ {line condition blocks yes yes'} : Braced most blocks yes yes' →
    Braced most 0 (.if_ line condition yes none) (.if_ line condition yes' none)
  | ifElse {line condition blocks yes yes' blocks' no no'} : Braced most blocks yes yes' →
    Braced most blocks' no no' →
    Braced most 0 (.if_ line condition yes (some no)) (.if_ line condition yes' (some no'))
  | while_ {line condition blocks body body'} : Braced most blocks body body' →
    Braced most 0 (.while_ line condition body) (.while_ line condition body')
  | funk {line name params bodyLine body body'} : AllBraced most body body' →
    Braced most 0 (.funk line name params bodyLine body) (.funk line name params bodyLine body')
  | return_ {line value} : Braced most 0 (.return_ line value) (.return_ line value)
  | with_ {line value name blocks body body'} : Braced most blocks body body' →
    Braced most 0 (.with_ line value name body) (.with_ line value name body')
  | for_ {line name items blocks body body'} : Braced most blocks body body' →
    Braced most 0 (.for_ line name items body) (.for_ line name items body')
  | braces {blocks s t} : blocks < most → s.isDeclaration = false → Braced most blocks s t →
    Braced most (blocks + 1) s (.block s.line [t])

/-- A list of statements, and the same one with braces around single statements in it. -/
inductive AllBraced (most : Nat) : List Stmt → List Stmt → Prop
  | nil : AllBraced most [] []
  | cons {blocks s t rest rest'} : Braced most blocks s t → AllBraced most rest rest' →
    AllBraced most (s :: rest) (t :: rest')

end

mutual

/-- A statement may stay without braces. -/
theorem braced_self (most : Nat) : ∀ s, Braced most 0 s s
  | .expression .. => .expression
  | .print .. => .print
  | .make .. => .make
  | .block _ body => .block (allBraced_self most body)
  | .if_ _ _ yes none => .if_ (braced_self most yes)
  | .if_ _ _ yes (some no) => .ifElse (braced_self most yes) (braced_self most no)
  | .while_ _ _ body => .while_ (braced_self most body)
  | .funk _ _ _ _ body => .funk (allBraced_self most body)
  | .return_ .. => .return_
  | .with_ _ _ _ body => .with_ (braced_self most body)
  | .for_ _ _ _ body => .for_ (braced_self most body)

theorem allBraced_self (most : Nat) : ∀ body, AllBraced most body body
  | [] => .nil
  | s :: rest => .cons (braced_self most s) (allBraced_self most rest)

end

section Braced

variable {most blocks : Nat} {s t : Stmt} {body body' : List Stmt}

theorem Braced.le_most (h : Braced most blocks s t) : blocks ≤ most := by
  cases h with
  | braces hlt => exact hlt
  | _ => exact Nat.zero_le most

theorem Braced.line_eq (h : Braced most blocks s t) : t.line = s.line := by
  cases h <;> rfl

theorem AllBraced.forall₂ {Q : Stmt → Stmt → Prop} (h : AllBraced most body body')
    (each : ∀ s ∈ body, ∀ t blocks, Braced most blocks s t → Q s t) :
    List.Forall₂ Q body body' := by
  induction body generalizing body' with
  | nil =>
    cases h
    exact .nil
  | cons s rest ih =>
    cases h with
    | cons hs hrest =>
      exact .cons (each s List.mem_cons_self _ _ hs)
        (ih hrest fun s' hs' => each s' (List.mem_cons_of_mem _ hs'))

theorem AllBraced.length_eq (h : AllBraced most body body') : body'.length = body.length :=
  (h.forall₂ (Q := fun _ _ => True) fun _ _ _ _ _ => trivial).length_eq.symm

/-- A block around a single statement hides no function. -/
theorem functionNames_braced (h : AllBraced most body body') :
    functionNames body' = functionNames body := by
  induction body generalizing body' with
  | nil =>
    cases h
    rfl
  | cons s rest ih =>
    cases h with
    | @cons _ _ t _ rest' hs hrest =>
      have hone : functionNames [t] = functionNames [s] := by
        cases hs with
        | braces _ hplain _ =>
          cases s with
          | funk => cases hplain
          | _ => rfl
        | _ => rfl
      have happend (s : Stmt) (rest : List Stmt) :
          functionNames (s :: rest) = functionNames [s] ++ functionNames rest := by
        unfold functionNames
        rw [← List.filterMap_append]
        rfl
      rw [happend, happend s, hone, ih hrest]

end Braced

/-! ## Room for braces -/

/-- The second room is too small for as many blocks around the statement, and for those in it. -/
def Cramped (most blocks room room' : Nat) : Prop := room' < (2 * most + 1) * room + 6 * blocks

/-- Two passes that come to the same, unless the first has less room than the second, or the second
is cramped. -/
abbrev Pairing.AlikeAt {ε σ ω α : Type} (P : Pairing ε σ ω) (most blocks room room' : Nat)
    (x x' : EStateM ε σ α) : Prop :=
  P.Alike (room < room') (Cramped most blocks room room') x x'

theorem cramped_of_lt {most blocks room room' : Nat} (h : room' < room) :
    Cramped most blocks room room' := by
  have hle : room ≤ (2 * most + 1) * room := Nat.le_mul_of_pos_left _ (Nat.succ_pos _)
  unfold Cramped
  omega

theorem Cramped.outside {most blocks room room' : Nat} (h : Cramped most blocks room room')
    (hblocks : blocks ≤ most) : Cramped most most room room' := by
  unfold Cramped at h ⊢
  omega

/-- What is cramped inside of a part is cramped in the whole. -/
theorem Cramped.deeper {most blocks room room' d : Nat} (h : Cramped most blocks room room')
    (hblocks : blocks ≤ most) (hd : 3 ≤ d) : Cramped most 0 (room + d) (room' + d) := by
  have hmul : (2 * most + 1) * (room + d) = (2 * most + 1) * room + (2 * most + 1) * d :=
    Nat.mul_add _ _ _
  have hmost : (2 * most + 1) * 3 + (d - 3) ≤ (2 * most + 1) * d := by
    have hd' : (2 * most + 1) * d = (2 * most + 1) * 3 + (2 * most + 1) * (d - 3) := by
      rw [← Nat.mul_add, Nat.add_sub_cancel' hd]
    have hle : d - 3 ≤ (2 * most + 1) * (d - 3) := Nat.le_mul_of_pos_left _ (Nat.succ_pos _)
    omega
  unfold Cramped at h ⊢
  omega

/-- What is cramped inside of a block is cramped in front of it. -/
theorem Cramped.inside {most blocks room room' d : Nat} (h : Cramped most blocks room room')
    (hd : d ≤ 6) : Cramped most (blocks + 1) room (room' + d) := by
  unfold Cramped at h ⊢
  omega

theorem Pairing.AlikeAt.deeper {ε σ ω α : Type} {P : Pairing ε σ ω} {most blocks room room' : Nat}
    {x x' : EStateM ε σ α} (h : P.AlikeAt most blocks room room' x x') (hblocks : blocks ≤ most)
    {d : Nat} (hd : 3 ≤ d) : P.AlikeAt most 0 (room + d) (room' + d) x x' :=
  h.imp (fun hlt => Nat.add_lt_add_right hlt d) fun hcramped => hcramped.deeper hblocks hd

/-- A pass that begins with a step into a block, which `cost` of the room is for. -/
theorem Pairing.AlikeAt.inside {ε σ ω α : Type} {P : Pairing ε σ ω} {most blocks room : Nat}
    {x : EStateM ε σ α} {y : Nat → EStateM ε σ α} {e : ε} (he : P.short e) {cost : Nat}
    (hcost : cost ≤ 6) (hy : ∀ r, r < cost → y r = throw e)
    (h : ∀ r, P.AlikeAt most blocks room r x (y (r + cost))) (room' : Nat) :
    P.AlikeAt most (blocks + 1) room room' x (y room') := by
  by_cases hroom' : room' < cost
  · rw [hy room' hroom']
    refine fun _ _ _ _ => .right he ?_
    unfold Cramped
    omega
  · obtain ⟨r, rfl⟩ : ∃ r, room' = r + cost := ⟨room' - cost, by omega⟩
    exact (h r).imp (fun hlt => by omega) fun hcramped => hcramped.inside hcost

/-- Two passes, of which each is given some room, come to the same unless they are short of it. The
second may need a multiple of the room that the first needs, but no less than that. -/
structure SameButForRoom {ρ : Type} (most : Nat) (short : ρ → Prop) (pass pass' : Nat → ρ) :
    Prop where
  same : ∀ room room', ¬ short (pass room) → ¬ short (pass' room') → pass' room' = pass room
  enough : ∀ room room', (2 * most + 1) * room + 6 * most ≤ room' →
    ¬ short (pass room) → ¬ short (pass' room')
  needed : ∀ room room', room' ≤ room → ¬ short (pass' room') → ¬ short (pass room)

theorem SameButForRoom.of_ends {ρ : Type} {most : Nat} {short : ρ → Prop} {pass pass' : Nat → ρ}
    (h : ∀ room room', pass' room' = pass room ∨ short (pass room) ∧ room < room' ∨
      short (pass' room') ∧ Cramped most most room room') :
    SameButForRoom most short pass pass' where
  same room room' hroom hroom' := by
    rcases h room room' with heq | ⟨hshort, _⟩ | ⟨hshort, _⟩
    · exact heq
    · exact absurd hshort hroom
    · exact absurd hshort hroom'
  enough room room' hle hroom := by
    rcases h room room' with heq | ⟨hshort, _⟩ | ⟨_, hcramped⟩
    · rwa [heq]
    · exact absurd hshort hroom
    · exact absurd hle (Nat.not_le_of_lt hcramped)
  needed room room' hle hroom' := by
    rcases h room room' with heq | ⟨_, hlt⟩ | ⟨hshort, _⟩
    · rwa [← heq]
    · exact absurd hle (Nat.not_le_of_lt hlt)
    · exact absurd hshort hroom'

end FunkLang
