-- Where declarations stand in a program that was read from tokens: in lists
-- of statements only, never as a branch or as the body of a loop or a `with`.
import FunkLang.Proofs.Names
import FunkLang.Proofs.Outcome
import FunkLang.Tree.Statement

namespace FunkLang
namespace Reader

variable {α β : Type}

/-- Whatever the reader reads is good. -/
abbrev Reads (good : α → Prop) (x : Reader α) : Prop :=
  Yields (fun _ => True) good (fun _ _ => True) x

theorem reads_something (x : Reader α) : Reads (fun _ => True) x := by
  intro c _
  cases x c with
  | ok a c => exact ⟨trivial, trivial⟩
  | error e c => trivial

/-- What is read first does not matter for the rest. -/
theorem Reads.after {x : Reader α} {f : α → Reader β} {good : β → Prop}
    (h : ∀ a, Reads good (f a)) : Reads good (x >>= f) :=
  (reads_something x).bind fun a _ => h a

theorem reads_fail {good : α → Prop} (problem : ParseProblem) : Reads good (fail problem) :=
  fun _ _ => trivial

theorem reads_gather {good : α → Prop} {item : Reader (Option α)}
    (h : Reads (fun a? => ∀ a, a? = some a → good a) item) (bound : List Token) (found : List α)
    (hfound : ∀ a ∈ found, good a) : Reads (fun items => ∀ a ∈ items, good a)
      (gather item bound found) := by
  induction bound generalizing found with
  | nil => exact .pure (by simpa using hfound)
  | cons token bound ih =>
    unfold gather
    refine h.bind fun a? ha => ?_
    cases a? with
    | none => exact .pure (by simpa using hfound)
    | some a => exact ih (a :: found) (List.forall_mem_cons.mpr ⟨ha a rfl, hfound⟩)

theorem reads_many {good : α → Prop} {item : Reader (Option α)}
    (h : Reads (fun a? => ∀ a, a? = some a → good a) item) :
    Reads (fun items => ∀ a ∈ items, good a) (many item) :=
  fun c hc => reads_gather h (c.current :: c.ahead) [] (by simp) c hc

theorem reads_led {good : α → Prop} {item : Reader α} (h : Reads good item) (kind : Kind) :
    Reads (fun a? => ∀ a, a? = some a → good a) (led kind item) := by
  unfold led
  refine Reads.after fun here => ?_
  split
  · exact h.bind fun a ha => .pure fun a' h' => Option.some.inj h' ▸ ha
  · exact .pure nofun

theorem reads_unlessAt {good : α → Prop} {item : Reader α} (h : Reads good item) (kind : Kind) :
    Reads (fun a? => ∀ a, a? = some a → good a) (unlessAt kind item) := by
  unfold unlessAt
  refine Reads.after fun here => ?_
  split
  · exact .pure nofun
  · exact h.bind fun a ha => .pure fun a' h' => Option.some.inj h' ▸ ha

theorem reads_blockRest {item : Reader Stmt} (h : Reads Stmt.Formed item) :
    Reads (fun body => ∀ s ∈ body, s.Formed) (blockRest item) := by
  unfold blockRest
  refine (reads_many ?_).bind fun body hbody => Reads.after fun _ => .pure hbody
  refine Reads.after fun ends => ?_
  split
  · exact .pure nofun
  · exact reads_unlessAt h _

theorem reads_functionRest {item : Reader Stmt} (h : Reads Stmt.Formed item) (line : Int) :
    Reads Stmt.Formed (functionRest line item) := by
  unfold functionRest
  refine Reads.after fun title => Reads.after fun _ => Reads.after fun params => ?_
  refine Reads.after fun _ => Reads.after fun opening => ?_
  exact (reads_blockRest h).bind fun body hbody => .pure (.funk hbody)

theorem reads_makeRest (line : Int) (value : Reader Expr) :
    Reads Stmt.Formed (makeRest line value) := by
  unfold makeRest
  exact Reads.after fun title => Reads.after fun start => .pure .make

/-- A statement with its branches and bodies in place, and itself no declaration if it is read
as a body. -/
def Placed (place : Place) (s : Stmt) : Prop :=
  s.Formed ∧ (place = .body → s.isDeclaration = false)

section Bodies

variable {body : Reader Stmt} (h : Reads (Placed .body) body) (line : Int) (value : Reader Expr)

include h

theorem reads_ifRest : Reads (Placed .body) (ifRest line value body) := by
  unfold ifRest
  refine Reads.after fun condition => h.bind fun yes hyes => ?_
  refine (reads_led h _).bind fun no hno => .pure ⟨?_, fun _ => rfl⟩
  exact .if_ hyes.1 (hyes.2 rfl) (fun s hs => (hno s hs).1) fun s hs => (hno s hs).2 rfl

theorem reads_whileRest : Reads (Placed .body) (whileRest line value body) := by
  unfold whileRest
  refine Reads.after fun condition => h.bind fun inner hinner => ?_
  exact .pure ⟨.while_ hinner.1 (hinner.2 rfl), fun _ => rfl⟩

theorem reads_withRest : Reads (Placed .body) (withRest line value body) := by
  unfold withRest
  refine Reads.after fun value => Reads.after fun _ => Reads.after fun title => ?_
  refine h.bind fun inner hinner => ?_
  exact .pure ⟨.with_ hinner.1 (hinner.2 rfl), fun _ => rfl⟩

theorem reads_forRest : Reads (Placed .body) (forRest line value body) := by
  unfold forRest
  refine Reads.after fun title => Reads.after fun _ => Reads.after fun items => ?_
  refine h.bind fun inner hinner => ?_
  exact .pure ⟨.for_ hinner.1 (hinner.2 rfl), fun _ => rfl⟩

end Bodies

theorem reads_statement : ∀ room place, Reads (Placed place) (statement room place) := by
  refine statement.induct _ ?list ?body ?shallow
  case list =>
    intro room ihlist ihbody
    unfold statement
    refine Reads.after fun first => ?_
    have placed {s : Stmt} (h : s.Formed) : Placed .list s := ⟨h, nofun⟩
    split
    · exact Reads.after fun _ => (reads_functionRest (ihlist.imp fun _ h => h.1) _).imp
        fun _ => placed
    · exact Reads.after fun _ => (reads_makeRest _ _).imp fun _ => placed
    · exact ihbody.imp fun _ h => placed h.1
  case body =>
    intro room ihlist ihbody
    have placed {s : Stmt} (h : s.Formed) (plain : s.isDeclaration = false) : Placed .body s :=
      ⟨h, fun _ => plain⟩
    simp only [statement]
    refine Reads.after fun first => ?_
    split
    · exact Reads.after fun _ => Reads.after fun value => .pure (placed .print rfl)
    · refine Reads.after fun _ => (reads_blockRest (ihlist.imp fun _ h => h.1)).bind fun body h => ?_
      exact .pure (placed (.block h) rfl)
    · exact Reads.after fun _ => reads_ifRest ihbody _ _
    · exact Reads.after fun _ => reads_whileRest ihbody _ _
    · exact Reads.after fun _ => Reads.after fun value => .pure (placed .return_ rfl)
    · exact Reads.after fun _ => reads_withRest ihbody _ _
    · exact Reads.after fun _ => reads_forRest ihbody _ _
    · exact Reads.after fun value => .pure (placed .expression rfl)
  case shallow =>
    intro room place h1 h2
    rw [statement.eq_3 room place h1 h2]
    exact reads_fail _

end Reader

/-- A program that was read from tokens has its branches and bodies in place. -/
theorem formed_of_parse {room : Nat} {tokens : List Token} {program : List Stmt}
    (h : parseTokens room tokens = .ok program) : ∀ s ∈ program, s.Formed := by
  have hreads : Reader.Reads (fun program => ∀ s ∈ program, s.Formed) (Reader.program room) :=
    Reader.reads_many (Reader.reads_unlessAt
      ((Reader.reads_statement room .list).imp fun _ hs => hs.1) .finish)
  unfold parseTokens at h
  split at h
  · rename_i program' c heq
    cases h
    have hprogram := hreads (Cursor.ofTokens tokens) trivial
    rw [heq] at hprogram
    exact hprogram.1
  · cases h

end FunkLang
