-- Readings as the room for nesting grows. A reading settles if there is a least
-- room for it: with less it is too deep, and with as much or more it always has
-- the same answer. Readings one after another settle where each of them does.
import FunkLang.Proofs.Reading

namespace FunkLang
namespace Reader

variable {α β : Type} {c c1 c' : Cursor} {a : α} {b : β}

/-! ## Results -/

/-- The room did not last. -/
def TooDeep (r : EStateM.Result ParseError Cursor α) : Prop :=
  ∃ t c, r = .error ⟨.tooDeep, t⟩ c

theorem TooDeep.bind {x : Reader α} {f : α → Reader β} (h : TooDeep (x c)) :
    TooDeep ((x >>= f) c) := by
  obtain ⟨t, c1, h⟩ := h
  exact ⟨t, c1, bind_of_error h⟩

/-- There is a least room for the result. -/
def Settles (r : Nat → EStateM.Result ParseError Cursor α) (a : α) (c : Cursor) : Prop :=
  ∃ least, ∀ room, (least ≤ room → r room = .ok a c) ∧ (room < least → TooDeep (r room))

namespace Settles

theorem of_ok {r : EStateM.Result ParseError Cursor α} (h : r = .ok a c) :
    Settles (fun _ => r) a c :=
  ⟨0, fun _ => ⟨fun _ => h, fun hlt => absurd hlt (Nat.not_lt_zero _)⟩⟩

theorem bind {x : Nat → Reader α} {f : Nat → α → Reader β}
    (hx : Settles (fun room => x room c) a c1) (hf : Settles (fun room => f room a c1) b c') :
    Settles (fun room => (x room >>= f room) c) b c' := by
  obtain ⟨n, hn⟩ := hx
  obtain ⟨m, hm⟩ := hf
  refine ⟨max n m, fun room => ⟨fun hle => ?_, fun hlt => ?_⟩⟩
  · have hx := (hn room).1 (by omega)
    exact (bind_of_ok hx).trans ((hm room).1 (by omega))
  · by_cases hroom : room < n
    · exact ((hn room).2 hroom).bind
    · have hx := (hn room).1 (by omega)
      change TooDeep ((x room >>= f room) c)
      rw [bind_of_ok hx]
      exact (hm room).2 (by omega)

/-- The first reading needs no room. -/
theorem after {x : Reader α} {f : Nat → α → Reader β} (hx : x c = .ok a c1)
    (hf : Settles (fun room => f room a c1) b c') :
    Settles (fun room => (x >>= f room) c) b c' := (of_ok hx).bind hf

/-- What takes some room before it comes to another reading. -/
theorem shift {r r' : Nat → EStateM.Result ParseError Cursor α} (steps : Nat)
    (hlow : ∀ room, room < steps → TooDeep (r' room)) (hhigh : ∀ room, r' (room + steps) = r room)
    (h : Settles r a c) : Settles r' a c := by
  obtain ⟨n, hn⟩ := h
  refine ⟨n + steps, fun room => ?_⟩
  by_cases hroom : room < steps
  · refine ⟨fun hle => ?_, fun _ => hlow room hroom⟩
    omega
  · obtain ⟨rest, rfl⟩ : ∃ rest, room = rest + steps := ⟨room - steps, by omega⟩
    rw [hhigh]
    refine ⟨fun hle => (hn rest).1 ?_, fun hlt => (hn rest).2 ?_⟩
    · omega
    · omega

/-- A reading that has some room left over. -/
theorem spare {r : Nat → EStateM.Result ParseError Cursor α} (h : Settles r a c) (steps : Nat) :
    Settles (fun room => r (room + steps)) a c := by
  obtain ⟨n, hn⟩ := h
  refine ⟨n - steps, fun room => ⟨fun hle => ?_, fun hlt => ?_⟩⟩
  · exact (hn _).1 (by omega)
  · exact (hn _).2 (by omega)

/-- Where the room lasts, the answer is the one that is settled on. -/
theorem eq_ok {r : Nat → EStateM.Result ParseError Cursor α} (h : Settles r a c) {room : Nat}
    (hroom : ¬ TooDeep (r room)) : r room = .ok a c := by
  obtain ⟨n, hn⟩ := h
  by_cases hlt : room < n
  · exact absurd ((hn room).2 hlt) hroom
  · exact (hn room).1 (by omega)

end Settles

/-! ## Items one after another -/

theorem Row.length {link : Cursor → α → Cursor → Prop}
    (hlink : ∀ c a c', link c a c' → c'.tokens.length < c.tokens.length) {all : List α}
    (h : Row link c all c') : all.length + c'.tokens.length ≤ c.tokens.length := by
  induction h with
  | nil => simp
  | cons hfirst _ ih =>
    have hlt := hlink _ _ _ hfirst
    simp only [List.length_cons]
    omega

variable {item : Nat → Reader (Option α)}

theorem settles_gather {link : Cursor → α → Cursor → Prop}
    (hlink : ∀ c a c', link c a c' → Settles (fun room => item room c) (some a) c')
    {all : List α} (h : Row link c all c') (hstop : Settles (fun room => item room c') none c')
    {bound : List Token} (found : List α) (hbound : all.length ≤ bound.length) :
    Settles (fun room => gather (item room) bound found c) (found.reverse ++ all) c' := by
  induction h generalizing bound found with
  | nil =>
    rw [List.append_nil]
    cases bound with
    | nil => exact .of_ok rfl
    | cons t bound => exact hstop.bind (.of_ok rfl)
  | @cons c c1 c' a rest hfirst _ ih =>
    cases bound with
    | nil => simp at hbound
    | cons t bound =>
      have hrest := ih hstop (a :: found) (Nat.le_of_succ_le_succ hbound)
      rw [List.reverse_cons, List.append_assoc] at hrest
      exact (hlink _ _ _ hfirst).bind hrest

/-- Items are all read, each of which takes a token at least. -/
theorem settles_many {link : Cursor → α → Cursor → Prop}
    (hlink : ∀ c a c', link c a c' → Settles (fun room => item room c) (some a) c')
    (hshorter : ∀ c a c', link c a c' → c'.tokens.length < c.tokens.length)
    {all : List α} (h : Row link c all c') (hstop : Settles (fun room => item room c') none c') :
    Settles (fun room => many (item room) c) all c' := by
  have hlength := h.length hshorter
  exact settles_gather hlink h hstop [] (by unfold Cursor.tokens at *; omega)

/-- The same where the items have just the room that they need. -/
theorem many_of_row {item : Reader (Option α)} {link : Cursor → α → Cursor → Prop}
    (hlink : ∀ c a c', link c a c' → item c = .ok (some a) c')
    (hshorter : ∀ c a c', link c a c' → c'.tokens.length < c.tokens.length)
    {all : List α} (h : Row link c all c') (hstop : item c' = .ok none c') :
    many item c = .ok all c' := by
  have hitem : ∀ c a c', link c a c' → Settles (fun _ => item c) (some a) c' :=
    fun c a c' h => .of_ok (hlink c a c' h)
  obtain ⟨least, hleast⟩ := settles_many hitem hshorter h (.of_ok hstop)
  exact (hleast least).1 (Nat.le_refl _)

end Reader
end FunkLang
