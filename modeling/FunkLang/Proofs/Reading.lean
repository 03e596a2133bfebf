-- What the readers take. A reader that succeeds takes a stretch of the tokens
-- from its cursor, and what each of the small readers gives says which one.
import FunkLang.Proofs.Outcome
import FunkLang.Tree.Statement

namespace FunkLang

/-! ## Stretches of tokens -/

namespace Cursor

/-- The current token and those ahead of it. -/
def tokens (c : Cursor) : List Token := c.current :: c.ahead

/-- The last token is an end mark, so that no reader comes to a stop before one. -/
def Closed (c : Cursor) : Prop := ∃ ts last, c.tokens = ts ++ [last] ∧ last.kind = .finish

theorem eq_of_tokens {c c' : Cursor} (h : c.tokens = c'.tokens) : c = c' := by
  obtain ⟨current, ahead⟩ := c
  obtain ⟨current', ahead'⟩ := c'
  cases h
  rfl

/-- The end of the input stays. -/
theorem advance_of_finish {c : Cursor} (h : c.current.kind = .finish) : c.advance = c := by
  unfold advance
  cases c.ahead with
  | nil => rfl
  | cons next rest => exact if_pos h

theorem closed_endMark (t : Token) (line : Int) : (⟨t, [endMark line]⟩ : Cursor).Closed :=
  ⟨[t], _, rfl, rfl⟩

theorem exists_of_ne_nil {ts : List Token} (h : ts ≠ []) : ∃ c : Cursor, c.tokens = ts := by
  cases ts with
  | nil => exact absurd rfl h
  | cons t rest => exact ⟨⟨t, rest⟩, rfl⟩

end Cursor

/-- From one cursor to another, these are the tokens between them. -/
structure Span (c : Cursor) (ts : List Token) (c' : Cursor) : Prop where
  tokens : c.tokens = ts ++ c'.tokens
  closed : c'.Closed

namespace Span

variable {c c1 c' : Cursor} {ts us : List Token}

theorem refl (h : c.Closed) : Span c [] c := ⟨rfl, h⟩

theorem trans (h : Span c ts c1) (h' : Span c1 us c') : Span c (ts ++ us) c' := by
  refine ⟨?_, h'.closed⟩
  rw [h.tokens, h'.tokens, List.append_assoc]

theorem start (h : Span c ts c') : c.Closed := by
  obtain ⟨us, last, htokens, hlast⟩ := h.closed
  refine ⟨ts ++ us, last, ?_, hlast⟩
  rw [h.tokens, htokens, List.append_assoc]

/-- The current token, unless it is the end mark. -/
theorem next (h : c.Closed) (hkind : c.current.kind ≠ .finish) :
    Span c [c.current] c.advance := by
  obtain ⟨current, ahead⟩ := c
  obtain ⟨ts, last, htokens, hlast⟩ := h
  unfold Cursor.tokens at htokens
  unfold Cursor.advance
  cases ahead with
  | nil =>
    cases ts with
    | nil =>
      cases htokens
      exact absurd hlast hkind
    | cons t ts => simp at htokens
  | cons t rest =>
    simp only [if_neg hkind]
    refine ⟨rfl, ?_⟩
    cases ts with
    | nil => simp at htokens
    | cons t' ts =>
      simp only [List.cons_append, List.cons.injEq] at htokens
      exact ⟨ts, last, htokens.2, hlast⟩

theorem eq_of_nil (h : Span c [] c') : c = c' := Cursor.eq_of_tokens h.tokens

theorem current_eq {t : Token} (h : Span c (t :: ts) c') : c.current = t := by
  have htokens := h.tokens
  unfold Cursor.tokens at htokens
  exact (List.cons.inj htokens).1

/-- Past the current token. -/
theorem tail {t : Token} (h : Span c (t :: ts) c') (hkind : t.kind ≠ .finish) :
    Span c.advance ts c' := by
  have hcurrent := h.current_eq
  have hnext := next h.start (hcurrent ▸ hkind)
  refine ⟨?_, h.closed⟩
  have htokens := hnext.tokens.symm.trans h.tokens
  rw [hcurrent] at htokens
  simpa using htokens

/-- There is a cursor between two stretches. -/
theorem split (h : Span c (ts ++ us) c') : ∃ c1, Span c ts c1 ∧ Span c1 us c' := by
  have hne : us ++ c'.tokens ≠ [] := by
    simp [Cursor.tokens]
  obtain ⟨c1, hc1⟩ := Cursor.exists_of_ne_nil hne
  have hus : Span c1 us c' := ⟨hc1, h.closed⟩
  refine ⟨c1, ⟨?_, hus.start⟩, hus⟩
  rw [h.tokens, hc1, List.append_assoc]

/-- The first token of a stretch, and the rest of it. -/
theorem uncons {t : Token} (h : Span c (t :: ts) c') : ∃ c1, Span c [t] c1 ∧ Span c1 ts c' := by
  have hsplit : Span c ([t] ++ ts) c' := h
  exact hsplit.split

/-- What stands between two tokens, the second of which comes next after it. -/
theorem bracketed {opening closing : Token}
    (h : Span c (opening :: (ts ++ [closing])) c') :
    ∃ c1 c2, Span c [opening] c1 ∧ Span c1 ts c2 ∧ Span c2 [closing] c' ∧ c2.current = closing := by
  obtain ⟨c1, hopen, hspan⟩ := h.uncons
  obtain ⟨c2, hinside, hclose⟩ := hspan.split
  exact ⟨c1, c2, hopen, hinside, hclose, hclose.current_eq⟩

/-- Past one token is past the current one. -/
theorem eq_advance {t : Token} (h : Span c [t] c') (hkind : t.kind ≠ .finish) : c' = c.advance :=
  (h.tail hkind).eq_of_nil.symm

theorem length (h : Span c ts c') : c.tokens.length = ts.length + c'.tokens.length := by
  rw [h.tokens, List.length_append]

/-- Any tokens can stand before a cursor. -/
theorem exists_to (ts : List Token) (h : c'.Closed) : ∃ c, Span c ts c' := by
  have hne : ts ++ c'.tokens ≠ [] := by
    simp [Cursor.tokens]
  obtain ⟨c, hc⟩ := Cursor.exists_of_ne_nil hne
  exact ⟨c, hc, h⟩

end Span

namespace Reader

/-! ## Single tokens -/

section Tokens

variable {α κ : Type} {c c' : Cursor} {kind : Kind} {what : Expectation} {t : Token}

theorem peek_ok : peek c = .ok c.current c := rfl

theorem peek_eq_ok : peek c = .ok t c' ↔ t = c.current ∧ c' = c := by
  unfold peek
  simp [eq_comm]

theorem next_eq_ok : next c = .ok t c' ↔ t = c.current ∧ c' = c.advance := by
  unfold next
  simp [eq_comm]

theorem sees_eq_ok {b : Bool} :
    sees kind c = .ok b c' ↔ b = (c.current.kind == kind) ∧ c' = c := by
  unfold sees
  simp only [bind_eq_ok, peek_eq_ok, pure_eq_ok]
  constructor
  · rintro ⟨_, _, ⟨rfl, rfl⟩, rfl, rfl⟩
    exact ⟨rfl, rfl⟩
  · rintro ⟨rfl, rfl⟩
    exact ⟨_, _, ⟨rfl, rfl⟩, rfl, rfl⟩

theorem expect_eq_ok :
    expect kind what c = .ok t c' ↔ c.current.kind = kind ∧ t = c.current ∧ c' = c.advance := by
  unfold expect
  rw [bind_eq_ok]
  constructor
  · rintro ⟨b, c1, hsees, h⟩
    obtain ⟨rfl, rfl⟩ := sees_eq_ok.mp hsees
    split at h
    · rename_i hkind
      exact ⟨beq_iff_eq.mp hkind, next_eq_ok.mp h⟩
    · cases h
  · rintro ⟨hkind, rfl, rfl⟩
    refine ⟨true, c, sees_eq_ok.mpr ⟨by simp [hkind], rfl⟩, ?_⟩
    exact next_eq_ok.mpr ⟨rfl, rfl⟩

theorem name_eq_ok {n : Name} : name what c = .ok n c' ↔
    c.current.kind = .atom .name ∧ n = ⟨c.current.text, c.current.line⟩ ∧ c' = c.advance := by
  unfold name
  simp only [bind_eq_ok, expect_eq_ok, pure_eq_ok]
  constructor
  · rintro ⟨_, _, ⟨hkind, rfl, rfl⟩, rfl, rfl⟩
    exact ⟨hkind, rfl, rfl⟩
  · rintro ⟨hkind, rfl, rfl⟩
    exact ⟨_, _, ⟨hkind, rfl, rfl⟩, rfl, rfl⟩

theorem skip_eq_ok {b : Bool} : skip kind c = .ok b c' ↔
    c.current.kind = kind ∧ b = true ∧ c' = c.advance ∨
      c.current.kind ≠ kind ∧ b = false ∧ c' = c := by
  unfold skip
  rw [bind_eq_ok]
  constructor
  · rintro ⟨seen, c1, hsees, h⟩
    obtain ⟨rfl, rfl⟩ := sees_eq_ok.mp hsees
    by_cases hkind : c1.current.kind = kind
    · rw [if_pos (beq_iff_eq.mpr hkind)] at h
      obtain ⟨_, _, hnext, hpure⟩ := bind_eq_ok.mp h
      obtain ⟨-, rfl⟩ := next_eq_ok.mp hnext
      obtain ⟨rfl, rfl⟩ := pure_eq_ok.mp hpure
      exact Or.inl ⟨hkind, rfl, rfl⟩
    · rw [if_neg (mt beq_iff_eq.mp hkind)] at h
      obtain ⟨rfl, rfl⟩ := pure_eq_ok.mp h
      exact Or.inr ⟨hkind, rfl, rfl⟩
  · rintro (⟨hkind, rfl, rfl⟩ | ⟨hkind, rfl, rfl⟩)
    · refine ⟨true, c, sees_eq_ok.mpr ⟨by simp [hkind], rfl⟩, ?_⟩
      exact bind_eq_ok.mpr ⟨_, _, next_eq_ok.mpr ⟨rfl, rfl⟩, rfl⟩
    · exact ⟨false, c', sees_eq_ok.mpr ⟨by simp [hkind], rfl⟩, rfl⟩

theorem take?_eq_ok {as? : Kind → Option κ} {mark? : Option (Mark κ)} :
    take? as? c = .ok mark? c' ↔
      (∃ k, as? c.current.kind = some k ∧ mark? = some (c.current.as k) ∧ c' = c.advance) ∨
        as? c.current.kind = none ∧ mark? = none ∧ c' = c := by
  unfold take?
  rw [bind_eq_ok]
  constructor
  · rintro ⟨t, c1, hpeek, h⟩
    obtain ⟨rfl, rfl⟩ := peek_eq_ok.mp hpeek
    cases hk : as? c1.current.kind with
    | some k =>
      rw [hk] at h
      simp only [bind_eq_ok, next_eq_ok, pure_eq_ok] at h
      obtain ⟨_, _, ⟨rfl, rfl⟩, rfl, rfl⟩ := h
      exact Or.inl ⟨k, rfl, rfl, rfl⟩
    | none =>
      rw [hk] at h
      obtain ⟨rfl, rfl⟩ := pure_eq_ok.mp h
      exact Or.inr ⟨rfl, rfl, rfl⟩
  · rintro (⟨k, hk, rfl, rfl⟩ | ⟨hk, rfl, rfl⟩)
    · refine ⟨_, _, peek_eq_ok.mpr ⟨rfl, rfl⟩, ?_⟩
      rw [hk]
      rfl
    · refine ⟨_, _, peek_eq_ok.mpr ⟨rfl, rfl⟩, ?_⟩
      rw [hk]
      rfl

/-! ## Optional items -/

theorem led_eq_ok {item : Reader α} {a? : Option α} :
    led kind item c = .ok a? c' ↔
      (c.current.kind = kind ∧ ∃ a, item c.advance = .ok a c' ∧ a? = some a) ∨
        c.current.kind ≠ kind ∧ a? = none ∧ c' = c := by
  unfold led
  rw [bind_eq_ok]
  constructor
  · rintro ⟨b, c1, hskip, h⟩
    rcases skip_eq_ok.mp hskip with ⟨hkind, rfl, rfl⟩ | ⟨hkind, rfl, rfl⟩
    · obtain ⟨a, _, hitem, hpure⟩ := bind_eq_ok.mp h
      obtain ⟨rfl, rfl⟩ := pure_eq_ok.mp hpure
      exact Or.inl ⟨hkind, a, hitem, rfl⟩
    · obtain ⟨rfl, rfl⟩ := pure_eq_ok.mp h
      exact Or.inr ⟨hkind, rfl, rfl⟩
  · rintro (⟨hkind, a, hitem, rfl⟩ | ⟨hkind, rfl, rfl⟩)
    · refine ⟨true, _, skip_eq_ok.mpr (Or.inl ⟨hkind, rfl, rfl⟩), ?_⟩
      exact bind_eq_ok.mpr ⟨a, _, hitem, rfl⟩
    · exact ⟨false, _, skip_eq_ok.mpr (Or.inr ⟨hkind, rfl, rfl⟩), rfl⟩

theorem unlessAt_eq_ok {item : Reader α} {a? : Option α} :
    unlessAt kind item c = .ok a? c' ↔
      (c.current.kind ≠ kind ∧ ∃ a, item c = .ok a c' ∧ a? = some a) ∨
        c.current.kind = kind ∧ a? = none ∧ c' = c := by
  unfold unlessAt
  rw [bind_eq_ok]
  constructor
  · rintro ⟨b, c1, hsees, h⟩
    obtain ⟨rfl, rfl⟩ := sees_eq_ok.mp hsees
    by_cases hkind : c1.current.kind = kind
    · rw [if_pos (beq_iff_eq.mpr hkind)] at h
      obtain ⟨rfl, rfl⟩ := pure_eq_ok.mp h
      exact Or.inr ⟨hkind, rfl, rfl⟩
    · rw [if_neg (mt beq_iff_eq.mp hkind)] at h
      obtain ⟨a, _, hitem, hpure⟩ := bind_eq_ok.mp h
      obtain ⟨rfl, rfl⟩ := pure_eq_ok.mp hpure
      exact Or.inl ⟨hkind, a, hitem, rfl⟩
  · rintro (⟨hkind, a, hitem, rfl⟩ | ⟨hkind, rfl, rfl⟩)
    · refine ⟨false, c, sees_eq_ok.mpr ⟨by simp [hkind], rfl⟩, ?_⟩
      exact bind_eq_ok.mpr ⟨a, _, hitem, rfl⟩
    · exact ⟨true, c', sees_eq_ok.mpr ⟨by simp [hkind], rfl⟩, rfl⟩

end Tokens

/-! ## Items one after another -/

section Items

variable {α : Type} {c c' : Cursor}

/-- Items that lead from one cursor to another, each as `link` says. -/
inductive Row (link : Cursor → α → Cursor → Prop) : Cursor → List α → Cursor → Prop
  | nil {c : Cursor} : Row link c [] c
  | cons {c c1 c' : Cursor} {a : α} {rest : List α} :
    link c a c1 → Row link c1 rest c' → Row link c (a :: rest) c'

/-- An item takes a token at least, and where there is none it leaves the cursor. -/
structure Advances (item : Reader (Option α)) : Prop where
  found : ∀ c a c', c.Closed → item c = .ok (some a) c' → ∃ ts, Span c ts c' ∧ ts ≠ []
  absent : ∀ c c', item c = .ok none c' → c' = c

theorem row_of_gather {item : Reader (Option α)} (hitem : Advances item) {bound : List Token}
    {found all : List α} (hclosed : c.Closed) (hbound : c.tokens.length ≤ bound.length)
    (h : gather item bound found c = .ok all c') :
    ∃ rest, all = found.reverse ++ rest ∧
      Row (fun c a c' => item c = .ok (some a) c') c rest c' ∧ item c' = .ok none c' := by
  induction bound generalizing found c with
  | nil => simp [Cursor.tokens] at hbound
  | cons t bound ih =>
    obtain ⟨a?, c1, hfirst, hrest⟩ := bind_eq_ok.mp h
    cases a? with
    | none =>
      obtain ⟨rfl, rfl⟩ := pure_eq_ok.mp hrest
      cases hitem.absent _ _ hfirst
      exact ⟨[], by simp, .nil, hfirst⟩
    | some a =>
      obtain ⟨ts, hspan, hne⟩ := hitem.found _ _ _ hclosed hfirst
      have hlength := hspan.length
      have hpos := List.length_pos_iff.mpr hne
      have hbound1 : c1.tokens.length ≤ bound.length := by
        simp only [List.length_cons] at hbound
        omega
      obtain ⟨rest, rfl, hrow, hstop⟩ := ih hspan.closed hbound1 hrest
      exact ⟨a :: rest, by simp, .cons hfirst hrow, hstop⟩

theorem row_of_many {item : Reader (Option α)} (hitem : Advances item) {all : List α}
    (hclosed : c.Closed) (h : many item c = .ok all c') :
    Row (fun c a c' => item c = .ok (some a) c') c all c' ∧ item c' = .ok none c' := by
  obtain ⟨rest, rfl, hrow⟩ := row_of_gather hitem hclosed (Nat.le_refl _) h
  exact hrow

/-- The items that are found first come first, whatever comes after them. -/
theorem gather_found (item : Reader (Option α)) (bound : List Token) (found : List α) :
    gather item bound found = do
      let rest ← gather item bound []
      return found.reverse ++ rest := by
  induction bound generalizing found with
  | nil => simp [gather]
  | cons t bound ih =>
    unfold gather
    rw [bind_assoc]
    congr 1
    funext a?
    cases a? with
    | none => simp
    | some a =>
      simp only
      rw [ih (a :: found), ih [a]]
      simp

theorem gather_bound {item : Reader (Option α)} (hitem : Advances item) {bound bound' : List Token}
    {found : List α} (hclosed : c.Closed) (hbound : c.tokens.length ≤ bound.length)
    (hbound' : c.tokens.length ≤ bound'.length) :
    gather item bound found c = gather item bound' found c := by
  induction bound generalizing bound' found c with
  | nil => simp [Cursor.tokens] at hbound
  | cons t bound ih =>
    cases bound' with
    | nil => simp [Cursor.tokens] at hbound'
    | cons t' bound' =>
      cases hfirst : item c with
      | error e d => exact (bind_of_error hfirst).trans (bind_of_error hfirst).symm
      | ok a? d =>
        refine (bind_of_ok hfirst).trans (Eq.trans ?_ (bind_of_ok hfirst).symm)
        cases a? with
        | none => rfl
        | some a =>
          obtain ⟨ts, hspan, hne⟩ := hitem.found _ _ _ hclosed hfirst
          have hlength := hspan.length
          have hpos := List.length_pos_iff.mpr hne
          simp only [List.length_cons] at hbound hbound'
          exact ih hspan.closed (by omega) (by omega)

/-- After an item come the others, and after none there is nothing. -/
def others (rest : Reader (List α)) : Option α → Reader (List α)
  | some a => return a :: (← rest)
  | none => return []

/-- Reading items is reading the first one, if there is one, and then the others. -/
theorem many_eq {item : Reader (Option α)} (hitem : Advances item) (hclosed : c.Closed) :
    many item c = (item >>= others (many item)) c := by
  cases hfirst : item c with
  | error e d => exact (bind_of_error hfirst).trans (bind_of_error hfirst).symm
  | ok a? d =>
    refine (bind_of_ok hfirst).trans (Eq.trans ?_ (bind_of_ok hfirst).symm)
    cases a? with
    | none => rfl
    | some a =>
      obtain ⟨ts, hspan, hne⟩ := hitem.found _ _ _ hclosed hfirst
      have hlength := hspan.length
      have hpos := List.length_pos_iff.mpr hne
      have hahead : d.tokens.length ≤ c.ahead.length := by
        unfold Cursor.tokens at hlength ⊢
        simp only [List.length_cons] at hlength ⊢
        omega
      have hrest : gather item c.ahead [] d = many item d :=
        gather_bound hitem hspan.closed hahead (Nat.le_refl _)
      change gather item c.ahead [a] d = (many item >>= fun rest => pure (a :: rest)) d
      rw [gather_found]
      cases hmany : many item d with
      | error e d' => exact (bind_of_error (hrest.trans hmany)).trans (bind_of_error hmany).symm
      | ok all d' =>
        refine (bind_of_ok (hrest.trans hmany)).trans (Eq.trans ?_ (bind_of_ok hmany).symm)
        rfl

end Items

end Reader
end FunkLang
