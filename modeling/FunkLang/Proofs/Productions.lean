-- The grammar as it is written: a production for each phrase of the language,
-- over sequences, choices, options and repetitions. It says nothing of trees,
-- and a list of tokens may be of a phrase in more than one way.
import FunkLang.Proofs.Respelling

namespace FunkLang
namespace Grammar

/-! ## Productions -/

/-- The phrases that have a production. -/
inductive Phrase
  | program | declaration | funk | make | statement | print | block | if_ | while_ | return_ | with_
  | for_ | bare | expression | assignment | target | choice | or | and | equality
  | comparison | term | factor | unary | call | arguments | primary
deriving DecidableEq, Repr

/-- The right side of a production. Tokens of some kinds can be barred from standing first. -/
inductive Form
  | token (kind : Kind)
  | phrase (p : Phrase)
  | both (left right : Form)
  | either (left right : Form)
  | optional (form : Form)
  | many (form : Form)
  | barring (barred : Kind → Bool) (form : Form)

namespace Form

instance : Append Form := ⟨both⟩
instance : OrOp Form := ⟨either⟩

def word (w : Keyword) : Form := .token (.word w)
def sign (s : Sign) : Form := .token (.sign s)
def name : Form := .token (.atom .name)

/-- One form or more, with a separator between each two of them. -/
def row (item : Form) : Form := item ++ many (sign .comma ++ item)

/-- What stands between brackets of a list or a record, with a comma after the last or not. -/
def listed (item : Form) : Form := row item ++ optional (sign .comma)

/-- An index or a field. -/
def place : Form :=
  sign .leftBracket ++ phrase .expression ++ sign .rightBracket ||| sign .dot ++ name

/-- What is called, indexed or asked for a field goes on with one of these. -/
def suffix : Form :=
  sign .leftParen ++ optional (phrase .arguments) ++ sign .rightParen ||| place

/-- A value, or a name. -/
def atom : Form :=
  token (.atom .number) ||| token (.atom .string) ||| token (.atom .boolean) |||
    token (.atom .nil) ||| name

/-- The operators of a tier. -/
def operator : Tier → Form
  | .equality => sign .equalEqual ||| sign .bangEqual
  | .comparison => sign .greater ||| sign .greaterEqual ||| sign .less ||| sign .lessEqual
  | .term => sign .minus ||| sign .plus
  | .factor => sign .slash ||| sign .star

/-- Operands with operators between them. -/
def alternating (operator operand : Form) : Form := operand ++ many (operator ++ operand)

/-- The field of a record. -/
def entry : Form := name ++ sign .colon ++ phrase .expression

/-- The statement right after an expression. -/
def body (bars : Kind → Bool) : Form := barring bars (phrase .statement)

end Form

open Form

/-- What a phrase consists of. The tokens of `bars` do not begin a branch or a body that stands
right after an expression. -/
def Phrase.form (bars : Kind → Bool) : Phrase → Form
  | program => many (phrase declaration) ++ token .finish
  | declaration => phrase funk ||| phrase make ||| phrase statement
  | funk => word .funk ++ name ++ sign .leftParen ++ optional (row name) ++ sign .rightParen ++
      phrase block
  | make => word .make ++ name ++ optional (sign .equal ++ phrase expression) ++ sign .semicolon
  | statement => phrase print ||| phrase block ||| phrase if_ ||| phrase while_ |||
      phrase return_ ||| phrase with_ ||| phrase for_ ||| phrase bare
  | print => word .print ++ phrase expression ++ sign .semicolon
  | block => sign .leftBrace ++ many (phrase declaration) ++ sign .rightBrace
  | if_ => word .if_ ++ phrase expression ++ body bars ++
      optional (word .else_ ++ phrase statement)
  | while_ => word .while_ ++ phrase expression ++ body bars
  | return_ => word .return_ ++ optional (phrase expression) ++ sign .semicolon
  | with_ => word .with_ ++ phrase expression ++ word .as ++ name ++ phrase statement
  | for_ => word .for_ ++ name ++ word .in_ ++ phrase expression ++ body bars
  | bare => barring (· == .sign .leftBrace) (phrase expression ++ sign .semicolon)
  | expression => phrase assignment
  | assignment => phrase target ++ sign .equal ++ phrase assignment ||| phrase choice
  | target => name ||| phrase primary ++ many suffix ++ place |||
      sign .leftParen ++ phrase target ++ sign .rightParen
  | choice => phrase or ++ many (word .if_ ++ phrase or ++ word .else_ ++ phrase or)
  | or => alternating (word .or) (phrase and)
  | and => alternating (word .and) (phrase equality)
  | equality => alternating (operator .equality) (phrase comparison)
  | comparison => alternating (operator .comparison) (phrase term)
  | term => alternating (operator .term) (phrase factor)
  | factor => alternating (operator .factor) (phrase unary)
  | unary => (sign .bang ||| sign .minus) ++ phrase unary ||| phrase call
  | call => phrase primary ++ many suffix
  | arguments => listed (phrase expression)
  | primary => atom |||
      sign .leftBracket ++ optional (listed (phrase expression)) ++ sign .rightBracket |||
      sign .leftBrace ++ optional (listed entry) ++ sign .rightBrace |||
      sign .leftParen ++ phrase expression ++ sign .rightParen

/-! ## What is written by them -/

/-- None of these kinds is that of the first token. -/
def Bars (barred : Kind → Bool) (ts : List Token) : Prop := ∀ t ∈ ts.head?, barred t.kind = false

/-- The tokens are of a form. -/
inductive Writes (bars : Kind → Bool) : Form → List Token → Prop
  | token {kind : Kind} {t : Token} : t.kind = kind → Writes bars (.token kind) [t]
  | phrase {p ts} : Writes bars (p.form bars) ts → Writes bars (.phrase p) ts
  | both {left right ts us} :
    Writes bars left ts → Writes bars right us → Writes bars (.both left right) (ts ++ us)
  | left {left right ts} : Writes bars left ts → Writes bars (.either left right) ts
  | right {left right ts} : Writes bars right ts → Writes bars (.either left right) ts
  | absent {form} : Writes bars (.optional form) []
  | present {form ts} : Writes bars form ts → Writes bars (.optional form) ts
  | none {form} : Writes bars (.many form) []
  | more {form ts us} :
    Writes bars form ts → Writes bars (.many form) us → Writes bars (.many form) (ts ++ us)
  | barring {barred form ts} :
    Writes bars form ts → Bars barred ts → Writes bars (.barring barred form) ts

/-- What it is to be of a form, once it is said what it is to be of a phrase. -/
def Form.Means (of : Phrase → List Token → Prop) : Form → List Token → Prop
  | token kind, ts => ∃ t : Token, t.kind = kind ∧ ts = [t]
  | phrase p, ts => of p ts
  | both left right, ts => ∃ us vs, ts = us ++ vs ∧ left.Means of us ∧ right.Means of vs
  | either left right, ts => left.Means of ts ∨ right.Means of ts
  | optional form, ts => ts = [] ∨ form.Means of ts
  | many form, ts => ∃ pieces : List (List Token), ts = pieces.flatten ∧
      ∀ piece ∈ pieces, form.Means of piece
  | barring barred form, ts => form.Means of ts ∧ Bars barred ts

@[simp] theorem means_phrase {of : Phrase → List Token → Prop} {p : Phrase} {ts : List Token} :
    (Form.phrase p).Means of ts ↔ of p ts := Iff.rfl

@[simp] theorem means_either {of : Phrase → List Token → Prop} {left right : Form}
    {ts : List Token} : (left ||| right).Means of ts ↔ left.Means of ts ∨ right.Means of ts :=
  Iff.rfl

/-- A law of phrases that every production keeps is a law of whatever is written. -/
theorem means_of_writes {bars : Kind → Bool} {of : Phrase → List Token → Prop}
    (keeps : ∀ p ts, (p.form bars).Means of ts → of p ts) {form : Form} {ts : List Token}
    (h : Writes bars form ts) : form.Means of ts := by
  induction h with
  | token hkind => exact ⟨_, hkind, rfl⟩
  | phrase _ ih => exact keeps _ _ ih
  | both _ _ ihleft ihright => exact ⟨_, _, rfl, ihleft, ihright⟩
  | left _ ih => exact Or.inl ih
  | right _ ih => exact Or.inr ih
  | absent => exact Or.inl rfl
  | present _ ih => exact Or.inr ih
  | none => exact ⟨[], rfl, by simp⟩
  | @more _ ts _ _ _ ihfirst ihrest =>
    obtain ⟨pieces, rfl, hpieces⟩ := ihrest
    refine ⟨ts :: pieces, rfl, ?_⟩
    rintro piece (_ | ⟨_, hpiece⟩)
    · exact ihfirst
    · exact hpieces piece hpiece
  | barring _ hbars ih => exact ⟨ih, hbars⟩

/-- To be of a form is to be made of phrases as the form says. -/
theorem writes_of_means {bars : Kind → Bool} {form : Form} {ts : List Token}
    (h : form.Means (fun p => Writes bars (.phrase p)) ts) : Writes bars form ts := by
  induction form generalizing ts with
  | token kind =>
    obtain ⟨t, hkind, rfl⟩ := h
    exact .token hkind
  | phrase p => exact h
  | both left right ihleft ihright =>
    obtain ⟨us, vs, rfl, hleft, hright⟩ := h
    exact .both (ihleft hleft) (ihright hright)
  | either left right ihleft ihright =>
    rcases h with h | h
    · exact .left (ihleft h)
    · exact .right (ihright h)
  | optional form ih =>
    rcases h with rfl | h
    · exact .absent
    · exact .present (ih h)
  | many form ih =>
    obtain ⟨pieces, rfl, hpieces⟩ := h
    induction pieces with
    | nil => exact .none
    | cons piece rest ihrest =>
      rw [List.flatten_cons]
      refine .more (ih (hpieces piece (by simp))) (ihrest fun piece hpiece => ?_)
      exact hpieces piece (by simp [hpiece])
  | barring barred form ih => exact .barring (ih h.1) h.2

end Grammar
end FunkLang
