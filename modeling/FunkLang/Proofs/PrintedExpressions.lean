-- Printed expressions told apart. Where the text of an expression ends can be seen
-- from the text: two texts that begin with one expression each, and do not go on with
-- it, begin with the same one up to lines. An assignment that something is taken of or
-- that is called is printed without parentheses, and has to be left out.
import FunkLang.Proofs.Splitting
import FunkLang.Proofs.Unlined

namespace FunkLang

/-! ## What comes after -/

/-- The text after a term goes on with something else. -/
def AfterTerm (rest : List Char) : Prop :=
  ∃ c more, rest = c :: more ∧ c ∈ [' ', ')', ']', '\x7d', ',', '\n']

/-- The text after an expression goes on with something else, and assigns it nothing. -/
structure AfterExpr (rest : List Char) : Prop where
  term : AfterTerm rest
  value : ¬ [' ', '=', ' '] <+: rest

section After

variable {c : Char} {rest : List Char}

theorem AfterTerm.word (h : AfterTerm rest) : AfterWord rest := by
  obtain ⟨c, more, rfl, hc⟩ := h
  simp only [List.mem_cons, List.not_mem_nil, or_false] at hc
  rcases hc with rfl | rfl | rfl | rfl | rfl | rfl <;>
    exact afterWord_cons (by decide) (by decide) (by decide)

theorem afterExpr_cons (h : c ∈ [')', ']', '\x7d', ',', '\n']) : AfterExpr (c :: rest) := by
  refine ⟨⟨c, rest, rfl, List.mem_cons_of_mem _ h⟩, ?_⟩
  intro hequals
  obtain rfl := (List.cons_prefix_cons.mp hequals).1
  simp at h

/-- A space, and a word that is no equals sign. -/
theorem afterExpr_space (h : ¬ ['=', ' '] <+: rest) : AfterExpr (' ' :: rest) := by
  refine ⟨⟨' ', rest, rfl, List.mem_cons_self⟩, fun hequals => h ?_⟩
  exact (List.cons_prefix_cons.mp hequals).2

theorem afterTerm_space : AfterTerm (' ' :: rest) := ⟨' ', rest, rfl, List.mem_cons_self⟩

end After

/-! ## Single tokens -/

section Tokens

variable {m m' : Mark Atom} {n n' : Name} {rest rest' : List Char}

/-- The token at the front of a text that begins with an atom is the atom. -/
theorem Mark.front_atomText (h : Spelt (.atom m.kind) m.text.toList) (hrest : AfterWord rest) :
    ∃ c text taken, m.atomText.toList ++ rest = c :: text ∧
      Cut.front c text = .ok ⟨some (.atom m.kind, m.text.toList), taken, rest⟩ := by
  obtain ⟨kind, text, line⟩ := m
  have hword (hkind : isWord (.atom kind)) (htext : Mark.atomText ⟨kind, text, line⟩ = text) :
      ∃ c tail taken, (Mark.atomText ⟨kind, text, line⟩).toList ++ rest = c :: tail ∧
        Cut.front c tail = .ok ⟨some (.atom kind, text.toList), taken, rest⟩ := by
    obtain ⟨c, tail, heq, hletter, htail, hofWord⟩ := Spelt.exists_letter h hkind
    change text.toList = c :: tail at heq
    rw [htext, heq]
    refine ⟨c, tail ++ rest, c :: tail, rfl, ?_⟩
    rw [front_word hletter htail hrest, hofWord]
    rfl
  cases kind with
  | boolean | nil | name => exact hword rfl rfl
  | number =>
    obtain ⟨numeral, hdigits, heq⟩ := Spelt.exists_numeral h
    change text.toList = numeral.text at heq
    obtain ⟨d, tail, hall, hfront⟩ := front_number hdigits hrest
    refine ⟨d, tail, numeral.text, ?_, ?_⟩
    · rw [← hall, ← heq]
      rfl
    · rw [hfront, ← heq]
      rfl
  | string =>
    obtain ⟨hquote, hfree⟩ := quoteFor_spec h
    have htext : (Mark.atomText ⟨.string, text, line⟩).toList =
        quoteFor text :: (text.toList ++ [quoteFor text]) := by
      simp [Mark.atomText, inQuotes]
    refine ⟨quoteFor text, text.toList ++ quoteFor text :: rest, _, ?_,
      front_string hquote hfree⟩
    rw [htext]
    simp

/-- Texts that begin with an atom each begin with the same one. -/
theorem Mark.told (h : Spelt (.atom m.kind) m.text.toList)
    (h' : Spelt (.atom m'.kind) m'.text.toList) (hrest : AfterWord rest) (hrest' : AfterWord rest')
    (heq : m.atomText.toList ++ rest = m'.atomText.toList ++ rest') :
    m.unlined = m'.unlined ∧ rest = rest' := by
  obtain ⟨c, text, taken, htext, hfront⟩ := Mark.front_atomText h hrest
  obtain ⟨c', text', taken', htext', hfront'⟩ := Mark.front_atomText h' hrest'
  rw [htext, htext'] at heq
  obtain ⟨rfl, rfl⟩ := List.cons.inj heq
  rw [hfront] at hfront'
  have hcut := Except.ok.inj hfront'
  simp only [Cut.mk.injEq, Option.some.injEq, Prod.mk.injEq, Kind.atom.injEq,
    String.toList_inj] at hcut
  obtain ⟨⟨hkind, hsame⟩, -, hrests⟩ := hcut
  refine ⟨?_, hrests⟩
  unfold Mark.unlined
  rw [hkind, hsame]

theorem Name.told (h : n.IsSpelt) (h' : n'.IsSpelt) (hrest : AfterWord rest)
    (hrest' : AfterWord rest') (heq : n.text.toList ++ rest = n'.text.toList ++ rest') :
    n.unlined = n'.unlined ∧ rest = rest' := by
  let mark (name : Name) : Mark Atom := ⟨.name, name.text, name.line⟩
  have hmark : Spelt (.atom (mark n).kind) (mark n).text.toList := h
  have hmark' : Spelt (.atom (mark n').kind) (mark n').text.toList := h'
  obtain ⟨hsame, hrests⟩ := Mark.told hmark hmark' hrest hrest' heq
  refine ⟨?_, hrests⟩
  unfold Name.unlined
  exact congrArg (Name.mk · 0) (Mark.mk.inj hsame).2.1

end Tokens

/-! ## Lists -/

/-- Texts with a comma and a space between each two. -/
def commaText : List (List Char) → List Char
  | [] => []
  | [only] => only
  | first :: next :: rest => first ++ ',' :: ' ' :: commaText (next :: rest)

theorem toList_joined (texts : List String) :
    (joined ", " texts).toList = commaText (texts.map String.toList) := by
  induction texts with
  | nil => rfl
  | cons first rest ih =>
    cases rest with
    | nil => rfl
    | cons next rest =>
      rw [joined_cons_cons, String.toList_append, String.toList_append, ih]
      simp [commaText]

section Lists

variable {α β : Type} {chars : α → List Char} {bare : α → β} {fine : α → Prop}

/-- Texts that begin with one of some things each begin with the same one, lines aside. -/
def Told (chars : α → List Char) (bare : α → β) (fine : α → Prop) (a : α) : Prop :=
  ∀ b rest rest', fine b → AfterExpr rest → AfterExpr rest' →
    chars a ++ rest = chars b ++ rest' → bare a = bare b ∧ rest = rest'

/-- The text of an item does not begin with what closes the list. -/
def Opened (chars : α → List Char) (close : Char) (a : α) : Prop :=
  ∀ rest more, chars a ++ rest ≠ close :: more

/-- What stands in a list after its first item. -/
theorem commaText_cons (chars : α → List Char) (a : α) (all : List α) (close : Char)
    (rest : List Char) (hclose : close ∈ [')', ']', '\x7d']) :
    ∃ after, AfterExpr after ∧
      commaText ((a :: all).map chars) ++ close :: rest = chars a ++ after ∧
      ((all = [] ∧ after = close :: rest) ∨
        (all ≠ [] ∧ after = ',' :: ' ' :: (commaText (all.map chars) ++ close :: rest))) := by
  cases all with
  | nil =>
    have hafter : close ∈ [')', ']', '\x7d', ',', '\n'] := List.mem_append_left [',', '\n'] hclose
    exact ⟨close :: rest, afterExpr_cons hafter, rfl, Or.inl ⟨rfl, rfl⟩⟩
  | cons next all =>
    refine ⟨_, afterExpr_cons (by simp), ?_, Or.inr ⟨List.cons_ne_nil _ _, rfl⟩⟩
    simp [commaText]

/-- Lists that are closed alike are told apart if their items are. -/
theorem commaText_told {close : Char} {all all' : List α} {rest rest' : List Char}
    (hclose : close ∈ [')', ']', '\x7d']) (htold : ∀ a ∈ all, Told chars bare fine a)
    (hfine : ∀ b ∈ all', fine b)
    (hopened : ∀ a ∈ all, Opened chars close a) (hopened' : ∀ b ∈ all', Opened chars close b)
    (heq : commaText (all.map chars) ++ close :: rest =
      commaText (all'.map chars) ++ close :: rest') :
    all.map bare = all'.map bare ∧ rest = rest' := by
  have hcomma : close ≠ ',' := by
    rintro rfl
    simp at hclose
  induction all generalizing all' with
  | nil =>
    cases all' with
    | nil => exact ⟨rfl, (List.cons.inj heq).2⟩
    | cons b bs =>
      obtain ⟨after, -, htext, -⟩ := commaText_cons chars b bs close rest' hclose
      rw [htext] at heq
      exact absurd heq.symm (hopened' b List.mem_cons_self _ _)
  | cons a as ih =>
    obtain ⟨after, hafter, htext, hmore⟩ := commaText_cons chars a as close rest hclose
    cases all' with
    | nil =>
      rw [htext] at heq
      exact absurd heq (hopened a List.mem_cons_self _ _)
    | cons b bs =>
      obtain ⟨after', hafter', htext', hmore'⟩ :=
        commaText_cons chars b bs close rest' hclose
      rw [htext, htext'] at heq
      obtain ⟨hsame, rfl⟩ := htold a List.mem_cons_self b after after'
        (hfine b List.mem_cons_self) hafter hafter' heq
      rcases hmore with ⟨rfl, rfl⟩ | ⟨hne, rfl⟩
      · rcases hmore' with ⟨rfl, hrest⟩ | ⟨-, hrest⟩
        · refine ⟨?_, (List.cons.inj hrest).2⟩
          rw [List.map_singleton, List.map_singleton, hsame]
        · exact absurd (List.cons.inj hrest).1 hcomma
      · rcases hmore' with ⟨-, hrest⟩ | ⟨-, hrest⟩
        · exact absurd (List.cons.inj hrest).1.symm hcomma
        · have hinside := (List.cons.inj (List.cons.inj hrest).2).2
          obtain ⟨hothers, hrests⟩ := ih (fun a ha => htold a (List.mem_cons_of_mem _ ha))
            (fun b hb => hfine b (List.mem_cons_of_mem _ hb))
            (fun a ha => hopened a (List.mem_cons_of_mem _ ha))
            (fun b hb => hopened' b (List.mem_cons_of_mem _ hb)) hinside
          exact ⟨by rw [List.map_cons, List.map_cons, hsame, hothers], hrests⟩

end Lists

/-! ## Expressions taken apart -/

/-- What is called, or what an index or a field is taken of. -/
def Expr.base? : Expr → Option Expr
  | .call callee _ => some callee
  | .index collection _ | .field collection _ => some collection
  | .assignIndex collection _ _ | .assignField collection _ _ => some collection
  | _ => none

/-- Nothing that the expression itself calls, or takes an index or a field of, is an assignment. -/
def Expr.BaseUnassigned (e : Expr) : Prop := ∀ base ∈ e.base?, base.isAssignment = false

/-- The marks of an expression are spelt, and its grouping can be seen. -/
def Expr.Plain (e : Expr) : Prop := e.MarksSpelt ∧ e.BaseUnassigned

def Expr.chars (e : Expr) : List Char := e.text.toList

/-- An expression that nothing is added to on its right. -/
def Expr.isHead : Expr → Bool
  | .atom _ | .unary _ _ | .binary _ _ _ | .logical _ _ _ | .choice _ _ _ | .list _ _
  | .record _ _ => true
  | _ => false

/-- What is added to an expression on its right. -/
inductive Suffix
  | call (arguments : List Expr)
  | index (place : Expr)
  | field (key : Name)

namespace Suffix

def apply (e : Expr) : Suffix → Expr
  | call arguments => .call e arguments
  | index place => .index e place
  | field key => .field e key

def parts : Suffix → List Expr
  | call arguments => arguments
  | index place => [place]
  | field _ => []

def IsSpelt : Suffix → Prop
  | field key => key.IsSpelt
  | _ => True

def chars : Suffix → List Char
  | call arguments => '(' :: (commaText (arguments.map Expr.chars) ++ [')'])
  | index place => '[' :: (place.chars ++ [']'])
  | field key => '.' :: key.text.toList

def unlined : Suffix → Suffix
  | call arguments => .call (arguments.map Expr.unlined)
  | index place => .index place.unlined
  | field key => .field key.unlined

theorem unlined_apply (s : Suffix) (e : Expr) :
    (s.apply e).unlined = s.unlined.apply e.unlined := by
  cases s with
  | call arguments => simp [apply, unlined, Expr.unlined, Expr.allUnlined_eq_map]
  | index | field => rfl

end Suffix

/-- An expression put together: a head, what is added to it, and what is assigned to that. -/
def assembled (head : Expr) (suffixes : List Suffix) (value : Option Expr) : Expr :=
  let target := suffixes.foldl Suffix.apply head
  match value with
  | none => target
  | some value => (Grammar.assignment? value target).getD target

/-- The text of what is assigned. -/
def valueChars : Option Expr → List Char
  | none => []
  | some value => ' ' :: '=' :: ' ' :: value.chars

/-- An expression stands in another one, at any depth. -/
def Expr.Inside (e inner : Expr) : Prop :=
  ∃ part ∈ e.parts, (Part.expr part).Contains (.expr inner)

theorem Expr.Inside.part {e inner : Expr} (h : inner ∈ e.parts) : e.Inside inner :=
  ⟨inner, h, .refl⟩

theorem Expr.Inside.within {e part inner : Expr} (hpart : part ∈ e.parts) (h : part.Inside inner) :
    e.Inside inner := by
  obtain ⟨next, hnext, hinner⟩ := h
  exact ⟨part, hpart, hinner.head (List.mem_map_of_mem hnext)⟩

/-- An expression consists of a head, what is added to it, and what is assigned to that. -/
structure Expr.ConsistsOf (e head : Expr) (suffixes : List Suffix) (value : Option Expr) :
    Prop where
  isHead : head.isHead
  chars : e.chars = head.chars ++ (suffixes.flatMap Suffix.chars ++ valueChars value)
  unlined : e.unlined =
    assembled head.unlined (suffixes.map Suffix.unlined) (value.map Expr.unlined)
  head_spelt : head.MarksSpelt
  suffixes_spelt : ∀ s ∈ suffixes, s.IsSpelt
  head_parts : ∀ part ∈ head.parts, e.Inside part
  suffix_parts : ∀ s ∈ suffixes, ∀ part ∈ s.parts, e.Inside part
  value_part : ∀ part ∈ value, e.Inside part

namespace Expr

variable {e base head : Expr} {suffixes : List Suffix}

theorem consistsOf_head (hhead : e.isHead) (hspelt : e.MarksSpelt) : e.ConsistsOf e [] none where
  isHead := hhead
  chars := by simp [valueChars]
  unlined := rfl
  head_spelt := hspelt
  suffixes_spelt := nofun
  head_parts _ := .part
  suffix_parts := nofun
  value_part := nofun

/-! ### Their texts -/

theorem texts_eq_map (all : List Expr) : Expr.texts all = all.map Expr.text := by
  induction all with
  | nil => rfl
  | cons e rest ih => rw [Expr.texts, ih, List.map_cons]

/-- The text of an entry of a record. -/
def entryChars (entry : Name × Expr) : List Char :=
  entry.1.text.toList ++ ':' :: ' ' :: entry.2.chars

theorem entryTexts_eq_map (entries : List (Name × Expr)) :
    (Expr.entryTexts entries).map String.toList = entries.map entryChars := by
  induction entries with
  | nil => rfl
  | cons entry rest ih =>
    obtain ⟨key, value⟩ := entry
    rw [Expr.entryTexts, List.map_cons, ih, List.map_cons]
    simp [entryChars, chars]

/-- Two operands with a word between them, the second one with what closes the group. -/
def infixChars (left word rest : List Char) : List Char :=
  '(' :: (left ++ ' ' :: (word ++ ' ' :: rest))

variable {left right condition yes no collection place value : Expr} {name : Name}

theorem chars_unary (op : Mark UnaryOp) (operand : Expr) :
    (unary op operand).chars = '(' :: (op.text.toList ++ (operand.chars ++ [')'])) := by
  simp [chars, text]

theorem chars_binary (op : Mark BinaryOp) : (binary left op right).chars =
    infixChars left.chars op.text.toList (right.chars ++ [')']) := by
  simp [chars, text, infixChars]

theorem chars_logical (op : LogicalOp) : (logical op left right).chars =
    infixChars left.chars op.text.toList (right.chars ++ [')']) := by
  simp [chars, text, infixChars]

theorem chars_choice : (choice condition yes no).chars =
    infixChars yes.chars ['i', 'f'] (condition.chars ++ ' ' :: 'e' :: 'l' :: 's' :: 'e' :: ' ' ::
      (no.chars ++ [')'])) := by
  simp [chars, text, infixChars]

theorem chars_list (line : Int) (elements : List Expr) :
    (list line elements).chars = '[' :: (commaText (elements.map chars) ++ [']']) := by
  have hchars : String.toList ∘ text = chars := rfl
  simp [chars, text, toList_joined, texts_eq_map, hchars]

theorem chars_record (line : Int) (entries : List (Name × Expr)) :
    (record line entries).chars = '\x7b' :: (commaText (entries.map entryChars) ++ ['\x7d']) := by
  simp [chars, text, toList_joined, entryTexts_eq_map]

theorem chars_apply (e : Expr) (s : Suffix) : (s.apply e).chars = e.chars ++ s.chars := by
  cases s with
  | call arguments =>
    have hchars : String.toList ∘ text = chars := rfl
    simp [Suffix.apply, Suffix.chars, chars, text, toList_joined, texts_eq_map, hchars]
  | index place => simp [Suffix.apply, Suffix.chars, chars, text]
  | field key => simp [Suffix.apply, Suffix.chars, chars, text]

theorem chars_assign : (assign name value).chars = name.text.toList ++ valueChars (some value) := by
  simp [chars, text, valueChars]

theorem chars_assignIndex : (assignIndex collection place value).chars =
    collection.chars ++ (Suffix.index place).chars ++ valueChars (some value) := by
  simp [chars, text, valueChars, Suffix.chars]

theorem chars_assignField : (assignField collection name value).chars =
    collection.chars ++ (Suffix.field name).chars ++ valueChars (some value) := by
  simp [chars, text, valueChars, Suffix.chars]

/-! ### Their parts -/

/-- One more suffix. -/
theorem ConsistsOf.suffix (h : base.ConsistsOf head suffixes none) (s : Suffix)
    (hbase : base ∈ e.parts) (hparts : ∀ part ∈ s.parts, part ∈ e.parts) (hspelt : s.IsSpelt)
    {value : Option Expr} (hvalue : ∀ part ∈ value, part ∈ e.parts)
    (hchars : e.chars = base.chars ++ s.chars ++ valueChars value)
    (hunlined : e.unlined =
      assembled base.unlined [s.unlined] (value.map Expr.unlined)) :
    e.ConsistsOf head (suffixes ++ [s]) value where
  isHead := h.isHead
  chars := by
    rw [hchars, h.chars]
    simp [valueChars]
  unlined := by
    rw [hunlined, h.unlined]
    simp [assembled]
  head_spelt := h.head_spelt
  suffixes_spelt := by
    intro s' hs'
    rcases List.mem_append.mp hs' with hs' | hs'
    · exact h.suffixes_spelt s' hs'
    · rw [List.mem_singleton.mp hs']
      exact hspelt
  head_parts part hpart := (h.head_parts part hpart).within hbase
  suffix_parts := by
    intro s' hs' part hpart
    rcases List.mem_append.mp hs' with hs' | hs'
    · exact (h.suffix_parts s' hs' part hpart).within hbase
    · rw [List.mem_singleton.mp hs'] at hpart
      exact .part (hparts part hpart)
  value_part part hpart := .part (hvalue part hpart)

theorem ConsistsOf.apply (h : base.ConsistsOf head suffixes none) (s : Suffix)
    (hspelt : s.IsSpelt) : (s.apply base).ConsistsOf head (suffixes ++ [s]) none := by
  have hbase : base ∈ (s.apply base).parts := by cases s <;> simp [Suffix.apply, parts]
  have hparts : ∀ part ∈ s.parts, part ∈ (s.apply base).parts := by
    intro part hpart
    cases s with
    | call arguments => exact List.mem_cons_of_mem _ hpart
    | index place => exact List.mem_cons_of_mem _ hpart
    | field key => cases hpart
  have hvalue : ∀ part ∈ (none : Option Expr), part ∈ (s.apply base).parts := by
    rintro _ ⟨⟩
  apply h.suffix s hbase hparts hspelt hvalue
  · rw [chars_apply]
    simp [valueChars]
  · exact Suffix.unlined_apply s base

/-- Every plain expression is taken apart, and what is no assignment has no value. -/
theorem exists_consistsOf (e : Expr) (h : (Part.expr e).Throughout Plain) :
    ∃ head suffixes value, e.ConsistsOf head suffixes value ∧
      (e.isAssignment = false → value = none) := by
  induction e using Expr.parts_induction with
  | step e ih =>
    obtain ⟨⟨hspelt, hbase⟩, hparts⟩ := Part.throughout_expr.mp h
    have hterm {base : Expr} (hpart : base ∈ e.parts) (hmem : base ∈ e.base?) :
        ∃ head suffixes, base.ConsistsOf head suffixes none := by
      obtain ⟨head, suffixes, value, hbase', hnone⟩ := ih base hpart (hparts base hpart)
      rw [hnone (hbase base hmem)] at hbase'
      exact ⟨head, suffixes, hbase'⟩
    cases e with
    | atom | unary | binary | logical | choice | list | record =>
      exact ⟨_, _, _, consistsOf_head rfl hspelt, fun _ => rfl⟩
    | call callee arguments =>
      obtain ⟨head, suffixes, hcallee⟩ := hterm List.mem_cons_self rfl
      exact ⟨_, _, _, hcallee.apply (.call arguments) trivial, fun _ => rfl⟩
    | index collection place =>
      obtain ⟨head, suffixes, hcollection⟩ := hterm List.mem_cons_self rfl
      exact ⟨_, _, _, hcollection.apply (.index place) trivial, fun _ => rfl⟩
    | field collection key =>
      obtain ⟨head, suffixes, hcollection⟩ := hterm List.mem_cons_self rfl
      exact ⟨_, _, _, hcollection.apply (.field key) hspelt, fun _ => rfl⟩
    | assign name value =>
      refine ⟨.atom ⟨.name, name.text, name.line⟩, [], some value, ?_, nofun⟩
      refine ⟨rfl, chars_assign, rfl, hspelt, nofun, nofun, nofun, ?_⟩
      rintro _ ⟨⟩
      exact .part List.mem_cons_self
    | assignIndex collection place value =>
      obtain ⟨head, suffixes, hcollection⟩ := hterm List.mem_cons_self rfl
      refine ⟨_, _, some value, hcollection.suffix (.index place) List.mem_cons_self ?_
        trivial ?_ chars_assignIndex rfl, nofun⟩
      · intro part hpart
        rw [List.mem_singleton.mp hpart]
        simp [parts]
      · rintro _ ⟨⟩
        simp [parts]
    | assignField collection key value =>
      obtain ⟨head, suffixes, hcollection⟩ := hterm List.mem_cons_self rfl
      refine ⟨_, _, some value, hcollection.suffix (.field key) List.mem_cons_self ?_
        hspelt ?_ chars_assignField rfl, ?_⟩
      · rintro _ ⟨⟩
      · rintro _ ⟨⟩
        simp [parts]
      · rintro ⟨⟩

end Expr

/-! ## How expressions begin -/

/-- A character that an expression may begin with. -/
def opens (c : Char) : Bool := isWordPart c || isQuote c || c == '(' || c == '[' || c == '\x7b'

/-- An expression and all in it is plain. -/
abbrev Expr.AllPlain (e : Expr) : Prop := (Part.expr e).Throughout Expr.Plain

theorem Expr.AllPlain.inside {e inner : Expr} (h : e.AllPlain) (hinner : e.Inside inner) :
    inner.AllPlain := by
  obtain ⟨part, hpart, hcontains⟩ := hinner
  exact ((Part.throughout_expr.mp h).2 part hpart).within hcontains

section Openings

variable {m : Mark Atom} {e : Expr}

theorem Mark.exists_opening (h : Spelt (.atom m.kind) m.text.toList) :
    ∃ c tail, m.atomText.toList = c :: tail ∧ (isWordPart c || isQuote c) = true := by
  obtain ⟨kind, text, line⟩ := m
  cases kind with
  | boolean | nil | name =>
    obtain ⟨c, tail, heq, hletter, -⟩ := Spelt.exists_letter h rfl
    exact ⟨c, tail, heq, by rw [wordPart_of_letter hletter, Bool.true_or]⟩
  | number =>
    obtain ⟨n, hn, heq⟩ := Spelt.exists_numeral h
    obtain ⟨d, tail, htext, hdigit⟩ := hn.text_eq
    exact ⟨d, tail, heq.trans htext, by rw [wordPart_of_digit hdigit, Bool.true_or]⟩
  | string =>
    obtain ⟨hquote, -⟩ := quoteFor_spec h
    refine ⟨quoteFor text, text.toList ++ [quoteFor text], ?_, ?_⟩
    · simp [Mark.atomText, inQuotes]
    · rw [hquote, Bool.or_true]

theorem Expr.exists_opening (h : e.AllPlain) : ∃ c tail, e.chars = c :: tail ∧ opens c := by
  obtain ⟨head, suffixes, value, hconsists, -⟩ := e.exists_consistsOf h
  have hhead : ∃ c tail, head.chars = c :: tail ∧ opens c := by
    have hspelt := hconsists.head_spelt
    have hisHead := hconsists.isHead
    cases head with
    | atom mark =>
      obtain ⟨c, tail, heq, hc⟩ := Mark.exists_opening hspelt
      refine ⟨c, tail, heq, ?_⟩
      unfold opens
      simp only [hc, Bool.true_or]
    | unary op operand => exact ⟨_, _, chars_unary op operand, rfl⟩
    | binary left op right => exact ⟨_, _, chars_binary op, rfl⟩
    | logical op left right => exact ⟨_, _, chars_logical op, rfl⟩
    | choice condition yes no => exact ⟨_, _, chars_choice, rfl⟩
    | list line elements => exact ⟨_, _, chars_list line elements, rfl⟩
    | record line entries => exact ⟨_, _, chars_record line entries, rfl⟩
    | _ => cases hisHead
  obtain ⟨c, tail, heq, hc⟩ := hhead
  refine ⟨c, tail ++ (suffixes.flatMap Suffix.chars ++ valueChars value), ?_, hc⟩
  rw [hconsists.chars, heq]
  rfl

/-- No expression begins with another character. -/
theorem Expr.opened (h : e.AllPlain) {close : Char} (hclose : opens close = false) :
    Opened Expr.chars close e := by
  intro rest more heq
  obtain ⟨c, tail, hchars, hc⟩ := e.exists_opening h
  rw [hchars] at heq
  rw [(List.cons.inj heq).1, hclose] at hc
  cases hc

end Openings

/-! ## Telling pieces apart -/

/-- An expression is told apart from every plain one. -/
abbrev Expr.Told : Expr → Prop := FunkLang.Told Expr.chars Expr.unlined Expr.AllPlain

section Pieces

variable {rest rest' : List Char}

theorem AfterWord.of_suffix {s : Suffix} (h : s.IsSpelt) (rest : List Char) :
    AfterWord (s.chars ++ rest) := by
  cases s with
  | call arguments => exact afterWord_cons (by decide) (by decide) (by decide)
  | index place => exact afterWord_cons (by decide) (by decide) (by decide)
  | field key =>
    obtain ⟨c, tail, htext, hletter, -⟩ := Spelt.exists_letter h rfl
    change AfterWord ('.' :: key.text.toList ++ rest)
    rw [htext]
    exact afterWord_point (digit_of_letter hletter)

theorem AfterWord.of_suffixes {suffixes : List Suffix} (h : ∀ s ∈ suffixes, s.IsSpelt)
    (hrest : AfterTerm rest) : AfterWord (suffixes.flatMap Suffix.chars ++ rest) := by
  cases suffixes with
  | nil => exact hrest.word
  | cons s more =>
    rw [List.flatMap_cons, List.append_assoc]
    exact .of_suffix (h s List.mem_cons_self) _

theorem AfterTerm.of_value {value : Option Expr} (hrest : AfterTerm rest) :
    AfterTerm (valueChars value ++ rest) := by
  cases value with
  | none => exact hrest
  | some value => exact afterTerm_space

theorem opens_close {close : Char} (h : close ∈ [')', ']', '\x7d']) : opens close = false := by
  simp only [List.mem_cons, List.not_mem_nil, or_false] at h
  rcases h with rfl | rfl | rfl <;> rfl

/-- What stands in brackets, with commas between. -/
theorem exprs_told {all all' : List Expr} {close : Char} (hclose : close ∈ [')', ']', '\x7d'])
    (htold : ∀ e ∈ all, e.Told) (hplain : ∀ e ∈ all, e.AllPlain) (hplain' : ∀ e ∈ all', e.AllPlain)
    (heq : commaText (all.map Expr.chars) ++ close :: rest =
      commaText (all'.map Expr.chars) ++ close :: rest') :
    all.map Expr.unlined = all'.map Expr.unlined ∧ rest = rest' :=
  commaText_told hclose htold hplain' (fun e he => Expr.opened (hplain e he) (opens_close hclose))
    (fun e he => Expr.opened (hplain' e he) (opens_close hclose)) heq

theorem Suffix.told {s s' : Suffix} (hspelt : s.IsSpelt) (hspelt' : s'.IsSpelt)
    (htold : ∀ part ∈ s.parts, part.Told) (hplain : ∀ part ∈ s.parts, part.AllPlain)
    (hplain' : ∀ part ∈ s'.parts, part.AllPlain) (hrest : AfterWord rest)
    (hrest' : AfterWord rest') (heq : s.chars ++ rest = s'.chars ++ rest') :
    s.unlined = s'.unlined ∧ rest = rest' := by
  cases s with
  | call arguments =>
    cases s' with
    | call arguments' =>
      simp only [chars, List.cons_append, List.append_assoc, List.nil_append,
        List.cons.injEq, true_and] at heq
      obtain ⟨hsame, hrests⟩ := exprs_told (by simp) htold hplain hplain' heq
      exact ⟨congrArg Suffix.call hsame, hrests⟩
    | index | field => simp [chars] at heq
  | index place =>
    cases s' with
    | index place' =>
      simp only [chars, List.cons_append, List.append_assoc, List.nil_append,
        List.cons.injEq, true_and] at heq
      obtain ⟨hsame, hrests⟩ := htold place List.mem_cons_self place' _ _
        (hplain' place' List.mem_cons_self) (afterExpr_cons (by simp)) (afterExpr_cons (by simp))
        heq
      exact ⟨congrArg Suffix.index hsame, (List.cons.inj hrests).2⟩
    | call | field => simp [chars] at heq
  | field key =>
    cases s' with
    | field key' =>
      simp only [chars, List.cons_append, List.cons.injEq, true_and] at heq
      obtain ⟨hsame, hrests⟩ := Name.told hspelt hspelt' hrest hrest' heq
      exact ⟨congrArg Suffix.field hsame, hrests⟩
    | call | index => simp [chars] at heq

/-- No suffix begins like what comes after a term. -/
theorem Suffix.not_afterTerm (s : Suffix) {more : List Char} (h : AfterTerm (s.chars ++ more)) :
    False := by
  obtain ⟨c, tail, heq, hc⟩ := h
  cases s <;> simp only [chars, List.cons_append, List.cons.injEq] at heq <;>
    rw [← heq.1] at hc <;> simp at hc

theorem suffixes_told {suffixes suffixes' : List Suffix} (hspelt : ∀ s ∈ suffixes, s.IsSpelt)
    (hspelt' : ∀ s ∈ suffixes', s.IsSpelt) (htold : ∀ s ∈ suffixes, ∀ part ∈ s.parts, part.Told)
    (hplain : ∀ s ∈ suffixes, ∀ part ∈ s.parts, part.AllPlain)
    (hplain' : ∀ s ∈ suffixes', ∀ part ∈ s.parts, part.AllPlain) (hrest : AfterTerm rest)
    (hrest' : AfterTerm rest')
    (heq : suffixes.flatMap Suffix.chars ++ rest = suffixes'.flatMap Suffix.chars ++ rest') :
    suffixes.map Suffix.unlined = suffixes'.map Suffix.unlined ∧ rest = rest' := by
  induction suffixes generalizing suffixes' with
  | nil =>
    cases suffixes' with
    | nil => exact ⟨rfl, heq⟩
    | cons s' more' =>
      rw [List.flatMap_nil, List.nil_append, List.flatMap_cons, List.append_assoc] at heq
      exact (s'.not_afterTerm (heq ▸ hrest)).elim
  | cons s more ih =>
    cases suffixes' with
    | nil =>
      rw [List.flatMap_nil, List.nil_append, List.flatMap_cons, List.append_assoc] at heq
      exact (s.not_afterTerm (heq ▸ hrest')).elim
    | cons s' more' =>
      rw [List.forall_mem_cons] at hspelt hspelt' htold hplain hplain'
      rw [List.flatMap_cons, List.flatMap_cons, List.append_assoc, List.append_assoc] at heq
      obtain ⟨hsame, hmore⟩ := Suffix.told hspelt.1 hspelt'.1 htold.1 hplain.1 hplain'.1
        (.of_suffixes hspelt.2 hrest) (.of_suffixes hspelt'.2 hrest') heq
      obtain ⟨hothers, hrests⟩ := ih hspelt.2 hspelt'.2 htold.2 hplain.2 hplain'.2 hmore
      exact ⟨by rw [List.map_cons, List.map_cons, hsame, hothers], hrests⟩

theorem value_told {value value' : Option Expr} (htold : ∀ v ∈ value, v.Told)
    (hplain' : ∀ v ∈ value', v.AllPlain) (hrest : AfterExpr rest) (hrest' : AfterExpr rest')
    (heq : valueChars value ++ rest = valueChars value' ++ rest') :
    value.map Expr.unlined = value'.map Expr.unlined ∧ rest = rest' := by
  cases value with
  | none =>
    cases value' with
    | none => exact ⟨rfl, heq⟩
    | some v' => exact absurd ⟨v'.chars ++ rest', heq.symm⟩ hrest.value
  | some v =>
    cases value' with
    | none => exact absurd ⟨v.chars ++ rest, heq⟩ hrest'.value
    | some v' =>
      simp only [valueChars, List.cons_append, List.cons.injEq, true_and] at heq
      obtain ⟨hsame, hrests⟩ := htold v rfl v' rest rest' (hplain' v' rfl) hrest hrest' heq
      exact ⟨congrArg some hsame, hrests⟩

/-! ### Groups -/

/-- A word that may stand between two operands, with a space on each side. -/
structure IsInfix (word : List Char) : Prop where
  no_space : ' ' ∉ word
  not_equals : word ≠ ['=']

theorem IsInfix.afterExpr {word : List Char} (h : IsInfix word) (rest : List Char) :
    AfterExpr (' ' :: (word ++ ' ' :: rest)) := by
  apply afterExpr_space
  intro hequals
  cases word with
  | nil => cases (List.cons_prefix_cons.mp hequals).1
  | cons c word =>
    obtain ⟨rfl, hspace⟩ := List.cons_prefix_cons.mp hequals
    cases word with
    | nil => exact h.not_equals rfl
    | cons d word =>
      obtain ⟨rfl, -⟩ := List.cons_prefix_cons.mp hspace
      exact h.no_space (by simp)

theorem words_told {word word' : List Char} (h : ' ' ∉ word) (h' : ' ' ∉ word')
    (heq : word ++ ' ' :: rest = word' ++ ' ' :: rest') : word = word' ∧ rest = rest' := by
  have hall {word : List Char} (h : ' ' ∉ word) : ∀ d ∈ word, (d != ' ') = true := by
    intro d hd
    rw [bne_iff_ne]
    rintro rfl
    exact h hd
  have hspace (rest : List Char) : ∀ d ∈ (' ' :: rest).head?, (d != ' ') = false := by
    rintro _ ⟨⟩
    rfl
  obtain ⟨htake, hdrop⟩ := takeWhile_of_head (hall h) (hspace rest)
  obtain ⟨htake', hdrop'⟩ := takeWhile_of_head (hall h') (hspace rest')
  rw [heq] at htake hdrop
  refine ⟨htake.symm.trans htake', (List.cons.inj (hdrop.symm.trans hdrop')).2⟩

theorem infix_told {left left' : Expr} {word word' tail tail' : List Char} (htold : left.Told)
    (hplain' : left'.AllPlain) (hword : IsInfix word) (hword' : IsInfix word')
    (heq : Expr.infixChars left.chars word tail ++ rest =
      Expr.infixChars left'.chars word' tail' ++ rest') :
    left.unlined = left'.unlined ∧ word = word' ∧ tail ++ rest = tail' ++ rest' := by
  simp only [Expr.infixChars, List.cons_append, List.append_assoc, List.cons.injEq, true_and] at heq
  obtain ⟨hsame, hmore⟩ := htold left' _ _ hplain' (hword.afterExpr _) (hword'.afterExpr _) heq
  obtain ⟨hwords, hrests⟩ := words_told hword.no_space hword'.no_space (List.cons.inj hmore).2
  exact ⟨hsame, hwords, hrests⟩

theorem BinaryOp.isInfix (op : BinaryOp) : IsInfix op.sign.spelling := by
  cases op <;> exact ⟨by decide, by decide⟩

theorem LogicalOp.isInfix (op : LogicalOp) : IsInfix op.text.toList := by
  cases op <;> exact ⟨by decide, by decide⟩

theorem isInfix_if : IsInfix ['i', 'f'] := ⟨by decide, by decide⟩

theorem BinaryOp.unlined_told {op op' : Mark BinaryOp}
    (hspelt : op.text.toList = op.kind.sign.spelling)
    (hspelt' : op'.text.toList = op'.kind.sign.spelling)
    (heq : op.kind.sign.spelling = op'.kind.sign.spelling) : op.unlined = op'.unlined := by
  have hkind : op.kind = op'.kind := by
    have hsign := Sign.spelling_injective heq
    cases h : op.kind <;> cases h' : op'.kind <;> rw [h, h'] at hsign <;> cases hsign
  have htext : op.text = op'.text := by
    rw [← String.toList_inj, hspelt, hspelt', heq]
  unfold Mark.unlined
  rw [hkind, htext]

/-! ### Heads -/

namespace Expr

/-- The bracket that a head begins with, if it is no atom. -/
def bracket? : Expr → Option Char
  | unary _ _ | binary _ _ _ | logical _ _ _ | choice _ _ _ => some '('
  | list _ _ => some '['
  | record _ _ => some '\x7b'
  | _ => none

theorem bracket?_eq {head : Expr} (hhead : head.isHead) (hspelt : head.MarksSpelt)
    (rest : List Char) :
    head.bracket? = (head.chars ++ rest).head?.filter fun c => c ∈ ['(', '[', '\x7b'] := by
  cases head with
  | atom m =>
    obtain ⟨c, more, heq, hc⟩ := Mark.exists_opening hspelt
    have hchars : (atom m).chars = c :: more := heq
    have hnone : c ∉ ['(', '[', '\x7b'] := by
      intro hmem
      simp only [List.mem_cons, List.not_mem_nil, or_false] at hmem
      rcases hmem with rfl | rfl | rfl <;> cases hc
    rw [hchars, List.cons_append, List.head?_cons, Option.filter_some_neg (by simpa using hnone)]
    rfl
  | unary op operand =>
    rw [chars_unary]
    rfl
  | binary left op right =>
    rw [chars_binary]
    rfl
  | logical op left right =>
    rw [chars_logical]
    rfl
  | choice condition yes no =>
    rw [chars_choice]
    rfl
  | list line elements =>
    rw [chars_list]
    rfl
  | record line entries =>
    rw [chars_record]
    rfl
  | _ => cases hhead

/-- An expression with a word between two of its parts: the part before the word, the word, and
the text after it. -/
inductive Worded : Expr → Expr → List Char → List Char → Prop
  | binary {left op right} :
    Worded (.binary left op right) left op.text.toList (right.chars ++ [')'])
  | logical {op left right} :
    Worded (.logical op left right) left op.text.toList (right.chars ++ [')'])
  | choice {condition yes no} :
    Worded (.choice condition yes no) yes ['i', 'f']
      (condition.chars ++ ' ' :: 'e' :: 'l' :: 's' :: 'e' :: ' ' :: (no.chars ++ [')']))

section Worded

variable {e first : Expr} {word tail : List Char}

theorem Worded.chars_eq (h : e.Worded first word tail) :
    e.chars = infixChars first.chars word tail := by
  cases h with
  | binary => exact chars_binary _
  | logical => exact chars_logical _
  | choice => exact chars_choice

theorem Worded.isInfix (h : e.Worded first word tail) (hspelt : e.MarksSpelt) : IsInfix word := by
  cases h with
  | @binary left op right =>
    have hword : op.text.toList = op.kind.sign.spelling := hspelt
    rw [hword]
    exact op.kind.isInfix
  | @logical op => exact op.isInfix
  | choice => exact isInfix_if

theorem Worded.mem_parts (h : e.Worded first word tail) : first ∈ e.parts := by
  cases h <;> simp [parts]

/-- What is printed with a word in it begins as its first part does, and not as an operator. -/
theorem unary_apart {op : Mark UnaryOp} {operand : Expr} (h : e.Worded first word tail)
    (hspelt : op.text.toList = op.kind.sign.spelling) (hfirst : first.AllPlain) :
    (unary op operand).chars ++ rest ≠ e.chars ++ rest' := by
  intro heq
  obtain ⟨c, more, hchars, hc⟩ := first.exists_opening hfirst
  rw [h.chars_eq, chars_unary, hspelt, hchars] at heq
  simp only [infixChars, List.cons_append, List.append_assoc, List.cons.injEq, true_and] at heq
  cases hop : op.kind <;> rw [hop] at heq <;> obtain ⟨rfl, -⟩ := List.cons.inj heq <;> cases hc

end Worded

theorem unary_told {op op' : Mark UnaryOp} {operand operand' : Expr}
    (hspelt : op.text.toList = op.kind.sign.spelling)
    (hspelt' : op'.text.toList = op'.kind.sign.spelling) (htold : operand.Told)
    (hplain' : operand'.AllPlain)
    (heq : (unary op operand).chars ++ rest = (unary op' operand').chars ++ rest') :
    (unary op operand).unlined = (unary op' operand').unlined ∧ rest = rest' := by
  rw [chars_unary, chars_unary] at heq
  simp only [List.cons_append, List.append_assoc, List.cons.injEq, true_and] at heq
  have hsign : op.text.toList = op'.text.toList ∧
      operand.chars ++ ')' :: rest = operand'.chars ++ ')' :: rest' := by
    rw [hspelt, hspelt'] at heq ⊢
    cases hop : op.kind <;> cases hop' : op'.kind <;> rw [hop, hop'] at heq <;>
      obtain ⟨hsame, hmore⟩ := List.cons.inj heq
    · exact ⟨rfl, hmore⟩
    · cases hsame
    · cases hsame
    · exact ⟨rfl, hmore⟩
  obtain ⟨hsame, hrests⟩ := htold operand' _ _ hplain' (afterExpr_cons (by simp))
    (afterExpr_cons (by simp)) hsign.2
  have hkind : op.kind = op'.kind := by
    have hspelling := hsign.1
    rw [hspelt, hspelt'] at hspelling
    cases hop : op.kind <;> cases hop' : op'.kind <;> rw [hop, hop'] at hspelling <;>
      cases hspelling
  have hop : op.unlined = op'.unlined := by
    unfold Mark.unlined
    rw [hkind, String.toList_inj.mp hsign.1]
  refine ⟨?_, (List.cons.inj hrests).2⟩
  unfold unlined
  rw [hop, hsame]

/-- What closes a group is no part of its last operand. -/
theorem closed_told {e e' : Expr} (htold : e.Told) (hplain' : e'.AllPlain)
    (heq : e.chars ++ [')'] ++ rest = e'.chars ++ [')'] ++ rest') :
    e.unlined = e'.unlined ∧ rest = rest' := by
  rw [List.append_assoc, List.append_assoc] at heq
  obtain ⟨hsame, hrests⟩ := htold e' _ _ hplain' (afterExpr_cons (by simp))
    (afterExpr_cons (by simp)) heq
  exact ⟨hsame, (List.cons.inj hrests).2⟩

theorem binary_ne_word (op : BinaryOp) :
    op.sign.spelling ≠ ['i', 'f'] ∧ ∀ word : LogicalOp, op.sign.spelling ≠ word.text.toList := by
  cases op <;> refine ⟨by decide, fun word => ?_⟩ <;> cases word <;> decide

theorem logical_ne_if (op : LogicalOp) : op.text.toList ≠ ['i', 'f'] := by
  cases op <;> decide

section Worded

variable {e e' first : Expr} {word tail : List Char}

/-- Printed alike, two expressions have the same word at the same place. -/
theorem worded_told (h : e.Worded first word tail) (hbracket : e'.bracket? = some '(')
    (hspelt : e.MarksSpelt) (hspelt' : e'.MarksSpelt) (htold : first.Told)
    (hplain : first.AllPlain) (hplain' : ∀ part ∈ e'.parts, part.AllPlain)
    (heq : e.chars ++ rest = e'.chars ++ rest') :
    ∃ first' tail', e'.Worded first' word tail' ∧ first.unlined = first'.unlined ∧
      tail ++ rest = tail' ++ rest' := by
  obtain ⟨first', word', tail', h'⟩ : ∃ first' word' tail', e'.Worded first' word' tail' := by
    cases e' with
    | unary op' operand' => exact absurd heq.symm (unary_apart h hspelt' hplain)
    | binary left' op' right' => exact ⟨_, _, _, .binary⟩
    | logical op' left' right' => exact ⟨_, _, _, .logical⟩
    | choice condition' yes' no' => exact ⟨_, _, _, .choice⟩
    | _ => cases hbracket
  rw [h.chars_eq, h'.chars_eq] at heq
  obtain ⟨hsame, rfl, hmore⟩ := infix_told htold (hplain' first' h'.mem_parts)
    (h.isInfix hspelt) (h'.isInfix hspelt') heq
  exact ⟨first', tail', h', hsame, hmore⟩

end Worded

theorem binary_told {left right e' : Expr} {op : Mark BinaryOp}
    (hbracket : e'.bracket? = some '(') (hspelt : op.text.toList = op.kind.sign.spelling)
    (hspelt' : e'.MarksSpelt) (htold : left.Told ∧ right.Told) (hplain : left.AllPlain)
    (hplain' : ∀ part ∈ e'.parts, part.AllPlain)
    (heq : (binary left op right).chars ++ rest = e'.chars ++ rest') :
    (binary left op right).unlined = e'.unlined ∧ rest = rest' := by
  obtain ⟨left', tail', h', hleft, hmore⟩ :=
    worded_told .binary hbracket hspelt hspelt' htold.1 hplain hplain' heq
  generalize hword : op.text.toList = word at h'
  rw [hspelt] at hword
  cases h' with
  | @binary _ op' right' =>
    obtain ⟨hright, hrests⟩ := closed_told htold.2 (hplain' right' (by simp [parts])) hmore
    have hop : op.unlined = op'.unlined :=
      BinaryOp.unlined_told hspelt hspelt' (hword.trans hspelt')
    refine ⟨?_, hrests⟩
    unfold unlined
    rw [hleft, hop, hright]
  | @logical op' => exact absurd hword ((binary_ne_word op.kind).2 op')
  | choice => exact absurd hword (binary_ne_word op.kind).1

theorem logical_told {left right e' : Expr} {op : LogicalOp}
    (hbracket : e'.bracket? = some '(') (hspelt' : e'.MarksSpelt)
    (htold : left.Told ∧ right.Told) (hplain : left.AllPlain)
    (hplain' : ∀ part ∈ e'.parts, part.AllPlain)
    (heq : (logical op left right).chars ++ rest = e'.chars ++ rest') :
    (logical op left right).unlined = e'.unlined ∧ rest = rest' := by
  obtain ⟨left', tail', h', hleft, hmore⟩ :=
    worded_told .logical hbracket trivial hspelt' htold.1 hplain hplain' heq
  generalize hword : op.text.toList = word at h'
  cases h' with
  | @binary _ op' => exact absurd (hword.trans hspelt').symm ((binary_ne_word op'.kind).2 op)
  | @logical op' _ right' =>
    obtain ⟨hright, hrests⟩ := closed_told htold.2 (hplain' right' (by simp [parts])) hmore
    have hop : op = op' := by
      cases op <;> cases op' <;> first | rfl | exact absurd hword (by decide)
    refine ⟨?_, hrests⟩
    unfold unlined
    rw [hleft, hop, hright]
  | choice => exact absurd hword (logical_ne_if op)

theorem choice_told {condition yes no e' : Expr} (hbracket : e'.bracket? = some '(')
    (hspelt' : e'.MarksSpelt) (htold : condition.Told ∧ yes.Told ∧ no.Told) (hplain : yes.AllPlain)
    (hplain' : ∀ part ∈ e'.parts, part.AllPlain)
    (heq : (choice condition yes no).chars ++ rest = e'.chars ++ rest') :
    (choice condition yes no).unlined = e'.unlined ∧ rest = rest' := by
  obtain ⟨yes', tail', h', hyes, hmore⟩ :=
    worded_told .choice hbracket trivial hspelt' htold.2.1 hplain hplain' heq
  generalize hword : ['i', 'f'] = word at h'
  cases h' with
  | @binary _ op' => exact absurd (hword.trans hspelt').symm (binary_ne_word op'.kind).1
  | @logical op' => exact absurd hword.symm (logical_ne_if op')
  | @choice condition' _ no' =>
    have helse (more : List Char) : AfterExpr (' ' :: 'e' :: more) := by
      apply afterExpr_space
      intro hequals
      cases (List.cons_prefix_cons.mp hequals).1
    rw [List.append_assoc, List.append_assoc] at hmore
    obtain ⟨hcondition, hmore'⟩ := htold.1 condition' _ _ (hplain' condition' (by simp [parts]))
      (helse _) (helse _) hmore
    have hlast : no.chars ++ [')'] ++ rest = no'.chars ++ [')'] ++ rest' := by
      simpa using hmore'
    obtain ⟨hno, hrests⟩ := closed_told htold.2.2 (hplain' no' (by simp [parts])) hlast
    refine ⟨?_, hrests⟩
    unfold unlined
    rw [hcondition, hyes, hno]

/-! ### Entries -/

/-- An entry of a record, lines aside. -/
def bareEntry : Name × Expr → Name × Expr := Prod.map Name.unlined unlined

theorem entry_told {entry : Name × Expr} (hkey : entry.1.IsSpelt) (htold : entry.2.Told) :
    FunkLang.Told entryChars bareEntry (fun other => other.1.IsSpelt ∧ other.2.AllPlain) entry := by
  rintro ⟨key', value'⟩ rest rest' ⟨hkey', hvalue'⟩ hrest hrest' heq
  obtain ⟨key, value⟩ := entry
  have hcolon (more : List Char) : AfterWord (':' :: more) :=
    afterWord_cons (by decide) (by decide) (by decide)
  simp only [entryChars, List.append_assoc, List.cons_append] at heq
  obtain ⟨hkeys, hmore⟩ := Name.told hkey hkey' (hcolon _) (hcolon _) heq
  obtain ⟨hvalues, hrests⟩ := htold value' rest rest' hvalue' hrest hrest'
    (List.cons.inj (List.cons.inj hmore).2).2
  exact ⟨Prod.ext hkeys hvalues, hrests⟩

theorem entry_opened {entry : Name × Expr} (hkey : entry.1.IsSpelt) {close : Char}
    (hclose : opens close = false) : Opened entryChars close entry := by
  intro rest more heq
  obtain ⟨c, tail, htext, hletter, -⟩ := Spelt.exists_letter hkey rfl
  unfold entryChars at heq
  rw [htext] at heq
  obtain rfl := (List.cons.inj heq).1
  unfold opens at hclose
  rw [wordPart_of_letter hletter] at hclose
  cases hclose

/-! ### All heads -/

theorem heads_told {head head' : Expr} (hhead : head.isHead) (hhead' : head'.isHead)
    (hspelt : head.MarksSpelt) (hspelt' : head'.MarksSpelt)
    (htold : ∀ part ∈ head.parts, part.Told) (hplain : ∀ part ∈ head.parts, part.AllPlain)
    (hplain' : ∀ part ∈ head'.parts, part.AllPlain) (hrest : AfterWord rest)
    (hrest' : AfterWord rest') (heq : head.chars ++ rest = head'.chars ++ rest') :
    head.unlined = head'.unlined ∧ rest = rest' := by
  have hbracket : head.bracket? = head'.bracket? := by
    rw [bracket?_eq hhead hspelt rest, bracket?_eq hhead' hspelt' rest', heq]
  cases head with
  | atom m =>
    cases head' with
    | atom m' =>
      obtain ⟨hsame, hrests⟩ := Mark.told hspelt hspelt' hrest hrest' heq
      exact ⟨congrArg atom hsame, hrests⟩
    | assign | assignIndex | assignField | call | index | field => cases hhead'
    | _ => cases hbracket
  | unary op operand =>
    cases head' with
    | unary op' operand' =>
      exact unary_told hspelt hspelt' (htold operand List.mem_cons_self)
        (hplain' operand' List.mem_cons_self) heq
    | binary left' op' right' =>
      exact absurd heq (unary_apart .binary hspelt (hplain' left' (by simp [parts])))
    | logical op' left' right' =>
      exact absurd heq (unary_apart .logical hspelt (hplain' left' (by simp [parts])))
    | choice condition' yes' no' =>
      exact absurd heq (unary_apart .choice hspelt (hplain' yes' (by simp [parts])))
    | assign | assignIndex | assignField | call | index | field => cases hhead'
    | _ => cases hbracket
  | binary left op right =>
    exact binary_told hbracket.symm hspelt hspelt'
      ⟨htold left (by simp [parts]), htold right (by simp [parts])⟩ (hplain left (by simp [parts]))
      hplain' heq
  | logical op left right =>
    exact logical_told hbracket.symm hspelt'
      ⟨htold left (by simp [parts]), htold right (by simp [parts])⟩ (hplain left (by simp [parts]))
      hplain' heq
  | choice condition yes no =>
    exact choice_told hbracket.symm hspelt' ⟨htold condition (by simp [parts]),
      htold yes (by simp [parts]), htold no (by simp [parts])⟩ (hplain yes (by simp [parts]))
      hplain' heq
  | list line elements =>
    cases head' with
    | list line' elements' =>
      rw [chars_list, chars_list] at heq
      simp only [List.cons_append, List.append_assoc, List.nil_append, List.cons.injEq,
        true_and] at heq
      obtain ⟨hsame, hrests⟩ := exprs_told (by simp) htold hplain hplain' heq
      refine ⟨?_, hrests⟩
      unfold unlined
      rw [allUnlined_eq_map, allUnlined_eq_map]
      exact congrArg (list 0) hsame
    | assign | assignIndex | assignField | call | index | field => cases hhead'
    | _ => cases hbracket
  | record line entries =>
    cases head' with
    | record line' entries' =>
      rw [chars_record, chars_record] at heq
      simp only [List.cons_append, List.append_assoc, List.nil_append, List.cons.injEq,
        true_and] at heq
      have hclose : '\x7d' ∈ [')', ']', '\x7d'] := by simp
      obtain ⟨hsame, hrests⟩ := commaText_told hclose
        (fun entry hentry => entry_told (hspelt entry hentry)
          (htold entry.2 (List.mem_map_of_mem hentry)))
        (fun entry hentry => ⟨hspelt' entry hentry, hplain' entry.2 (List.mem_map_of_mem hentry)⟩)
        (fun entry hentry => entry_opened (hspelt entry hentry) (opens_close hclose))
        (fun entry hentry => entry_opened (hspelt' entry hentry) (opens_close hclose)) heq
      refine ⟨?_, hrests⟩
      unfold unlined
      rw [entriesUnlined_eq_map, entriesUnlined_eq_map]
      exact congrArg (record 0) hsame
    | assign | assignIndex | assignField | call | index | field => cases hhead'
    | _ => cases hbracket
  | _ => cases hhead

/-! ## Telling expressions apart -/

/-- Every plain expression is told apart. -/
theorem told (e : Expr) (h : e.AllPlain) : e.Told := by
  have hall : (Part.expr e).Throughout fun inner => inner.AllPlain → inner.Told := by
    induction e using Expr.parts_induction with
    | step e ih =>
      have hparts := (Part.throughout_expr.mp h).2
      have hbelow := fun part hpart => ih part hpart (hparts part hpart)
      refine Part.throughout_expr.mpr ⟨fun _ => ?_, hbelow⟩
      have hinside {inner : Expr} (hinner : e.Inside inner) : inner.Told := by
        obtain ⟨part, hpart, hcontains⟩ := hinner
        exact ih part hpart (hparts part hpart) inner hcontains
          ((hparts part hpart).within hcontains)
      intro e' rest rest' h' hrest hrest' heq
      obtain ⟨head, suffixes, value, hconsists, -⟩ := e.exists_consistsOf h
      obtain ⟨head', suffixes', value', hconsists', -⟩ := e'.exists_consistsOf h'
      rw [hconsists.chars, hconsists'.chars] at heq
      simp only [List.append_assoc] at heq
      have hafter : AfterTerm (valueChars value ++ rest) := hrest.term.of_value
      have hafter' : AfterTerm (valueChars value' ++ rest') := hrest'.term.of_value
      obtain ⟨hheads, hmore⟩ := heads_told hconsists.isHead hconsists'.isHead
        hconsists.head_spelt hconsists'.head_spelt
        (fun part hpart => hinside (hconsists.head_parts part hpart))
        (fun part hpart => h.inside (hconsists.head_parts part hpart))
        (fun part hpart => h'.inside (hconsists'.head_parts part hpart))
        (.of_suffixes hconsists.suffixes_spelt hafter)
        (.of_suffixes hconsists'.suffixes_spelt hafter') heq
      obtain ⟨hsuffixes, hmore'⟩ := suffixes_told hconsists.suffixes_spelt
        hconsists'.suffixes_spelt
        (fun s hs part hpart => hinside (hconsists.suffix_parts s hs part hpart))
        (fun s hs part hpart => h.inside (hconsists.suffix_parts s hs part hpart))
        (fun s hs part hpart => h'.inside (hconsists'.suffix_parts s hs part hpart))
        hafter hafter' hmore
      obtain ⟨hvalues, hrests⟩ := value_told
        (fun v hv => hinside (hconsists.value_part v hv))
        (fun v hv => h'.inside (hconsists'.value_part v hv)) hrest hrest' hmore'
      refine ⟨?_, hrests⟩
      rw [hconsists.unlined, hconsists'.unlined, hheads, hsuffixes, hvalues]
  exact hall e .refl h

end Expr

end Pieces

end FunkLang
