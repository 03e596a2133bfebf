-- A sum of ones. Its terms are read one after the other with the same room,
-- however many they are, while its printed text has a pair of parentheses for
-- each sign, and takes all the rules of the ladder to get inside of a pair.
import FunkLang.Program
import FunkLang.Proofs.ReadDerivations
import FunkLang.Proofs.Respelling

namespace FunkLang

/-- A script is a program if its tokens are one. -/
theorem readScript_eq_ok {source : String} {program : List Stmt} :
    readScript source = .ok program ↔
      ∃ tokens, scan source = .ok tokens ∧ parseTokens standardRoom tokens = .ok program := by
  unfold readScript readTokens
  cases scan source with
  | error problem => simp [Except.mapError, bind, Except.bind]
  | ok tokens =>
    cases hparse : parseTokens standardRoom tokens <;>
      simp [Except.mapError, bind, Except.bind, hparse]

namespace Grammar

open Reader (Rule byRule TooDeep)

/-- What is read with some room is read with more. -/
theorem parseTokens_of_le {ts : List Token} {last : Token} {program : List Stmt} {room more : Nat}
    (ended : Ended ts last) (h : parseTokens room (ts ++ [last]) = .ok program)
    (hle : room ≤ more) : parseTokens more (ts ++ [last]) = .ok program := by
  obtain ⟨least, hleast⟩ := parsed_of_derived ended (derived_of_parsed ended h)
  refine (hleast more).1 (Nat.le_trans ?_ hle)
  refine Nat.le_of_not_lt fun hlt => ?_
  obtain ⟨t, hdeep⟩ := (hleast room).2 hlt
  rw [h] at hdeep
  cases hdeep

section Ladder

variable {c c' : Cursor} {rule operand : Rule} {e : Expr} {room : Nat}

/-! ## Up the ladder -/

/-- A rule reads what its operand does, if nothing extends it. -/
theorem byRule_operand (h : operand? rule = some operand) (hread : byRule room operand c = .ok e c')
    (hstop : extends? c'.current.kind ≠ some rule) : byRule (room + 1) rule c = .ok e c' := by
  have hmany : Reader.many (extension? room rule) c' = .ok [] c' :=
    bind_of_ok (extension?_eq_none h hstop room)
  rw [byRule_extended h]
  exact (bind_of_ok hread).trans (bind_of_ok hmany)

/-- A sum is read as an expression, if nothing extends it. -/
theorem expression_of_term (hread : byRule room .term c = .ok e c')
    (hstop : extends? c'.current.kind = none) : Reader.expression (room + 7) c = .ok e c' := by
  have hne (rule : Rule) : extends? c'.current.kind ≠ some rule := by simp [hstop]
  have hequal : c'.current.kind ≠ .sign .equal := by
    intro heq
    rw [heq] at hstop
    cases hstop
  have hcomparison : byRule (room + 1) .comparison c = .ok e c' :=
    byRule_operand rfl hread (hne _)
  have hequality : byRule (room + 2) .equality c = .ok e c' :=
    byRule_operand rfl hcomparison (hne _)
  have hconjunction : byRule (room + 3) .conjunction c = .ok e c' :=
    byRule_operand rfl hequality (hne _)
  have hdisjunction : byRule (room + 4) .disjunction c = .ok e c' :=
    byRule_operand rfl hconjunction (hne _)
  have hchoice : byRule (room + 5) .choice c = .ok e c' := byRule_operand rfl hdisjunction (hne _)
  exact (bind_of_ok hchoice).trans (bind_of_ok (sees_of_ne hequal))

/-- An expression alone is a statement. -/
theorem statement_of_expression {c1 : Cursor} {closing : Token}
    (hbegins : beginsExpression c.current.kind) (hbrace : c.current.kind ≠ .sign .leftBrace)
    (hread : Reader.expression room c = .ok e c1) (hclose : Span c1 [closing] c')
    (hclosing : closing.kind = .sign .semicolon) :
    Reader.statement (room + 3) .list c = .ok (.expression c.current.line e) c' := by
  have hended : Reader.ended .statementEnd (Reader.expression room) c = .ok e c' :=
    (bind_of_ok hread).trans (bind_of_ok (expect_of_span hclose hclosing Kind.noConfusion))
  have hvalue : (do
      let value ← Reader.ended .statementEnd (Reader.expression room)
      return Stmt.expression c.current.line value : Reader Stmt) c =
        .ok (.expression c.current.line e) c' := bind_of_ok hended
  have hbody : Reader.statement (room + 2) .body c = .ok (.expression c.current.line e) c' := by
    simp only [Reader.statement]
    refine (bind_of_ok Reader.peek_ok).trans ?_
    cases hkind : c.current.kind with
    | sign sign =>
      rw [hkind] at hbrace
      cases sign <;> first | exact absurd rfl hbrace | exact hvalue
    | word w =>
      rw [hkind] at hbegins
      cases hbegins
    | _ => exact hvalue
  simp only [Reader.statement.eq_1]
  refine (bind_of_ok Reader.peek_ok).trans ?_
  cases hkind : c.current.kind with
  | word w =>
    rw [hkind] at hbegins
    cases hbegins
  | _ => exact hbody

/-- One statement before the end mark is a program. -/
theorem program_of_statement {s : Stmt} (hread : Reader.statement room .list c = .ok s c')
    (hbegins : c.current.kind ≠ .finish) (hend : c'.current.kind = .finish)
    (hshorter : c'.tokens.length < c.tokens.length) : Reader.program room c = .ok [s] c' := by
  have hitem : Reader.unlessAt .finish (Reader.statement room .list) c = .ok (some s) c' :=
    (bind_of_ok (sees_of_ne hbegins)).trans (bind_of_ok hread)
  have hrow : Reader.Row (fun c1 s' c2 => c1 = c ∧ s' = s ∧ c2 = c') c [s] c' :=
    .cons ⟨rfl, rfl, rfl⟩ .nil
  refine Reader.many_of_row ?_ ?_ hrow (bind_of_ok (sees_of_eq hend))
  · rintro _ _ _ ⟨rfl, rfl, rfl⟩
    exact hitem
  · rintro _ _ _ ⟨rfl, rfl, rfl⟩
    exact hshorter

/-! ## Down the ladder -/

end Ladder

end Grammar

/-! ## Sums -/

/-- One, and one more for each sign. -/
def sumOfOnes : Nat → Expr
  | 0 => .atom ⟨.number, "1", 1⟩
  | n + 1 => .binary (sumOfOnes n) ⟨.plus, "+", 1⟩ (.atom ⟨.number, "1", 1⟩)

/-- So many times a plus sign and a one, and what ends a statement. -/
def plusOnes : Nat → List Char
  | 0 => [';']
  | n + 1 => '+' :: '1' :: plusOnes n

/-- The script of a sum alone. -/
def sumScript (n : Nat) : String := String.ofList ('1' :: plusOnes n)

theorem digits_one : (⟨['1'], []⟩ : Numeral).Digits :=
  ⟨List.cons_ne_nil _ _, List.forall_mem_singleton.mpr rfl, nofun⟩

def oneToken : Token := ⟨.atom .number, "1", 1⟩

def plusToken : Token := ⟨.sign .plus, "+", 1⟩

def semicolonToken : Token := ⟨.sign .semicolon, ";", 1⟩

/-- The tokens of as many plus signs and ones, and of what ends a statement. -/
def plusTokens : Nat → List Token
  | 0 => [semicolonToken]
  | n + 1 => plusToken :: oneToken :: plusTokens n

theorem afterWord_plusOnes (n : Nat) : AfterWord (plusOnes n) := by
  cases n <;> exact afterWord_cons (by decide) (by decide) (by decide)

theorem front_one (n : Nat) :
    Cut.front '1' (plusOnes n) = .ok (.plain (.atom .number) ['1'] (plusOnes n)) := by
  obtain ⟨d, text, heq, hfront⟩ := front_number digits_one (afterWord_plusOnes n)
  have hcons : '1' :: plusOnes n = d :: text := heq
  cases hcons
  exact hfront

theorem scanFrom_plusOnes (n : Nat) (found : List Token) :
    scanFrom (2 * n + 1) 1 (plusOnes n) found =
      .ok (found.reverse ++ (plusTokens n ++ [endMark 1])) := by
  induction n generalizing found with
  | zero =>
    change Except.ok (endMark 1 :: semicolonToken :: found).reverse = _
    simp [plusTokens]
  | succ n ih =>
    have hfront : Cut.front '+' ('1' :: plusOnes n) =
        .ok (.plain (.sign .plus) ['+'] ('1' :: plusOnes n)) := rfl
    rw [plusOnes, show 2 * (n + 1) + 1 = 2 * n + 1 + 1 + 1 by omega, scanFrom_cons hfront]
    change scanFrom (2 * n + 1 + 1) 1 ('1' :: plusOnes n) (plusToken :: found) = _
    rw [scanFrom_cons (front_one n)]
    change scanFrom (2 * n + 1) 1 (plusOnes n) (oneToken :: plusToken :: found) = _
    rw [ih]
    simp [plusTokens]

theorem length_plusOnes (n : Nat) : (plusOnes n).length = 2 * n + 1 := by
  induction n with
  | zero => rfl
  | succ n ih =>
    rw [plusOnes, List.length_cons, List.length_cons, ih]
    omega

theorem scan_sum (n : Nat) :
    scan (sumScript n) = .ok ((oneToken :: plusTokens n) ++ [endMark 1]) := by
  unfold scan sumScript
  rw [String.toList_ofList]
  simp only [List.length_cons, length_plusOnes, scanFrom_cons (front_one n)]
  exact scanFrom_plusOnes n [oneToken]

/-! ### Reading a sum -/

open Grammar (Ended extension?)
open Reader (byRule TooDeep Extension)

/-- Where a reader is with so many plus signs ahead. -/
def beforePlus : Nat → Cursor
  | 0 => ⟨semicolonToken, [endMark 1]⟩
  | n + 1 => ⟨plusToken, oneToken :: (beforePlus n).tokens⟩

theorem beforePlus_tokens (n : Nat) : (beforePlus n).tokens = plusTokens n ++ [endMark 1] := by
  induction n with
  | zero => rfl
  | succ n ih =>
    change plusToken :: oneToken :: (beforePlus n).tokens = _
    rw [ih]
    rfl

theorem factor_one (n : Nat) : byRule 10 .factor ⟨oneToken, (beforePlus n).tokens⟩ =
    .ok (.atom ⟨.number, "1", 1⟩) (beforePlus n) := by
  cases n <;> rfl

/-- A plus sign and a one after it. -/
def plusOne : Extension := .binary ⟨.plus, "+", 1⟩ (.atom ⟨.number, "1", 1⟩)

theorem extension_plus (n : Nat) :
    extension? 10 .term (beforePlus (n + 1)) = .ok (some plusOne) (beforePlus n) := by
  have htake : Reader.take? (Reader.tierOp? .term) (beforePlus (n + 1)) =
      .ok (some ⟨.plus, "+", 1⟩) ⟨oneToken, (beforePlus n).tokens⟩ := rfl
  exact (bind_of_ok htake).trans (bind_of_ok (factor_one n))

theorem sum_of_extensions (n : Nat) :
    (List.replicate n plusOne).foldl Extension.apply (sumOfOnes 0) = sumOfOnes n := by
  induction n with
  | zero => rfl
  | succ n ih =>
    rw [List.replicate_succ', List.foldl_append, ih]
    rfl

theorem term_sum (n : Nat) : byRule 11 .term ⟨oneToken, (beforePlus n).tokens⟩ =
    .ok (sumOfOnes n) (beforePlus 0) := by
  have hrow : Reader.Row (fun c x c' => ∃ n, c = beforePlus (n + 1) ∧ x = plusOne ∧
      c' = beforePlus n) (beforePlus n) (List.replicate n plusOne) (beforePlus 0) := by
    induction n with
    | zero => exact .nil
    | succ n ih => exact .cons ⟨n, rfl, rfl, rfl⟩ ih
  have hmany : Reader.many (extension? 10 .term) (beforePlus n) =
      .ok (List.replicate n plusOne) (beforePlus 0) := by
    refine Reader.many_of_row ?_ ?_ hrow rfl
    · rintro _ _ _ ⟨n, rfl, rfl, rfl⟩
      exact extension_plus n
    · rintro _ _ _ ⟨n, rfl, rfl, rfl⟩
      change (beforePlus n).tokens.length < (plusToken :: oneToken :: (beforePlus n).tokens).length
      simp only [List.length_cons]
      omega
  have hterm : byRule 11 .term = Reader.extended (byRule 10 .factor) (extension? 10 .term) :=
    Grammar.byRule_extended rfl 10
  rw [hterm, ← sum_of_extensions]
  exact (bind_of_ok (factor_one n)).trans (bind_of_ok hmany)

theorem ended_sum (n : Nat) : Ended (oneToken :: plusTokens n) (endMark 1) := by
  have hplus : ∀ t ∈ plusTokens n, t.kind ≠ .finish := by
    induction n with
    | zero => exact List.forall_mem_singleton.mpr nofun
    | succ n ih => exact List.forall_mem_cons.mpr ⟨nofun, List.forall_mem_cons.mpr ⟨nofun, ih⟩⟩
  exact ⟨rfl, List.forall_mem_cons.mpr ⟨nofun, hplus⟩⟩

theorem parseTokens_sum (n : Nat) :
    parseTokens 21 ((oneToken :: plusTokens n) ++ [endMark 1]) =
      .ok [.expression 1 (sumOfOnes n)] := by
  have hclose : Span (beforePlus 0) [semicolonToken] ⟨endMark 1, []⟩ :=
    ⟨rfl, [], endMark 1, rfl, rfl⟩
  have hexpression := Grammar.expression_of_term (term_sum n) rfl
  have hbrace : oneToken.kind ≠ .sign .leftBrace := by decide
  have hstatement := Grammar.statement_of_expression rfl hbrace hexpression hclose rfl
  have hshorter : (⟨endMark 1, []⟩ : Cursor).tokens.length <
      (⟨oneToken, (beforePlus n).tokens⟩ : Cursor).tokens.length := by
    simp [Cursor.tokens]
  have hone : oneToken.kind ≠ .finish := by decide
  have hprogram := Grammar.program_of_statement hstatement hone rfl hshorter
  have hcursor : Cursor.ofTokens ((oneToken :: plusTokens n) ++ [endMark 1]) =
      ⟨oneToken, (beforePlus n).tokens⟩ := by
    refine Cursor.eq_of_tokens ((ended_sum n).span.tokens.trans ?_)
    change _ = oneToken :: (beforePlus n).tokens
    rw [beforePlus_tokens]
    rfl
  unfold parseTokens
  rw [hcursor, hprogram]
  rfl

theorem readScript_sum (n : Nat) :
    readScript (sumScript n) = .ok [.expression 1 (sumOfOnes n)] := by
  have hparse := Grammar.parseTokens_of_le (ended_sum n) (parseTokens_sum n)
    (show 21 ≤ standardRoom by decide)
  exact readScript_eq_ok.mpr ⟨_, scan_sum n, hparse⟩

end FunkLang
