/-
# From tokens to statements

A parser takes the lexemes from its first token on. It gives a value and the
lexemes after it, or the lexemes at which it gave up: the first of these is
the token that an error quotes.

Optional parts are all or nothing. A further head or literal that cannot be
read is left in place with the separator before it, and so is a condition with
the arrow before it; the dot is then missing at that separator or arrow. After
`query` or `evidence` nothing is optional.

Key definitions:
* `literal?` : a literal, under negations and parentheses.
* `rule`, `statement`, `statements` : the grammar.
* `Literal.parse`, `parseProgram` : from text.

Key theorems:
* `length_statement_lt` : no statement is empty, so reading ends.
-/
import ProbLogic.Statement
import ProbLogic.Token.Lexer

namespace ProbLogic
namespace Parser

variable {α β : Type}

/-! ### Lists with a separator -/

/-- Whatever `p` reads is not empty. -/
def Progresses (p : List Lexeme → Option (β × List Lexeme)) : Prop :=
  ∀ ts x rest, p ts = some (x, rest) → rest.length < ts.length

/-- As many `sep` with a value of `p` as follow each other. -/
def separated (sep : Token) (p : List Lexeme → Option (β × List Lexeme)) (hp : Progresses p)
    (ts : List Lexeme) : List β × List Lexeme :=
  match ts with
  | [] => ([], [])
  | t :: ts =>
    if t.token = sep then
      match _h : p ts with
      | none => ([], t :: ts)
      | some (x, rest) =>
        let (xs, final) := separated sep p hp rest
        (x :: xs, final)
    else ([], t :: ts)
termination_by ts.length
decreasing_by exact Nat.lt_succ_of_lt (hp ts x rest _h)

theorem length_separated_le (sep : Token) (p : List Lexeme → Option (β × List Lexeme))
    (hp : Progresses p) (ts : List Lexeme) :
    (separated sep p hp ts).2.length ≤ ts.length := by
  fun_induction separated sep p hp ts with
  | case1 => exact Nat.le_refl _
  | case2 => exact Nat.le_refl _
  | case3 t ts hsep x rest h xs final hr ih =>
    have := hp ts x rest h
    simp only [hr] at ih
    simp only [List.length_cons]
    omega
  | case4 => exact Nat.le_refl _

/-! ### Literals -/

/-- A literal: an atom under negations, which cancel in pairs, and parentheses. -/
def literal? : List Lexeme → Option (Literal × List Lexeme)
  | [] => none
  | t :: ts =>
    match t.token with
    | .notWord | .notProvable | .dash => (literal? ts).map fun r => (r.1.negate, r.2)
    | .lparen =>
      match literal? ts with
      | some (l, e :: rest) => if e.token = .rparen then some (l, rest) else none
      | _ => none
    | .atom a => some (.pos a, ts)
    | _ => none

theorem literal?_progresses : Progresses literal? := by
  intro ts
  induction ts with
  | nil => intro x rest h; simp [literal?] at h
  | cons t ts ih =>
    intro x rest h
    simp only [List.length_cons]
    unfold literal? at h
    split at h
    iterate 3
      · simp only [Option.map_eq_some_iff] at h
        obtain ⟨⟨l, r⟩, h, he⟩ := h
        cases he
        exact Nat.lt_succ_of_lt (ih _ _ h)
    · split at h
      · next l e r hl =>
        have := ih _ _ hl
        split at h
        · cases h
          simp only [List.length_cons] at this
          omega
        · simp at h
      · simp at h
    · cases h
      exact Nat.lt_succ_self _
    · simp at h

/-! ### Parts without numbers -/

/-- The given token. -/
def expect (token : Token) : List Lexeme → Except (List Lexeme) (List Lexeme)
  | [] => .error []
  | t :: ts => if t.token = token then .ok ts else .error (t :: ts)

/-- A literal that must be there. -/
def literal (ts : List Lexeme) : Except (List Lexeme) (Literal × List Lexeme) :=
  match literal? ts with
  | some r => .ok r
  | none => .error ts

/-- `true`, or literals between commas. -/
def body? : List Lexeme → Option (List Literal × List Lexeme)
  | ⟨.verum, _⟩ :: ts => some ([], ts)
  | ts => (literal? ts).map fun (l, rest) =>
    let (ls, final) := separated .comma literal? literal?_progresses rest
    (l :: ls, final)

/-- An arrow with a body, if there is one. -/
def condition : List Lexeme → List Literal × List Lexeme
  | [] => ([], [])
  | t :: ts =>
    if t.token = .impliedBy ∨ t.token = .leftArrow then (body? ts).getD ([], t :: ts)
    else ([], t :: ts)

/-- What `evidence` holds: an atom with its truth value, or a literal. -/
def observation : List Lexeme → Except (List Lexeme) (Literal × List Lexeme)
  | ⟨.atom a, _⟩ :: ⟨.comma, _⟩ :: ⟨.verum, _⟩ :: ts => .ok (.pos a, ts)
  | ⟨.atom a, _⟩ :: ⟨.comma, _⟩ :: ⟨.falsum, _⟩ :: ts => .ok (.neg a, ts)
  | ts => literal ts

/-- What `p` reads, between parentheses and before a dot. -/
def directive (p : List Lexeme → Except (List Lexeme) (Literal × List Lexeme)) (ts : List Lexeme) :
    Except (List Lexeme) (Literal × List Lexeme) := do
  let ts ← expect .lparen ts
  let (l, ts) ← p ts
  let ts ← expect .rparen ts
  let ts ← expect .dot ts
  return (l, ts)

theorem length_expect_lt {token : Token} {ts rest : List Lexeme} (h : expect token ts = .ok rest) :
    rest.length < ts.length := by
  cases ts with
  | nil => simp [expect] at h
  | cons t ts =>
    simp only [expect] at h
    split at h
    · cases h
      exact Nat.lt_succ_self _
    · simp at h

theorem length_literal_lt {ts rest : List Lexeme} {l : Literal} (h : literal ts = .ok (l, rest)) :
    rest.length < ts.length := by
  unfold literal at h
  split at h
  · next hl =>
    cases h
    exact literal?_progresses _ _ _ hl
  · simp at h

theorem length_body?_le {ts rest : List Lexeme} {ls : List Literal}
    (h : body? ts = some (ls, rest)) : rest.length ≤ ts.length := by
  unfold body? at h
  split at h
  · cases h
    exact Nat.le_succ _
  · simp only [Option.map_eq_some_iff, Prod.mk.injEq] at h
    obtain ⟨⟨l, r⟩, hl, -, hr⟩ := h
    have h1 := literal?_progresses _ _ _ hl
    have h2 := length_separated_le .comma literal? literal?_progresses r
    rw [hr] at h2
    omega

theorem length_condition_le (ts : List Lexeme) : (condition ts).2.length ≤ ts.length := by
  unfold condition
  split
  · exact Nat.le_refl _
  · next t ts =>
    split
    · cases hb : body? ts with
      | none => exact Nat.le_refl _
      | some r => exact Nat.le_succ_of_le (length_body?_le hb)
    · exact Nat.le_refl _

theorem length_observation_lt {ts rest : List Lexeme} {l : Literal}
    (h : observation ts = .ok (l, rest)) : rest.length < ts.length := by
  unfold observation at h
  split at h
  · cases h
    simp only [List.length_cons]
    omega
  · cases h
    simp only [List.length_cons]
    omega
  · exact length_literal_lt h

theorem length_directive_lt {p : List Lexeme → Except (List Lexeme) (Literal × List Lexeme)}
    (hp : ∀ {ts rest l}, p ts = .ok (l, rest) → rest.length < ts.length) {ts rest : List Lexeme}
    {l : Literal} (h : directive p ts = .ok (l, rest)) : rest.length < ts.length := by
  unfold directive at h
  simp only [bind, Except.bind] at h
  split at h
  · simp at h
  · next h1 =>
    split at h
    · simp at h
    · next h2 =>
      split at h
      · simp at h
      · next h3 =>
        split at h
        · simp at h
        · next h4 =>
          have := length_expect_lt h1
          have := hp h2
          have := length_expect_lt h3
          have := length_expect_lt h4
          cases h
          omega

/-! ### Rules -/

section Numbers

variable [Scalar α]

/-- A number or a fraction, and `::`. A fraction with the denominator zero is none. -/
def annotation? : List Lexeme → Option (α × List Lexeme)
  | ⟨.number n, _⟩ :: ⟨.annotates, _⟩ :: ts => some (Scalar.ofDecimal n, ts)
  | ⟨.number n, _⟩ :: ⟨.slash, _⟩ :: ⟨.number d, _⟩ :: ⟨.annotates, _⟩ :: ts =>
    let denominator : α := Scalar.ofDecimal d
    if Scalar.isZero denominator then none
    else some (Scalar.div (Scalar.ofDecimal n) denominator, ts)
  | _ => none

/-- An atom, with an annotation or certain. -/
def choice (ts : List Lexeme) : Except (List Lexeme) (Choice α × List Lexeme) :=
  match (annotation? ts).getD (Scalar.one, ts) with
  | (p, ⟨.atom a, _⟩ :: rest) => .ok (⟨p, a⟩, rest)
  | (_, rest) => .error rest

/-- A further head of a rule. -/
def choice? (ts : List Lexeme) : Option (Choice α × List Lexeme) := (choice ts).toOption

theorem length_annotation?_lt {ts rest : List Lexeme} {p : α}
    (h : annotation? ts = some (p, rest)) : rest.length < ts.length := by
  unfold annotation? at h
  split at h
  · cases h
    simp only [List.length_cons]
    omega
  · simp only at h
    split at h
    · simp at h
    · cases h
      simp only [List.length_cons]
      omega
  · simp at h

theorem length_choice_lt {ts rest : List Lexeme} {c : Choice α} (h : choice ts = .ok (c, rest)) :
    rest.length < ts.length := by
  have hle : ((annotation? (α := α) ts).getD (Scalar.one, ts)).2.length ≤ ts.length := by
    cases ha : annotation? (α := α) ts with
    | none => exact Nat.le_refl _
    | some r => exact Nat.le_of_lt (length_annotation?_lt ha)
  unfold choice at h
  split at h
  · next hc =>
    cases h
    rw [hc] at hle
    exact hle
  · simp at h

theorem choice?_progresses : Progresses (choice? (α := α)) := by
  intro ts c rest h
  unfold choice? at h
  cases hc : choice (α := α) ts with
  | error e => simp [hc, Except.toOption] at h
  | ok r =>
    simp only [hc, Except.toOption, Option.some.injEq] at h
    subst h
    exact length_choice_lt hc

/-- An annotated disjunction with its dot. -/
def rule (ts : List Lexeme) : Except (List Lexeme) (Rule α × List Lexeme) := do
  let (first, ts) ← choice ts
  let (others, ts) := separated .semicolon choice? choice?_progresses ts
  let (body, ts) := condition ts
  let ts ← expect .dot ts
  return (⟨first :: others, body⟩, ts)

/-! ### Statements -/

/-- One statement. -/
def statement : List Lexeme → Except (List Lexeme) (Statement α × List Lexeme)
  | ⟨.query, _⟩ :: ts => (directive literal ts).map fun r => (.query r.1, r.2)
  | ⟨.evidence, _⟩ :: ts => (directive observation ts).map fun r => (.evidence r.1, r.2)
  | ts => (rule ts).map fun r => (.rule r.1, r.2)

theorem length_rule_lt {ts rest : List Lexeme} {r : Rule α} (h : rule ts = .ok (r, rest)) :
    rest.length < ts.length := by
  unfold rule at h
  cases hc : choice (α := α) ts with
  | error e => simp [hc, bind, Except.bind] at h
  | ok c =>
    have h1 := length_choice_lt hc
    have h2 := length_separated_le .semicolon choice? (choice?_progresses (α := α)) c.2
    have h3 := length_condition_le
      (separated .semicolon choice? (choice?_progresses (α := α)) c.2).2
    simp only [hc, bind, Except.bind] at h
    split at h
    · simp at h
    · next he =>
      have h4 := length_expect_lt he
      cases h
      omega

/-- No statement is empty. -/
theorem length_statement_lt {ts rest : List Lexeme} {s : Statement α}
    (h : statement ts = .ok (s, rest)) : rest.length < ts.length := by
  unfold statement at h
  split at h
  · next ts =>
    cases hd : directive literal ts with
    | error e => simp [hd, Except.map] at h
    | ok r =>
      simp only [hd, Except.map] at h
      cases h
      exact Nat.lt_succ_of_lt (length_directive_lt length_literal_lt hd)
  · next ts =>
    cases hd : directive observation ts with
    | error e => simp [hd, Except.map] at h
    | ok r =>
      simp only [hd, Except.map] at h
      cases h
      exact Nat.lt_succ_of_lt (length_directive_lt length_observation_lt hd)
  · cases hr : rule (α := α) ts with
    | error e => simp [hr, Except.map] at h
    | ok r =>
      simp only [hr, Except.map] at h
      cases h
      exact length_rule_lt hr

/-! ### Whole texts -/

/-- Statements up to the last lexeme. -/
def statements (ts : List Lexeme) : Except (List Lexeme) (List (Statement α)) :=
  if ts.isEmpty then .ok []
  else match _h : statement ts with
    | .error rest => .error rest
    | .ok (s, rest) => (statements rest).map (s :: ·)
termination_by ts.length
decreasing_by exact length_statement_lt _h

end Numbers

/-- A literal and nothing after it. -/
def onlyLiteral (ts : List Lexeme) : Except (List Lexeme) Literal :=
  match literal ts with
  | .error rest => .error rest
  | .ok (l, []) => .ok l
  | .ok (_, rest) => .error rest

/-- What `p` reads in a text, all of which must be tokens. -/
def parse (p : List Lexeme → Except (List Lexeme) β) (text : String) : Except ParseError β :=
  match Token.tokenize text.toList with
  | (lexemes, []) => (p lexemes).mapError ParseError.ofLexemes
  | (_, rest) => .error (.unrecognized (String.ofList (Text.excerpt rest)))

end Parser

/-- The literal that a text denotes. -/
def Literal.parse (text : String) : Except ParseError Literal :=
  Parser.parse Parser.onlyLiteral text

/-- The statements of a program's text. -/
def parseProgram {α : Type} [Scalar α] (text : String) : Except ParseError (List (Statement α)) :=
  Parser.parse Parser.statements text

end ProbLogic
