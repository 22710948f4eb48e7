/-
# The grammar of programs

A program is a list of statements, and which tokens form which statement is
said by a grammar, one inductive relation for each kind of phrase:

    program     =  statement*
    statement   =  query ( literal ) .  |  evidence ( observation ) .  |  rule
    observation =  atom , (true | false)  |  literal
    rule        =  choice (; choice)* [(:- | <-) body] .
    choice      =  [number [/ number] ::] atom
    body        =  true  |  literal (, literal)*
    literal     =  (not | \+ | -) literal  |  ( literal )  |  atom

The parser takes the first alternative that fits, and as many heads and
literals as it can get. What it reads is derivable (`statementOf_statement`).
For the other direction it has to be seen that no early choice hides a
derivation: a phrase is read whatever follows it, or, if it can be continued,
wherever the token after it does not continue it (`statement_of_statementOf`).
So the parser accepts exactly the programs of the grammar, and a list of tokens
has at most one tree (`statements_eq_ok_iff`).

Key definitions: `LiteralOf`, `RuleOf`, `StatementOf`, `ProgramOf`, `Derived`,
`ReadsTokens`.
Key theorems: `statementOf_statement`, `statement_of_statementOf`,
`programOf_statements`, `statements_of_programOf`, `statements_eq_ok_iff`.
-/
import ProbLogic.Statement.Parser

namespace ProbLogic

open ProbLogic.Parser

variable {α β : Type}

/-! ### Phrases -/

/-- A mark of negation: `not`, `\+` or `-`. -/
inductive Token.IsNegation : Token → Prop
  | notWord : IsNegation .notWord
  | notProvable : IsNegation .notProvable
  | dash : IsNegation .dash

/-- A literal. Each mark of negation flips it. -/
inductive LiteralOf : List Token → Literal → Prop
  | negated {mark : Token} {ts : List Token} {l : Literal} (hmark : mark.IsNegation)
      (h : LiteralOf ts l) : LiteralOf (mark :: ts) l.negate
  | grouped {ts : List Token} {l : Literal} (h : LiteralOf ts l) :
      LiteralOf (.lparen :: (ts ++ [.rparen])) l
  | atom (a : Atom) : LiteralOf [.atom a] (.pos a)

/-- One or more phrases with a separator between them. -/
inductive ListOf (sep : Token) (phrase : List Token → β → Prop) : List Token → List β → Prop
  | one {ts : List Token} {x : β} (h : phrase ts x) : ListOf sep phrase ts [x]
  | more {ts us : List Token} {x : β} {xs : List β} (h : phrase ts x)
      (rest : ListOf sep phrase us xs) : ListOf sep phrase (ts ++ sep :: us) (x :: xs)

/-- The body of a rule: `true` for the empty one, or literals. -/
inductive BodyOf : List Token → List Literal → Prop
  | verum : BodyOf [.verum] []
  | literals {ts : List Token} {ls : List Literal} (h : ListOf .comma LiteralOf ts ls) :
      BodyOf ts ls

/-- What stands between the heads of a rule and its dot. Without an arrow the body is empty. -/
inductive ConditionOf : List Token → List Literal → Prop
  | absent : ConditionOf [] []
  | given {arrow : Token} {ts : List Token} {b : List Literal}
      (harrow : arrow = .impliedBy ∨ arrow = .leftArrow) (h : BodyOf ts b) :
      ConditionOf (arrow :: ts) b

/-- What evidence holds: an atom with its truth value, or a literal. -/
inductive ObservationOf : List Token → Literal → Prop
  | verum (a : Atom) : ObservationOf [.atom a, .comma, .verum] (.pos a)
  | falsum (a : Atom) : ObservationOf [.atom a, .comma, .falsum] (.neg a)
  | literal {ts : List Token} {l : Literal} (h : LiteralOf ts l) : ObservationOf ts l

section Numbers

variable [Scalar α]

/-- What stands before a head: nothing, which makes it certain, a number, or a fraction whose
denominator is not zero. -/
inductive AnnotationOf : List Token → α → Prop
  | certain : AnnotationOf [] Scalar.one
  | decimal (n : Decimal) : AnnotationOf [.number n, .annotates] (Scalar.ofDecimal n)
  | fraction (n d : Decimal) (hd : Scalar.isZero (Scalar.ofDecimal d : α) = false) :
      AnnotationOf [.number n, .slash, .number d, .annotates]
        (Scalar.div (Scalar.ofDecimal n) (Scalar.ofDecimal d))

/-- A head with its probability. -/
inductive ChoiceOf : List Token → Choice α → Prop
  | mk {ts : List Token} {p : α} (h : AnnotationOf ts p) (a : Atom) :
      ChoiceOf (ts ++ [.atom a]) ⟨p, a⟩

/-- An annotated disjunction with its dot. -/
inductive RuleOf : List Token → Rule α → Prop
  | mk {ts us : List Token} {cs : List (Choice α)} {b : List Literal}
      (head : ListOf .semicolon ChoiceOf ts cs) (body : ConditionOf us b) :
      RuleOf (ts ++ (us ++ [.dot])) ⟨cs, b⟩

/-- A statement with its dot. -/
inductive StatementOf : List Token → Statement α → Prop
  | query {ts : List Token} {l : Literal} (h : LiteralOf ts l) :
      StatementOf (.query :: .lparen :: (ts ++ [.rparen, .dot])) (.query l)
  | evidence {ts : List Token} {l : Literal} (h : ObservationOf ts l) :
      StatementOf (.evidence :: .lparen :: (ts ++ [.rparen, .dot])) (.evidence l)
  | rule {ts : List Token} {r : Rule α} (h : RuleOf ts r) : StatementOf ts (.rule r)

/-- Statements one after another. -/
inductive ProgramOf : List Token → List (Statement α) → Prop
  | nil : ProgramOf [] []
  | cons {ts us : List Token} {s : Statement α} {ss : List (Statement α)} (h : StatementOf ts s)
      (rest : ProgramOf us ss) : ProgramOf (ts ++ us) (s :: ss)

end Numbers

/-! ### What is read is derivable -/

/-- A phrase is derivable from the tokens of lexemes up to some rest. -/
def Derived (phrase : List Token → β → Prop) (ts : List Lexeme) (x : β) (rest : List Lexeme) :
    Prop :=
  ∃ us, phrase us x ∧ ts.map Lexeme.token = us ++ rest.map Lexeme.token

variable {t : Lexeme} {ts rest : List Lexeme}

theorem literalOf_literal? {l : Literal} (h : literal? ts = some (l, rest)) :
    Derived LiteralOf ts l rest := by
  induction ts generalizing l rest with
  | nil => cases h
  | cons t ts ih =>
    have hnegated : t.token.IsNegation →
        (literal? ts).map (fun r => (r.1.negate, r.2)) = some (l, rest) →
        Derived LiteralOf (t :: ts) l rest := by
      intro hmark hmap
      obtain ⟨⟨l', r⟩, hr, heq⟩ := Option.map_eq_some_iff.mp hmap
      obtain ⟨rfl, rfl⟩ := Prod.mk.inj heq
      obtain ⟨us, hus, htokens⟩ := ih hr
      exact ⟨t.token :: us, .negated hmark hus, by rw [List.map_cons, htokens, List.cons_append]⟩
    unfold literal? at h
    split at h
    · next hmark => exact hnegated (hmark ▸ .notWord) h
    · next hmark => exact hnegated (hmark ▸ .notProvable) h
    · next hmark => exact hnegated (hmark ▸ .dash) h
    · next hopen =>
      split at h
      · next l' e r hr =>
        split at h
        · next hclose =>
          obtain ⟨rfl, rfl⟩ := Prod.mk.inj (Option.some.inj h)
          obtain ⟨us, hus, htokens⟩ := ih hr
          exact ⟨.lparen :: (us ++ [.rparen]), .grouped hus, by simp [hopen, htokens, hclose]⟩
        · cases h
      · cases h
    · next a ha =>
      obtain ⟨rfl, rfl⟩ := Prod.mk.inj (Option.some.inj h)
      exact ⟨[.atom a], .atom a, by rw [List.map_cons, ha, List.singleton_append]⟩
    · cases h

/-- A phrase and what follows it between separators. -/
theorem listOf_separated (sep : Token) {p : List Lexeme → Option (β × List Lexeme)}
    (hp : Progresses p) {phrase : List Token → β → Prop}
    (hread : ∀ {ts x rest}, p ts = some (x, rest) → Derived phrase ts x rest) {x : β}
    (hx : p ts = some (x, rest)) :
    Derived (ListOf sep phrase) ts (x :: (separated sep p hp rest).1)
      (separated sep p hp rest).2 := by
  have hfirst : Derived (ListOf sep phrase) ts [x] rest := by
    obtain ⟨us, hus, htokens⟩ := hread hx
    exact ⟨us, .one hus, htokens⟩
  fun_induction separated sep p hp rest generalizing ts x with
  | case1 => exact hfirst
  | case2 => exact hfirst
  | case3 t rest hsep y rest' hy ys final hr ih =>
    have hlast : Derived (ListOf sep phrase) rest [y] rest' := by
      obtain ⟨us, hus, htokens⟩ := hread hy
      exact ⟨us, .one hus, htokens⟩
    obtain ⟨us, hus, htokens⟩ := hread hx
    obtain ⟨vs, hvs, hrest⟩ := ih hy hlast
    rw [hr] at hvs hrest
    refine ⟨us ++ sep :: vs, .more hus hvs, ?_⟩
    rw [htokens, List.map_cons, hsep, hrest, List.append_assoc, List.cons_append]
  | case4 => exact hfirst

theorem bodyOf_body? {b : List Literal} (h : body? ts = some (b, rest)) :
    Derived BodyOf ts b rest := by
  unfold body? at h
  split at h
  · obtain ⟨rfl, rfl⟩ := Prod.mk.inj (Option.some.inj h)
    exact ⟨[.verum], .verum, rfl⟩
  · obtain ⟨⟨l, r⟩, hl, heq⟩ := Option.map_eq_some_iff.mp h
    obtain ⟨rfl, rfl⟩ := Prod.mk.inj heq
    obtain ⟨us, hus, htokens⟩ := listOf_separated .comma literal?_progresses
      literalOf_literal? hl
    exact ⟨us, .literals hus, htokens⟩

theorem conditionOf_condition (ts : List Lexeme) :
    Derived ConditionOf ts (condition ts).1 (condition ts).2 := by
  have habsent : ∀ ts, Derived ConditionOf ts [] ts := fun ts => ⟨[], .absent, rfl⟩
  unfold condition
  split
  · exact habsent []
  · next t ts =>
    split
    · next harrow =>
      cases hb : body? ts with
      | none => exact habsent _
      | some r =>
        obtain ⟨us, hus, htokens⟩ := bodyOf_body? hb
        exact ⟨t.token :: us, .given harrow hus, by rw [List.map_cons, htokens]; rfl⟩
    · exact habsent _

theorem expect_eq_ok {token : Token} (h : expect token ts = .ok rest) :
    ts.map Lexeme.token = token :: rest.map Lexeme.token := by
  cases ts with
  | nil => cases h
  | cons t ts =>
    rw [expect] at h
    split at h
    · next ht =>
      cases h
      rw [List.map_cons, ht]
    · cases h

theorem literalOf_literal {l : Literal} (h : literal ts = .ok (l, rest)) :
    Derived LiteralOf ts l rest := by
  unfold literal at h
  split at h
  · next hl =>
    cases h
    exact literalOf_literal? hl
  · cases h

theorem observationOf_observation {l : Literal} (h : observation ts = .ok (l, rest)) :
    Derived ObservationOf ts l rest := by
  unfold observation at h
  split at h
  · next a _ _ _ _ =>
    cases h
    exact ⟨_, .verum a, rfl⟩
  · next a _ _ _ _ =>
    cases h
    exact ⟨_, .falsum a, rfl⟩
  · obtain ⟨us, hus, htokens⟩ := literalOf_literal h
    exact ⟨us, .literal hus, htokens⟩

/-- What a parser read that goes on with `f`. -/
theorem exists_of_bind_eq_ok {β γ : Type} {x : Except (List Lexeme) β}
    {f : β → Except (List Lexeme) γ} {r : γ} (h : x >>= f = .ok r) :
    ∃ a, x = .ok a ∧ f a = .ok r := by
  cases x with
  | error e => cases h
  | ok a => exact ⟨a, rfl, h⟩

theorem exists_of_map_eq_ok {β γ : Type} {x : Except (List Lexeme) β} {f : β → γ} {r : γ}
    (h : x.map f = .ok r) : ∃ a, x = .ok a ∧ f a = r := by
  cases x with
  | error e => cases h
  | ok a => exact ⟨a, rfl, Except.ok.inj h⟩

/-- What stands in a directive, between parentheses and before a dot. -/
theorem derived_directive {p : List Lexeme → Except (List Lexeme) (Literal × List Lexeme)}
    {phrase : List Token → Literal → Prop}
    (hread : ∀ {ts l rest}, p ts = .ok (l, rest) → Derived phrase ts l rest) {l : Literal}
    (h : directive p ts = .ok (l, rest)) :
    ∃ us, phrase us l ∧
      ts.map Lexeme.token = .lparen :: (us ++ [.rparen, .dot]) ++ rest.map Lexeme.token := by
  unfold directive at h
  obtain ⟨ts₁, h₁, h⟩ := exists_of_bind_eq_ok h
  obtain ⟨⟨l', ts₂⟩, h₂, h⟩ := exists_of_bind_eq_ok h
  obtain ⟨ts₃, h₃, h⟩ := exists_of_bind_eq_ok h
  obtain ⟨ts₄, h₄, h⟩ := exists_of_bind_eq_ok h
  obtain ⟨rfl, rfl⟩ := Prod.mk.inj (Except.ok.inj h)
  obtain ⟨us, hus, htokens⟩ := hread h₂
  refine ⟨us, hus, ?_⟩
  rw [expect_eq_ok h₁, htokens, expect_eq_ok h₃, expect_eq_ok h₄]
  simp

section Numbers

variable [Scalar α]

theorem annotationOf_annotation? (ts : List Lexeme) :
    Derived AnnotationOf ts ((annotation? (α := α) ts).getD (Scalar.one, ts)).1
      ((annotation? (α := α) ts).getD (Scalar.one, ts)).2 := by
  have hcertain : ∀ ts, Derived AnnotationOf ts (Scalar.one : α) ts := fun ts => ⟨[], .certain, rfl⟩
  unfold annotation?
  split
  · next n _ _ _ => exact ⟨_, .decimal n, rfl⟩
  · next n _ _ d _ _ _ =>
    dsimp only
    split
    · exact hcertain _
    · next hzero => exact ⟨_, .fraction n d (by simpa using hzero), rfl⟩
  · exact hcertain _

theorem choiceOf_choice {c : Choice α} (h : choice ts = .ok (c, rest)) :
    Derived ChoiceOf ts c rest := by
  obtain ⟨us, hus, htokens⟩ := annotationOf_annotation? (α := α) ts
  unfold choice at h
  split at h
  · next p a source ts' heq =>
    rw [heq] at hus htokens
    obtain ⟨rfl, rfl⟩ := Prod.mk.inj (Except.ok.inj h)
    exact ⟨us ++ [.atom a], .mk hus a, by rw [htokens]; simp⟩
  · cases h

theorem choice?_eq_some_iff {c : Choice α} :
    choice? ts = some (c, rest) ↔ choice ts = .ok (c, rest) := by
  unfold choice?
  cases choice (α := α) ts <;> simp [Except.toOption]

/-- The parts of a rule that is read. -/
theorem rule_eq_ok {r : Rule α} (h : rule ts = .ok (r, rest)) :
    ∃ first ts₁, choice ts = .ok (first, ts₁) ∧
      r.head = first :: (separated .semicolon choice? choice?_progresses ts₁).1 ∧
      r.body = (condition (separated .semicolon choice? (choice?_progresses (α := α)) ts₁).2).1 ∧
      expect .dot (condition (separated .semicolon choice? (choice?_progresses (α := α)) ts₁).2).2 =
        .ok rest := by
  unfold rule at h
  obtain ⟨⟨first, ts₁⟩, hc, h⟩ := exists_of_bind_eq_ok h
  obtain ⟨ts₂, he, h⟩ := exists_of_bind_eq_ok h
  obtain ⟨rfl, rfl⟩ := Prod.mk.inj (Except.ok.inj h)
  exact ⟨first, ts₁, hc, rfl, rfl, he⟩

theorem ruleOf_rule {r : Rule α} (h : rule ts = .ok (r, rest)) : Derived RuleOf ts r rest := by
  obtain ⟨head, body⟩ := r
  obtain ⟨first, ts₁, hc, rfl, rfl, he⟩ := rule_eq_ok h
  obtain ⟨us, hus, hhead⟩ := listOf_separated .semicolon (choice?_progresses (α := α))
    (fun hx => choiceOf_choice (choice?_eq_some_iff.mp hx)) (choice?_eq_some_iff.mpr hc)
  obtain ⟨vs, hvs, hbody⟩ := conditionOf_condition
    (separated .semicolon choice? (choice?_progresses (α := α)) ts₁).2
  refine ⟨us ++ (vs ++ [.dot]), .mk hus hvs, ?_⟩
  rw [hhead, hbody, expect_eq_ok he]
  simp

/-- **A statement that is read is derivable** from the tokens before the rest. -/
theorem statementOf_statement {s : Statement α} (h : statement ts = .ok (s, rest)) :
    Derived StatementOf ts s rest := by
  unfold statement at h
  split at h
  · obtain ⟨⟨l, r⟩, hd, heq⟩ := exists_of_map_eq_ok h
    obtain ⟨rfl, rfl⟩ := Prod.mk.inj heq
    obtain ⟨us, hus, htokens⟩ := derived_directive literalOf_literal hd
    exact ⟨_, .query hus, by rw [List.map_cons, htokens]; rfl⟩
  · obtain ⟨⟨l, r⟩, hd, heq⟩ := exists_of_map_eq_ok h
    obtain ⟨rfl, rfl⟩ := Prod.mk.inj heq
    obtain ⟨us, hus, htokens⟩ := derived_directive observationOf_observation hd
    exact ⟨_, .evidence hus, by rw [List.map_cons, htokens]; rfl⟩
  · obtain ⟨⟨r, rest'⟩, hr, heq⟩ := exists_of_map_eq_ok h
    obtain ⟨rfl, rfl⟩ := Prod.mk.inj heq
    obtain ⟨us, hus, htokens⟩ := ruleOf_rule hr
    exact ⟨us, .rule hus, htokens⟩

/-- **A program that is read is derivable** from its tokens. -/
theorem programOf_statements {ss : List (Statement α)} (h : statements ts = .ok ss) :
    ProgramOf (ts.map Lexeme.token) ss := by
  fun_induction statements (α := α) ts generalizing ss with
  | case1 ts hempty =>
    cases h
    rw [List.isEmpty_iff.mp hempty]
    exact .nil
  | case2 => cases h
  | case3 ts _ s rest hs ih =>
    obtain ⟨others, hr, rfl⟩ := exists_of_map_eq_ok h
    obtain ⟨us, hus, htokens⟩ := statementOf_statement hs
    rw [htokens]
    exact .cons hus (ih hr)

end Numbers

/-! ### What is derivable is read -/

/-- A parser reads a value from tokens, whatever follows. -/
def ReadsTokens (p : List Lexeme → Option (β × List Lexeme)) (x : β) (ts : List Token) : Prop :=
  ∀ us vs, us.map Lexeme.token = ts → p (us ++ vs) = some (x, vs)

variable {us vs : List Lexeme} {tokens : List Token}

theorem literal?_cons_negation {mark : Lexeme} (hmark : mark.token.IsNegation) (ts : List Lexeme) :
    literal? (mark :: ts) = (literal? ts).map fun r => (r.1.negate, r.2) := by
  obtain ⟨token, source⟩ := mark
  cases hmark <;> rfl

theorem LiteralOf.readsTokens {l : Literal} (h : LiteralOf tokens l) :
    ReadsTokens literal? l tokens := by
  induction h with
  | negated hmark _ ih =>
    intro us vs hus
    obtain ⟨u, us', rfl, rfl, hus'⟩ := List.map_eq_cons_iff.mp hus
    rw [List.cons_append, literal?_cons_negation hmark, ih us' vs hus']
    rfl
  | grouped _ ih =>
    intro us vs hus
    obtain ⟨u, us, rfl, hu, hus⟩ := List.map_eq_cons_iff.mp hus
    obtain ⟨us₁, us₂, rfl, hus₁, hus₂⟩ := List.map_eq_append_iff.mp hus
    obtain ⟨e, rfl, he⟩ := List.map_eq_singleton_iff.mp hus₂
    have hread := ih us₁ (e :: vs) hus₁
    rw [List.cons_append, List.append_assoc, List.singleton_append, literal?]
    simp only [hu, hread, he, if_true]
  | atom a =>
    intro us vs hus
    obtain ⟨u, rfl, hu⟩ := List.map_eq_singleton_iff.mp hus
    rw [List.singleton_append, literal?]
    simp only [hu]

theorem separated_of_not_sep {sep : Token} {p : List Lexeme → Option (β × List Lexeme)}
    (hp : Progresses p) (hvs : ∀ v ∈ vs.head?, v.token ≠ sep) :
    separated sep p hp vs = ([], vs) := by
  cases vs with
  | nil => rw [separated]
  | cons v vs => rw [separated, if_neg (hvs v rfl)]

theorem separated_cons {sep : Token} {p : List Lexeme → Option (β × List Lexeme)}
    (hp : Progresses p) (ht : t.token = sep) {x : β} (hx : p ts = some (x, rest)) :
    separated sep p hp (t :: ts) =
      (x :: (separated sep p hp rest).1, (separated sep p hp rest).2) := by
  rw [separated, if_pos ht]
  split
  · next hnone =>
    rw [hx] at hnone
    cases hnone
  · next hsome =>
    rw [hx] at hsome
    obtain ⟨rfl, rfl⟩ := Prod.mk.inj (Option.some.inj hsome)
    rfl

/-- Phrases between separators are read up to where no separator stands. -/
theorem ListOf.reads {sep : Token} {p : List Lexeme → Option (β × List Lexeme)} (hp : Progresses p)
    {phrase : List Token → β → Prop} (hread : ∀ {ts x}, phrase ts x → ReadsTokens p x ts)
    {xs : List β} (h : ListOf sep phrase tokens xs) (hvs : ∀ v ∈ vs.head?, v.token ≠ sep)
    (hus : us.map Lexeme.token = tokens) :
    ∃ x xs' rest, xs = x :: xs' ∧ p (us ++ vs) = some (x, rest) ∧
      separated sep p hp rest = (xs', vs) := by
  induction h generalizing us with
  | @one ts x h => exact ⟨x, [], vs, rfl, hread h us vs hus, separated_of_not_sep hp hvs⟩
  | @more ts ts' x xs h _ ih =>
    obtain ⟨us₁, us₂, rfl, hus₁, hus₂⟩ := List.map_eq_append_iff.mp hus
    obtain ⟨u, us₂, rfl, hu, hus₂⟩ := List.map_eq_cons_iff.mp hus₂
    obtain ⟨y, ys, rest, rfl, hy, hys⟩ := ih hus₂
    refine ⟨x, y :: ys, u :: (us₂ ++ vs), rfl, ?_, ?_⟩
    · rw [List.append_assoc]
      exact hread h us₁ _ hus₁
    · rw [separated_cons hp hu hy, hys]

theorem BodyOf.reads {b : List Literal} (h : BodyOf tokens b)
    (hvs : ∀ v ∈ vs.head?, v.token ≠ .comma) (hus : us.map Lexeme.token = tokens) :
    body? (us ++ vs) = some (b, vs) := by
  cases h with
  | verum =>
    obtain ⟨⟨token, source⟩, rfl, rfl⟩ := List.map_eq_singleton_iff.mp hus
    rfl
  | literals h =>
    obtain ⟨l, ls, rest, rfl, hl, hls⟩ := h.reads literal?_progresses LiteralOf.readsTokens hvs hus
    unfold body?
    split
    · next heq =>
      rw [heq] at hl
      cases hl
    · rw [hl, Option.map_some]
      dsimp only
      rw [hls]

theorem ConditionOf.reads {b : List Literal} (h : ConditionOf tokens b)
    (hus : us.map Lexeme.token = tokens) {v : Lexeme} (hv : v.token = .dot) (vs : List Lexeme) :
    condition (us ++ v :: vs) = (b, v :: vs) := by
  cases h with
  | absent => rw [List.map_eq_nil_iff.mp hus, List.nil_append, condition, if_neg (by simp [hv])]
  | given harrow h =>
    obtain ⟨u, us', rfl, rfl, hus'⟩ := List.map_eq_cons_iff.mp hus
    have hcomma : ∀ w ∈ (v :: vs).head?, w.token ≠ .comma := by
      intro w hw
      rw [← Option.some.inj hw, hv]
      simp
    rw [List.cons_append, condition, if_pos harrow, h.reads hcomma hus']
    rfl

theorem literal_of_literalOf {l : Literal} (h : LiteralOf tokens l)
    (hus : us.map Lexeme.token = tokens) (vs : List Lexeme) :
    literal (us ++ vs) = .ok (l, vs) := by
  rw [literal, h.readsTokens us vs hus]

/-- A literal that evidence holds is not taken for an atom with a truth value, since a comma does
not follow it. -/
theorem ObservationOf.reads {l : Literal} (h : ObservationOf tokens l)
    (hvs : ∀ v ∈ vs.head?, v.token ≠ .comma) (hus : us.map Lexeme.token = tokens) :
    observation (us ++ vs) = .ok (l, vs) := by
  cases h with
  | verum a | falsum a =>
    obtain ⟨⟨_, _⟩, us₁, rfl, rfl, hus₁⟩ := List.map_eq_cons_iff.mp hus
    obtain ⟨⟨_, _⟩, us₂, rfl, rfl, hus₂⟩ := List.map_eq_cons_iff.mp hus₁
    obtain ⟨⟨_, _⟩, rfl, rfl⟩ := List.map_eq_singleton_iff.mp hus₂
    rfl
  | literal h =>
    have hl := h.readsTokens us vs hus
    have hcomma : ∀ {a : Atom} {source source' : List Char} {ts : List Lexeme},
        us ++ vs ≠ ⟨.atom a, source⟩ :: ⟨.comma, source'⟩ :: ts := by
      intro a source source' ts heq
      rw [heq] at hl
      obtain ⟨-, rfl⟩ := Prod.mk.inj (Option.some.inj hl)
      exact hvs _ rfl rfl
    unfold observation
    split
    · next heq => exact absurd heq hcomma
    · next heq => exact absurd heq hcomma
    · exact literal_of_literalOf h hus vs

theorem expect_cons {u : Lexeme} {token : Token} (hu : u.token = token) (vs : List Lexeme) :
    expect token (u :: vs) = .ok vs := by
  rw [expect, if_pos hu]

/-- A directive is read if what it holds is read before the closing parenthesis. -/
theorem directive_tokens {p : List Lexeme → Except (List Lexeme) (Literal × List Lexeme)}
    {l : Literal}
    (hp : ∀ us vs, us.map Lexeme.token = tokens → (∀ v ∈ vs.head?, v.token ≠ .comma) →
      p (us ++ vs) = .ok (l, vs))
    (hus : us.map Lexeme.token = .lparen :: (tokens ++ [.rparen, .dot])) (vs : List Lexeme) :
    directive p (us ++ vs) = .ok (l, vs) := by
  obtain ⟨u₁, us₁, rfl, hu₁, hus₁⟩ := List.map_eq_cons_iff.mp hus
  obtain ⟨us₂, us₃, rfl, hus₂, hus₃⟩ := List.map_eq_append_iff.mp hus₁
  obtain ⟨u₂, us₄, rfl, hu₂, hus₄⟩ := List.map_eq_cons_iff.mp hus₃
  obtain ⟨u₃, rfl, hu₃⟩ := List.map_eq_singleton_iff.mp hus₄
  have hclose : ∀ v ∈ (u₂ :: u₃ :: vs).head?, v.token ≠ .comma := by
    intro v hv
    rw [← Option.some.inj hv, hu₂]
    simp
  have hl := hp us₂ (u₂ :: u₃ :: vs) hus₂ hclose
  simp only [List.cons_append, List.append_assoc, List.nil_append]
  unfold directive
  simp only [expect_cons hu₁, hl, expect_cons hu₂, expect_cons hu₃, bind, Except.bind, pure,
    Except.pure]

section Numbers

variable [Scalar α]

theorem choice_of_choiceOf {c : Choice α} (h : ChoiceOf tokens c)
    (hus : us.map Lexeme.token = tokens) (vs : List Lexeme) :
    choice (us ++ vs) = .ok (c, vs) := by
  cases h with
  | mk h a =>
    obtain ⟨us₁, us₂, rfl, hus₁, hus₂⟩ := List.map_eq_append_iff.mp hus
    obtain ⟨⟨_, source⟩, rfl, rfl⟩ := List.map_eq_singleton_iff.mp hus₂
    cases h with
    | certain =>
      rw [List.map_eq_nil_iff.mp hus₁]
      rfl
    | decimal n =>
      obtain ⟨⟨_, _⟩, us₃, rfl, rfl, hus₃⟩ := List.map_eq_cons_iff.mp hus₁
      obtain ⟨⟨_, _⟩, rfl, rfl⟩ := List.map_eq_singleton_iff.mp hus₃
      rfl
    | fraction n d hd =>
      obtain ⟨⟨_, _⟩, us₃, rfl, rfl, hus₃⟩ := List.map_eq_cons_iff.mp hus₁
      obtain ⟨⟨_, _⟩, us₄, rfl, rfl, hus₄⟩ := List.map_eq_cons_iff.mp hus₃
      obtain ⟨⟨_, _⟩, us₅, rfl, rfl, hus₅⟩ := List.map_eq_cons_iff.mp hus₄
      obtain ⟨⟨_, _⟩, rfl, rfl⟩ := List.map_eq_singleton_iff.mp hus₅
      unfold choice
      simp only [List.cons_append, List.nil_append, annotation?, hd, Bool.false_eq_true, if_false,
        Option.getD_some]

theorem ChoiceOf.readsTokens {c : Choice α} (h : ChoiceOf tokens c) :
    ReadsTokens choice? c tokens := by
  intro us vs hus
  exact choice?_eq_some_iff.mpr (choice_of_choiceOf h hus vs)

/-- A condition starts with an arrow, so the heads of a rule end before it. -/
theorem ConditionOf.not_semicolon {b : List Literal} (h : ConditionOf tokens b)
    (hus : us.map Lexeme.token = tokens) {u : Lexeme} (hu : u.token = .dot) (vs : List Lexeme) :
    ∀ v ∈ (us ++ u :: vs).head?, v.token ≠ .semicolon := by
  intro v hv
  cases h with
  | absent =>
    rw [List.map_eq_nil_iff.mp hus] at hv
    rw [← Option.some.inj hv, hu]
    simp
  | given harrow h =>
    obtain ⟨w, us, rfl, rfl, hus⟩ := List.map_eq_cons_iff.mp hus
    rw [← Option.some.inj hv]
    rcases harrow with harrow | harrow <;> simp [harrow]

theorem rule_of_ruleOf {r : Rule α} (h : RuleOf tokens r) (hus : us.map Lexeme.token = tokens)
    (vs : List Lexeme) : rule (us ++ vs) = .ok (r, vs) := by
  cases h with
  | mk head body =>
    obtain ⟨us₁, us', rfl, hus₁, hus'⟩ := List.map_eq_append_iff.mp hus
    obtain ⟨us₂, us₃, rfl, hus₂, hus₃⟩ := List.map_eq_append_iff.mp hus'
    obtain ⟨u, rfl, hu⟩ := List.map_eq_singleton_iff.mp hus₃
    have hbody := body.reads hus₂ hu vs
    obtain ⟨c, cs, rest, rfl, hc, hcs⟩ := head.reads (choice?_progresses (α := α))
      ChoiceOf.readsTokens (body.not_semicolon hus₂ hu vs) hus₁
    simp only [List.append_assoc, List.singleton_append]
    unfold rule
    simp only [choice?_eq_some_iff.mp hc, hcs, hbody, expect_cons hu, bind, Except.bind, pure,
      Except.pure]

/-- **A derivable statement is read**, whatever follows. -/
theorem statement_of_statementOf {s : Statement α} (h : StatementOf tokens s)
    (hus : us.map Lexeme.token = tokens) (vs : List Lexeme) :
    statement (us ++ vs) = .ok (s, vs) := by
  cases h with
  | query h =>
    obtain ⟨⟨_, _⟩, us₁, rfl, rfl, hus₁⟩ := List.map_eq_cons_iff.mp hus
    have hd := directive_tokens (fun us vs hus _ => literal_of_literalOf h hus vs) hus₁ vs
    rw [List.cons_append]
    simp only [statement, hd]
    rfl
  | evidence h =>
    obtain ⟨⟨_, _⟩, us₁, rfl, rfl, hus₁⟩ := List.map_eq_cons_iff.mp hus
    have hd := directive_tokens (fun us vs hus hvs => h.reads hvs hus) hus₁ vs
    rw [List.cons_append]
    simp only [statement, hd]
    rfl
  | rule h =>
    have hr := rule_of_ruleOf h hus vs
    unfold statement
    -- a rule starts neither with `query` nor with `evidence`
    split
    · next heq =>
      rw [heq] at hr
      cases hr
    · next heq =>
      rw [heq] at hr
      cases hr
    · rw [hr]
      rfl

/-- **A derivable program is read.** -/
theorem statements_of_programOf {ss : List (Statement α)} (h : ProgramOf tokens ss)
    (hus : us.map Lexeme.token = tokens) : statements us = .ok ss := by
  induction h generalizing us with
  | nil =>
    rw [List.map_eq_nil_iff.mp hus, statements]
    rfl
  | cons h _ ih =>
    obtain ⟨us₁, us₂, rfl, hus₁, hus₂⟩ := List.map_eq_append_iff.mp hus
    have hs := statement_of_statementOf h hus₁ us₂
    have hrest := ih hus₂
    have hne : (us₁ ++ us₂).isEmpty = false := by
      have hlt := length_statement_lt hs
      cases us₁ with
      | nil => exact absurd hlt (Nat.lt_irrefl _)
      | cons u us₁ => rfl
    unfold statements
    rw [if_neg (by simp [hne])]
    split
    · next herror =>
      rw [hs] at herror
      cases herror
    · next hok =>
      rw [hs] at hok
      obtain ⟨rfl, rfl⟩ := Prod.mk.inj (Except.ok.inj hok)
      rw [hrest]
      rfl

/-! ### The parser and the grammar -/

/-- **The parser accepts exactly the grammar.** Lexemes are read as statements exactly if their
tokens are derivable with these statements as the tree, and no tokens have two trees. -/
theorem statements_eq_ok_iff (ts : List Lexeme) :
    (∀ ss : List (Statement α), statements ts = .ok ss ↔ ProgramOf (ts.map Lexeme.token) ss) ∧
    ∀ (tokens : List Token) (ss ss' : List (Statement α)),
      ProgramOf tokens ss → ProgramOf tokens ss' → ss = ss' := by
  refine ⟨fun ss => ⟨programOf_statements, fun h => statements_of_programOf h rfl⟩, ?_⟩
  intro tokens ss ss' h h'
  have htokens : (tokens.map fun token => (⟨token, []⟩ : Lexeme)).map Lexeme.token = tokens := by
    rw [List.map_map]
    exact List.map_id tokens
  have hread := statements_of_programOf h htokens
  rw [statements_of_programOf h' htokens] at hread
  exact (Except.ok.inj hread).symm

end Numbers

end ProbLogic
