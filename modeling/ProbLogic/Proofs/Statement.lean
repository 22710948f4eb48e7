/-
# Statements are read back

The text of a statement has tokens of its own (`Statement.tokens`): what was
read as a fraction, as a certain head, or under several negations is written in
one way. They derive the statement (`statementOf_tokens`), so read again they
give it back, if the names and numbers in it can be read back (`Written`). The
names of a program that was read can, since all atoms come from its tokens
(`readFrom_statements`).

Key definitions: `Statement.tokens`, `Statement.Written`, `Statement.ReadFrom`.
Key theorems: `readFrom_statements`, `lexed_statement`, `statementOf_tokens`,
`parseProgram_eq_ok_iff`, `parseProgram_written`, `parse_eq_ok_iff`, `parse_text`.
-/
import ProbLogic.Proofs.Grammar
import ProbLogic.Proofs.Token

namespace ProbLogic

open Token Text ProbLogic.Parser

variable {α β : Type}

/-! ### What is read comes from the tokens -/

section Read

variable [Scalar α]

/-- A number that a program gives: one, a decimal, or a fraction with a denominator that is not
zero. -/
inductive IsRead : α → Prop
  | one : IsRead Scalar.one
  | decimal (d : Decimal) : IsRead (Scalar.ofDecimal d)
  | fraction (n d : Decimal) (hd : Scalar.isZero (Scalar.ofDecimal d : α) = false) :
    IsRead (Scalar.div (Scalar.ofDecimal n) (Scalar.ofDecimal d))

/-- The statement has atoms of a class, and numbers that a program gives. A rule has a head. -/
def Statement.ReadFrom (A : Atom → Prop) : Statement α → Prop
  | .rule r => r.head ≠ [] ∧ (∀ c ∈ r.head, A c.atom ∧ IsRead c.probability) ∧
      ∀ l ∈ r.body, A l.atom
  | .query l | .evidence l => A l.atom

/-- All atoms among the tokens are of a class. -/
def AtomsIn (A : Atom → Prop) (ts : List Lexeme) : Prop := ∀ t ∈ ts, ∀ a, t.token = .atom a → A a

variable {A : Atom → Prop} {tokens : List Token} {ts : List Lexeme}

theorem LiteralOf.atom_mem {l : Literal} (h : LiteralOf tokens l) : .atom l.atom ∈ tokens := by
  induction h with
  | negated _ _ ih => exact List.mem_cons_of_mem _ ih
  | grouped _ ih => exact List.mem_cons_of_mem _ (List.mem_append_left _ ih)
  | atom a => exact List.mem_singleton_self _

/-- Each value of a list is derived from some of its tokens. -/
theorem ListOf.exists_of_mem {sep : Token} {phrase : List Token → β → Prop} {xs : List β}
    (h : ListOf sep phrase tokens xs) {x : β} (hx : x ∈ xs) : ∃ us, phrase us x ∧ us ⊆ tokens := by
  induction h with
  | @one ts y h =>
    obtain rfl := List.mem_singleton.mp hx
    exact ⟨ts, h, List.Subset.refl ts⟩
  | @more ts us y ys h _ ih =>
    rcases List.mem_cons.mp hx with rfl | hx
    · exact ⟨ts, h, List.subset_append_left ts _⟩
    · obtain ⟨vs, hvs, hsub⟩ := ih hx
      exact ⟨vs, hvs, fun t ht => List.mem_append_right ts (List.mem_cons_of_mem sep (hsub ht))⟩

theorem ListOf.ne_nil {sep : Token} {phrase : List Token → β → Prop} {xs : List β}
    (h : ListOf sep phrase tokens xs) : xs ≠ [] := by
  cases h <;> exact List.cons_ne_nil _ _

theorem ConditionOf.atom_mem {b : List Literal} (h : ConditionOf tokens b) {l : Literal}
    (hl : l ∈ b) : .atom l.atom ∈ tokens := by
  cases h with
  | absent => cases hl
  | given _ hbody =>
    cases hbody with
    | verum => cases hl
    | literals h =>
      obtain ⟨us, hus, hsub⟩ := h.exists_of_mem hl
      exact List.mem_cons_of_mem _ (hsub hus.atom_mem)

theorem ObservationOf.atom_mem {l : Literal} (h : ObservationOf tokens l) :
    .atom l.atom ∈ tokens := by
  cases h with
  | verum a | falsum a => exact List.mem_cons_self
  | literal h => exact h.atom_mem

theorem AnnotationOf.isRead {p : α} (h : AnnotationOf tokens p) : IsRead p := by
  cases h with
  | certain => exact .one
  | decimal n => exact .decimal n
  | fraction n d hd => exact .fraction n d hd

theorem ChoiceOf.readFrom {c : Choice α} (h : ChoiceOf tokens c) :
    .atom c.atom ∈ tokens ∧ IsRead c.probability := by
  cases h with
  | mk h a => exact ⟨List.mem_append_right _ (List.mem_singleton_self _), h.isRead⟩

theorem StatementOf.readFrom {s : Statement α} (h : StatementOf tokens s)
    (hA : ∀ a, .atom a ∈ tokens → A a) : s.ReadFrom A := by
  cases h with
  | query h =>
    exact hA _ (List.mem_cons_of_mem _ (List.mem_cons_of_mem _ (List.mem_append_left _ h.atom_mem)))
  | evidence h =>
    exact hA _ (List.mem_cons_of_mem _ (List.mem_cons_of_mem _ (List.mem_append_left _ h.atom_mem)))
  | rule h =>
    obtain ⟨head, body⟩ := h
    refine ⟨head.ne_nil, fun c hc => ?_, fun l hl => ?_⟩
    · obtain ⟨us, hus, hsub⟩ := head.exists_of_mem hc
      exact ⟨hA _ (List.mem_append_left _ (hsub hus.readFrom.1)), hus.readFrom.2⟩
    · exact hA _ (List.mem_append_right _ (List.mem_append_left _ (body.atom_mem hl)))

/-- Each statement of a program is derived from some of its tokens. -/
theorem ProgramOf.exists_of_mem {ss : List (Statement α)} (h : ProgramOf tokens ss)
    {s : Statement α} (hs : s ∈ ss) : ∃ us, StatementOf us s ∧ us ⊆ tokens := by
  induction h with
  | nil => cases hs
  | @cons ts us _ _ h _ ih =>
    rcases List.mem_cons.mp hs with rfl | hs
    · exact ⟨ts, h, List.subset_append_left ts us⟩
    · obtain ⟨vs, hvs, hsub⟩ := ih hs
      exact ⟨vs, hvs, fun t ht => List.mem_append_right ts (hsub ht)⟩

/-- **What is read comes from the tokens.** -/
theorem readFrom_statements {ss : List (Statement α)} (hss : statements ts = .ok ss)
    (h : AtomsIn A ts) : ∀ s ∈ ss, s.ReadFrom A := by
  intro s hs
  obtain ⟨us, hus, hsub⟩ := (programOf_statements hss).exists_of_mem hs
  refine hus.readFrom fun a ha => ?_
  obtain ⟨t, ht, heq⟩ := List.mem_map.mp (hsub ha)
  exact h t ht a heq

end Read

/-! ### The tokens of statements -/

/-- `a` or `-a` -/
def Literal.tokens (l : Literal) : List Token :=
  if l.positive then [.atom l.atom] else [.dash, .atom l.atom]

/-- What stands between the tokens of a list's members. -/
def listTokens (sep : Token) (f : β → List Token) : List β → List Token
  | [] => []
  | x :: xs => f x ++ xs.flatMap fun y => sep :: f y

section Tokens

variable (decimal : α → Decimal)

/-- `p::a`, where `p` is written as a decimal. -/
def Choice.tokens (c : Choice α) : List Token :=
  [.number (decimal c.probability), .annotates, .atom c.atom]

/-- `p1::h1; …; pn::hn :- b1, …, bm.`, without the arrow if there is no body. -/
def Rule.tokens (r : Rule α) : List Token :=
  listTokens .semicolon (Choice.tokens decimal) r.head ++
    ((if r.body.isEmpty then [] else .impliedBy :: listTokens .comma Literal.tokens r.body) ++
      [.dot])

/-- The tokens of a statement's text. -/
def Statement.tokens : Statement α → List Token
  | .rule r => r.tokens decimal
  | .query l => .query :: .lparen :: (l.tokens ++ [.rparen, .dot])
  | .evidence l => [.evidence, .lparen, .atom l.atom, .comma,
      if l.positive then .verum else .falsum, .rparen, .dot]

/-- The names and numbers of a statement can be read back from their texts. -/
def Statement.Written [Scalar α] [Numeral α] : Statement α → Prop
  | .rule r => r.head ≠ [] ∧ (∀ c ∈ r.head, IsName c.atom.name.toList ∧
      Spells (decimal c.probability) (Numeral.text c.probability).toList ∧
      Scalar.ofDecimal (decimal c.probability) = c.probability) ∧
      ∀ l ∈ r.body, IsName l.atom.name.toList
  | .query l | .evidence l => IsName l.atom.name.toList

end Tokens

/-! ### Texts have their tokens -/

/-- Characters that are read as tokens wherever nothing extends them. -/
def Writes (cs : List Char) (us : List Token) : Prop :=
  ∀ {rest ts}, Apart rest → Lexed rest ts → Lexed (cs ++ rest) (us ++ ts)

theorem writes_name {a : Atom} (h : IsName a.name.toList) : Writes a.name.toList [.atom a] := by
  intro rest ts hrest hts
  have hname := hts.name h hrest
  rwa [String.ofList_toList] at hname

theorem writes_literal {l : Literal} (h : IsName l.atom.name.toList) :
    Writes l.text.toList l.tokens := by
  intro rest ts hrest hts
  have hatom := writes_name h hrest hts
  unfold Literal.text Literal.tokens
  cases l.positive with
  | true => exact hatom
  | false =>
    have hdash := hatom.sign (x := ("-", .dash)) (by decide)
    rwa [← List.append_assoc, ← String.toList_append] at hdash

theorem toList_intercalate_cons (sep : String) (f : β → String) (x : β) (xs : List β) :
    (sep.intercalate ((x :: xs).map f)).toList =
      (f x).toList ++ xs.flatMap fun y => sep.toList ++ (f y).toList := by
  induction xs generalizing x with
  | nil => simp
  | cons y xs ih =>
    rw [List.map_cons, List.map_cons, String.intercalate_cons_cons, String.toList_append,
      String.toList_append, ← List.map_cons, ih y, List.flatMap_cons, List.append_assoc,
      List.append_assoc]

/-- Texts with a sign and a space between them are read as their tokens with the sign between. -/
theorem writes_list {f : β → String} {g : β → List Token} {x : String × Token} (hx : x ∈ signs)
    (hapart : ∀ cs, Apart (x.1.toList ++ cs)) {ys : List β} (hne : ys ≠ [])
    (hys : ∀ y ∈ ys, Writes (f y).toList (g y)) :
    Writes ((x.1 ++ " ").intercalate (ys.map f)).toList (listTokens x.2 g ys) := by
  obtain ⟨y, ys, rfl⟩ := List.exists_cons_of_ne_nil hne
  intro rest ts hrest hts
  have hothers : ∀ zs : List β, (∀ z ∈ zs, Writes (f z).toList (g z)) →
      Apart ((zs.flatMap fun z => (x.1 ++ " ").toList ++ (f z).toList) ++ rest) ∧
      Lexed ((zs.flatMap fun z => (x.1 ++ " ").toList ++ (f z).toList) ++ rest)
        ((zs.flatMap fun z => x.2 :: g z) ++ ts) := by
    intro zs hzs
    induction zs with
    | nil => exact ⟨hrest, hts⟩
    | cons z zs ih =>
      obtain ⟨hmore, hlexed⟩ := ih fun u hu => hzs u (List.mem_cons_of_mem _ hu)
      have hz := ((hzs z List.mem_cons_self hmore hlexed).space (c := ' ') rfl).sign hx
      simp only [List.flatMap_cons, String.toList_append, List.append_assoc, List.cons_append]
        at hz ⊢
      exact ⟨hapart _, hz⟩
  obtain ⟨hmore, hlexed⟩ := hothers ys fun z hz => hys z (List.mem_cons_of_mem _ hz)
  have hall := hys y List.mem_cons_self hmore hlexed
  rw [toList_intercalate_cons, listTokens, List.append_assoc, List.append_assoc]
  exact hall

section Written

variable [Numeral α] {decimal : α → Decimal}

theorem writes_choice {c : Choice α} (hname : IsName c.atom.name.toList)
    (hnumber : Spells (decimal c.probability) (Numeral.text c.probability).toList) :
    Writes c.text.toList (c.tokens decimal) := by
  intro rest ts hrest hts
  have hsign := (writes_name hname hrest hts).sign (x := ("::", .annotates)) (by decide)
  have hall := hsign.numeral hnumber (stops_cons (by decide) _)
  rw [Choice.text, String.toList_append, String.toList_append, List.append_assoc,
    List.append_assoc]
  exact hall

/-- The heads of a rule and its body, if there is one, before the dot. -/
theorem writes_rule [Scalar α] {r : Rule α} (hr : (Statement.rule r).Written decimal)
    {rest : List Char} {ts : List Token} (hdot : Lexed ('.' :: rest) (.dot :: ts)) :
    Lexed (r.text.toList ++ rest) (r.tokens decimal ++ ts) := by
  obtain ⟨hne, hhead, hbody⟩ := hr
  have hheads : Writes ("; ".intercalate (r.head.map Choice.text)).toList
      (listTokens .semicolon (Choice.tokens decimal) r.head) :=
    writes_list (x := (";", .semicolon)) (by decide) (fun cs => stops_cons (by decide) cs) hne
      fun c hc => writes_choice (hhead c hc).1 (hhead c hc).2.1
  unfold Rule.text Rule.tokens
  by_cases hnil : r.body = []
  · have hall := hheads (stops_cons (by decide) rest) hdot
    simpa [hnil] using hall
  · have hliterals : Writes (", ".intercalate (r.body.map Literal.text)).toList
        (listTokens .comma Literal.tokens r.body) :=
      writes_list (x := (",", .comma)) (by decide) (fun cs => stops_cons (by decide) cs) hnil
        fun l hl => writes_literal (hbody l hl)
    have hcondition := ((hliterals (stops_cons (by decide) rest) hdot).space (c := ' ') rfl).sign
      (x := (":-", .impliedBy)) (by decide)
    have hall := hheads (stops_cons (by decide) _) (hcondition.space (c := ' ') rfl)
    simpa [hnil] using hall

/-- **The text of a statement has its tokens**, whatever follows. -/
theorem lexed_statement [Scalar α] {s : Statement α} (hs : s.Written decimal) {rest : List Char}
    {ts : List Token} (hts : Lexed rest ts) :
    Lexed (s.text.toList ++ rest) (s.tokens decimal ++ ts) := by
  have hdot : Lexed ('.' :: rest) (.dot :: ts) := hts.sign (x := (".", .dot)) (by decide)
  have hclose : Lexed (')' :: '.' :: rest) (.rparen :: .dot :: ts) :=
    hdot.sign (x := (")", .rparen)) (by decide)
  cases s with
  | rule r => exact writes_rule hs hdot
  | query l =>
    have hliteral := writes_literal hs (stops_cons (by decide) _) hclose
    have hopen := hliteral.sign (x := ("(", .lparen)) (by decide)
    have hall := hopen.word (scan?_directive _).1 rfl
    simpa [Statement.text, Statement.tokens] using hall
  | evidence l =>
    have htruth : Lexed ((if l.positive then "true" else "false").toList ++ ')' :: '.' :: rest)
        ((if l.positive then .verum else .falsum) :: .rparen :: .dot :: ts) := by
      cases l.positive with
      | true => exact hclose.word (scan?_truth _).1 rfl
      | false => exact hclose.word (scan?_truth _).2 rfl
    have hcomma : Lexed (',' :: ' ' :: ((if l.positive then "true" else "false").toList ++
        ')' :: '.' :: rest)) (.comma :: (if l.positive then .verum else .falsum) ::
        .rparen :: .dot :: ts) :=
      (htruth.space (c := ' ') rfl).sign (x := (",", .comma)) (by decide)
    have hatom := writes_name hs (stops_cons (by decide) _) hcomma
    have hopen := hatom.sign (x := ("(", .lparen)) (by decide)
    have hall := hopen.word (scan?_directive _).2 rfl
    simpa [Statement.text, Statement.tokens] using hall

/-- The text of a program has the tokens of its statements. -/
theorem lexed_program [Scalar α] {ss : List (Statement α)} (hss : ∀ s ∈ ss, s.Written decimal) :
    Lexed ("\n".intercalate (ss.map Statement.text)).toList
      (ss.flatMap (Statement.tokens decimal)) := by
  cases ss with
  | nil => exact lexed_nil
  | cons s ss =>
    have hothers : ∀ ss : List (Statement α), (∀ s ∈ ss, s.Written decimal) →
        Lexed (ss.flatMap fun s => "\n".toList ++ s.text.toList)
          (ss.flatMap (Statement.tokens decimal)) := by
      intro ss hss
      induction ss with
      | nil => exact lexed_nil
      | cons s ss ih =>
        have hrest := ih fun u hu => hss u (List.mem_cons_of_mem _ hu)
        have hs := lexed_statement (hss s List.mem_cons_self) hrest
        rw [List.flatMap_cons, List.flatMap_cons, List.append_assoc]
        exact hs.space rfl
    rw [toList_intercalate_cons, List.flatMap_cons]
    exact lexed_statement (hss s List.mem_cons_self)
      (hothers ss fun u hu => hss u (List.mem_cons_of_mem _ hu))

end Written

/-! ### Tokens are read as the statement -/

theorem literalOf_tokens (l : Literal) : LiteralOf l.tokens l := by
  obtain ⟨a, positive⟩ := l
  cases positive with
  | true => exact .atom a
  | false => exact .negated .dash (.atom a)

theorem listOf_listTokens (sep : Token) {phrase : List Token → β → Prop} {f : β → List Token}
    {xs : List β} (hne : xs ≠ []) (h : ∀ x ∈ xs, phrase (f x) x) :
    ListOf sep phrase (listTokens sep f xs) xs := by
  induction xs with
  | nil => exact absurd rfl hne
  | cons x xs ih =>
    have hx := h x List.mem_cons_self
    cases xs with
    | nil =>
      rw [listTokens, List.flatMap_nil, List.append_nil]
      exact .one hx
    | cons y ys =>
      exact .more hx (ih (List.cons_ne_nil y ys) fun z hz => h z (List.mem_cons_of_mem x hz))

theorem conditionOf_tokens (b : List Literal) :
    ConditionOf (if b.isEmpty then [] else .impliedBy :: listTokens .comma Literal.tokens b) b := by
  by_cases hb : b = []
  · subst hb
    exact .absent
  · rw [List.isEmpty_eq_false_iff.mpr hb]
    exact .given (.inl rfl) (.literals (listOf_listTokens .comma hb fun l _ => literalOf_tokens l))

section Derivations

variable [Scalar α] {decimal : α → Decimal}

theorem choiceOf_tokens {c : Choice α}
    (hc : Scalar.ofDecimal (decimal c.probability) = c.probability) :
    ChoiceOf (c.tokens decimal) c := by
  have h := ChoiceOf.mk (AnnotationOf.decimal (α := α) (decimal c.probability)) c.atom
  rw [hc] at h
  exact h

/-- **The tokens of a statement derive it.** -/
theorem statementOf_tokens [Numeral α] {s : Statement α} (hs : s.Written decimal) :
    StatementOf (s.tokens decimal) s := by
  cases s with
  | rule r =>
    obtain ⟨hhead, hchoices, -⟩ := hs
    exact .rule (.mk (listOf_listTokens .semicolon hhead fun c hc =>
      choiceOf_tokens (hchoices c hc).2.2) (conditionOf_tokens r.body))
  | query l => exact .query (literalOf_tokens l)
  | evidence l =>
    obtain ⟨a, positive⟩ := l
    cases positive with
    | true => exact .evidence (.verum a)
    | false => exact .evidence (.falsum a)

theorem programOf_tokens [Numeral α] {ss : List (Statement α)}
    (hss : ∀ s ∈ ss, s.Written decimal) :
    ProgramOf (ss.flatMap (Statement.tokens decimal)) ss := by
  induction ss with
  | nil => exact .nil
  | cons s ss ih =>
    exact .cons (statementOf_tokens (hss s List.mem_cons_self))
      (ih fun u hu => hss u (List.mem_cons_of_mem s hu))

end Derivations

/-! ### Programs -/

variable [Scalar α]

/-- What is read in a text is read in its lexemes, and there is nothing else in the text. -/
theorem Parser.parse_eq_ok_iff {p : List Lexeme → Except (List Lexeme) β} {text : String} {x : β} :
    Parser.parse p text = .ok x ↔ ∃ ls, tokenize text.toList = (ls, []) ∧ p ls = .ok x := by
  constructor
  · intro h
    unfold Parser.parse at h
    split at h
    · next ls heq =>
      refine ⟨ls, heq, ?_⟩
      cases hp : p ls with
      | error e =>
        rw [hp] at h
        cases h
      | ok y =>
        rw [hp] at h
        cases h
        rfl
    · cases h
  · rintro ⟨ls, heq, hp⟩
    unfold Parser.parse
    rw [heq]
    dsimp only
    rw [hp]
    rfl

/-- The atoms among the lexemes that are read have names. -/
theorem exists_lexemes_of_parse {p : List Lexeme → Except (List Lexeme) β} {text : String} {x : β}
    (h : Parser.parse p text = .ok x) :
    ∃ ls, p ls = .ok x ∧ ∀ t ∈ ls, ∀ a, t.token = .atom a → IsName a.name.toList := by
  obtain ⟨ls, heq, hp⟩ := Parser.parse_eq_ok_iff.mp h
  refine ⟨ls, hp, fun t ht a ha => ?_⟩
  have hmem : t ∈ (tokenize text.toList).1 := by
    rw [heq]
    exact ht
  exact isName_of_mem_tokenize hmem ha

/-- **A text is a program if its tokens are one.** -/
theorem parseProgram_eq_ok_iff {text : String} {ss : List (Statement α)} :
    parseProgram text = .ok ss ↔ ∃ tokens, Lexed text.toList tokens ∧ ProgramOf tokens ss := by
  constructor
  · intro h
    obtain ⟨ls, heq, hss⟩ := Parser.parse_eq_ok_iff.mp h
    exact ⟨ls.map Lexeme.token, ⟨ls, heq, rfl⟩, programOf_statements hss⟩
  · rintro ⟨tokens, ⟨ls, heq, htokens⟩, hss⟩
    exact Parser.parse_eq_ok_iff.mpr ⟨ls, heq, statements_of_programOf hss htokens⟩

/-- The statements of a text have names and numbers that were read from it. -/
theorem readFrom_parseProgram {text : String} {ss : List (Statement α)}
    (h : parseProgram text = .ok ss) :
    ∀ s ∈ ss, s.ReadFrom fun a => IsName a.name.toList := by
  obtain ⟨ls, hss, hnames⟩ := exists_lexemes_of_parse h
  exact readFrom_statements hss hnames

/-- **Written statements are read back** from their texts in lines. -/
theorem parseProgram_written [Numeral α] {decimal : α → Decimal} {ss : List (Statement α)}
    (hss : ∀ s ∈ ss, s.Written decimal) :
    parseProgram ("\n".intercalate (ss.map Statement.text)) = .ok ss := by
  exact parseProgram_eq_ok_iff.mpr ⟨_, lexed_program hss, programOf_tokens hss⟩

/-! ### Literals -/

theorem onlyLiteral_eq_ok {ls : List Lexeme} {l : Literal} :
    onlyLiteral ls = .ok l ↔ literal ls = .ok (l, []) := by
  unfold onlyLiteral
  cases literal ls with
  | error rest => simp
  | ok r =>
    obtain ⟨k, rest⟩ := r
    cases rest with
    | nil => simp
    | cons t rest => simp

theorem toOption_parse_eq_some {text : String} {l : Literal} :
    (Literal.parse text).toOption = some l ↔ Literal.parse text = .ok l := by
  cases Literal.parse text <;> simp [Except.toOption]

/-- **A text is a literal if its tokens are one.** -/
theorem parse_eq_ok_iff {text : String} {l : Literal} :
    Literal.parse text = .ok l ↔ ∃ tokens, Lexed text.toList tokens ∧ LiteralOf tokens l := by
  constructor
  · intro h
    obtain ⟨ls, heq, hl⟩ := Parser.parse_eq_ok_iff.mp h
    obtain ⟨us, hus, htokens⟩ := literalOf_literal (onlyLiteral_eq_ok.mp hl)
    rw [List.map_nil, List.append_nil] at htokens
    exact ⟨us, ⟨ls, heq, htokens⟩, hus⟩
  · rintro ⟨tokens, ⟨ls, heq, htokens⟩, h⟩
    have hl := literal_of_literalOf h htokens []
    rw [List.append_nil] at hl
    exact Parser.parse_eq_ok_iff.mpr ⟨ls, heq, onlyLiteral_eq_ok.mpr hl⟩

/-- The literal of a text has a name that was read from it. -/
theorem isName_of_parse {text : String} {l : Literal} (h : Literal.parse text = .ok l) :
    IsName l.atom.name.toList := by
  obtain ⟨ls, hl, hnames⟩ := exists_lexemes_of_parse h
  obtain ⟨us, hus, htokens⟩ := literalOf_literal (onlyLiteral_eq_ok.mp hl)
  rw [List.map_nil, List.append_nil] at htokens
  obtain ⟨t, ht, ha⟩ := List.mem_map.mp (htokens ▸ hus.atom_mem)
  exact hnames t ht l.atom ha

/-- **Literals are read back** from their texts. -/
theorem parse_text {l : Literal} (h : IsName l.atom.name.toList) :
    Literal.parse l.text = .ok l := by
  have hnil : Apart [] := fun c hc => nomatch hc
  have hlexed := writes_literal h hnil lexed_nil
  rw [List.append_nil, List.append_nil] at hlexed
  exact parse_eq_ok_iff.mpr ⟨_, hlexed, literalOf_tokens l⟩

end ProbLogic
