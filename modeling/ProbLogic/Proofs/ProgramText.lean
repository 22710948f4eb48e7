/-
# A program that was read is written as a text that reads the same

All names of a program come from its tokens, and all its probabilities are one,
decimals or quotients of decimals, none of them below zero. If they are finite,
their texts are numerals that read back. So every statement is written as text
with the tokens it is parsed from, however it was written before: with the
blanks inside arguments removed, fractions as decimals, certain heads with their
probability, and one notation for negation.

Key theorems: `toBits_lt_of_isRead`, `parseProgram_text`.
-/
import ProbLogic.Proofs.Statement
import ProbLogic.Proofs.Decimal.Shortest

namespace ProbLogic

open Token

/-- Programs give no negative numbers. -/
theorem toBits_lt_of_isRead {x : Float} (hx : IsRead x) : x.toBits.toNat < 2 ^ 63 := by
  cases hx with
  | one =>
    show (1 : Float).toBits.toNat < 2 ^ 63
    decide +kernel
  | decimal d => exact toBits_toFloat_lt d
  | fraction n d => exact toBits_div_lt (toBits_toFloat_lt n) (toBits_toFloat_lt d)

/-- All probabilities of the statement are finite. -/
def Statement.isFinite : Statement Float → Bool
  | .rule r => r.head.all fun c => c.probability.isFinite
  | .query _ | .evidence _ => true

theorem written_of_readFrom {s : Statement Float}
    (hs : s.ReadFrom fun a => IsName a.name.toList) (hfinite : s.isFinite = true) :
    s.Written floatDecimal := by
  cases s with
  | rule r =>
    obtain ⟨hne, hhead, hbody⟩ := hs
    refine ⟨hne, fun c hc => ?_, hbody⟩
    obtain ⟨hname, hread⟩ := hhead c hc
    have hlt := toBits_lt_of_isFinite (toBits_lt_of_isRead hread)
      (List.all_eq_true.mp hfinite c hc)
    exact ⟨hname, spells_floatText hlt, toFloat_floatDecimal hlt⟩
  | query l => exact hs
  | evidence l => exact hs

/-- **A program that was read is written as a text that reads the same.** -/
theorem parseProgram_text {text : String} {ss : List (Statement Float)}
    (h : parseProgram text = .ok ss) (hfinite : ∀ s ∈ ss, s.isFinite = true) :
    parseProgram ("\n".intercalate (ss.map Statement.text)) = .ok ss := by
  have hwritten : ∀ s ∈ ss, s.Written floatDecimal := fun s hs =>
    written_of_readFrom (readFrom_parseProgram h s hs) (hfinite s hs)
  exact parseProgram_written hwritten

/-- A fraction, a certain head, blanks in arguments, a comment, and negation in all its
notations. -/
def looseText : String :=
  "1/3::a; 0.1 :: b(x, [y ]) <- c, \\+ d, not (-e), -f. % loose\nh.\n" ++
    "query( \\+h ). evidence(not a). evidence(b(x , [ y]), false)."

/-- What `looseText` is written as. -/
def plainText : String :=
  "0.3333333333333333::a; 0.1::b(x,[y]) :- c, -d, e, -f.\n1::h.\n" ++
    "query(-h).\nevidence(a, false).\nevidence(b(x,[y]), false)."

theorem parseProgram_text_looseText :
    ∃ ss : List (Statement Float), parseProgram looseText = .ok ss ∧
      (∀ s ∈ ss, s.isFinite = true) ∧
      "\n".intercalate (ss.map Statement.text) = plainText ∧ parseProgram plainText = .ok ss := by
  have hread : (parseProgram looseText : Except ParseError (List (Statement Float))).toOption.any
      (fun ss => ss.all Statement.isFinite &&
        "\n".intercalate (ss.map Statement.text) == plainText) = true := by
    decide +kernel
  cases h : (parseProgram looseText : Except ParseError (List (Statement Float))) with
  | error e =>
    rw [h] at hread
    cases hread
  | ok ss =>
    rw [h] at hread
    obtain ⟨hfinite, hplain⟩ := Bool.and_eq_true_iff.mp hread
    rw [List.all_eq_true] at hfinite
    rw [beq_iff_eq] at hplain
    have htext := parseProgram_text h hfinite
    rw [hplain] at htext
    exact ⟨ss, rfl, hfinite, hplain, htext⟩

end ProbLogic
