import Calculator.Proofs.Alphabet
import Calculator.Proofs.Reading

/-!
Reading two texts one after the other in the standard notation. What is read
depends on the text before it only through its last character: whether that is a
digit, because a number goes on, and whether it ends an operand, because a minus
sign after an operand is a subtraction. Behind the first symbol of the second text
the first one is forgotten. So two texts can be read apart unless they are cut
inside a number or before the minus sign of a subtraction.
-/

namespace Calculator

variable {before : Option Char} {c : Char} {text rest : List Char}

def lastOf (before : Option Char) (text : List Char) : Option Char := text.getLast?.or before

@[simp] theorem lastOf_nil (before : Option Char) : lastOf before [] = before := rfl

@[simp] theorem lastOf_cons (before : Option Char) (c : Char) (text : List Char) :
    lastOf before (c :: text) = lastOf (some c) text := by
  rw [lastOf, lastOf, List.getLast?_cons]
  cases text.getLast? <;> rfl

def GoesOn (before : Option Char) (text : List Char) : Prop :=
  before.any Char.isDigit = true ∧ startsWithDigit text = true

/-- Digits are counted up to the end of a text if none follow. -/
theorem takeWhile_append_of_not_goesOn (hc : c.isDigit = true)
    (h : ¬ GoesOn (lastOf (some c) text) rest) :
    (text ++ rest).takeWhile Char.isDigit = text.takeWhile Char.isDigit := by
  induction text generalizing c with
  | nil =>
      cases rest with
      | nil => rfl
      | cons first rest =>
          have hfirst : ¬ first.isDigit = true := fun hfirst => h ⟨hc, hfirst⟩
          simp [hfirst]
  | cons first text ih =>
      rw [lastOf_cons] at h
      by_cases hfirst : first.isDigit = true
      · rw [List.cons_append, List.takeWhile_cons_of_pos hfirst,
          List.takeWhile_cons_of_pos hfirst, ih hfirst h]
      · rw [List.cons_append, List.takeWhile_cons_of_neg hfirst,
          List.takeWhile_cons_of_neg hfirst]

/-- A text that is not cut inside a number is read part by part. -/
theorem symbolsAfter_append (h : ¬ GoesOn (lastOf before text) rest) :
    symbolsAfter before (text ++ rest) =
      symbolsAfter before text ++ symbolsAfter (lastOf before text) rest := by
  induction text generalizing before with
  | nil => rfl
  | cons c text ih =>
      rw [lastOf_cons] at h ⊢
      rw [List.cons_append, symbolsAfter, symbolsAfter, ih h]
      by_cases hc : c.isDigit = true
      · by_cases hbefore : before.any Char.isDigit = true
        · simp only [hc, hbefore, ↓reduceIte]
        · simp only [hc, hbefore, ↓reduceIte, takeWhile_append_of_not_goesOn hc h]
          rfl
      · rw [if_neg hc, if_neg hc, List.append_assoc]

/-- Wherever a text is cut, its symbols are as many as those of its parts. -/
theorem length_symbolsAfter_append (before : Option Char) (text rest : List Char) :
    (symbolsAfter before (text ++ rest)).length =
      (symbolsAfter before text).length + (symbolsAfter (lastOf before text) rest).length := by
  induction text generalizing before with
  | nil => simp [symbolsAfter]
  | cons c text ih =>
      rw [lastOf_cons, List.cons_append, symbolsAfter, symbolsAfter]
      split
      · split
        · exact ih (some c)
        · rw [List.length_cons, List.length_cons, ih]
          omega
      · rw [List.length_append, List.length_append, ih]
        omega

/-- Where a number goes on, its digits count as one symbol more if they are read
alone. -/
theorem length_symbolsAfter_of_goesOn (h : GoesOn before text) :
    (symbolsAfter none text).length = (symbolsAfter before text).length + 1 := by
  obtain ⟨hbefore, hhead⟩ := h
  cases text with
  | nil => contradiction
  | cons c text =>
      have hc : c.isDigit = true := hhead
      simp [symbolsAfter, hc, hbefore]

/-- The symbol of a character depends on what is before it only at a minus sign. -/
theorem markSymbol?_eq_iff (before : Option Char) (c : Char) :
    markSymbol? before c = markSymbol? none c ↔
      ¬ (before.any endsOperand = true ∧ c = '-') := by
  by_cases hc : c = '-'
  · subst hc
    cases hbefore : before.any endsOperand with
    | false => simp [markSymbol?, hbefore]
    | true => simpa [markSymbol?, hbefore] using (by decide : Operator.subtraction ≠ .negation)
  · have hsame : markSymbol? before c = markSymbol? none c := by
      unfold markSymbol?
      split <;> simp_all
    exact iff_of_true hsame fun h => hc h.2

/-- Unless a number goes on, a text is read as it is alone, but for a minus sign
after an operand. -/
theorem symbolsAfter_eq_iff (h : ¬ GoesOn before text) :
    symbolsAfter before text = symbolsAfter none text ↔
      ¬ (before.any endsOperand = true ∧ text.head? = some '-') := by
  cases text with
  | nil => simp [symbolsAfter]
  | cons c text =>
      rw [symbolsAfter, symbolsAfter, List.head?_cons, Option.some.injEq]
      by_cases hc : c.isDigit = true
      · have hbefore : ¬ before.any Char.isDigit = true := fun hbefore => h ⟨hbefore, hc⟩
        have hminus : c ≠ '-' := by
          rintro rfl
          contradiction
        simp [hc, hbefore, hminus]
      · rw [if_neg hc, if_neg hc, List.append_left_inj, ← markSymbol?_eq_iff]
        exact ⟨fun hlist => by simpa using congrArg List.head? hlist, fun hsame => by rw [hsame]⟩

/-- The symbols of a text cut in two are those of its parts exactly if the cut is
neither inside a number nor before the minus sign of a subtraction. -/
theorem symbolsAfter_append_iff (text rest : List Char) :
    symbolsAfter none (text ++ rest) = symbolsAfter none text ++ symbolsAfter none rest ↔
      ¬ GoesOn text.getLast? rest ∧
        ¬ (text.getLast?.any endsOperand = true ∧ rest.head? = some '-') := by
  have hlast : lastOf none text = text.getLast? := Option.or_none
  by_cases hcut : GoesOn text.getLast? rest
  · refine iff_of_false (fun hsame => ?_) fun h => h.1 hcut
    have hlength := length_symbolsAfter_append none text rest
    rw [hsame, List.length_append, hlast, length_symbolsAfter_of_goesOn hcut] at hlength
    omega
  · have hparts := @symbolsAfter_append none text rest (by rwa [hlast])
    rw [hparts, hlast, List.append_right_inj, symbolsAfter_eq_iff hcut]
    exact (and_iff_right hcut).symm

namespace Catalog

def body (catalog : Catalog) (source : String) : Except LexError (List Symbol) :=
  (catalog.tokenize source).result.map dropSentinels

theorem body_of_inAlphabet {source : String} (h : ∀ c ∈ source.toList, inAlphabet c = true) :
    standard.body source = .ok (symbolsAfter none source.toList) := by
  rw [body, result_tokenize_of_inAlphabet h, Except.map, dropSentinels_sentinels]

/-- Texts of the alphabet can be read, and reading them one after the other gives
the symbols of both exactly if no number is cut in two and no minus sign that
starts the second one follows an operand. -/
theorem body_append_iff (first second : String) (hfirst : ∀ c ∈ first.toList, inAlphabet c = true)
    (hsecond : ∀ c ∈ second.toList, inAlphabet c = true) :
    ∃ front back whole, standard.body first = .ok front ∧ standard.body second = .ok back ∧
      standard.body (first ++ second) = .ok whole ∧
      (whole = front ++ back ↔
        ¬ (first.toList.getLast?.any Char.isDigit = true ∧
            startsWithDigit second.toList = true) ∧
        ¬ (first.toList.getLast?.any endsOperand = true ∧ second.toList.head? = some '-')) := by
  have hwhole : ∀ c ∈ (first ++ second).toList, inAlphabet c = true := by
    intro c member
    rw [String.toList_append] at member
    exact (List.mem_append.mp member).elim (hfirst c) (hsecond c)
  refine ⟨_, _, _, body_of_inAlphabet hfirst, body_of_inAlphabet hsecond,
    body_of_inAlphabet hwhole, ?_⟩
  rw [String.toList_append]
  exact symbolsAfter_append_iff first.toList second.toList

/-- The minus sign of `-4` is read as a subtraction behind `(3!)`. -/
theorem body_append_iff_minus :
    (∀ c ∈ "(3!)".toList, inAlphabet c = true) ∧ (∀ c ∈ "-4".toList, inAlphabet c = true) ∧
      ∃ front back whole, standard.body "(3!)" = .ok front ∧ standard.body "-4" = .ok back ∧
        standard.body ("(3!)" ++ "-4") = .ok whole ∧ whole ≠ front ++ back := by
  have hfirst : ∀ c ∈ "(3!)".toList, inAlphabet c = true := List.all_eq_true.mp rfl
  have hsecond : ∀ c ∈ "-4".toList, inAlphabet c = true := List.all_eq_true.mp rfl
  obtain ⟨front, back, whole, hfront, hback, hwhole, hiff⟩ :=
    body_append_iff "(3!)" "-4" hfirst hsecond
  refine ⟨hfirst, hsecond, front, back, whole, hfront, hback, hwhole, fun hsame => ?_⟩
  exact (hiff.mp hsame).2 (by decide)

end Catalog

end Calculator
