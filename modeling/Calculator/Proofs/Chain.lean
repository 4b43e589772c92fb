import Calculator.Proofs.Calculation

/-!
Chains of two operators that share a precedence. Both group from the left, but
a slice is cut around the one that is declared first wherever it occurs. The
other one therefore binds tighter in a mixed chain: `1 + 2 - 3` is `1 + (2 - 3)`
and `49 * 1 / 49` is `49 * (1 / 49)`.
-/

namespace Calculator

/-- The operators that share a precedence and group from the left, the one that
is declared first in front. -/
def chainPairs : List (Operator × Operator) :=
  [(.addition, .subtraction), (.multiplication, .division)]

def chainText (first : List Char) (steps : List (Operator × List Char)) : List Char :=
  first ++ steps.flatMap fun step => step.1.spelling.toList ++ step.2

/-- The value of a chain that groups from the left, whatever its operators are. -/
def leftFold (first : Float) (steps : List (Operator × List Char)) : Except EvalError Float :=
  steps.foldlM (fun value step => step.1.apply (.binary value (digitsValue step.2))) first

def Operator.addTo (o : Operator) (total : Option Float) (value : Float) :
    Except EvalError Float :=
  match total with
  | none => .ok value
  | some total => o.apply (.binary total value)

/-- The value of a chain in which `loose` groups from the left, and between two
of its occurrences the other operators do. The total is that of the segments
before the current one. -/
def groupedFold (loose : Operator) (total : Option Float) (current : Float) :
    List (Operator × List Char) → Except EvalError Float
  | [] => loose.addTo total current
  | (o, digits) :: steps =>
      if o = loose then do
        let total ← loose.addTo total current
        groupedFold loose (some total) (digitsValue digits) steps
      else do
        let current ← o.apply (.binary current (digitsValue digits))
        groupedFold loose total current steps

section Folds

variable {loose : Operator} {steps : List (Operator × List Char)}

theorem groupedFold_of_loose (h : ∀ step ∈ steps, step.1 = loose) (total : Option Float)
    (current : Float) :
    groupedFold loose total current steps =
      loose.addTo total current >>= fun value => leftFold value steps := by
  induction steps generalizing total current with
  | nil =>
      unfold groupedFold leftFold
      cases loose.addTo total current <;> rfl
  | cons step rest ih =>
      obtain ⟨o, digits⟩ := step
      obtain rfl : o = loose := h _ List.mem_cons_self
      rw [groupedFold, if_pos rfl]
      congr 1
      funext value
      rw [ih fun step member => h step (List.mem_cons_of_mem _ member)]
      rfl

/-- A chain in which nothing else comes after `loose` groups from the left. -/
theorem groupedFold_eq_leftFold
    (h : steps.Pairwise fun earlier later => earlier.1 = loose → later.1 = loose)
    (current : Float) : groupedFold loose none current steps = leftFold current steps := by
  induction steps generalizing current with
  | nil => rfl
  | cons step rest ih =>
      obtain ⟨o, digits⟩ := step
      obtain ⟨hfirst, hrest⟩ := List.pairwise_cons.mp h
      by_cases ho : o = loose
      · apply groupedFold_of_loose
        intro step member
        rcases List.mem_cons.mp member with rfl | later
        · exact ho
        · exact hfirst step later ho
      · rw [groupedFold, if_neg ho, leftFold, List.foldlM_cons]
        congr 1
        funext value
        exact ih hrest value

end Folds

/-- An operator that groups from the left always has a value. -/
theorem exists_apply_eq {rule : Rule} (hrule : rule ∈ rules) (hshape : rule.shape = .fromLeft)
    (left right : Float) : ∃ value, rule.operator.apply (.binary left right) = .ok value := by
  have hoperations : ∀ rule ∈ rules, rule.shape = .fromLeft →
      rule.operator.operation ∈ [.add, .subtract, .multiply, .divide] := by
    decide
  have hoperation := hoperations rule hrule hshape
  simp only [List.mem_cons, List.not_mem_nil, or_false] at hoperation
  unfold Operator.apply
  rcases hoperation with h | h | h | h
  · exact ⟨left + right, by rw [h]⟩
  · exact ⟨left - right, by rw [h]⟩
  · exact ⟨left * right, by rw [h]⟩
  · exact ⟨left / right, by rw [h]⟩

structure LeftPair (loose tight : Rule) (tighter : List Rule) : Prop where
  suffix : loose :: tight :: tighter <:+ rules
  loose_shape : loose.shape = .fromLeft
  tight_shape : tight.shape = .fromLeft

inductive Segments (loose tight : Rule) (tighter : List Rule) :
    Option Float → Float → List Char → Prop where
  | first {text : List Char} {symbols : List Symbol} {current : Float}
      (hcurrent : Phrase (tight :: tighter) text symbols (.ok current)) :
      Segments loose tight tighter none current text
  | next {before text : List Char} {others symbols : List Symbol} {total current : Float}
      (htotal : Phrase (loose :: tight :: tighter) before others (.ok total))
      (hcurrent : Phrase (tight :: tighter) text symbols (.ok current)) :
      Segments loose tight tighter (some total) current (before ++ loose.mark :: text)

theorem phrase_numeral {digits : List Char} (h : IsNumeral digits) (current : List Rule) :
    Phrase current digits [.number (digitsValue digits) (byteCount digits)]
      (.ok (digitsValue digits)) :=
  (Phrase.number h).of_suffix List.nil_suffix

namespace Segments

variable {loose tight : Rule} {tighter : List Rule} {total : Option Float} {current : Float}
variable {text : List Char}

/-- The segments so far are a phrase with the value of their total. -/
theorem exists_phrase (h : Segments loose tight tighter total current text)
    (hpair : LeftPair loose tight tighter) :
    ∃ value symbols, loose.operator.addTo total current = .ok value ∧
      Phrase (loose :: tight :: tighter) text symbols (.ok value) := by
  cases h with
  | first hcurrent => exact ⟨current, _, rfl, .tighter hcurrent⟩
  | @next _ _ _ _ total _ htotal hcurrent =>
      obtain ⟨value, hvalue⟩ :=
        exists_apply_eq (mem_rules_of_suffix hpair.suffix) hpair.loose_shape total current
      have hphrase := Phrase.fromLeft hpair.loose_shape htotal hcurrent
      have hbinary : loose.binary (.ok total) (.ok current) = .ok value := hvalue
      rw [hbinary] at hphrase
      exact ⟨value, _, hvalue, hphrase⟩

/-- The tighter rule makes the last segment longer. -/
theorem extend (h : Segments loose tight tighter total current text)
    (hpair : LeftPair loose tight tighter) {operandText : List Char} {operands : List Symbol}
    {operand : Float} (hoperand : Phrase tighter operandText operands (.ok operand)) :
    ∃ value, tight.operator.apply (.binary current operand) = .ok value ∧
      Segments loose tight tighter total value (text ++ tight.mark :: operandText) := by
  obtain ⟨value, hvalue⟩ := exists_apply_eq
    (mem_rules_of_suffix (suffix_of_cons hpair.suffix)) hpair.tight_shape current operand
  have hbinary : tight.binary (.ok current) (.ok operand) = .ok value := hvalue
  refine ⟨value, hvalue, ?_⟩
  cases h with
  | first hcurrent =>
      have hphrase := Phrase.fromLeft hpair.tight_shape hcurrent hoperand
      rw [hbinary] at hphrase
      exact .first hphrase
  | next htotal hcurrent =>
      have hphrase := Phrase.fromLeft hpair.tight_shape hcurrent hoperand
      rw [hbinary] at hphrase
      rw [List.append_assoc, List.cons_append]
      exact .next htotal hphrase

/-- Reading on to the end of the chain gives a phrase with the value of the
grouped fold. -/
theorem exists_phrase_append (h : Segments loose tight tighter total current text)
    (hpair : LeftPair loose tight tighter) {steps : List (Operator × List Char)}
    (hsteps : ∀ step ∈ steps,
      (step.1 = loose.operator ∨ step.1 = tight.operator) ∧ IsNumeral step.2) :
    ∃ value symbols, groupedFold loose.operator total current steps = .ok value ∧
      Phrase (loose :: tight :: tighter) (chainText text steps) symbols (.ok value) := by
  have hloose := mem_rules_of_suffix hpair.suffix
  have htight := mem_rules_of_suffix (suffix_of_cons hpair.suffix)
  induction steps generalizing total current text with
  | nil =>
      obtain ⟨value, symbols, hvalue, hphrase⟩ := h.exists_phrase hpair
      exact ⟨value, symbols, hvalue, by simpa [chainText] using hphrase⟩
  | cons step rest ih =>
      obtain ⟨o, digits⟩ := step
      obtain ⟨ho, hdigits⟩ := hsteps _ List.mem_cons_self
      have hrest := fun step member => hsteps step (List.mem_cons_of_mem _ member)
      by_cases hsame : o = loose.operator
      · subst hsame
        obtain ⟨value, symbols, hvalue, hphrase⟩ := h.exists_phrase hpair
        obtain ⟨result, whole, hresult, hwhole⟩ :=
          ih (.next hphrase (phrase_numeral hdigits _)) hrest
        refine ⟨result, whole, ?_, ?_⟩
        · rw [groupedFold, if_pos rfl, hvalue]
          exact hresult
        · simpa [chainText, (spelling_of_mem_rules hloose).1] using hwhole
      · obtain rfl := ho.resolve_left hsame
        obtain ⟨value, hvalue, hsegments⟩ := h.extend hpair (phrase_numeral hdigits tighter)
        obtain ⟨result, whole, hresult, hwhole⟩ := ih hsegments hrest
        refine ⟨result, whole, ?_, ?_⟩
        · rw [groupedFold, if_neg hsame, hvalue]
          exact hresult
        · simpa [chainText, (spelling_of_mem_rules htight).1] using hwhole

end Segments

theorem exists_phrase_of_chain {loose other : Operator} (hpair : (loose, other) ∈ chainPairs)
    {first : List Char} (hfirst : IsNumeral first) {steps : List (Operator × List Char)}
    (hsteps : ∀ step ∈ steps, (step.1 = loose ∨ step.1 = other) ∧ IsNumeral step.2) :
    ∃ value symbols, groupedFold loose none (digitsValue first) steps = .ok value ∧
      Phrase rules (chainText first steps) symbols (.ok value) := by
  obtain ⟨looseRule, tightRule, tighter, hrules, rfl, rfl⟩ :
      ∃ looseRule tightRule tighter, LeftPair looseRule tightRule tighter ∧
        looseRule.operator = loose ∧ tightRule.operator = other := by
    simp only [chainPairs, List.mem_cons, Prod.mk.injEq, List.not_mem_nil, or_false] at hpair
    rcases hpair with ⟨rfl, rfl⟩ | ⟨rfl, rfl⟩
    · exact ⟨rules[0], rules[1], rules.drop 2, ⟨⟨[], rfl⟩, rfl, rfl⟩, rfl, rfl⟩
    · exact ⟨rules[3], rules[4], rules.drop 5, ⟨⟨rules.take 3, rfl⟩, rfl, rfl⟩, rfl, rfl⟩
  have hsegments : Segments looseRule tightRule tighter none (digitsValue first) first :=
    .first (phrase_numeral hfirst _)
  obtain ⟨value, symbols, hvalue, hphrase⟩ := hsegments.exists_phrase_append hrules hsteps
  exact ⟨value, symbols, hvalue, hphrase.of_suffix hrules.suffix⟩

/-- A chain of two operators of one precedence always has a value. The operator
that is declared first groups from the left and the other one does so between
its occurrences. If the other one never comes after it, the chain groups from
the left as a whole. -/
theorem calculate_chain (loose other : Operator) (hpair : (loose, other) ∈ chainPairs)
    (first : List Char) (hfirst : IsNumeral first) (steps : List (Operator × List Char))
    (hsteps : ∀ step ∈ steps, (step.1 = loose ∨ step.1 = other) ∧ IsNumeral step.2) :
    ∃ value, (calculate (String.ofList (chainText first steps))).result = .ok value ∧
      groupedFold loose none (digitsValue first) steps = .ok value ∧
      ((steps.Pairwise fun earlier later => earlier.1 = loose → later.1 = loose) →
        leftFold (digitsValue first) steps = .ok value) := by
  obtain ⟨value, symbols, hvalue, hphrase⟩ := exists_phrase_of_chain hpair hfirst hsteps
  refine ⟨value, hphrase.result_calculate_ofList, hvalue, fun horder => ?_⟩
  rw [← groupedFold_eq_leftFold horder, hvalue]

/-- The chain `7 - 8 + 2 - 3`. -/
theorem calculate_chain_difference :
    let steps : List (Operator × List Char) :=
      [(.subtraction, ['8']), (.addition, ['2']), (.subtraction, ['3'])]
    (.addition, .subtraction) ∈ chainPairs ∧ IsNumeral ['7'] ∧
      (∀ step ∈ steps, (step.1 = .addition ∨ step.1 = .subtraction) ∧
        IsNumeral step.2) ∧
      ∃ value, (calculate (String.ofList (chainText ['7'] steps))).result = .ok value ∧
        groupedFold .addition none (digitsValue ['7']) steps = .ok value ∧
        ((steps.Pairwise fun earlier later => earlier.1 = .addition →
            later.1 = .addition) →
          leftFold (digitsValue ['7']) steps = .ok value) := by
  intro steps
  have hpair : (.addition, .subtraction) ∈ chainPairs := List.mem_cons_self
  have hfirst : IsNumeral ['7'] := IsNumeral.of_all (by simp) rfl
  have hsteps : ∀ step ∈ steps,
      (step.1 = .addition ∨ step.1 = .subtraction) ∧ IsNumeral step.2 := by
    intro step member
    simp only [steps, List.mem_cons, List.not_mem_nil, or_false] at member
    rcases member with rfl | rfl | rfl
    · exact ⟨Or.inr rfl, IsNumeral.of_all (by simp) rfl⟩
    · exact ⟨Or.inl rfl, IsNumeral.of_all (by simp) rfl⟩
    · exact ⟨Or.inr rfl, IsNumeral.of_all (by simp) rfl⟩
  exact ⟨hpair, hfirst, hsteps,
    calculate_chain .addition .subtraction hpair ['7'] hfirst steps hsteps⟩

/-- Mixed chains do not group from the left: `49 * 1 / 49` is `49 * (1 / 49)`,
which is rounded to a number below `1`. -/
theorem not_forall_calculate_eq_leftFold :
    ¬ ∀ loose other : Operator, (loose, other) ∈ chainPairs →
      ∀ first, IsNumeral first → ∀ steps : List (Operator × List Char), steps ≠ [] →
        (∀ step ∈ steps, (step.1 = loose ∨ step.1 = other) ∧ IsNumeral step.2) →
          ∃ value, leftFold (digitsValue first) steps = .ok value ∧
            (calculate (String.ofList (chainText first steps))).result = .ok value := by
  intro hall
  have hpair : (.multiplication, .division) ∈ chainPairs :=
    List.mem_cons_of_mem _ List.mem_cons_self
  have hfirst : IsNumeral ['4', '9'] := IsNumeral.of_all (by simp) rfl
  let steps : List (Operator × List Char) :=
    [(.multiplication, ['1']), (.division, ['4', '9'])]
  have hsteps : ∀ step ∈ steps,
      (step.1 = .multiplication ∨ step.1 = .division) ∧ IsNumeral step.2 := by
    intro step member
    simp only [steps, List.mem_cons, List.not_mem_nil, or_false] at member
    rcases member with rfl | rfl
    · exact ⟨Or.inl rfl, IsNumeral.of_all (by simp) rfl⟩
    · exact ⟨Or.inr rfl, IsNumeral.of_all (by simp) rfl⟩
  obtain ⟨value, hfold, hvalue⟩ := hall _ _ hpair _ hfirst steps (by simp [steps]) hsteps
  obtain ⟨grouped, symbols, hgrouped, hphrase⟩ := exists_phrase_of_chain hpair hfirst hsteps
  rw [hphrase.result_calculate_ofList] at hvalue
  cases hvalue
  have hne : digitsValue ['4', '9'] * (digitsValue ['1'] / digitsValue ['4', '9']) ≠
      digitsValue ['4', '9'] * digitsValue ['1'] / digitsValue ['4', '9'] := by
    decide +kernel
  exact hne (Except.ok.inj (hgrouped.trans hfold.symm))

end Calculator
