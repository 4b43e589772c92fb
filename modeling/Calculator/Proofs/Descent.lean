import Calculator.Proofs.Grammar

/-!
A recursive-descent evaluator for the grammar. It reads the text once from left
to right, decides by the next character which rule to follow, and computes
values as it goes. It gives a text a value exactly if the text is a phrase.
-/

namespace Calculator

/-- The value of a phrase at the head of a text, and the rest of the text, which
is shorter than `bound`. -/
structure Found (bound : Nat) where
  value : Except EvalError Float
  rest : List Char
  shorter : rest.length < bound

mutual

/-- The phrase of some rules at the head of a text. -/
def phrase? : List Rule → (text : List Char) → Option (Found text.length)
  | _, [] => none
  | [], c :: inside =>
      if c = '(' then do
        let found ← phrase? rules inside
        if found.rest.head? = some ')' then
          some ⟨found.value, found.rest.tail, Nat.lt_succ_of_lt
            (Nat.lt_of_le_of_lt (List.tail_suffix _).length_le found.shorter)⟩
        else none
      else if c.isDigit then
        some ⟨.ok (digitsValue (c :: inside.takeWhile Char.isDigit)),
          inside.dropWhile Char.isDigit, Nat.lt_succ_of_le (List.dropWhile_suffix _).length_le⟩
      else none
  | rule :: tighter, c :: operand =>
      if rule.shape = .before ∧ c = rule.mark then do
        let found ← phrase? (rule :: tighter) operand
        some ⟨rule.unary found.value, found.rest, Nat.lt_succ_of_lt found.shorter⟩
      else do
        let first ← phrase? tighter (c :: operand)
        let found ← continue? rule tighter first.value first.rest
        some ⟨found.value, found.rest, Nat.lt_of_lt_of_le found.shorter first.shorter⟩
-- Below a mark or a bracket the text is shorter; otherwise a rule is left behind.
termination_by levels text => (text.length, levels.length)
decreasing_by
  · exact Prod.Lex.left _ _ (Nat.lt_succ_self _)
  · exact Prod.Lex.left _ _ (Nat.lt_succ_self _)
  · exact Prod.Lex.right _ (Nat.lt_succ_self _)
  · exact Prod.Lex.left _ _ first.shorter

def continue? (rule : Rule) (tighter : List Rule) (first : Except EvalError Float) :
    (text : List Char) → Option (Found (text.length + 1))
  | [] => some ⟨first, [], Nat.zero_lt_one⟩
  | c :: operand =>
      if c = rule.mark then
        match rule.shape with
        | .fromLeft => do
            let second ← phrase? tighter operand
            let found ← continue? rule tighter (rule.binary first second.value) second.rest
            some ⟨found.value, found.rest,
              Nat.lt_of_lt_of_le found.shorter (Nat.lt_add_right 2 second.shorter)⟩
        | .fromRight => do
            let second ← phrase? (rule :: tighter) operand
            some ⟨rule.binary first second.value, second.rest,
              Nat.lt_add_right 2 second.shorter⟩
        | .after => do
            let found ← continue? rule tighter (rule.unary first) operand
            some ⟨found.value, found.rest, Nat.lt_succ_of_lt found.shorter⟩
        | .before => some ⟨first, c :: operand, Nat.lt_succ_self _⟩
      else some ⟨first, c :: operand, Nat.lt_succ_self _⟩
termination_by text => (text.length, 0)
decreasing_by
  · exact Prod.Lex.left _ _ (Nat.lt_succ_self _)
  · exact Prod.Lex.left _ _ (Nat.lt_succ_of_lt second.shorter)
  · exact Prod.Lex.left _ _ (Nat.lt_succ_self _)
  · exact Prod.Lex.left _ _ (Nat.lt_succ_self _)

end

/-- The value of a text that is a phrase from end to end. -/
def descend (text : List Char) : Option (Except EvalError Float) :=
  match phrase? rules text with
  | some ⟨value, [], _⟩ => some value
  | _ => none

def Found.outcome {bound : Nat} (found : Found bound) : Except EvalError Float × List Char :=
  (found.value, found.rest)

def phraseAt (current : List Rule) (text : List Char) :
    Option (Except EvalError Float × List Char) :=
  (phrase? current text).map Found.outcome

def continueAt (rule : Rule) (tighter : List Rule) (first : Except EvalError Float)
    (text : List Char) : Option (Except EvalError Float × List Char) :=
  (continue? rule tighter first text).map Found.outcome

section Steps

variable {rule : Rule} {current tighter : List Rule} {c : Char} {text operand : List Char}
variable {first value : Except EvalError Float} {rest : List Char}

theorem descend_eq_some_iff_phraseAt :
    descend text = some value ↔ phraseAt rules text = some (value, []) := by
  unfold descend phraseAt
  split
  · rename_i found _ hfound
    simp [hfound, Found.outcome]
  · rename_i hnone
    simp only [false_iff, reduceCtorEq]
    intro h
    obtain ⟨⟨value, rest, shorter⟩, hfound, houtcome⟩ := Option.map_eq_some_iff.mp h
    cases houtcome
    exact hnone value shorter hfound

theorem phraseAt_nil : phraseAt current [] = none := by
  unfold phraseAt
  cases current <;> rw [phrase?] <;> rfl

theorem phraseAt_group (inside : List Char) :
    phraseAt [] ('(' :: inside) = (phraseAt rules inside).bind fun found =>
      if found.2.head? = some ')' then some (found.1, found.2.tail) else none := by
  unfold phraseAt
  rw [phrase?, if_pos rfl]
  cases phrase? rules inside with
  | none => rfl
  | some found =>
      simp only [Option.map_some, Option.bind_some, Found.outcome, Option.bind_eq_bind]
      split <;> rfl

theorem phraseAt_number (hc : c.isDigit = true) (text : List Char) :
    phraseAt [] (c :: text) = some (.ok (digitsValue (c :: text.takeWhile Char.isDigit)),
      text.dropWhile Char.isDigit) := by
  have hopening : c ≠ '(' := by
    rintro rfl
    contradiction
  unfold phraseAt
  rw [phrase?, if_neg hopening, if_pos hc]
  rfl

theorem phraseAt_eq_none (hopening : c ≠ '(') (hc : c.isDigit = false) (text : List Char) :
    phraseAt [] (c :: text) = none := by
  unfold phraseAt
  rw [phrase?, if_neg hopening, if_neg (by simp [hc])]
  rfl

theorem phraseAt_before (hshape : rule.shape = .before) (operand : List Char) :
    phraseAt (rule :: tighter) (rule.mark :: operand) =
      (phraseAt (rule :: tighter) operand).map fun found => (rule.unary found.1, found.2) := by
  unfold phraseAt
  rw [phrase?, if_pos ⟨hshape, rfl⟩]
  cases phrase? (rule :: tighter) operand <;> rfl

theorem phraseAt_cons (h : ¬ (rule.shape = .before ∧ text.head? = some rule.mark)) :
    phraseAt (rule :: tighter) text =
      (phraseAt tighter text).bind fun found => continueAt rule tighter found.1 found.2 := by
  cases text with
  | nil => rw [phraseAt_nil, phraseAt_nil, Option.bind_none]
  | cons c operand =>
      unfold phraseAt continueAt
      rw [phrase?, if_neg (by simpa using h)]
      rcases phrase? tighter (c :: operand) with _ | first
      · rfl
      · simp only [Option.map_some, Option.bind_some, Found.outcome, Option.bind_eq_bind]
        rcases continue? rule tighter first.value first.rest with _ | found
        · rfl
        · rfl

theorem continueAt_of_ne (h : text.head? ≠ some rule.mark) :
    continueAt rule tighter first text = some (first, text) := by
  cases text with
  | nil =>
      unfold continueAt
      rw [continue?]
      rfl
  | cons c operand =>
      unfold continueAt
      rw [continue?, if_neg (by simpa using h)]
      rfl

theorem continueAt_fromLeft (hshape : rule.shape = .fromLeft) (operand : List Char) :
    continueAt rule tighter first (rule.mark :: operand) =
      (phraseAt tighter operand).bind fun found =>
        continueAt rule tighter (rule.binary first found.1) found.2 := by
  unfold continueAt phraseAt
  rw [continue?, if_pos rfl]
  simp only [hshape]
  rcases phrase? tighter operand with _ | second
  · rfl
  · simp only [Option.map_some, Option.bind_some, Found.outcome, Option.bind_eq_bind]
    rcases continue? rule tighter (rule.binary first second.value) second.rest with _ | found
    · rfl
    · rfl

theorem continueAt_fromRight (hshape : rule.shape = .fromRight) (operand : List Char) :
    continueAt rule tighter first (rule.mark :: operand) =
      (phraseAt (rule :: tighter) operand).map fun found =>
        (rule.binary first found.1, found.2) := by
  unfold continueAt phraseAt
  rw [continue?, if_pos rfl]
  simp only [hshape]
  rcases phrase? (rule :: tighter) operand with _ | second
  · rfl
  · rfl

theorem continueAt_after (hshape : rule.shape = .after) (operand : List Char) :
    continueAt rule tighter first (rule.mark :: operand) =
      continueAt rule tighter (rule.unary first) operand := by
  unfold continueAt
  rw [continue?, if_pos rfl]
  simp only [hshape]
  rcases continue? rule tighter (rule.unary first) operand with _ | found
  · rfl
  · rfl

theorem continueAt_before (hshape : rule.shape = .before) (text : List Char) :
    continueAt rule tighter first text = some (first, text) := by
  by_cases hmark : text.head? = some rule.mark
  · obtain ⟨operand, rfl⟩ := List.head?_eq_some_iff.mp hmark
    unfold continueAt
    rw [continue?, if_pos rfl]
    simp only [hshape]
    rfl
  · exact continueAt_of_ne hmark

end Steps

theorem Phrase.text_ne_nil {current : List Rule} {text : List Char} {symbols : List Symbol}
    {value : Except EvalError Float} (h : Phrase current text symbols value) : text ≠ [] := by
  induction h with
  | number hdigits => exact hdigits.ne_nil
  | tighter _ ih => exact ih
  | _ => simp

/-- Every text shorter than `bound` in which a phrase is found begins with it. -/
def SoundBelow (bound : Nat) : Prop :=
  ∀ ⦃current : List Rule⦄ ⦃text rest : List Char⦄ ⦃value : Except EvalError Float⦄,
    text.length < bound → phraseAt current text = some (value, rest) →
      ∃ front symbols, text = front ++ rest ∧ Phrase current front symbols value

/-- Whatever continues a phrase makes it a longer one. -/
theorem exists_phrase_of_continueAt {bound : Nat} (hsound : SoundBelow bound) {rule : Rule}
    {tighter : List Rule} {before text rest : List Char} {symbols : List Symbol}
    {first value : Except EvalError Float} (hbound : text.length ≤ bound)
    (hfirst : Phrase (rule :: tighter) before symbols first)
    (hright : rule.shape = .fromRight → Phrase tighter before symbols first)
    (h : continueAt rule tighter first text = some (value, rest)) :
    ∃ front symbols, text = front ++ rest ∧
      Phrase (rule :: tighter) (before ++ front) symbols value := by
  induction hsize : text.length using Nat.strongRecOn
    generalizing before text symbols first with
  | _ size ih =>
    subst hsize
    by_cases hmark : text.head? = some rule.mark
    · obtain ⟨operand, rfl⟩ := List.head?_eq_some_iff.mp hmark
      rw [List.length_cons] at hbound
      cases hshape : rule.shape with
      | fromLeft =>
          rw [continueAt_fromLeft hshape] at h
          obtain ⟨⟨second, others⟩, hsecond, hcontinue⟩ := Option.bind_eq_some_iff.mp h
          obtain ⟨front, right, rfl, hphrase⟩ := hsound (by omega) hsecond
          rw [List.length_append] at hbound
          replace hcontinue : continueAt rule tighter (rule.binary first second) others =
            some (value, rest) := hcontinue
          obtain ⟨more, whole, rfl, hwhole⟩ := ih others.length
            (by simp only [List.length_cons, List.length_append]; omega) (by omega)
            (.fromLeft hshape hfirst hphrase) (by simp [hshape]) hcontinue rfl
          exact ⟨rule.mark :: (front ++ more), whole, by simp, by simpa using hwhole⟩
      | fromRight =>
          rw [continueAt_fromRight hshape] at h
          obtain ⟨⟨second, others⟩, hsecond, houtcome⟩ := Option.map_eq_some_iff.mp h
          cases houtcome
          obtain ⟨front, right, rfl, hphrase⟩ := hsound (by omega) hsecond
          exact ⟨rule.mark :: front, _, rfl, .fromRight hshape (hright hshape) hphrase⟩
      | after =>
          rw [continueAt_after hshape] at h
          obtain ⟨more, whole, rfl, hwhole⟩ := ih operand.length (by simp) (by omega)
            (.after hshape hfirst) (by simp [hshape]) h rfl
          exact ⟨rule.mark :: more, whole, rfl, by simpa using hwhole⟩
      | before =>
          rw [continueAt_before hshape] at h
          cases h
          exact ⟨[], symbols, rfl, by simpa using hfirst⟩
    · rw [continueAt_of_ne hmark] at h
      cases h
      exact ⟨[], symbols, rfl, by simpa using hfirst⟩

/-- A phrase that is found stands at the head of the text. -/
theorem soundBelow (bound : Nat) : SoundBelow bound := by
  induction bound with
  | zero =>
      intro current text rest value hlength
      contradiction
  | succ bound ih =>
      intro current text rest value hlength h
      rcases text with _ | ⟨c, operand⟩
      · rw [phraseAt_nil] at h
        contradiction
      rw [List.length_cons] at hlength
      induction current generalizing rest value with
      | nil =>
          by_cases hopening : c = '('
          · subst hopening
            rw [phraseAt_group] at h
            obtain ⟨⟨inside, others⟩, hinside, hclose⟩ := Option.bind_eq_some_iff.mp h
            split at hclose
            · rename_i hclosing
              obtain ⟨after, rfl⟩ := List.head?_eq_some_iff.mp hclosing
              cases hclose
              obtain ⟨front, symbols, rfl, hphrase⟩ := ih (by omega) hinside
              exact ⟨'(' :: (front ++ [')']), _, by simp, .group hphrase⟩
            · contradiction
          · by_cases hc : c.isDigit = true
            · rw [phraseAt_number hc] at h
              cases h
              refine ⟨c :: operand.takeWhile Char.isDigit, _, ?_, .number ⟨by simp, ?_⟩⟩
              · rw [List.cons_append, List.takeWhile_append_dropWhile]
              · intro digit member
                rcases List.mem_cons.mp member with rfl | later
                · exact hc
                · exact List.all_eq_true.mp List.all_takeWhile _ later
            · rw [phraseAt_eq_none hopening (by simpa using hc)] at h
              contradiction
      | cons rule tighter ihtighter =>
          by_cases hbefore : rule.shape = .before ∧ (c :: operand).head? = some rule.mark
          · obtain ⟨hshape, hmark⟩ := hbefore
            cases hmark
            rw [phraseAt_before hshape] at h
            obtain ⟨⟨inside, others⟩, hinside, houtcome⟩ := Option.map_eq_some_iff.mp h
            cases houtcome
            obtain ⟨front, symbols, rfl, hphrase⟩ := ih (by omega) hinside
            exact ⟨rule.mark :: front, _, rfl, .before hshape hphrase⟩
          · rw [phraseAt_cons hbefore] at h
            obtain ⟨⟨first, others⟩, hfirst, hcontinue⟩ := Option.bind_eq_some_iff.mp h
            obtain ⟨front, symbols, htext, hphrase⟩ := ihtighter hfirst
            have hshorter := congrArg List.length htext
            have hpositive := List.length_pos_iff.mpr hphrase.text_ne_nil
            simp only [List.length_cons, List.length_append] at hshorter
            replace hcontinue : continueAt rule tighter first others = some (value, rest) :=
              hcontinue
            obtain ⟨more, whole, rfl, hwhole⟩ := exists_phrase_of_continueAt ih (by omega)
              (.tighter hphrase) (fun _ => hphrase) hcontinue
            exact ⟨front ++ more, whole, by rw [htext, List.append_assoc], hwhole⟩

theorem exists_phrase_of_phraseAt {current : List Rule} {text rest : List Char}
    {value : Except EvalError Float} (h : phraseAt current text = some (value, rest)) :
    ∃ front symbols, text = front ++ rest ∧ Phrase current front symbols value :=
  soundBelow (text.length + 1) (Nat.lt_succ_self _) h

structure EndsPhrase (current : List Rule) (rest : List Char) : Prop where
  digits : EndsDigits rest
  marks : ∀ rule ∈ current, rule.shape ≠ .before → rest.head? ≠ some rule.mark

/-- Whether the descent finds the text of a phrase before any rest, and then
goes on with the outermost rule. -/
def Descends (current : List Rule) (text : List Char) (value : Except EvalError Float) : Prop :=
  match current with
  | [] => ∀ rest, EndsDigits rest → phraseAt [] (text ++ rest) = some (value, rest)
  | rule :: tighter =>
      ∀ rest, EndsPhrase tighter rest →
        (rule.shape = .fromRight → rest.head? ≠ some rule.mark) →
          phraseAt (rule :: tighter) (text ++ rest) = continueAt rule tighter value rest

theorem Descends.phraseAt_append {current : List Rule} {text rest : List Char}
    {value : Except EvalError Float} (h : Descends current text value)
    (hrest : EndsPhrase current rest) : phraseAt current (text ++ rest) = some (value, rest) := by
  cases current with
  | nil => exact h rest hrest.digits
  | cons rule tighter =>
      have htighter : EndsPhrase tighter rest :=
        ⟨hrest.digits, fun other member => hrest.marks other (List.mem_cons_of_mem _ member)⟩
      have hmark := hrest.marks rule List.mem_cons_self
      rw [h rest htighter fun hshape => hmark (by simp [hshape])]
      by_cases hshape : rule.shape = .before
      · exact continueAt_before hshape rest
      · exact continueAt_of_ne (hmark hshape)

/-- The mark of a rule ends the phrases of the tighter ones. -/
theorem endsPhrase_mark {rule : Rule} {tighter : List Rule}
    (hsuffix : rule :: tighter <:+ rules) (rest : List Char) :
    EndsPhrase tighter (rule.mark :: rest) where
  digits := endsDigits_mark (mem_rules_of_suffix hsuffix) rest
  marks other member hshape hmark := by
    have hpairwise := List.pairwise_cons.mp (pairwise_marks.sublist hsuffix.sublist)
    exact hshape (hpairwise.1 other member (Option.some.inj hmark)).2.2

namespace Phrase

variable {rule : Rule} {current tighter : List Rule} {text : List Char} {symbols : List Symbol}
variable {value : Except EvalError Float}

/-- A phrase begins with a digit, a bracket or the mark of a rule before its
operand. -/
theorem exists_head (h : Phrase current text symbols value) :
    ∃ c, text.head? = some c ∧ (c.isDigit = true ∨ c = '(' ∨
      ∃ rule ∈ current, rule.shape = .before ∧ c = rule.mark) := by
  induction h with
  | @number digits hdigits =>
      obtain ⟨c, rest, rfl⟩ := List.exists_cons_of_ne_nil hdigits.ne_nil
      exact ⟨c, rfl, Or.inl (hdigits.isDigit c List.mem_cons_self)⟩
  | group => exact ⟨'(', rfl, Or.inr (Or.inl rfl)⟩
  | tighter _ ih =>
      obtain ⟨c, hhead, hc⟩ := ih
      refine ⟨c, hhead, hc.imp_right (Or.imp_right ?_)⟩
      rintro ⟨other, member, hother⟩
      exact ⟨other, List.mem_cons_of_mem _ member, hother⟩
  | fromLeft _ _ _ ih _ | after _ _ ih =>
      obtain ⟨c, hhead, hc⟩ := ih
      exact ⟨c, by rw [List.head?_append, hhead, Option.some_or], hc⟩
  | fromRight _ _ _ ih _ =>
      obtain ⟨c, hhead, hc⟩ := ih
      refine ⟨c, by rw [List.head?_append, hhead, Option.some_or], hc.imp_right (Or.imp_right ?_)⟩
      rintro ⟨other, member, hother⟩
      exact ⟨other, List.mem_cons_of_mem _ member, hother⟩
  | @before rule _ _ _ _ hshape _ _ =>
      exact ⟨rule.mark, rfl, Or.inr (Or.inr ⟨rule, List.mem_cons_self, hshape, rfl⟩)⟩

/-- A phrase of the rules below one that stands before its operand does not
begin with the mark of that rule. -/
theorem head?_ne_mark (h : Phrase tighter text symbols value)
    (hsuffix : rule :: tighter <:+ rules) (hshape : rule.shape = .before) :
    text.head? ≠ some rule.mark := by
  have hrule := mem_rules_of_suffix hsuffix
  obtain ⟨hdigit, hopening, -⟩ := mark_of_mem_rules hrule
  obtain ⟨c, hhead, hc⟩ := h.exists_head
  rw [hhead, ne_eq, Option.some.injEq]
  rintro rfl
  rcases hc with isDigit | isOpening | ⟨other, member, -, hmark⟩
  · rw [hdigit] at isDigit
    contradiction
  · exact hopening isOpening
  · have hpairwise := List.pairwise_cons.mp (pairwise_marks.sublist hsuffix.sublist)
    exact (hpairwise.1 other member hmark).2.1 hshape

theorem descends (h : Phrase current text symbols value) (hsuffix : current <:+ rules) :
    Descends current text value := by
  induction h with
  | @number digits hdigits =>
      intro rest hrest
      obtain ⟨c, others, rfl⟩ := List.exists_cons_of_ne_nil hdigits.ne_nil
      have hothers : ∀ digit ∈ others, digit.isDigit = true := fun digit member =>
        hdigits.isDigit digit (List.mem_cons_of_mem c member)
      obtain ⟨htake, hdrop⟩ := span_digits hothers hrest
      rw [List.cons_append, phraseAt_number (hdigits.isDigit c List.mem_cons_self), htake, hdrop]
  | @group text symbols value hinside ih =>
      intro rest hrest
      have hclosing : EndsPhrase rules (')' :: rest) := by
        refine ⟨fun c hc => ?_, fun rule member _ hmark => ?_⟩
        · cases hc
          rfl
        · exact (mark_of_mem_rules member).2.2 (Option.some.inj hmark).symm
      rw [List.cons_append, List.append_assoc, List.singleton_append, phraseAt_group,
        (ih (List.suffix_refl rules)).phraseAt_append hclosing]
      rfl
  | @tighter rule tighter text _ value h ih =>
      intro rest hrest _
      have hbefore : ¬ (rule.shape = .before ∧ (text ++ rest).head? = some rule.mark) := by
        rintro ⟨hshape, hhead⟩
        obtain ⟨c, hc, -⟩ := h.exists_head
        rw [List.head?_append, hc, Option.some_or, ← hc] at hhead
        exact h.head?_ne_mark hsuffix hshape hhead
      rw [phraseAt_cons hbefore, (ih (suffix_of_cons hsuffix)).phraseAt_append hrest,
        Option.bind_some]
  | @fromLeft rule tighter leftText rightText _ _ first second hshape _ _ ihleft ihright =>
      intro rest hrest _
      have hmark := endsPhrase_mark hsuffix (rightText ++ rest)
      have hright := (ihright (suffix_of_cons hsuffix)).phraseAt_append hrest
      rw [List.append_assoc, List.cons_append,
        ihleft hsuffix (rule.mark :: (rightText ++ rest)) hmark (by simp [hshape]),
        continueAt_fromLeft hshape, hright, Option.bind_some]
  | @fromRight rule tighter leftText rightText _ _ first second hshape hleft _ ihleft ihright =>
      intro rest hrest hnext
      have hmark := endsPhrase_mark hsuffix (rightText ++ rest)
      have hleftmost := (ihleft (suffix_of_cons hsuffix)).phraseAt_append hmark
      rw [List.append_assoc, List.cons_append, phraseAt_cons (by simp [hshape]), hleftmost,
        Option.bind_some, continueAt_fromRight hshape, ihright hsuffix rest hrest hnext,
        continueAt_of_ne (hnext hshape), continueAt_of_ne (hnext hshape), Option.map_some]
  | @before rule tighter text _ value hshape _ ih =>
      intro rest hrest _
      rw [List.cons_append, phraseAt_before hshape, ih hsuffix rest hrest (by simp [hshape]),
        continueAt_before hshape, continueAt_before hshape, Option.map_some]
  | @after rule tighter text _ value hshape _ ih =>
      intro rest hrest _
      have hmark := endsPhrase_mark hsuffix rest
      rw [List.append_assoc, List.singleton_append,
        ih hsuffix (rule.mark :: rest) hmark (by simp [hshape]), continueAt_after hshape]

end Phrase

/-- The descent gives a value exactly to the phrases, and to each its own. -/
theorem descend_eq_some_iff {text : List Char} {value : Except EvalError Float} :
    descend text = some value ↔ ∃ symbols, Phrase rules text symbols value := by
  rw [descend_eq_some_iff_phraseAt]
  constructor
  · intro h
    obtain ⟨front, symbols, rfl, hphrase⟩ := exists_phrase_of_phraseAt h
    exact ⟨symbols, by rwa [List.append_nil]⟩
  · rintro ⟨symbols, hphrase⟩
    have hend : EndsPhrase rules [] := ⟨by simp [EndsDigits], by simp⟩
    have hfound := (hphrase.descends (List.suffix_refl rules)).phraseAt_append hend
    rwa [List.append_nil] at hfound

end Calculator
