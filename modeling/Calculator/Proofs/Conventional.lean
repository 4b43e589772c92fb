import Calculator.Proofs.Chain
import Calculator.Proofs.Exactness

/-!
Whole numbers under the conventional reading of `+`, `-` and `*`, in which sums
and differences are taken from the left in the order in which they are written.
A calculation groups them in another way, since it cuts a sum around its
additions before its subtractions. Within the bound up to which whole numbers
are exact this makes no difference.
-/

namespace Calculator

def numeralValue (digits : List Char) : Nat :=
  digits.foldl (fun value digit => 10 * value + (digit.toNat - '0'.toNat)) 0

inductive Formula where
  | numeral (digits : List Char)
  | negate (operand : Formula)
  | add (left right : Formula)
  | subtract (left right : Formula)
  | multiply (left right : Formula)

namespace Formula

def value : Formula → Int
  | numeral digits => numeralValue digits
  | negate operand => -operand.value
  | add left right => left.value + right.value
  | subtract left right => left.value - right.value
  | multiply left right => left.value * right.value

/-- The value if every minus sign is read as a plus sign. -/
def magnitude : Formula → Nat
  | numeral digits => numeralValue digits
  | negate operand => operand.magnitude
  | add left right | subtract left right => left.magnitude + right.magnitude
  | multiply left right => left.magnitude * right.magnitude

/-- The expression itself and all that it is made of, literals included. -/
def subformulas : Formula → List Formula
  | numeral digits => [numeral digits]
  | negate operand => negate operand :: operand.subformulas
  | add left right => add left right :: (left.subformulas ++ right.subformulas)
  | subtract left right => subtract left right :: (left.subformulas ++ right.subformulas)
  | multiply left right => multiply left right :: (left.subformulas ++ right.subformulas)

def Within (bound : Nat) (formula : Formula) : Prop :=
  ∀ part ∈ formula.subformulas, part.magnitude ≤ bound

instance (bound : Nat) (formula : Formula) : Decidable (formula.Within bound) :=
  inferInstanceAs (Decidable (∀ part ∈ formula.subformulas, part.magnitude ≤ bound))

theorem natAbs_value_le (formula : Formula) : formula.value.natAbs ≤ formula.magnitude := by
  induction formula with
  | numeral digits => exact le_rfl
  | negate operand ih => rwa [value, Int.natAbs_neg]
  | add left right ihleft ihright =>
      exact (Int.natAbs_add_le _ _).trans (Nat.add_le_add ihleft ihright)
  | subtract left right ihleft ihright =>
      exact (Int.natAbs_sub_le _ _).trans (Nat.add_le_add ihleft ihright)
  | multiply left right ihleft ihright =>
      rw [value, Int.natAbs_mul]
      exact Nat.mul_le_mul ihleft ihright

variable {bound : Nat} {formula left right : Formula}

theorem Within.magnitude_le (h : formula.Within bound) : formula.magnitude ≤ bound :=
  h formula (by cases formula <;> exact List.mem_cons_self)

theorem Within.of_negate (h : (negate formula).Within bound) : formula.Within bound :=
  fun part member => h part (List.mem_cons_of_mem _ member)

/-- Both operands of an expression within the bound are within it. -/
theorem Within.operands (h : formula.Within bound)
    (hparts : formula.subformulas = formula :: (left.subformulas ++ right.subformulas)) :
    left.Within bound ∧ right.Within bound := by
  rw [Within, hparts] at h
  exact List.forall_mem_append.mp (List.forall_mem_cons.mp h).2

end Formula

/-- The kinds of expressions in the conventional grammar, the loosest one first. -/
inductive Layer where
  | sum
  | signed
  | product
  | atom

/-- The conventional reading of a text. Written out the grammar is

  Sum ::= Sum '+' Signed | Sum '-' Signed | Signed
  Signed ::= '-' Signed | Product
  Product ::= Product '*' Atom | Atom
  Atom ::= digit+ | '(' Sum ')' -/
inductive Conventional : Layer → List Char → Formula → Prop where
  | numeral {digits : List Char} (hdigits : IsNumeral digits) :
      Conventional .atom digits (.numeral digits)
  | bracketed {text : List Char} {formula : Formula} (h : Conventional .sum text formula) :
      Conventional .atom ('(' :: (text ++ [')'])) formula
  | product {text : List Char} {formula : Formula} (h : Conventional .atom text formula) :
      Conventional .product text formula
  | multiply {first second : List Char} {left right : Formula}
      (hleft : Conventional .product first left) (hright : Conventional .atom second right) :
      Conventional .product (first ++ '*' :: second) (.multiply left right)
  | signed {text : List Char} {formula : Formula} (h : Conventional .product text formula) :
      Conventional .signed text formula
  | negate {text : List Char} {formula : Formula} (h : Conventional .signed text formula) :
      Conventional .signed ('-' :: text) (.negate formula)
  | sum {text : List Char} {formula : Formula} (h : Conventional .signed text formula) :
      Conventional .sum text formula
  | add {first second : List Char} {left right : Formula}
      (hleft : Conventional .sum first left) (hright : Conventional .signed second right) :
      Conventional .sum (first ++ '+' :: second) (.add left right)
  | subtract {first second : List Char} {left right : Formula}
      (hleft : Conventional .sum first left) (hright : Conventional .signed second right) :
      Conventional .sum (first ++ '-' :: second) (.subtract left right)

theorem sumPair : LeftPair ⟨'+', .fromLeft, .addition⟩ ⟨'-', .fromLeft, .subtraction⟩
    (rules.drop 2) :=
  ⟨List.suffix_refl rules, rfl, rfl⟩

/-- The total and the current segment of a sum whose conventional reading is a
formula: together they have its value, and both are within its magnitude. -/
inductive Totals (formula : Formula) : Option Float → Float → Prop where
  | first {current : Float} (hcurrent : Represents current formula.value) :
      Totals formula none current
  | next {total current : Float} {a b : Int} (htotal : Represents total a)
      (hcurrent : Represents current b) (hvalue : a + b = formula.value)
      (hmagnitude : a.natAbs + b.natAbs ≤ formula.magnitude) :
      Totals formula (some total) current

namespace Totals

variable {formula operand : Formula} {total : Option Float} {current value : Float}

theorem represents (h : Totals formula total current)
    (hvalue : Operator.addition.addTo total current = .ok value)
    (hbound : formula.magnitude ≤ exactBound) : Represents value formula.value := by
  cases h with
  | first hcurrent =>
      cases hvalue
      exact hcurrent
  | @next total current a b htotal hcurrent hsum hmagnitude =>
      cases hvalue
      rw [← hsum]
      exact htotal.add hcurrent (by omega)

/-- After an addition the sum so far is the total, and the operand is current. -/
theorem add (h : Totals formula total current)
    (hvalue : Operator.addition.addTo total current = .ok value)
    (hbound : formula.magnitude ≤ exactBound) {x : Float} (hx : Represents x operand.value) :
    Totals (.add formula operand) (some value) x := by
  refine .next (h.represents hvalue hbound) hx rfl ?_
  exact Nat.add_le_add formula.natAbs_value_le operand.natAbs_value_le

/-- A subtraction only changes the current segment, and it is exact. -/
theorem subtract (h : Totals formula total current) {x : Float}
    (hx : Represents x operand.value)
    (hbound : (Formula.subtract formula operand).magnitude ≤ exactBound) :
    Totals (.subtract formula operand) total (current - x) := by
  have hformula := formula.natAbs_value_le
  have hoperand := operand.natAbs_value_le
  rw [Formula.magnitude] at hbound
  cases h with
  | first hcurrent => exact .first (hcurrent.sub hx (by omega))
  | @next total current a b htotal hcurrent hsum hmagnitude =>
      refine .next htotal (hcurrent.sub hx (by omega)) ?_ ?_
      · rw [Formula.value, ← hsum]
        omega
      · rw [Formula.magnitude]
        omega

end Totals

/-- Whether a text is calculated to the value of its conventional reading. -/
def Exact : Layer → List Char → Formula → Prop
  | .sum, text, formula => ∃ total current,
      Segments ⟨'+', .fromLeft, .addition⟩ ⟨'-', .fromLeft, .subtraction⟩ (rules.drop 2)
        total current text ∧ Totals formula total current
  | .signed, text, formula =>
      ∃ symbols x, Phrase (rules.drop 2) text symbols (.ok x) ∧ Represents x formula.value
  | .product, text, formula =>
      ∃ symbols x, Phrase (rules.drop 3) text symbols (.ok x) ∧ Represents x formula.value
  | .atom, text, formula =>
      ∃ symbols x, Phrase [] text symbols (.ok x) ∧ Represents x formula.value

/-- A sum that is exact so far is a phrase with its value. -/
theorem Exact.exists_phrase {text : List Char} {formula : Formula}
    (h : Exact .sum text formula) (hbound : formula.magnitude ≤ exactBound) :
    ∃ symbols x, Phrase rules text symbols (.ok x) ∧ Represents x formula.value := by
  obtain ⟨total, current, hsegments, htotals⟩ := h
  obtain ⟨x, symbols, hx, hphrase⟩ := hsegments.exists_phrase sumPair
  exact ⟨symbols, x, hphrase, htotals.represents hx hbound⟩

/-- Every text with a conventional reading within the bound is calculated
exactly. -/
theorem Conventional.exact {layer : Layer} {text : List Char} {formula : Formula}
    (h : Conventional layer text formula) (hwithin : formula.Within exactBound) :
    Exact layer text formula := by
  induction h with
  | @numeral digits hdigits =>
      exact ⟨_, _, .number hdigits, .ofNat hwithin.magnitude_le⟩
  | bracketed h ih =>
      obtain ⟨symbols, x, hphrase, hx⟩ := (ih hwithin).exists_phrase hwithin.magnitude_le
      exact ⟨_, x, .group hphrase, hx⟩
  | product h ih =>
      obtain ⟨symbols, x, hphrase, hx⟩ := ih hwithin
      exact ⟨symbols, x, hphrase.of_suffix List.nil_suffix, hx⟩
  | @multiply first second left right hleft hright ihleft ihright =>
      obtain ⟨hwithinLeft, hwithinRight⟩ := hwithin.operands rfl
      obtain ⟨leftSymbols, x, hx, hxvalue⟩ := ihleft hwithinLeft
      obtain ⟨rightSymbols, y, hy, hyvalue⟩ := ihright hwithinRight
      have hbound : (left.value * right.value).natAbs ≤ exactBound :=
        (Formula.natAbs_value_le (.multiply left right)).trans hwithin.magnitude_le
      have hphrase := Phrase.fromLeft rfl hx (hy.of_suffix List.nil_suffix)
      exact ⟨_, x * y, hphrase, hxvalue.mul hyvalue hbound⟩
  | signed h ih =>
      obtain ⟨symbols, x, hphrase, hx⟩ := ih hwithin
      exact ⟨symbols, x, .tighter hphrase, hx⟩
  | negate h ih =>
      obtain ⟨symbols, x, hphrase, hx⟩ := ih hwithin.of_negate
      exact ⟨_, -x, .before rfl hphrase, hx.neg⟩
  | sum h ih =>
      obtain ⟨symbols, x, hphrase, hx⟩ := ih hwithin
      exact ⟨none, x, .first (.tighter hphrase), .first hx⟩
  | add hleft hright ihleft ihright =>
      obtain ⟨hwithinLeft, hwithinRight⟩ := hwithin.operands rfl
      obtain ⟨total, current, hsegments, htotals⟩ := ihleft hwithinLeft
      obtain ⟨symbols, x, hphrase, hx⟩ := ihright hwithinRight
      -- The whole sum so far becomes the total, although the reading only adds to it.
      obtain ⟨value, others, hvalue, hwhole⟩ := hsegments.exists_phrase sumPair
      exact ⟨some value, x, .next hwhole (.tighter hphrase),
        htotals.add hvalue hwithinLeft.magnitude_le hx⟩
  | subtract hleft hright ihleft ihright =>
      obtain ⟨hwithinLeft, hwithinRight⟩ := hwithin.operands rfl
      obtain ⟨total, current, hsegments, htotals⟩ := ihleft hwithinLeft
      obtain ⟨symbols, x, hphrase, hx⟩ := ihright hwithinRight
      obtain ⟨value, hvalue, hlonger⟩ := hsegments.extend sumPair hphrase
      cases hvalue
      exact ⟨total, _, hlonger, htotals.subtract hx hwithin.magnitude_le⟩

def inIntegerAlphabet (c : Char) : Bool :=
  c.isDigit || ['+', '-', '*', '(', ')'].contains c

/-- What a phrase of so many rules is in the conventional grammar. The operands
of an addition are differences, and such an operand is read on behind any sum. -/
def Readable (count : Nat) (text : List Char) : Prop :=
  match count with
  | 7 => ∃ formula, Conventional .sum text formula
  | 6 => (∃ formula, Conventional .sum text formula) ∧
      ∀ before left, Conventional .sum before left →
        ∃ formula, Conventional .sum (before ++ '+' :: text) formula
  | 5 => ∃ formula, Conventional .signed text formula
  | 4 => ∃ formula, Conventional .product text formula
  | _ => ∃ formula, Conventional .atom text formula

/-- The rules of whole numbers, with the number of tighter rules. -/
theorem integerRule_cases {rule : Rule} {tighter : List Rule}
    (hsuffix : rule :: tighter <:+ rules) (hmark : inIntegerAlphabet rule.mark = true) :
    (rule.mark = '+' ∧ rule.shape = .fromLeft ∧ tighter.length = 6) ∨
      (rule.mark = '-' ∧ rule.shape = .fromLeft ∧ tighter.length = 5) ∨
      (rule.mark = '-' ∧ rule.shape = .before ∧ tighter.length = 4) ∨
      (rule.mark = '*' ∧ rule.shape = .fromLeft ∧ tighter.length = 3) := by
  have member : rule :: tighter ∈ rules.tails := (List.mem_tails _ _).mpr hsuffix
  have hall : ∀ current ∈ rules.tails, ∀ first ∈ current.head?,
      inIntegerAlphabet first.mark = true →
      (first.mark = '+' ∧ first.shape = .fromLeft ∧ current.tail.length = 6) ∨
        (first.mark = '-' ∧ first.shape = .fromLeft ∧ current.tail.length = 5) ∨
        (first.mark = '-' ∧ first.shape = .before ∧ current.tail.length = 4) ∨
        (first.mark = '*' ∧ first.shape = .fromLeft ∧ current.tail.length = 3) := by
    decide
  exact hall _ member rule rfl hmark

theorem Readable.succ {count : Nat} {text : List Char} (h : Readable count text)
    (hcount : count < 7) : Readable (count + 1) text := by
  match count, hcount, h with
  | 0, _, h | 1, _, h | 2, _, h => exact h
  | 3, _, ⟨formula, h⟩ => exact ⟨formula, .product h⟩
  | 4, _, ⟨formula, h⟩ => exact ⟨formula, .signed h⟩
  | 5, _, ⟨formula, h⟩ =>
      exact ⟨⟨formula, .sum h⟩, fun before left hbefore => ⟨_, .add hbefore h⟩⟩
  | 6, _, h => exact h.1

theorem Phrase.readable {current : List Rule} {text : List Char} {symbols : List Symbol}
    {value : Except EvalError Float} (h : Phrase current text symbols value)
    (hsuffix : current <:+ rules) (hall : ∀ c ∈ text, inIntegerAlphabet c = true) :
    Readable current.length text := by
  induction h with
  | number hdigits => exact ⟨_, .numeral hdigits⟩
  | @group text symbols value _ ih =>
      obtain ⟨formula, hinside⟩ := ih (List.suffix_refl rules) fun c member =>
        hall c (List.mem_cons_of_mem _ (List.mem_append_left _ member))
      exact ⟨formula, .bracketed hinside⟩
  | @tighter rule tighter text _ _ _ ih =>
      exact (ih (suffix_of_cons hsuffix) hall).succ (Nat.lt_of_succ_le hsuffix.length_le)
  | @fromLeft rule tighter leftText rightText _ _ _ _ hshape _ _ ihleft ihright =>
      obtain ⟨hleft, hmark, hright⟩ : (∀ c ∈ leftText, inIntegerAlphabet c = true) ∧
          inIntegerAlphabet rule.mark = true ∧ ∀ c ∈ rightText, inIntegerAlphabet c = true := by
        simpa [or_imp, forall_and] using hall
      have hfirst := ihleft hsuffix hleft
      have hsecond := ihright (suffix_of_cons hsuffix) hright
      rcases integerRule_cases hsuffix hmark with ⟨hplus, -, hlength⟩ | ⟨hminus, -, hlength⟩ |
        ⟨-, hbefore, -⟩ | ⟨htimes, -, hlength⟩
      · rw [List.length_cons, hlength] at hfirst ⊢
        rw [hlength] at hsecond
        obtain ⟨left, hleftSum⟩ := hfirst
        rw [hplus]
        exact hsecond.2 leftText left hleftSum
      -- A difference is read on its own and behind a sum, where its first operand
      -- is added and the others are subtracted.
      · rw [List.length_cons, hlength] at hfirst ⊢
        rw [hlength] at hsecond
        obtain ⟨⟨left, hleftSum⟩, happend⟩ := hfirst
        obtain ⟨right, hrightSigned⟩ := hsecond
        rw [hminus]
        refine ⟨⟨_, .subtract hleftSum hrightSigned⟩, fun before total htotal => ?_⟩
        obtain ⟨whole, hwhole⟩ := happend before total htotal
        rw [← List.cons_append, ← List.append_assoc]
        exact ⟨_, .subtract hwhole hrightSigned⟩
      · rw [hshape] at hbefore
        contradiction
      · rw [List.length_cons, hlength] at hfirst ⊢
        rw [hlength] at hsecond
        obtain ⟨left, hleftProduct⟩ := hfirst
        obtain ⟨right, hrightAtom⟩ := hsecond
        rw [htimes]
        exact ⟨_, .multiply hleftProduct hrightAtom⟩
  | @fromRight rule tighter leftText rightText _ _ _ _ hshape =>
      have hmark : inIntegerAlphabet rule.mark = true :=
        hall rule.mark (List.mem_append_right _ List.mem_cons_self)
      rcases integerRule_cases hsuffix hmark with h | h | h | h <;> simp [hshape] at h
  | @before rule tighter text _ _ hshape _ ih =>
      have hmark : inIntegerAlphabet rule.mark = true := hall rule.mark List.mem_cons_self
      have hoperand := ih hsuffix fun c member => hall c (List.mem_cons_of_mem _ member)
      rcases integerRule_cases hsuffix hmark with h | h | ⟨hminus, -, hlength⟩ | h
      · simp [hshape] at h
      · simp [hshape] at h
      · rw [List.length_cons, hlength] at hoperand ⊢
        obtain ⟨formula, hsigned⟩ := hoperand
        rw [hminus]
        exact ⟨_, .negate hsigned⟩
      · simp [hshape] at h
  | @after rule tighter text _ _ hshape =>
      have hmark : inIntegerAlphabet rule.mark = true :=
        hall rule.mark (List.mem_append_right _ (List.mem_singleton_self _))
      rcases integerRule_cases hsuffix hmark with h | h | h | h <;> simp [hshape] at h

/-- A text of the standard grammar that is made of digits, `+`, `-`, `*` and
brackets has a conventional reading, and as long as no part of that reading is
too great its calculation succeeds with exactly the value of the reading. -/
theorem calculate_exact {source : String} {symbols : List Symbol}
    {value : Except EvalError Float}
    (h : Phrase rules (withoutBlanks source).toList symbols value)
    (hall : ∀ c ∈ (withoutBlanks source).toList, inIntegerAlphabet c = true) :
    (∃ formula, Conventional .sum (withoutBlanks source).toList formula) ∧
      ∀ formula, Conventional .sum (withoutBlanks source).toList formula →
        formula.Within exactBound →
          ∃ x, (calculate source).result = .ok x ∧
            (Binary64.ofFloat x).toInt? = some formula.value := by
  refine ⟨h.readable (List.suffix_refl rules) hall, fun formula hreading hwithin => ?_⟩
  obtain ⟨found, x, hphrase, hx⟩ :=
    (hreading.exact hwithin).exists_phrase hwithin.magnitude_le
  exact ⟨x, hphrase.result_calculate, hx.toInt?_eq⟩

/-- The value of `-2*(3-5)+1-6`, which is calculated as `-2*(3-5)+(1-6)`. -/
theorem calculate_exact_regrouped :
    let source := String.ofList ['-', '2', '*', '(', '3', '-', '5', ')', '+', '1', '-', '6']
    (∃ symbols value, Phrase rules (withoutBlanks source).toList symbols value) ∧
      (∀ c ∈ (withoutBlanks source).toList, inIntegerAlphabet c = true) ∧
      ∃ x, (calculate source).result = .ok x ∧ (Binary64.ofFloat x).toInt? = some (-1) := by
  intro source
  have htext : (withoutBlanks source).toList =
      ('-' :: (['2'] ++ '*' :: '(' :: (['3'] ++ '-' :: ['5'] ++ [')'])) ++ '+' :: ['1']) ++
        '-' :: ['6'] := by
    rw [toList_withoutBlanks, String.toList_ofList]
    decide
  have hdigit : ∀ c ∈ ['1', '2', '3', '5', '6'], Conventional .product [c] (.numeral [c]) := by
    intro c member
    have hc : ∀ c ∈ ['1', '2', '3', '5', '6'], [c].all Char.isDigit = true := by
      simp
    exact .product (.numeral (IsNumeral.of_all (List.cons_ne_nil c []) (hc c member)))
  have hsigned := fun c member => Conventional.signed (hdigit c member)
  have hinside := Conventional.subtract (.sum (hsigned '3' (by decide))) (hsigned '5' (by decide))
  have hproduct := Conventional.multiply (hdigit '2' (by decide)) (.bracketed hinside)
  have hreading := Conventional.subtract
    (.add (.sum (.negate (.signed hproduct))) (hsigned '1' (by decide))) (hsigned '6' (by decide))
  rw [← htext] at hreading
  have hwithin : (Formula.subtract (.add (.negate (.multiply (.numeral ['2'])
      (.subtract (.numeral ['3']) (.numeral ['5'])))) (.numeral ['1'])) (.numeral ['6'])).Within
        exactBound := by
    decide +kernel
  obtain ⟨symbols, value, hphrase, -⟩ :=
    (hreading.exact hwithin).exists_phrase hwithin.magnitude_le
  have hall : ∀ c ∈ (withoutBlanks source).toList, inIntegerAlphabet c = true := by
    rw [htext]
    simp [inIntegerAlphabet]
  exact ⟨⟨symbols, _, hphrase⟩, hall, (calculate_exact hphrase hall).2 _ hreading hwithin⟩

end Calculator
