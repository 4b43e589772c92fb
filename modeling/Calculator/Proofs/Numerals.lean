import Calculator.Proofs.Conventional

/-!
How whole numbers are read and written. A numeral without superfluous zeros is
the decimal notation of its value, and below `2 ^ 53`, where whole numbers are
exact, that is also how its value is written.
-/

namespace Calculator

theorem digitsValue_eq_ofNat (digits : List Char) :
    digitsValue digits = Float.ofNat (numeralValue digits) := rfl

theorem numeralValue_toDigits (n : Nat) : numeralValue (Nat.toDigits 10 n) = n :=
  Nat.ofDigitChars_toDigits (by decide) (by decide)

theorem isNumeral_toDigits (n : Nat) : IsNumeral (Nat.toDigits 10 n) where
  ne_nil := Nat.toDigits_ne_nil
  isDigit _ member := Nat.isDigit_of_mem_toDigits (by decide) (by decide) member

/-- A digit is the notation of its value. -/
theorem toDigits_of_isDigit {c : Char} (hc : c.isDigit = true) :
    c.toNat - '0'.toNat < 10 ∧ Nat.toDigits 10 (c.toNat - '0'.toNat) = [c] := by
  obtain ⟨hlow, hhigh⟩ : 48 ≤ c.toNat ∧ c.toNat ≤ 57 := Char.isDigit_iff_toNat.mp hc
  have hzero : '0'.toNat = 48 := rfl
  have hvalue : c.toNat - '0'.toNat < 10 := by omega
  refine ⟨hvalue, ?_⟩
  rw [Nat.toDigits_of_lt_base hvalue, List.singleton_inj, ← Char.toNat_inj,
    Nat.toNat_digitChar_of_lt_ten hvalue]
  omega

/-- Digits behind the notation of a positive number continue it. -/
theorem toDigits_append {n : Nat} {digits : List Char} (hn : 0 < n)
    (hdigits : ∀ c ∈ digits, c.isDigit = true) :
    Nat.toDigits 10 n ++ digits = Nat.toDigits 10 (Nat.ofDigitChars 10 digits n) := by
  induction digits generalizing n with
  | nil => rw [List.append_nil, Nat.ofDigitChars_nil]
  | cons c digits ih =>
      obtain ⟨hc, hrest⟩ := List.forall_mem_cons.mp hdigits
      obtain ⟨hvalue, hdigit⟩ := toDigits_of_isDigit hc
      have hnext : Nat.toDigits 10 n ++ [c] = Nat.toDigits 10 (10 * n + (c.toNat - '0'.toNat)) := by
        rw [← hdigit, Nat.toDigits_append_toDigits (by decide) hn hvalue]
      rw [Nat.ofDigitChars_cons, ← ih (by omega) hrest, ← hnext, List.append_assoc]
      rfl

/-- A numeral is the notation of its value unless it starts with a superfluous
zero. -/
theorem toDigits_numeralValue {c : Char} {digits : List Char} (h : IsNumeral (c :: digits))
    (hzero : c = '0' → digits = []) :
    Nat.toDigits 10 (numeralValue (c :: digits)) = c :: digits := by
  obtain ⟨hc, hothers⟩ := List.forall_mem_cons.mp h.isDigit
  obtain ⟨-, hdigit⟩ := toDigits_of_isDigit hc
  have hvalue : numeralValue (c :: digits) = Nat.ofDigitChars 10 digits (c.toNat - '0'.toNat) := by
    change Nat.ofDigitChars 10 digits (10 * 0 + (c.toNat - '0'.toNat)) = _
    rw [Nat.mul_zero, Nat.zero_add]
  rw [hvalue]
  by_cases hsingle : digits = []
  · rw [hsingle, Nat.ofDigitChars_nil, hdigit]
  · have hpos : 0 < c.toNat - '0'.toNat := by
      have hlow : 48 ≤ c.toNat := (Char.isDigit_iff_toNat.mp hc).1
      have hne : c.toNat ≠ '0'.toNat := fun hsame => hsingle (hzero (Char.toNat_inj.mp hsame))
      change c.toNat ≠ 48 at hne
      change 0 < c.toNat - 48
      omega
    rw [← toDigits_append hpos hothers, hdigit, List.singleton_append]

/-- The text without the zeros that its numbers need not start with. A zero is
left out if a digit follows it and no digit is kept before it in the same run. -/
def trimZeros (kept : Bool) : List Char → List Char
  | [] => []
  | c :: rest =>
      if c = '0' ∧ kept = false ∧ startsWithDigit rest = true then trimZeros false rest
      else c :: trimZeros c.isDigit rest

def withoutLeadingZeros (source : String) : String :=
  String.ofList (trimZeros false source.toList)

theorem toList_withoutLeadingZeros (source : String) :
    (withoutLeadingZeros source).toList = trimZeros false source.toList := by
  simp [withoutLeadingZeros]

theorem trimZeros_sublist (kept : Bool) (text : List Char) :
    (trimZeros kept text).Sublist text := by
  induction text generalizing kept with
  | nil => exact .slnil
  | cons c rest ih =>
      rw [trimZeros]
      split
      · exact (ih false).cons c
      · exact (ih c.isDigit).cons_cons c

section TrimZeros

variable {c : Char} {digits rest : List Char}

theorem trimZeros_of_not_isDigit (hc : c.isDigit = false) (kept : Bool) (rest : List Char) :
    trimZeros kept (c :: rest) = c :: trimZeros false rest := by
  have hzero : c ≠ '0' := by
    rintro rfl
    contradiction
  rw [trimZeros, if_neg fun h => hzero h.1, hc]

/-- Behind a run of digits it makes no difference whether one of them was kept. -/
theorem trimZeros_of_endsDigits (h : EndsDigits rest) (kept : Bool) :
    trimZeros kept rest = trimZeros false rest := by
  cases rest with
  | nil => rfl
  | cons c rest => rw [trimZeros_of_not_isDigit (h c rfl), trimZeros_of_not_isDigit (h c rfl)]

theorem endsDigits_trimZeros (h : EndsDigits rest) : EndsDigits (trimZeros false rest) := by
  cases rest with
  | nil => exact h
  | cons c rest =>
      rw [trimZeros_of_not_isDigit (h c rfl)]
      exact h

/-- Behind a digit that is kept the others of its run are kept as well. -/
theorem trimZeros_true_append (hdigits : ∀ c ∈ digits, c.isDigit = true)
    (hrest : EndsDigits rest) :
    trimZeros true (digits ++ rest) = digits ++ trimZeros false rest := by
  induction digits with
  | nil => exact trimZeros_of_endsDigits hrest true
  | cons c digits ih =>
      obtain ⟨hc, hothers⟩ := List.forall_mem_cons.mp hdigits
      rw [List.cons_append, trimZeros, if_neg (by simp), hc, ih hothers, List.cons_append]

/-- What is left of a numeral is the notation of its value. -/
theorem trimZeros_append (hdigits : IsNumeral digits) (hrest : EndsDigits rest) :
    trimZeros false (digits ++ rest) =
      Nat.toDigits 10 (numeralValue digits) ++ trimZeros false rest := by
  induction digits with
  | nil => exact absurd rfl hdigits.ne_nil
  | cons c digits ih =>
      obtain ⟨hc, hothers⟩ := List.forall_mem_cons.mp hdigits.isDigit
      rw [List.cons_append, trimZeros]
      by_cases hdrop : c = '0' ∧ digits ≠ []
      · obtain ⟨rfl, hne⟩ := hdrop
        have hmore : IsNumeral digits := ⟨hne, hothers⟩
        rw [if_pos ⟨rfl, rfl, hmore.startsWithDigit_append rest⟩, ih hmore]
        rfl
      · have hlast : c = '0' → digits = [] := fun hzero =>
          by_contra fun hne => hdrop ⟨hzero, hne⟩
        have hkeep : ¬ (c = '0' ∧ false = false ∧ startsWithDigit (digits ++ rest) = true) := by
          rintro ⟨hzero, -, hstart⟩
          rw [hlast hzero, List.nil_append, hrest.startsWithDigit_eq_false] at hstart
          contradiction
        rw [if_neg hkeep, hc, trimZeros_true_append hothers hrest, ← List.cons_append,
          toDigits_numeralValue hdigits hlast]

end TrimZeros

theorem shortest_of_whole? {m : Magnitude} {n : Nat} (h : m.whole? = some n) (hn : n < 2 ^ 53) :
    m.shortest = ⟨n, 0⟩ := by
  have hfilter : m.whole?.filter (· < Nat.pow 2 53) = some n := by
    rw [h]
    exact if_pos (decide_eq_true hn)
  rw [Magnitude.shortest, hfilter]

theorem positional_of_whole (n : Nat) :
    Decimal.positional "" ⟨n, 0⟩ = Nat.toDigits 10 n := by
  have hpoint : ¬ Decimal.point ⟨n, 0⟩ ≤ 0 := by
    have hlength := List.length_pos_iff.mpr (isNumeral_toDigits n).ne_nil
    simp only [Decimal.point, Decimal.digits]
    omega
  simp [Decimal.positional, hpoint, Decimal.digits]

theorem exists_contents_ofNat {n : Nat} (hn : n < 2 ^ 53) :
    ∃ m, Binary64.ofFloat (Float.ofNat n) = .finite false m ∧ m.whole? = some n := by
  rcases Nat.eq_zero_or_pos n with rfl | hpos
  · exact ⟨⟨0, -1074⟩, rfl, whole?_zero _⟩
  have hvalue := (Represents.ofNat hn.le).toInt?_eq
  cases hcontents : Binary64.ofFloat (Float.ofNat n) with
  | nan | infinite =>
      rw [hcontents] at hvalue
      contradiction
  | finite negative m =>
      rw [hcontents, Binary64.toInt?] at hvalue
      obtain ⟨k, hwhole, hk⟩ := Option.map_eq_some_iff.mp hvalue
      cases negative with
      | true =>
          rw [if_pos rfl] at hk
          omega
      | false => exact ⟨m, rfl, Int.ofNat_inj.mp hk ▸ hwhole⟩

/-- A whole number in the range in which all of them are exact is written in
decimal notation. -/
theorem write_ofNat {n : Nat} (hn : n < 2 ^ 53) :
    Layout.value.write (Float.ofNat n) = String.ofList (Nat.toDigits 10 n) := by
  obtain ⟨m, hcontents, hwhole⟩ := exists_contents_ofNat hn
  have hfits : Layout.value.fits ⟨n, 0⟩ = true := rfl
  have hmagnitude : Layout.value.magnitude m = Nat.toDigits 10 n := by
    rw [Layout.magnitude, shortest_of_whole? hwhole hn, if_pos hfits]
    exact positional_of_whole n
  rw [Layout.write, hcontents]
  exact congrArg String.ofList hmagnitude

end Calculator
