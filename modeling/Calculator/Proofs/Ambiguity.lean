import Calculator.Catalog.Standard
import Calculator.Proofs.Tiling

/-!
Ambiguity as a property of the catalog. Reading stops as ambiguous where symbols
of two classes stand at the same place, so the spellings of two entries must
overlap: one starts with the other, or one begins with a digit as numbers do. A
context can only rule an operator out, so without contexts every such overlap is
met in some text.
-/

namespace Calculator

/-- A spelling at the head of a text that begins with a digit begins with it too. -/
theorem Heads.startsWithDigit_iff {spelling : String} {text : List Char} (h : Heads spelling text) :
    startsWithDigit spelling.toList = startsWithDigit text := by
  obtain ⟨hspelling, rest, rfl⟩ := h
  obtain ⟨c, others, hchars⟩ :=
    List.exists_cons_of_ne_nil (mt String.toList_eq_nil_iff.mp hspelling)
  rw [hchars]
  rfl

/-- At least two of three searches succeed. -/
theorem two_le_length_filterMap_iff {α : Type} (first second third : Option α) :
    2 ≤ ([first, second, third].filterMap id).length ↔
      (first ≠ none ∧ second ≠ none) ∨ (first ≠ none ∧ third ≠ none) ∨
        (second ≠ none ∧ third ≠ none) := by
  cases first <;> cases second <;> cases third <;> simp

theorem DeadEnd.ambiguous_iff {position : Nat} {text : List Char} {candidates : List Lexeme}
    {event : Event} {error : LexError} (h : DeadEnd position text candidates event error) :
    (∃ stop rest, error = .ambiguous stop rest) ↔ 2 ≤ candidates.length := by
  cases h with
  | none => simp
  | several => simp

namespace Catalog

variable {catalog : Catalog} {previous : Symbol} {text : List Char}

def bracketSpellings (catalog : Catalog) : List String :=
  catalog.brackets.flatMap fun pair => [pair.opening, pair.closing]

theorem mem_bracketSpellings {spelling : String} :
    spelling ∈ catalog.bracketSpellings ↔
      ∃ pair ∈ catalog.brackets, ∃ side, pair.spelling side = spelling := by
  simp only [bracketSpellings, List.mem_flatMap, List.mem_cons, List.not_mem_nil, or_false]
  refine exists_congr fun pair => and_congr_right fun _ => ⟨?_, ?_⟩
  · rintro (rfl | rfl)
    · exact ⟨.opening, rfl⟩
    · exact ⟨.closing, rfl⟩
  · rintro ⟨side, rfl⟩
    cases side
    · exact Or.inl rfl
    · exact Or.inr rfl

theorem operators_ne_none_iff :
    catalog.operators.findSome? (·.lexeme? previous text) ≠ none ↔
      ∃ o ∈ catalog.operators, o.permits previous = true ∧ Heads o.spelling text := by
  simp only [ne_eq, List.findSome?_eq_none_iff, Classical.not_forall, exists_prop]
  exact exists_congr fun o => and_congr_right fun _ => Operator.lexeme?_ne_none_iff

theorem brackets_ne_none_iff :
    catalog.brackets.findSome? (·.lexeme? text) ≠ none ↔
      ∃ spelling ∈ catalog.bracketSpellings, Heads spelling text := by
  simp only [ne_eq, List.findSome?_eq_none_iff, Classical.not_forall, exists_prop,
    mem_bracketSpellings]
  constructor
  · rintro ⟨pair, hpair, hsome⟩
    obtain ⟨side, hside⟩ := BracketPair.lexeme?_ne_none_iff.mp hsome
    exact ⟨pair.spelling side, ⟨pair, hpair, side, rfl⟩, hside⟩
  · rintro ⟨spelling, ⟨pair, hpair, side, rfl⟩, hside⟩
    exact ⟨pair, hpair, BracketPair.lexeme?_ne_none_iff.mpr ⟨side, hside⟩⟩

/-- Whether spellings of two classes can stand at the same place: those of an
operator and of a bracket if one starts with the other, and those of either and
of a number if it begins with a digit. Empty spellings are never read. -/
def Overlaps (catalog : Catalog) : Prop :=
  (∃ o ∈ catalog.operators, ∃ spelling ∈ catalog.bracketSpellings,
    o.spelling ≠ "" ∧ spelling ≠ "" ∧
      (o.spelling.toList <+: spelling.toList ∨ spelling.toList <+: o.spelling.toList)) ∨
  ∃ spelling ∈ catalog.operators.map Operator.spelling ++ catalog.bracketSpellings,
    startsWithDigit spelling.toList = true

instance (catalog : Catalog) : Decidable catalog.Overlaps :=
  inferInstanceAs (Decidable (_ ∨ _))

def HasAmbiguousText (catalog : Catalog) : Prop :=
  ∃ source position rest, (catalog.tokenize source).result = .error (.ambiguous position rest)

/-- Symbols of two classes stand at one place only if their spellings overlap. -/
theorem overlaps_of_lexemes (h : 2 ≤ (catalog.lexemes previous text).length) :
    catalog.Overlaps := by
  rw [lexemes, two_le_length_filterMap_iff, operators_ne_none_iff, number?_ne_none_iff,
    brackets_ne_none_iff] at h
  rcases h with ⟨⟨o, ho, -, hhead⟩, hdigit⟩ | ⟨⟨o, ho, -, hhead⟩, spelling, hspelling, hbracket⟩ |
    ⟨hdigit, spelling, hspelling, hbracket⟩
  · refine Or.inr ⟨o.spelling, ?_, by rw [hhead.startsWithDigit_iff, hdigit]⟩
    exact List.mem_append_left _ (List.mem_map_of_mem ho)
  · exact Or.inl ⟨o, ho, spelling, hspelling, hhead.1, hbracket.1,
      List.prefix_or_prefix_of_prefix hhead.2 hbracket.2⟩
  · refine Or.inr ⟨spelling, ?_, by rw [hbracket.startsWithDigit_iff, hdigit]⟩
    exact List.mem_append_right _ hspelling

theorem HasAmbiguousText.overlaps (h : catalog.HasAmbiguousText) : catalog.Overlaps := by
  obtain ⟨source, position, rest, herror⟩ := h
  obtain ⟨symbols, last, rest, event, -, -, hstop, -⟩ := tokenize_eq_error herror
  exact overlaps_of_lexemes (hstop.ambiguous_iff.mp ⟨_, _, rfl⟩)

/-- A text with symbols of two classes at its start is ambiguous. -/
theorem hasAmbiguousText_of_lexemes (source : String)
    (h : 2 ≤ (catalog.lexemes .start source.toList).length) : catalog.HasAmbiguousText := by
  have hne : source.toList ≠ [] := by
    obtain ⟨lexeme, member⟩ := List.exists_mem_of_length_pos (Nat.lt_of_succ_lt h)
    exact List.ne_nil_of_length_pos (Nat.zero_lt_of_lt (length_lt_of_mem_lexemes member))
  have hstop : ∀ lexeme, catalog.lexemes .start source.toList ≠ [lexeme] := by
    intro lexeme hone
    simp [hone] at h
  obtain ⟨event, error, hend, hresult⟩ := result_tokenize_of_lexes (.nil _ _) hne hstop
  obtain ⟨position, rest, rfl⟩ := hend.ambiguous_iff.mpr h
  exact ⟨source, position, rest, hresult⟩

/-- Without contexts an operator is found wherever it is spelled, or an earlier one
in its place. -/
theorem operators_ne_none_of_heads {o : Operator}
    (hcontext : ∀ o ∈ catalog.operators, o.context = none) (ho : o ∈ catalog.operators)
    (hhead : Heads o.spelling text) :
    catalog.operators.findSome? (·.lexeme? previous text) ≠ none :=
  operators_ne_none_iff.mpr ⟨o, ho, by simp [Operator.permits, hcontext o ho], hhead⟩

/-- The longer one of two spellings that overlap is itself an ambiguous text, and so
is a spelling that begins with a digit. -/
theorem Overlaps.hasAmbiguousText (hcontext : ∀ o ∈ catalog.operators, o.context = none)
    (h : catalog.Overlaps) : catalog.HasAmbiguousText := by
  rcases h with ⟨o, ho, spelling, hspelling, hnonempty, hbracket, hcomparable⟩ |
    ⟨spelling, hspelling, hdigit⟩
  · obtain ⟨source, hfirst, hsecond⟩ :
        ∃ source : String, Heads o.spelling source.toList ∧ Heads spelling source.toList := by
      rcases hcomparable with hprefix | hprefix
      · exact ⟨spelling, ⟨hnonempty, hprefix⟩, hbracket, List.prefix_rfl⟩
      · exact ⟨o.spelling, ⟨hnonempty, List.prefix_rfl⟩, hbracket, hprefix⟩
    apply hasAmbiguousText_of_lexemes source
    rw [lexemes, two_le_length_filterMap_iff]
    exact Or.inr (Or.inl ⟨operators_ne_none_of_heads hcontext ho hfirst,
      brackets_ne_none_iff.mpr ⟨spelling, hspelling, hsecond⟩⟩)
  · have hhead : Heads spelling spelling.toList := by
      refine ⟨?_, List.prefix_rfl⟩
      rintro rfl
      contradiction
    apply hasAmbiguousText_of_lexemes spelling
    rw [lexemes, two_le_length_filterMap_iff]
    rcases List.mem_append.mp hspelling with inOperators | inBrackets
    · obtain ⟨o, ho, rfl⟩ := List.mem_map.mp inOperators
      exact Or.inl ⟨operators_ne_none_of_heads hcontext ho hhead,
        number?_ne_none_iff.mpr hdigit⟩
    · exact Or.inr (Or.inr ⟨number?_ne_none_iff.mpr hdigit,
        brackets_ne_none_iff.mpr ⟨spelling, inBrackets, hhead⟩⟩)

/-- Whether some text is ambiguous can be told from the spellings of a catalog. If
no operator has a context, there is an ambiguous text exactly if spellings of two
classes overlap; with contexts there is one only if they do. -/
theorem hasAmbiguousText_iff_overlaps (catalog : Catalog) :
    ((∀ o ∈ catalog.operators, o.context = none) →
      (catalog.HasAmbiguousText ↔ catalog.Overlaps)) ∧
    (catalog.HasAmbiguousText → catalog.Overlaps) :=
  ⟨fun hcontext => ⟨HasAmbiguousText.overlaps, Overlaps.hasAmbiguousText hcontext⟩,
    HasAmbiguousText.overlaps⟩

/-- The closing bracket `×` starts the spelling of an operator. The other operator
cannot be written. -/
theorem hasAmbiguousText_iff_overlaps_cross :
    let catalog : Catalog :=
      ⟨[{ Operator.addition with spelling := "" },
          { Operator.multiplication with spelling := "×(" }],
        [{ kind := .parenthesis, name := "cross", opening := ")", closing := "×" }]⟩
    (∀ o ∈ catalog.operators, o.context = none) ∧ catalog.Overlaps ∧
      catalog.HasAmbiguousText := by
  intro catalog
  have hcontext : ∀ o ∈ catalog.operators, o.context = none := by decide
  have hoverlaps : catalog.Overlaps := by decide
  exact ⟨hcontext, hoverlaps,
    ((hasAmbiguousText_iff_overlaps catalog).1 hcontext).mpr hoverlaps⟩

/-- The spellings of the standard notation do not overlap, so no text is ambiguous. -/
example : ¬ standard.Overlaps := by decide

end Catalog

end Calculator
