import Calculator.Catalog.Standard
import Calculator.Proofs.Tiling

/-!
Reading a text that is cut off. An entry that does not stand at the head of a text
does not stand at the head of a shorter one, and an entry that does is found as
long as the cut is behind it. So what is read before a cut does not depend on the
text beyond it, whatever the spellings and contexts of the catalog are. An error
of reading tells where to cut: the text before it can be read on its own.
-/

namespace Calculator

variable {text more rest : List Char} {lexeme : Lexeme}

def Lexeme.before (lexeme : Lexeme) (more : List Char) : Lexeme :=
  ⟨lexeme.symbol, lexeme.rest ++ more⟩

/-- A search at the head of a text that looks no further than what it finds. If the
text is cut off behind a lexeme, the lexeme is still found, and where nothing was
found, nothing is found in the shorter text. -/
structure IsLocal (search : List Char → Option Lexeme) : Prop where
  of_none : ∀ {text more : List Char}, search (text ++ more) = none → search text = none
  of_some : ∀ {text more : List Char} {lexeme : Lexeme},
    search (text ++ more) = some (lexeme.before more) → search text = some lexeme

theorem isLocal_none : IsLocal fun _ => none where
  of_none _ := rfl
  of_some h := by contradiction

theorem isLocal_after? (spelling : String) (symbol : Symbol) :
    IsLocal fun text => (after? spelling text).map fun rest => ⟨symbol, rest⟩ where
  of_none {text more} h := by
    rw [Option.map_eq_none_iff] at h ⊢
    apply Classical.byContradiction
    intro hshorter
    obtain ⟨hspelling, hprefix⟩ := after?_ne_none_iff.mp hshorter
    exact after?_ne_none_iff.mpr ⟨hspelling, hprefix.trans (List.prefix_append text more)⟩ h
  of_some {text more lexeme} h := by
    obtain ⟨rest, hlonger, hlexeme⟩ := Option.map_eq_some_iff.mp h
    obtain ⟨hspelling, htext⟩ := after?_eq_some_iff.mp hlonger
    obtain ⟨rfl, rfl⟩ := Lexeme.mk.inj hlexeme
    rw [← List.append_assoc] at htext
    have hshorter : after? spelling text = some lexeme.rest :=
      after?_eq_some_iff.mpr ⟨hspelling, List.append_cancel_right htext⟩
    rw [hshorter]
    rfl

/-- The first success of local searches is local: the entries before it find
nothing in the shorter text either. -/
theorem IsLocal.findSome? {α : Type} {entries : List α} {search : α → List Char → Option Lexeme}
    (h : ∀ entry ∈ entries, IsLocal (search entry)) :
    IsLocal fun text => entries.findSome? fun entry => search entry text where
  of_none hnone := by
    rw [List.findSome?_eq_none_iff] at hnone ⊢
    exact fun entry member => (h entry member).of_none (hnone entry member)
  of_some hsome := by
    obtain ⟨earlier, entry, later, rfl, hentry, hearlier⟩ := List.findSome?_eq_some_iff.mp hsome
    refine List.findSome?_eq_some_iff.mpr ⟨earlier, entry, later, rfl, ?_, fun other member => ?_⟩
    · exact (h entry (by simp)).of_some hentry
    · exact (h other (List.mem_append_left _ member)).of_none (hearlier other member)

theorem Operator.isLocal_lexeme? (o : Operator) (previous : Symbol) :
    IsLocal (o.lexeme? previous) := by
  unfold Operator.lexeme?
  by_cases hpermits : o.permits previous = true
  · simp only [hpermits, ↓reduceIte]
    exact isLocal_after? o.spelling _
  · simp only [hpermits]
    exact isLocal_none

theorem BracketPair.isLocal_lexeme? (pair : BracketPair) : IsLocal pair.lexeme? :=
  IsLocal.findSome? fun side _ => isLocal_after? (pair.spelling side) _

theorem EndsDigits.of_append (h : EndsDigits (text ++ more)) : EndsDigits text := by
  cases text with
  | nil => simp [EndsDigits]
  | cons c text => exact h

theorem isLocal_number? : IsLocal number? where
  of_none {text more} h := by
    cases text with
    | nil => rfl
    | cons c text =>
        cases hc : c.isDigit with
        | false => exact number?_of_not_digit hc text
        | true => simp [number?, hc] at h
  of_some {text more lexeme} h := by
    obtain ⟨digits, hdigits, htext, hsymbol⟩ := exists_numeral_of_number? h
    have hends : EndsDigits (lexeme.rest ++ more) := endsDigits_of_number? h
    have hwhole : text ++ more = digits ++ lexeme.rest ++ more := by
      rw [htext, List.append_assoc]
      rfl
    have hshorter : text = digits ++ lexeme.rest := List.append_cancel_right hwhole
    have hlexeme : lexeme = ⟨.number (digitsValue digits) (byteCount digits), lexeme.rest⟩ := by
      rw [← hsymbol]
      rfl
    rw [hlexeme, hshorter]
    exact number?_append hdigits hends.of_append

namespace Catalog

variable {catalog : Catalog} {previous last : Symbol} {symbols : List Symbol}

def searches (catalog : Catalog) (previous : Symbol) : List (List Char → Option Lexeme) :=
  [fun text => catalog.operators.findSome? (·.lexeme? previous text), number?,
    fun text => catalog.brackets.findSome? (·.lexeme? text)]

theorem lexemes_eq_searches (catalog : Catalog) (previous : Symbol) (text : List Char) :
    catalog.lexemes previous text = (catalog.searches previous).filterMap (· text) := rfl

theorem isLocal_of_mem_searches {search : List Char → Option Lexeme}
    (h : search ∈ catalog.searches previous) : IsLocal search := by
  simp only [searches, List.mem_cons, List.not_mem_nil, or_false] at h
  obtain rfl | rfl | rfl := h
  · exact IsLocal.findSome? fun o _ => o.isLocal_lexeme? previous
  · exact isLocal_number?
  · exact IsLocal.findSome? fun pair _ => pair.isLocal_lexeme?

end Catalog

theorem filterMap_eq_nil_of_append {searches : List (List Char → Option Lexeme)}
    (hlocal : ∀ search ∈ searches, IsLocal search)
    (h : searches.filterMap (· (text ++ more)) = []) : searches.filterMap (· text) = [] := by
  rw [List.filterMap_eq_nil_iff] at h ⊢
  exact fun search member => (hlocal search member).of_none (h search member)

theorem filterMap_eq_singleton_of_append {searches : List (List Char → Option Lexeme)}
    (hlocal : ∀ search ∈ searches, IsLocal search)
    (h : searches.filterMap (· (text ++ more)) = [lexeme.before more]) :
    searches.filterMap (· text) = [lexeme] := by
  induction searches with
  | nil => contradiction
  | cons search others ih =>
      have hsearch := hlocal search List.mem_cons_self
      have hothers := fun other member => hlocal other (List.mem_cons_of_mem search member)
      cases hfound : search (text ++ more) with
      | none =>
          simp only [List.filterMap_cons, hfound] at h
          simp only [List.filterMap_cons, hsearch.of_none hfound]
          exact ih hothers h
      | some found =>
          simp only [List.filterMap_cons, hfound] at h
          obtain ⟨rfl, hnone⟩ := List.cons.inj h
          simp only [List.filterMap_cons, hsearch.of_some hfound]
          rw [filterMap_eq_nil_of_append hothers hnone]

namespace Catalog

variable {catalog : Catalog} {previous last : Symbol} {symbols : List Symbol}

/-- A step does not depend on the text beyond its symbol. -/
theorem lexemes_of_append (h : catalog.lexemes previous (text ++ more) = [lexeme.before more]) :
    catalog.lexemes previous text = [lexeme] := by
  rw [lexemes_eq_searches] at h ⊢
  exact filterMap_eq_singleton_of_append (fun _ => isLocal_of_mem_searches) h

/-- A run does not depend on the text beyond the place where it stands. -/
theorem Lexes.of_append (h : catalog.Lexes previous (text ++ more) symbols last (rest ++ more)) :
    catalog.Lexes previous text symbols last rest := by
  generalize hwhole : text ++ more = whole at h
  generalize hend : rest ++ more = ending at h
  induction h generalizing text with
  | nil previous ending =>
      obtain rfl : text = rest := List.append_cancel_right (hwhole.trans hend.symm)
      exact .nil previous text
  | @cons previous last whole ending lexeme symbols hlexeme hrest ih =>
      subst hwhole hend
      -- The step ends before the cut, because the whole run does.
      obtain ⟨front, hfront, -⟩ := hrest.exists_front
      rw [← List.append_assoc] at hfront
      let shorter : Lexeme := ⟨lexeme.symbol, front ++ rest⟩
      have hbefore : lexeme = shorter.before more := by
        rw [Lexeme.before, ← hfront]
      have hstep : catalog.lexemes previous (text ++ more) = [shorter.before more] := by
        rw [hlexeme, hbefore]
      exact @Lexes.cons _ _ _ _ _ shorter _ (lexemes_of_append hstep) (ih hfront.symm rfl)

/-- An error of reading splits the text at a boundary between two characters. The
rest that it keeps is not empty, and the part before it can be read on its own,
as the symbols that were read before the failure. -/
theorem tokenize_before_error (catalog : Catalog) (source : String) (error : LexError)
    (h : (catalog.tokenize source).result = .error error) :
    error.position < source.utf8ByteSize ∧
      (⟨error.position⟩ : String.Pos.Raw).IsValid source ∧
      ∃ front, source = front ++ error.rest ∧ front.utf8ByteSize = error.position ∧
        (catalog.tokenize front).result = .ok (.start ::
          (catalog.tokenize source).events.filterMap Event.lexedSymbol? ++ [.finish]) := by
  obtain ⟨symbols, last, rest, event, hlexes, hrest, hstop, hevents⟩ := tokenize_eq_error h
  obtain ⟨hposition, hkept⟩ := hstop.error_eq
  obtain ⟨hvalid, hlt⟩ := isValid_stop hlexes hrest
  obtain ⟨front, hsource, hcount⟩ := hlexes.exists_front
  have hread : (catalog.tokenize source).events.filterMap Event.lexedSymbol? = symbols := by
    have htokenizing :
        (Event.tokenizing source.utf8ByteSize).lexedSymbol? = none := rfl
    rw [hevents, List.filterMap_cons_none htokenizing, List.filterMap_append,
      filterMap_lexedEvents, List.filterMap_cons_none hstop.lexedSymbol?_eq, List.filterMap_nil,
      List.append_nil]
  have hfront : catalog.Lexes .start (String.ofList front).toList symbols last [] := by
    rw [hsource] at hlexes
    rw [String.toList_ofList]
    exact Lexes.of_append hlexes
  rw [hposition]
  refine ⟨hlt, hvalid, String.ofList front, ?_, ?_, ?_⟩
  · rw [hkept, ← String.ofList_append, ← hsource, String.ofList_toList]
  · rw [← byteCount_eq_utf8ByteSize, hcount]
  · exact result_tokenize_eq_ok_iff.mpr ⟨symbols, last, hfront, by rw [hread]⟩

/-- In `1±2±(3)` the second sign is both an operator and the start of a bracket, so
reading stops at the fifth byte. The part before it holds the first sign, which
takes two bytes and could not be taken for a bracket. -/
theorem tokenize_before_error_sign :
    let catalog : Catalog :=
      ⟨[{ Operator.addition with spelling := "±" }],
        [{ kind := .parenthesis, name := "sum", opening := "±(", closing := ")" }]⟩
    let source := "1±2±(3)"
    let error := LexError.ambiguous 4 "±(3)"
    (catalog.tokenize source).result = .error error ∧
      error.position < source.utf8ByteSize ∧
      (⟨error.position⟩ : String.Pos.Raw).IsValid source ∧
      ∃ front, source = front ++ error.rest ∧ front.utf8ByteSize = error.position ∧
        (catalog.tokenize front).result = .ok (.start ::
          (catalog.tokenize source).events.filterMap Event.lexedSymbol? ++ [.finish]) := by
  intro catalog source error
  let sign : Symbol := .operator { Operator.addition with spelling := "±" } 2
  let bracket : Symbol := .bracket catalog.brackets[0] .opening 3
  have hchars : source.toList = ['1', '±', '2', '±', '(', '3', ')'] := by decide
  have hone : catalog.lexemes .start ['1', '±', '2', '±', '(', '3', ')'] =
      [⟨.number 1 1, ['±', '2', '±', '(', '3', ')']⟩] := rfl
  have hsign : catalog.lexemes (.number 1 1) ['±', '2', '±', '(', '3', ')'] =
      [⟨sign, ['2', '±', '(', '3', ')']⟩] := rfl
  have htwo : catalog.lexemes sign ['2', '±', '(', '3', ')'] =
      [⟨.number 2 1, ['±', '(', '3', ')']⟩] := rfl
  have hboth : catalog.lexemes (.number 2 1) ['±', '(', '3', ')'] =
      [⟨sign, ['(', '3', ')']⟩, ⟨bracket, ['3', ')']⟩] := rfl
  have hlexes : catalog.Lexes .start source.toList [.number 1 1, sign, .number 2 1] (.number 2 1)
      ['±', '(', '3', ')'] := by
    rw [hchars]
    exact .cons hone (.cons hsign (.cons htwo (.nil _ _)))
  obtain ⟨event, found, hend, hresult⟩ :=
    result_tokenize_of_lexes hlexes (by simp) (by simp [hboth])
  rw [hboth] at hend
  cases hend
  exact ⟨hresult, tokenize_before_error catalog source error hresult⟩

end Catalog

end Calculator
