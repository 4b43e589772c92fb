import Calculator.Catalog.Standard
import Calculator.Proofs.Lexing

/-!
The symbols of a text tile it. One after another they take all of its bytes, and
each is the first operator that may stand at its place, a run of digits that goes
on as long as it can, or a side of a bracket pair. This holds in every catalog,
whatever its spellings are: an empty spelling is never read, and a spelling of
several bytes takes whole characters. A spelling that ends in a digit may cut off
the beginning of a run.
-/

namespace Calculator

theorem byteCount_eq_utf8ByteSize (text : List Char) :
    byteCount text = (String.ofList text).utf8ByteSize := by
  induction text with
  | nil => rfl
  | cons c text ih =>
      rw [byteCount_cons, ih, String.ofList_cons, String.utf8ByteSize_append,
        String.utf8ByteSize_singleton]

theorem isValid_byteCount {source : String} {front rest : List Char}
    (h : source.toList = front ++ rest) :
    (⟨byteCount front⟩ : String.Pos.Raw).IsValid source := by
  refine String.Pos.Raw.isValid_iff_exists_append.mpr
    ⟨String.ofList front, String.ofList rest, ?_, ?_⟩
  · rw [← String.ofList_append, ← h, String.ofList_toList]
  · rw [byteCount_eq_utf8ByteSize]
    rfl

theorem byteCount_toList (source : String) : byteCount source.toList = source.utf8ByteSize := by
  rw [byteCount_eq_utf8ByteSize, String.ofList_toList]

/-- Digits do not end where more digits stand. -/
theorem IsNumeral.not_endsDigits {digits rest : List Char} (h : IsNumeral digits) :
    ¬ EndsDigits (digits ++ rest) := by
  intro hends
  have hstart := h.startsWithDigit_append rest
  rw [hends.startsWithDigit_eq_false] at hstart
  contradiction

theorem byteCount_pos {text : List Char} (h : text ≠ []) : 0 < byteCount text := by
  obtain ⟨c, others, rfl⟩ := List.exists_cons_of_ne_nil h
  exact Nat.add_pos_left c.utf8Size_pos _

def Symbol.isNumber : Symbol → Bool
  | .number .. => true
  | _ => false

/-- Whether a symbol after `previous` is rightly read from a segment of a text
that goes on with `rest`. A number is read from all digits from its place on. An
operator is the first of the catalog that is permitted and spelled there. -/
def Catalog.Reads (catalog : Catalog) (previous symbol : Symbol) (segment rest : List Char) :
    Prop :=
  match symbol with
  | .start | .finish => False
  | .number value _ =>
      IsNumeral segment ∧ EndsDigits rest ∧ value = digitsValue segment
  | .operator entry _ =>
      segment = entry.spelling.toList ∧ entry.permits previous = true ∧
        ∃ earlier later, catalog.operators = earlier ++ entry :: later ∧
          ∀ other ∈ earlier, other.permits previous = true → other.spelling ≠ "" →
            ¬ other.spelling.toList <+: segment ++ rest
  | .bracket pair side _ =>
      pair ∈ catalog.brackets ∧ segment = (pair.spelling side).toList

/-- Whether a run of digits begins where this text, read up to `previous`, ends. A
digit at its end is part of the spelling of that symbol. -/
def BeginsDigits (previous : Symbol) (front : List Char) : Prop :=
  ∀ c ∈ front.getLast?, c.isDigit = true →
    previous.isNumber = false ∧ previous.text.toList.getLast? = some c

variable {catalog : Catalog} {previous last symbol : Symbol} {text segment rest : List Char}
  {lexeme : Lexeme} {symbols : List Symbol}

theorem endsDigits_dropWhile (text : List Char) : EndsDigits (text.dropWhile Char.isDigit) := by
  intro c hc
  have hstop := List.head?_dropWhile_not Char.isDigit text
  rw [Option.mem_def.mp hc] at hstop
  exact hstop

theorem endsDigits_of_number? (h : number? text = some lexeme) : EndsDigits lexeme.rest := by
  unfold number? at h
  split at h
  · contradiction
  · cases h
    exact endsDigits_dropWhile text

theorem Operator.permits_of_lexeme? {o : Operator} (h : o.lexeme? previous text = some lexeme) :
    o.permits previous = true := by
  unfold Operator.lexeme? at h
  split at h
  · assumption
  · contradiction

namespace Catalog

theorem reads_operator (h : catalog.operators.findSome? (·.lexeme? previous text) = some lexeme) :
    ∃ segment, text = segment ++ lexeme.rest ∧ byteCount segment = lexeme.symbol.length ∧
      catalog.Reads previous lexeme.symbol segment lexeme.rest := by
  obtain ⟨earlier, entry, later, hoperators, hentry, hearlier⟩ := List.findSome?_eq_some_iff.mp h
  obtain ⟨hsymbol, htext⟩ := Operator.eq_of_lexeme? hentry
  have hpermits : entry.permits previous = true := Operator.permits_of_lexeme? hentry
  refine ⟨entry.spelling.toList, htext, by rw [hsymbol]; rfl, ?_⟩
  rw [hsymbol]
  refine ⟨rfl, hpermits, earlier, later, hoperators, ?_⟩
  intro other member hother hspelling hprefix
  rw [← htext] at hprefix
  exact Operator.lexeme?_ne_none_iff.mpr ⟨hother, hspelling, hprefix⟩ (hearlier other member)

theorem reads_number (h : number? text = some lexeme) :
    ∃ segment, text = segment ++ lexeme.rest ∧ byteCount segment = lexeme.symbol.length ∧
      catalog.Reads previous lexeme.symbol segment lexeme.rest := by
  obtain ⟨digits, hdigits, htext, hsymbol⟩ := exists_numeral_of_number? h
  refine ⟨digits, htext, by rw [hsymbol]; rfl, ?_⟩
  rw [hsymbol]
  exact ⟨hdigits, endsDigits_of_number? h, rfl⟩

theorem reads_bracket (h : catalog.brackets.findSome? (·.lexeme? text) = some lexeme) :
    ∃ segment, text = segment ++ lexeme.rest ∧ byteCount segment = lexeme.symbol.length ∧
      catalog.Reads previous lexeme.symbol segment lexeme.rest := by
  obtain ⟨pair, hpair, hlexeme⟩ := List.exists_of_findSome?_eq_some h
  obtain ⟨side, hsymbol, htext⟩ := BracketPair.eq_of_lexeme? hlexeme
  refine ⟨(pair.spelling side).toList, htext, by rw [hsymbol]; rfl, ?_⟩
  rw [hsymbol]
  exact ⟨hpair, rfl⟩

/-- A step reads its symbol from a part of the text that is as long as the
symbol says. -/
theorem reads_of_lexemes (h : catalog.lexemes previous text = [lexeme]) :
    ∃ segment, text = segment ++ lexeme.rest ∧ byteCount segment = lexeme.symbol.length ∧
      catalog.Reads previous lexeme.symbol segment lexeme.rest := by
  have member : lexeme ∈ catalog.lexemes previous text := h ▸ List.mem_singleton_self _
  rcases mem_lexemes.mp member with isOperator | isNumber | isBracket
  · exact reads_operator isOperator
  · exact reads_number isNumber
  · exact reads_bracket isBracket

theorem Reads.segment_eq (h : catalog.Reads previous symbol segment rest)
    (hnumber : symbol.isNumber = false) : segment = symbol.text.toList := by
  cases symbol with
  | start | finish => exact h.elim
  | number => contradiction
  | operator => exact h.1
  | bracket => exact h.2

theorem length_pos_of_lexemes (h : catalog.lexemes previous text = [lexeme]) :
    0 < lexeme.symbol.length := by
  obtain ⟨segment, htext, hcount, -⟩ := reads_of_lexemes h
  have hshorter : lexeme.rest.length < text.length :=
    length_lt_of_mem_lexemes (h ▸ List.mem_singleton_self lexeme)
  have hsegment : segment ≠ [] := by
    rintro rfl
    simp [htext] at hshorter
  exact hcount ▸ byteCount_pos hsegment

theorem Lexes.exists_front (h : catalog.Lexes previous text symbols last rest) :
    ∃ front, text = front ++ rest ∧ byteCount front = byteLength symbols := by
  induction h with
  | nil _ rest => exact ⟨[], rfl, rfl⟩
  | cons hlexeme _ ih =>
      obtain ⟨segment, htext, hsegment, -⟩ := reads_of_lexemes hlexeme
      obtain ⟨front, hrest, hfront⟩ := ih
      refine ⟨segment ++ front, by rw [htext, hrest, List.append_assoc], ?_⟩
      rw [byteCount_append, hsegment, hfront, byteLength_cons]

theorem Lexes.length_le (h : catalog.Lexes previous text symbols last rest) :
    symbols.length + rest.length ≤ text.length := by
  induction h with
  | nil _ rest => simp
  | cons hlexeme _ ih =>
      have hshorter := length_lt_of_mem_lexemes (hlexeme ▸ List.mem_singleton_self _)
      rw [List.length_cons]
      omega

theorem Lexes.exists_head {after : List Symbol}
    (h : catalog.Lexes previous text (symbol :: after) last rest) :
    ∃ lexeme, catalog.lexemes previous text = [lexeme] ∧ lexeme.symbol = symbol ∧
      catalog.Lexes symbol lexeme.rest after last rest := by
  cases h with
  | cons hlexeme hrest => exact ⟨_, hlexeme, rfl, hrest⟩

/-- A run stops at each of its symbols on the way. -/
theorem Lexes.exists_step {before after : List Symbol}
    (h : catalog.Lexes previous text (before ++ symbol :: after) last rest) :
    ∃ between lexeme, catalog.Lexes previous text before (before.getLastD previous) between ∧
      catalog.lexemes (before.getLastD previous) between = [lexeme] ∧ lexeme.symbol = symbol ∧
      catalog.Lexes symbol lexeme.rest after last rest := by
  induction before generalizing previous text with
  | nil =>
      obtain ⟨lexeme, hlexeme, hsymbol, hafter⟩ := h.exists_head
      exact ⟨text, lexeme, .nil previous text, hlexeme, hsymbol, hafter⟩
  | cons first before ih =>
      obtain ⟨lexeme, hlexeme, rfl, hrest⟩ := Lexes.exists_head h
      obtain ⟨between, found, hbefore, hfound, hsymbol, hafter⟩ := ih hrest
      rw [List.getLastD_cons]
      exact ⟨between, found, .cons hlexeme hbefore, hfound, hsymbol, hafter⟩

/-- What is read after a number starts with no digit, so it is no number. -/
theorem Lexes.not_adjacent {before after : List Symbol} {first second : Float}
    {firstLength secondLength : Nat}
    (h : catalog.Lexes previous text
      (before ++ .number first firstLength :: .number second secondLength :: after) last rest) :
    False := by
  obtain ⟨between, found, -, hfound, hfirst, hafter⟩ := h.exists_step
  obtain ⟨segment, -, -, hreads⟩ := reads_of_lexemes hfound
  rw [hfirst] at hreads
  obtain ⟨-, hends, -⟩ := hreads
  obtain ⟨next, hnext, hsecond, -⟩ := hafter.exists_head
  obtain ⟨digits, htext, -, hreads⟩ := reads_of_lexemes hnext
  rw [hsecond] at hreads
  obtain ⟨hdigits, -⟩ := hreads
  exact hdigits.not_endsDigits (htext ▸ hends)

/-- A run that ends with another symbol than a number ends with the text of it. -/
theorem Lexes.getLast?_front {front : List Char}
    (h : catalog.Lexes previous text symbols last rest) (htext : text = front ++ rest)
    (hne : front ≠ []) (hnumber : last.isNumber = false) :
    front.getLast? = last.text.toList.getLast? := by
  induction h generalizing front with
  | nil _ rest => exact absurd (List.append_left_eq_self.mp htext.symm) hne
  | @cons _ last _ rest lexeme others hlexeme hlater ih =>
      obtain ⟨segment, hsegment, -, hreads⟩ := reads_of_lexemes hlexeme
      obtain ⟨later, hlaterText, -⟩ := hlater.exists_front
      obtain rfl : front = segment ++ later := by
        rw [hsegment, hlaterText, ← List.append_assoc] at htext
        exact (List.append_cancel_right htext).symm
      by_cases hend : later = []
      · -- The text is used up, so this symbol is the last one.
        have hlength := hlater.length_le
        rw [hlaterText, hend, List.nil_append] at hlength
        obtain rfl : others = [] := List.length_eq_zero_iff.mp (by omega)
        cases hlater
        rw [hend, List.append_nil, hreads.segment_eq hnumber]
      · rw [List.getLast?_append, Option.or_of_isSome (by simpa using hend)]
        exact ih hlaterText hend hnumber

/-- A number begins a run of digits. -/
theorem Lexes.beginsDigits {before after : List Symbol} {front between : List Char}
    (h : catalog.Lexes .start text (before ++ symbol :: after) last rest)
    (hbefore : catalog.Lexes .start text before (before.getLastD .start) between)
    (hfront : text = front ++ between) (hsymbol : symbol.isNumber = true) :
    BeginsDigits (before.getLastD .start) front := by
  intro c hc hdigit
  have hnumber : (before.getLastD .start).isNumber = false := by
    rcases List.eq_nil_or_concat before with rfl | ⟨earlier, first, rfl⟩
    · rfl
    · rw [List.concat_eq_append, List.append_assoc] at h
      rw [List.concat_eq_append, List.getLastD_concat]
      cases first with
      | number value length =>
          cases symbol with
          | number => exact absurd h Lexes.not_adjacent
          | _ => contradiction
      | _ => rfl
  have hne : front ≠ [] := by
    rintro rfl
    contradiction
  rw [← hbefore.getLast?_front hfront hne hnumber]
  exact ⟨hnumber, hc⟩

/-- The event of reading a symbol names a boundary between two characters, and
there is text after it. -/
theorem isValid_of_mem_lexedEvents {source : String} {event : Event} {position : Nat}
    (h : catalog.Lexes .start source.toList symbols last rest)
    (hevent : event ∈ lexedEvents 0 symbols) (hposition : event.position? = some position) :
    (⟨position⟩ : String.Pos.Raw).IsValid source ∧ position < source.utf8ByteSize := by
  obtain ⟨before, symbol, after, rfl, rfl⟩ := exists_of_mem_lexedEvents hevent
  cases hposition
  obtain ⟨between, lexeme, hbefore, hlexeme, -, -⟩ := h.exists_step
  obtain ⟨front, hfront, hcount⟩ := hbefore.exists_front
  have hbetween : 0 < byteCount between := byteCount_pos (ne_nil_of_lexemes hlexeme)
  rw [Nat.zero_add, ← hcount, ← byteCount_toList, hfront, byteCount_append]
  exact ⟨isValid_byteCount hfront, Nat.lt_add_of_pos_right hbetween⟩

/-- So does the event of stopping before the end of the text. -/
theorem isValid_stop {source : String} (h : catalog.Lexes .start source.toList symbols last rest)
    (hrest : rest ≠ []) :
    (⟨byteLength symbols⟩ : String.Pos.Raw).IsValid source ∧
      byteLength symbols < source.utf8ByteSize := by
  obtain ⟨front, hfront, hcount⟩ := h.exists_front
  rw [← hcount, ← byteCount_toList, hfront, byteCount_append]
  exact ⟨isValid_byteCount hfront, Nat.lt_add_of_pos_right (byteCount_pos hrest)⟩

/-- How the symbols of a text tile it: their segments follow one another from its
first byte to its last one, and each is rightly read where it stands. -/
structure Tiles (catalog : Catalog) (source : String) (symbols : List Symbol) : Prop where
  no_sentinel : .start ∉ symbols ∧ .finish ∉ symbols
  length_pos : ∀ symbol ∈ symbols, 1 ≤ symbol.length
  covers : byteLength symbols = source.utf8ByteSize
  reads : ∀ before symbol after, symbols = before ++ symbol :: after →
    ∃ front segment rest, source.toList = front ++ segment ++ rest ∧
      byteCount front = byteLength before ∧ byteCount segment = symbol.length ∧
      catalog.Reads (before.getLastD .start) symbol segment rest ∧
      (symbol.isNumber = true → BeginsDigits (before.getLastD .start) front)
  not_adjacent : ∀ before first second after, symbols = before ++ first :: second :: after →
    ¬ (first.isNumber = true ∧ second.isNumber = true)

theorem Lexes.reads_segment {before after : List Symbol}
    (h : catalog.Lexes .start text (before ++ symbol :: after) last rest) :
    ∃ front segment rest, text = front ++ segment ++ rest ∧
      byteCount front = byteLength before ∧ byteCount segment = symbol.length ∧
      catalog.Reads (before.getLastD .start) symbol segment rest ∧
      (symbol.isNumber = true → BeginsDigits (before.getLastD .start) front) := by
  obtain ⟨between, lexeme, hbefore, hlexeme, rfl, -⟩ := h.exists_step
  obtain ⟨front, htext, hfront⟩ := hbefore.exists_front
  obtain ⟨segment, rfl, hsegment, hreads⟩ := reads_of_lexemes hlexeme
  exact ⟨front, segment, lexeme.rest, by rw [htext, List.append_assoc], hfront, hsegment, hreads,
    h.beginsDigits hbefore htext⟩

theorem Lexes.exists_reads (h : catalog.Lexes .start text symbols last rest)
    (member : symbol ∈ symbols) :
    ∃ before segment following, catalog.Reads before symbol segment following := by
  obtain ⟨before, after, rfl⟩ := List.append_of_mem member
  obtain ⟨-, segment, following, -, -, -, hreads, -⟩ := h.reads_segment
  exact ⟨_, segment, following, hreads⟩

theorem Lexes.tiles {source : String} (h : catalog.Lexes .start source.toList symbols last []) :
    catalog.Tiles source symbols where
  no_sentinel := by
    constructor
    · intro member
      obtain ⟨_, _, _, hnone⟩ := h.exists_reads member
      exact hnone
    · intro member
      obtain ⟨_, _, _, hnone⟩ := h.exists_reads member
      exact hnone
  length_pos := by
    intro symbol member
    obtain ⟨before, after, rfl⟩ := List.append_of_mem member
    obtain ⟨between, lexeme, -, hlexeme, rfl, -⟩ := h.exists_step
    exact length_pos_of_lexemes hlexeme
  covers := by
    obtain ⟨front, htext, hcount⟩ := h.exists_front
    rw [← byteCount_toList, htext, List.append_nil, hcount]
  reads := by
    rintro before symbol after rfl
    exact h.reads_segment
  not_adjacent := by
    rintro before first second after rfl ⟨hfirst, hsecond⟩
    cases first with
    | number first firstLength =>
        cases second with
        | number second secondLength => exact h.not_adjacent
        | _ => contradiction
    | _ => contradiction

/-- Reading takes at most one step for each character and an event at its start
and its end. -/
theorem length_events_tokenize_le (catalog : Catalog) (source : String) :
    (catalog.tokenize source).events.length ≤ source.length + 2 := by
  obtain ⟨symbols, last, rest, hlexes, hend⟩ := catalog.lexFrom_cases .start 0 source.toList
  have hlength := hlexes.length_le
  rw [String.length_toList] at hlength
  rw [events_tokenize]
  obtain ⟨-, hrun⟩ | ⟨hrest, event, error, -, hrun⟩ := hend
  · simp only [hrun, List.length_cons, List.length_append, length_lexedEvents, List.length_nil]
    omega
  · have hpositive := List.length_pos_iff.mpr hrest
    simp only [hrun, List.length_cons, List.length_append, length_lexedEvents, List.length_nil]
    omega

/-- Every step of reading takes place before the end of the text and at a
boundary between two characters. -/
theorem isValid_of_mem_events_tokenize {source : String} {event : Event} {position : Nat}
    (hevent : event ∈ (catalog.tokenize source).events)
    (hposition : event.position? = some position) :
    (⟨position⟩ : String.Pos.Raw).IsValid source ∧ position < source.utf8ByteSize := by
  obtain ⟨symbols, last, rest, hlexes, hend⟩ := catalog.lexFrom_cases .start 0 source.toList
  rw [events_tokenize, List.mem_cons, List.mem_append] at hevent
  obtain rfl | hrun | hfinish := hevent
  · contradiction
  · obtain ⟨-, hend⟩ | ⟨hrest, stop, error, hstop, hend⟩ := hend
    · rw [hend] at hrun
      exact isValid_of_mem_lexedEvents hlexes hrun hposition
    · rw [hend, List.mem_append, List.mem_singleton] at hrun
      obtain hlexed | rfl := hrun
      · exact isValid_of_mem_lexedEvents hlexes hlexed hposition
      · rw [hstop.position?_eq, Nat.zero_add] at hposition
        cases hposition
        exact isValid_stop hlexes hrest
  · split at hfinish
    · rw [List.mem_singleton.mp hfinish] at hposition
      contradiction
    · contradiction

/-- Reading any text in any catalog ends, never stands inside a character, and
what it reads between the two sentinels tiles the text. -/
theorem tokenize_tiles (catalog : Catalog) (source : String) :
    (catalog.tokenize source).events.length ≤ source.length + 2 ∧
    (∀ event ∈ (catalog.tokenize source).events, ∀ position, event.position? = some position →
      (⟨position⟩ : String.Pos.Raw).IsValid source ∧ position < source.utf8ByteSize) ∧
    ∀ all, (catalog.tokenize source).result = .ok all →
      ∃ symbols, all = .start :: symbols ++ [.finish] ∧ catalog.Tiles source symbols := by
  refine ⟨catalog.length_events_tokenize_le source,
    fun _ hevent _ hposition => isValid_of_mem_events_tokenize hevent hposition,
    fun all h => ?_⟩
  obtain ⟨symbols, last, hlexes, rfl⟩ := result_tokenize_eq_ok_iff.mp h
  exact ⟨symbols, rfl, hlexes.tiles⟩

def indexedNegation : Operator := { Operator.negation with spelling := "x1" }

def withIndexedNegation : Catalog := ⟨[indexedNegation], []⟩

theorem result_tokenize_indexed :
    (withIndexedNegation.tokenize "x123").result =
      .ok (.start :: [.operator indexedNegation 2, .number 23 2] ++ [.finish]) := by
  have hsign : withIndexedNegation.lexemes .start "x123".toList =
      [⟨.operator indexedNegation 2, ['2', '3']⟩] := rfl
  have hnumber : withIndexedNegation.lexemes (.operator indexedNegation 2) ['2', '3'] =
      [⟨.number 23 2, []⟩] := rfl
  exact result_tokenize_eq_ok_iff.mpr ⟨_, _, .cons hsign (.cons hnumber (.nil _ _)), rfl⟩

/-- The text `x123` is tiled by the sign `x1` and the number `23`. -/
theorem tokenize_tiles_indexed :
    let symbols : List Symbol := [.operator indexedNegation 2, .number 23 2]
    (withIndexedNegation.tokenize "x123").result = .ok (.start :: symbols ++ [.finish]) ∧
      withIndexedNegation.Tiles "x123" symbols := by
  intro symbols
  obtain ⟨found, hfound, htiles⟩ :=
    (tokenize_tiles withIndexedNegation "x123").2.2 _ result_tokenize_indexed
  obtain rfl : symbols = found := List.append_cancel_right (List.cons.inj hfound).2
  exact ⟨result_tokenize_indexed, htiles⟩

/-- A number need not be a maximal run of digits. In `x123` the first digit is part of
the sign, and the number is read from the other two. -/
theorem not_forall_maximal_digits :
    ¬ ∀ (catalog : Catalog) (source : String) (symbols : List Symbol),
      (catalog.tokenize source).result = .ok (.start :: symbols ++ [.finish]) →
        ∀ before value length after, symbols = before ++ .number value length :: after →
          ∀ front digits rest, source.toList = front ++ digits ++ rest →
            byteCount front = byteLength before → byteCount digits = length →
              IsNumeral digits ∧ EndsDigits rest ∧ ∀ c ∈ front.getLast?, c.isDigit = false := by
  intro hall
  obtain ⟨-, -, hbegin⟩ :=
    hall withIndexedNegation "x123" _ result_tokenize_indexed [.operator indexedNegation 2] 23 2 []
      rfl ['x', '1'] ['2', '3'] [] rfl rfl rfl
  exact absurd (hbegin '1' rfl) (by decide)

end Catalog

end Calculator
