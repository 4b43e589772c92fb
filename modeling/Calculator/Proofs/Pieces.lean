import Calculator.Proofs.Balance

/-!
A list of symbols as its top level sees it: bracket pairs with what they enclose
are taken together, everything else stands alone. Every list is made of such
pieces in exactly one way, whether its brackets match or not. Cutting a list at
a lone piece leaves the pieces on both sides as they were, and both scan
directions visit exactly the lone pieces.
-/

namespace Calculator

/-- An entry of a list lies before, at or after another one. -/
theorem append_cons_cases {α : Type} {before after left right : List α} {entry middle : α}
    (h : left ++ middle :: right = before ++ entry :: after) :
    (∃ inner, left = before ++ entry :: inner ∧ after = inner ++ middle :: right) ∨
      (before = left ∧ entry = middle ∧ after = right) ∨
      ∃ inner, right = inner ++ entry :: after ∧ before = left ++ middle :: inner := by
  rcases List.append_eq_append_iff.mp h with ⟨shared, rfl, hshared⟩ | ⟨shared, rfl, hshared⟩
  · rcases List.cons_eq_append_iff.mp hshared with ⟨rfl, hhead⟩ | ⟨inner, rfl, hinner⟩
    · obtain ⟨rfl, rfl⟩ := List.cons.inj hhead
      exact Or.inr (Or.inl ⟨by simp, rfl, rfl⟩)
    · exact Or.inr (Or.inr ⟨inner, hinner, rfl⟩)
  · rcases List.cons_eq_append_iff.mp hshared with ⟨rfl, hhead⟩ | ⟨inner, rfl, hinner⟩
    · obtain ⟨rfl, rfl⟩ := List.cons.inj hhead
      exact Or.inr (Or.inl ⟨by simp, rfl, rfl⟩)
    · exact Or.inl ⟨inner, rfl, hinner⟩

/-- A symbol outside all bracket pairs, or an outermost pair with its inside. -/
inductive Piece where
  | lone (symbol : Symbol)
  | group (first : Symbol) (inside : List Symbol) (last : Symbol)
  deriving DecidableEq

namespace Piece

def symbols : Piece → List Symbol
  | .lone symbol => [symbol]
  | .group first inside last => first :: (inside ++ [last])

def loneSide? : Piece → Option Side
  | .lone symbol => symbol.side?
  | .group .. => none

def join (pieces : List Piece) : List Symbol := pieces.flatMap symbols

@[simp] theorem join_nil : join [] = [] := rfl

@[simp] theorem join_lone (symbol : Symbol) (rest : List Piece) :
    join (.lone symbol :: rest) = symbol :: join rest := rfl

@[simp] theorem join_group (first last : Symbol) (inside : List Symbol) (rest : List Piece) :
    join (.group first inside last :: rest) = first :: (inside ++ last :: join rest) := by
  simp [join, symbols]

@[simp] theorem join_append (before after : List Piece) :
    join (before ++ after) = join before ++ join after := by
  simp [join]

theorem join_eq_nil {pieces : List Piece} (h : join pieces = []) : pieces = [] := by
  cases pieces with
  | nil => rfl
  | cons piece rest => cases piece <;> simp at h

/-- Whether the piece can be passed over while the end of a span is looked for. -/
def keepsOpen (piece : Piece) : Bool := piece.loneSide? ≠ some .closing

theorem keepsOpen_iff {piece : Piece} :
    piece.keepsOpen = true ↔ piece.loneSide? ≠ some .closing := decide_eq_true_iff

/-- Puts a symbol in front. An opening bracket is paired up with the first lone
closing bracket, and what stands between them becomes their inside. -/
def prepend (symbol : Symbol) (pieces : List Piece) : List Piece :=
  match symbol.side?, pieces.dropWhile keepsOpen with
  | some .opening, .lone last :: rest =>
      .group symbol (join (pieces.takeWhile keepsOpen)) last :: rest
  | _, _ => .lone symbol :: pieces

theorem prepend_of_ne_opening {symbol : Symbol} (h : symbol.side? ≠ some .opening)
    (pieces : List Piece) : prepend symbol pieces = .lone symbol :: pieces := by
  unfold prepend
  split
  · contradiction
  · rfl

/-- Without a lone closing bracket there is no partner. -/
theorem prepend_of_open {pieces : List Piece} (h : ∀ piece ∈ pieces, piece.keepsOpen = true)
    (symbol : Symbol) : prepend symbol pieces = .lone symbol :: pieces := by
  have hnone : pieces.dropWhile keepsOpen = [] := by
    rw [← List.append_nil pieces, List.dropWhile_append_of_pos h, List.dropWhile_nil]
  unfold prepend
  split
  · rename_i hsome
    rw [hnone] at hsome
    contradiction
  · rfl

theorem prepend_opening {first last : Symbol} {between rest : List Piece}
    (hfirst : first.side? = some .opening) (hlast : last.side? = some .closing)
    (hbetween : ∀ piece ∈ between, piece.keepsOpen = true) :
    prepend first (between ++ .lone last :: rest) = .group first (join between) last :: rest := by
  have hstop : (Piece.lone last).keepsOpen = false := by simp [keepsOpen, loneSide?, hlast]
  have hdrop : (between ++ .lone last :: rest).dropWhile keepsOpen = .lone last :: rest := by
    rw [List.dropWhile_append_of_pos hbetween, List.dropWhile_cons_of_neg (by simp [hstop])]
  have htake : (between ++ .lone last :: rest).takeWhile keepsOpen = between := by
    rw [List.takeWhile_append_of_pos hbetween, List.takeWhile_cons_of_neg (by simp [hstop]),
      List.append_nil]
  unfold prepend
  rw [hfirst, hdrop, htake]

theorem exists_of_loneSide?_eq_some {piece : Piece} {side : Side}
    (h : piece.loneSide? = some side) :
    ∃ symbol, piece = .lone symbol ∧ symbol.side? = some side := by
  cases piece with
  | lone symbol => exact ⟨symbol, rfl, h⟩
  | group first inside last => simp [loneSide?] at h

/-- Either no piece ends a span, or there is a first lone closing bracket. -/
theorem exists_first_closing (pieces : List Piece) :
    (∀ piece ∈ pieces, piece.keepsOpen = true) ∨
      ∃ between last rest, pieces = between ++ .lone last :: rest ∧
        last.side? = some .closing ∧ ∀ piece ∈ between, piece.keepsOpen = true := by
  induction pieces with
  | nil => exact Or.inl (by simp)
  | cons piece rest ih =>
      by_cases hkeeps : piece.keepsOpen = true
      · rcases ih with hall | ⟨between, last, others, rfl, hlast, hbetween⟩
        · exact Or.inl (List.forall_mem_cons.mpr ⟨hkeeps, hall⟩)
        · exact Or.inr ⟨piece :: between, last, others, rfl, hlast,
            List.forall_mem_cons.mpr ⟨hkeeps, hbetween⟩⟩
      · have hcloses : piece.loneSide? = some .closing := by
          simpa [keepsOpen] using hkeeps
        obtain ⟨last, rfl, hlast⟩ := exists_of_loneSide?_eq_some hcloses
        exact Or.inr ⟨[], last, rest, rfl, hlast, by simp⟩

/-- A new symbol either stands alone, and then nothing could close it, or takes
the pieces up to the first lone closing bracket into a group. -/
theorem prepend_cases (symbol : Symbol) (pieces : List Piece) :
    (prepend symbol pieces = .lone symbol :: pieces ∧
      (symbol.side? = some .opening → ∀ piece ∈ pieces, piece.keepsOpen = true)) ∨
    ∃ between last rest, pieces = between ++ .lone last :: rest ∧
      symbol.side? = some .opening ∧ last.side? = some .closing ∧
      (∀ piece ∈ between, piece.keepsOpen = true) ∧
      prepend symbol pieces = .group symbol (join between) last :: rest := by
  by_cases hopening : symbol.side? = some .opening
  · rcases exists_first_closing pieces with hall | ⟨between, last, rest, rfl, hlast, hbetween⟩
    · exact Or.inl ⟨prepend_of_open hall symbol, fun _ => hall⟩
    · exact Or.inr ⟨between, last, rest, rfl, hopening, hlast, hbetween,
        prepend_opening hopening hlast hbetween⟩
  · exact Or.inl ⟨prepend_of_ne_opening hopening pieces, fun h => absurd h hopening⟩

/-- The pieces of a list whose brackets match as far as they can: groups are
balanced inside, and no lone bracket faces a later lone bracket. -/
structure IsNormal (opener : Side) (pieces : List Piece) : Prop where
  groups : ∀ first inside last, Piece.group first inside last ∈ pieces →
    first.side? = some opener ∧ Balanced opener inside ∧ last.side? = some opener.facing
  apart : pieces.Pairwise fun earlier later =>
    earlier.loneSide? = some opener → later.loneSide? ≠ some opener.facing

namespace IsNormal

variable {opener : Side} {piece : Piece} {before after rest : List Piece}

theorem nil : IsNormal opener [] := ⟨by simp, List.Pairwise.nil⟩

theorem sublist (h : IsNormal opener after) (hsub : before.Sublist after) :
    IsNormal opener before :=
  ⟨fun first inside last member => h.groups first inside last (hsub.subset member),
    h.apart.sublist hsub⟩

theorem left (h : IsNormal opener (before ++ after)) : IsNormal opener before :=
  h.sublist (List.sublist_append_left before after)

theorem right (h : IsNormal opener (before ++ after)) : IsNormal opener after :=
  h.sublist (List.sublist_append_right before after)

theorem tail (h : IsNormal opener (piece :: rest)) : IsNormal opener rest :=
  h.sublist (List.sublist_cons_self piece rest)

theorem cons_lone {symbol : Symbol} (h : IsNormal opener rest)
    (happart : symbol.side? = some opener →
      ∀ piece ∈ rest, piece.loneSide? ≠ some opener.facing) :
    IsNormal opener (.lone symbol :: rest) where
  groups first inside last member := by
    rcases List.mem_cons.mp member with same | later
    · cases same
    · exact h.groups first inside last later
  apart := by
    refine List.pairwise_cons.mpr ⟨?_, h.apart⟩
    intro piece member hside
    exact happart hside piece member

theorem cons_group {first last : Symbol} {inside : List Symbol} (h : IsNormal opener rest)
    (hfirst : first.side? = some opener) (hinside : Balanced opener inside)
    (hlast : last.side? = some opener.facing) :
    IsNormal opener (.group first inside last :: rest) where
  groups first' inside' last' member := by
    rcases List.mem_cons.mp member with same | later
    · cases same
      exact ⟨hfirst, hinside, hlast⟩
    · exact h.groups first' inside' last' later
  apart := by
    refine List.pairwise_cons.mpr ⟨?_, h.apart⟩
    intro piece member hside
    simp [loneSide?] at hside

/-- A lone bracket at the head that opens is faced by no later lone bracket. -/
theorem head_apart {symbol : Symbol} (h : IsNormal opener (.lone symbol :: rest))
    (hside : symbol.side? = some opener) :
    ∀ piece ∈ rest, piece.loneSide? ≠ some opener.facing :=
  fun piece member => (List.pairwise_cons.mp h.apart).1 piece member hside

/-- Without lone brackets the symbols are balanced. -/
theorem balanced_join (h : IsNormal opener before)
    (hbefore : ∀ piece ∈ before, piece.loneSide? = none) : Balanced opener (join before) := by
  induction before with
  | nil => exact .nil
  | cons piece rest ih =>
      have hrest := ih h.tail fun other member => hbefore other (List.mem_cons_of_mem _ member)
      cases piece with
      | lone symbol => exact .plain (hbefore (.lone symbol) List.mem_cons_self) hrest
      | group first inside last =>
          obtain ⟨hfirst, hinside, hlast⟩ := h.groups first inside last List.mem_cons_self
          rw [join_group]
          exact .span hfirst hinside hlast hrest

/-- Before the first lone closing bracket there is no lone bracket at all. -/
theorem balanced_join_left {last : Symbol} (h : IsNormal .opening (before ++ .lone last :: rest))
    (hlast : last.side? = some .closing) (hbefore : ∀ piece ∈ before, piece.keepsOpen = true) :
    Balanced .opening (join before) := by
  apply h.left.balanced_join
  intro piece member
  have hopen := keepsOpen_iff.mp (hbefore piece member)
  have happart := (List.pairwise_append.mp h.apart).2.2 piece member (.lone last)
    List.mem_cons_self
  cases hside : piece.loneSide? with
  | none => rfl
  | some side =>
      cases side with
      | opening => exact absurd hlast (happart hside)
      | closing => exact absurd hside hopen

/-- Putting a symbol in front keeps the pieces normal. -/
theorem prepend (h : IsNormal .opening rest) (symbol : Symbol) :
    IsNormal .opening (Piece.prepend symbol rest) := by
  rcases prepend_cases symbol rest with ⟨hlone, hopen⟩ |
    ⟨between, last, others, rfl, hopening, hclosing, hbetween, hgroup⟩
  · rw [hlone]
    apply h.cons_lone
    intro hside piece member
    simpa [keepsOpen, Side.facing] using hopen hside piece member
  · rw [hgroup]
    exact h.right.tail.cons_group hopening (h.balanced_join_left hclosing hbetween) hclosing

end IsNormal

end Piece

def pieces : List Symbol → List Piece
  | [] => []
  | symbol :: rest => Piece.prepend symbol (pieces rest)

namespace Piece

@[simp] theorem pieces_nil : pieces [] = [] := rfl

theorem pieces_cons (symbol : Symbol) (rest : List Symbol) :
    pieces (symbol :: rest) = prepend symbol (pieces rest) := rfl

@[simp] theorem pieces_singleton (symbol : Symbol) : pieces [symbol] = [.lone symbol] :=
  prepend_of_open (by simp) symbol

theorem pieces_operator_cons (entry : Operator) (length : Nat) (rest : List Symbol) :
    pieces (.operator entry length :: rest) = .lone (.operator entry length) :: pieces rest :=
  prepend_of_ne_opening (by simp [Symbol.side?]) (pieces rest)

theorem join_prepend (symbol : Symbol) (rest : List Piece) :
    join (prepend symbol rest) = symbol :: join rest := by
  rcases prepend_cases symbol rest with ⟨hlone, -⟩ | ⟨between, last, others, rfl, -, -, -, hgroup⟩
  · rw [hlone, join_lone]
  · rw [hgroup, join_group, join_append, join_lone]

@[simp] theorem join_pieces (symbols : List Symbol) : join (pieces symbols) = symbols := by
  induction symbols with
  | nil => rfl
  | cons symbol rest ih => rw [pieces_cons, join_prepend, ih]

theorem isNormal_pieces (symbols : List Symbol) : IsNormal .opening (pieces symbols) := by
  induction symbols with
  | nil => exact .nil
  | cons symbol rest ih => exact ih.prepend symbol

/-- A bracket pair around pieces without lone brackets is one group. -/
theorem pieces_pair {first last : Symbol} {inside others : List Symbol}
    (hfirst : first.side? = some .opening) (hlast : last.side? = some .closing)
    (happend : pieces (inside ++ last :: others) = pieces inside ++ pieces (last :: others))
    (hinside : ∀ piece ∈ pieces inside, piece.loneSide? = none) :
    pieces (first :: (inside ++ last :: others)) = .group first inside last :: pieces others := by
  have hopen : ∀ piece ∈ pieces inside, piece.keepsOpen = true := by
    intro piece member
    simp [keepsOpen, hinside piece member]
  have hne : last.side? ≠ some .opening := by simp [hlast]
  rw [pieces_cons, happend, pieces_cons, prepend_of_ne_opening hne,
    prepend_opening hfirst hlast hopen, join_pieces]

/-- A balanced list in front contributes its own pieces, none of them a lone
bracket. -/
theorem pieces_balanced_append {symbols : List Symbol} (h : Balanced .opening symbols)
    (others : List Symbol) :
    pieces (symbols ++ others) = pieces symbols ++ pieces others ∧
      ∀ piece ∈ pieces symbols, piece.loneSide? = none := by
  induction h generalizing others with
  | nil => simp
  | @plain symbol rest hplain _ ih =>
      obtain ⟨happend, hrest⟩ := ih others
      have hne : symbol.side? ≠ some .opening := by simp [hplain]
      rw [List.cons_append, pieces_cons, pieces_cons, prepend_of_ne_opening hne,
        prepend_of_ne_opening hne, happend]
      refine ⟨rfl, ?_⟩
      intro piece member
      rcases List.mem_cons.mp member with rfl | later
      · exact hplain
      · exact hrest piece later
  | @span first last inside rest hfirst _ hlast _ ihinside ihrest =>
      have hgroup (tail : List Symbol) : pieces (first :: (inside ++ last :: tail)) =
          .group first inside last :: pieces tail :=
        pieces_pair hfirst hlast (ihinside (last :: tail)).1 (ihinside []).2
      obtain ⟨happend, hrest⟩ := ihrest others
      rw [List.cons_append, List.append_assoc, List.cons_append, hgroup, hgroup, happend]
      refine ⟨rfl, ?_⟩
      intro piece member
      rcases List.mem_cons.mp member with rfl | later
      · rfl
      · exact hrest piece later

/-- An operator symbol after a balanced list parts the pieces. -/
theorem pieces_balanced_operator {left : List Symbol} (h : Balanced .opening left)
    (entry : Operator) (length : Nat) (right : List Symbol) :
    pieces (left ++ .operator entry length :: right) =
      pieces left ++ .lone (.operator entry length) :: pieces right := by
  rw [(pieces_balanced_append h _).1, pieces_operator_cons]

theorem pieces_group_append {first last : Symbol} {inside : List Symbol}
    (hfirst : first.side? = some .opening) (hinside : Balanced .opening inside)
    (hlast : last.side? = some .closing) (others : List Symbol) :
    pieces (first :: (inside ++ last :: others)) = .group first inside last :: pieces others :=
  pieces_pair hfirst hlast (pieces_balanced_append hinside (last :: others)).1
    (pieces_balanced_append hinside []).2

theorem eq_bracket_of_side? {symbol : Symbol} {side : Side} (h : symbol.side? = some side) :
    ∃ pair length, symbol = .bracket pair side length := by
  cases symbol with
  | bracket pair found length =>
      cases h
      exact ⟨pair, length, rfl⟩
  | _ => cases h

/-- A single group is a bracket pair around a balanced list. -/
theorem eq_of_pieces_eq_group {symbols inside : List Symbol} {first last : Symbol}
    (h : pieces symbols = [.group first inside last]) :
    ∃ pair firstLength pair' lastLength, first = .bracket pair .opening firstLength ∧
      last = .bracket pair' .closing lastLength ∧ Balanced .opening inside ∧
      symbols = first :: (inside ++ [last]) := by
  have hmember : Piece.group first inside last ∈ pieces symbols := by simp [h]
  obtain ⟨hfirst, hinside, hlast⟩ := (isNormal_pieces symbols).groups first inside last hmember
  obtain ⟨pair, firstLength, hopening⟩ := eq_bracket_of_side? hfirst
  obtain ⟨pair', lastLength, hclosing⟩ := eq_bracket_of_side? hlast
  refine ⟨pair, firstLength, pair', lastLength, hopening, hclosing, hinside, ?_⟩
  rw [← join_pieces symbols, h, join_group, join_nil]

/-- A list is made of pieces in one way only. -/
theorem pieces_join {parts : List Piece} (h : IsNormal .opening parts) :
    pieces (join parts) = parts := by
  induction parts with
  | nil => rfl
  | cons piece rest ih =>
      cases piece with
      | lone symbol =>
          rw [join_lone, pieces_cons, ih h.tail]
          by_cases hopening : symbol.side? = some .opening
          · apply prepend_of_open
            intro other member
            simpa [keepsOpen, Side.facing] using h.head_apart hopening other member
          · exact prepend_of_ne_opening hopening rest
      | group first inside last =>
          obtain ⟨hfirst, hinside, hlast⟩ := h.groups first inside last List.mem_cons_self
          rw [join_group, pieces_group_append hfirst hinside hlast, ih h.tail]

/-- A symbol that is no bracket stands alone at the end of any list. -/
theorem pieces_append_plain {symbol : Symbol} (h : symbol.side? = none) (rest : List Symbol) :
    pieces (rest ++ [symbol]) = pieces rest ++ [.lone symbol] := by
  have hrest := isNormal_pieces rest
  have hnormal : IsNormal .opening (pieces rest ++ [.lone symbol]) := by
    constructor
    · intro first inside last member
      exact hrest.groups first inside last (by simpa using member)
    · refine List.pairwise_append.mpr ⟨hrest.apart, List.pairwise_singleton _ _, ?_⟩
      intro earlier _ later member _
      simp [List.mem_singleton.mp member, loneSide?, h]
  have hjoin := pieces_join hnormal
  rwa [join_append, join_pieces, join_lone, join_nil] at hjoin

end Piece

end Calculator
