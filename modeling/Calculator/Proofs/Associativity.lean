import Calculator.Catalog.Standard
import Calculator.Proofs.Evaluation

/-!
Chains of one operator. The operands are numbers and bracket pairs, so outside
brackets there is nothing but the operator. A scan from the right takes off the
last operand and a scan from the left the first one, and what remains is a
shorter chain. In every catalog in which no other operator has its operation, a
chain therefore folds in the direction that the operator declares.
-/

namespace Calculator

open Piece

namespace Catalog

inductive Operand (catalog : Catalog) : List Symbol → Float → Prop where
  | number (value : Float) (length : Nat) : Operand catalog [.number value length] value
  | group (first last : BracketPair) (firstLength lastLength : Nat) {inside : List Symbol}
      {value : Float} (hinside : (catalog.evaluateFrom 0 inside).result = .ok value) :
      Operand catalog
        (.bracket first .opening firstLength :: (inside ++ [.bracket last .closing lastLength]))
        value

/-- An operand of a chain and its value. -/
structure Term (catalog : Catalog) where
  symbols : List Symbol
  value : Float
  operand : catalog.Operand symbols value

structure Link (catalog : Catalog) (o : Operator) where
  entry : Operator
  length : Nat
  term : catalog.Term
  operation_eq : entry.operation = o.operation

def Link.symbols {catalog : Catalog} {o : Operator} (link : catalog.Link o) : List Symbol :=
  .operator link.entry link.length :: link.term.symbols

def Term.chain {catalog : Catalog} {o : Operator} (first : catalog.Term)
    (links : List (catalog.Link o)) : List Symbol :=
  first.symbols ++ links.flatMap Link.symbols

end Catalog

def Operator.foldLeft (o : Operator) (first : Float) (values : List Float) :
    Except EvalError Float :=
  values.foldlM (fun total value => o.apply (.binary total value)) first

def Operator.foldRight (o : Operator) : Float → List Float → Except EvalError Float
  | first, [] => .ok first
  | first, second :: rest => do
      let total ← o.foldRight second rest
      o.apply (.binary first total)

/-- A balanced list with nothing outside brackets but numbers and symbols with
the operation of `o`. -/
structure IsChain (o : Operator) (symbols : List Symbol) : Prop where
  ne_nil : symbols ≠ []
  balanced : Balanced .opening symbols
  lones : ∀ symbol, .lone symbol ∈ pieces symbols →
    (∃ value length, symbol = .number value length) ∨
      ∃ entry length, symbol = .operator entry length ∧ entry.operation = o.operation

namespace IsChain

variable {o entry : Operator} {symbols left right : List Symbol}

theorem operation_eq (h : IsChain o symbols) {piece : Piece} (hpiece : piece ∈ pieces symbols)
    (hentry : piece.operator? = some entry) : entry.operation = o.operation := by
  obtain ⟨length, rfl⟩ := eq_lone_of_operator? hentry
  rcases h.lones _ hpiece with ⟨_, _, hnumber⟩ | ⟨_, _, hsame, hoperation⟩
  · cases hnumber
  · cases hsame
    exact hoperation

theorem dropSentinels_eq (h : IsChain o symbols) : dropSentinels symbols = symbols := by
  obtain ⟨before, after, hpieces, hbefore, hafter⟩ := exists_pieces_eq_dropSentinels symbols
  have hfront : before = [] := by
    refine hbefore.resolve_right fun hstart => ?_
    simpa using h.lones .start (by simp [hpieces, hstart])
  have hback : after = [] := by
    refine hafter.resolve_right fun hfinish => ?_
    simpa using h.lones .finish (by simp [hpieces, hfinish])
  rw [hfront, hback, List.nil_append, List.append_nil] at hpieces
  rw [← join_pieces (dropSentinels symbols), ← hpieces, join_pieces]

/-- Two chains with the operator between them are a chain. -/
theorem between (hleft : IsChain o left) (hright : IsChain o right)
    (hentry : entry.operation = o.operation) (length : Nat) :
    IsChain o (left ++ .operator entry length :: right) where
  ne_nil := by simp
  balanced := hleft.balanced.append (.plain rfl hright.balanced)
  lones := by
    rw [pieces_balanced_operator hleft.balanced]
    intro symbol member
    rcases List.mem_append.mp member with inLeft | atRoot
    · exact hleft.lones symbol inLeft
    · rcases List.mem_cons.mp atRoot with hroot | inRight
      · cases hroot
        exact Or.inr ⟨entry, length, rfl, hentry⟩
      · exact hright.lones symbol inRight

end IsChain

namespace Catalog

variable {catalog : Catalog} {o entry : Operator} {symbols left right : List Symbol}
  {loosest : Nat} {value : Float}

theorem Operand.exists_piece (h : catalog.Operand symbols value) :
    ∃ piece, pieces symbols = [piece] ∧ piece.operator? = none := by
  cases h with
  | number value length => exact ⟨_, pieces_singleton _, rfl⟩
  | group first last firstLength lastLength hinside =>
      exact ⟨_, pieces_group_append rfl (result_eq_ok_iff.mp hinside).balanced rfl [], rfl⟩

theorem Operand.not_occursIn (h : catalog.Operand symbols value) (o : Operator) :
    ¬ o.OccursIn (pieces symbols) := by
  obtain ⟨piece, hpieces, hplain⟩ := h.exists_piece
  rw [hpieces]
  simp [Operator.OccursIn, hplain]

theorem Operand.isChain (h : catalog.Operand symbols value) (o : Operator) : IsChain o symbols := by
  cases h with
  | number value length =>
      refine ⟨by simp, .plain rfl .nil, fun symbol member => Or.inl ⟨value, length, ?_⟩⟩
      simpa using member
  | group first last firstLength lastLength hinside =>
      have hbalanced := (result_eq_ok_iff.mp hinside).balanced
      refine ⟨by simp, .wrap rfl hbalanced rfl, fun symbol member => ?_⟩
      rw [pieces_group_append rfl hbalanced rfl []] at member
      simp at member

theorem Operand.result (h : catalog.Operand symbols value) (loosest : Nat) :
    (catalog.evaluateFrom loosest symbols).result = .ok value := by
  -- An operand is a chain of any operator, with none of its symbols in it.
  have hdrop := (h.isChain .addition).dropSentinels_eq
  cases h with
  | number value length => exact result_of_single hdrop
  | group first last firstLength lastLength hinside =>
      have hgroup : pieces (.bracket first .opening firstLength ::
          (_ ++ [.bracket last .closing lastLength])) = [.group _ _ _] :=
        pieces_group_append rfl (result_eq_ok_iff.mp hinside).balanced rfl []
      rw [← hdrop] at hgroup
      rw [result_of_group hgroup, hinside]

/-- An operator that takes two operands and has its operation alone in the
catalog. -/
structure Chains (catalog : Catalog) (o : Operator) : Prop where
  declared : o ∈ catalog.operators
  arity_eq : o.arity = 2
  placement_eq : o.placement = .between
  unique : ∀ other ∈ catalog.operators, other.operation = o.operation → other = o

/-- A chain is evaluated around the occurrence that a scan for the operator meets
first. -/
theorem Chains.result_between (h : catalog.Chains o) (hloosest : loosest ≤ o.precedence)
    (hleft : IsChain o left) (hright : IsChain o right)
    (hentry : entry.operation = o.operation) (length : Nat)
    (hfirst : o.MeetsFirst (pieces left) (pieces right)) :
    (catalog.evaluateFrom loosest (left ++ .operator entry length :: right)).result = (do
      let first ← (catalog.evaluateFrom o.precedence left).result
      let second ← (catalog.evaluateFrom o.precedence right).result
      o.apply (.binary first second)) := by
  have hwhole := hleft.between hright hentry length
  have hparts := pieces_balanced_operator hleft.balanced entry length right
  have hdefect : o.defect? = none :=
    Operator.defect?_eq_none_iff.mpr (Or.inr ⟨h.arity_eq, h.placement_eq⟩)
  have haccepts : o.Accepts (pieces left) (pieces right) := by
    simpa only [Operator.Accepts, h.placement_eq] using hfirst
  have hcut : o.cut? (left ++ .operator entry length :: right) =
      some (.ok ⟨o, left, entry, right⟩) :=
    Operator.cut?_eq_ok_iff.mpr ⟨hdefect, pieces left, entry, pieces right,
      ⟨⟨length, hparts⟩, hentry⟩, haccepts, by rw [join_pieces, join_pieces]⟩
  have hunique : ∀ other ∈ catalog.operators,
      other.OccursIn (pieces (left ++ .operator entry length :: right)) → other = o := by
    rintro other hother ⟨piece, member, found, hfound, hoperation⟩
    exact h.unique other hother
      (hoperation.symm.trans (hwhole.operation_eq member hfound))
  rw [result_of_cut? hwhole.dropSentinels_eq hparts
    (Or.inl fun hnil => hleft.ne_nil (by rw [← join_pieces left, hnil, join_nil]))
    (cut?_eq_of_unique h.declared hloosest hcut hunique)]
  simp only [resultAround, h.placement_eq]

/-- What has been read of a chain from the left has the value of the fold so far,
and every link adds its operand to it. -/
theorem Chains.result_foldLeft (h : catalog.Chains o) (hassociativity : o.associativity = .left)
    {total : Except EvalError Float} (hsymbols : IsChain o symbols)
    (htotal : ∀ precedence, precedence ≤ o.precedence →
      (catalog.evaluateFrom precedence symbols).result = total)
    (links : List (catalog.Link o)) (hloosest : loosest ≤ o.precedence) :
    (catalog.evaluateFrom loosest (symbols ++ links.flatMap Link.symbols)).result =
      total >>= fun value => o.foldLeft value (links.map (·.term.value)) := by
  -- The links move one by one into the part that has been read.
  induction links generalizing symbols total with
  | nil =>
      rw [List.flatMap_nil, List.append_nil, htotal loosest hloosest]
      cases total <;> rfl
  | cons link rest ih =>
      have hlast := link.term.operand.isChain o
      have hchain : IsChain o (symbols ++ link.symbols) :=
        hsymbols.between hlast link.operation_eq link.length
      have hfirst : o.MeetsFirst (pieces symbols) (pieces link.term.symbols) := by
        rw [Operator.MeetsFirst, if_pos (by simp [Operator.groupsFromLeft, h.arity_eq,
          hassociativity])]
        exact link.term.operand.not_occursIn o
      have hlonger (precedence : Nat) (hle : precedence ≤ o.precedence) :
          (catalog.evaluateFrom precedence (symbols ++ link.symbols)).result =
            total >>= fun value => o.apply (.binary value link.term.value) := by
        rw [Link.symbols, h.result_between hle hsymbols hlast link.operation_eq link.length hfirst,
          htotal _ (Nat.le_refl _), link.term.operand.result]
        rfl
      rw [List.flatMap_cons, ← List.append_assoc, ih hchain hlonger]
      cases total <;> rfl

theorem Term.isChain (first : catalog.Term) (links : List (catalog.Link o)) :
    IsChain o (first.chain links) := by
  induction links generalizing first with
  | nil => simpa [chain] using first.operand.isChain o
  | cons link rest ih =>
      exact (first.operand.isChain o).between (ih link.term) link.operation_eq link.length

/-- Without the first operand and the operator behind it, a chain is a shorter
chain. -/
theorem Chains.result_foldRight (h : catalog.Chains o) (hassociativity : o.associativity ≠ .left)
    (first : catalog.Term) (links : List (catalog.Link o)) (hloosest : loosest ≤ o.precedence) :
    (catalog.evaluateFrom loosest (first.chain links)).result =
      o.foldRight first.value (links.map (·.term.value)) := by
  induction links generalizing first loosest with
  | nil =>
      rw [Term.chain, List.flatMap_nil, List.append_nil, first.operand.result]
      rfl
  | cons link rest ih =>
      have hfirst : o.MeetsFirst (pieces first.symbols) (pieces (link.term.chain rest)) := by
        rw [Operator.MeetsFirst, if_neg (by simp [Operator.groupsFromLeft, hassociativity])]
        exact first.operand.not_occursIn o
      have hchain : first.chain (link :: rest) =
          first.symbols ++ .operator link.entry link.length :: link.term.chain rest := rfl
      rw [hchain, h.result_between hloosest (first.operand.isChain o) (link.term.isChain rest)
        link.operation_eq link.length hfirst, first.operand.result, ih _ (Nat.le_refl _)]
      rfl

/-- In every catalog in which an operator has its operation alone, a chain of it
folds from the left if the operator groups from the left, and from the right
otherwise. The first application that fails ends the fold. -/
theorem chain_folds_as_declared (catalog : Catalog) (o : Operator) (h : catalog.Chains o)
    (loosest : Nat) (hloosest : loosest ≤ o.precedence) (first : catalog.Term)
    (links : List (catalog.Link o)) :
    (o.associativity = .left →
      (catalog.evaluateFrom loosest (first.chain links)).result =
        o.foldLeft first.value (links.map (·.term.value))) ∧
    (o.associativity ≠ .left →
      (catalog.evaluateFrom loosest (first.chain links)).result =
        o.foldRight first.value (links.map (·.term.value))) := by
  refine ⟨fun hassociativity => ?_, fun hassociativity => ?_⟩
  · exact h.result_foldLeft hassociativity (first.operand.isChain o)
      (fun precedence _ => first.operand.result precedence) links hloosest
  · exact h.result_foldRight hassociativity first links hloosest

/-- The chains `2^(3)^2` and `2-(3)-2`, whose second operand stands in brackets. -/
theorem chain_folds_as_declared_standard :
    let pair := standardBrackets[0]
    let chain (o : Operator) : List Symbol :=
      [.number 2 1, .operator o 1, .bracket pair .opening 1, .number 3 1,
        .bracket pair .closing 1, .operator o 1, .number 2 1]
    (standard.Chains .exponentiation ∧ 0 ≤ Operator.exponentiation.precedence ∧
      Operator.exponentiation.associativity ≠ .left ∧
      (standard.evaluateFrom 0 (chain .exponentiation)).result =
        Operator.exponentiation.foldRight 2 [3, 2]) ∧
    (standard.Chains .subtraction ∧ 0 ≤ Operator.subtraction.precedence ∧
      Operator.subtraction.associativity = .left ∧
      (standard.evaluateFrom 0 (chain .subtraction)).result =
        Operator.subtraction.foldLeft 2 [3, 2]) := by
  intro pair chain
  have hpowers : standard.Chains .exponentiation := ⟨by decide, rfl, rfl, by decide⟩
  have hdifferences : standard.Chains .subtraction := ⟨by decide, rfl, rfl, by decide⟩
  have hinside : (standard.evaluateFrom 0 [.number 3 1]).result = .ok 3 :=
    (Operand.number 3 1).result 0
  let two : standard.Term := ⟨[.number 2 1], 2, .number 2 1⟩
  let three : standard.Term := ⟨_, 3, .group pair pair 1 1 hinside⟩
  let links (o : Operator) : List (standard.Link o) := [⟨o, 1, three, rfl⟩, ⟨o, 1, two, rfl⟩]
  have hright : Operator.exponentiation.associativity ≠ .left := by decide
  have hleft : Operator.subtraction.associativity = .left := rfl
  constructor
  · exact ⟨hpowers, Nat.zero_le _, hright,
      (chain_folds_as_declared standard _ hpowers 0 (Nat.zero_le _) two (links _)).2 hright⟩
  · exact ⟨hdifferences, Nat.zero_le _, hleft,
      (chain_folds_as_declared standard _ hdifferences 0 (Nat.zero_le _) two (links _)).1 hleft⟩

end Catalog

end Calculator
