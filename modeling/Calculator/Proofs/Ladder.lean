import Calculator.Proofs.Splitting

/-!
The ladder of a catalog: the operators of at least some precedence, from the
loosest to the tightest. It is the climb through the tiers of the catalog, because
a list in order of precedence is known from its tiers. A slice is cut around the
first operator of the ladder that has a cut.
-/

namespace Calculator

theorem Operator.precedence_trans (first second third : Operator)
    (hfirst : decide (first.precedence ≤ second.precedence) = true)
    (hsecond : decide (second.precedence ≤ third.precedence) = true) :
    decide (first.precedence ≤ third.precedence) = true :=
  decide_eq_true (Nat.le_trans (of_decide_eq_true hfirst) (of_decide_eq_true hsecond))

theorem Operator.precedence_total (first second : Operator) :
    (decide (first.precedence ≤ second.precedence) ||
      decide (second.precedence ≤ first.precedence)) = true := by
  simpa using Nat.le_total first.precedence second.precedence

/-- Without two operators of one operation, the operation tells the operator. -/
theorem Operator.eq_of_operation_eq {operators : List Operator}
    (h : (operators.map Operator.operation).Nodup) :
    ∀ first ∈ operators, ∀ second ∈ operators,
      first.operation = second.operation → first = second := by
  have hdistinct : operators.Pairwise fun first second => first.operation ≠ second.operation :=
    List.pairwise_map.mp h
  apply List.Pairwise.forall_of_forall_of_flip
  · exact fun _ _ _ => rfl
  · exact hdistinct.imp fun hne heq => absurd heq hne
  · exact hdistinct.imp fun hne heq => absurd heq.symm hne

section Order

variable {first second : List Operator}

theorem mem_iff_of_tiers_eq (h : ∀ precedence, first.filter (·.precedence = precedence) =
    second.filter (·.precedence = precedence)) (o : Operator) : o ∈ first ↔ o ∈ second := by
  have htier : o ∈ first.filter (·.precedence = o.precedence) ↔
      o ∈ second.filter (·.precedence = o.precedence) := by
    rw [h]
  simpa [List.mem_filter] using htier

theorem precedence_le_of_mem {o other : Operator} {rest : List Operator}
    (h : (o :: rest).Pairwise fun looser tighter => looser.precedence ≤ tighter.precedence)
    (member : other ∈ o :: rest) : o.precedence ≤ other.precedence := by
  rcases List.mem_cons.mp member with rfl | later
  · exact Nat.le_refl _
  · exact (List.pairwise_cons.mp h).1 other later

/-- A list in order of precedence is known from its tiers. -/
theorem eq_of_tiers_eq
    (hfirst : first.Pairwise fun looser tighter => looser.precedence ≤ tighter.precedence)
    (hsecond : second.Pairwise fun looser tighter => looser.precedence ≤ tighter.precedence)
    (h : ∀ precedence, first.filter (·.precedence = precedence) =
      second.filter (·.precedence = precedence)) : first = second := by
  induction first generalizing second with
  | nil =>
      cases second with
      | nil => rfl
      | cons o rest =>
          exact absurd ((mem_iff_of_tiers_eq h o).mpr List.mem_cons_self) List.not_mem_nil
  | cons o rest ih =>
      cases second with
      | nil => exact absurd ((mem_iff_of_tiers_eq h o).mp List.mem_cons_self) List.not_mem_nil
      | cons o' rest' =>
          -- Each head is in the other list, so neither has the lower precedence.
          have hmember := (mem_iff_of_tiers_eq h o').mpr List.mem_cons_self
          have hmember' := (mem_iff_of_tiers_eq h o).mp List.mem_cons_self
          have hprecedence : o'.precedence = o.precedence :=
            Nat.le_antisymm (precedence_le_of_mem hsecond hmember')
              (precedence_le_of_mem hfirst hmember)
          have hhead : o = o' := by
            have htier := h o.precedence
            rw [List.filter_cons_of_pos (by simp),
              List.filter_cons_of_pos (by simp [hprecedence])] at htier
            exact (List.cons.inj htier).1
          subst hhead
          congr 1
          apply ih hfirst.tail hsecond.tail
          intro precedence
          have htier := h precedence
          by_cases hsame : o.precedence = precedence
          · rw [List.filter_cons_of_pos (by simp [hsame]),
              List.filter_cons_of_pos (by simp [hsame])] at htier
            exact (List.cons.inj htier).2
          · rwa [List.filter_cons_of_neg (by simp [hsame]),
              List.filter_cons_of_neg (by simp [hsame])] at htier

end Order

namespace Catalog

variable {catalog : Catalog} {loosest : Nat}

theorem mem_ladder {o : Operator} :
    o ∈ catalog.ladder loosest ↔ o ∈ catalog.operators ∧ loosest ≤ o.precedence := by
  rw [ladder, List.mem_mergeSort, List.mem_filter, decide_eq_true_eq]

theorem pairwise_ladder :
    (catalog.ladder loosest).Pairwise fun looser tighter =>
      looser.precedence ≤ tighter.precedence :=
  (List.pairwise_mergeSort Operator.precedence_trans Operator.precedence_total _).imp
    of_decide_eq_true

/-- Operators of one precedence keep the order of declaration. -/
theorem filter_ladder (precedence : Nat) :
    (catalog.ladder loosest).filter (·.precedence = precedence) =
      (catalog.operators.filter fun o => loosest ≤ o.precedence).filter
        (·.precedence = precedence) := by
  generalize hkept : (catalog.operators.filter fun o => loosest ≤ o.precedence) = kept
  have hties : (kept.filter (·.precedence = precedence)).Pairwise fun first second =>
      decide (first.precedence ≤ second.precedence) = true := by
    refine List.pairwise_of_forall_mem_list fun first hfirst second hsecond => ?_
    simp only [List.mem_filter, decide_eq_true_eq] at hfirst hsecond ⊢
    omega
  have hstable := (List.sublist_mergeSort Operator.precedence_trans Operator.precedence_total
    hties List.filter_sublist).filter (·.precedence = precedence)
  have hlength := ((List.mergeSort_perm kept fun looser tighter =>
    looser.precedence ≤ tighter.precedence).filter (·.precedence = precedence)).length_eq
  simp only [List.filter_filter, Bool.and_self] at hstable
  rw [ladder, hkept]
  exact (hstable.eq_of_length hlength.symm).symm

/-- The operators of a catalog by ascending precedence, those of one precedence
in the order of declaration. -/
def ranked (catalog : Catalog) : List Operator :=
  (List.range (catalog.tightest + 1)).flatMap catalog.tier

theorem precedence_le_tightest {o : Operator} (h : o ∈ catalog.operators) :
    o.precedence ≤ catalog.tightest := by
  have hfold (precedences : List Nat) (least : Nat) : least ≤ precedences.foldl max least ∧
      ∀ precedence ∈ precedences, precedence ≤ precedences.foldl max least := by
    induction precedences generalizing least with
    | nil => simp
    | cons head rest ih =>
        obtain ⟨hleast, hrest⟩ := ih (max least head)
        refine ⟨Nat.le_trans (Nat.le_max_left _ _) hleast, ?_⟩
        intro precedence member
        rcases List.mem_cons.mp member with rfl | later
        · exact Nat.le_trans (Nat.le_max_right _ _) hleast
        · exact hrest precedence later
  exact (hfold _ 0).2 _ (List.mem_map_of_mem h)

theorem mem_ranked {o : Operator} : o ∈ catalog.ranked ↔ o ∈ catalog.operators := by
  simp only [ranked, tier, List.mem_flatMap, List.mem_range, List.mem_filter, decide_eq_true_eq]
  constructor
  · rintro ⟨precedence, -, member, -⟩
    exact member
  · intro member
    exact ⟨o.precedence, Nat.lt_succ_of_le (precedence_le_tightest member), member, rfl⟩

theorem pairwise_ranked :
    catalog.ranked.Pairwise fun looser tighter => looser.precedence ≤ tighter.precedence := by
  refine List.pairwise_flatMap.mpr ⟨fun precedence _ => ?_, ?_⟩
  · refine List.pairwise_of_forall_mem_list ?_
    intro looser hlooser tighter htighter
    simp only [tier, List.mem_filter, decide_eq_true_eq] at hlooser htighter
    omega
  · refine List.pairwise_lt_range.imp ?_
    intro low high hlt looser hlooser tighter htighter
    simp only [tier, List.mem_filter, decide_eq_true_eq] at hlooser htighter
    omega

theorem filter_tier (other precedence : Nat) :
    (catalog.tier other).filter (·.precedence = precedence) =
      if other = precedence then catalog.tier precedence else [] := by
  unfold tier
  rw [List.filter_filter]
  split
  · rename_i hsame
    simp [hsame]
  · rename_i hother
    refine List.filter_eq_nil_iff.mpr fun o _ => ?_
    simp only [Bool.and_eq_true, decide_eq_true_eq]
    omega

theorem filter_ranked (precedence : Nat) :
    catalog.ranked.filter (·.precedence = precedence) = catalog.tier precedence := by
  have hrange (count : Nat) :
      ((List.range count).flatMap catalog.tier).filter (·.precedence = precedence) =
        if precedence < count then catalog.tier precedence else [] := by
    induction count with
    | zero => rfl
    | succ count ih =>
        rw [List.range_succ, List.flatMap_append, List.flatMap_singleton, List.filter_append, ih,
          filter_tier]
        by_cases hlast : count = precedence
        · simp [hlast]
        · simp [hlast, show precedence < count + 1 ↔ precedence < count by omega]
  rw [ranked, hrange]
  split
  · rfl
  · symm
    refine List.filter_eq_nil_iff.mpr fun o member => ?_
    have := precedence_le_tightest member
    simp only [decide_eq_true_eq]
    omega

/-- The ladder is the climb through all tiers from the loosest one on. -/
theorem ladder_eq_filter_ranked :
    catalog.ladder loosest = catalog.ranked.filter fun o => loosest ≤ o.precedence := by
  refine eq_of_tiers_eq pairwise_ladder (pairwise_ranked.filter _) fun precedence => ?_
  have hswap (operators : List Operator) :
      (operators.filter fun o => loosest ≤ o.precedence).filter (·.precedence = precedence) =
        (operators.filter (·.precedence = precedence)).filter fun o => loosest ≤ o.precedence := by
    rw [List.filter_filter, List.filter_filter]
    exact List.filter_congr fun o _ => Bool.and_comm _ _
  rw [filter_ladder, hswap, hswap, filter_ranked]
  rfl

/-- The cut of a slice is that of the first operator of the ladder that has one. -/
theorem cut?_eq_some_iff {slice : List Symbol} {cut : Except EvalError Cut} :
    catalog.cut? loosest slice = some cut ↔ ∃ earlier o later,
      catalog.ladder loosest = earlier ++ o :: later ∧ o.cut? slice = some cut ∧
        ∀ other ∈ earlier, other.cut? slice = none :=
  List.findSome?_eq_some_iff

/-- The sort in the ladder does not reduce, but the tiers do. The cut of a given
slice is computed from them. -/
theorem cut?_eq_findSome?_ranked (slice : List Symbol) :
    catalog.cut? loosest slice =
      (catalog.ranked.filter fun o => loosest ≤ o.precedence).findSome? (·.cut? slice) := by
  rw [cut?, ladder_eq_filter_ranked]

theorem cut?_eq_none_iff {slice : List Symbol} :
    catalog.cut? loosest slice = none ↔
      ∀ o ∈ catalog.operators, loosest ≤ o.precedence → o.cut? slice = none := by
  rw [cut?, List.findSome?_eq_none_iff]
  simp only [mem_ladder, and_imp]

/-- Where no other operator of the catalog occurs, a slice is cut around the one
that has a cut. -/
theorem cut?_eq_of_unique {slice : List Symbol} {o : Operator} {cut : Except EvalError Cut}
    (ho : o ∈ catalog.operators) (hloosest : loosest ≤ o.precedence)
    (hcut : o.cut? slice = some cut)
    (hunique : ∀ other ∈ catalog.operators, other.OccursIn (pieces slice) → other = o) :
    catalog.cut? loosest slice = some cut := by
  cases hfound : catalog.cut? loosest slice with
  | none =>
      rw [cut?_eq_none_iff.mp hfound o ho hloosest] at hcut
      contradiction
  | some found =>
      obtain ⟨earlier, other, later, hladder, hother, -⟩ := cut?_eq_some_iff.mp hfound
      have hmember : other ∈ catalog.ladder loosest := by simp [hladder]
      have hoccurs : other.OccursIn (pieces slice) :=
        Operator.occursIn_of_cut?_ne_none (by simp [hother])
      rw [hunique other (mem_ladder.mp hmember).1 hoccurs, hcut] at hother
      exact hother.symm

/-- A cut is taken around an operator of the catalog, at an occurrence that the
operator accepts, and no operator before it on the ladder has a cut. -/
theorem exists_splits_of_cut? {slice : List Symbol} {cut : Cut}
    (h : catalog.cut? loosest slice = some (.ok cut)) :
    cut.operator ∈ catalog.operators ∧ loosest ≤ cut.operator.precedence ∧
      cut.operator.defect? = none ∧
      (∃ earlier later, catalog.ladder loosest = earlier ++ cut.operator :: later ∧
        ∀ other ∈ earlier, other.cut? slice = none) ∧
      ∃ before after, cut.operator.Splits (pieces slice) before cut.pivot after ∧
        cut.operator.Accepts before after ∧ cut.left = Piece.join before ∧
        cut.right = Piece.join after := by
  obtain ⟨earlier, o, later, hladder, hcut, hearlier⟩ := cut?_eq_some_iff.mp h
  obtain ⟨hdefect, before, entry, after, hsplits, haccepts, rfl⟩ := Operator.cut?_eq_ok_iff.mp hcut
  have hmember : o ∈ catalog.ladder loosest := by simp [hladder]
  obtain ⟨hcatalog, hprecedence⟩ := mem_ladder.mp hmember
  exact ⟨hcatalog, hprecedence, hdefect, ⟨earlier, later, hladder, hearlier⟩,
    before, after, hsplits, haccepts, rfl, rfl⟩

/-- A slice cannot be cut only because of an operator of the catalog that occurs
in it and cannot be applied. -/
theorem exists_defect_of_cut? {slice : List Symbol} {error : EvalError}
    (h : catalog.cut? loosest slice = some (.error error)) :
    ∃ o ∈ catalog.operators, loosest ≤ o.precedence ∧ o.OccursIn (pieces slice) ∧
      o.defect? = some error := by
  obtain ⟨earlier, o, later, hladder, hcut, -⟩ := cut?_eq_some_iff.mp h
  have hmember : o ∈ catalog.ladder loosest := by simp [hladder]
  obtain ⟨hcatalog, hprecedence⟩ := mem_ladder.mp hmember
  exact ⟨o, hcatalog, hprecedence, Operator.cut?_eq_error_iff.mp hcut⟩

/-- A cut leaves out nothing but the operator symbol at it, and an operator of
one operand has nothing on its other side. -/
theorem slice_eq_of_cut? {slice : List Symbol} {cut : Cut}
    (h : catalog.cut? loosest slice = some (.ok cut)) :
    (∃ length, slice = cut.left ++ .operator cut.pivot length :: cut.right) ∧
      cut.pivot.operation = cut.operator.operation ∧
      (cut.operator.placement = .before → cut.left = []) ∧
      (cut.operator.placement = .after → cut.right = []) := by
  obtain ⟨-, -, -, -, before, after, hsplits, haccepts, hleft, hright⟩ := exists_splits_of_cut? h
  obtain ⟨length, hslice⟩ := hsplits.slice_eq
  refine ⟨⟨length, by rw [hleft, hright, hslice]⟩, hsplits.operation_eq, ?_, ?_⟩
  · intro hplacement
    simp only [Operator.Accepts, hplacement] at haccepts
    rw [hleft, haccepts, Piece.join_nil]
  · intro hplacement
    simp only [Operator.Accepts, hplacement] at haccepts
    rw [hright, haccepts, Piece.join_nil]

/-- The sides of a cut keep the pieces of the slice. -/
theorem pieces_of_cut? {slice : List Symbol} {cut : Cut}
    (h : catalog.cut? loosest slice = some (.ok cut)) :
    ∃ length, pieces slice =
      pieces cut.left ++ .lone (.operator cut.pivot length) :: pieces cut.right := by
  obtain ⟨-, -, -, -, before, after, hsplits, -, hleft, hright⟩ := exists_splits_of_cut? h
  obtain ⟨hbefore, hafter⟩ := hsplits.pieces_join
  rw [hleft, hright, hbefore, hafter]
  exact hsplits.parts_eq

/-- The operator of a cut is no tighter than any operator that has a cut. -/
theorem precedence_le_of_cut? {slice : List Symbol} {cut : Cut} {o : Operator}
    (h : catalog.cut? loosest slice = some (.ok cut)) (ho : o ∈ catalog.operators)
    (hloosest : loosest ≤ o.precedence) (hsome : o.cut? slice ≠ none) :
    cut.operator.precedence ≤ o.precedence := by
  obtain ⟨-, -, -, ⟨earlier, later, hladder, hearlier⟩, -⟩ := exists_splits_of_cut? h
  have hsorted := @pairwise_ladder catalog loosest
  have hmember : o ∈ catalog.ladder loosest := mem_ladder.mpr ⟨ho, hloosest⟩
  rw [hladder] at hmember hsorted
  rcases List.mem_append.mp hmember with before | after
  · exact absurd (hearlier o before) hsome
  · rcases List.mem_cons.mp after with rfl | later
    · exact Nat.le_refl _
    · exact (List.pairwise_cons.mp (List.pairwise_append.mp hsorted).2.1).1 o later

theorem defect?_eq_none_iff :
    catalog.defect? = none ↔ ∀ o ∈ catalog.operators, o.defect? = none :=
  List.findSome?_eq_none_iff

end Catalog

end Calculator
