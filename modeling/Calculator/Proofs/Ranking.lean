import Calculator.Proofs.Ladder

/-!
Catalogs that rank their operators alike: listed by precedence, their operators are
the same apart from the precedences and tie in the same places. Then one catalog
has the precedences of the other with other numbers in the same order.
-/

namespace Calculator

def Operator.renumbered (rank : Nat → Nat) (o : Operator) : Operator :=
  { o with precedence := rank o.precedence }

def Operator.unranked (o : Operator) : Operator := o.renumbered fun _ => 0

theorem Operator.eq_renumbered {o other : Operator} {rank : Nat → Nat}
    (h : o.unranked = other.unranked) (hrank : rank o.precedence = other.precedence) :
    other = o.renumbered rank := by
  cases o
  cases other
  simp only [unranked, renumbered, Operator.mk.injEq] at h hrank ⊢
  simp [h, hrank]

namespace Catalog

/-- Listed by precedence, the operators of both catalogs are the same apart from
their precedences, and tie in the same places. -/
structure SameRanking (first second : Catalog) : Prop where
  operators : first.ranked.map Operator.unranked = second.ranked.map Operator.unranked
  ties : ∀ i j : Nat,
    first.ranked[i]?.map Operator.precedence = first.ranked[j]?.map Operator.precedence ↔
      second.ranked[i]?.map Operator.precedence = second.ranked[j]?.map Operator.precedence

/-- The second catalog lists the operators of the first one with other numbers
in the same order. -/
structure Renumbers (rank : Nat → Nat) (first second : Catalog) : Prop where
  ranked_eq : second.ranked = first.ranked.map (Operator.renumbered rank)
  le_iff : ∀ looser ∈ first.operators, ∀ tighter ∈ first.operators,
    looser.precedence ≤ tighter.precedence ↔ rank looser.precedence ≤ rank tighter.precedence

def rankIn (first second : Catalog) (precedence : Nat) : Nat :=
  ((first.ranked.zip second.ranked).find? (·.1.precedence = precedence)).elim 0 (·.2.precedence)

section Rankings

variable {first second : Catalog} {rank : Nat → Nat}

theorem precedence_le_of_ranked {catalog : Catalog} {i j : Nat} {looser tighter : Operator}
    (hi : catalog.ranked[i]? = some looser) (hj : catalog.ranked[j]? = some tighter)
    (hlt : i < j) : looser.precedence ≤ tighter.precedence := by
  obtain ⟨hi', rfl⟩ := List.getElem?_eq_some_iff.mp hi
  obtain ⟨hj', rfl⟩ := List.getElem?_eq_some_iff.mp hj
  exact List.pairwise_iff_getElem.mp pairwise_ranked i j hi' hj' hlt

namespace SameRanking

theorem exists_ranked (h : first.SameRanking second) {i : Nat} {o : Operator}
    (hi : first.ranked[i]? = some o) :
    ∃ other, second.ranked[i]? = some other ∧ o.unranked = other.unranked := by
  have hmap := congrArg (·[i]?) h.operators
  simp only [List.getElem?_map, hi, Option.map_some] at hmap
  obtain ⟨other, hother, hsame⟩ := Option.map_eq_some_iff.mp hmap.symm
  exact ⟨other, hother, hsame.symm⟩

theorem precedence_eq_iff (h : first.SameRanking second) {i j : Nat}
    {o o' other other' : Operator} (hi : first.ranked[i]? = some o)
    (hj : first.ranked[j]? = some o') (hi' : second.ranked[i]? = some other)
    (hj' : second.ranked[j]? = some other') :
    o.precedence = o'.precedence ↔ other.precedence = other'.precedence := by
  simpa [hi, hj, hi', hj'] using h.ties i j

/-- Operators that tie in the first catalog tie in the second one, so any of them
tells their precedence there. -/
theorem rankIn_eq (h : first.SameRanking second) {i : Nat} {o other : Operator}
    (hi : first.ranked[i]? = some o) (hi' : second.ranked[i]? = some other) :
    first.rankIn second o.precedence = other.precedence := by
  have hpair : (o, other) ∈ first.ranked.zip second.ranked :=
    List.mem_of_getElem? (List.getElem?_zip_eq_some.mpr ⟨hi, hi'⟩)
  unfold rankIn
  cases hfound : (first.ranked.zip second.ranked).find? (·.1.precedence = o.precedence) with
  | none => exact absurd (List.find?_eq_none.mp hfound _ hpair) (by simp)
  | some found =>
      obtain ⟨j, hj⟩ := List.mem_iff_getElem?.mp (List.mem_of_find?_eq_some hfound)
      obtain ⟨hfirst, hsecond⟩ := List.getElem?_zip_eq_some.mp hj
      have htie : found.1.precedence = o.precedence := by simpa using List.find?_some hfound
      exact (h.precedence_eq_iff hfirst hi hsecond hi').mp htie

theorem renumbers (h : first.SameRanking second) :
    Renumbers (first.rankIn second) first second where
  ranked_eq := by
    apply List.ext_getElem?
    intro i
    rw [List.getElem?_map]
    cases hi : first.ranked[i]? with
    | none =>
        have hmap := congrArg (·[i]?) h.operators
        simp only [List.getElem?_map, hi, Option.map_none] at hmap
        exact Option.map_eq_none_iff.mp hmap.symm
    | some o =>
        obtain ⟨other, hother, hsame⟩ := h.exists_ranked hi
        rw [hother, Option.map_some, Operator.eq_renumbered hsame (h.rankIn_eq hi hother)]
  le_iff looser hlooser tighter htighter := by
    obtain ⟨i, hi⟩ := List.mem_iff_getElem?.mp (mem_ranked.mpr hlooser)
    obtain ⟨j, hj⟩ := List.mem_iff_getElem?.mp (mem_ranked.mpr htighter)
    obtain ⟨other, hi', -⟩ := h.exists_ranked hi
    obtain ⟨other', hj', -⟩ := h.exists_ranked hj
    have hties := h.precedence_eq_iff hi hj hi' hj'
    rw [h.rankIn_eq hi hi', h.rankIn_eq hj hj']
    rcases Nat.lt_trichotomy i j with hlt | rfl | hgt
    · have := precedence_le_of_ranked hi hj hlt
      have := precedence_le_of_ranked hi' hj' hlt
      omega
    · cases hi.symm.trans hj
      cases hi'.symm.trans hj'
      omega
    · have := precedence_le_of_ranked hj hi hgt
      have := precedence_le_of_ranked hj' hi' hgt
      omega

/-- Declaring operators of different tiers in another order changes nothing. -/
theorem of_tiers (h : ∀ precedence, first.tier precedence = second.tier precedence) :
    first.SameRanking second := by
  have hranked : first.ranked = second.ranked := by
    refine eq_of_tiers_eq pairwise_ranked pairwise_ranked fun precedence => ?_
    rw [filter_ranked, filter_ranked, h]
  exact ⟨by rw [hranked], fun i j => by rw [hranked]⟩

end SameRanking

namespace Renumbers

/-- A renumbering that is strictly increasing keeps the order. -/
theorem of_strictMono (hrank : ∀ low high, low < high → rank low < rank high)
    (h : second.operators = first.operators.map (Operator.renumbered rank)) :
    Renumbers rank first second := by
  have hle (low high : Nat) : low ≤ high ↔ rank low ≤ rank high := by
    rcases Nat.lt_trichotomy low high with hlt | rfl | hgt
    · have := hrank low high hlt
      omega
    · omega
    · have := hrank high low hgt
      omega
  refine ⟨?_, fun looser _ tighter _ => hle looser.precedence tighter.precedence⟩
  refine eq_of_tiers_eq pairwise_ranked ?_ fun precedence => ?_
  · refine List.pairwise_map.mpr (pairwise_ranked.imp ?_)
    intro looser tighter hlooser
    exact (hle looser.precedence tighter.precedence).mp hlooser
  · rw [filter_ranked, tier, h, List.filter_map, List.filter_map]
    congr 1
    by_cases hnumber : ∃ original, rank original = precedence
    · obtain ⟨original, rfl⟩ := hnumber
      have hsame (number : Nat) : rank number = rank original ↔ number = original := by
        have := hle number original
        have := hle original number
        omega
      simp only [Function.comp_def, Operator.renumbered, hsame]
      exact filter_ranked original |>.symm
    · have hnone (operators : List Operator) :
          operators.filter ((fun o => decide (o.precedence = precedence)) ∘
            Operator.renumbered rank) = [] := by
        exact List.filter_eq_nil_iff.mpr fun o _ hkept =>
          hnumber ⟨o.precedence, of_decide_eq_true hkept⟩
      rw [hnone, hnone]

theorem sameRanking (h : Renumbers rank first second) : first.SameRanking second where
  operators := by
    rw [h.ranked_eq, List.map_map]
    rfl
  ties i j := by
    rw [h.ranked_eq, List.getElem?_map, List.getElem?_map]
    cases hi : first.ranked[i]? with
    | none => cases hj : first.ranked[j]? <;> simp
    | some o =>
        cases hj : first.ranked[j]? with
        | none => simp
        | some other =>
            have ho := mem_ranked.mp (List.mem_of_getElem? hi)
            have hother := mem_ranked.mp (List.mem_of_getElem? hj)
            have hle := h.le_iff o ho other hother
            have hge := h.le_iff other hother o ho
            simp only [Option.map_some, Option.some.injEq, Operator.renumbered]
            omega

/-- The ladder of the second catalog from a precedence on is that of the first one
from the corresponding precedence on. -/
theorem ladder_eq (h : Renumbers rank first second) {loosest loosest' : Nat}
    (hloosest : ∀ o ∈ first.operators, loosest ≤ o.precedence ↔ loosest' ≤ rank o.precedence) :
    second.ladder loosest' = (first.ladder loosest).map (Operator.renumbered rank) := by
  rw [ladder_eq_filter_ranked, ladder_eq_filter_ranked, h.ranked_eq, List.filter_map]
  congr 1
  exact List.filter_congr fun o member =>
    decide_eq_decide.mpr (hloosest o (mem_ranked.mp member)).symm

end Renumbers

end Rankings

end Catalog

end Calculator
