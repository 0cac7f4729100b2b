import Mathlib.Data.Char
import Mathlib.Data.List.Lex
import Mathlib.Data.Prod.Lex
import Pagewright.Path.Basic

/-!
# The order of paths

Components are ordered by a rank in which the kind comes first and the name second
(`Component.rank`), and paths by the ranks of their components, as words are by their letters
(`Path.precedes_iff`). So the order looks at what paths mean and at nothing else, and of two paths
that mean different things one precedes the other (`Path.precedes_of_not_precedes`).
-/

namespace Pagewright

namespace Component

/-- The place of a component in the order. -/
def rank : Component → Nat ×ₗ Text
  | .root => toLex (0, [])
  | .current => toLex (1, [])
  | .parent => toLex (2, [])
  | .normal name => toLex (3, name)

/-- Different components have different ranks. -/
theorem rank_injective : Function.Injective rank := by
  intro a b h
  cases a <;> cases b <;> simp_all [rank]

/-- Components are in the order of their ranks. -/
theorem precedes_iff {a b : Component} : a.precedes b = true ↔ a.rank < b.rank := by
  cases a <;> cases b <;> simp [precedes, rank, Prod.Lex.toLex_lt_toLex, Text.precedes]

end Component

namespace Path

/-- Lists of components are in the order of their ranks, compared from the left. -/
theorem listPrecedes_iff {as bs : List Component} :
    listPrecedes as bs = true ↔ as.map Component.rank < bs.map Component.rank := by
  induction as generalizing bs with
  | nil => cases bs <;> simp [listPrecedes]
  | cons a as ih =>
    cases bs with
    | nil => simp [listPrecedes]
    | cons b bs =>
      simp [listPrecedes, List.cons_lt_cons_iff, Component.precedes_iff, ih,
        Component.rank_injective.eq_iff]

/-- The ranks of the components of a path. -/
def ranks (path : Path) : List (Nat ×ₗ Text) :=
  path.components.map Component.rank

/-- Paths are in the order of the ranks of their components. -/
theorem precedes_iff {a b : Path} : a.precedes b = true ↔ a.ranks < b.ranks :=
  listPrecedes_iff

/-- Two paths mean the same when they have the same components. -/
theorem same_iff {a b : Path} : a.same b = true ↔ a.components = b.components :=
  decide_eq_true_iff

/-- Two paths mean the same when they have the same ranks. -/
theorem same_iff_ranks {a b : Path} : a.same b = true ↔ a.ranks = b.ranks := by
  rw [same_iff, ranks, ranks, (List.map_injective_iff.2 Component.rank_injective).eq_iff]

/-- A path that does not come later comes first, unless it means the same. -/
theorem precedes_of_not_precedes {a b : Path} (h : b.precedes a = false) (hne : a.same b = false) :
    a.precedes b = true := by
  rw [← Bool.not_eq_true, precedes_iff, not_lt] at h
  rw [← Bool.not_eq_true, same_iff_ranks] at hne
  exact precedes_iff.2 (lt_of_le_of_ne h hne)

/-- Sorting puts paths in their order when no two of them mean the same. -/
theorem pairwise_precedes_mergeSort {paths : List Path}
    (h : paths.Pairwise fun a b => a.same b = false) :
    (paths.mergeSort fun a b => !b.precedes a).Pairwise fun a b =>
      a.precedes b = true ∧ a.same b = false := by
  have hle : ∀ a b : Path, (!b.precedes a) = true ↔ a.ranks ≤ b.ranks := by
    intro a b
    rw [Bool.not_eq_true', ← Bool.not_eq_true, precedes_iff, not_lt]
  have hsorted : (paths.mergeSort fun a b => !b.precedes a).Pairwise fun a b =>
      (!b.precedes a) = true :=
    List.pairwise_mergeSort
      (fun a b c hab hbc => (hle a c).2 (((hle a b).1 hab).trans ((hle b c).1 hbc)))
      (fun a b => by simpa only [Bool.or_eq_true, hle] using le_total a.ranks b.ranks) paths
  have hdistinct : (paths.mergeSort fun a b => !b.precedes a).Pairwise fun a b =>
      a.same b = false := by
    refine (List.mergeSort_perm paths _).symm.pairwise h fun {a b} hab => ?_
    rw [← Bool.not_eq_true, same_iff] at hab ⊢
    exact fun heq => hab heq.symm
  refine (hsorted.and hdistinct).imp fun {a b} hab => ⟨?_, hab.2⟩
  exact precedes_of_not_precedes (by simpa using hab.1) hab.2

end Path

end Pagewright
