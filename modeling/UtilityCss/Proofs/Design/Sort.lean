import Mathlib.Data.List.Sort
import UtilityCss.Design.System
import UtilityCss.Proofs.Candidate.Reading
import UtilityCss.Proofs.Variant.Preorder

/-!
# Sorting of compiled class names

`DesignSystem.compare` is a total preorder that tells class names apart. What is sorted together with
more class names therefore keeps its order.
-/

namespace UtilityCss

open Std (TransCmp OrientedCmp TransOrd LawfulEqOrd)

private theorem compareChains_eq_compareLex {α : Type} (cmp : α → α → Ordering) (as bs : List α) :
    compareChains cmp as bs = List.compareLex cmp as bs := by
  induction as generalizing bs with
  | nil => cases bs <;> rfl
  | cons a as ih =>
    cases bs with
    | nil => rfl
    | cons b bs => rw [compareChains, List.compareLex_cons_cons, ih]

instance transCmp_compareChains {α : Type} (cmp : α → α → Ordering) [TransCmp cmp] :
    TransCmp (compareChains cmp) := by
  have h : compareChains cmp = List.compareLex cmp := by
    funext as bs
    exact compareChains_eq_compareLex cmp as bs
  rw [h]
  infer_instance

section SortBy

variable {α : Type} {cmp : α → α → Ordering} [h : TransCmp cmp]

private theorem ne_gt_iff_isLE (o : Ordering) : (o != .gt) = o.isLE := by cases o <;> rfl

omit h in
private theorem sortBy_eq_mergeSort (as : List α) :
    sortBy cmp as = as.mergeSort fun a b => (cmp a b).isLE := by
  simp only [sortBy, ne_gt_iff_isLE]

omit h in
theorem sortBy_perm (as : List α) : (sortBy cmp as).Perm as := List.mergeSort_perm _ _

theorem pairwise_sortBy (as : List α) : (sortBy cmp as).Pairwise fun a b => (cmp a b).isLE = true := by
  rw [sortBy_eq_mergeSort]
  refine List.pairwise_mergeSort (fun a b c => h.isLE_trans (a := a) (b := b) (c := c)) ?_ as
  intro a b
  rw [h.eq_swap (a := b)]
  cases cmp a b <;> rfl

/-- The order of items does not depend on what else is sorted with them. -/
theorem sortBy_sublist_of_subperm {as bs : List α} (hp : as.Subperm bs)
    (hinj : ∀ a ∈ bs, ∀ b ∈ bs, cmp a b = .eq → a = b) : (sortBy cmp as).Sublist (sortBy cmp bs) := by
  obtain ⟨cs, hcs, hsub⟩ := hp
  -- The sorted longer list holds a sorted copy of the items as a sublist.
  obtain ⟨ds, hds, hsub'⟩ := (hsub.subperm.trans (sortBy_perm bs).symm.subperm)
  have hsorted : ds.Pairwise fun a b => (cmp a b).isLE = true :=
    (pairwise_sortBy bs).sublist hsub'
  have hperm : (sortBy cmp as).Perm ds := ((sortBy_perm as).trans hcs.symm).trans hds.symm
  rw [hperm.eq_of_pairwise ?_ (pairwise_sortBy as) hsorted]
  · exact hsub'
  · intro a b ha hb hab hba
    have hb := (sortBy_perm bs).subset (hsub'.subset hb)
    have ha := (sortBy_perm bs).subset (hsub'.subset (hperm.subset ha))
    exact hinj a ha b hb (OrientedCmp.isLE_antisymm hab hba)

end SortBy

namespace DesignSystem

variable (d : DesignSystem)

private theorem candidate_of_compileReading? {c : Candidate} {cc : CompiledCandidate}
    (h : d.compileReading? c = some cc) : cc.candidate = c := by
  rw [compileReading?] at h
  simp only [Option.bind_eq_bind, Option.bind_eq_some_iff, Option.pure_def, Option.some.injEq] at h
  obtain ⟨_, -, _, -, rfl⟩ := h
  rfl

/-- A compiled class name keeps its text. -/
theorem raw_of_compile? {raw : String} {cc : CompiledCandidate} (h : d.compile? raw = some cc) :
    cc.candidate.raw = raw := by
  obtain ⟨c, hc, hread⟩ := List.exists_of_findSome?_eq_some h
  rw [d.candidate_of_compileReading? hread]
  obtain ⟨-, -, hraw, -⟩ := of_mem_readCandidates hc
  exact hraw

instance transCmp_compare : TransCmp d.compare :=
  transCmp_lex
    (transCmp_lex (transCmp_comap (compareChains d.variants.compare) CompiledCandidate.chain)
      (transCmp_comap Ord.compare CompiledCandidate.order))
    (transCmp_comap Ord.compare fun cc : CompiledCandidate => cc.candidate.raw)

/-- Only compiled forms of one class name are equal in order. -/
theorem raw_eq_of_compare {a b : CompiledCandidate} (h : d.compare a b = .eq) :
    a.candidate.raw = b.candidate.raw :=
  LawfulEqOrd.eq_of_compare (Ordering.then_eq_eq.1 h).2

end DesignSystem

end UtilityCss
