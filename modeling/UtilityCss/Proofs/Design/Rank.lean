import UtilityCss.Proofs.Design.Sort

/-!
# The rank of a class name

Class names are ranked by their variants first, the last ones in the order in front. Different
variants may be equal in order, and sorting leaves these as they are written: the same variants
written in another order give another chain. Item by item, though, the two chains are equal in order,
and a comparison of chains looks at nothing else.
-/

namespace UtilityCss

open Std (TransCmp OrientedCmp ReflCmp)

section Chains

variable {α : Type} {cmp : α → α → Ordering} [h : TransCmp cmp] {as bs : List α}

def orderSetoid (cmp : α → α → Ordering) [TransCmp cmp] : Setoid α where
  r a b := cmp a b = .eq
  iseqv := ⟨fun _ => ReflCmp.compare_self, OrientedCmp.eq_symm, TransCmp.eq_trans⟩

theorem forall₂_of_perm (hp : as.Perm bs) (ha : as.Pairwise fun a b => (cmp a b).isLE = true)
    (hb : bs.Pairwise fun a b => (cmp a b).isLE = true) :
    List.Forall₂ (fun a b => cmp a b = .eq) as bs := by
  -- Up to equality in order, the order is antisymmetric, so that there is one sorted list only.
  let s := orderSetoid cmp
  let le (x y : Quotient s) : Prop := ∃ a b, x = ⟦a⟧ ∧ y = ⟦b⟧ ∧ (cmp a b).isLE = true
  have hsorted {cs : List α} (hc : cs.Pairwise fun a b => (cmp a b).isLE = true) :
      (cs.map (Quotient.mk s)).Pairwise le :=
    List.pairwise_map.2 (hc.imp fun {a b} hab => ⟨a, b, rfl, rfl, hab⟩)
  have hanti (x y : Quotient s) (hxy : le x y) (hyx : le y x) : x = y := by
    obtain ⟨a, b, rfl, rfl, hab⟩ := hxy
    obtain ⟨b', a', hb', ha', hba⟩ := hyx
    have hb' : cmp b b' = .eq := Quotient.exact hb'
    have ha' : cmp a a' = .eq := Quotient.exact ha'
    rw [← TransCmp.congr_left hb', ← TransCmp.congr_right ha'] at hba
    exact Quotient.sound (OrientedCmp.isLE_antisymm hab hba)
  have hmap : as.map (Quotient.mk s) = bs.map (Quotient.mk s) :=
    (hp.map _).eq_of_pairwise (fun x y _ _ => hanti x y) (hsorted ha) (hsorted hb)
  rw [← List.forall₂_eq_eq_eq, List.forall₂_map_left_iff, List.forall₂_map_right_iff] at hmap
  exact hmap.imp fun a b hab => Quotient.exact hab

theorem forall₂_sortBy (hp : as.Perm bs) :
    List.Forall₂ (fun a b => cmp a b = .eq) (sortBy cmp as) (sortBy cmp bs) :=
  forall₂_of_perm (((sortBy_perm as).trans hp).trans (sortBy_perm bs).symm) (pairwise_sortBy as)
    (pairwise_sortBy bs)

omit h in
private theorem compareChains_eq_of_forall₂ (hab : List.Forall₂ (fun a b => cmp a b = .eq) as bs) :
    compareChains cmp as bs = .eq := by
  induction hab with
  | nil => rfl
  | cons heq _ ih => rw [compareChains, heq, ih]; rfl

omit h in
theorem compareChains_nil_left (hb : bs ≠ []) : compareChains cmp [] bs = .lt := by
  cases bs with
  | nil => exact absurd rfl hb
  | cons b bs => rfl

end Chains

namespace DesignSystem

variable (d : DesignSystem) {a b : CompiledCandidate}

/-- Whether something is compiled from a reading of a class name. -/
def Compiles (cc : CompiledCandidate) : Prop := ∃ c, d.compileReading? c = some cc

theorem compiles_of_compile? {raw : String} (h : d.compile? raw = some a) : d.Compiles a := by
  obtain ⟨c, -, hc⟩ := List.exists_of_findSome?_eq_some h
  exact ⟨c, hc⟩

/-- The chain of a class name holds its variants, sorted from the last one in the order down. -/
theorem chain_of_compiles (h : d.Compiles a) :
    a.chain = sortBy (fun v w => d.variants.compare w v) a.candidate.variants := by
  obtain ⟨c, hc⟩ := h
  rw [compileReading?] at hc
  simp only [Option.bind_eq_bind, Option.bind_eq_some_iff, Option.pure_def, Option.some.injEq] at hc
  obtain ⟨_, -, _, -, rfl⟩ := hc
  rfl

theorem length_chain (h : d.Compiles a) : a.chain.length = a.candidate.variants.length := by
  rw [d.chain_of_compiles h]
  exact (sortBy_perm _).length_eq

/-- The same variants in another order make chains that are equal in order. -/
theorem compareChains_eq_of_perm (ha : d.Compiles a) (hb : d.Compiles b)
    (hp : a.candidate.variants.Perm b.candidate.variants) :
    compareChains d.variants.compare a.chain b.chain = .eq := by
  have hsorted : List.Forall₂ (fun v w => d.variants.compare w v = .eq)
      (sortBy (fun v w => d.variants.compare w v) a.candidate.variants)
      (sortBy (fun v w => d.variants.compare w v) b.candidate.variants) := forall₂_sortBy hp
  rw [← d.chain_of_compiles ha, ← d.chain_of_compiles hb] at hsorted
  exact compareChains_eq_of_forall₂ (hsorted.imp fun v w hvw => OrientedCmp.eq_symm hvw)

/-- In what order its variants are written does not matter to the rank of a class name, class names
without variants come before all others, and different class names are never equal in order. -/
theorem compareChains_congr_of_perm (ha : d.Compiles a) (hb : d.Compiles b) :
    (a.candidate.variants.Perm b.candidate.variants →
      compareChains d.variants.compare a.chain b.chain = .eq ∧
      ∀ c : CompiledCandidate, compareChains d.variants.compare a.chain c.chain =
        compareChains d.variants.compare b.chain c.chain) ∧
    (a.candidate.variants = [] → b.candidate.variants ≠ [] →
      compareChains d.variants.compare a.chain b.chain = .lt) ∧
    (d.compare a b = .eq → a.candidate.raw = b.candidate.raw) := by
  refine ⟨fun hp => ?_, fun hnil hne => ?_, d.raw_eq_of_compare⟩
  · have heq := d.compareChains_eq_of_perm ha hb hp
    exact ⟨heq, fun c => TransCmp.congr_left heq⟩
  · have hchain : a.chain = [] := by
      rw [← List.length_eq_zero_iff, d.length_chain ha, hnil, List.length_nil]
    rw [hchain]
    refine compareChains_nil_left fun hb' => hne ?_
    rw [← List.length_eq_zero_iff, ← d.length_chain hb, hb', List.length_nil]

/-- A named and an arbitrary value of the same text make variants that differ and are equal in order.
Either way of writing them has the same rank, behind class names without variants. -/
theorem compareChains_congr_of_perm_data :
    let d := DesignSystem.builtin {} .media
    ∃ a b plain, d.compile? "data-x:data-[x]:flex" = some a ∧
      d.compile? "data-[x]:data-x:flex" = some b ∧ d.compile? "flex" = some plain ∧
      a.candidate.variants ≠ b.candidate.variants ∧
      a.candidate.variants.Perm b.candidate.variants ∧
      compareChains d.variants.compare a.chain b.chain = .eq ∧
      compareChains d.variants.compare a.chain plain.chain =
        compareChains d.variants.compare b.chain plain.chain ∧
      compareChains d.variants.compare plain.chain a.chain = .lt := by
  intro d
  have hcompile (raw : String) (vs : List Variant)
      (h : (d.compile? raw).map (·.candidate.variants) = some vs) :
      ∃ cc, d.compile? raw = some cc ∧ cc.candidate.variants = vs := Option.map_eq_some_iff.1 h
  obtain ⟨a, ha, hva⟩ := hcompile "data-x:data-[x]:flex"
    [.functional "data" (some (.named "x")) none, .functional "data" (some (.arbitrary "x")) none]
    (by decide +kernel)
  obtain ⟨b, hb, hvb⟩ := hcompile "data-[x]:data-x:flex"
    [.functional "data" (some (.arbitrary "x")) none, .functional "data" (some (.named "x")) none]
    (by decide +kernel)
  obtain ⟨plain, hplain, hvplain⟩ := hcompile "flex" [] (by decide +kernel)
  have hperm : a.candidate.variants.Perm b.candidate.variants := by
    rw [hva, hvb]
    exact List.Perm.swap _ _ _
  have hab := (d.compareChains_congr_of_perm (d.compiles_of_compile? ha)
    (d.compiles_of_compile? hb)).1 hperm
  have hlt := (d.compareChains_congr_of_perm (d.compiles_of_compile? hplain)
    (d.compiles_of_compile? ha)).2.1 hvplain (by rw [hva]; exact List.cons_ne_nil _ _)
  refine ⟨a, b, plain, ha, hb, hplain, ?_, hperm, hab.1, hab.2 plain, hlt⟩
  rw [hva, hvb]
  decide

end DesignSystem

end UtilityCss
