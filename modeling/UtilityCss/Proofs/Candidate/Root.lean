import Mathlib.Data.List.Nodup
import Mathlib.Data.List.TakeWhile
import UtilityCss.Candidate.Root

/-!
# The search for roots

The roots that a name may have are the name itself, the texts in front of its dashes from the last
to the first, and `@`. The search is sound and goes through them in this order. It finds every root
in front of a dash, unless all in front of a dash at the end is a root: then it finds none of them.
-/

namespace UtilityCss

namespace Chars

section Splits

variable {s a b : List Char}

private theorem mem_dashSplits_iff : (a, b) ∈ dashSplits s ↔ s = a ++ '-' :: b := by
  refine ⟨fun h => (append_of_mem_dashSplits h).symm, ?_⟩
  rintro rfl
  induction a with
  | nil => simp [dashSplits]
  | cons c a ih =>
    rw [List.cons_append, dashSplits, List.mem_append, List.mem_map]
    exact .inr ⟨(a, b), ih, rfl⟩

private theorem pairwise_dashSplits (s : List Char) :
    (dashSplits s).Pairwise fun x y => x.1.length < y.1.length := by
  induction s with
  | nil => exact .nil
  | cons c s ih =>
    rw [dashSplits, List.pairwise_append]
    refine ⟨?_, List.pairwise_map.2 (ih.imp Nat.succ_lt_succ), ?_⟩
    · split
      · exact List.pairwise_singleton _ _
      · exact .nil
    · intro x hx y hy
      obtain ⟨⟨front, rest⟩, -, rfl⟩ := List.mem_map.1 hy
      split at hx
      · obtain rfl := List.mem_singleton.1 hx
        exact Nat.zero_lt_succ _
      · exact absurd hx List.not_mem_nil

end Splits

section Roots

variable {known : List Char → Bool} {s root rest : List Char} {value : Option (List Char)}

def EndsInRootDash (known : List Char → Bool) (s : List Char) : Prop :=
  ∃ front, front ≠ [] ∧ known front ∧ s = front ++ ['-']

/-- The splits at a dash with a known root, in the order in which they are tried. -/
def triedSplits (known : List Char → Bool) (s : List Char) : List (List Char × List Char) :=
  (dashSplits s).reverse.filter fun (root, _) => !root.isEmpty && known root

private theorem dashRoots_eq (known : List Char → Bool) (s : List Char) :
    dashRoots known s = (triedSplits known s).takeWhile fun p => !p.2.isEmpty := rfl

theorem mem_triedSplits_iff :
    (root, rest) ∈ triedSplits known s ↔ s = root ++ '-' :: rest ∧ root ≠ [] ∧ known root := by
  rw [triedSplits, List.mem_filter, List.mem_reverse, mem_dashSplits_iff]
  simp

theorem pairwise_triedSplits (known : List Char → Bool) (s : List Char) :
    (triedSplits known s).Pairwise fun x y => y.1.length < x.1.length :=
  (List.pairwise_reverse.2 (pairwise_dashSplits s)).filter _

theorem pairwise_dashRoots (known : List Char → Bool) (s : List Char) :
    (dashRoots known s).Pairwise fun x y => y.1.length < x.1.length :=
  (pairwise_triedSplits known s).sublist (List.takeWhile_sublist _)

/-- Behind the root that is tried first the value is the shortest one. -/
theorem rest_ne_nil_of_mem_triedSplits {first : List Char × List Char}
    {splits : List (List Char × List Char)} (htried : triedSplits known s = first :: splits)
    (hfirst : first.2 ≠ []) (h : (root, rest) ∈ triedSplits known s) : rest ≠ [] := by
  have hpairwise := pairwise_triedSplits known s
  have hhead : first ∈ triedSplits known s := by simp [htried]
  have hlength := congrArg List.length
    ((mem_triedSplits_iff.1 hhead).1.symm.trans (mem_triedSplits_iff.1 h).1)
  simp only [List.length_append, List.length_cons] at hlength
  rw [htried] at h hpairwise
  rw [← List.length_pos_iff] at hfirst ⊢
  rcases List.mem_cons.1 h with rfl | h
  · exact hfirst
  · have hlt : root.length < first.1.length := (List.pairwise_cons.1 hpairwise).1 _ h
    omega

theorem mem_dashRoots_iff : (root, rest) ∈ dashRoots known s ↔
    (s = root ++ '-' :: rest ∧ root ≠ [] ∧ known root) ∧ ¬ EndsInRootDash known s := by
  rw [← mem_triedSplits_iff, dashRoots_eq]
  cases htried : triedSplits known s with
  | nil => simp
  | cons first splits =>
    have hhead : first ∈ triedSplits known s := by simp [htried]
    obtain ⟨hs, hfront⟩ := mem_triedSplits_iff.1 hhead
    by_cases hfirst : first.2 = []
    · rw [hfirst] at hs
      rw [List.takeWhile_cons_of_neg (by simp [hfirst])]
      exact iff_of_false List.not_mem_nil fun h => h.2 ⟨first.1, hfront.1, hfront.2, hs⟩
    · have hvalues (root rest : List Char) (h : (root, rest) ∈ triedSplits known s) : rest ≠ [] :=
        rest_ne_nil_of_mem_triedSplits htried hfirst h
      have hall : (first :: splits).takeWhile (fun p => !p.2.isEmpty) = first :: splits := by
        rw [← htried]
        exact List.takeWhile_eq_self_iff.2 fun p hp => by simpa using hvalues p.1 p.2 hp
      rw [hall, iff_self_and]
      rintro - ⟨front, hne, hknown, hend⟩
      exact hvalues front [] (mem_triedSplits_iff.2 ⟨hend, hne, hknown⟩) rfl

theorem mem_dashRoots (h : (root, rest) ∈ dashRoots known s) :
    known root ∧ s = root ++ '-' :: rest := by
  obtain ⟨⟨hs, -, hroot⟩, -⟩ := mem_dashRoots_iff.1 h
  exact ⟨hroot, hs⟩

theorem mem_atRoot_iff : (root, rest) ∈ atRoot known s ↔
    root = ['@'] ∧ known ['@'] ∧ rest ≠ [] ∧ s = '@' :: rest := by
  rw [atRoot.eq_def]
  split
  · next c s =>
    by_cases hat : known ['@']
    · rw [if_pos hat, List.mem_singleton, Prod.mk.injEq]
      constructor
      · rintro ⟨rfl, rfl⟩
        exact ⟨rfl, hat, List.cons_ne_nil _ _, rfl⟩
      · rintro ⟨rfl, -, -, hs⟩
        exact ⟨rfl, (List.cons.inj hs).2.symm⟩
    · simp [hat]
  · next hnone =>
    refine iff_of_false List.not_mem_nil ?_
    rintro ⟨-, -, hrest, rfl⟩
    obtain ⟨c, rest, rfl⟩ := List.exists_cons_of_ne_nil hrest
    exact hnone c rest rfl

private theorem length_atRoot_le (known : List Char → Bool) (s : List Char) :
    (atRoot known s).length ≤ 1 := by
  rw [atRoot.eq_def]
  split
  · split <;> simp
  · simp

theorem atRoot_of_unknown (hat : known ['@'] = false) : atRoot known s = [] := by
  rw [List.eq_nil_iff_forall_not_mem]
  rintro ⟨root, rest⟩ hmem
  rw [(mem_atRoot_iff.1 hmem).2.1] at hat
  cases hat

/-- Only a known `@` takes its value without a dash. -/
theorem isInfix_of_mem_findRoots (h : (root, some rest) ∈ findRoots known s) : rest <:+: s := by
  rw [findRoots, List.mem_append, List.mem_map] at h
  rcases h with h | ⟨⟨root', rest'⟩, hmem, heq⟩
  · obtain ⟨-, h⟩ := List.mem_ite_nil_right.1 h
    cases List.mem_singleton.1 h
  · cases heq
    rcases List.mem_append.1 hmem with hmem | hmem
    · rw [(mem_dashRoots hmem).2]
      exact ((List.suffix_cons _ _).trans (List.suffix_append ..)).isInfix
    · obtain ⟨-, -, -, rfl⟩ := mem_atRoot_iff.1 hmem
      exact (List.suffix_cons _ _).isInfix

theorem mem_findRoots (hat : known ['@'] = false) (h : (root, value) ∈ findRoots known s) :
    known root ∧ s = root ++ value.elim [] ('-' :: ·) := by
  rw [findRoots, atRoot_of_unknown hat, List.append_nil, List.mem_append, List.mem_map] at h
  rcases h with h | ⟨⟨root', rest⟩, hmem, heq⟩
  · split at h
    · next hs =>
      cases List.mem_singleton.1 h
      exact ⟨hs, (List.append_nil s).symm⟩
    · exact absurd h List.not_mem_nil
  · cases heq
    exact mem_dashRoots hmem

theorem nodup_dashRoots : ((dashRoots known s).map Prod.fst).Nodup := by
  refine List.pairwise_map.2 ((pairwise_dashRoots known s).imp ?_)
  intro x y hlt heq
  rw [heq] at hlt
  exact Nat.lt_irrefl _ hlt

/-- The roots that a text may have differ: those in front of its dashes, and the text itself. -/
theorem nodup_findRoots (hat : known ['@'] = false) :
    ((findRoots known s).map Prod.fst).Nodup := by
  have hroots : (findRoots known s).map Prod.fst =
      (if known s then [s] else []) ++ (dashRoots known s).map Prod.fst := by
    rw [findRoots, atRoot_of_unknown hat, List.append_nil, List.map_append, List.map_map]
    split <;> rfl
  rw [hroots]
  split
  · rw [List.singleton_append, List.nodup_cons]
    refine ⟨fun hmem => ?_, nodup_dashRoots⟩
    obtain ⟨⟨root, rest⟩, hmem, rfl⟩ := List.mem_map.1 hmem
    have hlength := congrArg List.length (mem_dashRoots hmem).2
    simp at hlength
  · exact nodup_dashRoots

end Roots

end Chars

section Roots

variable {known : String → Bool} {s root : String} {value : Option String}

theorem mem_findRoots (hat : known "@" = false) (h : (root, value) ∈ findRoots known s) :
    known root ∧ s = root ++ value.elim "" ("-" ++ ·) := by
  obtain ⟨⟨front, rest⟩, hmem, heq⟩ := List.mem_map.1 h
  cases heq
  obtain ⟨hknown, hs⟩ := @Chars.mem_findRoots (known ∘ String.ofList) _ _ _ hat hmem
  refine ⟨hknown, ?_⟩
  rw [← String.toList_inj, String.toList_append, String.toList_ofList, hs]
  cases rest with
  | none => rfl
  | some rest => simp

theorem nodup_findRoots (hat : known "@" = false) : ((findRoots known s).map Prod.fst).Nodup := by
  have hmap : (findRoots known s).map Prod.fst =
      ((Chars.findRoots (known ∘ String.ofList) s.toList).map Prod.fst).map String.ofList := by
    rw [findRoots, List.map_map, List.map_map]
    rfl
  rw [hmap]
  exact (Chars.nodup_findRoots hat).map fun _ _ h => String.ofList_injective h

end Roots

/-- The ways in which a root, or a root and a value, spell a name. -/
inductive Spells (s : String) : String × Option String → Prop where
  | alone : Spells s (s, none)
  | dashed {root value : String} (hvalue : value ≠ "") (hs : s = root ++ "-" ++ value) :
      Spells s (root, some value)
  | behindAt {value : String} (hvalue : value ≠ "") (hs : s = "@" ++ value) :
      Spells s ("@", some value)

section Search

variable {known : String → Bool} {s root value : String}

theorem mem_map_asStrings {ps : List (List Char × List Char)} :
    (root, value) ∈ ps.map Text.asStrings ↔ (root.toList, value.toList) ∈ ps := by
  rw [List.mem_map]
  constructor
  · rintro ⟨p, hp, heq⟩
    cases heq
    simpa using hp
  · intro h
    exact ⟨_, h, by simp [Text.asStrings]⟩

/-- Whether all in front of a dash at the end of a name is a root. -/
def EndsInRootDash (known : String → Bool) (s : String) : Prop :=
  ∃ front, front ≠ "" ∧ known front ∧ s = front ++ "-"

private theorem endsInRootDash_iff : Chars.EndsInRootDash (known ∘ String.ofList) s.toList ↔
    EndsInRootDash known s := by
  constructor
  · rintro ⟨front, hne, hknown, hs⟩
    refine ⟨String.ofList front, by simpa using hne, hknown, ?_⟩
    rw [← String.toList_inj, hs]
    simp
  · rintro ⟨front, hne, hknown, rfl⟩
    exact ⟨front.toList, by simpa using hne, by simpa using hknown, by simp⟩

theorem mem_dashed_iff :
    (root, value) ∈ (Chars.dashRoots (known ∘ String.ofList) s.toList).map Text.asStrings ↔
      (s = root ++ "-" ++ value ∧ root ≠ "" ∧ known root) ∧ ¬ EndsInRootDash known s := by
  rw [mem_map_asStrings, Chars.mem_dashRoots_iff, endsInRootDash_iff, ← String.toList_inj]
  simp

theorem mem_behindAt_iff :
    (root, value) ∈ (Chars.atRoot (known ∘ String.ofList) s.toList).map Text.asStrings ↔
      root = "@" ∧ known "@" ∧ value ≠ "" ∧ s = "@" ++ value := by
  have hroot : root.toList = ['@'] ↔ root = "@" := by simp [← String.toList_inj]
  have hs : s.toList = '@' :: value.toList ↔ s = "@" ++ value := by
    rw [← String.toList_inj, String.toList_append]
    rfl
  rw [mem_map_asStrings, Chars.mem_atRoot_iff, hroot, hs, Ne, Ne, String.toList_eq_nil_iff]
  rfl

/-- No value is empty: behind a root in front of a dash at the end nothing is found. -/
theorem value_ne_empty (hs : s = root ++ "-" ++ value) (hroot : root ≠ "") (hknown : known root)
    (hend : ¬ EndsInRootDash known s) : value ≠ "" := by
  rintro rfl
  exact hend ⟨root, hroot, hknown, by simpa using hs⟩

theorem findRoots_eq_append (known : String → Bool) (s : String) :
    findRoots known s = (if known s then [(s, none)] else []) ++
      ((Chars.dashRoots (known ∘ String.ofList) s.toList).map Text.asStrings ++
        (Chars.atRoot (known ∘ String.ofList) s.toList).map Text.asStrings).map
          fun p => (p.1, some p.2) := by
  rw [findRoots, Chars.findRoots, Function.comp_apply, String.ofList_toList, List.map_append]
  simp only [List.map_append, List.map_map]
  congr 1
  split
  · simp
  · rfl

theorem mem_findRoots_cases {p : String × Option String} (h : p ∈ findRoots known s) :
    (p = (s, none) ∧ known s) ∨ ∃ root value, p = (root, some value) ∧
      (((s = root ++ "-" ++ value ∧ root ≠ "" ∧ known root) ∧ ¬ EndsInRootDash known s) ∨
        (root = "@" ∧ known "@" ∧ value ≠ "" ∧ s = "@" ++ value)) := by
  rw [findRoots_eq_append, List.mem_append, List.mem_map] at h
  rcases h with h | ⟨⟨root, value⟩, h, rfl⟩
  · split at h
    · next hs => exact .inl ⟨List.mem_singleton.1 h, hs⟩
    · exact absurd h List.not_mem_nil
  · refine .inr ⟨root, value, rfl, ?_⟩
    rw [← mem_dashed_iff, ← mem_behindAt_iff, ← List.mem_append]
    exact h

private theorem spells_of_mem_findRoots {p : String × Option String} (h : p ∈ findRoots known s) :
    known p.1 ∧ Spells s p := by
  obtain ⟨rfl, hs⟩ | ⟨root, value, rfl, ⟨⟨hs, hroot, hknown⟩, hend⟩ | ⟨rfl, hknown, hvalue, hs⟩⟩ :=
    mem_findRoots_cases h
  · exact ⟨hs, .alone⟩
  · exact ⟨hknown, .dashed (value_ne_empty hs hroot hknown hend) hs⟩
  · exact ⟨hknown, .behindAt hvalue hs⟩

/-- A root in front of a dash is found, unless all in front of a dash at the end is a root. -/
theorem mem_findRoots_iff (hs : s = root ++ "-" ++ value) (hroot : root ≠ "")
    (hknown : known root) :
    (root, some value) ∈ findRoots known s ↔ ¬ EndsInRootDash known s := by
  constructor
  · intro h
    obtain ⟨heq, -⟩ | ⟨root', value', heq, ⟨-, hend⟩ | ⟨rfl, -, -, hat⟩⟩ := mem_findRoots_cases h
    · cases heq
    · exact hend
    · cases heq
      have hlength := congrArg String.length (hs.symm.trans hat)
      simp only [String.length_append, Nat.add_right_cancel_iff] at hlength
      exact absurd hlength (by decide)
  · intro hend
    rw [findRoots_eq_append]
    refine List.mem_append_right _ (List.mem_map.2 ⟨(root, value), ?_, rfl⟩)
    exact List.mem_append_left _ (mem_dashed_iff.2 ⟨⟨hs, hroot, hknown⟩, hend⟩)

/-- The search returns the whole name, then the splits at its dashes with ever shorter roots, then
the split behind `@`. Each is a known root that spells the name, and in front of each dash a root is
found, unless all in front of a dash at the end is one. -/
theorem findRoots_sound_ordered_complete (known : String → Bool) (s : String) :
    (∀ p ∈ findRoots known s, known p.1 ∧ Spells s p) ∧
    (∃ dashed behindAt : List (String × String),
      findRoots known s = (if known s then [(s, none)] else []) ++
        (dashed ++ behindAt).map (fun p => (p.1, some p.2)) ∧
      (dashed.Pairwise fun p q => q.1.length < p.1.length) ∧
      (∀ p ∈ dashed, s = p.1 ++ "-" ++ p.2) ∧ behindAt.length ≤ 1 ∧
      ∀ p, p ∈ behindAt ↔ p.1 = "@" ∧ known "@" ∧ p.2 ≠ "" ∧ s = "@" ++ p.2) ∧
    ∀ root value, s = root ++ "-" ++ value → root ≠ "" → known root →
      ((root, some value) ∈ findRoots known s ↔ ¬ EndsInRootDash known s) := by
  refine ⟨fun p => spells_of_mem_findRoots, ⟨_, _, findRoots_eq_append known s, ?_, ?_, ?_, ?_⟩,
    fun root value => mem_findRoots_iff⟩
  · refine List.pairwise_map.2 ((Chars.pairwise_dashRoots _ _).imp ?_)
    intro p q hlt
    simpa [Text.asStrings] using hlt
  · exact fun p hp => (mem_dashed_iff.1 hp).1.1
  · rw [List.length_map]
    exact Chars.length_atRoot_le _ _
  · exact fun p => mem_behindAt_iff

/-- A name with two dashes side by side, and roots in front of both. -/
theorem findRoots_sound_ordered_complete_border :
    ("border", some "-2") ∈ findRoots (["border", "border-", "2"].contains ·) "border--2" ∧
    ("border-", some "2") ∈ findRoots (["border", "border-", "2"].contains ·) "border--2" := by
  have hend : ¬ EndsInRootDash (["border", "border-", "2"].contains ·) "border--2" := by
    rintro ⟨front, -, -, hs⟩
    have hlast := congrArg (·.toList.getLast?) hs
    simp at hlast
  have hfound := (findRoots_sound_ordered_complete (["border", "border-", "2"].contains ·)
    "border--2").2.2
  exact ⟨(hfound _ _ rfl (by decide) (by decide)).2 hend,
    (hfound _ _ rfl (by decide) (by decide)).2 hend⟩

end Search

end UtilityCss
