import UtilityCss.Proofs.Text.Blank
import UtilityCss.Proofs.Variant.Wrap
import UtilityCss.Variant.Parser

/-!
# Variants that are read

The names in a variant are plain ones, and a selector in brackets begins like that of a rule. The texts
in brackets are closed, unless they reach outside although they have passed the checks.
-/

namespace UtilityCss

/-- Whether nothing that stands in brackets in a variant reaches outside. What stands inside a compound
is part of a selector. A selector may not look like a custom property, and an at-rule has a name. -/
def Variant.StaysInside (k : TextKind) : Variant → Prop
  | static _ => True
  | functional _ value modifier =>
    (∀ s ∈ value.bind (·.inBrackets?), ¬ ReachesOut k s) ∧
      ∀ s ∈ modifier.bind (·.inBrackets?), ¬ ReachesOut k s
  | compound _ _ inner => inner.StaysInside .selector
  | arbitrary selector _ =>
    if Text.startsWith selector "@" then
      ∀ p ∈ Node.atHead? selector, Chars.isAtName p.1.toList ∧ ¬ ReachesOut .part p.2
    else ¬ ReachesOut k selector ∧ ¬ Chars.startsCustomProperty selector.toList

instance Variant.decidableStaysInside (k : TextKind) : (v : Variant) → Decidable (v.StaysInside k)
  | static _ => inferInstanceAs (Decidable True)
  | functional _ _ _ => inferInstanceAs (Decidable (_ ∧ _))
  | compound _ _ inner => inner.decidableStaysInside .selector
  | arbitrary selector _ =>
    inferInstanceAs (Decidable (if Text.startsWith selector "@" = true then _ else _ ∧ _))

namespace Chars

private theorem leads_trim {s : List Char} (hat : (trim s).head? ≠ some '@') : leads (trim s) := by
  cases htrim : trim s with
  | nil => rfl
  | cons c t =>
    have hne : c ≠ '@' := by
      rintro rfl
      exact hat (by rw [htrim]; rfl)
    simp [leads, isNodeGap_of_isBlank (isBlank_head_trim htrim), hne]

end Chars

theorem head?_ne_of_startsWith {s : String} {c : Char}
    (h : Text.startsWith s (String.singleton c) = false) : s.toList.head? ≠ some c := by
  intro hhead
  rw [Text.startsWith, String.toList_singleton] at h
  cases hs : s.toList with
  | nil =>
    rw [hs] at hhead
    cases hhead
  | cons d t =>
    rw [hs, List.head?_cons, Option.some_inj] at hhead
    subst hhead
    simp [hs, List.isPrefixOf] at h

section Arbitrary

variable {k : TextKind} {v : Variant} {raw inner s selector : String}

/-- How a selector stands for what is decoded in brackets: it is trimmed, or put behind `&` as a
condition. -/
inductive IsSelectorOf (s : String) : String → Prop where
  | trimmed : IsSelectorOf s (Text.trim s)
  | condition : IsSelectorOf s ("&:is(" ++ Text.trim s ++ ")")

theorem readArbitraryVariant?_cases (h : readArbitraryVariant? inner = some v) :
    ∃ selector relative, v = .arbitrary selector relative ∧ isPlainValue (decodeArbitrary inner) ∧
      IsSelectorOf (decodeArbitrary inner) selector := by
  rw [readArbitraryVariant?] at h
  obtain ⟨-, h⟩ := Option.ite_none_left_eq_some.1 h
  obtain ⟨hplain, h⟩ := Option.ite_none_left_eq_some.1 h
  refine ⟨_, _, (Option.some.inj h).symm, by simpa using hplain, ?_⟩
  split
  · exact .trimmed
  · exact .condition

theorem IsSelectorOf.leads (h : IsSelectorOf s selector) (hat : Text.startsWith selector "@" = false) :
    Chars.leads selector.toList := by
  cases h with
  | trimmed =>
    have hhead := head?_ne_of_startsWith (c := '@') hat
    rw [Text.trim, String.toList_ofList] at hhead ⊢
    exact Chars.leads_trim hhead
  | condition =>
    rw [String.append_assoc, String.toList_append]
    rfl

theorem IsSelectorOf.passes (h : IsSelectorOf s selector) (hplain : isPlainValue s)
    (hout : ¬ ReachesOut k selector) : Passes k selector := by
  cases h with
  | trimmed => exact passes_trim_of_isPlainValue hplain hout
  | condition =>
    have hbalanced : isBalanced s := (isPlainValue_iff.1 hplain).2.1
    exact passes_call (by decide) rfl (isBalanced_trim hbalanced) hout

theorem IsSelectorOf.headsAtRule (h : IsSelectorOf s selector) (hplain : isPlainValue s)
    (hat : Text.startsWith selector "@")
    (hhead : ∀ p ∈ Node.atHead? selector, Chars.isAtName p.1.toList ∧ ¬ ReachesOut .part p.2) :
    HeadsAtRule selector := by
  intro p hp
  obtain ⟨hname, hout⟩ := hhead p hp
  cases h with
  | trimmed => exact ⟨hname, passes_params hplain hp hname hout⟩
  | condition =>
    obtain ⟨rest, hrest⟩ := Text.startsWith_iff.1 hat
    have hchars := congrArg String.toList hrest
    simp at hchars

private theorem Variant.isSound_of_readArbitraryVariant? {vs : Variants}
    (h : readArbitraryVariant? inner = some v) (hstays : v.StaysInside k) : v.IsSound vs k := by
  obtain ⟨selector, relative, rfl, hplain, hselector⟩ := readArbitraryVariant?_cases h
  rw [StaysInside] at hstays
  rw [IsSound]
  split at hstays
  · next hat =>
    rw [if_pos hat]
    exact hselector.headsAtRule hplain hat hstays
  · next hat =>
    rw [if_neg hat]
    refine ⟨hselector.passes hplain hstays.1, ?_⟩
    rw [Chars.headsRule, hselector.leads (Bool.eq_false_iff.2 hat), Bool.true_and, Bool.not_eq_true',
      ← Bool.not_eq_true]
    exact hstays.2

/-- A variant that is read is closed, unless something in it reaches outside. -/
theorem Variant.isSound_of_read? {vs : Variants} (h : vs.read? raw = some v)
    (hstays : v.StaysInside k) : v.IsSound vs k := by
  have hargument {k : TextKind} {a? : Option Argument} (ha : ∀ a ∈ a?, a.Holds (StandsFor raw))
      (hstays : ∀ s ∈ a?.bind (·.inBrackets?), ¬ ReachesOut k s) : ∀ a ∈ a?, a.Holds (Passes k) :=
    fun a hmem => (ha a hmem).imp fun s hs hstands =>
      hstands.passes (hstays s (Option.bind_eq_some_iff.2 ⟨a, hmem, hs⟩))
  -- Inside a compound the text is part of a selector, whatever it is part of outside.
  refine Variants.readFrom?_induction (P := fun v => ∀ k, v.StaysInside k → v.IsSound vs k)
    ?_ ?_ ?_ ?_ (List.infix_refl raw.toList) h k hstays
  · intro inner v _ h k hstays
    exact isSound_of_readArbitraryVariant? h hstays
  · intro root k _
    trivial
  · intro root value modifier hvalue hmodifier k hstays
    exact ⟨hargument hvalue hstays.1, hargument hmodifier hstays.2⟩
  · intro root modifier w _ hcompounds hw k hstays
    exact ⟨hcompounds, hw .selector hstays⟩

end Arbitrary

end UtilityCss
