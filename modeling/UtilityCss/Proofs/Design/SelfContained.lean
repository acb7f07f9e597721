import UtilityCss.Proofs.Candidate.Texts
import UtilityCss.Proofs.Design.Sort
import UtilityCss.Proofs.Utility.Recipe
import UtilityCss.Proofs.Variant.Reading

/-!
# Rules that reach nowhere else

What the built-in design system compiles is read back as one rule after it has been printed, if no text
in brackets of the class name reaches outside: no comment opens in it, no block outside of brackets,
and no backslash takes what is behind it with it. Nothing in such a rule ends it, opens another or hides
what follows. The checks of texts in brackets see to all else.
-/

namespace UtilityCss

/-- Whether nothing that stands in brackets in a candidate's form reaches outside. The value of a custom
property may hold blocks. -/
def CandidateForm.StaysInside : CandidateForm → Prop
  | static _ _ => True
  | functional _ value modifier _ =>
    (∀ s ∈ value.bind (·.inBrackets?), ¬ ReachesOut .part s) ∧
      ∀ s ∈ modifier.bind (·.inBrackets?), ¬ ReachesOut .part (Text.trim s)
  | property name value modifier =>
    (¬ ReachesOut .part value ∨ Chars.isCustomProperty name.toList ∧ modifier = none ∧
      Chars.reachesOut .whole {} false (value.toList.map Chars.bracketed) = false) ∧
      ∀ s ∈ modifier.bind (·.inBrackets?), ¬ ReachesOut .part (Text.trim s)

instance : DecidablePred CandidateForm.StaysInside
  | .static _ _ => inferInstanceAs (Decidable True)
  | .functional _ _ _ _ => inferInstanceAs (Decidable (_ ∧ _))
  | .property _ _ _ => inferInstanceAs (Decidable ((_ ∨ _ ∧ _ ∧ _) ∧ _))

def Candidate.StaysInside (c : Candidate) : Prop :=
  c.form.StaysInside ∧ ∀ v ∈ c.variants, v.StaysInside .part

instance : DecidablePred Candidate.StaysInside :=
  fun c => inferInstanceAs (Decidable (c.form.StaysInside ∧ ∀ v ∈ c.variants, v.StaysInside .part))

/-- Whether nothing that stands in brackets in a class name reaches outside, whichever way the name is
read. -/
def DesignSystem.StaysInside (d : DesignSystem) (raw : String) : Prop :=
  ∀ c ∈ d.candidates raw, c.StaysInside

instance (d : DesignSystem) : DecidablePred d.StaysInside :=
  fun raw => inferInstanceAs (Decidable (∀ c ∈ d.candidates raw, c.StaysInside))

namespace CandidateForm.StaysInside

variable {c : Candidate} {raw : String}

theorem value (h : c.form.StaysInside) (hc : c.form.Holds (StandsFor raw)) :
    ∀ v ∈ c.value?, v.Holds (Passes .part) := by
  intro v hv
  refine (hc.value v hv).imp fun s hs hstands => hstands.passes ?_
  rw [Candidate.value?] at hv
  split at hv
  · next hform =>
    rw [hform] at h
    exact h.1 s (Option.bind_eq_some_iff.2 ⟨v, hv, hs⟩)
  · cases hv

theorem modifier (h : c.form.StaysInside) (hc : c.form.Holds (StandsFor raw)) :
    ∀ m ∈ c.modifier?, m.Holds fun s => Passes .part (Text.trim s) := by
  intro m hm
  refine (hc.modifier m hm).imp fun s hs hstands => hstands.passes_trim ?_
  rw [Candidate.modifier?] at hm
  split at hm
  · next hform =>
    rw [hform] at h
    exact h.2 s (Option.bind_eq_some_iff.2 ⟨m, hm, hs⟩)
  · next hform =>
    rw [hform] at h
    exact h.2 s (Option.bind_eq_some_iff.2 ⟨m, hm, hs⟩)
  · cases hm

end CandidateForm.StaysInside

theorem CompiledCandidate.closed_rule {c : CompiledCandidate} (h : Closed .part c.nodes) :
    Closed .part [c.rule] := by
  refine closed_singleton.2 ⟨⟨?_, ?_⟩, h⟩
  · have hinert : Chars.Inert .part 0 (Chars.escape c.candidate.raw.toList) :=
      Chars.inert_escape (k := .part) (fun h => absurd h Bool.false_ne_true) _
    have htext : ("." ++ escape c.candidate.raw).toList =
        '.' :: Chars.escape c.candidate.raw.toList := by
      simp [escape]
    refine ⟨false, ?_⟩
    rw [htext]
    exact (hinert 0).1 (Nat.le_refl 0)
  · apply Chars.headsRule_of_startsRule
    rw [String.toList_append]
    rfl

theorem closed_property {raw name value : String} {modifier : Option Argument}
    (hc : (CandidateForm.property name value modifier).Holds (StandsFor raw))
    (hstays : (CandidateForm.property name value modifier).StaysInside) :
    Closed .part [.plain name value] := by
  obtain ⟨hname, ⟨hplain, -⟩, -⟩ := hc
  refine closed_singleton.2 ⟨⟨hname, ?_⟩, closed_nil⟩
  rcases hstays.1 with hout | ⟨hcustom, -, hout⟩
  · exact .inl (passes_of_isPlainValue hplain hout)
  · exact .inr ⟨hcustom, holdsBlocks_of_isPlainValue hplain hout⟩

namespace DesignSystem

variable {t : Theme} {dark : DarkMode} {c : Candidate} {ns : List Node} {raw : String}

theorem closed_generate {order : Nat} (ht : t.IsClosed) (hc : c.form.Holds (StandsFor raw))
    (hstays : c.form.StaysInside) (h : (builtin t dark).generate? c = some (ns, order)) :
    Closed .part ns ∧ anyFull false ns := by
  have hentry {name : String} {kind : UtilityKind}
      (h : (builtin t dark).utilities.generate? t name kind c = some (ns, order)) :
      Closed .part ns ∧ anyFull false ns := by
    obtain ⟨e, he, hnodes⟩ := Utilities.exists_of_generate h
    have hgood : GoodNodes (Passes .part) ns := (isSound_builtinUtilities e he).nodes textLaws_passes ht
      (hstays.value hc) (hstays.modifier hc) hnodes
    exact hgood.imp_left Sound.closed
  have hmodifier := hstays.modifier hc
  rw [generate?.eq_def] at h
  split at h
  · exact hentry h
  · exact hentry h
  · next hform =>
    rw [hform] at hc hstays
    cases h
    exact ⟨closed_property hc hstays, rfl⟩
  · next m hform =>
    rw [Candidate.modifier?, hform] at hmodifier
    rw [hform] at hc hstays
    obtain ⟨alpha, halpha, h⟩ := Option.bind_eq_some_iff.1 h
    cases h
    rcases hstays.1 with hout | ⟨-, hnone, -⟩
    · have hvalue := holds_withAlpha textLaws_passes (passes_of_isPlainValue hc.2.1.1 hout)
        (holds_alphaOf textLaws_passes ht (hmodifier m rfl) halpha)
      exact (goodNodes_plain hc.1 hvalue).imp_left Sound.closed
    · cases hnone

private theorem closed_compileReading {cc : CompiledCandidate} (ht : t.IsClosed)
    (hdark : dark.IsClosed)
    (hc : c ∈ (builtin t dark).candidates raw) (hstays : c.StaysInside)
    (h : (builtin t dark).compileReading? c = some cc) :
    Closed .part cc.nodes ∧ anyFull false cc.nodes := by
  obtain ⟨hform, hvariants⟩ := holds_of_mem_readCandidates hc
  obtain ⟨⟨ns, order⟩, hns, h⟩ := Option.bind_eq_some_iff.1 h
  obtain ⟨nodes, hnodes, h⟩ := Option.bind_eq_some_iff.1 h
  cases h
  obtain ⟨hclosed, hfull⟩ := closed_generate ht hform hstays.1 hns
  have hsound : ∀ v ∈ c.variants, v.IsSound (builtin t dark).variants .part := by
    intro v hv
    obtain ⟨text, -, hread⟩ := hvariants v hv
    exact Variant.isSound_of_read? hread (hstays.2 v hv)
  refine (Variants.isClosed_builtin ht hdark).wrapAll hsound ?_ hnodes
  split
  · exact ⟨closed_markImportant hclosed, by rw [anyFull_markImportant, hfull]⟩
  · exact ⟨hclosed, hfull⟩

theorem closed_compile {cc : CompiledCandidate} (ht : t.IsClosed) (hdark : dark.IsClosed)
    (hraw : (builtin t dark).StaysInside raw) (h : (builtin t dark).compile? raw = some cc) :
    Closed .part cc.nodes ∧ anyFull false cc.nodes := by
  obtain ⟨c, hc, hread⟩ := List.exists_of_findSome?_eq_some h
  exact closed_compileReading ht hdark hc (hraw c hc) hread

/-- Blocks in a custom property and a slash in front of `&` stay inside, unlike a comment, a block in
another property and a backslash. -/
example :
    (∀ raw ∈ ["[--x:\x7ba\x7d]", "[a/&]:flex"], (builtin {} .media).StaysInside raw) ∧
      ∀ raw ∈ ["[color:red/*]", "[color:\x7ba\x7d]", "[color:a\\]"],
        ¬ (builtin {} .media).StaysInside raw := by
  decide +kernel

end DesignSystem

end UtilityCss
