import UtilityCss.Proofs.Text.Find
import UtilityCss.Proofs.Theme.Path

/-!
# Ways of writing a path

The first segment of a path stands as it is, and every other one follows a dot or stands in brackets,
with quotes around it or without. However a path is written, the same segments are read in it, so it
leads to the same entry. If the custom property that the segments name is in the theme, it is that
entry.
-/

namespace UtilityCss

/-- How a segment is written behind others. -/
inductive SegmentForm where
  | dotted
  | bracketed
  | singleQuoted
  | doubleQuoted

def SegmentForm.write : SegmentForm → List Char → List Char
  | dotted, s => '.' :: s
  | bracketed, s => '[' :: s ++ [']']
  | singleQuoted, s => '[' :: '\'' :: s ++ ['\'', ']']
  | doubleQuoted, s => '[' :: '"' :: s ++ ['"', ']']

/-- A path of a first segment and others, each in a form of its own. -/
def writtenPath (first : String) (rest : List (SegmentForm × String)) : String :=
  String.ofList (first.toList ++ rest.flatMap fun p => p.1.write p.2.toList)

/-- Whether a text may be a segment in every form: it is something, and neither dots, brackets and
quotes nor white space stand in it. -/
def IsPathName (s : String) : Prop :=
  s ≠ "" ∧ ∀ c ∈ s.toList, c ∉ ['.', '[', ']', '"', '\''] ∧ isBlank c = false

namespace Chars

variable {s before behind current : List Char} {c : Char} {rest : List (SegmentForm × List Char)}

/-- Quotes around a segment are taken off, as many as there are. -/
theorem stripQuotes_append (hs : IsSegment s) (hbefore : ∀ c ∈ before, c == '"' || c == '\'')
    (hbehind : ∀ c ∈ behind, c == '"' || c == '\'') : stripQuotes (before ++ s ++ behind) = s := by
  have hstop {s : List Char} (hs : IsSegment s) (t : List Char) :
      ((s ++ t).dropWhile fun c => c == '"' || c == '\'') = s ++ t := by
    obtain ⟨c, s, rfl⟩ := List.exists_cons_of_ne_nil hs.1
    have hc := hs.2 c List.mem_cons_self
    refine List.dropWhile_cons_of_neg ?_
    simp_all
  have hreverse : IsSegment s.reverse :=
    ⟨List.reverse_ne_nil_iff.2 hs.1, fun c hc => hs.2 c (List.mem_reverse.1 hc)⟩
  have hlast := hstop hreverse []
  rw [List.append_nil] at hlast
  rw [stripQuotes, strip, List.append_assoc, List.dropWhile_append_of_pos hbefore, hstop hs,
    List.reverse_append, List.dropWhile_append_of_pos fun c hc => hbehind c (List.mem_reverse.1 hc),
    hlast, List.reverse_reverse]

theorem pathSegments_write (h : ∀ p ∈ rest, IsSegment p.2 ∧ '.' ∉ p.2) :
    pathSegments false current (rest.flatMap fun p => p.1.write p.2) =
      some (addSegment current (rest.map (·.2))) := by
  induction rest generalizing current with
  | nil => rfl
  | cons p rest ih =>
    obtain ⟨form, s⟩ := p
    obtain ⟨⟨hs, hdot⟩, hrest⟩ := List.forall_mem_cons.1 h
    have ne_of_mem {c : Char} (hc : c ∈ s) {d : Char} (hd : d ∈ ['[', ']', '"', '\'']) : c ≠ d := by
      rintro rfl
      exact hs.2 c hc hd
    -- between brackets all up to the closing one is read, and then the quotes are taken off
    have inner (quotes : List Char) (hclose : ']' ∉ quotes)
        (hquotes : ∀ c ∈ quotes, c == '"' || c == '\'') :
        pathSegments false current
            ('[' :: (quotes ++ s ++ quotes ++ ']' :: rest.flatMap fun p => p.1.write p.2)) =
          some (addSegment current (s :: rest.map (·.2))) := by
      have hend : ∀ c ∈ quotes ++ s ++ quotes, c ≠ ']' := by
        rintro c hc rfl
        simp only [List.mem_append, hclose, false_or, or_false] at hc
        exact ne_of_mem hc (by decide) rfl
      rw [pathSegments, pathSegments_inner hend, ih hrest, List.reverse_nil, List.nil_append,
        stripQuotes_append hs hquotes hquotes]
      rfl
    cases form with
    | dotted =>
      have hplain : ∀ c ∈ s, c ≠ '.' ∧ c ≠ '[' := fun c hc =>
        ⟨fun heq => hdot (heq ▸ hc), ne_of_mem hc (by decide)⟩
      have hempty : s.reverse.isEmpty = false := by simpa using hs.1
      rw [List.flatMap_cons, SegmentForm.write, List.cons_append, pathSegments,
        pathSegments_name hplain, List.append_nil, ih hrest, addSegment, hempty,
        List.reverse_reverse]
      rfl
    | bracketed => simpa [SegmentForm.write] using inner [] (by decide) (by decide)
    | singleQuoted => simpa [SegmentForm.write] using inner ['\''] (by decide) (by decide)
    | doubleQuoted => simpa [SegmentForm.write] using inner ['"'] (by decide) (by decide)

theorem isBlank_of_mem_kebab (h : ∀ c ∈ s, isBlank c = false) {afterSmall : Bool} :
    ∀ c ∈ kebab afterSmall s, isBlank c = false := by
  induction s generalizing afterSmall with
  | nil => nofun
  | cons d s ih =>
    obtain ⟨hd, hs⟩ := List.forall_mem_cons.1 h
    rw [kebab]
    split
    · next hupper =>
      rw [Bool.and_eq_true, isUpper_iff] at hupper
      have hlower := of_forall_ofNat (P := fun c => 65 ≤ c.toNat ∧ c.toNat ≤ 90 →
        isBlank c.toLower = false) (by decide) (by omega) hupper.1
      exact List.forall_mem_cons.2 ⟨by decide, List.forall_mem_cons.2 ⟨hlower, ih hs⟩⟩
    · exact List.forall_mem_cons.2 ⟨hd, ih hs⟩

end Chars

section Written

variable {first : String} {rest : List (SegmentForm × String)}

theorem IsPathName.isSegment {s : String} (h : IsPathName s) :
    Chars.IsSegment s.toList ∧ '.' ∉ s.toList := by
  refine ⟨⟨by simpa using h.1, fun c hc hmem => ?_⟩, fun hdot => ?_⟩
  · exact (h.2 c hc).1 (List.mem_cons_of_mem _ hmem)
  · exact (h.2 '.' hdot).1 List.mem_cons_self

theorem keyPath_writtenPath (hfirst : IsPathName first) (hrest : ∀ p ∈ rest, IsPathName p.2) :
    keyPath (writtenPath first rest) = some (first :: rest.map (·.2)) := by
  have hname : ∀ c ∈ first.toList, c ≠ '.' ∧ c ≠ '[' := by
    refine fun c hc => ⟨?_, ?_⟩ <;> rintro rfl
    · exact hfirst.isSegment.2 hc
    · exact hfirst.isSegment.1.2 '[' hc (by decide)
  have hempty : first.toList.reverse.isEmpty = false := by simpa using hfirst.1
  have hforms : (rest.flatMap fun p => p.1.write p.2.toList) =
      (rest.map fun p => (p.1, p.2.toList)).flatMap fun p => p.1.write p.2 := by
    rw [List.flatMap_map]
  have hsegments : Chars.pathSegments false [] (writtenPath first rest).toList =
      some (first.toList :: rest.map fun p => p.2.toList) := by
    rw [writtenPath, String.toList_ofList, Chars.pathSegments_name hname, List.append_nil, hforms,
      Chars.pathSegments_write, Chars.addSegment, hempty, List.reverse_reverse, List.map_map]
    · rfl
    · exact List.forall_mem_map.2 fun p hp => (hrest p hp).isSegment
  rw [keyPath, hsegments]
  simp

private theorem trim_writtenPath (hfirst : IsPathName first) (hrest : ∀ p ∈ rest, IsPathName p.2) :
    Text.trim (writtenPath first rest) = writtenPath first rest := by
  apply String.toList_inj.1
  rw [Text.trim, String.toList_ofList]
  refine Chars.trim_eq_self_of_forall ?_
  rw [writtenPath, String.toList_ofList, List.forall_mem_append]
  refine ⟨fun c hc => (hfirst.2 c hc).2, fun c hc => ?_⟩
  obtain ⟨⟨form, s⟩, hp, hc⟩ := List.mem_flatMap.1 hc
  have hs : c ∈ s.toList → isBlank c = false := fun hc => ((hrest _ hp).2 c hc).2
  have hmarks : ∀ c ∈ ['.', '[', ']', '"', '\''], isBlank c = false := by decide
  have hmem : c ∈ s.toList ∨ c ∈ ['.', '[', ']', '"', '\''] := by
    cases form <;> simp [SegmentForm.write] at hc <;> grind
  exact hmem.elim hs (hmarks c)

theorem startsWith_writtenPath (hfirst : IsPathName first)
    (hdashes : Text.startsWith first "--" = false) :
    Text.startsWith (writtenPath first rest) "--" = false := by
  have hne : first.toList ≠ [] := by simpa using hfirst.1
  obtain ⟨c, s, hname⟩ := List.exists_cons_of_ne_nil hne
  rw [Text.startsWith, hname] at hdashes
  rw [Text.startsWith, writtenPath, String.toList_ofList, hname]
  cases s with
  | cons d s => simpa [List.isPrefixOf] using hdashes
  | nil =>
    cases rest with
    | nil => simp [List.isPrefixOf]
    | cons p rest =>
      obtain ⟨form, s⟩ := p
      cases form <;> simp [SegmentForm.write, List.isPrefixOf]

theorem isBlank_of_mem_plainKey {path : List String} (hfirst : IsPathName first)
    (hpath : ∀ s ∈ path, IsPathName s) : ∀ c ∈ (plainKey first path).toList, isBlank c = false := by
  have hname : ∀ c ∈ (namespaceName first).toList, isBlank c = false := by
    rw [namespaceName]
    cases hlookup : namespaceNames.lookup first with
    | none => exact fun c hc => (hfirst.2 c hc).2
    | some other =>
      have htable : ∀ p ∈ namespaceNames, ∀ c ∈ p.2.toList, isBlank c = false := by decide
      obtain ⟨before, behind, heq, -⟩ := List.lookup_eq_some_iff.1 hlookup
      exact htable (first, other) (heq ▸ List.mem_append_right _ List.mem_cons_self)
  have hparts : ∀ part ∈ Chars.kebab false (namespaceName first).toList ::
      (dropDefault path).map fun s => Chars.kebab false s.toList, ∀ c ∈ part, isBlank c = false := by
    refine List.forall_mem_cons.2 ⟨Chars.isBlank_of_mem_kebab hname, List.forall_mem_map.2 ?_⟩
    intro s hs
    have hsegment := hpath s (dropDefault_subset path hs)
    exact Chars.isBlank_of_mem_kebab fun c hc => (hsegment.2 c hc).2
  rw [toList_plainKey, List.forall_mem_append, Chars.forall_mem_intercalate (by decide)]
  exact ⟨by decide, hparts⟩

namespace Theme

/-- The property that a path names leads to an entry of its own key, with the dots in it escaped if
need be. -/
theorem lookupPath_plainKey {path : List String} (hfirst : IsPathName first)
    (hpath : ∀ s ∈ path, IsPathName s) (t : Theme) : t.lookupPath (plainKey first path) =
      (t.get? (plainKey first path) <|> t.get? (escapeDots (plainKey first path))) := by
  have htrim : Text.trim (plainKey first path) = plainKey first path := by
    apply String.toList_inj.1
    rw [Text.trim, String.toList_ofList]
    exact Chars.trim_eq_self_of_forall (isBlank_of_mem_plainKey hfirst hpath)
  have hdashes : Text.startsWith (plainKey first path) "--" := Text.startsWith_iff.2 ⟨_, rfl⟩
  rw [lookupPath]
  simp only [htrim, hdashes, if_true]

/-- A path is read as its segments however it is written, so all ways of writing it lead to the same
entry. If the property that the segments name leads to an entry, they all lead to that one. -/
theorem lookupPath_writtenPath (hfirst : IsPathName first)
    (hdashes : Text.startsWith first "--" = false) (hrest : ∀ p ∈ rest, IsPathName p.2) :
    keyPath (writtenPath first rest) = some (first :: rest.map (·.2)) ∧
      ∃ key, keyPathToProperty (first :: rest.map (·.2)) = some key ∧ ∀ t : Theme,
        (∀ rest', rest'.map (·.2) = rest.map (·.2) →
          t.lookupPath (writtenPath first rest') = t.lookupPath (writtenPath first rest)) ∧
        ∀ e, t.lookupPath key = some e → t.lookupPath (writtenPath first rest) = some e := by
  have hpath : ∀ s ∈ rest.map (·.2), IsPathName s := List.forall_mem_map.2 hrest
  have hkey : keyPathToProperty (first :: rest.map (·.2)) = some (plainKey first (rest.map (·.2))) :=
    keyPathToProperty_eq fun s hs => (hpath s hs).1
  have hlookup (t : Theme) (rest' : List (SegmentForm × String))
      (heq : rest'.map (·.2) = rest.map (·.2)) := by
    have hrest' : ∀ p ∈ rest', IsPathName p.2 := by
      rw [← heq] at hpath
      exact List.forall_mem_map.1 hpath
    have hsegments := keyPath_writtenPath hfirst hrest'
    rw [heq] at hsegments
    exact lookupPath_eq (trim_writtenPath hfirst hrest') (startsWith_writtenPath hfirst hdashes)
      hsegments hkey t
  refine ⟨keyPath_writtenPath hfirst hrest, _, hkey, fun t => ⟨fun rest' heq => ?_, fun e he => ?_⟩⟩
  · rw [hlookup t rest' heq, hlookup t rest rfl]
  · rw [lookupPath_plainKey hfirst hpath] at he
    rw [hlookup t rest rfl]
    simp only [Option.orElse_eq_orElse, Option.orElse_eq_or, Option.or_eq_some_iff] at he ⊢
    exact he.imp_right (And.imp_right .inl)

def redTheme : Theme := ofEvents [.set "--color-red-500" "#f00" {}]

theorem lookupPath_writtenPath_red :
    redTheme.lookupPath (writtenPath "colors" [(.singleQuoted, "red"), (.dotted, "500")]) =
        redTheme.lookupPath (writtenPath "colors" [(.bracketed, "red"), (.doubleQuoted, "500")]) ∧
      redTheme.lookupPath (writtenPath "colors" [(.singleQuoted, "red"), (.dotted, "500")]) =
        some ⟨"--color-red-500", "#f00", {}, true⟩ := by
  have hcolors : IsPathName "colors" := ⟨by decide, by decide⟩
  have hred : IsPathName "red" := ⟨by decide, by decide⟩
  have hshade : IsPathName "500" := ⟨by decide, by decide⟩
  have hrest : ∀ p ∈ [(SegmentForm.singleQuoted, "red"), (.dotted, "500")], IsPathName p.2 := by
    simpa using And.intro hred hshade
  obtain ⟨-, key, hkey, hlookup⟩ := lookupPath_writtenPath hcolors (by decide) hrest
  have hproperty : keyPathToProperty ["colors", "red", "500"] = some "--color-red-500" := by
    decide +kernel
  obtain rfl := Option.some.inj (hproperty.symm.trans hkey)
  obtain ⟨hsame, hentry⟩ := hlookup redTheme
  exact ⟨(hsame [(.bracketed, "red"), (.doubleQuoted, "500")] rfl).symm,
    hentry _ (by decide +kernel)⟩

end Theme

end Written

end UtilityCss
