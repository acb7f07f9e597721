import UtilityCss.Proofs.Stylesheet.Closed
import UtilityCss.Proofs.Stylesheet.Inert
import UtilityCss.Proofs.Text.Call
import UtilityCss.Theme.Lookup

/-!
# Texts that are put together

The texts that utilities and variants write are put together from parts of a class name, keys and
values of the theme, and pieces of their own. Whatever is asked of a text can be asked of all of them
if putting texts together keeps it. Two such demands are that a scan passes over the text, and that
no call of a function begins in it.
-/

namespace UtilityCss

section KeyText

namespace Chars

def isKeyChar (c : Char) : Bool := isTame c || c == '/'

theorem run_keyChars {s : List Char} (hs : ∀ c ∈ s, isKeyChar c) (slash : Bool) :
    ∃ slash', (Place.plain 0 slash).run .part s = some (.plain 0 slash') := by
  induction s generalizing slash with
  | nil => exact ⟨slash, rfl⟩
  | cons c s ih =>
    have hc := hs c List.mem_cons_self
    have ih := ih fun c hc => hs c (List.mem_cons_of_mem _ hc)
    rw [isKeyChar, Bool.or_eq_true, beq_iff_eq] at hc
    rcases hc with hc | rfl
    · rw [Place.run_cons, next_tame hc]
      exact ih false
    · have hslash : (Place.plain 0 slash).next .part '/' = some (.plain 0 true) := by
        cases slash <;> rfl
      rw [Place.run_cons, hslash]
      exact ih true

end Chars

def IsKeyText (s : String) : Prop := ∀ c ∈ s.toList, Chars.isKeyChar c

instance : DecidablePred IsKeyText :=
  fun s => inferInstanceAs (Decidable (∀ c ∈ s.toList, Chars.isKeyChar c = true))

theorem IsTame.isKeyText {s : String} (h : IsTame s) : IsKeyText s := by
  intro c hc
  rw [Chars.isKeyChar, h c hc]
  rfl

theorem isKeyText_append {s t : String} : IsKeyText (s ++ t) ↔ IsKeyText s ∧ IsKeyText t := by
  unfold IsKeyText
  rw [String.toList_append]
  grind

theorem IsKeyText.passes {s : String} (h : IsKeyText s) : Passes .part s := Chars.run_keyChars h false

theorem IsKeyText.replaceChar {s phrase : String} (c : Char) (h : IsKeyText s)
    (hphrase : IsKeyText phrase) : IsKeyText (Text.replaceChar c phrase s) := by
  rw [IsKeyText, Text.replaceChar]
  rw [String.toList_ofList]
  intro d hd
  obtain ⟨e, he, hd⟩ := List.mem_flatMap.1 hd
  split at hd
  · exact hphrase d hd
  · obtain rfl := List.mem_singleton.1 hd
    exact h d he

theorem inert_escapeKeySegment (s : String) :
    Chars.Inert .part 0 (escapeKeySegment s).toList := by
  rw [escapeKeySegment]
  rw [String.toList_ofList]
  refine Chars.inert_flatMap fun c _ => ?_
  split
  · next hc =>
    refine Chars.inert_tame fun d hd => ?_
    obtain rfl := List.mem_singleton.1 hd
    exact Chars.isTame_of (by decide) hc
  · exact Chars.inert_escaped nofun

end KeyText

section Scan

/-- Whether a scan passes over the pieces of a template, with a value between any two, from inside
`d` brackets to outside of all. A slash at the end of the value may matter to the next piece. -/
def fits (d : Nat) (slash : Bool) : List String → Bool
  | [] => false
  | [s] => Chars.endsPlain (Chars.scanTo .part (.plain d slash) (Text.chars s))
  | s :: t :: ss => match Chars.scanTo .part (.plain d slash) (Text.chars s) with
    | some (.plain d' false) => fits d' false (t :: ss) && fits d' true (t :: ss)
    | _ => false

private theorem run_intercalate {value : String} (hvalue : Passes .part value) {d : Nat}
    {slash : Bool}
    {pieces : List String} (h : fits d slash pieces) :
    ∃ slash', (Place.plain d slash).run .part (value.intercalate pieces).toList =
      some (.plain 0 slash') := by
  fun_induction fits d slash pieces with
  | case1 => exact absurd h Bool.false_ne_true
  | case2 d slash s =>
    rw [Chars.scanTo_eq, Text.chars_eq, Chars.endsPlain_iff] at h
    rw [String.intercalate_singleton]
    exact h
  | case3 d slash s t ss d' hrun ihfalse ihtrue =>
    rw [Chars.scanTo_eq, Text.chars_eq] at hrun
    rw [Bool.and_eq_true] at h
    obtain ⟨slash', hvalue⟩ := hvalue.run rfl d'
    rw [String.intercalate_cons_cons, String.toList_append, String.toList_append,
      List.append_assoc, Place.run_append_of hrun, Place.run_append_of hvalue]
    cases slash' with
    | false => exact ihfalse h.1
    | true => exact ihtrue h.2
  | case4 => exact absurd h Bool.false_ne_true

end Scan

section CallFree

/-- How the calls of functions begin that are evaluated, and those that a declared utility answers. -/
def callPhrases : List String := ["theme(", "--spacing(", "--alpha(", "--value(", "--modifier("]

namespace Chars

/-- Whether no call begins in a text, wherever the name of its function begins. -/
def IsCallFree (s : List Char) : Prop := ∀ phrase ∈ callPhrases, ¬ phrase.toList <:+: s

/-- Whether no identifier ends with a text. -/
def endsApart (s : List Char) : Bool := s.getLast?.all (!continuesName ·)

variable {phrase s t u v : List Char} {c : Char}

theorem callPhrases_chars : ∀ phrase ∈ callPhrases,
    phrase.toList.getLast? = some '(' ∧ ∀ c ∈ phrase.toList.dropLast, continuesName c := by
  decide

/-- What is in a text is in one of its two parts, or a part of it ends the first and the rest begins
the second. -/
theorem infix_append_cases (h : phrase <:+: s ++ t) : phrase <:+: s ∨ phrase <:+: t ∨
    ∃ u v, u ≠ [] ∧ v ≠ [] ∧ phrase = u ++ v ∧ u <:+ s ∧ v <+: t := by
  obtain ⟨front, back, h⟩ := h
  rw [List.append_assoc, List.append_eq_append_iff] at h
  rcases h with ⟨rest, rfl, h⟩ | ⟨rest, rfl, rfl⟩
  · rcases List.append_eq_append_iff.1 h with ⟨u, rfl, rfl⟩ | ⟨v, rfl, rfl⟩
    · exact .inl ⟨front, u, by simp⟩
    · by_cases hrest : rest = []
      · subst hrest
        exact .inr (.inl ⟨[], back, rfl⟩)
      · by_cases hv : v = []
        · subst hv
          exact .inl ⟨front, [], by simp⟩
        · exact .inr (.inr ⟨rest, v, hrest, hv, rfl, List.suffix_append _ _, List.prefix_append _ _⟩)
  · exact .inr (.inl ⟨rest, back, by simp⟩)

/-- A phrase is in one of two texts that an identifier does not go on between, or of which the second
has no parenthesis. -/
theorem infix_append_apart {phrase : String} (hphrase : phrase ∈ callPhrases)
    (h : endsApart s ∨ separates t ∨ '(' ∉ t) (hwithin : phrase.toList <:+: s ++ t) :
    phrase.toList <:+: s ∨ phrase.toList <:+: t := by
  obtain ⟨hlast, hname⟩ := callPhrases_chars phrase hphrase
  rcases infix_append_cases hwithin with h' | h' | ⟨u, v, hu, hv, heq, hus, hvt⟩
  · exact .inl h'
  · exact .inr h'
  rw [heq, List.dropLast_append_of_ne_nil hv] at hname
  rw [heq, List.getLast?_append_of_ne_nil _ hv] at hlast
  exfalso
  rcases h with h | h | h
  · obtain ⟨w, rfl⟩ := hus
    rw [endsApart, List.getLast?_append_of_ne_nil _ hu, List.getLast?_eq_some_getLast hu,
      Option.all_some, Bool.not_eq_true'] at h
    rw [hname _ (List.mem_append_left _ (List.getLast_mem hu))] at h
    cases h
  · obtain ⟨w, rfl⟩ := hvt
    cases v with
    | nil => exact hv rfl
    | cons c v =>
      simp only [separates, List.cons_append, List.head?_cons, Option.all_some, Bool.and_eq_true,
        Bool.not_eq_true', bne_iff_ne] at h
      cases v with
      | nil => exact h.2 (Option.some.inj hlast)
      | cons d v =>
        rw [hname c (List.mem_append_right _ List.mem_cons_self)] at h
        exact absurd h.1 (by simp)
  · exact h (hvt.subset (List.mem_of_getLast? hlast))

theorem IsCallFree.append (hs : IsCallFree s) (ht : IsCallFree t)
    (h : endsApart s ∨ separates t ∨ '(' ∉ t) : IsCallFree (s ++ t) :=
  fun phrase hphrase hwithin =>
    (infix_append_apart hphrase h hwithin).elim (hs phrase hphrase) (ht phrase hphrase)

theorem isCallFree_of_notMem (h : '(' ∉ s) : IsCallFree s := fun phrase hphrase hwithin =>
  h (hwithin.subset (List.mem_of_getLast? (callPhrases_chars phrase hphrase).1))

theorem IsCallFree.of_infix (hs : IsCallFree s) (h : t <:+: s) : IsCallFree t :=
  fun phrase hphrase hwithin => hs phrase hphrase (hwithin.trans h)

theorem separates_append (hs : s ≠ []) : separates (s ++ t) = separates s := by
  cases s with
  | nil => exact absurd rfl hs
  | cons => rfl

theorem endsApart_append (ht : t ≠ []) : endsApart (s ++ t) = endsApart t := by
  rw [endsApart, List.getLast?_append_of_ne_nil _ ht, endsApart]

/-- Blanks around a text begin no call. -/
theorem IsCallFree.of_trim (h : IsCallFree (trim s)) : IsCallFree s := by
  obtain ⟨u, hu, hs⟩ := exists_trimStart s
  obtain ⟨v, hv, ht⟩ := exists_trimEnd (trimStart s)
  have hblank {u : List Char} (hu : ∀ c ∈ u, isBlank c) : '(' ∉ u :=
    fun hmem => absurd (hu '(' hmem) (by decide)
  have hends : endsApart u := by
    rw [endsApart, Option.all_eq_true]
    intro c hc
    rw [Bool.not_eq_true', Bool.eq_false_iff]
    intro hname
    have hc := hu c (List.mem_of_getLast? hc)
    rw [isBlank_of_isNameChar hname] at hc
    exact absurd hc Bool.false_ne_true
  rw [hs, ht]
  exact (isCallFree_of_notMem (hblank hu)).append
    (h.append (isCallFree_of_notMem (hblank hv)) (.inr (.inr (hblank hv)))) (.inl hends)

theorem IsCallFree.append_escaped (hs : IsCallFree s) (t : List Char) :
    IsCallFree (s ++ t.flatMap fun c => if isIdentifierChar c then [c] else ['\\', c]) := by
  induction t generalizing s with
  | nil =>
    rw [List.flatMap_nil, List.append_nil]
    exact hs
  | cons c t ih =>
    rw [List.flatMap_cons, ← List.append_assoc]
    refine ih ?_
    split
    · next hc =>
      have hne : '(' ∉ [c] := by
        rintro hmem
        obtain rfl := List.mem_singleton.1 hmem
        exact absurd hc (by decide)
      exact hs.append (isCallFree_of_notMem hne) (.inr (.inr hne))
    · have hsplit : s ++ ['\\', c] = s ++ ['\\'] ++ [c] := by simp
      have hfront : IsCallFree (s ++ ['\\']) :=
        hs.append (isCallFree_of_notMem (by decide)) (.inr (.inr (by decide)))
      have hsingle : IsCallFree [c] := by
        intro phrase hphrase hwithin
        have hlength : ∀ phrase ∈ callPhrases, 1 < phrase.toList.length := by decide
        have hle := hwithin.length_le
        have := hlength phrase hphrase
        rw [List.length_singleton] at hle
        omega
      rw [hsplit]
      exact hfront.append hsingle (.inl (by simp [endsApart, continuesName]))

end Chars

/-- Whether no call begins in a text, wherever the name of its function begins. -/
def IsCallFree (s : String) : Prop := Chars.IsCallFree s.toList

private theorem isCallFree_iff (s : String) : ((Text.chars s).all (fun c => !Nat.beq c.toNat 40) ||
    callPhrases.all fun phrase => (Chars.cutPhrase phrase.toList (Text.chars s)).isNone) ↔
      IsCallFree s := by
  have hparen : (Text.chars s).all (fun c => !Nat.beq c.toNat 40) → IsCallFree s := by
    intro hall
    refine Chars.isCallFree_of_notMem fun hmem => ?_
    rw [Text.chars_eq] at hall
    exact absurd (List.all_eq_true.1 hall '(' hmem) (by decide)
  have hphrases : callPhrases.all (fun phrase =>
      (Chars.cutPhrase phrase.toList (Text.chars s)).isNone) ↔ IsCallFree s := by
    simp only [List.all_eq_true, Option.isNone_iff_eq_none, ← Option.not_isSome_iff_eq_none,
      Chars.cutPhrase_isSome_iff, Text.chars_eq]
    rfl
  rw [Bool.or_eq_true, hphrases]
  exact or_iff_right_of_imp hparen

/-- Most texts hold no parenthesis at all. -/
instance : DecidablePred IsCallFree := fun s => decidable_of_iff _ (isCallFree_iff s)

variable {s t value : String} {pieces : List String}

theorem IsKeyText.isCallFree (h : IsKeyText s) : IsCallFree s :=
  Chars.isCallFree_of_notMem fun hmem => absurd (h '(' hmem) (by decide)

/-- Whether no call begins in the pieces of a template, and no identifier goes on between a piece and a
value. -/
def areApart : List String → Bool
  | [] => true
  | [s] => decide (IsCallFree s)
  | s :: t :: ss => decide (IsCallFree s) && Chars.endsApart (Text.chars s) &&
    (ss.isEmpty || !t.isEmpty) && Chars.separates (Text.chars t) && areApart (t :: ss)

private theorem isCallFree_intercalate (hvalue : IsCallFree value) (h : areApart pieces) :
    IsCallFree (value.intercalate pieces) := by
  fun_induction areApart pieces with
  | case1 => exact Chars.isCallFree_of_notMem List.not_mem_nil
  | case2 s =>
    rw [String.intercalate_singleton]
    exact of_decide_eq_true h
  | case3 s t ss ih =>
    simp only [Bool.and_eq_true, decide_eq_true_eq, Text.chars_eq] at h
    obtain ⟨⟨⟨⟨hs, hends⟩, hroom⟩, hseparates⟩, hrest⟩ := h
    have hbehind : Chars.separates (value.intercalate (t :: ss)).toList := by
      cases ss with
      | nil =>
        rw [String.intercalate_singleton]
        exact hseparates
      | cons u ss =>
        rw [String.intercalate_cons_cons, String.toList_append, String.toList_append,
          List.append_assoc, Chars.separates_append]
        · exact hseparates
        · simpa using hroom
    rw [String.intercalate_cons_cons, IsCallFree, String.toList_append, String.toList_append]
    exact ((hs.append hvalue (.inl hends)).append (ih hrest) (.inr (.inl hbehind)))

end CallFree

/-- Whether pieces make a text that is all that is asked of it, if that is so for the value between
them. -/
def Fits (pieces : List String) : Prop := fits 0 false pieces ∧ areApart pieces

instance : DecidablePred Fits :=
  fun pieces => inferInstanceAs (Decidable (fits 0 false pieces = true ∧ areApart pieces = true))

/-- What stands between two texts and keeps them apart. -/
def KeepsApart (sep : String) : Prop :=
  Separates .part sep ∧ sep.isEmpty = false ∧ Chars.separates sep.toList ∧
    Chars.endsApart sep.toList ∧ IsCallFree sep

instance : DecidablePred KeepsApart := fun _ => inferInstanceAs (Decidable (_ ∧ _ ∧ _ ∧ _ ∧ _))

/-- What is asked of texts, where texts that are put together of such are such. -/
structure TextLaws (P : String → Prop) : Prop where
  key : ∀ {s}, IsKeyText s → P s
  escapedKey : ∀ {name}, IsTame name → ∀ value, P (name ++ escapeKeySegment value)
  behind : ∀ {s t}, P s → IsTame t → P (s ++ t)
  fill : ∀ {value pieces}, P value → Fits pieces → P (value.intercalate pieces)
  join : ∀ {s t sep}, P s → P t → KeepsApart sep → P (s ++ sep ++ t)
  of_trim : ∀ {s}, P (Text.trim s) → P s

namespace TextLaws

variable {P : String → Prop} {s t sep before behind : String}

theorem tame (hP : TextLaws P) (h : IsTame s) : P s := hP.key h.isKeyText

theorem fixed (hP : TextLaws P) (h : Fits [s]) : P s := by
  have hfill := hP.fill (hP.tame (by decide : IsTame "")) h
  rwa [String.intercalate_singleton] at hfill

theorem surround (hP : TextLaws P) (hs : P s) (h : Fits [before, behind]) :
    P (before ++ s ++ behind) := by
  have hfill := hP.fill hs h
  rwa [String.intercalate_cons_cons, String.intercalate_singleton] at hfill

theorem surround₂ (hP : TextLaws P) (hs : P s) (ht : P t) (hsep : KeepsApart sep)
    (h : Fits [before, behind]) : P (before ++ s ++ sep ++ t ++ behind) := by
  have htext : before ++ s ++ sep ++ t ++ behind = before ++ (s ++ sep ++ t) ++ behind := by
    simp only [String.append_assoc]
  rw [htext]
  exact hP.surround (hP.join hs ht hsep) h

end TextLaws

/-- A scan passes over texts that are put together of such as it passes over. -/
theorem textLaws_passes : TextLaws (Passes .part) where
  key := IsKeyText.passes
  escapedKey {name} hname value := by
    have hinert : Chars.Inert .part 0 (name ++ escapeKeySegment value).toList := by
      rw [String.toList_append]
      exact (Chars.inert_tame hname).append (inert_escapeKeySegment value)
    exact hinert.passes
  behind {s t} hs ht := by
    obtain ⟨slash, hs⟩ := hs
    obtain ⟨slash', ht⟩ := Chars.run_keyChars ht.isKeyText slash
    refine ⟨slash', ?_⟩
    rw [String.toList_append, Place.run_append_of hs]
    exact ht
  fill hvalue h := run_intercalate hvalue h.1
  join hs ht h := hs.join ht h.1
  of_trim {s} h := by
    rw [Passes, Text.trim] at h
    rw [String.toList_ofList] at h
    exact Chars.Passes.of_trim h

/-- No call begins in texts that are put together of such. -/
theorem textLaws_isCallFree : TextLaws IsCallFree where
  key := IsKeyText.isCallFree
  escapedKey {name} hname value := by
    rw [IsCallFree, String.toList_append, escapeKeySegment, String.toList_ofList]
    exact Chars.IsCallFree.append_escaped (IsTame.isKeyText hname).isCallFree value.toList
  behind {s t} hs ht := by
    have hparen : '(' ∉ t.toList := fun hmem => absurd (ht '(' hmem) (by decide)
    rw [IsCallFree, String.toList_append]
    exact hs.append (Chars.isCallFree_of_notMem hparen) (.inr (.inr hparen))
  fill hvalue h := isCallFree_intercalate hvalue h.2
  join {s t sep} hs ht h := by
    obtain ⟨-, hne, hseparates, hends, hsep⟩ := h
    rw [IsCallFree, String.toList_append, String.toList_append]
    have hsep' : sep.toList ≠ [] := by
      rw [Ne, String.toList_eq_nil_iff, ← String.isEmpty_iff, hne]
      exact Bool.false_ne_true
    exact (hs.append hsep (.inr (.inl hseparates))).append ht
      (.inl ((Chars.endsApart_append hsep').trans hends))
  of_trim {s} h := by
    rw [IsCallFree, Text.trim, String.toList_ofList] at h
    exact Chars.IsCallFree.of_trim h

end UtilityCss
