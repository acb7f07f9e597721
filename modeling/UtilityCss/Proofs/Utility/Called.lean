import UtilityCss.Proofs.Candidate.Texts
import UtilityCss.Proofs.Theme.Function
import UtilityCss.Proofs.Utility.Answered
import UtilityCss.Proofs.Utility.Recipe

/-!
# Calls in what utilities give

The built-in utilities write no call of a function that is not in the theme or in the class name. A
utility that is declared with calls about the value and the modifier writes answers in their places. The
answers make no call together with what is around them if the calls are apart from it.
-/

namespace UtilityCss

def askPhrases : List String := ["--value(", "--modifier("]

namespace Chars

/-- Whether the calls in a text are those that a declared utility answers. Each begins with one of
`phrases`, holds no parentheses, and no identifier goes on in front of it or behind it. -/
inductive AsksApart (phrases : List String) : List Char → Prop where
  | plain {s : List Char} (h : IsCallFree s) : AsksApart phrases s
  | call {front args behind : List Char} {phrase : String} (hfront : IsCallFree front)
    (hends : endsApart front) (hphrase : phrase ∈ phrases) (hopen : '(' ∉ args) (hclose : ')' ∉ args)
    (hbehind : separates behind) (h : AsksApart phrases behind) :
    AsksApart phrases (front ++ (phrase.toList ++ (args ++ ')' :: behind)))

variable {phrases : List String} {phrase other : String} {answer : List Char → Option CallAnswer}
  {s t u front args behind out : List Char} {ratio : Bool}

section Answer

theorem cutCall_plain (hopen : '(' ∉ args) (hclose : ')' ∉ args) :
    cutCall [] 0 none (args ++ ')' :: behind) = some (args, behind) := by
  induction args with
  | nil => rfl
  | cons c args ih =>
    rw [List.mem_cons, not_or] at hopen hclose
    rw [List.cons_append, cutCall_cons, ih hopen.2 hclose.2]
    simp [Ne.symm hopen.1, Ne.symm hclose.1]

theorem mem_callPhrases (h : phrase ∈ askPhrases) : phrase ∈ callPhrases := by
  have hall : askPhrases ⊆ callPhrases := by decide
  exact hall h

theorem answerCalls?_keep (h : ∀ u, u ≠ [] → u <:+ s → ¬ phrase.toList <+: u ++ t) :
    answerCalls? phrase.toList answer (s ++ t) =
      (answerCalls? phrase.toList answer t).map fun p => (s ++ p.1, p.2) := by
  induction s with
  | nil => simp
  | cons c s ih =>
    have hnone : phrase.toList.isPrefixOf? (c :: (s ++ t)) = none := by
      rw [← Option.not_isSome_iff_eq_none, List.isSome_isPrefixOf?_eq_isPrefixOf,
        List.isPrefixOf_iff_prefix]
      exact h (c :: s) (List.cons_ne_nil c s) List.suffix_rfl
    rw [List.cons_append, answerCalls?]
    split
    · rw [ih fun u hu hs => h u hu (hs.trans (List.suffix_cons c s)), Option.map_map]
      rfl
    · next rest hrest => cases hnone.symm.trans hrest

theorem answerCalls?_eq_self (hs : ¬ phrase.toList <:+: s) :
    answerCalls? phrase.toList answer s = some (s, false) := by
  have hkeep : answerCalls? phrase.toList answer (s ++ []) =
      (answerCalls? phrase.toList answer []).map fun p => (s ++ p.1, p.2) :=
    answerCalls?_keep fun u _ hu hphrase =>
      hs ((List.append_nil u ▸ hphrase).isInfix.trans hu.isInfix)
  rw [List.append_nil, answerCalls?] at hkeep
  simpa using hkeep

/-- A text stays up to a call of another function, or to the end of all identifiers. -/
theorem answerCalls?_append (hphrase : phrase ∈ callPhrases) (hs : ¬ phrase.toList <:+: s)
    (hends : endsApart s) : answerCalls? phrase.toList answer (s ++ t) =
      (answerCalls? phrase.toList answer t).map fun p => (s ++ p.1, p.2) := by
  obtain ⟨-, hname⟩ := callPhrases_chars phrase hphrase
  refine answerCalls?_keep fun u hu hsuffix hbegins => ?_
  rcases List.prefix_or_prefix_of_prefix hbegins (List.prefix_append u t) with h | ⟨v, hv⟩
  · exact hs (h.isInfix.trans hsuffix.isInfix)
  · by_cases hnil : v = []
    · subst hnil
      rw [List.append_nil] at hv
      exact hs (hv ▸ hsuffix.isInfix)
    · obtain ⟨w, rfl⟩ := hsuffix
      rw [endsApart_append hu, endsApart, List.getLast?_eq_some_getLast hu, Option.all_some,
        Bool.not_eq_true'] at hends
      rw [← hv, List.dropLast_append_of_ne_nil hnil] at hname
      rw [hname _ (List.mem_append_left _ (List.getLast_mem hu))] at hends
      cases hends

private theorem answerCalls?_call (hopen : '(' ∉ args) (hclose : ')' ∉ args)
    (hphrase : phrase ∈ askPhrases) :
    answerCalls? phrase.toList answer (phrase.toList ++ (args ++ ')' :: behind)) = (do
      let a ← answer args
      let (text, ratio) ← answerCalls? phrase.toList answer behind
      return (a.text.toList ++ text, a.isRatio || ratio)) := by
  have hopens (rest : List Char) :
      phrase.toList.isPrefixOf? (phrase.toList ++ rest) = some rest :=
    List.isPrefixOf?_eq_some_iff_append_eq.2 rfl
  have hne : ∀ phrase ∈ askPhrases, phrase.toList ≠ [] := by decide
  obtain ⟨c, u, hcons⟩ := List.exists_cons_of_ne_nil (hne phrase hphrase)
  specialize hopens (args ++ ')' :: behind)
  rw [hcons, List.cons_append] at hopens ⊢
  rw [answerCalls?]
  split
  · next h => cases hopens.symm.trans h
  · next rest h =>
    obtain rfl := Option.some.inj (hopens.symm.trans h)
    split
    · next hcut =>
      rw [cutCall_plain hopen hclose] at hcut
      cases hcut
    · next args' behind' hcut =>
      rw [cutCall_plain hopen hclose] at hcut
      obtain ⟨rfl, rfl⟩ := Prod.mk.inj (Option.some.inj hcut)
      rfl

end Answer

section Apart

theorem ne_nil_of_separates (hphrase : phrase ∈ askPhrases)
    (h : separates (front ++ (phrase.toList ++ t))) : front ≠ [] := by
  rintro rfl
  have hname : ∀ phrase ∈ askPhrases, phrase.toList ≠ [] ∧ separates phrase.toList = false := by
    decide
  obtain ⟨hne, hname⟩ := hname phrase hphrase
  rw [List.nil_append, separates_append hne, hname] at h
  cases h

/-- A text without calls can stand in front. -/
theorem AsksApart.prepend (h : AsksApart phrases t) (hsub : phrases ⊆ askPhrases)
    (hs : IsCallFree s) (ht : separates t) : AsksApart phrases (s ++ t) := by
  cases h with
  | plain h => exact .plain (hs.append h (.inr (.inl ht)))
  | @call front args behind phrase hfront hends hphrase hopen hclose hbehind h =>
    have hne : front ≠ [] := ne_nil_of_separates (hsub hphrase) ht
    rw [separates_append hne] at ht
    rw [← List.append_assoc]
    exact .call (hs.append hfront (.inr (.inl ht))) ((endsApart_append hne).trans hends) hphrase
      hopen hclose hbehind h

/-- The phrase of one function is not in a call of the other one. -/
theorem not_infix_call (hphrase : phrase ∈ askPhrases) (hother : other ∈ askPhrases)
    (hne : other ≠ phrase) (hfront : IsCallFree front) (hends : endsApart front)
    (hopen : '(' ∉ args) : ¬ phrase.toList <:+: front ++ (other.toList ++ (args ++ [')'])) := by
  have hmem := mem_callPhrases hphrase
  have hlast : '(' ∈ phrase.toList := List.mem_of_getLast? (callPhrases_chars phrase hmem).1
  have hargs : '(' ∉ args ++ [')'] := by simp [hopen]
  have hall : ∀ phrase ∈ askPhrases, ∀ other ∈ askPhrases, other ≠ phrase →
      (cutPhrase phrase.toList other.toList).isSome = false := by
    decide
  intro h
  rcases infix_append_apart hmem (.inl hends) h with h | h
  · exact hfront phrase hmem h
  · rcases infix_append_apart hmem (.inr (.inr hargs)) h with h | h
    · have hnone := hall phrase hphrase other hother hne
      rw [cutPhrase_isSome_iff.2 h] at hnone
      cases hnone
    · exact hargs (h.subset hlast)

private theorem separates_front (hphrase : phrase ∈ askPhrases)
    (h : separates (front ++ (phrase.toList ++ t))) (u : List Char) : separates (front ++ u) := by
  have hne := ne_nil_of_separates hphrase h
  rw [separates_append hne] at h
  exact (separates_append hne).trans h

private theorem exists_of_answerCalls?_same (hphrase : phrase ∈ askPhrases)
    (hfront : IsCallFree front) (hends : endsApart front) (hopen : '(' ∉ args) (hclose : ')' ∉ args)
    (h : answerCalls? phrase.toList answer
      (front ++ (phrase.toList ++ (args ++ ')' :: behind))) = some (out, ratio)) :
    ∃ a rest, answer args = some a ∧
      (∃ ratio, answerCalls? phrase.toList answer behind = some (rest, ratio)) ∧
      out = front ++ (a.text.toList ++ rest) := by
  have hmem := mem_callPhrases hphrase
  rw [answerCalls?_append hmem (hfront phrase hmem) hends,
    answerCalls?_call hopen hclose hphrase] at h
  obtain ⟨p, hp, hpair⟩ := Option.map_eq_some_iff.1 h
  obtain ⟨a, ha, hp⟩ := Option.bind_eq_some_iff.1 hp
  obtain ⟨⟨rest, ratio'⟩, hrest, hp⟩ := Option.bind_eq_some_iff.1 hp
  cases hp
  cases hpair
  exact ⟨a, rest, ha, ⟨ratio', hrest⟩, rfl⟩

private theorem exists_of_answerCalls?_other (hphrase : phrase ∈ askPhrases)
    (hother : other ∈ askPhrases) (hne : other ≠ phrase) (hfront : IsCallFree front)
    (hends : endsApart front) (hopen : '(' ∉ args)
    (h : answerCalls? phrase.toList answer
      (front ++ (other.toList ++ (args ++ ')' :: behind))) = some (out, ratio)) :
    ∃ rest, (∃ ratio, answerCalls? phrase.toList answer behind = some (rest, ratio)) ∧
      out = front ++ (other.toList ++ (args ++ ')' :: rest)) := by
  have hkeep (rest : List Char) : front ++ (other.toList ++ (args ++ ')' :: rest)) =
      front ++ (other.toList ++ (args ++ [')'])) ++ rest := by
    simp
  have hapart : endsApart (front ++ (other.toList ++ (args ++ [')']))) := by
    rw [← List.append_assoc, ← List.append_assoc, endsApart_append (List.cons_ne_nil _ _)]
    decide
  rw [hkeep, answerCalls?_append (mem_callPhrases hphrase)
    (not_infix_call hphrase hother hne hfront hends hopen) hapart] at h
  obtain ⟨⟨rest, ratio'⟩, hrest, hpair⟩ := Option.map_eq_some_iff.1 h
  cases hpair
  exact ⟨rest, ⟨ratio', hrest⟩, (hkeep rest).symm⟩

/-- Answering the calls of one function leaves those of the other. -/
theorem AsksApart.answered (h : AsksApart phrases s) (hsub : phrases ⊆ askPhrases)
    (hphrase : phrase ∈ askPhrases)
    (hanswer : ∀ args a, answer args = some a → IsCallFree a.text.toList)
    (hout : answerCalls? phrase.toList answer s = some (out, ratio)) :
    AsksApart (phrases.filter (· != phrase)) out ∧ (separates s → separates out) := by
  induction h generalizing out ratio with
  | plain h =>
    rw [answerCalls?_eq_self (h phrase (mem_callPhrases hphrase))] at hout
    cases hout
    exact ⟨.plain h, id⟩
  | @call front args behind other hfront hends hother hopen hclose hbehind _ ih =>
    by_cases hsame : other = phrase
    · subst hsame
      obtain ⟨a, rest, ha, ⟨ratio', hrest⟩, rfl⟩ :=
        exists_of_answerCalls?_same hphrase hfront hends hopen hclose hout
      obtain ⟨hapart, hseparates⟩ := ih hrest
      have hwritten : IsCallFree (front ++ a.text.toList) :=
        hfront.append (hanswer args a ha) (.inl hends)
      refine ⟨?_, fun hs => separates_front hphrase hs _⟩
      rw [← List.append_assoc]
      exact hapart.prepend (fun p hp => hsub (List.mem_filter.1 hp).1) hwritten
        (hseparates hbehind)
    · obtain ⟨rest, ⟨ratio', hrest⟩, rfl⟩ :=
        exists_of_answerCalls?_other hphrase (hsub hother) hsame hfront hends hopen hout
      obtain ⟨hapart, hseparates⟩ := ih hrest
      refine ⟨?_, fun hs => separates_front (hsub hother) hs _⟩
      exact .call hfront hends (List.mem_filter.2 ⟨hother, by simpa using hsame⟩) hopen hclose
        (hseparates hbehind) hapart

/-- The calls of a function that is not in a text need no answer. -/
theorem AsksApart.without (h : AsksApart phrases s) (hsub : phrases ⊆ askPhrases)
    (hphrase : phrase ∈ askPhrases) (hs : ¬ phrase.toList <:+: s) :
    AsksApart (phrases.filter (· != phrase)) s := by
  have hself : answerCalls? phrase.toList (fun _ => none) s = some (s, false) :=
    answerCalls?_eq_self hs
  exact (h.answered hsub hphrase (fun _ a ha => absurd ha.symm (Option.some_ne_none a)) hself).1

theorem AsksApart.isCallFree (h : AsksApart [] s) : IsCallFree s := by
  cases h with
  | plain h => exact h
  | call _ _ hphrase => exact absurd hphrase List.not_mem_nil

end Apart

end Chars

/-- Whether the calls in a text are those about the value and the modifier, each apart from what is
around it. -/
def AsksApart (s : String) : Prop := Chars.AsksApart askPhrases s.toList

/-- Whether no call begins in the keys and values of a theme. -/
def Theme.IsCallFree (t : Theme) : Prop :=
  ∀ e ∈ t.entries, UtilityCss.IsCallFree e.key ∧ UtilityCss.IsCallFree e.value

instance : DecidablePred Theme.IsCallFree :=
  fun t => inferInstanceAs
    (Decidable (∀ e ∈ t.entries, UtilityCss.IsCallFree e.key ∧ UtilityCss.IsCallFree e.value))

theorem Argument.Holds.input {P : String → Prop} {a : Argument} (h : a.Holds P) :
    CandidateValue.Holds P a.input := by
  cases a with
  | named => exact ⟨h, nofun⟩
  | arbitrary => exact h

section Text

variable {t : Theme} {value input : CallInput} {modifier : Option CallInput} {text out args : String}
  {a : CallAnswer}

private theorem isCallFree_answerNamed {name : String} {fraction : Option String}
    (ht : t.IsCallFree)
    (hname : isPlainName name) (hfraction : ∀ f ∈ fraction, IsKeyText f)
    (h : answerNamed? t name fraction args = some a) : IsCallFree a.text := by
  have hself : IsCallFree name := (isTame_of_isPlainName hname).isKeyText.isCallFree
  have hvalue {p : Bool} (h : CallAnswer.text? p name = some a) : IsCallFree a.text := by
    obtain ⟨-, h⟩ := Option.ite_none_right_eq_some.1 h
    cases h
    exact hself
  rw [answerNamed?.eq_def] at h
  split at h
  · obtain ⟨-, h⟩ := Option.ite_none_right_eq_some.1 h
    obtain ⟨s, hs, rfl⟩ := Option.map_eq_some_iff.1 h
    obtain ⟨e, he, rfl⟩ := Option.map_eq_some_iff.1 hs
    obtain ⟨_, -, he⟩ := List.exists_of_findSome?_eq_some he
    obtain ⟨hkey, hentry⟩ := ht e (Theme.mem_of_lookup he)
    exact Theme.holds_render textLaws_isCallFree hentry hkey
  · exact hvalue h
  · split at h
    · exact hvalue h
    · exact hvalue h
    · exact hvalue h
    · obtain ⟨f, hf, rfl⟩ := Option.map_eq_some_iff.1 h
      have hmem := (Option.filter_eq_some_iff.1 hf).1
      exact ((hfraction f hmem).replaceChar '/' (by decide)).isCallFree
    · cases h

theorem isCallFree_answerCall (ht : t.IsCallFree) (hinput : input.Holds IsCallFree)
    (h : answerCall? t input args = some a) : IsCallFree a.text := by
  obtain ⟨arg, -, h⟩ := List.exists_of_findSome?_eq_some h
  cases input with
  | named name fraction => exact isCallFree_answerNamed ht hinput.1 hinput.2 h
  | arbitrary s hint =>
    obtain ⟨inner, -, h⟩ := Option.bind_eq_some_iff.1 h
    split at h
    · cases h
      exact hinput
    · obtain ⟨type, -, h⟩ := Option.bind_eq_some_iff.1 h
      obtain ⟨-, h⟩ := Option.ite_none_right_eq_some.1 h
      cases h
      exact hinput

theorem asksApart_answerCalls {phrases : List String} {phrase : String} (ht : t.IsCallFree)
    (hinput : input.Holds IsCallFree) (hsub : phrases ⊆ askPhrases) (hphrase : phrase ∈ askPhrases)
    (h : Chars.AsksApart phrases text.toList) (hout : answerCalls? t phrase input text = some a) :
    Chars.AsksApart (phrases.filter (· != phrase)) a.text.toList := by
  obtain ⟨⟨chars, ratio⟩, hchars, rfl⟩ := Option.map_eq_some_iff.1 hout
  rw [String.toList_ofList]
  exact (h.answered hsub hphrase (fun args a ha => isCallFree_answerCall ht hinput ha) hchars).1

theorem isCallFree_answerText (ht : t.IsCallFree) (hvalue : value.Holds IsCallFree)
    (hmodifier : ∀ m ∈ modifier, m.Holds IsCallFree) (h : AsksApart text)
    (hout : (answerText t value modifier text).1 = some out) : IsCallFree out := by
  have hrest {s phrase : String} (hs : ¬ Text.containsPhrase s phrase) :
      ¬ phrase.toList <:+: s.toList :=
    fun hinfix => hs (Chars.cutPhrase_isSome_iff.2 hinfix)
  rw [fst_answerText] at hout
  obtain ⟨a, ha, hout⟩ := Option.bind_eq_some_iff.1 hout
  have hfirst : Chars.AsksApart ["--modifier("] a.text.toList := by
    rw [answerValue?] at ha
    split at ha
    · exact asksApart_answerCalls ht hvalue (List.Subset.refl _) (by decide) h ha
    · next hnone =>
      cases ha
      exact Chars.AsksApart.without h (List.Subset.refl _) (by decide) (hrest hnone)
  refine Chars.AsksApart.isCallFree ?_
  rw [answerModifier?, answerModifier] at hout
  split at hout
  · split at hout
    · next b hb =>
      cases hout
      obtain ⟨m, hm, hb⟩ := Option.bind_eq_some_iff.1 hb
      exact asksApart_answerCalls ht (hmodifier m hm) (by decide) (by decide) hfirst hb
    · cases hout
  · next hnone =>
    cases hout
    exact hfirst.without (by decide) (by decide) (hrest hnone)

end Text

/-- Whether a value of a declared utility asks about a candidate apart from what is around the calls. -/
def Node.AsksApart : Node → Prop
  | decl _ text _ => UtilityCss.AsksApart text
  | _ => True

/-- Whether all values of a utility that is declared for values do. -/
def Recipe.AsksApart : Recipe → Prop
  | declared body => ∀ n ∈ allNodes body, n.AsksApart
  | _ => True

/-- Whether a utility brings in no call of a function. Nothing is known of what plugins declare. -/
def Recipe.HoldsNoCall : Recipe → Prop
  | fixed nodes => TextsHold OpensNone nodes
  | declared body => TextsHold OpensNone body ∧ ∀ n ∈ allNodes body, n.AsksApart
  | r => r.IsSound

def Utilities.HoldNoCall (us : Utilities) : Prop := ∀ e ∈ us.entries, e.2.HoldsNoCall

private theorem Chars.exists_infix_of_opensCall {names : List (List Char)} {run s : List Char}
    (h : opensCall names run s) : ∃ name ∈ names, name ++ ['('] <:+: run ++ s := by
  induction s generalizing run with
  | nil => cases h
  | cons c s ih =>
    rw [opensCall, Bool.or_eq_true, Bool.and_eq_true, beq_iff_eq, List.contains_iff_mem] at h
    rcases h with ⟨rfl, hname⟩ | h
    · exact ⟨run, hname, [], s, by simp⟩
    · obtain ⟨name, hname, hinfix⟩ := ih h
      refine ⟨name, hname, hinfix.trans ?_⟩
      rw [nextRun]
      split
      · exact ⟨[], [], by simp⟩
      · exact ⟨run ++ [c], [], by simp⟩

/-- A call of a function begins with one of the phrases. -/
theorem IsCallFree.opensNone {s : String} (h : IsCallFree s) : OpensNone s := by
  have hall : ∀ name ∈ functionNames, ∃ phrase ∈ callPhrases,
      (Chars.cutPhrase phrase.toList (name ++ ['('])).isSome := by
    decide
  rw [OpensNone, ← Bool.not_eq_true]
  intro hopens
  obtain ⟨name, hname, hinfix⟩ := Chars.exists_infix_of_opensCall hopens
  obtain ⟨phrase, hphrase, hin⟩ := hall name hname
  exact h phrase hphrase ((Chars.cutPhrase_isSome_iff.1 hin).trans hinfix)

section Recipe

variable {t : Theme} {c : Candidate} {r : Recipe} {ns : List Node}

theorem opensNone_of_sound (h : Sound IsCallFree ns) : TextsHold OpensNone ns :=
  h.texts.imp fun _ => IsCallFree.opensNone

theorem Recipe.IsSound.holdsNoCall (hr : r.IsSound) : r.HoldsNoCall := by
  cases r with
  | fixed nodes =>
    exact opensNone_of_sound (hr.1.imp fun _ => textLaws_isCallFree.fixed)
  | declared => exact hr.elim
  | _ => exact hr

/-- What a utility gives for a candidate holds no call if there is none in the theme and in what the
candidate's texts stand for. -/
theorem Recipe.HoldsNoCall.nodes (hr : r.HoldsNoCall) (ht : t.IsCallFree)
    (hv : ∀ v ∈ c.value?, v.Holds IsCallFree) (hm : ∀ m ∈ c.modifier?, m.Holds IsCallFree)
    (h : r.nodes? t c = some ns) : TextsHold OpensNone ns := by
  have hvalues : t.ValuesHold IsCallFree := fun e he => (ht e he).2
  have htrim : ∀ m ∈ c.modifier?, m.Holds fun s => IsCallFree (Text.trim s) :=
    fun m hmem => (hm m hmem).imp fun _ _ hs => hs.trim
  have hsound (hr : r.IsSound) : TextsHold OpensNone ns :=
    opensNone_of_sound (hr.nodes textLaws_isCallFree hvalues hv htrim h).1
  cases r with
  | fixed nodes =>
    obtain ⟨-, h⟩ := Option.ite_none_left_eq_some.1 h
    cases h
    exact hr
  | declared body =>
    obtain ⟨value, hvalue, h⟩ := Option.bind_eq_some_iff.1 h
    obtain ⟨-, h⟩ := Option.ite_none_left_eq_some.1 h
    cases h
    have hbody : ∀ n ∈ allNodes body, (∀ text ∈ n.texts, OpensNone text) ∧ n.AsksApart :=
      fun n hn => ⟨hr.1 n hn, hr.2 n hn⟩
    refine isOfHead_texts.answerEach (fun _ hn _ => hn.1)
      (fun property text important s hn hs => ?_) hbody
    have hmodifier : ∀ m ∈ c.modifier?.map (·.input), m.Holds IsCallFree := by
      intro m hmem
      obtain ⟨a, ha, rfl⟩ := Option.map_eq_some_iff.1 hmem
      exact (hm a ha).input
    exact List.forall_mem_singleton.2
      (isCallFree_answerText ht (hv value hvalue) hmodifier hn.2 hs).opensNone
  | _ => exact hsound hr

end Recipe

end UtilityCss
