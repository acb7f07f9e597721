import UtilityCss.Proofs.Color.Alpha
import UtilityCss.Proofs.Stylesheet.Closed
import UtilityCss.Proofs.Text.Call
import UtilityCss.Proofs.Theme.Lookup
import UtilityCss.Theme.Function

/-!
# Calls that evaluation leaves

Evaluation writes values of the theme and parts of the arguments. It writes no new call if the theme
has none in its values, and leaves none of a flat text. It does not look into what it has written: of
calls of one function inside each other it evaluates the outer one only.
-/

namespace UtilityCss

def functionNames : List (List Char) :=
  [['t', 'h', 'e', 'm', 'e'], ['-', '-', 't', 'h', 'e', 'm', 'e'],
   ['-', '-', 's', 'p', 'a', 'c', 'i', 'n', 'g'], ['-', '-', 'a', 'l', 'p', 'h', 'a']]

/-- Whether no call of a function begins in a text. -/
def OpensNone (s : String) : Prop := Chars.opensCall functionNames [] s.toList = false

/-- Whether a closed call of a function is in a text. -/
def HoldsCall (s : String) : Prop := Chars.holdsCall functionNames [] s.toList

/-- Whether the calls in a text are closed, in no other call, and separated from what follows. -/
def IsFlatText (s : String) : Prop := Chars.isFlat functionNames functionNames [] s.toList

instance : DecidablePred OpensNone :=
  fun s => inferInstanceAs (Decidable (Chars.opensCall functionNames [] s.toList = false))

instance : DecidablePred HoldsCall :=
  fun s => inferInstanceAs (Decidable (Chars.holdsCall functionNames [] s.toList = true))

instance : DecidablePred IsFlatText :=
  fun s => inferInstanceAs (Decidable (Chars.isFlat functionNames functionNames [] s.toList = true))

namespace Chars

variable {names : List (List Char)} {run s t : List Char} {c sep : Char}

private theorem opensCall_of_notMem (h : '(' ∉ s) : opensCall names run s = false := by
  induction s generalizing run with
  | nil => rfl
  | cons c s ih =>
    rw [List.mem_cons, not_or] at h
    rw [opensCall, ih h.2, beq_false_of_ne (Ne.symm h.1)]
    rfl

private theorem opensCall_left (h : opensCall names run (s ++ t) = false) :
    opensCall names run s = false := by
  rw [opensCall_append, Bool.or_eq_false_iff] at h
  exact h.1

theorem opensCall_blanks (hs : ∀ c ∈ s, isBlank c) (h : opensCall names [] (s ++ t) = false) :
    opensCall names [] t = false := by
  induction s with
  | nil => exact h
  | cons c s ih =>
    obtain ⟨hc, hs⟩ := List.forall_mem_cons.1 hs
    have hname : continuesName c = false := by
      rw [Bool.eq_false_iff]
      intro hname
      rw [isBlank_of_isNameChar hname] at hc
      exact Bool.false_ne_true hc
    rw [List.cons_append, opensCall, Bool.or_eq_false_iff, nextRun, hname] at h
    exact ih hs h.2

private theorem opensCall_trim (h : opensCall names [] s = false) :
    opensCall names [] (trim s) = false := by
  obtain ⟨u, hu, hs⟩ := exists_trimStart s
  obtain ⟨v, -, ht⟩ := exists_trimEnd (trimStart s)
  rw [hs] at h
  have hstart := opensCall_blanks hu h
  rw [ht] at hstart
  exact opensCall_left hstart

theorem opensCall_segmentFrom (hsep : continuesName sep = false) {n : Nesting}
    (h : opensCall names run s = false) :
    opensCall names run (segmentFrom sep n s).1 = false ∧
      ∀ part ∈ (segmentFrom sep n s).2, opensCall names [] part = false := by
  fun_induction segmentFrom sep n s generalizing run with
  | case1 => exact ⟨rfl, List.forall_mem_nil _⟩
  | case2 => exact ⟨h, List.forall_mem_nil _⟩
  | case3 n c s part parts hrest ih =>
    rw [opensCall, opensCall, Bool.or_eq_false_iff, Bool.or_eq_false_iff] at h
    obtain ⟨hback, hc, hs⟩ := h
    obtain ⟨hpart, hparts⟩ := ih hs
    rw [hrest] at hpart hparts
    exact ⟨by rw [opensCall, opensCall, hback, hc, hpart]; rfl, hparts⟩
  | case4 n c s hlast hescape hcut part parts hrest ih =>
    obtain rfl : c = sep := by
      simp only [Bool.and_eq_true, beq_iff_eq] at hcut
      exact hcut.1.1.1.1
    rw [opensCall, Bool.or_eq_false_iff, nextRun, hsep] at h
    obtain ⟨hpart, hparts⟩ := ih h.2
    rw [hrest] at hpart hparts
    exact ⟨rfl, List.forall_mem_cons.2 ⟨hpart, hparts⟩⟩
  | case5 n c s hlast hescape hcut part parts hrest ih =>
    rw [opensCall, Bool.or_eq_false_iff] at h
    obtain ⟨hpart, hparts⟩ := ih h.2
    rw [hrest] at hpart hparts
    exact ⟨by rw [opensCall, h.1, hpart]; rfl, hparts⟩

private theorem opensCall_of_mem_segment (hsep : continuesName sep = false)
    (h : opensCall names [] s = false) (ht : t ∈ segment sep s) : opensCall names [] t = false := by
  obtain ⟨hfirst, hrest⟩ := opensCall_segmentFrom (n := {}) hsep h
  rcases List.mem_cons.1 ht with rfl | ht
  · exact hfirst
  · exact hrest t ht

end Chars

section Texts

variable {s t sep before : String} {c : Char}

/-- Whether a text is read from anew behind a text, which opens no call itself. -/
def Resets (s : String) : Prop := OpensNone s ∧ s.toList.foldl Chars.nextRun [] = []

instance : DecidablePred Resets :=
  fun s => inferInstanceAs (Decidable (OpensNone s ∧ s.toList.foldl Chars.nextRun [] = []))

/-- Whether it is so in front of the text, too. -/
def Parts (s : String) : Prop := Resets s ∧ s.toList ≠ [] ∧ Chars.separates s.toList

instance : DecidablePred Parts :=
  fun s => inferInstanceAs (Decidable (Resets s ∧ s.toList ≠ [] ∧ Chars.separates s.toList = true))

theorem opensNone_of_notMem (h : '(' ∉ s.toList) : OpensNone s := Chars.opensCall_of_notMem h

theorem OpensNone.not_holdsCall (hs : OpensNone s) : ¬ HoldsCall s := by
  rw [HoldsCall, Chars.holdsCall_of_not_opensCall hs]
  exact Bool.false_ne_true

theorem OpensNone.prepend (hs : OpensNone s) (hbefore : Resets before) : OpensNone (before ++ s) := by
  rw [OpensNone, String.toList_append, Chars.opensCall_append, hbefore.1, hbefore.2]
  exact hs

theorem OpensNone.join (hs : OpensNone s) (ht : OpensNone t) (hsep : Parts sep) :
    OpensNone (s ++ sep ++ t) := by
  obtain ⟨hreset, hne, hstart⟩ := hsep
  have hrest : OpensNone (sep ++ t) := ht.prepend hreset
  rw [OpensNone, String.toList_append] at hrest
  rw [OpensNone, String.append_assoc, String.toList_append, String.toList_append]
  cases hchars : sep.toList with
  | nil => exact absurd hchars hne
  | cons c rest =>
    rw [hchars] at hstart hrest
    obtain ⟨hc, hopen⟩ : Chars.continuesName c = false ∧ c ≠ '(' := by
      simpa [Chars.separates] using hstart
    rw [List.cons_append, ← List.nil_append (c :: _), Chars.opensCall_separated hc hopen] at hrest
    rw [List.cons_append, Chars.opensCall_separated hc hopen, hs]
    exact hrest

theorem OpensNone.append (hs : OpensNone s) (hsep : Parts sep) : OpensNone (s ++ sep) := by
  have hjoin : OpensNone (s ++ sep ++ "") := hs.join (by decide) hsep
  rwa [String.append_empty] at hjoin

/-- A text with two others in it opens no call if neither does. -/
theorem OpensNone.surround {behind : String} (hs : OpensNone s) (ht : OpensNone t)
    (hbefore : Resets before) (hsep : Parts sep) (hbehind : Parts behind) :
    OpensNone (before ++ s ++ sep ++ t ++ behind) := by
  have hfront : OpensNone (before ++ s ++ sep ++ t) := (hs.prepend hbefore).join ht hsep
  exact hfront.append hbehind

theorem OpensNone.trim (hs : OpensNone s) : OpensNone (Text.trim s) := by
  rw [OpensNone, Text.trim, String.toList_ofList]
  exact Chars.opensCall_trim hs

theorem opensNone_of_isTame (hs : IsTame s) : OpensNone s :=
  opensNone_of_notMem fun h => absurd (hs '(' h) (by decide)

theorem opensNone_of_mem_segment (hc : Chars.continuesName c = false) (hs : OpensNone s)
    (ht : t ∈ segment s c) : OpensNone t := by
  obtain ⟨part, hpart, rfl⟩ := List.mem_map.1 ht
  rw [OpensNone, String.toList_ofList]
  exact Chars.opensCall_of_mem_segment hc hs hpart

private theorem opensNone_intercalate {parts : List String} (hsep : Parts sep)
    (hparts : ∀ part ∈ parts, OpensNone part) : OpensNone (sep.intercalate parts) := by
  induction parts with
  | nil => exact (by decide : OpensNone "")
  | cons part parts ih =>
    obtain ⟨hpart, hrest⟩ := List.forall_mem_cons.1 hparts
    cases parts with
    | nil =>
      rw [String.intercalate_singleton]
      exact hpart
    | cons next parts =>
      rw [String.intercalate_cons_cons]
      exact hpart.join (ih hrest) hsep

end Texts

section Evaluate

variable {theme : Theme} {color alpha value args out : String} {e : ThemeEntry}

/-- Whether no key and no value of a theme begins a call. -/
def Theme.OpensNone (t : Theme) : Prop :=
  ∀ e ∈ t.entries, UtilityCss.OpensNone e.key ∧ UtilityCss.OpensNone e.value

instance : DecidablePred Theme.OpensNone :=
  fun t => inferInstanceAs
    (Decidable (∀ e ∈ t.entries, UtilityCss.OpensNone e.key ∧ UtilityCss.OpensNone e.value))

theorem opensNone_normalizeAlpha {modifier : String} {arbitrary : Bool} (h : OpensNone modifier)
    (halpha : normalizeAlpha modifier arbitrary = some alpha) : OpensNone alpha := by
  unfold normalizeAlpha at halpha
  dsimp only at halpha
  split at halpha
  · cases halpha
  · split at halpha
    · obtain ⟨-, -, rfl⟩ := Option.map_eq_some_iff.1 halpha
      exact h.trim
    · split at halpha
      · rw [numberAlpha?] at halpha
        split at halpha
        · cases halpha
          split
          · exact (opensNone_of_isTame (isTame_formatNumber _)).append (by decide)
          · exact h.trim.append (by decide)
        · split at halpha
          · cases halpha
            exact h.trim.append (by decide)
          · cases halpha
      · split at halpha
        · cases halpha
          exact h.trim
        · cases halpha

theorem opensNone_withAlpha (hcolor : OpensNone color) (halpha : OpensNone alpha) :
    OpensNone (withAlpha color alpha) := by
  rw [withAlpha]
  split
  · exact hcolor
  · split
    · exact opensNone_of_isTame (isTame_hexText _)
    · exact hcolor.surround halpha (by decide) (by decide) (by decide)

theorem opensNone_read (h : OpensNone args) :
    (∀ alpha ∈ (ThemeCall.read args).alpha, OpensNone alpha) ∧
      ∀ fallback ∈ (ThemeCall.read args).fallback, OpensNone fallback := by
  have hparts : ∀ part ∈ segment args ',', OpensNone part :=
    fun part hpart => opensNone_of_mem_segment (by decide) h hpart
  have hfallback : ∀ fallback ∈ (if (segment args ',').length > 1 then
      some (Text.trim (",".intercalate (segment args ',').tail)) else none), OpensNone fallback := by
    intro fallback hf
    obtain ⟨-, hf⟩ := Option.ite_none_right_eq_some.1 hf
    obtain rfl := Option.some.inj hf
    exact (opensNone_intercalate (by decide) fun part hpart =>
      hparts part (List.mem_of_mem_tail hpart)).trim
  have hfront : OpensNone (Text.trim ((segment args ',').headD "")) := by
    refine OpensNone.trim ?_
    cases hlist : segment args ',' with
    | nil => exact (by decide : OpensNone "")
    | cons part parts => exact hparts part (by rw [hlist]; exact List.mem_cons_self)
  unfold ThemeCall.read
  dsimp only
  split
  · next path alpha hsplit =>
    refine ⟨?_, hfallback⟩
    intro a ha
    obtain rfl := Option.some.inj ha
    have hmem : alpha ∈ segment (Text.trim ((segment args ',').headD "")) '/' := by
      rw [hsplit]
      exact List.mem_cons_of_mem _ List.mem_cons_self
    exact (opensNone_of_mem_segment (by decide) hfront hmem).trim
  · exact ⟨nofun, hfallback⟩

theorem opensNone_applyAlpha {alpha : Option String} (hvalue : OpensNone value)
    (halpha : ∀ a ∈ alpha, OpensNone a) (h : applyAlpha value alpha = .ok out) : OpensNone out := by
  cases alpha with
  | none =>
    cases h
    exact hvalue
  | some a =>
    rw [applyAlpha] at h
    split at h
    · next normal hnormal =>
      cases h
      exact opensNone_withAlpha hvalue (opensNone_normalizeAlpha (halpha a rfl) hnormal)
    · cases h

theorem Theme.OpensNone.render (ht : theme.OpensNone) (he : e ∈ theme.entries) :
    UtilityCss.OpensNone e.render := by
  obtain ⟨hkey, hvalue⟩ := ht e he
  rw [ThemeEntry.render]
  split
  · exact hvalue
  · exact hkey.surround hvalue (by decide) (by decide) (by decide)

theorem Theme.mem_of_lookupPath {path : String} (h : theme.lookupPath path = some e) :
    e ∈ theme.entries := by
  have hget {key : String} (h : theme.get? key = some e) : e ∈ theme.entries := (mem_of_get? h).1
  rw [lookupPath] at h
  split at h
  · simp only [Option.orElse_eq_orElse, Option.orElse_eq_or, Option.or_eq_some_iff] at h
    exact h.elim hget fun h => hget h.2
  · obtain ⟨_, -, h⟩ := Option.bind_eq_some_iff.1 h
    obtain ⟨key, -, h⟩ := Option.bind_eq_some_iff.1 h
    simp only [lookupDefault, Option.orElse_eq_orElse, Option.orElse_eq_or,
      Option.or_eq_some_iff] at h
    rcases h with h | ⟨-, h | ⟨-, h | ⟨-, h | ⟨-, h⟩⟩⟩⟩ <;> exact hget h

theorem isRun_functionNames {name : List Char} (h : name ∈ functionNames) :
    Chars.IsRun name ∧ name ≠ [] := by
  have hall : ∀ name ∈ functionNames, (∀ c ∈ name, Chars.continuesName c) ∧ name ≠ [] := by decide
  exact hall name h

section Pass

variable {name : String} {resolve : String → Except CompileError String}

theorem replaceCalls_eq_self (hname : name.toList ∈ functionNames) (hvalue : OpensNone value) :
    replaceCalls name resolve value = .ok value := by
  obtain ⟨hrun, hne⟩ := isRun_functionNames hname
  let onChars (args : List Char) : Except CompileError (List Char) :=
    (resolve (String.ofList args)).map String.toList
  have hself : Chars.replaceCalls name.toList onChars true value.toList = .ok value.toList :=
    Chars.replaceCalls_eq_self hrun hne hname Chars.isRun_nil hvalue
  rw [replaceCalls]
  exact (congrArg (Except.map String.ofList) hself).trans (congrArg Except.ok String.ofList_toList)

/-- A pass for one function leaves the calls of the others if what it writes opens none. -/
theorem isFlat_replaceCalls {allowed : List (List Char)} (hname : name.toList ∈ functionNames)
    (hwritten : ∀ args value, OpensNone args → resolve args = .ok value → OpensNone value)
    (hvalue : Chars.isFlat functionNames allowed [] value.toList)
    (h : replaceCalls name resolve value = .ok out) :
    Chars.isFlat functionNames (allowed.filter (· != name.toList)) [] out.toList := by
  obtain ⟨hrun, hne⟩ := isRun_functionNames hname
  obtain ⟨chars, hchars, rfl⟩ := map_eq_ok.1 h
  rw [String.toList_ofList]
  refine Chars.isFlat_replaceCalls hrun hne hname (fun args written hargs hresolve => ?_)
    Chars.isRun_nil hvalue hchars
  obtain ⟨text, htext, rfl⟩ := map_eq_ok.1 hresolve
  exact hwritten (String.ofList args) text (by rwa [OpensNone, String.toList_ofList]) htext

end Pass

namespace Theme

theorem evaluateTo_eq_self {depth : Nat} (hvalue : UtilityCss.OpensNone value)
    (h : theme.evaluateTo depth value = .ok out) : out = value := by
  cases depth with
  | zero => cases h
  | succ depth =>
    rw [evaluateTo] at h
    split at h
    · exact (Except.ok.inj h).symm
    · rw [replaceCalls_eq_self (by decide) hvalue] at h
      change replaceCalls "--theme" _ value >>= _ = _ at h
      rw [replaceCalls_eq_self (by decide) hvalue] at h
      change replaceCalls "--spacing" _ value >>= _ = _ at h
      rw [replaceCalls_eq_self (by decide) hvalue] at h
      change replaceCalls "--alpha" _ value = _ at h
      rw [replaceCalls_eq_self (by decide) hvalue] at h
      exact (Except.ok.inj h).symm

theorem opensNone_evaluateFallback {depth : Nat} {function : String} {fallback : Option String}
    (hfallback : ∀ s ∈ fallback, UtilityCss.OpensNone s)
    (h : evaluateFallback (theme.evaluateTo depth) function args fallback = .ok out) :
    UtilityCss.OpensNone out := by
  cases fallback with
  | none => cases h
  | some s =>
    rw [evaluateTo_eq_self (hfallback s rfl) h]
    exact hfallback s rfl

variable (ht : theme.OpensNone) (hargs : UtilityCss.OpensNone args)

include ht hargs

private theorem opensNone_evaluateTheme {depth : Nat}
    (h : theme.evaluateTheme (theme.evaluateTo depth) args = .ok out) :
    UtilityCss.OpensNone out := by
  obtain ⟨halpha, hfallback⟩ := opensNone_read hargs
  unfold evaluateTheme at h
  generalize ThemeCall.read args = call at h halpha hfallback
  dsimp only at h
  split at h
  · next e he => exact opensNone_applyAlpha (ht e (mem_of_lookupPath he)).2 halpha h
  · exact opensNone_evaluateFallback hfallback h

private theorem opensNone_evaluateVariable {depth : Nat}
    (h : theme.evaluateVariable (theme.evaluateTo depth) args = .ok out) :
    UtilityCss.OpensNone out := by
  obtain ⟨halpha, hfallback⟩ := opensNone_read hargs
  have hreference {e : ThemeEntry} (he : e ∈ theme.entries) :
      UtilityCss.OpensNone ("var(" ++ e.key ++ ")") :=
    ((ht e he).1.prepend (by decide)).append (by decide)
  have hboth {e : ThemeEntry} (he : e ∈ theme.entries) {fallback : String}
      (hf : (ThemeCall.read args).fallback = some fallback) :
      UtilityCss.OpensNone ("var(" ++ e.key ++ ", " ++ fallback ++ ")") :=
    (ht e he).1.surround (hfallback fallback hf) (by decide) (by decide) (by decide)
  unfold evaluateVariable at h
  generalize ThemeCall.read args = call at h halpha hfallback hboth
  dsimp only at h
  -- with ` inline` behind the key and without it
  split at h
  all_goals
    dsimp only at h
    split at h
    · cases h
    · split at h
      · exact opensNone_evaluateFallback hfallback h
      · next e he =>
        refine opensNone_applyAlpha ?_ halpha h
        split
        · exact (ht e (mem_of_lookupPath he)).2
        · split
          · next hf => exact hboth (mem_of_lookupPath he) hf
          · exact hreference (mem_of_lookupPath he)

private theorem opensNone_evaluateSpacing (h : theme.evaluateSpacing args = .ok out) :
    UtilityCss.OpensNone out := by
  unfold evaluateSpacing at h
  dsimp only at h
  split at h
  · cases h
  · split at h
    · next e he =>
      obtain rfl := Except.ok.inj h
      exact (ht.render (mem_of_get? he).1).surround hargs.trim (by decide) (by decide) (by decide)
    · cases h

omit ht in
private theorem opensNone_evaluateAlpha (h : evaluateAlpha args = .ok out) :
    UtilityCss.OpensNone out := by
  rw [evaluateAlpha] at h
  split at h
  · next color alpha hsplit =>
    have hparts : ∀ part ∈ [color, alpha], UtilityCss.OpensNone part := by
      rw [← hsplit]
      exact fun part hpart => opensNone_of_mem_segment (by decide) hargs hpart
    split at h
    · next a ha =>
      obtain rfl := Except.ok.inj h
      exact opensNone_withAlpha (hparts color List.mem_cons_self).trim
        (opensNone_normalizeAlpha (hparts alpha (List.mem_cons_of_mem _ List.mem_cons_self)) ha)
    · cases h
  · cases h

omit hargs

/-- A flat text is evaluated to one without calls. -/
theorem opensNone_evaluate (hvalue : IsFlatText value) (h : theme.evaluate value = .ok out) :
    UtilityCss.OpensNone out := by
  rw [evaluate] at h
  generalize theme.fallbackDepth value = depth at h
  cases depth with
  | zero => cases h
  | succ depth =>
    rw [evaluateTo] at h
    split at h
    · next hplain =>
      obtain rfl := Except.ok.inj h
      refine opensNone_of_notMem fun hmem => ?_
      rw [Text.containsChar, List.contains_iff_mem.2 hmem] at hplain
      exact Bool.false_ne_true hplain
    · obtain ⟨first, hfirst, h⟩ := bind_eq_ok.1 h
      obtain ⟨second, hsecond, h⟩ := bind_eq_ok.1 h
      obtain ⟨third, hthird, h⟩ := bind_eq_ok.1 h
      have hflat := isFlat_replaceCalls (by decide)
        (fun _ _ hargs => opensNone_evaluateTheme ht hargs) hvalue hfirst
      have hflat := isFlat_replaceCalls (by decide)
        (fun _ _ hargs => opensNone_evaluateVariable ht hargs) hflat hsecond
      have hflat := isFlat_replaceCalls (by decide)
        (fun _ _ hargs => opensNone_evaluateSpacing ht hargs) hflat hthird
      have hflat := isFlat_replaceCalls (by decide)
        (fun _ _ hargs => opensNone_evaluateAlpha hargs) hflat h
      exact Chars.not_opensCall_of_isFlat hflat

end Theme

end Evaluate

end UtilityCss
