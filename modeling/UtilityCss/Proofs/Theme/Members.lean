import Mathlib.Data.List.Nodup
import UtilityCss.Plugin.Extension
import UtilityCss.Proofs.Text.Escape
import UtilityCss.Proofs.Text.Find
import UtilityCss.Proofs.Theme.Closure
import UtilityCss.Proofs.Theme.Path

/-!
# Listed values and their look-up

A value that stands escaped in a key is listed in its namespace as it is, and its look-up finds the
same entry. The look-up tries two more spellings of a key: the bare value, and the value with
underscores for dots. So a listed value whose key has it bare leads to another entry if there is one
of the escaped key, and a value with dots is listed with underscores if its key has these.
-/

namespace UtilityCss

namespace Chars

variable {s : List Char} {c : Char} {write : Char → List Char}

private theorem unescape_escapeKey (s : List Char) : unescape (escapeKey s) = s := by
  induction s with
  | nil => rw [escapeKey, List.flatMap_nil, unescape]
  | cons c s ih =>
    rw [escapeKey_cons]
    cases hc : isIdentifierChar c with
    | true =>
      have hbackslash : c ≠ '\\' := by
        rintro rfl
        revert hc
        decide
      rw [if_pos rfl, List.singleton_append, unescape_cons hbackslash, ih]
    | false =>
      rw [if_neg Bool.false_ne_true]
      exact (unescape_escaped (isHexDigit_eq_false hc)).trans (congrArg _ ih)

theorem unescape_eq_self (h : '\\' ∉ s) : unescape s = s := by
  induction s with
  | nil => simp [unescape]
  | cons c s ih =>
    rw [List.mem_cons, not_or] at h
    rw [unescape_cons (Ne.symm h.1), ih h.2]

private theorem append_takeHex (n : Nat) (s : List Char) :
    (takeHex n s).1 ++ (takeHex n s).2 = s := by
  induction n generalizing s with
  | zero => rfl
  | succ n ih =>
    cases s with
    | nil => rfl
    | cons c s =>
      rw [takeHex]
      split
      · exact congrArg (c :: ·) (ih s)
      · rfl

/-- Reading makes a text shorter if a backslash stands in it. -/
theorem length_unescape (s : List Char) :
    (unescape s).length ≤ s.length ∧ ('\\' ∈ s → (unescape s).length < s.length) := by
  fun_induction unescape s with
  | case1 => simp
  | case2 => simp
  | case3 c s hhex ih =>
    simp only [List.length_cons]
    omega
  | case4 s hhex ih =>
    have hdigits : 0 < (takeHex 6 s).1.length := List.length_pos_iff.2 (by simpa using hhex)
    have hlength := congrArg List.length (append_takeHex 6 s)
    have hspace := length_dropSpace (takeHex 6 s).2
    rw [List.length_append] at hlength
    simp only [List.length_cons]
    omega
  | case5 c s hc ih =>
    refine ⟨Nat.succ_le_succ ih.1, fun hmem => Nat.succ_lt_succ (ih.2 ?_)⟩
    exact (List.mem_cons.1 hmem).resolve_left fun heq => hc heq.symm

/-- Two dashes stand next to each other in a text only if they do in what it was written for, where
each dash is written as it is and all else without one. -/
theorem infix_of_infix_flatMap (hdash : write '-' = ['-'])
    (hother : ∀ c, c ≠ '-' → write c ≠ [] ∧ '-' ∉ write c) (h : ['-', '-'] <:+: s.flatMap write) :
    ['-', '-'] <:+: s := by
  -- a text without dashes in front of another one brings no pair of them
  have hskip (t u : List Char) (ht : '-' ∉ t) (h : ['-', '-'] <:+: t ++ u) : ['-', '-'] <:+: u := by
    induction t with
    | nil => exact h
    | cons c t ih =>
      rw [List.mem_cons, not_or] at ht
      rw [List.cons_append, List.infix_cons_iff, List.cons_prefix_cons] at h
      exact h.elim (fun hc => absurd hc.1 ht.1) (ih ht.2)
  induction s with
  | nil => exact h
  | cons c s ih =>
    rw [List.flatMap_cons] at h
    by_cases hc : c = '-'
    · subst hc
      rw [hdash, List.singleton_append, List.infix_cons_iff, List.cons_prefix_cons] at h
      obtain ⟨-, hnext⟩ | h := h
      · cases s with
        | nil => simp at hnext
        | cons d s =>
          by_cases hd : d = '-'
          · subst hd
            exact ⟨[], s, rfl⟩
          · obtain ⟨hne, hnot⟩ := hother d hd
            obtain ⟨e, t, ht⟩ := List.exists_cons_of_ne_nil hne
            rw [List.flatMap_cons, ht, List.cons_append, List.cons_prefix_cons] at hnext
            exact absurd (ht ▸ hnext.1 ▸ List.mem_cons_self) hnot
      · exact (ih h).trans (List.suffix_cons _ s).isInfix
    · exact (ih (hskip _ _ (hother c hc).2 h)).trans (List.suffix_cons _ s).isInfix

end Chars

section Value

variable {value : String}

private theorem containsPhrase_iff {phrase : String} :
    Text.containsPhrase value phrase = false ↔ ¬ phrase.toList <:+: value.toList := by
  rw [← Chars.cutPhrase_isSome_iff, Bool.not_eq_true]
  rfl

theorem unescape_escapeKeySegment (value : String) : unescape (escapeKeySegment value) = value := by
  rw [unescape, toList_escapeKeySegment, Chars.unescape_escapeKey, String.ofList_toList]

/-- A value has a name of its own in a namespace however it is spelled, where dashes are spelled as they
are and all else without one. -/
theorem names_of_spelling {spelled : String} {write : Char → List Char}
    (hspelled : spelled.toList = value.toList.flatMap write) (hdash : write '-' = ['-'])
    (hother : ∀ c, c ≠ '-' → write c ≠ [] ∧ '-' ∉ write c) (hvalue : value ≠ "")
    (hdashes : Text.containsPhrase value "--" = false) :
    spelled ≠ "" ∧ Text.containsPhrase spelled "--" = false := by
  constructor
  · rintro rfl
    obtain ⟨c, hc⟩ := List.exists_mem_of_ne_nil _ (mt String.toList_eq_nil_iff.1 hvalue)
    have hnil : write c = [] := List.flatMap_eq_nil_iff.1 hspelled.symm c hc
    by_cases heq : c = '-'
    · rw [heq, hdash] at hnil
      cases hnil
    · exact (hother c heq).1 hnil
  · rw [containsPhrase_iff] at hdashes ⊢
    rw [hspelled]
    exact mt (Chars.infix_of_infix_flatMap hdash hother) hdashes

/-- A value with underscores for its dots. -/
def underscored (value : String) : String := Text.replaceChar '.' "_" value

theorem toList_underscored (value : String) :
    (underscored value).toList = value.toList.map fun c => if c == '.' then '_' else c := by
  rw [underscored, Text.replaceChar, String.toList_ofList, List.map_eq_flatMap]
  congr
  funext c
  split <;> rfl

theorem unescape_eq_self (h : '\\' ∉ value.toList) : unescape value = value := by
  rw [unescape, Chars.unescape_eq_self h, String.ofList_toList]

private theorem unescape_underscored (h : '\\' ∉ value.toList) :
    unescape (underscored value) = underscored value := by
  refine unescape_eq_self fun hmem => ?_
  rw [toList_underscored, List.mem_map] at hmem
  obtain ⟨c, hc, heq⟩ := hmem
  split at heq
  · cases heq
  · exact h (heq ▸ hc)

/-- A value with dots is not what is read of it with underscores: reading can bring a dot only where
it makes the text shorter. -/
theorem unescape_underscored_ne (h : '.' ∈ value.toList) : unescape (underscored value) ≠ value := by
  intro heq
  have hlength : (underscored value).toList.length = value.toList.length := by
    rw [toList_underscored, List.length_map]
  have hread : Chars.unescape (underscored value).toList = value.toList := by
    rw [← String.toList_inj, unescape, String.toList_ofList] at heq
    exact heq
  by_cases hbackslash : '\\' ∈ (underscored value).toList
  · have hshorter := (Chars.length_unescape _).2 hbackslash
    rw [hread, hlength] at hshorter
    exact Nat.lt_irrefl _ hshorter
  · rw [Chars.unescape_eq_self hbackslash] at hread
    rw [← hread, toList_underscored, List.mem_map] at h
    obtain ⟨c, -, hc⟩ := h
    split at hc <;> simp_all

end Value

namespace Theme

variable {t : Theme} {name value : String} {e : ThemeEntry}

/-- What is listed in a namespace: the entries of keys with something behind the namespace in which
no two dashes stand next to each other, under what is read there. -/
theorem mem_members_iff : (value, e) ∈ t.members name ↔ e ∈ t.entries ∧ ∃ suffix,
    e.key = name ++ "-" ++ suffix ∧ suffix ≠ "" ∧ Text.containsPhrase suffix "--" = false ∧
      unescape suffix = value := by
  rw [members, List.mem_filterMap]
  simp only [Option.bind_eq_bind, Option.bind_eq_some_iff, Text.afterLead?_eq_some_iff]
  constructor
  · rintro ⟨e', he, suffix, hkey, hlisted⟩
    split at hlisted
    · cases hlisted
    · next h =>
      obtain ⟨rfl, rfl⟩ := Prod.mk.inj (Option.some.inj hlisted)
      rw [Bool.or_eq_true, not_or] at h
      exact ⟨he, suffix, hkey, by simpa using h.1, by simpa using h.2, rfl⟩
  · rintro ⟨he, suffix, hkey, hne, hdashes, rfl⟩
    refine ⟨e, he, suffix, hkey, ?_⟩
    simp [hne, hdashes]

theorem mem_members_of_get? {spelled : String} (h : t.get? (name ++ "-" ++ spelled) = some e)
    (hnames : spelled ≠ "" ∧ Text.containsPhrase spelled "--" = false)
    (hread : unescape spelled = value) : (value, e) ∈ t.members name :=
  mem_members_iff.2 ⟨(mem_of_get? h).1, spelled, (mem_of_get? h).2, hnames.1, hnames.2, hread⟩

theorem mem_members_of_escaped (hvalue : value ≠ "")
    (hdashes : Text.containsPhrase value "--" = false)
    (h : t.get? (name ++ "-" ++ escapeKeySegment value) = some e) : (value, e) ∈ t.members name := by
  refine mem_members_of_get? h ?_ (unescape_escapeKeySegment value)
  refine names_of_spelling (toList_escapeKeySegment value) rfl (fun c hc => ?_) hvalue hdashes
  split <;> simp [Ne.symm hc]

private theorem mem_members_of_underscored (hvalue : value ≠ "")
    (hdashes : Text.containsPhrase value "--" = false) (hbackslash : '\\' ∉ value.toList)
    (h : t.get? (name ++ "-" ++ underscored value) = some e) :
    (underscored value, e) ∈ t.members name := by
  refine mem_members_of_get? h ?_ (unescape_underscored hbackslash)
  refine names_of_spelling ((toList_underscored value).trans List.map_eq_flatMap) rfl
    (fun c hc => ?_) hvalue hdashes
  split <;> simp [Ne.symm hc]

/-- The spellings of a key in which a value is looked up, in their order. -/
theorem lookup_eq_some_iff (hvalue : value ≠ "") (hdashes : Text.containsPhrase value "--" = false) :
    t.lookup name (some value) = some e ↔
      t.get? (name ++ "-" ++ escapeKeySegment value) = some e ∨
      t.get? (name ++ "-" ++ escapeKeySegment value) = none ∧
        (t.get? (name ++ "-" ++ value) = some e ∨
          t.get? (name ++ "-" ++ value) = none ∧ '.' ∈ value.toList ∧
            t.get? (name ++ "-" ++ underscored value) = some e) := by
  have hempty : value.isEmpty = false := by simpa using hvalue
  rw [lookup, hempty, hdashes, Bool.or_false, if_neg Bool.false_ne_true]
  simp only [Option.orElse_eq_orElse, Option.orElse_eq_or, Option.or_eq_some_iff]
  simp [Text.containsChar, underscored]

private theorem get?_key (ht : (t.entries.map (·.key)).Nodup) (he : e ∈ t.entries) :
    t.get? e.key = some e := by
  obtain ⟨e', he'⟩ := Option.isSome_iff_exists.1 (entryOf?_isSome he)
  have hmem := mem_of_get? he'
  rw [List.inj_on_of_nodup_map ht hmem.1 he hmem.2] at he'
  exact he'

/-- A listed value leads to its entry exactly if its key has the value escaped, or has it bare and
there is no entry of the escaped key. -/
theorem lookup_of_mem_members (ht : (t.entries.map (·.key)).Nodup)
    (hvalue : value ≠ "") (hdashes : Text.containsPhrase value "--" = false)
    (h : (value, e) ∈ t.members name) :
    t.lookup name (some value) = some e ↔
      e.key = name ++ "-" ++ escapeKeySegment value ∨
      e.key = name ++ "-" ++ value ∧ t.get? (name ++ "-" ++ escapeKeySegment value) = none := by
  obtain ⟨he, suffix, hkey, -, -, hread⟩ := mem_members_iff.1 h
  have hget := get?_key ht he
  rw [lookup_eq_some_iff hvalue hdashes]
  constructor
  · rintro (hescaped | ⟨hnone, hbare | ⟨-, hdot, hunderscored⟩⟩)
    · exact .inl (mem_of_get? hescaped).2
    · exact .inr ⟨(mem_of_get? hbare).2, hnone⟩
    · have hsuffix : suffix = underscored value := by
        rw [(mem_of_get? hunderscored).2] at hkey
        exact ((String.append_right_inj _).1 hkey).symm
      rw [hsuffix] at hread
      exact absurd hread (unescape_underscored_ne hdot)
  · rintro (heq | ⟨heq, hnone⟩)
    · exact .inl (heq ▸ hget)
    · exact .inr ⟨hnone, .inl (heq ▸ hget)⟩

/-- What a value without backslashes leads to is listed, under the value or under the value with
underscores for its dots. -/
theorem mem_members_of_lookup (hvalue : value ≠ "")
    (hdashes : Text.containsPhrase value "--" = false) (hbackslash : '\\' ∉ value.toList)
    (h : t.lookup name (some value) = some e) :
    (value, e) ∈ t.members name ∨
      '.' ∈ value.toList ∧ (underscored value, e) ∈ t.members name := by
  rcases (lookup_eq_some_iff hvalue hdashes).1 h with h | ⟨-, h | ⟨-, hdot, h⟩⟩
  · exact .inl (mem_members_of_escaped hvalue hdashes h)
  · exact .inl (mem_members_of_get? h ⟨hvalue, hdashes⟩ (unescape_eq_self hbackslash))
  · exact .inr ⟨hdot, mem_members_of_underscored hvalue hdashes hbackslash h⟩

/-- A value that stands escaped in a key is looked up and listed under its own name, and so plugins
are handed it with its entry and it names a breakpoint. A listed value leads to its entry exactly if its key has it
escaped, or has it bare and there is no entry of the escaped key. Whatever a value without backslashes
leads to is listed under it or, where the key has underscores for its dots, with these. -/
theorem lookup_members_agree (events : List ThemeEvent) (name : String) (hvalue : value ≠ "")
    (hdashes : Text.containsPhrase value "--" = false) :
    let t := ofEvents events
    unescape (escapeKeySegment value) = value ∧
    (∀ e, t.get? (name ++ "-" ++ escapeKeySegment value) = some e →
      t.lookup name (some value) = some e ∧ (value, e) ∈ t.members name ∧
      (∀ d : DesignSystem, d.theme = t → Text.startsWith name "--" →
        (value, e.render) ∈ d.themeValues name) ∧
      (name = "--breakpoint" →
        (value, .block "media" ("(width >= " ++ e.value ++ ")")) ∈ breakpointVariants t)) ∧
    (∀ e, (value, e) ∈ t.members name →
      (t.lookup name (some value) = some e ↔
        e.key = name ++ "-" ++ escapeKeySegment value ∨
        e.key = name ++ "-" ++ value ∧ t.get? (name ++ "-" ++ escapeKeySegment value) = none)) ∧
    ('\\' ∉ value.toList → ∀ e, t.lookup name (some value) = some e →
      (value, e) ∈ t.members name ∨
      '.' ∈ value.toList ∧ (underscored value, e) ∈ t.members name) := by
  intro t
  refine ⟨unescape_escapeKeySegment value, fun e he => ?_, fun e h => ?_, fun hbackslash e h => ?_⟩
  · have hmember : (value, e) ∈ t.members name := mem_members_of_escaped hvalue hdashes he
    refine ⟨(lookup_eq_some_iff hvalue hdashes).2 (.inl he), hmember, ?_, ?_⟩
    · intro d hd hname
      rw [DesignSystem.themeValues, hd, if_pos hname]
      exact List.mem_map_of_mem hmember
    · rintro rfl
      exact List.mem_append_left _ (List.mem_map_of_mem hmember)
  · exact lookup_of_mem_members (nodup_keys events) hvalue hdashes h
  · exact mem_members_of_lookup hvalue hdashes hbackslash h

def dottedTheme : Theme :=
  ofEvents [.set "--radius-3_5" "1px" {}, .set "--radius-2\\.5" "2px" {},
    .set "--radius-2.5" "3px" {}]

theorem lookup_members_agree_dotted :
    dottedTheme.lookup "--radius" (some "2.5") = some ⟨"--radius-2\\.5", "2px", {}, true⟩ ∧
      ("2.5", ⟨"--radius-2\\.5", "2px", {}, true⟩) ∈ dottedTheme.members "--radius" := by
  have hentry : dottedTheme.get? ("--radius" ++ "-" ++ escapeKeySegment "2.5") =
      some ⟨"--radius-2\\.5", "2px", {}, true⟩ := by decide +kernel
  have hvalue : "2.5" ≠ "" := by decide
  have hagree := (lookup_members_agree _ "--radius" hvalue (by decide)).2.1 _ hentry
  exact ⟨hagree.1, hagree.2.1⟩

/-- A value with dots may lead to an entry without being listed, and a listed one may lead to another
entry. -/
theorem lookup_members_differ :
    (dottedTheme.lookup "--radius" (some "3.5") = some ⟨"--radius-3_5", "1px", {}, true⟩ ∧
      ∀ p ∈ dottedTheme.members "--radius", p.1 ≠ "3.5") ∧
    (("2.5", ⟨"--radius-2.5", "3px", {}, true⟩) ∈ dottedTheme.members "--radius" ∧
      dottedTheme.lookup "--radius" (some "2.5") = some ⟨"--radius-2\\.5", "2px", {}, true⟩) := by
  decide +kernel

end Theme

end UtilityCss
