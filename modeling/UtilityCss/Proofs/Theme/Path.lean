import UtilityCss.Proofs.Text.Ascii
import UtilityCss.Proofs.Text.Blank
import UtilityCss.Proofs.Theme.Reachable
import UtilityCss.Theme.Lookup

/-!
# Keys of paths

A key is written with a backslash before every character that may not stand in a name. The look-up of
a path begins with the key without backslashes and then tries spellings of its own, in only one of
which there are any: there the dots are escaped. So it ends at the escaped key exactly if nothing but
dots is escaped in it and no entry has the key with its bare dots.
-/

namespace UtilityCss

namespace Chars

/-- A text with a backslash before every character that may not stand in a name. -/
def escapeKey (s : List Char) : List Char :=
  s.flatMap fun c => if isIdentifierChar c then [c] else ['\\', c]

section Escape

variable {s t : List Char} {c : Char} {p : Char → Prop}

theorem escapeKey_cons (c : Char) (s : List Char) :
    escapeKey (c :: s) = (if isIdentifierChar c then [c] else ['\\', c]) ++ escapeKey s := rfl

theorem escapeKey_append (s t : List Char) : escapeKey (s ++ t) = escapeKey s ++ escapeKey t :=
  List.flatMap_append

theorem escapeKey_eq_self (h : ∀ c ∈ s, isIdentifierChar c) : escapeKey s = s := by
  induction s with
  | nil => rfl
  | cons c s ih =>
    rw [escapeKey_cons, if_pos (h c List.mem_cons_self),
      ih fun c hc => h c (List.mem_cons_of_mem _ hc), List.singleton_append]

theorem escapeKey_eq_nil_iff : escapeKey s = [] ↔ s = [] := by
  cases s with
  | nil => exact iff_of_true rfl rfl
  | cons c s =>
    rw [escapeKey_cons]
    split <;> simp

theorem count_escapeKey (s : List Char) : (escapeKey s).count '\\' =
    s.count '\\' + s.countP (!isIdentifierChar ·) := by
  induction s with
  | nil => rfl
  | cons c s ih =>
    rw [escapeKey_cons, List.count_append, ih, List.count_cons, List.countP_cons]
    by_cases hc : isIdentifierChar c
    · simp only [hc, if_true, List.count_singleton, Bool.not_true, Bool.false_eq_true, if_false]
      omega
    · simp only [hc, if_false, List.count_cons, List.count_nil, Bool.not_false, if_true,
        beq_self_eq_true, Bool.false_eq_true]
      omega

theorem isIdentifierChar_of_isUpper (h : c.isUpper) : isIdentifierChar c := by
  rw [isIdentifierChar, isAlphanum_iff.2 (.inl (.inl h)), Bool.or_true]

theorem isIdentifierChar_toLower (h : c.isUpper) : isIdentifierChar c.toLower := by
  have hcodes : ∀ n < 91, 65 ≤ n → isIdentifierChar (Char.ofNat n).toLower := by decide
  rw [isUpper_iff] at h
  have hc := hcodes c.toNat (by omega) h.1
  rwa [Char.ofNat_toNat] at hc

theorem not_isUpper (h : ¬ isIdentifierChar c) : c.isUpper = false :=
  Bool.eq_false_iff.2 fun hupper => h (isIdentifierChar_of_isUpper hupper)

theorem not_isSmall (h : ¬ isIdentifierChar c) : (c.isLower || c.isDigit) = false := by
  rw [Bool.eq_false_iff]
  intro hsmall
  rw [Bool.or_eq_true] at hsmall
  have halphanum : c.isAlphanum := by
    rw [isAlphanum_iff]
    exact hsmall.imp_left .inr
  exact h (by rw [isIdentifierChar, halphanum, Bool.or_true])

/-- Escaping a text and writing it with small letters and dashes can be done in any order, since a
backslash is put in front of no letter. -/
theorem kebab_escapeKey (afterSmall : Bool) (s : List Char) :
    kebab afterSmall (escapeKey s) = escapeKey (kebab afterSmall s) := by
  induction s generalizing afterSmall with
  | nil => rfl
  | cons c s ih =>
    rw [escapeKey_cons, kebab]
    by_cases hc : isIdentifierChar c
    · rw [if_pos hc, List.singleton_append, kebab, ih]
      split
      · next h =>
        rw [Bool.and_eq_true] at h
        rw [escapeKey_cons, escapeKey_cons, if_pos (by decide),
          if_pos (isIdentifierChar_toLower h.1)]
        rfl
      · rw [escapeKey_cons, if_pos hc]
        rfl
    · have hbackslash : ('\\'.isLower || '\\'.isDigit) = false ∧ '\\'.isUpper = false := by decide
      rw [if_neg hc, not_isUpper hc, not_isSmall hc, Bool.false_and, if_neg Bool.false_ne_true,
        escapeKey_cons, if_neg hc, List.cons_append, List.cons_append, List.nil_append, kebab,
        hbackslash.1, hbackslash.2, Bool.false_and, if_neg Bool.false_ne_true, kebab,
        not_isUpper hc, not_isSmall hc, Bool.false_and, if_neg Bool.false_ne_true, ih]
      rfl

/-- What holds of all that may stand in a name holds of a text in small letters exactly if it holds
of the text. -/
theorem forall_kebab (hp : ∀ c, isIdentifierChar c → p c) (afterSmall : Bool) (s : List Char) :
    (∀ c ∈ kebab afterSmall s, p c) ↔ ∀ c ∈ s, p c := by
  induction s generalizing afterSmall with
  | nil => simp [kebab]
  | cons c s ih =>
    rw [kebab, List.forall_mem_cons]
    split
    · next h =>
      rw [Bool.and_eq_true] at h
      have hdash := hp '-' (by decide)
      have hlower := hp _ (isIdentifierChar_toLower h.1)
      have hupper := hp c (isIdentifierChar_of_isUpper h.1)
      rw [List.forall_mem_cons, List.forall_mem_cons, ih]
      simp only [hdash, hlower, hupper, true_and]
    · rw [List.forall_mem_cons, ih]

private theorem escapeKey_intercalate (parts : List (List Char)) :
    escapeKey (['-'].intercalate parts) = ['-'].intercalate (parts.map escapeKey) := by
  induction parts with
  | nil => rfl
  | cons part parts ih =>
    cases parts with
    | nil => simp
    | cons part' parts =>
      rw [List.intercalate_cons_cons, escapeKey_append, escapeKey_append, ih, List.map_cons,
        List.map_cons, List.map_cons, List.intercalate_cons_cons]
      rfl

theorem forall_mem_intercalate {sep : List Char} (hsep : ∀ c ∈ sep, p c) (parts : List (List Char)) :
    (∀ c ∈ sep.intercalate parts, p c) ↔ ∀ part ∈ parts, ∀ c ∈ part, p c := by
  induction parts with
  | nil => simp
  | cons part parts ih =>
    cases parts with
    | nil => simp
    | cons part' parts =>
      rw [List.intercalate_cons_cons, List.forall_mem_append, List.forall_mem_append, ih,
        List.forall_mem_cons (a := part)]
      exact and_congr_left' (and_iff_left hsep)

end Escape

section Segments

variable {name s t current : List Char}

def brackets (segments : List (List Char)) : List Char :=
  segments.flatMap fun s => '[' :: s ++ [']']

/-- Whether a segment is something and neither brackets nor quotes stand in it. -/
def IsSegment (s : List Char) : Prop := s ≠ [] ∧ ∀ c ∈ s, c ∉ ['[', ']', '"', '\'']

private theorem stripQuotes_eq_self (h : IsSegment s) : stripQuotes s = s := by
  have hdrop (s : List Char) (h : ∀ c ∈ s, c ∉ ['[', ']', '"', '\'']) :
      (s.dropWhile fun c => c == '"' || c == '\'') = s := by
    cases s with
    | nil => rfl
    | cons c s =>
      have hc := h c List.mem_cons_self
      refine List.dropWhile_cons_of_neg ?_
      simp_all
  rw [stripQuotes, strip, hdrop s h.2, hdrop _ fun c hc => h.2 c (List.mem_reverse.1 hc),
    List.reverse_reverse]

theorem pathSegments_name (h : ∀ c ∈ name, c ≠ '.' ∧ c ≠ '[') :
    pathSegments false current (name ++ t) = pathSegments false (name.reverse ++ current) t := by
  induction name generalizing current with
  | nil => rfl
  | cons c name ih =>
    obtain ⟨hc, hname⟩ := List.forall_mem_cons.1 h
    rw [List.cons_append, pathSegments, ih hname, List.reverse_cons, List.append_assoc,
      List.singleton_append]
    · exact hc.1
    · exact hc.2

theorem pathSegments_inner (h : ∀ c ∈ s, c ≠ ']') :
    pathSegments true current (s ++ ']' :: t) =
      (pathSegments false [] t).map (stripQuotes (current.reverse ++ s) :: ·) := by
  induction s generalizing current with
  | nil => rw [List.nil_append, pathSegments, List.append_nil]
  | cons c s ih =>
    obtain ⟨hc, hs⟩ := List.forall_mem_cons.1 h
    rw [List.cons_append, pathSegments, ih hs, List.reverse_cons, List.append_assoc,
      List.singleton_append]
    exact hc

theorem pathSegments_brackets {segments : List (List Char)} (h : ∀ s ∈ segments, IsSegment s) :
    pathSegments false current (brackets segments) = some (addSegment current segments) := by
  induction segments generalizing current with
  | nil => rfl
  | cons s segments ih =>
    obtain ⟨hs, hsegments⟩ := List.forall_mem_cons.1 h
    have hclose : ∀ c ∈ s, c ≠ ']' := by
      rintro c hc rfl
      exact hs.2 ']' hc (by decide)
    have htext : brackets (s :: segments) = '[' :: (s ++ ']' :: brackets segments) := by
      simp [brackets]
    have hadd : addSegment [] segments = segments := rfl
    rw [htext, pathSegments, pathSegments_inner hclose, ih hsegments, hadd, List.reverse_nil,
      List.nil_append, stripQuotes_eq_self hs]
    rfl

end Segments

end Chars

/-- A path that names a namespace and then has each segment in brackets. -/
def bracketPath (name : String) (path : List String) : String :=
  String.ofList (name.toList ++ Chars.brackets (path.map String.toList))

/-- The key of a path without backslashes. -/
def plainKey (name : String) (path : List String) : String :=
  "--" ++ "-".intercalate ((namespaceName name :: dropDefault path).map kebab)

/-- Whether a name consists of letters and numbers. -/
def IsAlphanumeric (name : String) : Prop := name ≠ "" ∧ ∀ c ∈ name.toList, isAlphanumeric c

section Key

variable {name : String} {path : List String} {p : Char → Prop}

theorem dropDefault_subset (path : List String) : dropDefault path ⊆ path := by
  intro s hs
  rw [dropDefault] at hs
  split at hs
  · exact List.dropLast_subset _ hs
  · exact hs

theorem keyPathToProperty_eq (h : ∀ s ∈ path, s ≠ "") :
    keyPathToProperty (name :: path) = some (plainKey name path) := by
  have hany : (dropDefault path).any (·.isEmpty) = false := by
    rw [List.any_eq_false]
    intro s hs
    simpa using h s (dropDefault_subset path hs)
  rw [keyPathToProperty, hany]
  rfl

private theorem isIdentifierChar_of_isAlphanumeric {c : Char} (h : isAlphanumeric c) :
    Chars.isIdentifierChar c := by
  rw [isAlphanumeric, isAlphabetic, isNumeric] at h
  rw [Chars.isIdentifierChar]
  by_cases hcode : c.toNat < 0x80
  · have halpha : c.isAlpha = (c.isUpper || c.isLower) := rfl
    rw [if_pos hcode, if_pos hcode, halpha] at h
    have halphanum : c.isAlphanum := by
      rw [Chars.isAlphanum_iff]
      simpa using h
    rw [halphanum, Bool.or_true]
  · have hlarge : 0x80 ≤ c.toNat := by omega
    simp [hlarge]

theorem isIdentifierChar_namespaceName (h : IsAlphanumeric name) :
    ∀ c ∈ (namespaceName name).toList, Chars.isIdentifierChar c := by
  rw [namespaceName]
  cases hlookup : namespaceNames.lookup name with
  | none => exact fun c hc => isIdentifierChar_of_isAlphanumeric (h.2 c hc)
  | some other =>
    have htable : ∀ p ∈ namespaceNames, ∀ c ∈ p.2.toList, Chars.isIdentifierChar c := by decide
    obtain ⟨before, behind, heq, -⟩ := List.lookup_eq_some_iff.1 hlookup
    refine htable (name, other) ?_
    rw [heq]
    exact List.mem_append_right _ List.mem_cons_self

theorem toList_escapeKeySegment (s : String) :
    (escapeKeySegment s).toList = Chars.escapeKey s.toList := by
  rw [escapeKeySegment, String.toList_ofList]
  rfl

/-- Only the word itself is written like the name of a default. -/
theorem escapeKeySegment_eq_default_iff {s : String} :
    escapeKeySegment s = "DEFAULT" ↔ s = "DEFAULT" := by
  constructor
  · intro h
    have htext := toList_escapeKeySegment s
    have hcount := Chars.count_escapeKey s.toList
    have hnone : "DEFAULT".toList.count '\\' = 0 := by decide
    rw [← htext, h, hnone] at hcount
    have hspecial : s.toList.countP (!Chars.isIdentifierChar ·) = 0 := by omega
    rw [List.countP_eq_zero] at hspecial
    rw [Chars.escapeKey_eq_self fun c hc => by simpa using hspecial c hc, h] at htext
    exact (String.toList_inj.1 htext).symm
  · rintro rfl
    decide

private theorem dropDefault_map (path : List String) :
    dropDefault (path.map escapeKeySegment) = (dropDefault path).map escapeKeySegment := by
  have hlast : ((path.map escapeKeySegment).getLast? == some "DEFAULT") =
      (path.getLast? == some "DEFAULT") := by
    rw [List.getLast?_map, Bool.eq_iff_iff, beq_iff_eq, beq_iff_eq, Option.map_eq_some_iff]
    simp [escapeKeySegment_eq_default_iff]
  rw [dropDefault, dropDefault, hlast]
  split
  · rw [List.map_dropLast]
  · rfl

theorem toList_plainKey (name : String) (path : List String) : (plainKey name path).toList =
    ['-', '-'] ++ ['-'].intercalate (Chars.kebab false (namespaceName name).toList ::
      (dropDefault path).map fun s => Chars.kebab false s.toList) := by
  rw [plainKey, String.toList_append, String.toList_intercalate, List.map_map, List.map_cons]
  simp [kebab, Function.comp_def]

/-- Where segments are escaped, so is the key. -/
theorem plainKey_map (h : IsAlphanumeric name) (path : List String) :
    plainKey name (path.map escapeKeySegment) = escapeKeySegment (plainKey name path) := by
  have hname := isIdentifierChar_namespaceName h
  have hkebab : Chars.escapeKey (Chars.kebab false (namespaceName name).toList) =
      Chars.kebab false (namespaceName name).toList :=
    Chars.escapeKey_eq_self ((Chars.forall_kebab (fun _ hc => hc) _ _).2 hname)
  have hsegment (s : String) : Chars.kebab false (escapeKeySegment s).toList =
      Chars.escapeKey (Chars.kebab false s.toList) := by
    rw [toList_escapeKeySegment, Chars.kebab_escapeKey]
  apply String.toList_inj.1
  rw [toList_escapeKeySegment, toList_plainKey, toList_plainKey, Chars.escapeKey_append,
    Chars.escapeKey_intercalate, List.map_cons, hkebab, dropDefault_map, List.map_map, List.map_map]
  simp only [Function.comp_def, hsegment]
  rfl

theorem forall_plainKey (hp : ∀ c, Chars.isIdentifierChar c → p c) (h : IsAlphanumeric name)
    (path : List String) :
    (∀ c ∈ (plainKey name path).toList, p c) ↔ ∀ s ∈ path, ∀ c ∈ s.toList, p c := by
  have hdash : ∀ c ∈ ['-'], p c := List.forall_mem_singleton.2 (hp '-' (by decide))
  have hdashes : ∀ c ∈ ['-', '-'], p c := List.forall_mem_cons.2 ⟨hp '-' (by decide), hdash⟩
  have hname : ∀ c ∈ Chars.kebab false (namespaceName name).toList, p c :=
    (Chars.forall_kebab hp _ _).2 fun c hc => hp c (isIdentifierChar_namespaceName h c hc)
  have hdefault : (∀ s ∈ dropDefault path, ∀ c ∈ s.toList, p c) ↔
      ∀ s ∈ path, ∀ c ∈ s.toList, p c := by
    rw [dropDefault]
    split
    · next hlast =>
      have hword : ∀ c ∈ "DEFAULT".toList, p c := by
        have hall : ∀ c ∈ "DEFAULT".toList, Chars.isIdentifierChar c := by decide
        exact fun c hc => hp c (hall c hc)
      obtain ⟨front, rfl⟩ := List.getLast?_eq_some_iff.1 (eq_of_beq hlast)
      rw [List.dropLast_concat, List.forall_mem_append, List.forall_mem_singleton]
      exact (and_iff_left hword).symm
    · rfl
  have hparts : (∀ part ∈ (dropDefault path).map fun s => Chars.kebab false s.toList,
      ∀ c ∈ part, p c) ↔ ∀ s ∈ path, ∀ c ∈ s.toList, p c := by
    rw [← hdefault, List.forall_mem_map]
    exact forall₂_congr fun s _ => Chars.forall_kebab hp false s.toList
  rw [toList_plainKey, List.forall_mem_append, and_iff_right hdashes,
    Chars.forall_mem_intercalate hdash, List.forall_mem_cons, and_iff_right hname, hparts]

end Key

section Spelling

variable {s : String}

theorem count_replaceDots (phrase s : String) : (Text.replaceChar '.' phrase s).toList.count '\\' =
    s.toList.count '\\' + s.toList.count '.' * phrase.toList.count '\\' := by
  rw [Text.replaceChar, String.toList_ofList]
  induction s.toList with
  | nil => simp
  | cons c s ih =>
    rw [List.flatMap_cons, List.count_append, ih, List.count_cons, List.count_cons]
    by_cases hc : c = '.'
    · subst hc
      simp only [beq_self_eq_true, if_true, Nat.add_mul]
      simp
      omega
    · simp [hc, List.count_cons]
      omega

private theorem count_bareName_le (s : List Char) :
    (Theme.bareName s).count '\\' ≤ s.count '\\' := by
  fun_induction Theme.bareName s with
  | case1 s ih =>
    rw [List.count_cons, List.count_cons]
    omega
  | case2 => exact Nat.le_refl _

private theorem escapeKeySegment_eq_self (h : ∀ c ∈ s.toList, Chars.isIdentifierChar c) :
    escapeKeySegment s = s := by
  apply String.toList_inj.1
  rw [toList_escapeKeySegment, Chars.escapeKey_eq_self h]

/-- A spelling that has no backslash more than the text itself is the escaped one only if nothing is
escaped. -/
theorem forall_isIdentifierChar_of_count_le {spelling : String}
    (hcount : spelling.toList.count '\\' ≤ s.toList.count '\\')
    (h : spelling = escapeKeySegment s) : ∀ c ∈ s.toList, Chars.isIdentifierChar c := by
  have hescape := Chars.count_escapeKey s.toList
  rw [← toList_escapeKeySegment, ← h] at hescape
  have hspecial : s.toList.countP (!Chars.isIdentifierChar ·) = 0 := by omega
  rw [List.countP_eq_zero] at hspecial
  intro c hc
  simpa using hspecial c hc

/-- Escaping the dots is escaping exactly if dots are all that is escaped. -/
theorem escapeDots_eq_iff : Theme.escapeDots s = escapeKeySegment s ↔
    ∀ c ∈ s.toList, Chars.isIdentifierChar c ∨ c = '.' := by
  constructor
  · intro h
    have htext := congrArg (fun s => s.toList.count '\\') h
    have hdots : (Theme.escapeDots s).toList.count '\\' =
        s.toList.count '\\' + s.toList.count '.' := by
      rw [Theme.escapeDots, count_replaceDots]
      exact congrArg _ (Nat.mul_one _)
    have hescape := Chars.count_escapeKey s.toList
    rw [← toList_escapeKeySegment] at hescape
    have hsplit : s.toList.countP (!Chars.isIdentifierChar ·) = s.toList.count '.' +
        s.toList.countP fun c => !Chars.isIdentifierChar c && c != '.' := by
      generalize s.toList = s
      induction s with
      | nil => rfl
      | cons c s ih =>
        rw [List.countP_cons, List.countP_cons, List.count_cons, ih]
        by_cases hc : c = '.'
        · subst hc
          have hdot : Chars.isIdentifierChar '.' = false := by decide
          simp [hdot]
          omega
        · by_cases hident : Chars.isIdentifierChar c <;> simp [hc, hident]
          omega
    have hother : (s.toList.countP fun c => !Chars.isIdentifierChar c && c != '.') = 0 := by
      omega
    rw [List.countP_eq_zero] at hother
    intro c hc
    have := hother c hc
    by_cases hident : Chars.isIdentifierChar c
    · exact .inl hident
    · simp only [hident] at this
      exact .inr (by simpa using this)
  · intro h
    apply String.toList_inj.1
    rw [toList_escapeKeySegment, Theme.escapeDots, Text.replaceChar, String.toList_ofList,
      Chars.escapeKey]
    rw [List.flatMap_def, List.flatMap_def]
    refine congrArg List.flatten (List.map_congr_left fun c hc => ?_)
    obtain hident | rfl := h c hc
    · have hdot : c ≠ '.' := by
        rintro rfl
        revert hident
        decide
      simp [hdot, hident]
    · rfl

end Spelling

section Lookup

variable {name : String} {path : List String} {t : Theme} {e : ThemeEntry}

theorem isAlphanumeric_ne {c d : Char} (h : isAlphanumeric c) (hd : isAlphanumeric d = false) :
    c ≠ d := by
  rintro rfl
  rw [h] at hd
  cases hd

theorem exists_cons_of_isAlphanumeric (h : IsAlphanumeric name) : ∃ c s, isAlphanumeric c ∧
    (∀ path, (bracketPath name path).toList = c :: (s ++ Chars.brackets (path.map String.toList))) ∧
      name.toList = c :: s := by
  have hne : name.toList ≠ [] := by simpa using h.1
  obtain ⟨c, s, htext⟩ := List.exists_cons_of_ne_nil hne
  refine ⟨c, s, h.2 c ?_, ?_, htext⟩
  · rw [htext]
    exact List.mem_cons_self
  · intro path
    rw [bracketPath, String.toList_ofList, htext, List.cons_append]

private theorem trim_bracketPath (h : IsAlphanumeric name) (path : List String) :
    Text.trim (bracketPath name path) = bracketPath name path := by
  have hblank {c : Char} (hc : isAlphanumeric c) : isBlank c = false :=
    isBlank_eq_false_of_isNameChar (isNameChar_of_isAlphanumeric hc)
  obtain ⟨c, s, hc, htext, hname⟩ := exists_cons_of_isAlphanumeric h
  apply String.toList_inj.1
  rw [Text.trim, String.toList_ofList]
  apply Chars.trim_eq_self
  · rw [htext, List.head?_cons]
    rintro d hd
    obtain rfl := Option.some.inj hd
    exact hblank hc
  · intro d hd
    rw [bracketPath, String.toList_ofList] at hd
    obtain rfl | ⟨front, s, rfl⟩ := path.eq_nil_or_concat
    · rw [List.map_nil, Chars.brackets, List.flatMap_nil, List.append_nil] at hd
      exact hblank (h.2 d (List.mem_of_mem_getLast? hd))
    · have hbrackets : name.toList ++ Chars.brackets ((front ++ [s]).map String.toList) =
          name.toList ++ Chars.brackets (front.map String.toList) ++ '[' :: s.toList ++ [']'] := by
        simp [Chars.brackets]
      rw [List.concat_eq_append, hbrackets, List.getLast?_concat] at hd
      obtain rfl := Option.some.inj hd
      decide

theorem keyPath_bracketPath (h : IsAlphanumeric name)
    (hpath : ∀ s ∈ path, Chars.IsSegment s.toList) :
    keyPath (bracketPath name path) = some (name :: path) := by
  have hname : ∀ c ∈ name.toList, c ≠ '.' ∧ c ≠ '[' := fun c hc =>
    ⟨isAlphanumeric_ne (h.2 c hc) (by decide), isAlphanumeric_ne (h.2 c hc) (by decide)⟩
  have hne : name.toList.reverse.isEmpty = false := by simpa using h.1
  have hsegments : Chars.pathSegments false [] (bracketPath name path).toList =
      some (name.toList :: path.map String.toList) := by
    rw [bracketPath, String.toList_ofList, Chars.pathSegments_name hname, List.append_nil,
      Chars.pathSegments_brackets (List.forall_mem_map.2 hpath), Chars.addSegment, hne,
      if_neg Bool.false_ne_true, List.reverse_reverse]
  rw [keyPath, hsegments]
  simp

namespace Theme

/-- A path that is no property itself leads to the first spelling of its key that has an entry, or
else to its namespace. -/
theorem lookupPath_eq {text : String} {segments : List String} (htrim : Text.trim text = text)
    (hdashes : Text.startsWith text "--" = false) (hsegments : keyPath text = some segments)
    {key : String} (hkey : keyPathToProperty segments = some key) (t : Theme) :
    t.lookupPath text = (t.get? key <|> t.get? (escapeDots key) <|>
      t.get? (Text.replaceChar '.' "_" key) <|>
      t.lookupDefault (String.ofList (bareName key.toList))) := by
  rw [lookupPath]
  simp only [htrim, hdashes, hsegments, hkey, Option.bind_eq_bind, Option.bind_some]
  rfl

/-- The look-up of a path in brackets tries the key without backslashes, with escaped dots and with
underscores for dots, and then its namespace. -/
theorem lookupPath_bracketPath (h : IsAlphanumeric name)
    (hpath : ∀ s ∈ path, Chars.IsSegment s.toList) (t : Theme) :
    t.lookupPath (bracketPath name path) =
      (t.get? (plainKey name path) <|> t.get? (escapeDots (plainKey name path)) <|>
        t.get? (Text.replaceChar '.' "_" (plainKey name path)) <|>
        t.lookupDefault (String.ofList (bareName (plainKey name path).toList))) := by
  have hdashes : Text.startsWith (bracketPath name path) "--" = false := by
    obtain ⟨c, s, hc, htext, -⟩ := exists_cons_of_isAlphanumeric h
    have hdash : ('-' == c) = false :=
      beq_eq_false_iff_ne.2 (isAlphanumeric_ne hc (by decide)).symm
    rw [Text.startsWith, htext]
    change ('-' == c && _) = false
    rw [hdash, Bool.false_and]
  have hsegments : ∀ s ∈ path, s ≠ "" := by
    rintro s hs rfl
    exact (hpath "" hs).1 rfl
  exact lookupPath_eq (trim_bracketPath h path) hdashes (keyPath_bracketPath h hpath)
    (keyPathToProperty_eq hsegments) t

/-- The entry of the escaped key is what the look-up ends at exactly if dots are all that is escaped
and no entry has the key with its bare dots. -/
theorem lookupPath_eq_some_iff (h : IsAlphanumeric name)
    (hpath : ∀ s ∈ path, Chars.IsSegment s.toList)
    (he : t.get? (escapeKeySegment (plainKey name path)) = some e) :
    t.lookupPath (bracketPath name path) = some e ↔
      (∀ s ∈ path, ∀ c ∈ s.toList, Chars.isIdentifierChar c ∨ c = '.') ∧
        ((∀ s ∈ path, ∀ c ∈ s.toList, Chars.isIdentifierChar c) ∨
          t.get? (plainKey name path) = none) := by
  rw [lookupPath_bracketPath h hpath, ← forall_plainKey (fun _ => .inl) h,
    ← forall_plainKey (fun _ => id) h]
  generalize plainKey name path = key at he ⊢
  have hkey := (mem_of_get? he).2
  constructor
  · intro hlookup
    have hplain {spelling : String} (hspelling : t.get? spelling = some e)
        (hcount : spelling.toList.count '\\' ≤ key.toList.count '\\') :
        ∀ c ∈ key.toList, Chars.isIdentifierChar c :=
      forall_isIdentifierChar_of_count_le hcount ((mem_of_get? hspelling).2.symm.trans hkey)
    have hbare : (String.ofList (bareName key.toList)).toList.count '\\' ≤
        key.toList.count '\\' := by
      rw [String.toList_ofList]
      exact count_bareName_le key.toList
    have hall (hident : ∀ c ∈ key.toList, Chars.isIdentifierChar c) :
        (∀ c ∈ key.toList, Chars.isIdentifierChar c ∨ c = '.') ∧
          ((∀ c ∈ key.toList, Chars.isIdentifierChar c) ∨ t.get? key = none) :=
      ⟨fun c hc => .inl (hident c hc), .inl hident⟩
    simp only [lookupDefault, Option.orElse_eq_orElse, Option.orElse_eq_or, Option.or_eq_some_iff]
      at hlookup
    obtain hself | ⟨hnone, hdots | ⟨-, hunderscores | ⟨-, hname | ⟨-, hdefault⟩⟩⟩⟩ := hlookup
    · exact hall (hplain hself (Nat.le_refl _))
    · exact ⟨escapeDots_eq_iff.1 ((mem_of_get? hdots).2.symm.trans hkey), .inr hnone⟩
    · exact hall (hplain hunderscores (Nat.le_of_eq (count_replaceDots "_" key)))
    · refine hall (hplain hname ?_)
      rw [String.toList_append, List.count_append]
      have hlead : "--".toList.count '\\' = 0 := by decide
      omega
    · refine hall (hplain hdefault ?_)
      rw [String.toList_append, List.count_append]
      have hlead : "--default-".toList.count '\\' = 0 := by decide
      omega
  · rintro ⟨hdots, hident | hnone⟩
    · rw [escapeKeySegment_eq_self hident] at he
      rw [he]
      rfl
    · rw [hnone, escapeDots_eq_iff.2 hdots, he]
      rfl

end Theme

end Lookup

end UtilityCss
