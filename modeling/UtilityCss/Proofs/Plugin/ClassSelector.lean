import UtilityCss.Plugin.Extension
import UtilityCss.Proofs.Text.Blank
import UtilityCss.Proofs.Text.Escape

/-!
# Classes of plugins

A plugin names the utility that it adds by the selector of its class. The name is read from the escaped
text up to the first character that may not stand in a name, and a backslash takes one character with
it. So the space behind the code of a character ends a name, and only behind the last character it does
not, as the selector is trimmed.
-/

namespace UtilityCss

namespace Chars

/-- Whether a name, given by its places, is read back from the selector of its class. The characters
before the last one are not written by their codes, those beyond ASCII are letters or numbers, and no
space is at the end, which would be trimmed off behind its backslash. -/
structure IsReadBack (ps : List (Bool × Char)) : Prop where
  uncoded : ∀ p ∈ ps.dropLast, isCoded p.1 p.2 = false
  alphanumeric : ∀ p ∈ ps, 128 ≤ p.2.toNat → isAlphanumeric p.2
  unspaced : ∀ p ∈ ps.getLast?, p.2 ≠ ' '

/-- Whether a text behind the dot of a selector is that of a class and nothing else. -/
structure IsClassOf (s name : List Char) : Prop where
  whole : (cutClassName s).2 = []
  spelled : unescape s = name

section Cut

variable {c : Char} {leading : Bool} {s t : List Char}

private theorem cutClassName_append (s : List Char) :
    (cutClassName s).1 ++ (cutClassName s).2 = s := by
  fun_induction cutClassName s <;> simp_all

theorem cutClassName_cons (hc : c ≠ '\\') (s : List Char) :
    (cutClassName (c :: s)).2 = if UtilityCss.isNameChar c then (cutClassName s).2 else c :: s := by
  rw [cutClassName]
  · split <;> rfl
  · exact fun h => absurd h hc
  · exact fun _ _ h => absurd h hc

private theorem cutClassName_append_of_forall (h : ∀ c ∈ s, UtilityCss.isNameChar c) :
    (cutClassName (s ++ t)).2 = (cutClassName t).2 := by
  induction s with
  | nil => rfl
  | cons c s ih =>
    obtain ⟨hc, hs⟩ := List.forall_mem_cons.1 h
    rw [List.cons_append, cutClassName_cons, if_pos hc, ih hs]
    rintro rfl
    cases hc

private theorem isNameChar_of_isHexDigit (hc : isHexDigit c) : UtilityCss.isNameChar c := by
  have hascii : ∀ n < 128, isHexDigit (Char.ofNat n) → UtilityCss.isNameChar (Char.ofNat n) := by
    decide +kernel
  have hlt : c.toNat < 128 := Nat.lt_of_le_of_lt (toNat_of_isHexDigit hc).2 (by decide)
  exact of_forall_ofNat (P := fun c => isHexDigit c → UtilityCss.isNameChar c) hascii hlt hc

/-- Of the characters that stand for themselves, those beyond ASCII need not be part of a name. -/
theorem isNameChar_iff (hc : isIdentifierChar c) :
    UtilityCss.isNameChar c ↔ (128 ≤ c.toNat → isAlphanumeric c) := by
  have hascii : ∀ n < 128, isIdentifierChar (Char.ofNat n) → UtilityCss.isNameChar (Char.ofNat n) := by
    decide +kernel
  by_cases hlt : c.toNat < 128
  · exact iff_of_true (of_forall_ofNat (P := fun c => isIdentifierChar c → UtilityCss.isNameChar c)
      hascii hlt hc) fun h => absurd hlt (Nat.not_lt.2 h)
  · have hdash : c ≠ '-' := by
      rintro rfl
      exact hlt (by decide)
    have hline : c ≠ '_' := by
      rintro rfl
      exact hlt (by decide)
    simp [UtilityCss.isNameChar, hdash, hline, Nat.not_lt.1 hlt]

theorem cutClassName_code (n : Nat) (t : List Char) :
    (cutClassName ('\\' :: (hexDigits n ++ t))).2 = (cutClassName t).2 := by
  cases hcode : hexDigits n with
  | nil => exact absurd hcode (hexDigits_ne_nil n)
  | cons d digits =>
    have hdigits : ∀ d ∈ digits, UtilityCss.isNameChar d := fun d hd =>
      isNameChar_of_isHexDigit (isHexDigit_of_mem_hexDigits (hcode ▸ List.mem_cons_of_mem _ hd))
    exact cutClassName_append_of_forall hdigits

/-- An escaped character is taken into a name exactly if it is not written by its code and may stand in
a name. -/
theorem cutClassName_escapeChar_append_eq_nil_iff (leading : Bool) (h : c.toNat ≠ 0) :
    (cutClassName (escapeChar leading c ++ t)).2 = [] ↔
      isCoded leading c = false ∧ (128 ≤ c.toNat → isAlphanumeric c) ∧ (cutClassName t).2 = [] := by
  rcases escapeChar_cases leading h with ⟨hcoded, heq⟩ | ⟨hcoded, hname, heq⟩ |
    ⟨hcoded, hname, heq⟩
  · have hspace : (cutClassName (' ' :: t)).2 = ' ' :: t := cutClassName_cons (by decide) t
    rw [heq, List.cons_append, List.append_assoc, cutClassName_code, List.singleton_append, hspace]
    exact iff_of_false (List.cons_ne_nil _ _) fun h => Bool.eq_false_iff.1 h.1 hcoded
  · have hslash : c ≠ '\\' := by
      rintro rfl
      cases hname
    rw [heq, List.singleton_append, cutClassName_cons hslash, ← isNameChar_iff hname]
    split <;> simp_all
  · have hascii := toNat_lt_of_isIdentifierChar_eq_false hname
    have hcut : (cutClassName ('\\' :: c :: t)).2 = (cutClassName t).2 := rfl
    rw [heq, List.cons_append, List.singleton_append, hcut]
    exact ⟨fun h => ⟨hcoded, fun hge => absurd hascii (Nat.not_lt.2 hge), h⟩, fun h => h.2.2⟩

end Cut

section Trim

variable {c : Char} {leading : Bool} {p : Bool × Char} {ps : List (Bool × Char)}

/-- White space that is not written by its code is the space, or beyond ASCII. -/
theorem eq_space_or_le_of_isBlank (hblank : isBlank c) (hcoded : isCoded leading c = false) :
    c = ' ' ∨ 128 ≤ c.toNat := by
  have hascii : ∀ n < 128, isBlank (Char.ofNat n) → isControl (Char.ofNat n) = false →
      Char.ofNat n = ' ' := by decide
  have hcontrol : isControl c = false := (Bool.or_eq_false_iff.1 hcoded).1
  by_cases hlt : c.toNat < 128
  · exact .inl (of_forall_ofNat (P := fun c => isBlank c → isControl c = false → c = ' ') hascii hlt
      hblank hcontrol)
  · exact .inr (Nat.not_lt.1 hlt)

theorem trimEnd_escapeChar_of_isCoded (h : c.toNat ≠ 0) (hcoded : isCoded leading c) :
    trimEnd (escapeChar leading c) = '\\' :: hexDigits c.toNat := by
  have hdigits : trimEnd (hexDigits c.toNat) = hexDigits c.toNat := trimEnd_eq_self fun d hd =>
    isBlank_of_isHexDigit (isHexDigit_of_mem_hexDigits (List.mem_of_mem_getLast? hd))
  rw [escapeChar_of_isCoded h hcoded, trimEnd_cons rfl, trimEnd_append_of_forall (by decide), hdigits]

theorem trimEnd_escapeChar (h : c.toNat ≠ 0) (hcoded : isCoded leading c = false)
    (hblank : isBlank c = false) : trimEnd (escapeChar leading c) = escapeChar leading c := by
  rw [escapeChar_of_isCoded_eq_false h hcoded]
  split <;> exact trimEnd_eq_self fun d hd => Option.some.inj hd ▸ hblank

theorem unescape_trimEnd_escapeChar (h : c.toNat ≠ 0) (hcoded : isCoded leading c = false)
    (hblank : isBlank c) : unescape (trimEnd (escapeChar leading c)) = [] := by
  rcases eq_space_or_le_of_isBlank hblank hcoded with rfl | hge
  · have hspace : trimEnd (escapeChar leading ' ') = ['\\'] := by cases leading <;> rfl
    rw [hspace]
    simp [unescape, takeHex]
  · have hname : isIdentifierChar c := by simp [isIdentifierChar, hge]
    have hnil : trimEnd [c] = [] := trimEnd_eq_nil_iff.2 (List.forall_mem_singleton.2 hblank)
    rw [escapeChar_of_isCoded_eq_false h hcoded, if_pos hname, hnil, unescape]

theorem unescape_trimEnd_escapeChar_of_isCoded (h : c.toNat ≠ 0) (hcoded : isCoded leading c) :
    unescape (trimEnd (escapeChar leading c)) = [c] := by
  have hread := unescape_code (s := []) (toNat_lt_of_isCoded hcoded) (by rintro _ ⟨⟩)
  rw [List.append_nil, Char.ofNat_toNat, dropSpace, unescape] at hread
  · rw [trimEnd_escapeChar_of_isCoded h hcoded, hread]
  · rintro _ ⟨⟩

/-- What is read back of one character is no more than the character. -/
theorem length_unescape_trimEnd_escapeChar (leading : Bool) (h : c.toNat ≠ 0) :
    (unescape (trimEnd (escapeChar leading c))).length ≤ 1 := by
  cases hcoded : isCoded leading c with
  | true => rw [unescape_trimEnd_escapeChar_of_isCoded h hcoded, List.length_singleton]
  | false =>
    cases hblank : isBlank c with
    | true =>
      rw [unescape_trimEnd_escapeChar h hcoded hblank]
      exact Nat.zero_le 1
    | false =>
      have hread := unescape_escapeChar leading [] h
      rw [List.append_nil, unescape] at hread
      rw [trimEnd_escapeChar h hcoded hblank, hread, List.length_singleton]

theorem isReadBack_singleton_iff :
    IsReadBack [p] ↔ (128 ≤ p.2.toNat → isAlphanumeric p.2) ∧ p.2 ≠ ' ' := by
  refine ⟨fun h => ⟨h.alphanumeric p List.mem_cons_self, h.unspaced p rfl⟩, fun h => ?_⟩
  exact ⟨nofun, List.forall_mem_singleton.2 h.1, fun q hq => Option.some.inj hq ▸ h.2⟩

private theorem isReadBack_cons_iff (hne : ps ≠ []) : IsReadBack (p :: ps) ↔
    isCoded p.1 p.2 = false ∧ (128 ≤ p.2.toNat → isAlphanumeric p.2) ∧ IsReadBack ps := by
  have hlast : (p :: ps).getLast? = ps.getLast? := by
    cases ps with
    | nil => exact absurd rfl hne
    | cons => rfl
  have hfront : (p :: ps).dropLast = p :: ps.dropLast := List.dropLast_cons_of_ne_nil hne
  constructor
  · rintro ⟨huncoded, halpha, hspace⟩
    rw [hfront, List.forall_mem_cons] at huncoded
    rw [List.forall_mem_cons] at halpha
    rw [hlast] at hspace
    exact ⟨huncoded.1, halpha.1, huncoded.2, halpha.2, hspace⟩
  · rintro ⟨hcoded, hfirst, huncoded, halpha, hspace⟩
    refine ⟨?_, List.forall_mem_cons.2 ⟨hfirst, halpha⟩, hlast ▸ hspace⟩
    rw [hfront]
    exact List.forall_mem_cons.2 ⟨hcoded, huncoded⟩

private theorem isClassOf_singleton_iff (h : p.2.toNat ≠ 0) :
    IsClassOf (trimEnd (escapeChar p.1 p.2)) [p.2] ↔ IsReadBack [p] := by
  rw [isReadBack_singleton_iff]
  cases hcoded : isCoded p.1 p.2 with
  | true =>
    have hcut := cutClassName_code p.2.toNat []
    rw [List.append_nil, ← trimEnd_escapeChar_of_isCoded h hcoded] at hcut
    refine iff_of_true ⟨hcut, unescape_trimEnd_escapeChar_of_isCoded h hcoded⟩ ⟨fun hge => ?_, ?_⟩
    · exact absurd (toNat_lt_of_isCoded hcoded) (Nat.not_lt.2 hge)
    · intro hspace
      have hspaces : ∀ leading, isCoded leading ' ' = false := by decide
      rw [hspace, hspaces] at hcoded
      cases hcoded
  | false =>
    cases hblank : isBlank p.2 with
    | true =>
      refine iff_of_false (fun hclass => ?_) fun hback => ?_
      · have hread := hclass.spelled
        rw [unescape_trimEnd_escapeChar h hcoded hblank] at hread
        cases hread
      · have hge := (eq_space_or_le_of_isBlank hblank hcoded).resolve_left hback.2
        have hname := isNameChar_of_isAlphanumeric (hback.1 hge)
        rw [isBlank_eq_false_of_isNameChar hname] at hblank
        cases hblank
    | false =>
      have hread := unescape_escapeChar p.1 [] h
      have hcut := cutClassName_escapeChar_append_eq_nil_iff (t := []) p.1 h
      have hspace : p.2 ≠ ' ' := by
        intro hspace
        rw [hspace] at hblank
        cases hblank
      rw [List.append_nil] at hread hcut
      rw [trimEnd_escapeChar h hcoded hblank]
      refine ⟨fun hclass => ⟨(hcut.1 hclass.whole).2.1, hspace⟩, fun hback => ⟨?_, ?_⟩⟩
      · exact hcut.2 ⟨hcoded, hback.1, rfl⟩
      · rw [hread, unescape]

theorem isClassOf_trimEnd_escapeEach_iff (h : ∀ p ∈ ps, p.2.toNat ≠ 0) (hne : ps ≠ []) :
    IsClassOf (trimEnd (escapeEach ps)) (ps.map Prod.snd) ↔ IsReadBack ps := by
  induction ps with
  | nil => exact absurd rfl hne
  | cons p ps ih =>
    obtain ⟨hp, hps⟩ := List.forall_mem_cons.1 h
    have hcons : escapeEach (p :: ps) = escapeChar p.1 p.2 ++ escapeEach ps := List.flatMap_cons
    by_cases hnil : ps = []
    · subst hnil
      rw [hcons, escapeEach, List.flatMap_nil, List.append_nil]
      exact isClassOf_singleton_iff hp
    · rw [hcons, isReadBack_cons_iff hnil, ← ih hps hnil, List.map_cons]
      by_cases hblank : ∀ c ∈ escapeEach ps, isBlank c
      · -- All that is left of the name is its first character, and that of what follows is nothing.
        rw [trimEnd_append_of_forall hblank, trimEnd_eq_nil_iff.2 hblank]
        refine iff_of_false (fun hclass => ?_) fun hback => ?_
        · have hlength := length_unescape_trimEnd_escapeChar p.1 hp
          rw [hclass.spelled, List.length_cons, List.length_map] at hlength
          exact hnil (List.length_eq_zero_iff.1 (Nat.le_zero.1 (Nat.le_of_succ_le_succ hlength)))
        · have hread := hback.2.2.spelled
          rw [unescape] at hread
          exact hnil (List.map_eq_nil_iff.1 hread.symm)
      · have hread := unescape_escapeChar p.1 (trimEnd (escapeEach ps)) hp
        rw [trimEnd_append hblank]
        constructor
        · rintro ⟨hwhole, hspelled⟩
          obtain ⟨hcoded, halpha, hcut⟩ := (cutClassName_escapeChar_append_eq_nil_iff p.1 hp).1 hwhole
          rw [hread] at hspelled
          exact ⟨hcoded, halpha, hcut, (List.cons.inj hspelled).2⟩
        · rintro ⟨hcoded, halpha, hcut, hspelled⟩
          refine ⟨(cutClassName_escapeChar_append_eq_nil_iff p.1 hp).2 ⟨hcoded, halpha, hcut⟩, ?_⟩
          rw [hread, hspelled]

private theorem isClassOf_trimEnd_escape_iff {n : List Char} (h : ∀ c ∈ n, c.toNat ≠ 0)
    (hne : n ≠ []) :
    IsClassOf (trimEnd (escape n)) n ↔ IsReadBack (placed n) := by
  by_cases hdash : n = ['-']
  · subst hdash
    have hback : IsReadBack (placed ['-']) :=
      isReadBack_singleton_iff.2 ⟨fun hge => absurd hge (by decide), by decide⟩
    refine iff_of_true ⟨rfl, ?_⟩ hback
    exact (unescape_escaped (by decide)).trans (by rw [unescape])
  · have hplaced : placed n ≠ [] := by
      intro hnil
      exact hne ((map_snd_placed n).symm.trans (congrArg (List.map Prod.snd) hnil))
    have hiff := isClassOf_trimEnd_escapeEach_iff (forall_placed h) hplaced
    rwa [map_snd_placed, ← escape_eq_escapeEach hdash] at hiff

end Trim

end Chars

section Registration

variable {d : DesignSystem} {trees : List PluginTree} {selector n : String} {s : List Char}

theorem trim_classSelector (n : String) : Text.trim ("." ++ escape n) =
    String.ofList ('.' :: Chars.trimEnd (Chars.escape n.toList)) := by
  rw [Text.trim, toList_classSelector, Chars.trim_cons rfl]

theorem readClassSelector_of_trim (h : Text.trim selector = String.ofList ('.' :: s)) :
    readClassSelector selector =
      if (Chars.cutClassName s).1.isEmpty then .error (.invalidDirective (.classSelector selector))
      else .ok (String.ofList (Chars.unescape (Chars.cutClassName s).1),
        String.ofList (Chars.cutClassName s).2) := by
  have hdot : ((Text.afterLead? "." (Text.trim selector)).getD "").toList = s := by
    simp [h, Text.afterLead?, List.isPrefixOf?]
  rw [readClassSelector, hdot]

private theorem readClassSelector_eq_ok_iff (h : Text.trim selector = String.ofList ('.' :: s))
    (hne : n ≠ "") :
    readClassSelector selector = .ok (n, "") ↔ Chars.IsClassOf s n.toList := by
  have happend := Chars.cutClassName_append s
  rw [readClassSelector_of_trim h]
  cases hcut : Chars.cutClassName s with
  | mk name rest =>
    rw [hcut] at happend
    constructor
    · intro hread
      dsimp only at hread
      split at hread
      · cases hread
      · obtain ⟨hname, hrest⟩ := Prod.mk.inj (Except.ok.inj hread)
        obtain rfl : rest = [] := by simpa using congrArg String.toList hrest
        rw [List.append_nil] at happend
        exact ⟨congrArg Prod.snd hcut, by rw [← happend, ← hname, String.toList_ofList]⟩
    · rintro ⟨hwhole, hspelled⟩
      obtain rfl : rest = [] := (congrArg Prod.snd hcut).symm.trans hwhole
      obtain rfl : name = s := (List.append_nil name).symm.trans happend
      have hsome : name ≠ [] := by
        rintro rfl
        rw [Chars.unescape] at hspelled
        exact hne (String.toList_eq_nil_iff.1 hspelled.symm)
      dsimp only
      rw [if_neg (mt List.isEmpty_iff.1 hsome), hspelled, String.ofList_toList]

theorem rule_ne_self (sel : String) (ns : List Node) : [.rule sel ns] ≠ ns := by
  intro h
  have hsize := congrArg sizeOf h
  simp at hsize
  omega

theorem Utilities.add_inj {us : Utilities} {name name' : String} {recipe recipe' : Recipe} :
    us.add name recipe = us.add name' recipe' ↔ name = name' ∧ recipe = recipe' := by
  simp [Utilities.add]

private theorem DesignSystem.addUtility_eq_ok_iff :
    d.addUtility selector trees =
        .ok { d with utilities := d.utilities.add n (.fixed (resolveTrees "" none trees)) } ↔
      readClassSelector selector = .ok (n, "") := by
  rw [addUtility]
  cases hread : readClassSelector selector with
  | error => exact iff_of_false nofun nofun
  | ok p =>
    obtain ⟨name, rest⟩ := p
    constructor
    · intro h
      obtain ⟨rfl, hrecipe⟩ := Utilities.add_inj.1 (congrArg utilities (Except.ok.inj h))
      have hnodes := Recipe.fixed.inj hrecipe
      split at hnodes
      · next hrest => rw [String.isEmpty_iff.1 hrest]
      · exact absurd hnodes (rule_ne_self _ _)
    · rintro ⟨⟩
      rfl

end Registration

namespace DesignSystem

theorem addUtilities_singleton (d : DesignSystem) (selector : String) (trees : List PluginTree) :
    d.addUtilities [(selector, trees)] = d.addUtility selector trees :=
  bind_pure _

/-- A utility that a plugin adds by the selector of a class has just the name of the class and the
nodes of its trees exactly if the name is read back from the selector. The space that ends the code of
a control character or a leading digit ends the name as well, so what follows is taken for the rest of
the selector. -/
theorem addUtilities_classSelector_iff (d : DesignSystem) (trees : List PluginTree) {n : String}
    (hne : n ≠ "") (hnul : ∀ c ∈ n.toList, c.toNat ≠ 0) :
    d.addUtilities [("." ++ escape n, trees)] =
        .ok { d with utilities := d.utilities.add n (.fixed (resolveTrees "" none trees)) } ↔
      Chars.IsReadBack (Chars.placed n.toList) := by
  have hnil : n.toList ≠ [] := mt String.toList_eq_nil_iff.1 hne
  rw [addUtilities_singleton, addUtility_eq_ok_iff,
    readClassSelector_eq_ok_iff (trim_classSelector n) hne, Chars.isClassOf_trimEnd_escape_iff hnul hnil]

/-- A name with a letter beyond ASCII, special characters and a tabulator at its end. -/
theorem addUtilities_classSelector_iff_tabulator :
    "é-1/2\t" ≠ "" ∧ (∀ c ∈ "é-1/2\t".toList, c.toNat ≠ 0) ∧
    (builtin {} .media).addUtilities [("." ++ escape "é-1/2\t", [.decl "color" "red"])] =
      .ok { builtin {} .media with
        utilities := (builtin {} .media).utilities.add "é-1/2\t" (.fixed [.plain "color" "red"]) } := by
  have hne : "é-1/2\t" ≠ "" := by decide
  have hnul : ∀ c ∈ "é-1/2\t".toList, c.toNat ≠ 0 := by decide
  have hback : Chars.IsReadBack (Chars.placed "é-1/2\t".toList) :=
    ⟨by decide, by decide +kernel, by decide⟩
  exact ⟨hne, hnul, (addUtilities_classSelector_iff _ [.decl "color" "red"] hne hnul).2 hback⟩

/-- A leading digit that more follows: the utility gets the digit for its name, and the rest becomes the
selector of a rule around its nodes. -/
theorem addUtilities_classSelector_digit :
    (builtin {} .media).addUtilities [("." ++ escape "2xl", [.decl "color" "red"])] =
      .ok { builtin {} .media with utilities :=
        (builtin {} .media).utilities.add "2" (.fixed [.rule "& xl" [.plain "color" "red"]]) } ∧
    (builtin {} .media).addUtilities [("." ++ escape "2xl", [.decl "color" "red"])] ≠
      .ok { builtin {} .media with utilities :=
        (builtin {} .media).utilities.add "2xl" (.fixed [.plain "color" "red"]) } := by
  have hread : readClassSelector ("." ++ escape "2xl") = .ok ("2", " xl") := by
    have hcut : Chars.cutClassName (Chars.trimEnd (Chars.escape "2xl".toList)) =
        (Chars.trimEnd (Chars.escapeChar true '2'), [' ', 'x', 'l']) := by decide
    have hname : Chars.unescape (Chars.trimEnd (Chars.escapeChar true '2')) = ['2'] :=
      Chars.unescape_trimEnd_escapeChar_of_isCoded (by decide) (by decide)
    rw [readClassSelector_of_trim (trim_classSelector "2xl"), hcut, hname]
    rfl
  have hadd : (builtin {} .media).addUtilities [("." ++ escape "2xl", [.decl "color" "red"])] =
      .ok { builtin {} .media with utilities :=
        (builtin {} .media).utilities.add "2" (.fixed [.rule "& xl" [.plain "color" "red"]]) } := by
    rw [addUtilities_singleton, addUtility, hread]
    rfl
  refine ⟨hadd, fun h => ?_⟩
  have hutilities := congrArg utilities (Except.ok.inj (hadd.symm.trans h))
  exact absurd (Utilities.add_inj.1 hutilities).1 (by decide)

end DesignSystem

end UtilityCss
