import UtilityCss.Proofs.Stylesheet.NestingSelector
import UtilityCss.Proofs.Text.Ascii
import UtilityCss.Proofs.Text.Blank
import UtilityCss.Text.Escape

/-!
# Escaped texts

An escaped text is read back as the text that it escapes. All that means something to a selector has
a backslash in front of it: an escaped text opens and closes nothing, is not split and does not nest,
whatever it escapes.
-/

namespace UtilityCss

namespace Chars

/-- Whether a character is written by its code; `leading` says that a digit may not stand here. -/
def isCoded (leading : Bool) (c : Char) : Bool := isControl c || (leading && c.isDigit)

/-- The characters of a text with whether a digit may not stand in their place: at the start, and
behind a dash at the start. -/
def placed : List Char → List (Bool × Char)
  | [] => []
  | '-' :: c :: s => (true, '-') :: (true, c) :: s.map (false, ·)
  | c :: s => (true, c) :: s.map (false, ·)

def escapeEach (ps : List (Bool × Char)) : List Char := ps.flatMap fun p => escapeChar p.1 p.2

/-- Whether a text means nothing to a list of selectors: it leaves open and closes nothing, is not
split at commas and does not nest. -/
structure IsPlainPart (s : List Char) : Prop where
  whole : IsWhole s
  uncut : IsUncut ',' {} s
  plain : hasNesting s = false

section Escape

variable {c : Char} {leading : Bool} {n k : Nat} {s t digits : List Char} {ps : List (Bool × Char)}

theorem map_snd_placed (s : List Char) : (placed s).map Prod.snd = s := by
  have hrest (s : List Char) : (s.map (false, ·)).map Prod.snd = s := by
    rw [List.map_map]
    exact List.map_id s
  rw [placed.eq_def]
  split
  · rfl
  · rw [List.map_cons, List.map_cons, hrest]
  · rw [List.map_cons, hrest]

/-- Only a lone dash is escaped in a way of its own. -/
theorem escape_eq_escapeEach (h : s ≠ ['-']) : escape s = escapeEach (placed s) := by
  have hrest (s : List Char) : s.flatMap (escapeChar false) = escapeEach (s.map (false, ·)) := by
    rw [escapeEach, List.flatMap_map]
  rw [escape.eq_def]
  split
  · rfl
  · exact absurd rfl h
  · rw [hrest]
    rfl
  · next hdash =>
    rw [hrest, placed.eq_3 _ _ hdash]
    rfl

theorem escapeChar_of_isCoded (h : c.toNat ≠ 0) (hcoded : isCoded leading c) :
    escapeChar leading c = '\\' :: (hexDigits c.toNat ++ [' ']) := by
  rw [escapeChar, if_neg (by simpa using h), ← isCoded, if_pos hcoded]
  rfl

theorem escapeChar_of_isCoded_eq_false (h : c.toNat ≠ 0) (hcoded : isCoded leading c = false) :
    escapeChar leading c = if isIdentifierChar c then [c] else ['\\', c] := by
  rw [escapeChar, if_neg (by simpa using h), ← isCoded, if_neg (Bool.eq_false_iff.1 hcoded)]

theorem escapeChar_cases (leading : Bool) (h : c.toNat ≠ 0) :
    (isCoded leading c ∧ escapeChar leading c = '\\' :: (hexDigits c.toNat ++ [' '])) ∨
    (isCoded leading c = false ∧ isIdentifierChar c ∧ escapeChar leading c = [c]) ∨
    (isCoded leading c = false ∧ isIdentifierChar c = false ∧ escapeChar leading c = ['\\', c]) := by
  cases hcoded : isCoded leading c with
  | true => exact .inl ⟨rfl, escapeChar_of_isCoded h hcoded⟩
  | false =>
    rw [escapeChar_of_isCoded_eq_false h hcoded]
    cases isIdentifierChar c <;> simp

/-- Only ASCII characters are written by their codes. -/
theorem toNat_lt_of_isCoded (h : isCoded leading c) : c.toNat < 128 := by
  rw [isCoded, Bool.or_eq_true, Bool.and_eq_true, Char.isDigit_iff_toNat] at h
  rcases h with h | ⟨-, h⟩
  · simp only [isControl, Bool.or_eq_true, decide_eq_true_eq, beq_iff_eq] at h
    omega
  · exact h.2.trans_lt (by decide)

theorem toNat_lt_of_isIdentifierChar_eq_false (h : isIdentifierChar c = false) : c.toNat < 128 := by
  simp only [isIdentifierChar, Bool.or_eq_false_iff, decide_eq_false_iff_not] at h
  omega

/-- A character with a backslash in front of it begins no code. -/
theorem isHexDigit_eq_false (h : isIdentifierChar c = false) : isHexDigit c = false := by
  have hascii : ∀ n < 128, isIdentifierChar (Char.ofNat n) = false →
      isHexDigit (Char.ofNat n) = false := by decide
  exact of_forall_ofNat (P := fun c => isIdentifierChar c = false → isHexDigit c = false) hascii
    (toNat_lt_of_isIdentifierChar_eq_false h) h

theorem isHexDigit_of_mem_hexDigits {n : Nat} (hc : c ∈ hexDigits n) : isHexDigit c := by
  induction n using Nat.strongRecOn with
  | ind n ih =>
    have hdigit : ∀ d < 16, isHexDigit (Nat.digitChar d) := by decide
    rw [hexDigits, Nat.toDigits_eq_if (by decide)] at hc
    split at hc
    · next hn =>
      obtain rfl := List.mem_singleton.1 hc
      exact hdigit n hn
    · rcases List.mem_append.1 hc with hc | hc
      · exact ih (n / 16) (by omega) hc
      · obtain rfl := List.mem_singleton.1 hc
        exact hdigit _ (Nat.mod_lt _ (by decide))

theorem toNat_of_isHexDigit (hc : isHexDigit c) : 48 ≤ c.toNat ∧ c.toNat ≤ 102 := by
  have hval : c.toNat = c.val.toNat := rfl
  simp only [isHexDigit, Char.isDigit, Bool.or_eq_true, Bool.and_eq_true, decide_eq_true_eq,
    Char.le_def, UInt32.le_iff_toNat_le, ge_iff_le] at hc
  simp at hc
  omega

theorem isBlank_of_isHexDigit (hc : isHexDigit c) : isBlank c = false :=
  isBlank_eq_false_of (by decide) hc

theorem hexDigits_ne_nil (n : Nat) : hexDigits n ≠ [] := by
  rw [hexDigits, Nat.toDigits_eq_if (by decide)]
  split <;> simp

private theorem takeHex_append (hdigits : ∀ d ∈ digits, isHexDigit d) (hk : digits.length ≤ k)
    (hs : ∀ d ∈ s.head?, isHexDigit d = false) : takeHex k (digits ++ s) = (digits, s) := by
  induction digits generalizing k with
  | nil =>
    cases k with
    | zero => rfl
    | succ k =>
      cases s with
      | nil => rfl
      | cons d s => simp [takeHex, hs d rfl]
  | cons d digits ih =>
    obtain ⟨hd, hdigits⟩ := List.forall_mem_cons.1 hdigits
    cases k with
    | zero => cases hk
    | succ k =>
      rw [List.cons_append, takeHex, if_pos hd, ih hdigits (Nat.le_of_succ_le_succ hk)]

theorem unescape_cons (hc : c ≠ '\\') : unescape (c :: s) = c :: unescape s := by
  rw [unescape]
  exact hc

/-- Behind a backslash a character that is no digit of a code stands for itself. -/
theorem unescape_escaped (hc : isHexDigit c = false) :
    unescape ('\\' :: c :: s) = c :: unescape s := by
  rw [unescape]
  simp [takeHex, hc]

/-- Behind a backslash a code stands for its character, and takes a blank behind it along. -/
theorem unescape_code (hn : n < 128) (hs : ∀ d ∈ s.head?, isHexDigit d = false) :
    unescape ('\\' :: (hexDigits n ++ s)) = Char.ofNat n :: unescape (dropSpace s) := by
  have hcodes : ∀ n < 128, (hexDigits n).length ≤ 6 ∧
      charOfCode (hexValue (hexDigits n)) = Char.ofNat n := by
    decide +kernel
  obtain ⟨hlength, hvalue⟩ := hcodes n hn
  have htake := takeHex_append (fun _ => isHexDigit_of_mem_hexDigits) hlength hs
  cases hcode : hexDigits n with
  | nil => exact absurd hcode (hexDigits_ne_nil n)
  | cons d digits =>
    rw [hcode] at htake hvalue
    rw [List.cons_append] at htake ⊢
    rw [unescape, htake, hvalue]
    rfl

/-- What is read back of an escaped character is the character, whatever follows. -/
theorem unescape_escapeChar (leading : Bool) (t : List Char) (h : c.toNat ≠ 0) :
    unescape (escapeChar leading c ++ t) = c :: unescape t := by
  rcases escapeChar_cases leading h with ⟨hcoded, heq⟩ | ⟨-, hname, heq⟩ | ⟨-, hname, heq⟩
  · rw [heq, List.cons_append, List.append_assoc, unescape_code (toNat_lt_of_isCoded hcoded)]
    · rw [Char.ofNat_toNat]
      rfl
    · rintro _ ⟨⟩
      decide
  · rw [heq, List.singleton_append, unescape_cons]
    rintro rfl
    cases hname
  · rw [heq]
    exact unescape_escaped (isHexDigit_eq_false hname)

private theorem unescape_escapeEach_append (h : ∀ p ∈ ps, p.2.toNat ≠ 0) :
    unescape (escapeEach ps ++ t) = ps.map Prod.snd ++ unescape t := by
  induction ps with
  | nil => rfl
  | cons p ps ih =>
    obtain ⟨hp, hps⟩ := List.forall_mem_cons.1 h
    rw [escapeEach, List.flatMap_cons, List.append_assoc, unescape_escapeChar _ _ hp, ← escapeEach,
      ih hps]
    rfl

theorem forall_placed (h : ∀ c ∈ s, c.toNat ≠ 0) : ∀ p ∈ placed s, p.2.toNat ≠ 0 := by
  intro p hp
  have hmem := List.mem_map_of_mem (f := Prod.snd) hp
  rw [map_snd_placed] at hmem
  exact h p.2 hmem

private theorem unescape_escape (h : ∀ c ∈ s, c.toNat ≠ 0) : unescape (escape s) = s := by
  by_cases hdash : s = ['-']
  · rw [hdash, escape, unescape_escaped (by decide), unescape]
  · have hread := unescape_escapeEach_append (t := []) (forall_placed h)
    rw [List.append_nil, map_snd_placed] at hread
    rw [escape_eq_escapeEach hdash, hread, unescape, List.append_nil]

end Escape

section Plain

variable {c : Char} {leading : Bool} {s t : List Char}

private theorem isPlainPart_nil : IsPlainPart [] := ⟨rfl, rfl, rfl⟩

theorem IsPlainPart.append (hs : IsPlainPart s) (ht : IsPlainPart t) : IsPlainPart (s ++ t) := by
  refine ⟨?_, hs.uncut.append hs.whole ht.uncut, ?_⟩
  · rw [IsWhole, nestingAfter?_append hs.whole]
    exact ht.whole
  · rw [hasNesting_append hs.whole, hs.plain, ht.plain]
    rfl

theorem isPlainPart_escaped (c : Char) : IsPlainPart ['\\', c] := ⟨rfl, rfl, rfl⟩

theorem isPlainPart_of_forall
    (h : ∀ c ∈ s, c ∉ ['\\', ',', '"', '\'', '(', '[', '\x7b', ')', ']', '\x7d', '&']) :
    IsPlainPart s := by
  obtain ⟨hwhole, huncut⟩ : IsWhole s ∧ IsUncut ',' {} s := isWhole_of_forall fun c hc hmem =>
    h c hc (List.mem_append_left ['&'] hmem)
  exact ⟨hwhole, huncut, hasNesting_of_notMem fun hmem => h '&' hmem (by decide)⟩

private theorem isPlainPart_escapeChar (leading : Bool) (c : Char) :
    IsPlainPart (escapeChar leading c) := by
  by_cases hnul : c.toNat = 0
  · rw [escapeChar, if_pos (by simpa using hnul)]
    exact ⟨rfl, rfl, rfl⟩
  · rcases escapeChar_cases leading hnul with ⟨hcoded, heq⟩ | ⟨-, hname, heq⟩ | ⟨-, -, heq⟩
    · -- The backslash takes the first digit with it, and the others are plain characters.
      have hspecial : ∀ d ∈ ['\\', ',', '"', '\'', '(', '[', '\x7b', ')', ']', '\x7d', '&'],
          isHexDigit d = false ∧ d ≠ ' ' := by decide
      rw [heq]
      cases hcode : hexDigits c.toNat with
      | nil => exact absurd hcode (hexDigits_ne_nil _)
      | cons d digits =>
        refine (isPlainPart_escaped d).append (isPlainPart_of_forall fun e he hmem => ?_)
        rcases List.mem_append.1 he with he | he
        · have hdigit : isHexDigit e :=
            isHexDigit_of_mem_hexDigits (hcode ▸ List.mem_cons_of_mem d he)
          rw [(hspecial e hmem).1] at hdigit
          cases hdigit
        · exact (hspecial e hmem).2 (List.mem_singleton.1 he)
    · rw [heq]
      refine isPlainPart_of_forall (List.forall_mem_singleton.2 ?_)
      have hspecial : ∀ d ∈ ['\\', ',', '"', '\'', '(', '[', '\x7b', ')', ']', '\x7d', '&'],
          isIdentifierChar d = false := by decide
      intro hmem
      rw [hspecial c hmem] at hname
      cases hname
    · rw [heq]
      exact isPlainPart_escaped c

private theorem isPlainPart_escapeEach (ps : List (Bool × Char)) : IsPlainPart (escapeEach ps) := by
  induction ps with
  | nil => exact isPlainPart_nil
  | cons p ps ih => exact (isPlainPart_escapeChar p.1 p.2).append ih

private theorem isPlainPart_escape (s : List Char) : IsPlainPart (escape s) := by
  by_cases hdash : s = ['-']
  · rw [hdash]
    exact isPlainPart_escaped '-'
  · rw [escape_eq_escapeEach hdash]
    exact isPlainPart_escapeEach _

end Plain

end Chars

theorem unescape_escape_of_forall {s : String} (h : ∀ c ∈ s.toList, c.toNat ≠ 0) :
    unescape (escape s) = s := by
  rw [unescape, escape, String.toList_ofList, Chars.unescape_escape h, String.ofList_toList]

theorem toList_classSelector (s : String) :
    ("." ++ escape s).toList = '.' :: Chars.escape s.toList := by
  simp [escape]

theorem isPlainPart_classSelector (s : String) : Chars.IsPlainPart ("." ++ escape s).toList := by
  have hdot : Chars.IsPlainPart ['.'] := Chars.isPlainPart_of_forall (by decide)
  rw [toList_classSelector]
  exact hdot.append (Chars.isPlainPart_escape s.toList)

/-- An escaped name is read back as the name, so different names have different selectors. Whatever
is escaped, the selector of a class is balanced and one alternative of its own, and `&` does not stand
in it: no parent changes it. -/
theorem escape_reversible_protective (s : String) :
    ((∀ c ∈ s.toList, c.toNat ≠ 0) → unescape (escape s) = s ∧
      ∀ t : String, (∀ c ∈ t.toList, c.toNat ≠ 0) → "." ++ escape t = "." ++ escape s → t = s) ∧
    isBalanced ("." ++ escape s) ∧ segment ("." ++ escape s) ',' = ["." ++ escape s] ∧
    hasNesting ("." ++ escape s) = false ∧
    ∀ parent, replaceNesting ("." ++ escape s) parent = "." ++ escape s := by
  obtain ⟨hwhole, huncut, hplain⟩ := isPlainPart_classSelector s
  refine ⟨fun hs => ⟨unescape_escape_of_forall hs, fun t ht heq => ?_⟩, ?_, ?_, hplain, fun parent => ?_⟩
  · rw [← unescape_escape_of_forall ht, (String.append_right_inj ".").1 heq,
      unescape_escape_of_forall hs]
  · exact Chars.isBalanced_of_nestingAfter? hwhole rfl
  · rw [segment, Chars.segment_of_isUncut hwhole huncut, List.map_singleton, String.ofList_toList]
  · rw [replaceNesting, Chars.replaceNesting_of_not_hasNesting hplain, String.ofList_toList]

/-- A name with a digit in front, all kinds of special characters and a control character. -/
theorem escape_reversible_protective_digit :
    (∀ c ∈ "2xl:[&,\"a\"]\n".toList, c.toNat ≠ 0) ∧
    unescape (escape "2xl:[&,\"a\"]\n") = "2xl:[&,\"a\"]\n" ∧
    segment ("." ++ escape "2xl:[&,\"a\"]\n") ',' = ["." ++ escape "2xl:[&,\"a\"]\n"] := by
  have hnul : ∀ c ∈ "2xl:[&,\"a\"]\n".toList, c.toNat ≠ 0 := by decide
  obtain ⟨hread, -, hsegment, -⟩ := escape_reversible_protective "2xl:[&,\"a\"]\n"
  exact ⟨hnul, (hread hnul).1, hsegment⟩

end UtilityCss
