import UtilityCss.Proofs.Stylesheet.Place
import UtilityCss.Proofs.Text.Ascii

/-!
# Texts that a scan passes over

A text that a scan passes from outside quotes and brackets back to there is taken as a whole
wherever it stands. Such texts can be put together, and a text around one, with brackets that are
closed again behind it, is another.
-/

namespace UtilityCss

namespace Chars

variable {k : TextKind} {s t : List Char}

def Passes (k : TextKind) (s : List Char) : Prop :=
  ∃ slash, (Place.plain 0 false).run k s = some (.plain 0 slash)

theorem passes_nil : Passes k [] := ⟨false, rfl⟩

theorem Passes.whole (h : Passes k s) : Passes .whole s := by
  obtain ⟨slash, h⟩ := h
  exact ⟨slash, Place.run_weaken nofun nofun h⟩

/-- What passes as a selector does so anywhere. -/
theorem Passes.of_selector (h : Passes .selector s) : Passes k s := by
  obtain ⟨slash, h⟩ := h
  exact ⟨slash, Place.run_weaken (fun _ => rfl) (fun _ => rfl) h⟩

theorem Passes.to_part (h : Passes k s) (hk : k.isNested) : Passes .part s := by
  cases k with
  | whole => exact absurd hk Bool.false_ne_true
  | part => exact h
  | selector => exact h.of_selector

/-- A text that passes leaves a scan inside of brackets where it is. -/
theorem Passes.run (h : Passes k s) (hk : k.isNested) (d : Nat) :
    ∃ slash, (Place.plain d false).run k s = some (.plain d slash) := by
  obtain ⟨slash, h⟩ := h
  have h := Place.run_deepen hk d h
  rw [Place.deepen, Place.deepen, Nat.zero_add] at h
  exact ⟨slash, h⟩

/-- Texts that pass one after the other, the second of which does not complete the start of a
comment. -/
theorem Passes.append (hs : Passes k s) (ht : Passes k t) (hlead : t.head? ≠ some '*')
    (hlead' : t.head? ≠ some '&') : Passes k (s ++ t) := by
  obtain ⟨slash, hs⟩ := hs
  by_cases hnil : t = []
  · subst hnil
    rw [List.append_nil]
    exact ⟨slash, hs⟩
  · obtain ⟨slash', ht⟩ := ht
    refine ⟨slash', ?_⟩
    rw [Place.run_append_of hs, Place.run_slash hnil hlead hlead', ht]

/-- What stands in front of a gap and behind it, where nothing but brackets is open in the gap. -/
def Surrounds (k : TextKind) (before behind : List Char) : Prop :=
  ∃ d ≤ before.length, (Place.plain 0 false).run k before = some (.plain d false) ∧
    ∀ slash, (Place.plain d slash).run k behind = some (.plain 0 false)

instance {before behind : List Char} : Decidable (Surrounds k before behind) :=
  inferInstanceAs (Decidable (∃ d ≤ before.length, _ ∧ ∀ _ : Bool, _))

theorem Surrounds.of_selector {before behind : List Char}
    (h : Surrounds .selector before behind) : Surrounds k before behind := by
  obtain ⟨d, hd, hbefore, hbehind⟩ := h
  exact ⟨d, hd, Place.run_weaken (fun _ => rfl) (fun _ => rfl) hbefore,
    fun slash => Place.run_weaken (fun _ => rfl) (fun _ => rfl) (hbehind slash)⟩

/-- A text that passes does so with surroundings whose brackets are around it. -/
theorem Passes.surround {before behind : List Char} (h : Passes k s) (hk : k.isNested)
    (hs : Surrounds k before behind) : Passes k (before ++ s ++ behind) := by
  obtain ⟨d, -, hbefore, hbehind⟩ := hs
  obtain ⟨slash, h⟩ := h.run hk d
  refine ⟨false, ?_⟩
  rw [List.append_assoc, Place.run_append_of hbefore, Place.run_append_of h, hbehind]

/-- What stands between two texts and keeps them apart. -/
def Separates (k : TextKind) (sep : List Char) : Prop :=
  ∀ slash, (Place.plain 0 slash).run k sep = some (.plain 0 false)

instance {sep : List Char} : Decidable (Separates k sep) :=
  inferInstanceAs (Decidable (∀ _ : Bool, _))

theorem Passes.join {sep : List Char} (hs : Passes k s) (ht : Passes k t) (hsep : Separates k sep) :
    Passes k (s ++ sep ++ t) := by
  obtain ⟨slash, hs⟩ := hs
  obtain ⟨slash', ht⟩ := ht
  refine ⟨slash', ?_⟩
  rw [List.append_assoc, Place.run_append_of hs, Place.run_append_of (hsep slash), ht]

def special : List Char :=
  ['\\', '"', '\'', '(', ')', '[', ']', '\x7b', '\x7d', ';', '/', '*', '&']

def isTame (c : Char) : Bool := !special.contains c

theorem isTame_of {p : Char → Bool} (hp : ∀ c ∈ special, p c = false) {c : Char} (hc : p c) :
    isTame c := by
  rw [isTame]
  rw [Bool.not_eq_true', Bool.eq_false_iff]
  intro h
  rw [hp c (List.contains_iff_mem.1 h)] at hc
  exact absurd hc Bool.false_ne_true

theorem next_tame {c : Char} (hc : isTame c) (d : Nat) (slash : Bool) :
    (Place.plain d slash).next k c = some (.plain d false) := by
  have hc : c ≠ '\\' ∧ c ≠ '"' ∧ c ≠ '\'' ∧ c ≠ '(' ∧ c ≠ ')' ∧ c ≠ '[' ∧ c ≠ ']' ∧ c ≠ '\x7b' ∧
      c ≠ '\x7d' ∧ c ≠ ';' ∧ c ≠ '/' ∧ c ≠ '*' ∧ c ≠ '&' := by
    simpa [isTame, special] using hc
  simp [Place.next, isQuote, endsPrelude, hc]

theorem run_tame (hs : ∀ c ∈ s, isTame c) (d : Nat) :
    (Place.plain d false).run k s = some (.plain d false) := by
  induction s with
  | nil => rfl
  | cons c s ih =>
    rw [Place.run_cons, next_tame (hs c List.mem_cons_self)]
    exact ih fun c hc => hs c (List.mem_cons_of_mem _ hc)

theorem passes_tame (hs : ∀ c ∈ s, isTame c) : Passes k s := ⟨false, run_tame hs 0⟩

/-- The most frequent tame characters, by their codes: small letters, digits, `-`, `.`, `:`, the
space and the comma. -/
def isOftenTame (c : Char) : Bool :=
  let n := c.toNat
  (Nat.ble 97 n && Nat.ble n 122) || (Nat.ble 45 n && Nat.ble n 58 && !Nat.beq n 47) ||
    Nat.beq n 32 || Nat.beq n 44

theorem isTame_of_isOftenTame {c : Char} (hc : isOftenTame c) : isTame c :=
  isTame_of (by decide) hc

/-- The same as `Place.run`, with little work for the most frequent characters. -/
def scanTo (k : TextKind) : Place → List Char → Option Place
  | p, [] => some p
  | .plain d slash, c :: s =>
    if isOftenTame c then scanTo k (.plain d false) s
    else ((Place.plain d slash).next k c).bind fun q => scanTo k q s
  | p, c :: s => (p.next k c).bind fun q => scanTo k q s

theorem scanTo_eq (p : Place) (s : List Char) : scanTo k p s = p.run k s := by
  induction s generalizing p with
  | nil => cases p <;> rfl
  | cons c s ih =>
    have hstep : ((p.next k c).bind fun q => scanTo k q s) = p.run k (c :: s) := by
      rw [Place.run_cons]
      congr 1
      funext q
      exact ih q
    cases p with
    | plain d slash =>
      rw [scanTo]
      split
      · next hc =>
        rw [ih, Place.run_cons, next_tame (isTame_of_isOftenTame hc)]
        rfl
      · exact hstep
    | quoted => exact hstep
    | escaped => exact hstep

def endsPlain : Option Place → Bool
  | some (.plain 0 _) => true
  | _ => false

theorem endsPlain_iff {p : Option Place} : endsPlain p ↔ ∃ slash, p = some (.plain 0 slash) := by
  constructor
  · intro h
    unfold endsPlain at h
    split at h
    · exact ⟨_, rfl⟩
    · exact absurd h Bool.false_ne_true
  · rintro ⟨slash, rfl⟩
    rfl

instance : Decidable (Passes k s) :=
  decidable_of_iff (endsPlain (scanTo k (.plain 0 false) s)) (by rw [endsPlain_iff, scanTo_eq, Passes])

theorem run_blanks (hs : ∀ c ∈ s, isBlank c) (d : Nat) :
    (Place.plain d false).run k s = some (.plain d false) :=
  run_tame (fun c hc => isTame_of (by decide) (hs c hc)) d

theorem trimEnd_concat (hc : isBlank c = false) : trimEnd (s ++ [c]) = s ++ [c] := by
  simp [trimEnd, hc]

theorem exists_trimStart (s : List Char) : ∃ u, (∀ c ∈ u, isBlank c) ∧ s = u ++ trimStart s :=
  ⟨s.takeWhile isBlank, List.all_eq_true.1 List.all_takeWhile, List.takeWhile_append_dropWhile.symm⟩

theorem exists_trimEnd (s : List Char) : ∃ u, (∀ c ∈ u, isBlank c) ∧ s = trimEnd s ++ u := by
  obtain ⟨u, hu, hs⟩ := exists_trimStart s.reverse
  refine ⟨u.reverse, fun c hc => hu c (List.mem_reverse.1 hc), ?_⟩
  rw [trimEnd, ← List.reverse_append]
  exact List.reverse_eq_iff.1 hs

/-- Blanks around a text do not matter to the scan. -/
theorem Passes.of_trim (h : Passes k (trim s)) : Passes k s := by
  obtain ⟨u, hu, hs⟩ := exists_trimStart s
  obtain ⟨v, hv, ht⟩ := exists_trimEnd (trimStart s)
  have hlead (c : Char) (hc : isBlank c = false) : v.head? ≠ some c := by
    intro h
    have := hv c (List.mem_of_mem_head? h)
    rw [hc] at this
    exact absurd this Bool.false_ne_true
  rw [hs, ht]
  obtain ⟨slash, h⟩ := h.append ⟨false, run_blanks hv 0⟩ (hlead '*' (by decide)) (hlead '&' (by decide))
  refine ⟨slash, ?_⟩
  rw [Place.run_append_of (run_blanks hu 0)]
  exact h

/-- Blanks at the start of a text can be taken away. -/
theorem Passes.trimStart (h : Passes k s) : Passes k (trimStart s) := by
  obtain ⟨u, hu, hs⟩ := exists_trimStart s
  obtain ⟨slash, h⟩ := h
  rw [hs, Place.run_append_of (run_blanks hu 0)] at h
  exact ⟨slash, h⟩

end Chars

def Passes (k : TextKind) (s : String) : Prop := Chars.Passes k s.toList

instance {k : TextKind} {s : String} : Decidable (Passes k s) :=
  decidable_of_iff (Chars.Passes k (Text.chars s)) (by rw [Text.chars_eq, Passes])

def Surrounds (k : TextKind) (before behind : String) : Prop :=
  Chars.Surrounds k before.toList behind.toList

instance {k : TextKind} {before behind : String} : Decidable (Surrounds k before behind) :=
  inferInstanceAs (Decidable (Chars.Surrounds k before.toList behind.toList))

def Separates (k : TextKind) (sep : String) : Prop := Chars.Separates k sep.toList

instance {k : TextKind} {sep : String} : Decidable (Separates k sep) :=
  inferInstanceAs (Decidable (Chars.Separates k sep.toList))

def IsTame (s : String) : Prop := ∀ c ∈ s.toList, Chars.isTame c

instance : DecidablePred IsTame :=
  fun s => decidable_of_iff (∀ c ∈ Text.chars s, (Chars.isOftenTame c || Chars.isTame c) = true) <| by
    have hor (c : Char) : (Chars.isOftenTame c || Chars.isTame c) = Chars.isTame c := by
      cases h : Chars.isOftenTame c with
      | false => rfl
      | true => exact (Chars.isTame_of_isOftenTame h).symm
    simp only [hor, Text.chars_eq, IsTame]

theorem IsTame.passes {k : TextKind} {s : String} (h : IsTame s) : Passes k s :=
  Chars.passes_tame h

theorem isTame_append {s t : String} : IsTame (s ++ t) ↔ IsTame s ∧ IsTame t := by
  unfold IsTame
  rw [String.toList_append]
  grind

section Text

variable {k : TextKind} {s t : String}

theorem Passes.surround {before behind : String} (h : Passes k s) (hk : k.isNested)
    (hs : Surrounds k before behind) : Passes k (before ++ s ++ behind) := by
  rw [Passes]
  rw [String.toList_append, String.toList_append]
  exact Chars.Passes.surround h hk hs

theorem Passes.join {sep : String} (hs : Passes k s) (ht : Passes k t) (hsep : Separates k sep) :
    Passes k (s ++ sep ++ t) := by
  rw [Passes]
  rw [String.toList_append, String.toList_append]
  exact Chars.Passes.join hs ht hsep

/-- Two texts with surroundings and something between them that keeps them apart. -/
theorem Passes.surround₂ {before sep behind : String} (hs : Passes k s) (ht : Passes k t)
    (hk : k.isNested) (hsep : Separates k sep) (hsurround : Surrounds k before behind) :
    Passes k (before ++ s ++ sep ++ t ++ behind) := by
  have htext : before ++ s ++ sep ++ t ++ behind = before ++ (s ++ sep ++ t) ++ behind := by
    simp only [String.append_assoc]
  rw [htext]
  exact (hs.join ht hsep).surround hk hsurround

end Text

end UtilityCss
