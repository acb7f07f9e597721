import UtilityCss.Proofs.Stylesheet.Closed
import UtilityCss.Variant.Rule

/-!
# Selectors of compound variants

A scan passes over the selectors and conditions that compound variants make if it does so over those
that they are made of.
-/

namespace UtilityCss

section Text

variable {selector : String} {parts : List String}

theorem passes_trim (h : Passes .selector selector) : Passes .selector (Text.trim selector) := by
  rw [Passes, Text.trim]
  rw [String.toList_ofList]
  exact Chars.Passes.trim h

private theorem passes_segment {sep : Char} (hsep : Chars.isTame sep)
    (h : Passes .selector selector) :
    ∀ part ∈ segment selector sep, Passes .selector part := by
  intro part hpart
  obtain ⟨s, hs, rfl⟩ := List.mem_map.1 hpart
  rw [Passes]
  rw [String.toList_ofList]
  exact Chars.passes_of_mem_segment hsep h s hs

theorem passes_replaceNesting {parent : String} (h : Passes .selector selector)
    (hparent : Chars.Inert .selector 0 parent.toList) :
    Passes .selector (replaceNesting selector parent) := by
  rw [Passes, replaceNesting]
  rw [String.toList_ofList]
  exact Chars.Passes.replaceNesting h hparent

theorem passes_intercalate {k : TextKind} {sep : String} (hsep : Separates k sep)
    (h : ∀ part ∈ parts, Passes k part) : Passes k (sep.intercalate parts) := by
  induction parts with
  | nil => exact Chars.passes_nil
  | cons part parts ih =>
    have hpart := h part List.mem_cons_self
    cases parts with
    | nil =>
      rw [String.intercalate_singleton]
      exact hpart
    | cons next parts =>
      rw [String.intercalate_cons_cons]
      exact hpart.join (ih fun p hp => h p (List.mem_cons_of_mem _ hp)) hsep

theorem inert_star : Chars.Inert .selector 0 "*".toList := by
  have hstar : "*".toList = ['*'] := by decide
  rw [hstar]
  intro d
  refine ⟨fun _ => ?_, fun q hq => ?_⟩
  · simp [Place.run_cons, Place.next, isQuote, Chars.endsPrelude]
  · simp only [isQuote, Bool.or_eq_true, beq_iff_eq] at hq
    rcases hq with rfl | rfl <;> rfl

/-- Behind a blank stands no slash and no backslash, so that tame characters change nothing. -/
theorem Place.run_tame_of_blank {k : TextKind} {p q : Place} (hp : p.IsSound)
    (h : p.next k ' ' = some q) {s : List Char} (hs : ∀ c ∈ s, Chars.isTame c) :
    q.run k s = some q := by
  have hinert : Chars.Inert k 0 s := Chars.inert_tame hs
  have hq := Place.isSound_next hp h
  cases q with
  | plain d slash =>
    obtain rfl : slash = false := by
      cases p with
      | escaped quote => cases quote <;> grind [Place.next]
      | quoted => grind [Place.next]
      | plain d' slash' =>
        rw [Chars.next_tame (by decide)] at h
        cases h
        rfl
    exact (hinert d).1 (Nat.zero_le d)
  | quoted quote d => exact (hinert d).2 quote hq
  | escaped quote d =>
    cases p with
    | escaped quote' => cases quote' <;> grind [Place.next]
    | quoted => grind [Place.next]
    | plain d' slash' =>
      rw [Chars.next_tame (by decide)] at h
      cases h

end Text

namespace NegatedSelector

section Negation

variable {selector : String}

private theorem passes_selectorToNegate (h : Passes .selector selector) :
    Passes .selector (selectorToNegate selector) := by
  have hreplaced := passes_replaceNesting h inert_star
  rw [selectorToNegate]
  split
  · next rest hrest =>
    split
    · obtain ⟨s, hs, rfl⟩ := Option.map_eq_some_iff.1 hrest
      have happend := List.append_eq_of_isPrefixOf?_eq_some hs
      obtain ⟨slash, h⟩ := h
      rw [← happend] at h
      refine ⟨slash, ?_⟩
      rw [String.toList_ofList]
      exact h
    · exact hreplaced
  · exact hreplaced

theorem passes_negateSelectors (h : Passes .selector selector) :
    Passes .selector (negateSelectors selector) := by
  refine Passes.surround ?_ rfl (by decide)
  apply passes_intercalate (by decide)
  intro part hpart
  obtain ⟨alternative, halternative, rfl⟩ := List.mem_map.1 hpart
  obtain ⟨piece, hpiece, rfl⟩ := List.mem_map.1 halternative
  exact passes_selectorToNegate (passes_trim (passes_segment (by decide) h piece hpiece))

theorem passes_negateCondition {name params : String} (h : Passes .part params) :
    Passes .part (negateCondition name params) := by
  have hwhole : Passes .part ("not " ++ params) := by
    obtain ⟨slash, h⟩ := h
    refine ⟨slash, ?_⟩
    rw [String.toList_append, Place.run_append_of (Chars.run_tame (by decide) 0)]
    exact h
  rw [negateCondition]
  split
  · next rest hrest =>
    obtain ⟨s, hs, rfl⟩ := Option.map_eq_some_iff.1 hrest
    have happend := List.append_eq_of_isPrefixOf?_eq_some hs
    obtain ⟨slash, h⟩ := h
    rw [← happend, Place.run_append_of (Chars.run_tame (by decide) 0)] at h
    refine ⟨slash, ?_⟩
    rw [String.toList_ofList]
    exact h
  · dsimp only
    split
    · split
      · next containerName query hcut =>
        obtain ⟨⟨a, b⟩, hchars, hpair⟩ := Option.map_eq_some_iff.1 hcut
        obtain ⟨rfl, rfl⟩ := Prod.mk.inj hpair
        obtain ⟨-, c, hc, happend⟩ := Chars.cutAt_eq_some_iff.1 hchars
        obtain rfl := eq_of_beq hc
        obtain ⟨slash, h⟩ := h
        rw [happend, Place.run_append] at h
        obtain ⟨p, hp, h⟩ := Option.bind_eq_some_iff.1 h
        obtain ⟨q, hq, h⟩ := Option.bind_eq_some_iff.1 h
        have hsound : p.IsSound := Place.isSound_run (p := .plain 0 false) trivial hp
        have htext : (String.ofList a ++ " not " ++ String.ofList b).toList =
            a ++ ' ' :: ("not ".toList ++ b) := by
          simp
        refine ⟨slash, ?_⟩
        rw [htext, Place.run_append_of hp, Place.run_cons, hq, Option.bind_some,
          Place.run_append_of (Place.run_tame_of_blank hsound hq (by decide)), h]
      · exact hwhole
    · exact hwhole

end Negation

end NegatedSelector

section Marker

variable {selector name combinator : String} {m : Option Argument}

theorem inert_markerClass (hname : IsTame name) :
    Chars.Inert .selector 0 (":where(." ++ name ++
      (m.map fun a => "\\/" ++ escape a.text).getD "" ++ ")").toList := by
  have hlabel : Chars.Inert .selector 1
      ((m.map fun a => "\\/" ++ escape a.text).getD "").toList := by
    cases m with
    | none => exact Chars.inert_tame (by decide)
    | some a =>
      have hslash : Chars.Inert .selector 1 "\\/".toList :=
        Chars.inert_escaped (c := '/') fun _ _ => Nat.one_pos
      have hescape : Chars.Inert .selector 1 (escape a.text).toList := by
        rw [escape, String.toList_ofList]
        exact Chars.inert_escape (fun _ => Nat.one_pos) _
      rw [Option.map_some, Option.getD_some, String.toList_append]
      exact hslash.append hescape
  have hdot : Chars.Inert .selector 1 ('.' :: name.toList) := by
    refine Chars.inert_tame fun c hc => ?_
    rcases List.mem_cons.1 hc with rfl | hc
    · decide
    · exact hname c hc
  have hwhere : Chars.Inert .selector 0 ":where".toList := Chars.inert_tame (by decide)
  have h := hwhere.append (hdot.append hlabel).bracketed
  simpa using h

theorem passes_markerSelector (hname : IsTame name)
    (hcombinator : Surrounds .selector "&:is(" (combinator ++ ")")) (h : Passes .selector selector) :
    Passes .selector (markerSelector name combinator selector m) := by
  have hstate := passes_replaceNesting h (inert_markerClass (m := m) hname)
  have htext (state : String) :
      "&:is(" ++ state ++ combinator ++ ")" = "&:is(" ++ state ++ (combinator ++ ")") := by
    rw [String.append_assoc]
  unfold markerSelector
  dsimp only
  rw [htext]
  refine Passes.surround ?_ rfl hcombinator
  split
  · exact hstate.surround rfl (by decide)
  · exact hstate

end Marker

end UtilityCss
