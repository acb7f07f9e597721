import Mathlib.Logic.Relation
import UtilityCss.Proofs.Theme.Fold
import UtilityCss.Proofs.Theme.VarReference

/-!
# The variables in use as a closure

The variables that are declared for some nodes are the ones that are reached from what the nodes read
and from the static entries, along the values of entries. Values may read each other in a circle, and
names may have no entry. A search takes names off a list in any order and puts what their values read
on it. Every search ends, since each name with an entry is followed at most once, and all of them find
the same names.
-/

namespace UtilityCss

/-- The variables that are reached from the nodes of a forest and from the static entries of a theme:
the value of an entry that is reached leads on to what it reads, be it emittable or not. -/
inductive Theme.Reaches (t : Theme) (ns : List Node) : String → Prop
  | read {n key} (hn : n ∈ allNodes ns) (h : n.Reads key) : Reaches t ns key
  | static {e} (he : e ∈ t.entries) (h : e.options.isStatic) : Reaches t ns e.key
  | value {key key' e} (hkey : Reaches t ns key) (he : t.get? key = some e)
      (h : ReadsVariable e.value key') : Reaches t ns key'

/-- A search for the names that are reached: those that have been followed and those that are still
to be looked at. -/
structure Search where
  used : List String
  pending : List String

namespace Search

/-- One step of a search takes a pending name, wherever it stands. It is dropped if it has been
followed before or has no entry; else what the value of its entry reads is to be looked at. -/
inductive Step (entries : List ThemeEntry) : Search → Search → Prop
  | drop {used before name after} (h : name ∈ used ∨ entryOf? entries name = none) :
      Step entries ⟨used, before ++ name :: after⟩ ⟨used, before ++ after⟩
  | follow {used before name after e} (hname : name ∉ used) (he : entryOf? entries name = some e) :
      Step entries ⟨used, before ++ name :: after⟩
        ⟨name :: used, before ++ after ++ varReferences e.value⟩

def unmet (entries : List ThemeEntry) (used : List String) : List ThemeEntry :=
  entries.filter (!used.contains ·.key)

/-- What a search has found and will find. -/
def Finds (entries : List ThemeEntry) (s : Search) (key : String) : Prop :=
  key ∈ s.used ∨
    (entryOf? (unmet entries s.used) key).isSome ∧ Theme.Needed (unmet entries s.used) s.pending key

variable {entries : List ThemeEntry} {used : List String} {s s' : Search} {key name : String}
  {e : ThemeEntry}

theorem entryOf?_unmet (entries : List ThemeEntry) (used : List String) (key : String) :
    entryOf? (unmet entries used) key = if key ∈ used then none else entryOf? entries key := by
  rw [unmet, entryOf?_filter_not used.contains]
  simp only [List.contains_iff_mem]

theorem unmet_cons (entries : List ThemeEntry) (used : List String) (name : String) :
    unmet entries (name :: used) = (unmet entries used).filter (·.key != name) := by
  rw [unmet, unmet, List.filter_filter]
  congr 1
  funext e
  rw [List.contains_cons, Bool.not_or]
  rfl

/-- It does not matter in what order names are looked at. -/
theorem needed_of_subset {start start' : List String} (h : start ⊆ start')
    (hkey : Theme.Needed entries start key) : Theme.Needed entries start' key := by
  induction hkey with
  | start hmem => exact .start (h hmem)
  | value _ he hread ih => exact .value ih he hread

theorem needed_middle (before after : List String) :
    Theme.Needed entries (before ++ name :: after) key ↔
      Theme.Needed entries (name :: (before ++ after)) key := by
  have hperm : (before ++ name :: after).Perm (name :: (before ++ after)) := List.perm_middle
  exact ⟨needed_of_subset hperm.subset, needed_of_subset hperm.symm.subset⟩

/-- A step keeps what a search finds. -/
theorem finds_step (h : Step entries s s') : Finds entries s key ↔ Finds entries s' key := by
  cases h with
  | @drop used before name after h =>
    have hnone : entryOf? (unmet entries used) name = none := by
      rw [entryOf?_unmet]
      rcases h with h | h
      · exact if_pos h
      · rw [h, ite_self]
    refine or_congr_right ?_
    dsimp only
    rw [needed_middle, Theme.needed_cons_of_none hnone]
    constructor
    · rintro ⟨hsome, rfl | hneeded⟩
      · rw [hnone] at hsome
        cases hsome
      · exact ⟨hsome, hneeded⟩
    · exact fun ⟨hsome, hneeded⟩ => ⟨hsome, .inr hneeded⟩
  | @follow used before name after e hname he =>
    have hentry : entryOf? (unmet entries used) name = some e := by
      rw [entryOf?_unmet, if_neg hname, he]
    have hneeded : Theme.Needed (unmet entries used) (before ++ name :: after) key ↔
        key = name ∨ Theme.Needed (unmet entries (name :: used))
          (before ++ after ++ varReferences e.value) key := by
      have hperm : (varReferences e.value ++ (before ++ after)).Perm
          (before ++ after ++ varReferences e.value) := List.perm_append_comm
      rw [needed_middle, Theme.needed_cons_of_some hentry, ← unmet_cons]
      exact or_congr_right ⟨needed_of_subset hperm.subset, needed_of_subset hperm.symm.subset⟩
    simp only [Finds]
    rw [hneeded, entryOf?_unmet, entryOf?_unmet]
    by_cases hkey : key = name
    · subst hkey
      simp [hname, he]
    · simp [hkey]

theorem finds_run (h : Relation.ReflTransGen (Step entries) s s') :
    Finds entries s key ↔ Finds entries s' key := by
  induction h with
  | refl => exact Iff.rfl
  | tail _ hstep ih => exact ih.trans (finds_step hstep)

theorem finds_start {start : List String} :
    Finds entries ⟨[], start⟩ key ↔ key ∈ Theme.reached entries start := by
  have hunmet : unmet entries [] = entries := List.filter_eq_self.2 fun _ _ => rfl
  rw [Theme.mem_reached, Finds, hunmet]
  exact or_iff_right List.not_mem_nil

/-- At the end it has found what it finds. -/
theorem finds_end : Finds entries ⟨used, []⟩ key ↔ key ∈ used :=
  or_iff_left fun h => Theme.not_needed_nil h.2

theorem exists_step (h : s.pending ≠ []) : ∃ s', Step entries s s' := by
  obtain ⟨used, pending⟩ := s
  cases pending with
  | nil => exact absurd rfl h
  | cons name pending =>
    have hdrop (h : name ∈ used ∨ entryOf? entries name = none) :
        Step entries ⟨used, [] ++ name :: pending⟩ ⟨used, [] ++ pending⟩ := .drop h
    by_cases hname : name ∈ used
    · exact ⟨_, hdrop (.inl hname)⟩
    · cases he : entryOf? entries name with
      | none => exact ⟨_, hdrop (.inr he)⟩
      | some e =>
        have hfollow : Step entries ⟨used, [] ++ name :: pending⟩
            ⟨name :: used, [] ++ pending ++ varReferences e.value⟩ := .follow hname he
        exact ⟨_, hfollow⟩

/-- A step leaves fewer entries to follow, or as many and fewer names to look at. -/
theorem rank_step (h : Step entries s s') :
    Prod.Lex (· < ·) (· < ·) ((unmet entries s'.used).length, s'.pending.length)
      ((unmet entries s.used).length, s.pending.length) := by
  cases h with
  | drop =>
    refine Prod.Lex.right _ ?_
    rw [List.length_append, List.length_append, List.length_cons]
    omega
  | @follow used before name after e hname he =>
    refine Prod.Lex.left _ _ ?_
    rw [unmet_cons]
    have hentry : entryOf? (unmet entries used) name = some e := by
      rw [entryOf?_unmet, if_neg hname, he]
    refine List.length_filter_lt_length_iff_exists.2 ⟨e, List.mem_of_find?_eq_some hentry, ?_⟩
    have hkey : e.key = name := eq_of_beq (List.find?_some hentry :)
    simpa using hkey

theorem wellFounded_step (entries : List ThemeEntry) :
    WellFounded fun s' s => Step entries s s' :=
  Subrelation.wf rank_step
    (InvImage.wf (fun s : Search => ((unmet entries s.used).length, s.pending.length))
      (Prod.lex Nat.lt_wfRel Nat.lt_wfRel).wf)

theorem exists_end (entries : List ThemeEntry) (s : Search) :
    ∃ used, Relation.ReflTransGen (Step entries) s ⟨used, []⟩ := by
  induction s using (wellFounded_step entries).induction with
  | _ s ih =>
    by_cases hpending : s.pending = []
    · obtain ⟨used, pending⟩ := s
      obtain rfl := hpending
      exact ⟨used, .refl⟩
    · obtain ⟨s', hstep⟩ := exists_step hpending
      obtain ⟨used, hrun⟩ := ih s' hstep
      exact ⟨used, .head hstep hrun⟩

end Search

namespace Theme

variable {t : Theme} {ns : List Node} {key : String}

theorem isNeeded_iff_reaches : t.IsNeeded ns key ↔ t.Reaches ns key := by
  constructor
  · intro h
    induction h with
    | start h =>
      rcases List.mem_append.1 h with h | h
      · obtain ⟨n, hn, hkey⟩ := mem_readNames.1 h
        exact .read hn (Node.mem_references.1 hkey)
      · obtain ⟨e, he, rfl⟩ := List.mem_map.1 h
        obtain ⟨he, hstatic⟩ := List.mem_filter.1 he
        exact .static he hstatic
    | value _ he h ih => exact .value ih he (mem_varReferences.1 h)
  · intro h
    induction h with
    | read hn h =>
      exact .start (List.mem_append_left _ (mem_readNames.2 ⟨_, hn, Node.mem_references.2 h⟩))
    | static he h =>
      exact .start (List.mem_append_right _ (List.mem_map.2 ⟨_, List.mem_filter.2 ⟨he, h⟩, rfl⟩))
    | value _ he h ih => exact .value ih he (mem_varReferences.2 h)

theorem entriesUsed_sublist (t : Theme) (ns : List Node) :
    (t.entriesUsed ns).Sublist (t.entries.map (·.key)) :=
  List.filter_sublist.map _

theorem nodup_keys (events : List ThemeEvent) : ((ofEvents events).entries.map (·.key)).Nodup := by
  refine (entries_foldl events).2.imp ?_
  rintro key _ hbefore rfl
  exact not_setBefore_self events key hbefore

theorem entriesUsed_of_run {used : List String}
    (h : Relation.ReflTransGen (Search.Step t.entries) ⟨[], readNames ns ++ t.staticKeys⟩ ⟨used, []⟩) :
    t.entriesUsed ns =
      (t.entries.filter fun e => e.emittable && used.contains e.key).map (·.key) := by
  have hused (key : String) : (reached t.entries (readNames ns ++ t.staticKeys)).contains key =
      used.contains key := by
    rw [Bool.eq_iff_iff, List.contains_iff_mem, List.contains_iff_mem, ← Search.finds_start,
      Search.finds_run h, Search.finds_end]
  simp only [← hused]
  rfl

/-- For a theme that is built from any events and any nodes, the keys to be declared stand in the order
of the theme, each once, and are exactly the emittable ones that are reached. Every search for them
ends, and it does not matter in which order it looks at names. -/
theorem mem_entriesUsed_iff_reaches (events : List ThemeEvent) (ns : List Node) :
    let t := ofEvents events
    (t.entriesUsed ns).Sublist (t.entries.map (·.key)) ∧ (t.entriesUsed ns).Nodup ∧
    (∀ key, key ∈ t.entriesUsed ns ↔ (∃ e, t.get? key = some e ∧ e.emittable) ∧ t.Reaches ns key) ∧
    (WellFounded fun s' s => Search.Step t.entries s s') ∧
    (∃ used, Relation.ReflTransGen (Search.Step t.entries) ⟨[], readNames ns ++ t.staticKeys⟩
      ⟨used, []⟩) ∧
    ∀ used, Relation.ReflTransGen (Search.Step t.entries) ⟨[], readNames ns ++ t.staticKeys⟩
      ⟨used, []⟩ → t.entriesUsed ns =
        (t.entries.filter fun e => e.emittable && used.contains e.key).map (·.key) := by
  intro t
  refine ⟨t.entriesUsed_sublist ns, (nodup_keys events).sublist (t.entriesUsed_sublist ns),
    fun key => ?_, Search.wellFounded_step _, Search.exists_end _ _, fun used => entriesUsed_of_run⟩
  rw [mem_entriesUsed, isNeeded_iff_reaches]
  refine and_congr_left' ⟨?_, ?_⟩
  · rintro ⟨e, he, hem, rfl⟩
    exact ⟨e, get?_of_mem he, hem⟩
  · rintro ⟨e, he, hem⟩
    exact ⟨e, (mem_of_get? he).1, hem, (mem_of_get? he).2⟩

/-- Events of a theme in which two values read each other, one of which is a reference, and a name that
is not set. -/
def circleEvents : List ThemeEvent :=
  [.set "--unused" "1px" {}, .set "--a" "var( --b)" {},
    .set "--b" "var(--a) var(--gone)" { isReference := true }]

/-- A search goes around the circle once. -/
theorem mem_entriesUsed_iff_reaches_circle :
    let t := ofEvents circleEvents
    let ns : List Node := [.rule ".x" [.plain "color" "var(--a)"]]
    Relation.ReflTransGen (Search.Step t.entries) ⟨[], readNames ns ++ t.staticKeys⟩
      ⟨["--b", "--a"], []⟩ ∧ t.entriesUsed ns = ["--a"] ∧ t.Reaches ns "--a" := by
  intro t ns
  have ha : entryOf? t.entries "--a" = some ⟨"--a", "var( --b)", {}, true⟩ := by decide +kernel
  have hb : entryOf? t.entries "--b" =
      some ⟨"--b", "var(--a) var(--gone)", { isReference := true }, false⟩ := by decide +kernel
  have hgone : entryOf? t.entries "--gone" = none := by decide +kernel
  have hstart : readNames ns ++ t.staticKeys = ["--a"] := by decide +kernel
  have hreadA : varReferences "var( --b)" = ["--b"] := by decide +kernel
  have hreadB : varReferences "var(--a) var(--gone)" = ["--a", "--gone"] := by decide +kernel
  have followA := @Search.Step.follow t.entries [] [] "--a" [] _ List.not_mem_nil ha
  have followB := @Search.Step.follow t.entries ["--a"] [] "--b" [] _ (by decide) hb
  have dropA : Search.Step t.entries ⟨["--b", "--a"], [] ++ "--a" :: ["--gone"]⟩
      ⟨["--b", "--a"], [] ++ ["--gone"]⟩ := .drop (.inl (by decide))
  have dropGone : Search.Step t.entries ⟨["--b", "--a"], [] ++ "--gone" :: []⟩
      ⟨["--b", "--a"], [] ++ []⟩ := .drop (.inr hgone)
  rw [hreadA] at followA
  rw [hreadB] at followB
  have hrun : Relation.ReflTransGen (Search.Step t.entries) ⟨[], readNames ns ++ t.staticKeys⟩
      ⟨["--b", "--a"], []⟩ := by
    rw [hstart]
    exact .head followA (.head followB (.head dropA (.single dropGone)))
  obtain ⟨-, -, hmem, -, -, hused⟩ := mem_entriesUsed_iff_reaches circleEvents ns
  have hlist : t.entriesUsed ns = ["--a"] := (hused _ hrun).trans (by decide +kernel)
  exact ⟨hrun, hlist, ((hmem "--a").1 (hlist ▸ List.mem_cons_self)).2⟩

end Theme

end UtilityCss
