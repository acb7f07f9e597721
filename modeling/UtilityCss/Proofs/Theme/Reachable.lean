import UtilityCss.Theme.Lookup
import UtilityCss.Theme.Reference

/-!
# The variables that nodes need

A variable is needed if nodes read it, if it is static, or if the value of a needed one reads it.
`Theme.entriesUsed` lists the emittable keys that are needed, so its worklist finds all of them and
no others.
-/

namespace UtilityCss

def readNames (ns : List Node) : List String := (allNodes ns).flatMap Node.references

theorem mem_readNames {ns : List Node} {k : String} :
    k ∈ readNames ns ↔ ∃ n ∈ allNodes ns, k ∈ n.references := List.mem_flatMap

theorem Theme.mem_of_get? {t : Theme} {key : String} {e : ThemeEntry} (h : t.get? key = some e) :
    e ∈ t.entries ∧ e.key = key :=
  ⟨List.mem_of_find?_eq_some h, eq_of_beq (List.find?_some h :)⟩

def entryOf? (entries : List ThemeEntry) (key : String) : Option ThemeEntry :=
  entries.find? (·.key == key)

theorem entryOf?_filter (entries : List ThemeEntry) (name key : String) :
    entryOf? (entries.filter (·.key != name)) key =
      if key = name then none else entryOf? entries key := by
  rw [entryOf?]
  rw [List.find?_filter]
  split
  · next h =>
    subst h
    refine List.find?_eq_none.2 fun e _ => ?_
    simp
  · next h =>
    congr 1
    funext e
    grind

theorem entryOf?_isSome {entries : List ThemeEntry} {e : ThemeEntry} (h : e ∈ entries) :
    (entryOf? entries e.key).isSome :=
  List.find?_isSome.2 ⟨e, h, beq_self_eq_true _⟩

namespace Theme

/-- The names that are needed where those in `start` are: the value of an entry that is needed makes
the names that it reads needed. -/
inductive Needed (entries : List ThemeEntry) (start : List String) : String → Prop
  | start {k} (h : k ∈ start) : Needed entries start k
  | value {k k' e} (hk : Needed entries start k) (he : entryOf? entries k = some e)
      (h : k' ∈ varReferences e.value) : Needed entries start k'

variable {entries : List ThemeEntry} {name k : String} {pending : List String} {e : ThemeEntry}

theorem not_needed_nil : ¬ Needed entries [] k := by
  intro hk
  induction hk with
  | start h => exact absurd h List.not_mem_nil
  | value _ _ _ ih => exact ih

/-- A name without an entry leads nowhere. -/
theorem needed_cons_of_none (hn : entryOf? entries name = none) :
    Needed entries (name :: pending) k ↔ k = name ∨ Needed entries pending k := by
  constructor
  · intro hk
    induction hk with
    | start h =>
      exact (List.mem_cons.1 h).imp_right .start
    | value _ he h ih =>
      rcases ih with rfl | ih
      · rw [hn] at he
        cases he
      · exact .inr (.value ih he h)
  · rintro (rfl | hk)
    · exact .start List.mem_cons_self
    · induction hk with
      | start h => exact .start (List.mem_cons_of_mem _ h)
      | value _ he h ih => exact .value ih he h

/-- The entry of a name is not met again once what its value reads is pending. -/
theorem needed_cons_of_some (hn : entryOf? entries name = some e) :
    Needed entries (name :: pending) k ↔
      k = name ∨ Needed (entries.filter (·.key != name)) (varReferences e.value ++ pending) k := by
  constructor
  · intro hk
    induction hk with
    | start h =>
      exact (List.mem_cons.1 h).imp_right fun h => .start (List.mem_append_right _ h)
    | @value k k' e' _ he h ih =>
      by_cases hkn : k = name
      · rw [hkn, hn] at he
        cases he
        exact .inr (.start (List.mem_append_left _ h))
      · have ih := ih.resolve_left hkn
        refine .inr (.value ih ?_ h)
        rw [entryOf?_filter, if_neg hkn, he]
  · rintro (rfl | hk)
    · exact .start List.mem_cons_self
    · induction hk with
      | start h =>
        rcases List.mem_append.1 h with h | h
        · exact .value (.start List.mem_cons_self) hn h
        · exact .start (List.mem_cons_of_mem _ h)
      | @value k k' e' _ he h ih =>
        rw [entryOf?_filter] at he
        split at he
        · cases he
        · exact .value ih he h

/-- The worklist finds the needed names that have an entry. -/
theorem mem_reached :
    k ∈ reached entries pending ↔ (entryOf? entries k).isSome ∧ Needed entries pending k := by
  fun_induction reached entries pending with
  | case1 entries =>
    constructor
    · nofun
    · rintro ⟨-, hk⟩
      exact absurd hk not_needed_nil
  | case2 entries name pending hn ih =>
    rw [ih, needed_cons_of_none hn]
    constructor
    · rintro ⟨hs, hk⟩
      exact ⟨hs, .inr hk⟩
    · rintro ⟨hs, rfl | hk⟩
      · rw [entryOf?, hn] at hs
        cases hs
      · exact ⟨hs, hk⟩
  | case3 entries name pending e hn _ ih =>
    have hname : (entryOf? entries name).isSome := by rw [entryOf?, hn]; rfl
    simp only [List.unattach_filter, List.unattach_attach] at ih
    rw [List.mem_cons, ih, needed_cons_of_some hn, entryOf?_filter]
    constructor
    · rintro (rfl | ⟨hs, hk⟩)
      · exact ⟨hname, .inl rfl⟩
      · split at hs
        · cases hs
        · exact ⟨hs, .inr hk⟩
    · rintro ⟨hs, rfl | hk⟩
      · exact .inl rfl
      · by_cases hkn : k = name
        · exact .inl hkn
        · exact .inr ⟨by rwa [if_neg hkn], hk⟩

variable (t : Theme) (ns : List Node)

/-- The static keys, which are declared whether or not anything reads them. -/
def staticKeys : List String := (t.entries.filter (·.options.isStatic)).map (·.key)

/-- Whether nodes need a variable of the theme. -/
def IsNeeded (key : String) : Prop := Needed t.entries (readNames ns ++ t.staticKeys) key

/-- A key of the theme that may be declared. -/
def IsEmittable (key : String) : Prop := ∃ e ∈ t.entries, e.emittable ∧ e.key = key

theorem mem_entriesUsed {t : Theme} {ns : List Node} {key : String} :
    key ∈ t.entriesUsed ns ↔ t.IsEmittable key ∧ t.IsNeeded ns key := by
  have hused : key ∈ t.entriesUsed ns ↔
      ∃ e ∈ t.entries, (e.emittable ∧ e.key ∈ reached t.entries (readNames ns ++ t.staticKeys)) ∧
        e.key = key := by
    simp [entriesUsed, readNames, staticKeys, and_assoc]
  rw [hused]
  constructor
  · rintro ⟨e, he, ⟨hem, hr⟩, rfl⟩
    exact ⟨⟨e, he, hem, rfl⟩, (mem_reached.1 hr).2⟩
  · rintro ⟨⟨e, he, hem, rfl⟩, hk⟩
    exact ⟨e, he, ⟨hem, mem_reached.2 ⟨entryOf?_isSome he, hk⟩⟩, rfl⟩

end Theme

end UtilityCss
