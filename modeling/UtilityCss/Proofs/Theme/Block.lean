import UtilityCss.Proofs.Stylesheet.Node
import UtilityCss.Proofs.Stylesheet.Replace
import UtilityCss.Proofs.Theme.Fold
import UtilityCss.Theme.Block

/-!
# Theme blocks and their marks

A theme block is marked if it is a reference by its own options, or if it stands in `@media reference`.
What a scan finds comes from the blocks, and what comes from a marked block is a reference.
-/

namespace UtilityCss

/-- The bodies of the theme blocks that are looked for among nodes. The blocks are marked if they are
references. -/
inductive ThemeBlock : List Node → Bool → List Node → Prop
  | own {ns params body} (h : .atRule "theme" params body ∈ ns) :
      ThemeBlock ns (ThemeOptions.read params).isReference body
  | referenced {ns name params inner options body} (h : .atRule name params inner ∈ ns)
      (href : isReferenceMedia name params) (hbody : .atRule "theme" options body ∈ inner) :
      ThemeBlock ns true body
  | grouped {ns name params inner marked body} (h : .atRule name params inner ∈ ns)
      (hname : isGrouping name) (href : ¬ isReferenceMedia name params)
      (hbody : ThemeBlock inner marked body) : ThemeBlock ns marked body

def SetsKey (key : String) (body : List Node) : Prop :=
  ∃ property value important, .decl property value important ∈ body ∧ Text.trim property = key ∧
    Text.trim value ≠ "initial"

/-- The name of keyframes. -/
def Node.keyframesName? : Node → Option String
  | .atRule "keyframes" params _ | .statement "keyframes" params => some (Text.trim params)
  | _ => none

def DefinesKeyframes (name : String) (body : List Node) : Prop :=
  ∃ n ∈ body, n.keyframesName? = some name

section Blocks

variable {ns ms body : List Node} {marked : Bool}

theorem ThemeBlock.mono (h : ThemeBlock ns marked body) (hsub : ns ⊆ ms) :
    ThemeBlock ms marked body := by
  cases h with
  | own h => exact .own (hsub h)
  | referenced h href hbody => exact .referenced (hsub h) href hbody
  | grouped h hname href hbody => exact .grouped (hsub h) hname href hbody

theorem not_themeBlock_nil : ¬ ThemeBlock [] marked body := by
  intro h
  cases h with
  | own h => exact absurd h List.not_mem_nil
  | referenced h => exact absurd h List.not_mem_nil
  | grouped h => exact absurd h List.not_mem_nil

theorem themeBlock_append :
    ThemeBlock (ns ++ ms) marked body ↔ ThemeBlock ns marked body ∨ ThemeBlock ms marked body := by
  constructor
  · intro h
    cases h with
    | own h => exact (List.mem_append.1 h).imp .own .own
    | referenced h href hbody =>
      exact (List.mem_append.1 h).imp (.referenced · href hbody) (.referenced · href hbody)
    | grouped h hname href hbody =>
      exact (List.mem_append.1 h).imp (.grouped · hname href hbody) (.grouped · hname href hbody)
  · rintro (h | h)
    · exact h.mono (List.subset_append_left ns ms)
    · exact h.mono (List.subset_append_right ns ms)

/-- A group around nodes that is no `@media reference` has their blocks. -/
theorem themeBlock_group {name params : String} (hname : isGrouping name)
    (href : ¬ isReferenceMedia name params) :
    ThemeBlock [.atRule name params ns] marked body ↔ ThemeBlock ns marked body := by
  refine ⟨fun h => ?_, .grouped List.mem_cons_self hname href⟩
  cases h with
  | own h =>
    cases List.mem_singleton.1 h
    exact absurd hname (by decide)
  | referenced h href' =>
    cases List.mem_singleton.1 h
    exact absurd href' href
  | grouped h _ _ hbody =>
    cases List.mem_singleton.1 h
    exact hbody

/-- `@media reference` marks the blocks directly in it. -/
theorem ThemeBlock.of_reference {name params : String} (href : isReferenceMedia name params)
    (h : ThemeBlock [.atRule name params ns] marked body) :
    marked = true ∧ ∃ marked', ThemeBlock ns marked' body := by
  cases h with
  | own h =>
    cases List.mem_singleton.1 h
    exact absurd href (by simp [isReferenceMedia])
  | referenced h _ hbody =>
    cases List.mem_singleton.1 h
    exact ⟨rfl, _, .own hbody⟩
  | grouped h _ href' =>
    cases List.mem_singleton.1 h
    exact absurd href href'

end Blocks

def IsBlockEvent (options : ThemeOptions) (body : List Node) (e : ThemeEvent) : Prop :=
  ∃ n ∈ body, ∃ es, n.themeEvents options = .ok es ∧ e ∈ es

section Scan

variable {ns body : List Node} {options inherited : ThemeOptions} {events : List ThemeEvent}
  {e : ThemeEvent} {s : ThemeScan} {met : Bool}

theorem isBlockEvent_of_blockEvents (h : blockEvents options body = .ok events) (he : e ∈ events) :
    IsBlockEvent options body e := by
  obtain ⟨parts, hparts, rfl⟩ := map_eq_ok.1 h
  obtain ⟨part, hpart, he⟩ := List.mem_flatten.1 he
  obtain ⟨n, hn, hevents⟩ := exists_of_mem_tryMapM hparts hpart
  exact ⟨n, hn, part, hevents, he⟩

theorem exists_block_of_referenceEvents {n : Node} (h : n.referenceEvents inherited = .ok events)
    (he : e ∈ events) : ∃ params body options, n = .atRule "theme" params body ∧
      options.isReference ∧ IsBlockEvent options body e := by
  rw [Node.referenceEvents.eq_def] at h
  split at h
  · exact ⟨_, _, _, rfl, by simp [ThemeOptions.union], isBlockEvent_of_blockEvents h he⟩
  · cases h
    exact absurd he List.not_mem_nil
  · cases h

/-- An event that the scan of a node finds comes from the block that the node is, from one in a
reference block, or from the scan of a group. -/
theorem scanThemeWith_cases {n : Node} (h : n.scanThemeWith inherited met = .ok s)
    (he : e ∈ s.events) :
    (∃ params body, n = .atRule "theme" params body ∧
      IsBlockEvent ((ThemeOptions.read params).union inherited) body e) ∨
    (∃ name params inner own body options, n = .atRule name params inner ∧
      isReferenceMedia name params ∧ .atRule "theme" own body ∈ inner ∧
      options.isReference ∧ IsBlockEvent options body e) ∨
    (∃ name params inner s', n = .atRule name params inner ∧ isGrouping name ∧
      ¬ isReferenceMedia name params ∧ scanThemesWith inherited met inner = .ok s' ∧
      e ∈ s'.events) := by
  cases n with
  | atRule name params inner =>
    rw [Node.scanThemeWith] at h
    split at h
    · next hname =>
      obtain ⟨events, hevents, rfl⟩ := map_eq_ok.1 h
      obtain rfl := eq_of_beq hname
      exact .inl ⟨params, inner, rfl, isBlockEvent_of_blockEvents hevents he⟩
    · split at h
      · next href =>
        obtain ⟨parts, hparts, rfl⟩ := map_eq_ok.1 h
        obtain ⟨part, hpart, he⟩ := List.mem_flatten.1 he
        obtain ⟨m, hm, hevents⟩ := exists_of_mem_tryMapM hparts hpart
        obtain ⟨own, body, options, rfl, hoptions, he⟩ :=
          exists_block_of_referenceEvents hevents he
        exact .inr (.inl ⟨name, params, inner, own, body, options, rfl, href, hm, hoptions, he⟩)
      · next href =>
        split at h
        · next hgroup =>
          obtain ⟨s', hs, rfl⟩ := map_eq_ok.1 h
          exact .inr (.inr ⟨name, params, inner, s', rfl, hgroup, href, hs, he⟩)
        · cases h
          exact absurd he List.not_mem_nil
  | _ =>
    cases h
    exact absurd he List.not_mem_nil

/-- What a scan finds comes from a block; if that is marked, then with the options of a reference. -/
theorem exists_block_of_mem_events (h : scanThemesWith inherited met ns = .ok s) (he : e ∈ s.events) :
    ∃ marked body options, ThemeBlock ns marked body ∧ (marked → options.isReference) ∧
      IsBlockEvent options body e := by
  induction ns using forest_induction generalizing met s with
  | nil =>
    cases h
    exact absurd he List.not_mem_nil
  | cons n ns ihn ih =>
    rw [scanThemesWith] at h
    obtain ⟨front, hfront, h⟩ := bind_eq_ok.1 h
    obtain ⟨rest, hrest, h⟩ := bind_eq_ok.1 h
    cases h
    rcases List.mem_append.1 he with he | he
    · obtain ⟨params, body, rfl, he⟩ |
        ⟨name, params, inner, own, body, options, rfl, href, hmem, hoptions, he⟩ |
        ⟨name, params, inner, s', rfl, hgroup, href, hs, he⟩ := scanThemeWith_cases hfront he
      · refine ⟨_, body, _, .own List.mem_cons_self, ?_, he⟩
        intro hown
        rw [ThemeOptions.union, hown, Bool.true_or]
      · exact ⟨true, body, options, .referenced List.mem_cons_self href hmem, fun _ => hoptions, he⟩
      · obtain ⟨marked, body, options, hblock, hmarked, he⟩ := ihn hs he
        exact ⟨marked, body, options, .grouped List.mem_cons_self hgroup href hblock, hmarked, he⟩
    · obtain ⟨marked, body, options, hblock, hmarked, he⟩ := ih hrest he
      exact ⟨marked, body, options, hblock.mono (List.subset_cons_self n ns), hmarked, he⟩

theorem setting?_ofDeclaration {property value key : String} {setting : String × ThemeOptions}
    (h : (ThemeEvent.ofDeclaration property value options).setting? key = some setting) :
    Text.trim property = key ∧ Text.trim value ≠ "initial" ∧ setting.2 = options := by
  have hset (k v : String) (h : (ThemeEvent.set k v options).setting? key = some setting) :
      k = key ∧ v ≠ "initial" ∧ setting.2 = options := by
    rw [ThemeEvent.setting?] at h
    obtain ⟨hcond, h⟩ := Option.ite_none_right_eq_some.1 h
    cases h
    simpa using hcond
  rw [ThemeEvent.ofDeclaration] at h
  split at h
  · exact hset _ _ h
  · split at h
    · cases h
    · split at h
      · cases h
      · exact hset _ _ h

private theorem ofDeclaration_ne_keyframes (property value : String) (options : ThemeOptions)
    (k : ThemeKeyframes) : ThemeEvent.ofDeclaration property value options ≠ .keyframes k := by
  rw [ThemeEvent.ofDeclaration]
  split
  · nofun
  · split
    · nofun
    · split <;> nofun

/-- An event of a block that sets a key is a declaration in its body. -/
theorem setsKey_of_isBlockEvent {key : String} {setting : String × ThemeOptions}
    (h : IsBlockEvent options body e) (he : e.setting? key = some setting) :
    SetsKey key body ∧ setting.2 = options := by
  obtain ⟨n, hn, es, hes, hmem⟩ := h
  rw [Node.themeEvents.eq_def] at hes
  split at hes
  · next property value important =>
    split at hes
    · cases hes
      obtain rfl := List.mem_singleton.1 hmem
      obtain ⟨hkey, hvalue, hoptions⟩ := setting?_ofDeclaration he
      exact ⟨⟨property, value, important, hn, hkey, hvalue⟩, hoptions⟩
    · cases hes
  · cases hes
    obtain rfl := List.mem_singleton.1 hmem
    cases he
  · cases hes
    obtain rfl := List.mem_singleton.1 hmem
    cases he
  · cases hes
    exact absurd hmem List.not_mem_nil
  · cases hes

/-- An event of a block that defines keyframes is a node in its body. -/
theorem definesKeyframes_of_isBlockEvent {k : ThemeKeyframes}
    (h : IsBlockEvent options body (.keyframes k)) :
    DefinesKeyframes k.name body ∧ k.options = options ∧ k.node.keyframesName? = some k.name := by
  obtain ⟨n, hn, es, hes, hmem⟩ := h
  rw [Node.themeEvents.eq_def] at hes
  split at hes
  · split at hes
    · cases hes
      exact (ofDeclaration_ne_keyframes _ _ _ k (List.mem_singleton.1 hmem).symm).elim
    · cases hes
  · cases hes
    cases List.mem_singleton.1 hmem
    exact ⟨⟨_, hn, rfl⟩, rfl, rfl⟩
  · cases hes
    cases List.mem_singleton.1 hmem
    exact ⟨⟨_, hn, rfl⟩, rfl, rfl⟩
  · cases hes
    exact absurd hmem List.not_mem_nil
  · cases hes

end Scan

end UtilityCss
