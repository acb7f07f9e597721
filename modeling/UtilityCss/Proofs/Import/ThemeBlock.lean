import UtilityCss.Proofs.Import.Load
import UtilityCss.Proofs.Text.Words
import UtilityCss.Proofs.Theme.Block

/-!
# Theme blocks of imported stylesheets

An import marks the theme blocks of its stylesheet as references by its options or by its media
query. Whatever else is between a block and the stylesheet that is compiled, the block is found among
the loaded nodes with the marks of all imports on the way to it.
-/

namespace UtilityCss

def Import.isReference (i : Import) : Bool :=
  i.theme.any (fun options => (ThemeOptions.read options).isReference) ||
    Text.trim (" ".intercalate i.media) == "reference"

/-- The bodies of the theme blocks in a stylesheet and in what it imports, however many imports are
inside each other. A block is marked by itself or by one of the imports that it is reached by. -/
inductive SourceBlock (r : Resolver) : String → List Node → Bool → List Node → Prop
  | here {base ns marked body} (h : ThemeBlock ns marked body) : SourceBlock r base ns marked body
  | imported {base ns params i text place inner marked body}
      (himport : .statement "import" params ∈ ns) (hread : Import.read? params = some i)
      (htext : r.stylesheet i.name base = .ok (text, place)) (hparse : parse text = .ok inner)
      (hbody : SourceBlock r place inner marked body) :
      SourceBlock r base ns (marked || i.isReference) body

section Wrap

variable {ns body : List Node} {marked : Bool} {options : String}

private theorem isReference_read_append (params options : String) :
    (ThemeOptions.read (Text.trim (Text.trim params ++ " " ++ options))).isReference =
      ((ThemeOptions.read params).isReference || (ThemeOptions.read options).isReference) := by
  simp [ThemeOptions.read, Text.words_trim, Text.words_append_space]

/-- An at-rule with further options is a theme block with them, or has them inside. -/
theorem exists_of_addThemeOptions {n : Node} {name params : String} {inner : List Node}
    (h : n.addThemeOptions options = .atRule name params inner) :
    (name = "theme" ∧ ∃ own, n = .atRule "theme" own inner ∧
        params = Text.trim (Text.trim own ++ " " ++ options)) ∨
      name ≠ "theme" ∧ ∃ ns, n = .atRule name params ns ∧ addThemeOptions options ns = inner := by
  cases n with
  | atRule name' params' ns =>
    rw [Node.addThemeOptions] at h
    split at h
    · next hname =>
      cases h
      exact .inl ⟨eq_of_beq hname, params', by rw [eq_of_beq hname], rfl⟩
    · next hname =>
      cases h
      exact .inr ⟨by simpa using hname, ns, rfl, rfl⟩
  | _ => cases h

theorem themeBlock_addThemeOptions (h : ThemeBlock (addThemeOptions options ns) marked body) :
    ∃ own, ThemeBlock ns own body ∧ marked = (own || (ThemeOptions.read options).isReference) := by
  generalize hms : addThemeOptions options ns = ms at h
  induction h generalizing ns with
  | own h =>
    subst hms
    obtain ⟨n, hn, h⟩ := mem_addThemeOptions.1 h
    obtain ⟨-, own, rfl, rfl⟩ | ⟨hne, -⟩ := exists_of_addThemeOptions h
    · exact ⟨_, .own hn, isReference_read_append own options⟩
    · exact absurd rfl hne
  | referenced h href hbody =>
    subst hms
    obtain ⟨n, hn, h⟩ := mem_addThemeOptions.1 h
    obtain ⟨rfl, -⟩ | ⟨-, inner, rfl, rfl⟩ := exists_of_addThemeOptions h
    · exact absurd href (by simp [isReferenceMedia])
    · obtain ⟨m, hm, hbody⟩ := mem_addThemeOptions.1 hbody
      obtain ⟨-, own, rfl, -⟩ | ⟨hne, -⟩ := exists_of_addThemeOptions hbody
      · exact ⟨true, .referenced hn href hm, rfl⟩
      · exact absurd rfl hne
  | grouped h hname href hbody ih =>
    subst hms
    obtain ⟨n, hn, h⟩ := mem_addThemeOptions.1 h
    obtain ⟨rfl, -⟩ | ⟨-, inner, rfl, hinner⟩ := exists_of_addThemeOptions h
    · exact absurd hname (by decide)
    · obtain ⟨own, hown, hmarked⟩ := ih hinner
      exact ⟨own, .grouped hn hname href hown, hmarked⟩

theorem themeBlock_wrapIn {name : String} {params : Option String} (hname : isGrouping name)
    (hmedia : name ≠ "media") (h : ThemeBlock (wrapIn name params ns) marked body) :
    ThemeBlock ns marked body := by
  cases params with
  | none => exact h
  | some params => exact (themeBlock_group hname (by simp [isReferenceMedia, hmedia])).1 h

theorem themeBlock_wrapIn_media {params : Option String}
    (h : ThemeBlock (wrapIn "media" params ns) marked body) :
    ∃ own, ThemeBlock ns own body ∧ marked = (own || params.any (Text.trim · == "reference")) := by
  cases params with
  | none => exact ⟨marked, h, by simp⟩
  | some params =>
    by_cases href : isReferenceMedia "media" params
    · obtain ⟨rfl, own, hown⟩ := h.of_reference href
      refine ⟨own, hown, ?_⟩
      rw [isReferenceMedia, beq_self_eq_true, Bool.true_and] at href
      simp [href]
    · refine ⟨marked, (themeBlock_group (by decide) href).1 h, ?_⟩
      rw [isReferenceMedia, beq_self_eq_true, Bool.true_and] at href
      simp [href]

/-- The wrappers of an import mark the blocks inside them if the import does. -/
theorem themeBlock_wrap {i : Import} (h : ThemeBlock (i.wrap ns) marked body) :
    ∃ own, ThemeBlock ns own body ∧ marked = (own || i.isReference) := by
  rw [Import.wrap] at h
  have hmedia := themeBlock_wrapIn (by decide) (by decide) (themeBlock_wrapIn (by decide) (by decide) h)
  obtain ⟨inner, hinner, rfl⟩ := themeBlock_wrapIn_media hmedia
  have hquery : (if i.media.isEmpty then none else some (" ".intercalate i.media)).any
      (Text.trim · == "reference") = (Text.trim (" ".intercalate i.media) == "reference") := by
    cases i.media with
    | nil => decide
    | cons => rfl
  rw [hquery, Import.isReference]
  cases htheme : i.theme with
  | none =>
    rw [htheme] at hinner
    exact ⟨inner, hinner, rfl⟩
  | some options =>
    rw [htheme] at hinner
    obtain ⟨own, hown, rfl⟩ := themeBlock_addThemeOptions hinner
    exact ⟨own, hown, Bool.or_assoc ..⟩

end Wrap

section Load

variable {r : Resolver} {base : String} {ns body : List Node} {marked : Bool} {loaded : Loaded}

private theorem exists_of_flatMap {parts : List Loaded}
    (h : ThemeBlock (parts.flatMap (·.nodes)) marked body) :
    ∃ part ∈ parts, ThemeBlock part.nodes marked body := by
  induction parts with
  | nil => exact absurd h not_themeBlock_nil
  | cons part parts ih =>
    rw [List.flatMap_cons, themeBlock_append] at h
    rcases h with h | h
    · exact ⟨part, List.mem_cons_self, h⟩
    · obtain ⟨part', hpart', h⟩ := ih h
      exact ⟨part', List.mem_cons_of_mem _ hpart', h⟩

/-- The theme blocks among loaded nodes are those of the stylesheets that they come from. -/
theorem sourceBlock_of_loadWithin {depth : Nat} {chain : List String}
    (h : r.loadWithin depth base chain ns = .ok loaded)
    (hblock : ThemeBlock loaded.nodes marked body) : SourceBlock r base ns marked body := by
  induction depth using Nat.strongRecOn generalizing base chain ns loaded marked with
  | ind depth ih =>
    obtain ⟨load, hload, hinner⟩ := Resolver.exists_of_loadWithin h
    obtain ⟨parts, hparts, hnodes, -⟩ := Resolver.exists_parts hload
    rw [hnodes] at hblock
    obtain ⟨part, hpart, hblock⟩ := exists_of_flatMap hblock
    obtain ⟨n, hn, hnode⟩ := exists_of_mem_tryMapM hparts hpart
    obtain ⟨params, i, loaded', rfl, hread, hi, rfl⟩ | ⟨hnil, -⟩ | ⟨rfl, -⟩ :=
      Resolver.loadNode_cases hnode
    · obtain ⟨depth', inner, place, chain', rfl, hopen, hwithin⟩ := hinner i loaded' hi
      obtain ⟨text, htext, hparse, -⟩ := Resolver.exists_of_openImport hopen
      obtain ⟨own, hown, rfl⟩ := themeBlock_wrap hblock
      exact .imported hn hread htext hparse (ih depth' (Nat.lt_succ_self _) hwithin hown)
    · rw [hnil] at hblock
      exact absurd hblock not_themeBlock_nil
    · exact .here (hblock.mono (List.cons_subset.2 ⟨hn, List.nil_subset _⟩))

end Load

end UtilityCss
