import UtilityCss.Text.Find

/-!
# Roots of names

A name such as `border-x-2` is a root and a value behind a dash, but roots hold dashes themselves.
`findRoots` lists every split whose root is known, the longest root first. The root `@` takes its
value without a dash.
-/

namespace UtilityCss

namespace Chars

/-- The text before and after every dash, the first dash first. -/
def dashSplits : List Char → List (List Char × List Char)
  | [] => []
  | c :: s =>
    (if c == '-' then [([], s)] else []) ++ (dashSplits s).map fun (a, b) => (c :: a, b)

theorem append_of_mem_dashSplits {s a b : List Char} (h : (a, b) ∈ dashSplits s) :
    a ++ '-' :: b = s := by
  induction s generalizing a b with
  | nil => simp [dashSplits] at h
  | cons c s ih =>
    simp only [dashSplits, List.mem_append, List.mem_map, Prod.exists, Prod.mk.injEq] at h
    rcases h with h | ⟨a', b', h, rfl, rfl⟩
    · split at h
      · rename_i hc
        simp_all
      · simp at h
    · simp [ih h]

/-- The splits at a dash whose root is known, the longest root first. If the text ends in a dash
and all before it is a root, there are none. -/
def dashRoots (known : List Char → Bool) (s : List Char) : List (List Char × List Char) :=
  ((dashSplits s).reverse.filter fun (root, _) => !root.isEmpty && known root).takeWhile
    fun (_, value) => !value.isEmpty

/-- The value behind the root `@`. -/
def atRoot (known : List Char → Bool) : List Char → List (List Char × List Char)
  | '@' :: c :: s => if known ['@'] then [(['@'], c :: s)] else []
  | _ => []

def findRoots (known : List Char → Bool) (s : List Char) :
    List (List Char × Option (List Char)) :=
  (if known s then [(s, none)] else []) ++
    (dashRoots known s ++ atRoot known s).map fun (root, value) => (root, some value)

/-- A value is shorter than the name that it is split off. -/
theorem length_of_mem_findRoots {known : List Char → Bool} {s root value : List Char}
    (h : (root, some value) ∈ findRoots known s) : value.length < s.length := by
  simp only [findRoots, List.mem_append, List.mem_map, Prod.mk.injEq, Option.some.injEq,
    Prod.exists] at h
  rcases h with h | ⟨_, _, h | h, rfl, rfl⟩
  · split at h <;> simp at h
  · have hmem := (List.mem_filter.1 ((List.takeWhile_sublist _).subset h)).1
    have hlen := congrArg List.length (append_of_mem_dashSplits (List.mem_reverse.1 hmem))
    simp only [List.length_append, List.length_cons] at hlen
    omega
  · unfold atRoot at h
    split at h
    · split at h <;> simp_all
    · simp at h

end Chars

/-- Every split of a name into a known root and a value. -/
def findRoots (known : String → Bool) (s : String) : List (String × Option String) :=
  (Chars.findRoots (known ∘ String.ofList) s.toList).map fun (root, value) =>
    (String.ofList root, value.map String.ofList)

end UtilityCss
