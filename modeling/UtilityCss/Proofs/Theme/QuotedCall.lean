import UtilityCss.Proofs.Stylesheet.Literal
import UtilityCss.Proofs.Text.ClosedCall
import UtilityCss.Proofs.Text.Separator
import UtilityCss.Proofs.Theme.Function

/-!
# Calls in quotes

Evaluation looks for calls in quotes as it does outside. So a text is evaluated to itself for every
theme exactly if of each function the first call in it is not closed, and a text in quotes is kept
between all others exactly if no call begins in it.
-/

namespace UtilityCss

/-- A pass over a text: the name of a function, and what is written in the place of its calls. -/
abbrev Pass := String × (String → Except CompileError String)

def runPasses : List Pass → String → Except CompileError String
  | [], value => .ok value
  | (name, resolve) :: passes, value => do
    let value ← replaceCalls name resolve value
    runPasses passes value

/-- The passes of an evaluation. -/
def Theme.passes (t : Theme) (depth : Nat) : List Pass :=
  [("theme", t.evaluateTheme (t.evaluateTo depth)),
   ("--theme", t.evaluateVariable (t.evaluateTo depth)),
   ("--spacing", t.evaluateSpacing), ("--alpha", evaluateAlpha)]

/-- Whether in no pass over a text a call of the function is left open, so that what is behind the
text would stand in the arguments. -/
def LeavesNoneOpen : List Pass → String → Prop
  | [], _ => True
  | (name, resolve) :: passes, value => Chars.closesAll name.toList [] value.toList ∧
    ∀ out, replaceCalls name resolve value = .ok out → LeavesNoneOpen passes out

def weight (s : String) : Nat := s.toList.countP fun c => c == '(' || c == '/'

theorem stops_of_isQuote {quote : Char} (hquote : isQuote quote) :
    Chars.continuesName quote = false ∧ quote ≠ '(' := by
  rcases isQuote_iff.1 hquote with rfl | rfl <;> decide

namespace QuotedCall

section Passes

variable {t : Theme} {depth : Nat} {name value out : String} {ps : List Pass}
  {resolve : String → Except CompileError String}

theorem functionNames_eq (t : Theme) (depth : Nat) :
    functionNames = (t.passes depth).map fun p => p.1.toList := by
  change functionNames = ["theme", "--theme", "--spacing", "--alpha"].map String.toList
  decide

theorem mem_functionNames_passes {p : Pass} (hp : p ∈ t.passes depth) : p.1.toList ∈ functionNames := by
  rw [functionNames_eq t depth]
  exact List.mem_map_of_mem hp

theorem runPasses_of_opensNone (hps : ∀ p ∈ ps, p.1.toList ∈ functionNames) (h : OpensNone value) :
    runPasses ps value = .ok value := by
  induction ps with
  | nil => rfl
  | cons p ps ih =>
    rw [List.forall_mem_cons] at hps
    rw [runPasses, replaceCalls_eq_self hps.1 h]
    exact ih hps.2

theorem evaluateTo_eq_runPasses : t.evaluateTo (depth + 1) value = runPasses (t.passes depth) value := by
  rw [Theme.evaluateTo]
  split
  · next hplain =>
    have hnone : '(' ∉ value.toList := by simpa [Text.containsChar] using hplain
    exact (runPasses_of_opensNone (fun _ => mem_functionNames_passes) (opensNone_of_notMem hnone)).symm
  · have hlast (x : Except CompileError String) : (x >>= fun value => .ok value) = x := bind_pure x
    simp only [Theme.passes, runPasses, hlast]

/-- A pass leaves a text if the first call in it is not closed. -/
theorem replaceCalls_of_not_closesFirst (hname : name.toList ∈ functionNames)
    (h : Chars.closesFirst name.toList [] value.toList = false) :
    replaceCalls name resolve value = .ok value := by
  obtain ⟨hrun, hne⟩ := isRun_functionNames hname
  let onChars (args : List Char) : Except CompileError (List Char) :=
    (resolve (String.ofList args)).map String.toList
  have hself : Chars.replaceCalls name.toList onChars true value.toList = .ok value.toList :=
    Chars.replaceCalls_of_not_closesFirst hrun hne Chars.isRun_nil h
  rw [replaceCalls]
  exact (congrArg (Except.map String.ofList) hself).trans (congrArg Except.ok String.ofList_toList)

private theorem runPasses_of_not_closesFirst (hps : ∀ p ∈ ps, p.1.toList ∈ functionNames)
    (h : ∀ p ∈ ps, Chars.closesFirst p.1.toList [] value.toList = false) :
    runPasses ps value = .ok value := by
  induction ps with
  | nil => rfl
  | cons p ps ih =>
    rw [List.forall_mem_cons] at hps h
    rw [runPasses, replaceCalls_of_not_closesFirst hps.1 h.1]
    exact ih hps.2 h.2

/-- A pass that writes nothing heavier than the arguments makes a text lighter if it replaces a call. -/
theorem weight_replaceCalls (hname : name.toList ∈ functionNames)
    (hresolve : ∀ args value, resolve args = .ok value → weight value ≤ weight args)
    (h : replaceCalls name resolve value = .ok out) :
    weight out ≤ weight value ∧
      (Chars.closesFirst name.toList [] value.toList → weight out < weight value) := by
  obtain ⟨hrun, hne⟩ := isRun_functionNames hname
  obtain ⟨chars, hchars, rfl⟩ := map_eq_ok.1 h
  rw [weight, weight, String.toList_ofList]
  refine Chars.countP_replaceCalls hrun hne rfl (fun args written hwritten => ?_) Chars.isRun_nil hchars
  obtain ⟨text, htext, rfl⟩ := map_eq_ok.1 hwritten
  have hle := hresolve _ _ htext
  rwa [weight, weight, String.toList_ofList] at hle

theorem weight_runPasses (hps : ∀ p ∈ ps, p.1.toList ∈ functionNames)
    (hresolve : ∀ p ∈ ps, ∀ args value, p.2 args = .ok value → weight value ≤ weight args)
    (h : runPasses ps value = .ok out) : weight out ≤ weight value := by
  induction ps generalizing value with
  | nil =>
    cases h
    exact Nat.le_refl _
  | cons p ps ih =>
    rw [List.forall_mem_cons] at hps hresolve
    obtain ⟨first, hfirst, h⟩ := bind_eq_ok.1 h
    exact (ih hps.2 hresolve.2 h).trans (weight_replaceCalls hps.1 hresolve.1 hfirst).1

/-- If passes that write nothing heavier leave a text, they have replaced no call. -/
theorem not_closesFirst_of_runPasses (hps : ∀ p ∈ ps, p.1.toList ∈ functionNames)
    (hresolve : ∀ p ∈ ps, ∀ args value, p.2 args = .ok value → weight value ≤ weight args)
    (h : runPasses ps value = .ok value) :
    ∀ p ∈ ps, Chars.closesFirst p.1.toList [] value.toList = false := by
  induction ps with
  | nil => exact List.forall_mem_nil _
  | cons p ps ih =>
    rw [List.forall_mem_cons] at hps hresolve ⊢
    obtain ⟨first, hfirst, h⟩ := bind_eq_ok.1 h
    have hback := weight_runPasses hps.2 hresolve.2 h
    have hopen : Chars.closesFirst p.1.toList [] value.toList = false :=
      Bool.eq_false_iff.2 fun hcloses =>
        absurd ((weight_replaceCalls hps.1 hresolve.1 hfirst).2 hcloses) (Nat.not_lt.2 hback)
    rw [replaceCalls_of_not_closesFirst hps.1 hopen] at hfirst
    cases hfirst
    exact ⟨hopen, ih hps.2 hresolve.2 h⟩

section Around

variable {quote : Char} {body : List Char} {before behind : String}

theorem replaceCalls_around (hname : name.toList ∈ functionNames) (hquote : isQuote quote)
    (hbody : Chars.opensCall functionNames [] body = false)
    (hbefore : Chars.closesAll name.toList [] before.toList) :
    replaceCalls name resolve (before ++ String.ofList (Chars.literal quote body) ++ behind) = (do
      let x ← replaceCalls name resolve before
      let y ← replaceCalls name resolve behind
      .ok (x ++ String.ofList (Chars.literal quote body) ++ y)) := by
  obtain ⟨hrun, hne⟩ := isRun_functionNames hname
  obtain ⟨hstops, hparen⟩ := stops_of_isQuote hquote
  have htext : (before ++ String.ofList (Chars.literal quote body) ++ behind).toList =
      [] ++ (before.toList ++ (quote :: body ++ quote :: behind.toList)) := by
    simp [Chars.literal]
  rw [replaceCalls, htext, Chars.replaceCalls_around hrun hne hname hstops hparen hbody
    Chars.isRun_nil hbefore, replaceCalls, replaceCalls, List.nil_append]
  cases Chars.replaceCalls name.toList (fun args => (resolve (String.ofList args)).map String.toList)
      true before.toList with
  | error => rfl
  | ok x =>
    cases Chars.replaceCalls name.toList (fun args => (resolve (String.ofList args)).map String.toList)
        true behind.toList with
    | error => rfl
    | ok y =>
      refine congrArg Except.ok (String.toList_inj.1 ?_)
      simp [Chars.literal]

/-- Behind a text that leaves no call open, a text in quotes that begins no call stands as it is
between what the passes make of the one in front and of the one behind. -/
theorem runPasses_around (hps : ∀ p ∈ ps, p.1.toList ∈ functionNames) (hquote : isQuote quote)
    (hbody : Chars.opensCall functionNames [] body = false) (hbefore : LeavesNoneOpen ps before) :
    runPasses ps (before ++ String.ofList (Chars.literal quote body) ++ behind) = .ok value ↔
      ∃ x y, runPasses ps before = .ok x ∧ runPasses ps behind = .ok y ∧
        value = x ++ String.ofList (Chars.literal quote body) ++ y := by
  induction ps generalizing before behind with
  | nil =>
    constructor
    · rintro ⟨⟩
      exact ⟨before, behind, rfl, rfl, rfl⟩
    · rintro ⟨x, y, ⟨⟩, ⟨⟩, rfl⟩
      rfl
  | cons p ps ih =>
    rw [List.forall_mem_cons] at hps
    obtain ⟨hcloses, hrest⟩ := hbefore
    rw [runPasses, replaceCalls_around hps.1 hquote hbody hcloses]
    constructor
    · intro h
      obtain ⟨first, hfirst, h⟩ := bind_eq_ok.1 h
      obtain ⟨x, hx, hfirst⟩ := bind_eq_ok.1 hfirst
      obtain ⟨y, hy, ⟨⟩⟩ := bind_eq_ok.1 hfirst
      obtain ⟨x', y', hx', hy', rfl⟩ := (ih hps.2 (hrest x hx)).1 h
      exact ⟨x', y', bind_eq_ok.2 ⟨x, hx, hx'⟩, bind_eq_ok.2 ⟨y, hy, hy'⟩, rfl⟩
    · rintro ⟨x', y', hx', hy', rfl⟩
      obtain ⟨x, hx, hx'⟩ := bind_eq_ok.1 hx'
      obtain ⟨y, hy, hy'⟩ := bind_eq_ok.1 hy'
      exact bind_eq_ok.2 ⟨_, bind_eq_ok.2 ⟨x, hx, bind_eq_ok.2 ⟨y, hy, rfl⟩⟩,
        (ih hps.2 (hrest x hx)).2 ⟨x', y', hx', hy', rfl⟩⟩

end Around

end Passes

section Weight

variable {s color alpha args out : String}

theorem weight_append (s t : String) : weight (s ++ t) = weight s + weight t := by
  rw [weight, String.toList_append, List.countP_append]
  rfl

theorem weight_trim_le (s : String) : weight (Text.trim s) ≤ weight s := by
  rw [weight, Text.trim, String.toList_ofList]
  exact (Chars.trim_sublist s.toList).countP_le

theorem weight_of_isTame (h : IsTame s) : weight s = 0 := by
  rw [weight, List.countP_eq_zero]
  intro c hc hmark
  have htame := h c hc
  simp only [Bool.or_eq_true, beq_iff_eq] at hmark
  rcases hmark with rfl | rfl <;> exact absurd htame (by decide)

theorem toList_of_segment {sep : Char} {part : String} {parts : List String}
    (h : segment s sep = part :: parts) :
    s.toList = part.toList ++ parts.flatMap (sep :: ·.toList) := by
  rw [segment, Chars.segment, List.map_cons] at h
  obtain ⟨rfl, rfl⟩ := List.cons.inj h
  rw [String.toList_ofList, List.flatMap_map]
  simpa using (Chars.join_segmentFrom sep {} s.toList).symm

private theorem weight_intercalate_le (parts : List String) :
    weight (",".intercalate parts) ≤
      (parts.flatMap (',' :: ·.toList)).countP fun c => c == '(' || c == '/' := by
  have hcomma : weight "," = 0 := by decide
  induction parts with
  | nil => exact Nat.zero_le _
  | cons part parts ih =>
    have hpart : weight part ≤ (',' :: part.toList).countP fun c => c == '(' || c == '/' :=
      (List.sublist_cons_self _ _).countP_le
    rw [List.flatMap_cons, List.countP_append]
    cases parts with
    | nil =>
      rw [String.intercalate_singleton]
      exact Nat.le_add_right_of_le hpart
    | cons next parts =>
      rw [String.intercalate_cons_cons, weight_append, weight_append, hcomma]
      exact Nat.add_le_add hpart ih

theorem weight_fallback_le {fallback : String} (h : (ThemeCall.read args).fallback = some fallback) :
    weight fallback ≤ weight args := by
  have hread : (ThemeCall.read args).fallback = if (segment args ',').length > 1 then
      some (Text.trim (",".intercalate (segment args ',').tail)) else none := by
    unfold ThemeCall.read
    dsimp only
    split <;> rfl
  obtain ⟨-, hfallback⟩ := Option.ite_none_right_eq_some.1 (hread.symm.trans h)
  obtain rfl := Option.some.inj hfallback
  cases hparts : segment args ',' with
  | nil => exact (weight_trim_le _).trans (Nat.zero_le _)
  | cons part parts =>
    refine (weight_trim_le _).trans ((weight_intercalate_le parts).trans ?_)
    rw [weight, toList_of_segment hparts]
    exact (List.sublist_append_right _ _).countP_le

private theorem weight_normalizeAlpha_le (h : normalizeAlpha s true = some alpha) :
    weight alpha ≤ weight s := by
  have hpercent : weight "%" = 0 := by decide
  have htrim := weight_trim_le s
  rw [normalizeAlpha] at h
  obtain ⟨-, h⟩ := Option.ite_none_left_eq_some.1 h
  split at h
  · obtain ⟨-, -, rfl⟩ := Option.map_eq_some_iff.1 h
    exact htrim
  · split at h
    · cases h
      split
      · rw [weight_append, weight_of_isTame (isTame_formatNumber _), hpercent]
        exact Nat.zero_le _
      · rw [weight_append, hpercent, Nat.add_zero]
        exact htrim
    · cases h
      exact htrim

/-- A colour with an alpha value applied has one parenthesis more at most. -/
theorem weight_withAlpha_le : weight (withAlpha color alpha) ≤ weight color + weight alpha + 1 := by
  have hopen : weight "color-mix(in srgb, " = 1 := by decide
  have hspace : weight " " = 0 := by decide
  have hclose : weight ", transparent)" = 0 := by decide
  rw [withAlpha]
  split
  · omega
  · split
    · exact (weight_of_isTame (isTame_hexText _)).le.trans (Nat.zero_le _)
    · simp only [weight_append, hopen, hspace, hclose]
      omega

theorem weight_evaluateAlpha_le (h : evaluateAlpha args = .ok out) : weight out ≤ weight args := by
  rw [evaluateAlpha] at h
  split at h
  · next color alpha hparts =>
    split at h
    · next a ha =>
      cases h
      have hargs : weight args = weight color + weight alpha + 1 := by
        rw [weight, toList_of_segment hparts]
        simp [weight]
        omega
      have hcolor := weight_trim_le color
      have halpha := weight_normalizeAlpha_le ha
      have hout : weight (withAlpha (Text.trim color) a) ≤ _ := weight_withAlpha_le
      omega
    · cases h
  · cases h

theorem lookupPath_empty (path : String) : Theme.lookupPath {} path = none := by
  cases hpath : Theme.lookupPath {} path with
  | none => rfl
  | some e => exact absurd (Theme.mem_of_lookupPath hpath) List.not_mem_nil

theorem weight_evaluateFallback_le {evaluate : String → Except CompileError String} {function : String}
    (hevaluate : ∀ value out, evaluate value = .ok out → weight out ≤ weight value)
    (h : evaluateFallback evaluate function args (ThemeCall.read args).fallback = .ok out) :
    weight out ≤ weight args := by
  cases hfallback : (ThemeCall.read args).fallback with
  | none =>
    rw [hfallback] at h
    cases h
  | some fallback =>
    rw [hfallback] at h
    exact (hevaluate fallback out h).trans (weight_fallback_le hfallback)

section Evaluate

variable {evaluate : String → Except CompileError String}
  (hevaluate : ∀ value out, evaluate value = .ok out → weight out ≤ weight value)

include hevaluate

private theorem weight_evaluateTheme_le (h : Theme.evaluateTheme {} evaluate args = .ok out) :
    weight out ≤ weight args := by
  unfold Theme.evaluateTheme at h
  dsimp only at h
  rw [lookupPath_empty] at h
  exact weight_evaluateFallback_le hevaluate h

private theorem weight_evaluateVariable_le (h : Theme.evaluateVariable {} evaluate args = .ok out) :
    weight out ≤ weight args := by
  unfold Theme.evaluateVariable at h
  dsimp only at h
  -- with ` inline` behind the key and without it
  split at h
  all_goals
    dsimp only at h
    split at h
    · cases h
    · rw [lookupPath_empty] at h
      exact weight_evaluateFallback_le hevaluate h

end Evaluate

private theorem evaluateSpacing_ne (h : Theme.evaluateSpacing {} args = .ok out) : False := by
  unfold Theme.evaluateSpacing at h
  dsimp only at h
  split at h
  · cases h
  · cases h

/-- Without a theme a call becomes its fallback or the colour in it, if anything. -/
theorem weight_passes_le {depth : Nat} {p : Pass} (hp : p ∈ Theme.passes {} depth)
    (hevaluate : ∀ value out, Theme.evaluateTo {} depth value = .ok out → weight out ≤ weight value)
    (args out : String) (h : p.2 args = .ok out) : weight out ≤ weight args := by
  simp only [Theme.passes, List.mem_cons, List.not_mem_nil, or_false] at hp
  rcases hp with rfl | rfl | rfl | rfl <;> dsimp only at h
  · exact weight_evaluateTheme_le hevaluate h
  · exact weight_evaluateVariable_le hevaluate h
  · exact (evaluateSpacing_ne h).elim
  · exact weight_evaluateAlpha_le h

private theorem weight_evaluateTo_le {value : String} (depth : Nat)
    (h : Theme.evaluateTo {} depth value = .ok out) : weight out ≤ weight value := by
  induction depth generalizing value out with
  | zero => cases h
  | succ depth ih =>
    rw [evaluateTo_eq_runPasses] at h
    exact weight_runPasses (fun _ => mem_functionNames_passes)
      (fun _ hp => weight_passes_le hp fun _ _ => ih) h

/-- A text that is evaluated to itself without a theme has no call that would be replaced. -/
theorem not_closesFirst_of_evaluateTo {value : String} {depth : Nat}
    (h : Theme.evaluateTo {} (depth + 1) value = .ok value) :
    ∀ name ∈ functionNames, Chars.closesFirst name [] value.toList = false := by
  rw [evaluateTo_eq_runPasses] at h
  have hnone := not_closesFirst_of_runPasses (fun _ => mem_functionNames_passes)
    (fun _ hp => weight_passes_le hp fun _ _ => weight_evaluateTo_le depth) h
  rw [functionNames_eq {} depth]
  exact List.forall_mem_map.2 hnone

end Weight

end QuotedCall

open QuotedCall

section Quoted

variable {quote : Char} {body : List Char} {value : String}

private theorem opensNone_literal_iff (hquote : isQuote quote) :
    OpensNone (String.ofList (Chars.literal quote body)) ↔
      Chars.opensCall functionNames [] body = false := by
  obtain ⟨hstops, hparen⟩ := stops_of_isQuote hquote
  rw [OpensNone, String.toList_ofList, Chars.literal, Chars.opensCall_separated hstops hparen,
    ← List.nil_append (quote :: body), Chars.opensCall_separated hstops hparen]
  simp [Chars.opensCall]

theorem leavesNoneOpen_empty {ps : List Pass} (hps : ∀ p ∈ ps, p.1.toList ∈ functionNames) :
    LeavesNoneOpen ps "" := by
  induction ps with
  | nil => trivial
  | cons p ps ih =>
    rw [List.forall_mem_cons] at hps
    refine ⟨by rw [String.toList_empty, Chars.closesAll], fun out hout => ?_⟩
    rw [replaceCalls_eq_self hps.1 (by decide)] at hout
    cases hout
    exact ih hps.2

theorem evaluate_eq_evaluateTo (t : Theme) (value : String) :
    ∃ depth, t.evaluate value = t.evaluateTo (depth + 1) value := by
  have hle (entries : List ThemeEntry) (n : Nat) :
      n ≤ entries.foldl (fun n e => n + e.value.length) n := by
    induction entries generalizing n with
    | nil => exact Nat.le_refl n
    | cons e entries ih => exact (Nat.le_add_right _ _).trans (ih _)
  have hpos : 0 < t.fallbackDepth value := (Nat.succ_pos _).trans_le (hle t.entries _)
  exact ⟨t.fallbackDepth value - 1, by rw [Nat.sub_add_cancel hpos, Theme.evaluate]⟩

/-- A text is evaluated to itself for every theme exactly if of no function the first call in it is
closed. -/
theorem evaluate_eq_self_iff : (∀ t : Theme, t.evaluate value = .ok value) ↔
    ∀ name ∈ functionNames, Chars.closesFirst name [] value.toList = false := by
  constructor
  · intro h
    obtain ⟨depth, hdepth⟩ := evaluate_eq_evaluateTo {} value
    exact not_closesFirst_of_evaluateTo (hdepth.symm.trans (h {}))
  · intro h t
    obtain ⟨depth, hdepth⟩ := evaluate_eq_evaluateTo t value
    rw [hdepth, evaluateTo_eq_runPasses]
    exact runPasses_of_not_closesFirst (fun _ => mem_functionNames_passes)
      fun p hp => h p.1.toList (mem_functionNames_passes hp)

/-- A text in quotes that begins a call is not kept in front of one that closes the call. -/
theorem exists_evaluateTo_ne {q : String} (hq : ¬ OpensNone q) : ∃ behind : String,
    Theme.evaluateTo {} 1 behind = .ok behind ∧
      Theme.evaluateTo {} 1 (q ++ behind) ≠ .ok (q ++ behind) := by
  obtain ⟨name, hname, t, hparen, hcloses⟩ := Chars.exists_closesFirst (eq_true_of_ne_false hq)
  refine ⟨String.ofList t, ?_, fun hkept => ?_⟩
  · rw [evaluateTo_eq_runPasses]
    exact runPasses_of_opensNone (fun _ => mem_functionNames_passes)
      (opensNone_of_notMem (by rwa [String.toList_ofList]))
  · have hopen := not_closesFirst_of_evaluateTo hkept name hname
    rw [String.toList_append, String.toList_ofList, hcloses] at hopen
    cases hopen

/-- A string is evaluated to itself for every theme exactly if of no function the first call in it is
closed. Where no call is open in front of it, it stands as it is between what is made of the text in
front and of the one behind, and fails for nothing that is in it, exactly if no call begins in it. -/
theorem evaluate_string_iff (hquote : isQuote quote) (body : List Char) :
    let q := String.ofList (Chars.literal quote body)
    ((∀ t : Theme, t.evaluate q = .ok q) ↔
      ∀ name ∈ functionNames, Chars.closesFirst name [] q.toList = false) ∧
    ((∀ (t : Theme) (depth : Nat) (before behind value : String),
        LeavesNoneOpen (t.passes depth) before →
        (t.evaluateTo (depth + 1) (before ++ q ++ behind) = .ok value ↔
          ∃ x y, t.evaluateTo (depth + 1) before = .ok x ∧
            t.evaluateTo (depth + 1) behind = .ok y ∧ value = x ++ q ++ y)) ↔
      OpensNone q) := by
  intro q
  refine ⟨evaluate_eq_self_iff, fun h => ?_, fun h t depth before behind value hbefore => ?_⟩
  · by_contra hopens
    obtain ⟨behind, hbehind, hne⟩ := exists_evaluateTo_ne hopens
    have hempty : Theme.evaluateTo {} 1 "" = .ok "" := by rfl
    have hkept := (h {} 0 "" behind _ (leavesNoneOpen_empty fun _ => mem_functionNames_passes)).2
      ⟨"", behind, hempty, hbehind, rfl⟩
    rw [String.empty_append] at hkept
    exact hne hkept
  · simp only [evaluateTo_eq_runPasses]
    exact runPasses_around (fun _ => mem_functionNames_passes) hquote
      ((opensNone_literal_iff hquote).1 h) hbefore

/-- A string with a call of another function, and with the name of one that is not called, is kept. -/
theorem evaluate_string_calc :
    let q := String.ofList (Chars.literal '"' "calc(1px) theme".toList)
    isQuote '"' ∧ q = "\"calc(1px) theme\"" ∧ (∀ t : Theme, t.evaluate q = .ok q) ∧
      ∀ (t : Theme) (depth : Nat) (behind value : String),
        t.evaluateTo (depth + 1) (q ++ behind) = .ok value ↔
          ∃ y, t.evaluateTo (depth + 1) behind = .ok y ∧ value = q ++ y := by
  intro q
  have hquote : isQuote '"' := rfl
  obtain ⟨hself, haround⟩ := evaluate_string_iff hquote "calc(1px) theme".toList
  refine ⟨hquote, by decide, hself.2 (by decide +kernel), fun t depth behind value => ?_⟩
  have hfront := haround.2 (by decide +kernel) t depth "" behind value
    (leavesNoneOpen_empty fun _ => mem_functionNames_passes)
  have hempty : t.evaluateTo (depth + 1) "" = .ok "" := by rfl
  rw [String.empty_append, hempty] at hfront
  rw [hfront]
  constructor
  · rintro ⟨x, y, ⟨⟩, hy, rfl⟩
    exact ⟨y, hy, by rw [String.empty_append]⟩
  · rintro ⟨y, hy, rfl⟩
    exact ⟨"", y, rfl, hy, by rw [String.empty_append]⟩

/-- A call in a string is replaced, or it fails. -/
theorem evaluate_string_ne :
    Chars.IsLiteralBody '"' "theme(--color-x)".toList ∧
    Theme.evaluate {} "\"theme(--color-x)\"" = .error (.themeResolution "theme(--color-x)") ∧
    ∃ t : Theme, t.evaluate "\"theme(--color-x)\"" = .ok "\"red\"" := by
  refine ⟨?_, ?_, { entries := [⟨"--color-x", "red", {}, true⟩] }, ?_⟩
  · simp [Chars.IsLiteralBody]
  · decide +kernel
  · decide +kernel

end Quoted

end UtilityCss
