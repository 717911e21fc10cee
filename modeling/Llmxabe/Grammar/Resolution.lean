/-
What the branches of a schema say, and what the walk over them answers.

The reading is a least fixed point (`IsString`): a string is any alternative of
`oneOf` and `anyOf`, or every component of `allOf`, and a reference is what it
leads to; references in a `cut` lead nowhere.  The walk keeps the references it
has followed for all later branches, so it takes one that it meets again for a
cycle.  Where that misses no string, it answers as the reading does
(`resolvesToString_sound`, `resolvesToString_complete`).
-/
import Llmxabe.Grammar.Schema
import Mathlib.Data.Finset.Card
import Mathlib.Data.Finset.SDiff
import Mathlib.Logic.Relation

open ShortCircuit

namespace Grammar

/-! ### The reading -/

/-- Some branch of the schema is a string, without the references of the cut. -/
inductive IsString (root : Json) (cut : List String) : Json → Prop where
  | ref {schema target : Json} {reference : String} (href : schema.str "$ref" = some reference)
      (hcut : reference ∉ cut) (htarget : resolve root reference = some target)
      (h : IsString root cut target) : IsString root cut schema
  | declared {schema : Json} (href : schema.str "$ref" = none) (h : declaresString schema = true) :
      IsString root cut schema
  | any {schema arm : Json} {key : String} (href : schema.str "$ref" = none)
      (hkey : key = "oneOf" ∨ key = "anyOf") (harm : arm ∈ schema.arms key)
      (h : IsString root cut arm) : IsString root cut schema
  | all {schema : Json} (href : schema.str "$ref" = none) (hne : schema.arms "allOf" ≠ [])
      (h : ∀ arm ∈ schema.arms "allOf", IsString root cut arm) : IsString root cut schema
  | said {schema : Json} (href : schema.str "$ref" = none) (h : saysString schema = true) :
      IsString root cut schema

theorem IsString.mono {root schema : Json} {cut cut' : List String} (hcut : cut' ⊆ cut)
    (h : IsString root cut schema) : IsString root cut' schema := by
  induction h with
  | ref href hfresh htarget _ ih => exact .ref href (fun hr => hfresh (hcut hr)) htarget ih
  | declared href h => exact .declared href h
  | any href hkey harm _ ih => exact .any href hkey harm ih
  | all href hne _ ih => exact .all href hne ih
  | said href h => exact .said href h

/-- A string that is one through a reference is one without going through it again. -/
theorem IsString.cut {root schema target : Json} {cut : List String} {reference : String}
    (htarget : resolve root reference = some target) (h : IsString root cut schema) :
    IsString root (reference :: cut) schema ∨ IsString root (reference :: cut) target := by
  induction h with
  | @ref _ _ other href hcut hnext _ ih =>
    by_cases hother : other = reference
    · subst hother
      rw [htarget] at hnext
      obtain rfl := Option.some.inj hnext
      exact .inr (ih.elim id id)
    · refine ih.imp_left fun h => .ref href ?_ hnext h
      rw [List.mem_cons, not_or]
      exact ⟨hother, hcut⟩
  | declared href h => exact .inl (.declared href h)
  | any href hkey harm _ ih => exact ih.imp_left fun h => .any href hkey harm h
  | all href hne _ ih =>
    by_cases hother : IsString root (reference :: cut) target
    · exact .inr hother
    · exact .inl (.all href hne fun arm harm => (ih arm harm).resolve_right hother)
  | said href h => exact .inl (.said href h)

/-- A reference is the schema it leads to, read in its place. -/
theorem isString_ref_iff {root schema : Json} {cut : List String} {reference : String}
    (href : schema.str "$ref" = some reference) (hcut : reference ∉ cut) :
    IsString root cut schema ↔
      ∃ target, resolve root reference = some target ∧ IsString root (reference :: cut) target := by
  constructor
  · intro h
    cases h with
    | ref href' _ htarget h =>
      rw [href] at href'
      obtain rfl := Option.some.inj href'
      exact ⟨_, htarget, (h.cut htarget).elim id id⟩
    | declared href' _ => rw [href] at href'; cases href'
    | any href' _ _ _ => rw [href] at href'; cases href'
    | all href' _ _ => rw [href] at href'; cases href'
    | said href' _ => rw [href] at href'; cases href'
  · rintro ⟨target, htarget, h⟩
    exact .ref href hcut htarget (h.mono (List.subset_cons_self _ _))

theorem not_isString_of_mem {root schema : Json} {cut : List String} {reference : String}
    (href : schema.str "$ref" = some reference) (hcut : reference ∈ cut) :
    ¬IsString root cut schema := by
  intro h
  cases h with
  | ref href' hcut' _ _ =>
    rw [href] at href'
    obtain rfl := Option.some.inj href'
    exact hcut' hcut
  | declared href' _ => rw [href] at href'; cases href'
  | any href' _ _ _ => rw [href] at href'; cases href'
  | all href' _ _ => rw [href] at href'; cases href'
  | said href' _ => rw [href] at href'; cases href'

/-! ### One turn of the walk -/

/-- What the walk answers on a schema, one level further down. -/
inductive Answers (root : Json) (depth : ℕ) (schema : Json) (seen : List String) :
    Bool → List String → Prop where
  | again {reference : String} (href : schema.str "$ref" = some reference)
      (hseen : reference ∈ seen) : Answers root depth schema seen false seen
  | dangling {reference : String} (href : schema.str "$ref" = some reference)
      (hseen : reference ∉ seen) (hnone : resolve root reference = none) :
      Answers root depth schema seen false (seen ++ [reference])
  | follow {reference : String} {target : Json} {b : Bool} {seen' : List String}
      (href : schema.str "$ref" = some reference) (hseen : reference ∉ seen)
      (htarget : resolve root reference = some target)
      (h : resolvesToString root depth target (seen ++ [reference]) = some (b, seen')) :
      Answers root depth schema seen b seen'
  | declared (href : schema.str "$ref" = none) (h : declaresString schema = true) :
      Answers root depth schema seen true seen
  | combined {seen' : List String} (href : schema.str "$ref" = none)
      (hplain : declaresString schema = false)
      (h : ask true (combine (resolvesToString root depth) schema) COMBINATORS seen =
        some (true, seen')) : Answers root depth schema seen true seen'
  | said {seen' : List String} (href : schema.str "$ref" = none)
      (hplain : declaresString schema = false)
      (h : ask true (combine (resolvesToString root depth) schema) COMBINATORS seen =
        some (false, seen')) : Answers root depth schema seen (saysString schema) seen'

theorem resolves_ref {root schema : Json} {depth : ℕ} {seen : List String} {reference : String}
    (href : schema.str "$ref" = some reference) :
    resolvesToString root (depth + 1) schema seen =
      if reference ∈ seen then some (false, seen)
      else match resolve root reference with
        | none => some (false, seen ++ [reference])
        | some target => resolvesToString root depth target (seen ++ [reference]) := by
  obtain ⟨members, rfl⟩ : ∃ members, schema = .object members := by
    cases schema with
    | object members => exact ⟨members, rfl⟩
    | null => cases href
    | bool b => cases href
    | number n => cases href
    | string s => cases href
    | array values => cases href
  rw [resolvesToString]
  dsimp only [Json.asObject]
  rewrite [href]
  rfl

theorem resolves_plain {root schema : Json} {depth : ℕ} {seen : List String}
    (href : schema.str "$ref" = none) :
    resolvesToString root (depth + 1) schema seen =
      if declaresString schema then some (true, seen)
      else match ask true (combine (resolvesToString root depth) schema) COMBINATORS seen with
        | some (false, seen) => some (saysString schema, seen)
        | answer => answer := by
  cases schema with
  | object members =>
    rw [resolvesToString]
    dsimp only [Json.asObject]
    rewrite [href]
    rfl
  | null => rfl
  | bool b => rfl
  | number n => rfl
  | string s => rfl
  | array values => rfl

theorem resolves_answers {root schema : Json} {depth : ℕ} {seen seen' : List String} {b : Bool}
    (h : resolvesToString root (depth + 1) schema seen = some (b, seen')) :
    Answers root depth schema seen b seen' := by
  cases href : schema.str "$ref" with
  | some reference =>
    rw [resolves_ref href] at h
    split at h
    case isTrue hseen =>
      cases h
      exact .again href hseen
    case isFalse hseen =>
      cases htarget : resolve root reference with
      | none =>
        rw [htarget] at h
        cases h
        exact .dangling href hseen htarget
      | some target =>
        rw [htarget] at h
        exact .follow href hseen htarget h
  | none =>
    rw [resolves_plain href] at h
    cases hplain : declaresString schema with
    | true =>
      rw [hplain] at h
      cases h
      exact .declared href hplain
    | false =>
      rw [hplain] at h
      rcases hask : ask true (combine (resolvesToString root depth) schema) COMBINATORS seen with
        _ | ⟨_ | _, found⟩
      · rw [hask] at h
        cases h
      · rw [hask] at h
        cases h
        exact .said href hplain hask
      · rw [hask] at h
        cases h
        exact .combined href hplain hask

/-- A combinator that speaks asks its components. -/
theorem combine_of_ne_nil {resolves : Json → List String → Option (Bool × List String)}
    {schema : Json} {combinator : Bool × String} {seen : List String}
    (hne : schema.arms combinator.2 ≠ []) :
    combine resolves schema combinator seen =
      ask combinator.1 resolves (schema.arms combinator.2) seen := by
  rw [combine, if_neg]
  rw [List.isEmpty_iff]
  exact hne

theorem combine_of_nil {resolves : Json → List String → Option (Bool × List String)}
    {schema : Json} {combinator : Bool × String} {seen : List String}
    (hnil : schema.arms combinator.2 = []) :
    combine resolves schema combinator seen = some (false, seen) := by
  rw [combine, if_pos]
  rw [List.isEmpty_iff]
  exact hnil

/-- Whatever a schema asks of a state, its combinators keep, if its components do. -/
theorem combine_invariant {resolves : Json → List String → Option (Bool × List String)}
    {schema : Json} {P : List String → Prop}
    (hresolves : ∀ arm s b s', P s → resolves arm s = some (b, s') → P s') :
    ∀ combinator ∈ COMBINATORS, ∀ s b s', P s →
      combine resolves schema combinator s = some (b, s') → P s' := by
  intro combinator _ s b s' hs hanswer
  by_cases hnil : schema.arms combinator.2 = []
  · rw [combine_of_nil hnil] at hanswer
    cases hanswer
    exact hs
  · rw [combine_of_ne_nil hnil] at hanswer
    exact ask_invariant (fun arm _ => hresolves arm) hs hanswer

/-- The references followed are kept. -/
theorem resolves_subset {root schema : Json} {depth : ℕ} {seen seen' : List String} {b : Bool}
    (h : resolvesToString root depth schema seen = some (b, seen')) : seen ⊆ seen' := by
  induction depth generalizing schema seen seen' b with
  | zero => cases h
  | succ depth ih =>
    have hcombine : ∀ combinator ∈ COMBINATORS, ∀ s b s', seen ⊆ s →
        combine (resolvesToString root depth) schema combinator s = some (b, s') → seen ⊆ s' :=
      combine_invariant fun _ _ _ _ hs harm => List.Subset.trans hs (ih harm)
    cases resolves_answers h with
    | again _ _ => exact List.Subset.refl _
    | dangling _ _ _ => exact List.subset_append_left _ _
    | follow _ _ _ hnext => exact List.Subset.trans (List.subset_append_left _ _) (ih hnext)
    | declared _ _ => exact List.Subset.refl _
    | combined _ _ hask => exact ask_invariant hcombine (List.Subset.refl _) hask
    | said _ _ hask => exact ask_invariant hcombine (List.Subset.refl _) hask

/-! ### The walk ends -/

/-- The references of `U` that have not been followed. -/
def unseen (U seen : List String) : ℕ := (U.toFinset \ seen.toFinset).card

theorem toFinset_subset {l l' : List String} (h : l ⊆ l') : l.toFinset ⊆ l'.toFinset := by
  intro r hr
  rw [List.mem_toFinset] at hr ⊢
  exact h hr

theorem unseen_le {U seen seen' : List String} (h : seen ⊆ seen') :
    unseen U seen' ≤ unseen U seen :=
  Finset.card_le_card (Finset.sdiff_subset_sdiff (Finset.Subset.refl _) (toFinset_subset h))

theorem unseen_lt {U seen : List String} {reference : String} (hmem : reference ∈ U)
    (hfresh : reference ∉ seen) : unseen U (seen ++ [reference]) < unseen U seen := by
  refine Finset.card_lt_card (Finset.ssubset_iff_subset_ne.mpr ⟨?_, fun heq => ?_⟩)
  · exact Finset.sdiff_subset_sdiff (Finset.Subset.refl _)
      (toFinset_subset (List.subset_append_left _ _))
  · have hin : reference ∈ U.toFinset \ seen.toFinset := by
      rw [Finset.mem_sdiff, List.mem_toFinset, List.mem_toFinset]
      exact ⟨hmem, hfresh⟩
    rw [← heq, Finset.mem_sdiff, List.mem_toFinset, List.mem_toFinset] at hin
    exact hin.2 (List.mem_append_right _ (List.mem_singleton_self _))

theorem sizeOf_pos (schema : Json) : 0 < sizeOf schema := by
  cases schema <;> simp

/-- The walk goes no deeper than the schema, and the root once for each reference. -/
theorem resolves_ends_of_le {root : Json} {U : List String} (hroot : refs root ⊆ U) {depth : ℕ} :
    ∀ {schema : Json} {seen : List String}, refs schema ⊆ U →
      sizeOf schema + unseen U seen * (sizeOf root + 1) ≤ depth →
      ∃ b seen', resolvesToString root depth schema seen = some (b, seen') := by
  induction depth with
  | zero =>
    intro schema seen _ hdepth
    have := sizeOf_pos schema
    omega
  | succ depth ih =>
    intro schema seen hrefs hdepth
    cases href : schema.str "$ref" with
    | some reference =>
      rw [resolves_ref href]
      split
      case isTrue => exact ⟨_, _, rfl⟩
      case isFalse hseen =>
        cases htarget : resolve root reference with
        | none => exact ⟨_, _, rfl⟩
        | some target =>
          obtain ⟨hsize, htargetRefs⟩ := resolve_smaller htarget
          have hless := unseen_lt (hrefs (ref_mem href)) hseen
          have hmul := Nat.mul_le_mul_right (sizeOf root + 1) (Nat.succ_le_of_lt hless)
          rw [Nat.succ_mul] at hmul
          have hpos := sizeOf_pos schema
          exact ih (List.Subset.trans htargetRefs hroot) (by omega)
    | none =>
      rw [resolves_plain href]
      split
      case isTrue => exact ⟨_, _, rfl⟩
      case isFalse =>
        have hcombine : ∀ combinator ∈ COMBINATORS, ∀ s, seen ⊆ s → ∃ b s',
            combine (resolvesToString root depth) schema combinator s = some (b, s') ∧
              seen ⊆ s' := by
          intro combinator _ s hs
          by_cases hnil : schema.arms combinator.2 = []
          · exact ⟨_, s, combine_of_nil hnil, hs⟩
          · rw [combine_of_ne_nil hnil]
            refine ask_ends (fun arm harm s hs => ?_) hs
            obtain ⟨hsize, harmRefs⟩ := arms_smaller harm
            have hmul := Nat.mul_le_mul_right (sizeOf root + 1) (unseen_le (U := U) hs)
            obtain ⟨b, s', hanswer⟩ := ih (List.Subset.trans harmRefs hrefs)
              (show sizeOf arm + unseen U s * (sizeOf root + 1) ≤ depth by omega)
            exact ⟨b, s', hanswer, List.Subset.trans hs (resolves_subset hanswer)⟩
        obtain ⟨b, s', hask, -⟩ := ask_ends hcombine (List.Subset.refl _)
        rw [hask]
        cases b <;> exact ⟨_, _, rfl⟩

/-- More depth changes no answer. -/
theorem resolves_succ {root : Json} {depth : ℕ} :
    ∀ {schema : Json} {seen : List String} {r : Bool × List String},
      resolvesToString root depth schema seen = some r →
        resolvesToString root (depth + 1) schema seen = some r := by
  induction depth with
  | zero =>
    intro schema seen r h
    cases h
  | succ depth ih =>
    intro schema seen r h
    cases href : schema.str "$ref" with
    | some reference =>
      rw [resolves_ref href] at h ⊢
      split at h
      case isTrue hseen => rwa [if_pos hseen]
      case isFalse hseen =>
        rw [if_neg hseen]
        cases htarget : resolve root reference with
        | none =>
          rw [htarget] at h
          exact h
        | some target =>
          rw [htarget] at h
          exact ih h
    | none =>
      rw [resolves_plain href] at h ⊢
      split at h
      case isTrue hplain => rwa [if_pos hplain]
      case isFalse hplain =>
        rw [if_neg hplain]
        have hcombine : ∀ combinator ∈ COMBINATORS, ∀ s r,
            combine (resolvesToString root depth) schema combinator s = some r →
              combine (resolvesToString root (depth + 1)) schema combinator s = some r := by
          intro combinator _ s r hanswer
          by_cases hnil : schema.arms combinator.2 = []
          · rwa [combine_of_nil hnil] at hanswer ⊢
          · rw [combine_of_ne_nil hnil] at hanswer ⊢
            exact ask_mono (fun arm _ s r => ih) hanswer
        cases hask : ask true (combine (resolvesToString root depth) schema) COMBINATORS seen with
        | none =>
          rw [hask] at h
          cases h
        | some answer =>
          rw [hask] at h
          rw [ask_mono hcombine hask]
          exact h

/-- Some depth is enough, and then every greater one gives the same. -/
theorem resolvesToString_ends (root schema : Json) (seen : List String) :
    ∃ enough answer, ∀ depth ≥ enough, resolvesToString root depth schema seen = some answer := by
  obtain ⟨b, seen', h⟩ := resolves_ends_of_le (List.subset_append_left (refs root) (refs schema))
    (List.subset_append_right (refs root) (refs schema))
    (le_refl (sizeOf schema + unseen (refs root ++ refs schema) seen * (sizeOf root + 1)))
  refine ⟨sizeOf schema + unseen (refs root ++ refs schema) seen * (sizeOf root + 1), (b, seen'), ?_⟩
  intro depth hdepth
  induction depth, hdepth using Nat.le_induction with
  | base => exact h
  | succ depth _ ih => exact resolves_succ ih

/-! ### What the walk answers -/

/-- A string that the walk finds is one. -/
theorem resolvesToString_sound {root : Json} {depth : ℕ} :
    ∀ {schema : Json} {path seen seen' : List String}, path ⊆ seen →
      resolvesToString root depth schema seen = some (true, seen') →
        IsString root path schema := by
  induction depth with
  | zero =>
    intro schema path seen seen' _ h
    cases h
  | succ depth ih =>
    intro schema path seen seen' hpath h
    have hkeeps : ∀ (arm : Json) (s : List String) (b : Bool) (s' : List String), path ⊆ s →
        resolvesToString root depth arm s = some (b, s') → path ⊆ s' :=
      fun arm s b s' hs hanswer => List.Subset.trans hs (resolves_subset hanswer)
    generalize hb : true = b at h
    cases resolves_answers h with
    | again _ _ => cases hb
    | dangling _ _ _ => cases hb
    | @follow reference target _ _ href hseen htarget hnext =>
      subst hb
      have hpath' : reference :: path ⊆ seen ++ [reference] := by
        rw [List.cons_subset]
        exact ⟨List.mem_append_right _ (List.mem_singleton_self _),
          List.Subset.trans hpath (List.subset_append_left _ _)⟩
      exact (isString_ref_iff href fun hr => hseen (hpath hr)).mpr
        ⟨target, htarget, ih hpath' hnext⟩
    | declared href hplain => exact .declared href hplain
    | combined href _ hask =>
      obtain ⟨⟨stop, key⟩, m, hasked, hanswer⟩ := ask_eq_stop hask
      have hm := hasked.invariant (combine_invariant hkeeps) hpath
      have hne : schema.arms key ≠ [] := by
        intro hnil
        rw [combine_of_nil hnil] at hanswer
        cases hanswer
      rw [combine_of_ne_nil hne] at hanswer
      have hmem := hasked.mem
      cases stop with
      | true =>
        obtain ⟨arm, s, harm, hsays⟩ := ask_eq_stop hanswer
        have hs := harm.invariant (fun arm _ => hkeeps arm) hm
        have hkey : key = "oneOf" ∨ key = "anyOf" := by
          simpa [COMBINATORS] using hmem
        exact .any href hkey harm.mem (ih hs hsays)
      | false =>
        obtain rfl : key = "allOf" := by
          simpa [COMBINATORS] using hmem
        refine .all href hne fun arm harm => ?_
        obtain ⟨s, s', hasked', hsays⟩ := ask_eq_pass (show _ = some (!false, _) from hanswer) harm
        exact ih (hasked'.invariant (fun arm _ => hkeeps arm) hm) hsays
    | said href _ _ => exact .said href hb.symm

/-- A call of the walk: the references it is inside of, its schema and those followed so far. -/
structure Visit where
  depth : ℕ
  path : List String
  schema : Json
  seen : List String

/-- The calls that a call makes. -/
inductive Calls (root : Json) : Visit → Visit → Prop where
  | follow {depth : ℕ} {path seen : List String} {schema target : Json} {reference : String}
      (href : schema.str "$ref" = some reference) (hseen : reference ∉ seen)
      (htarget : resolve root reference = some target) :
      Calls root ⟨depth + 1, path, schema, seen⟩
        ⟨depth, reference :: path, target, seen ++ [reference]⟩
  | arm {depth : ℕ} {path seen m s : List String} {schema arm : Json} {combinator : Bool × String}
      (href : schema.str "$ref" = none) (hplain : declaresString schema = false)
      (hcombinator : Asked true (combine (resolvesToString root depth) schema) COMBINATORS seen
        combinator m)
      (harm : Asked combinator.1 (resolvesToString root depth) (schema.arms combinator.2) m arm s) :
      Calls root ⟨depth + 1, path, schema, seen⟩ ⟨depth, path, arm, s⟩

/-- The calls made in the course of a call, and itself. -/
def Reached (root : Json) : Visit → Visit → Prop := Relation.ReflTransGen (Calls root)

/-- A call that meets, outside of its own expansion, a reference followed before, and misses a
string by it. -/
def Visit.Misses (root : Json) (v : Visit) : Prop :=
  ∃ reference, v.schema.str "$ref" = some reference ∧ reference ∈ v.seen ∧ reference ∉ v.path ∧
    IsString root v.path v.schema

/-- Where no string is missed, every string is found. -/
theorem resolvesToString_complete {root : Json} {depth : ℕ} :
    ∀ {schema : Json} {path seen seen' : List String},
      (∀ v, Reached root ⟨depth, path, schema, seen⟩ v → ¬v.Misses root) →
      resolvesToString root depth schema seen = some (false, seen') →
        ¬IsString root path schema := by
  induction depth with
  | zero =>
    intro schema path seen seen' _ h
    cases h
  | succ depth ih =>
    intro schema path seen seen' hmisses h
    generalize hb : false = b at h
    cases resolves_answers h with
    -- a reference seen before answers no, which is a miss unless it stands on its own path
    | @again reference href hseen =>
      by_cases hpath : reference ∈ path
      · exact not_isString_of_mem href hpath
      · intro hstring
        exact hmisses _ .refl ⟨reference, href, hseen, hpath, hstring⟩
    | @dangling reference href hseen hnone =>
      by_cases hpath : reference ∈ path
      · exact not_isString_of_mem href hpath
      · rw [isString_ref_iff href hpath]
        rintro ⟨target, htarget, -⟩
        rw [hnone] at htarget
        cases htarget
    -- the reference is followed: what it leads to answers no
    | @follow reference target _ _ href hseen htarget hnext =>
      subst hb
      by_cases hpath : reference ∈ path
      · exact not_isString_of_mem href hpath
      · rw [isString_ref_iff href hpath]
        rintro ⟨target', htarget', hstring⟩
        rw [htarget] at htarget'
        obtain rfl := Option.some.inj htarget'
        exact ih (fun v hv => hmisses v (.head (.follow href hseen htarget) hv)) hnext hstring
    | declared _ _ => cases hb
    | combined _ _ _ => cases hb
    -- no combinator said yes, and the type is not a string either
    | said href hplain hask =>
      -- every combinator that is there was asked, and said no
      have hasked : ∀ combinator ∈ COMBINATORS, schema.arms combinator.2 ≠ [] → ∃ m m',
          Asked true (combine (resolvesToString root depth) schema) COMBINATORS seen combinator m ∧
            ask combinator.1 (resolvesToString root depth) (schema.arms combinator.2) m =
              some (false, m') := by
        intro combinator hmem hne
        obtain ⟨m, m', hasked, hanswer⟩ := ask_eq_pass (show _ = some (!true, _) from hask) hmem
        rw [combine_of_ne_nil hne] at hanswer
        exact ⟨m, m', hasked, hanswer⟩
      intro hstring
      cases hstring with
      | ref href' _ _ _ =>
        rw [href] at href'
        cases href'
      | declared _ hplain' =>
        rw [hplain] at hplain'
        cases hplain'
      -- one arm of an `anyOf` or `oneOf` suffices, and this one was asked
      | @any _ arm key _ hkey harm hstring =>
        have hmem : (true, key) ∈ COMBINATORS := by
          rcases hkey with rfl | rfl <;> decide
        obtain ⟨m, m', hcombinator, hanswer⟩ := hasked (true, key) hmem (List.ne_nil_of_mem harm)
        obtain ⟨s, s', hasked', hsays⟩ := ask_eq_pass (show _ = some (!true, _) from hanswer) harm
        exact ih (fun v hv => hmisses v (.head (.arm href hplain hcombinator hasked') hv)) hsays
          hstring
      -- of an `allOf` one arm said no
      | all _ hne hstring =>
        obtain ⟨m, m', hcombinator, hanswer⟩ := hasked (false, "allOf") (by decide) hne
        obtain ⟨arm, s, hasked', hsays⟩ := ask_eq_stop hanswer
        exact ih (fun v hv => hmisses v (.head (.arm href hplain hcombinator hasked') hv)) hsays
          (hstring arm hasked'.mem)
      | said _ hsaid =>
        rw [← hb] at hsaid
        cases hsaid

/-- Along a walk, the references that a call is inside of have been followed. -/
theorem Calls.path_subset {root : Json} {v w : Visit} (h : Calls root v w)
    (hv : v.path ⊆ v.seen) : w.path ⊆ w.seen := by
  cases h with
  | follow href hseen htarget =>
    dsimp only at hv ⊢
    rw [List.cons_subset]
    exact ⟨List.mem_append_right _ (List.mem_singleton_self _),
      List.Subset.trans hv (List.subset_append_left _ _)⟩
  | @arm depth path seen m s schema _ combinator href hplain hcombinator harm =>
    have hkeeps : ∀ (arm : Json) (s : List String) (b : Bool) (s' : List String), path ⊆ s →
        resolvesToString root depth arm s = some (b, s') → path ⊆ s' :=
      fun arm s b s' hs hanswer => List.Subset.trans hs (resolves_subset hanswer)
    exact harm.invariant (fun arm _ => hkeeps arm)
      (hcombinator.invariant (combine_invariant hkeeps) hv)

theorem Reached.path_subset {root : Json} {v w : Visit} (h : Reached root v w)
    (hv : v.path ⊆ v.seen) : w.path ⊆ w.seen := by
  induction h with
  | refl => exact hv
  | tail _ hcall ih => exact hcall.path_subset ih

/-- What the walk promises of a schema in its root. -/
structure Resolution (spell : Json → String) (root schema : Json) : Prop where
  ends : ∃ enough answer, ∀ depth ≥ enough,
    resolvesToString root depth schema [] = some answer ∧
      valueSpec spell root depth schema = some (kindOf spell schema answer.1)
  sound : ∀ depth seen, resolvesToString root depth schema [] = some (true, seen) →
    IsString root [] schema
  exact : ∀ depth, (∀ v, Reached root ⟨depth, [], schema, []⟩ v → ¬v.Misses root) →
    ∀ answer seen, resolvesToString root depth schema [] = some (answer, seen) →
      (answer = true ↔ IsString root [] schema)
  -- a reference met twice reads as the schema it leads to, in its place
  inlined : ∀ depth, (∀ v, Reached root ⟨depth, [], schema, []⟩ v → ¬v.Misses root) →
    ∀ v, Reached root ⟨depth, [], schema, []⟩ v →
      ∀ reference, v.schema.str "$ref" = some reference → reference ∉ v.path →
        ∀ answer seen, resolvesToString root v.depth v.schema v.seen = some (answer, seen) →
          (answer = true ↔ ∃ target, resolve root reference = some target ∧
            IsString root (reference :: v.path) target)

theorem visit_iff {root : Json} {v : Visit} (hpath : v.path ⊆ v.seen)
    (hmisses : ∀ w, Reached root v w → ¬w.Misses root) {answer : Bool} {seen : List String}
    (h : resolvesToString root v.depth v.schema v.seen = some (answer, seen)) :
    answer = true ↔ IsString root v.path v.schema := by
  cases answer with
  | true => exact ⟨fun _ => resolvesToString_sound hpath h, fun _ => rfl⟩
  | false =>
    have hnot := resolvesToString_complete hmisses h
    exact ⟨fun hfalse => (nomatch hfalse), fun hstring => absurd hstring hnot⟩

/-- Schema resolution ends, finds only strings, and finds all that it does not miss. -/
theorem schema_resolution (spell : Json → String) (root schema : Json) :
    Resolution spell root schema where
  ends := by
    obtain ⟨enough, answer, henough⟩ := resolvesToString_ends root schema []
    refine ⟨enough, answer, fun depth hdepth => ⟨henough depth hdepth, ?_⟩⟩
    rw [valueSpec, henough depth hdepth, Option.map_some]
  sound _ _ h := resolvesToString_sound (List.Subset.refl _) h
  exact depth hmisses answer seen h :=
    visit_iff (v := ⟨depth, [], schema, []⟩) (List.Subset.refl _) hmisses h
  inlined depth hmisses v hv reference href hpath answer seen h := by
    rw [visit_iff (hv.path_subset (List.Subset.refl _)) (fun w hw => hmisses w (hv.trans hw)) h]
    exact isString_ref_iff href hpath

/-! ### A cycle, and a reference followed twice -/

/-- A reference to the number. -/
def numberRef : Json := .object [("$ref", .string "#/$defs/number")]

/-- A reference to the node. -/
def nodeRef : Json := .object [("$ref", .string "#/$defs/node")]

/-- The number. -/
def numberDef : Json := .object [("type", .string "integer")]

/-- A string. -/
def textDef : Json := .object [("type", .string "string")]

/-- A number, itself, a number again, or a string. -/
def nodeDef : Json := .object [("anyOf", .array [numberRef, nodeRef, numberRef, textDef])]

/-- The definitions of both. -/
def nodeRoot : Json := .object [("$defs", .object [("number", numberDef), ("node", nodeDef)])]

/-- A call in the walk from `nodeRef`: before it follows that, or inside of what it leads to. -/
structure Visit.InNode (v : Visit) : Prop where
  schema : v.schema ∈ [nodeRef, nodeDef, numberRef, numberDef, textDef]
  inside : v.schema = nodeRef ∧ v.seen = [] ∨ "#/$defs/node" ∈ v.path

theorem numberDef_not_isString {root : Json} {cut : List String} : ¬IsString root cut numberDef := by
  intro h
  cases h with
  | ref href _ _ _ => cases href
  | declared _ h => exact absurd h (by decide)
  | any _ hkey harm _ => rcases hkey with rfl | rfl <;> cases harm
  | all _ hne _ => exact hne rfl
  | said _ h => exact absurd h (by decide)

theorem numberRef_not_isString {cut : List String} : ¬IsString nodeRoot cut numberRef := by
  intro h
  have href : numberRef.str "$ref" = some "#/$defs/number" := rfl
  cases h with
  | ref href' _ htarget h =>
    obtain rfl := Option.some.inj (href.symm.trans href')
    have hnumber : resolve nodeRoot "#/$defs/number" = some numberDef := rfl
    obtain rfl := Option.some.inj (hnumber.symm.trans htarget)
    exact numberDef_not_isString h
  | declared href' _ => rw [href] at href'; cases href'
  | any href' _ _ _ => rw [href] at href'; cases href'
  | all href' _ _ => rw [href] at href'; cases href'
  | said href' _ => rw [href] at href'; cases href'

theorem Calls.inNode {v w : Visit} (h : Calls nodeRoot v w) (hv : v.InNode) : w.InNode := by
  obtain ⟨hschema, hinside⟩ := hv
  simp only [List.mem_cons, List.not_mem_nil, or_false] at hschema
  cases h with
  | @follow depth path seen schema target reference href hseen htarget =>
    rcases hschema with rfl | rfl | rfl | rfl | rfl
    · -- the node is followed
      obtain rfl : "#/$defs/node" = reference := Option.some.inj href
      have hnode : resolve nodeRoot "#/$defs/node" = some nodeDef := rfl
      obtain rfl := Option.some.inj (hnode.symm.trans htarget)
      exact ⟨by simp, .inr List.mem_cons_self⟩
    · cases href
    · -- a number is followed inside of the node
      obtain rfl : "#/$defs/number" = reference := Option.some.inj href
      have hnumber : resolve nodeRoot "#/$defs/number" = some numberDef := rfl
      obtain rfl := Option.some.inj (hnumber.symm.trans htarget)
      refine ⟨by simp, .inr (List.mem_cons_of_mem _ (hinside.resolve_left ?_))⟩
      rintro ⟨hsame, -⟩
      simp [numberRef, nodeRef] at hsame
    · cases href
    · cases href
  | @arm depth path seen m s schema arm combinator href hplain hcombinator harm =>
    have hkey := hcombinator.mem
    have hmem := harm.mem
    have hpath : "#/$defs/node" ∈ path := by
      refine hinside.resolve_left ?_
      rintro ⟨rfl, -⟩
      cases href
    simp only [COMBINATORS, List.mem_cons, List.not_mem_nil, or_false] at hkey
    rcases hschema with rfl | rfl | rfl | rfl | rfl
    · cases href
    · rcases hkey with rfl | rfl | rfl
      · cases hmem
      · have harms : arm ∈ [numberRef, nodeRef, numberRef, textDef] := hmem
        simp only [List.mem_cons, List.not_mem_nil, or_false] at harms
        rcases harms with rfl | rfl | rfl | rfl <;> exact ⟨by simp, .inr hpath⟩
      · cases hmem
    · cases href
    · rcases hkey with rfl | rfl | rfl <;> cases hmem
    · exact absurd hplain (by decide)

theorem nodeRef_misses_nothing {depth : ℕ} {v : Visit}
    (h : Reached nodeRoot ⟨depth, [], nodeRef, []⟩ v) : ¬v.Misses nodeRoot := by
  have hv : v.InNode := by
    induction h with
    | refl => exact ⟨List.mem_cons_self, .inl ⟨rfl, rfl⟩⟩
    | tail _ hcall ih => exact hcall.inNode ih
  rintro ⟨reference, href, hseen, hpath, hstring⟩
  obtain ⟨hschema, hinside⟩ := hv
  simp only [List.mem_cons, List.not_mem_nil, or_false] at hschema
  rcases hschema with h | h | h | h | h <;> rw [h] at href
  · obtain rfl : "#/$defs/node" = reference := Option.some.inj href
    rcases hinside with ⟨-, hnil⟩ | hnode
    · simp [hnil] at hseen
    · exact hpath hnode
  · cases href
  · rw [h] at hstring
    exact numberRef_not_isString hstring
  · cases href
  · cases href

/-- The walk from `nodeRef` finds its string behind the cycle; where it meets the number a second
time it answers what the number itself would. -/
theorem schema_resolution_witness :
    IsString nodeRoot [] nodeRef ∧
      ∃ v, Reached nodeRoot ⟨4, [], nodeRef, []⟩ v ∧ v.schema = numberRef ∧
        "#/$defs/number" ∈ v.seen ∧
        ¬∃ target, resolve nodeRoot "#/$defs/number" = some target ∧
          IsString nodeRoot ("#/$defs/number" :: v.path) target := by
  have hresolution := schema_resolution (fun _ => "") nodeRoot nodeRef
  have hmisses : ∀ v, Reached nodeRoot ⟨4, [], nodeRef, []⟩ v → ¬v.Misses nodeRoot :=
    fun _ => nodeRef_misses_nothing
  have hnode : Calls nodeRoot ⟨4, [], nodeRef, []⟩ ⟨3, ["#/$defs/node"], nodeDef, ["#/$defs/node"]⟩ :=
    .follow rfl List.not_mem_nil rfl
  -- the number is followed, the node is met again, and then the number
  have hagain : Calls nodeRoot ⟨3, ["#/$defs/node"], nodeDef, ["#/$defs/node"]⟩
      ⟨2, ["#/$defs/node"], numberRef, ["#/$defs/node", "#/$defs/number"]⟩ :=
    @Calls.arm _ _ _ _ _ _ _ _ (true, "anyOf") rfl rfl (.tail rfl .head) (.tail rfl (.tail rfl .head))
  have hreached := (Relation.ReflTransGen.single hnode).tail hagain
  refine ⟨(hresolution.exact 4 hmisses true _ rfl).mp rfl, _, hreached, rfl,
    List.mem_cons_of_mem _ List.mem_cons_self, fun hnumber => ?_⟩
  have hsame := hresolution.inlined 4 hmisses _ hreached "#/$defs/number" rfl (by decide) false _ rfl
  exact Bool.false_ne_true (hsame.mpr hnumber)

/-! ### Every value a string -/

/-- Every value that the schema admits is a string. -/
inductive OnlyStrings (root : Json) : Json → Prop where
  | ref {schema target : Json} {reference : String} (href : schema.str "$ref" = some reference)
      (htarget : resolve root reference = some target) (h : OnlyStrings root target) :
      OnlyStrings root schema
  | type {schema : Json} (h : schema.str "type" = some "string") : OnlyStrings root schema
  | types {schema : Json} (hne : schema.arms "type" ≠ [])
      (h : ∀ kind ∈ schema.arms "type", kind.asStr = some "string") : OnlyStrings root schema
  | alternatives {schema : Json} {key : String} (hkey : key = "oneOf" ∨ key = "anyOf")
      (hne : schema.arms key ≠ []) (h : ∀ arm ∈ schema.arms key, OnlyStrings root arm) :
      OnlyStrings root schema
  | component {schema arm : Json} (harm : arm ∈ schema.arms "allOf") (h : OnlyStrings root arm) :
      OnlyStrings root schema
  | const {schema : Json} (h : (schema.get "const").any Json.isString = true) :
      OnlyStrings root schema
  | enum {schema : Json} (hne : schema.arms "enum" ≠ [])
      (h : ∀ value ∈ schema.arms "enum", value.isString = true) : OnlyStrings root schema

/-- A number or a string. -/
def unionSchema : Json :=
  .object [("anyOf", .array [.object [("type", .string "integer")],
    .object [("type", .string "string")]])]

/-- A schema with one definition, and one that asks for it twice. -/
def definitionsRoot : Json :=
  .object [("$defs", .object [("text", .object [("type", .string "string")])])]

/-- Both components refer to the same definition. -/
def sharedSchema : Json :=
  .object [("allOf", .array [.object [("$ref", .string "#/$defs/text")],
    .object [("$ref", .string "#/$defs/text")]])]

theorem integer_not_onlyStrings {root : Json} :
    ¬OnlyStrings root (.object [("type", .string "integer")]) := by
  intro h
  cases h with
  | ref href _ _ => cases href
  | type h => exact absurd h (by decide)
  | types hne _ => exact hne rfl
  | alternatives hkey hne _ =>
    rcases hkey with rfl | rfl <;> exact hne rfl
  | component harm _ => cases harm
  | const h => cases h
  | enum hne _ => exact hne rfl

/-- One string alternative makes a string of a union that holds numbers, and a reference shared by
two components is not followed twice. -/
theorem resolution_not_exact :
    (resolvesToString unionSchema 2 unionSchema [] = some (true, []) ∧
      ¬OnlyStrings unionSchema unionSchema) ∧
    resolvesToString definitionsRoot 3 sharedSchema [] = some (false, ["#/$defs/text"]) ∧
      OnlyStrings definitionsRoot sharedSchema := by
  refine ⟨⟨by decide, fun h => ?_⟩, by decide, ?_⟩
  · cases h with
    | ref href _ _ => cases href
    | type h => cases h
    | types hne _ => exact hne rfl
    | alternatives hkey hne h =>
      rcases hkey with rfl | rfl
      · exact hne rfl
      · exact integer_not_onlyStrings (h _ List.mem_cons_self)
    | component harm _ => cases harm
    | const h => cases h
    | enum hne _ => exact hne rfl
  · exact .component List.mem_cons_self (.ref rfl rfl (.type rfl))

end Grammar
