/-
A trie as left-child right-sibling edges.

A node is the value that ends at it and its edges; `insert` descends along the
edges it finds and adds the ones it does not, and the last value inserted under a
key is the one that is kept.  `walk` goes through the trie with a state that may
refuse a letter, and a refused letter takes its subtree with it.
-/
import Mathlib.Tactic

namespace Trie

/-- The edges out of a node, with the token that ends at each and what lies below it. -/
inductive Edges (α τ : Type) where
  | nil
  | cons (letter : α) (token : Option τ) (below rest : Edges α τ)

variable {α τ σ : Type} [DecidableEq α]

/-- What a node holds: its value and the edges out of it. -/
abbrev Node (α τ : Type) := Option τ × Edges α τ

/-- The node behind a letter. -/
def child (letter : α) : Edges α τ → Option (Node α τ)
  | .nil => none
  | .cons l token below rest => if l = letter then some (token, below) else child letter rest

/-- Change the child under a letter, which is made if it is not there. -/
def place (letter : α) (put : Node α τ → Node α τ) : Edges α τ → Edges α τ
  | .nil => .cons letter (put (none, .nil)).1 (put (none, .nil)).2 .nil
  | .cons l token below rest =>
    if l = letter then .cons l (put (token, below)).1 (put (token, below)).2 rest
    else .cons l token below (place letter put rest)

/-- The key's token replaces one that was there. -/
def insert (token : τ) : List α → Node α τ → Node α τ
  | [], node => (some token, node.2)
  | letter :: key, node => (node.1, place letter (insert token key) node.2)

/-- The token filed under a key. -/
def find : List α → Node α τ → Option τ
  | [], node => node.1
  | letter :: key, node => (child letter node.2).bind (find key)

/-- No two edges of a node have the same letter. -/
def Distinct : Edges α τ → Prop
  | .nil => True
  | .cons l _ below rest => child l rest = none ∧ Distinct below ∧ Distinct rest

/-- The values on the paths that `step` does not refuse. -/
def walk (step : σ → α → Option σ) (s : σ) : Edges α τ → List τ
  | .nil => []
  | .cons l token below rest =>
    (match step s l with
      | none => []
      | some s' => token.toList ++ walk step s' below) ++ walk step s rest

/-- No step along the key fails. -/
def survives (step : σ → α → Option σ) : σ → List α → Bool
  | _, [] => true
  | s, letter :: key =>
    match step s letter with
    | none => false
    | some s' => survives step s' key

variable {letter other : α} {put : Node α τ → Node α τ} {es : Edges α τ} {node : Node α τ}
  {token t : τ} {key key' : List α} {step : σ → α → Option σ} {s : σ}

theorem child_place :
    child other (place letter put es) =
      if letter = other then some (put ((child letter es).getD (none, .nil))) else child other es := by
  induction es with
  | nil => simp [place, child]
  | cons l token below rest _ ih =>
    by_cases hl : l = letter
    · subst hl
      by_cases ho : l = other
      · simp [place, child, ho]
      · simp [place, child, ho]
    · by_cases ho : l = other
      · subst ho
        simp [place, child, hl, Ne.symm hl]
      · simp only [place, child, if_neg hl, if_neg ho]
        exact ih

theorem Distinct.place (h : Distinct es)
    (hput : ∀ node : Node α τ, Distinct node.2 → Distinct (put node).2) :
    Distinct (place letter put es) := by
  induction es with
  | nil => exact ⟨rfl, hput _ trivial, trivial⟩
  | cons l token below rest _ ih =>
    obtain ⟨hfresh, hbelow, hrest⟩ := h
    by_cases hl : l = letter
    · simp only [Trie.place, if_pos hl]
      exact ⟨hfresh, hput _ hbelow, hrest⟩
    · simp only [Trie.place, if_neg hl]
      refine ⟨?_, hbelow, ih hrest⟩
      rw [child_place, if_neg fun h => hl h.symm]
      exact hfresh

theorem Distinct.insert (h : Distinct node.2) : Distinct (insert token key node).2 := by
  induction key generalizing node with
  | nil => exact h
  | cons letter key ih => exact h.place fun _ hnode => ih hnode

theorem find_none (key : List α) : find key ((none, .nil) : Node α τ) = none := by
  cases key <;> rfl

theorem find_insert : find key' (insert token key node) =
    if key' = key then some token else find key' node := by
  induction key generalizing key' node with
  | nil =>
    cases key' with
    | nil => rfl
    | cons letter key' => rw [if_neg (List.cons_ne_nil _ _)]; rfl
  | cons letter key ih =>
    cases key' with
    | nil => rw [if_neg (List.cons_ne_nil _ _).symm]; rfl
    | cons other key' =>
      change (Trie.child other (place letter (insert token key) node.2)).bind (find key') = _
      rw [child_place]
      by_cases hl : letter = other
      · subst hl
        rw [if_pos rfl, Option.bind_some, ih]
        by_cases hkey : key' = key
        · rw [if_pos hkey, if_pos (by rw [hkey])]
        · rw [if_neg hkey, if_neg fun h => hkey (List.cons.inj h).2]
          change _ = (Trie.child letter node.2).bind (find key')
          rcases Trie.child letter node.2 with _ | node'
          · exact find_none key'
          · rfl
      · rw [if_neg hl, if_neg fun h => hl (List.cons.inj h).1.symm]
        rfl

/-- The walk finds what stands under the keys that survive. -/
theorem mem_walk (h : Distinct es) :
    t ∈ walk step s es ↔
      ∃ letter key, find (letter :: key) (none, es) = some t ∧
        survives step s (letter :: key) = true := by
  induction es generalizing s with
  | nil =>
    refine ⟨fun ht => absurd ht List.not_mem_nil, ?_⟩
    rintro ⟨letter, key, hfind, -⟩
    cases hfind
  | cons l token below rest ihbelow ihrest =>
    obtain ⟨hfresh, hbelow, hrest⟩ := h
    simp only [walk, List.mem_append]
    constructor
    -- the step of the first edge succeeds: its own token, or one found below it
    · rintro (ht | ht)
      · rcases hstep : step s l with _ | s'
        · simp [hstep] at ht
        · simp only [hstep, List.mem_append, Option.mem_toList] at ht
          rcases ht with ht | ht
          · refine ⟨l, [], ?_, ?_⟩
            · simpa [find, child] using ht
            · simp [survives, hstep]
          · obtain ⟨letter, key, hfind, hsurvives⟩ := (ihbelow hbelow).mp ht
            refine ⟨l, letter :: key, ?_, ?_⟩
            · simpa [find, child] using hfind
            · simpa [survives, hstep] using hsurvives
      -- the token stands under another letter, so the first edge is not in its way
      · obtain ⟨letter, key, hfind, hsurvives⟩ := (ihrest hrest).mp ht
        have hne : l ≠ letter := by
          rintro rfl
          simp [find, hfresh] at hfind
        refine ⟨letter, key, ?_, hsurvives⟩
        simpa [find, child, hne] using hfind
    · rintro ⟨letter, key, hfind, hsurvives⟩
      -- the key goes through the first edge, and ends there or below
      by_cases hl : l = letter
      · subst hl
        left
        rcases hstep : step s l with _ | s'
        · simp [survives, hstep] at hsurvives
        · simp only [List.mem_append, Option.mem_toList]
          cases key with
          | nil =>
            left
            simpa [find, child] using hfind
          | cons letter key =>
            right
            refine (ihbelow hbelow).mpr ⟨letter, key, ?_, ?_⟩
            · simpa [find, child] using hfind
            · simpa [survives, hstep] using hsurvives
      · right
        refine (ihrest hrest).mpr ⟨letter, key, ?_, hsurvives⟩
        simpa [find, child, hl] using hfind

end Trie
