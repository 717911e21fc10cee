/-
Building a graph in a list of cells that only grows.

A builder appends cells and returns indices.  What one builder made is not
changed by what is built behind it, except that a cell put down as a placeholder
is filled in once its successors exist.  `Builds H m P` says that `m` fills in
the placeholders `H` and that the cells it made satisfy `P` in every finished
list that still holds them: `P t lo hi r` for the list `t`, the new cells
`lo ≤ j < hi` and the result `r`.
-/
import Mathlib

namespace Arena

variable {σ α β ι : Type}

/-- A cell more, and its index. -/
def add (cell : σ) : StateM (List σ) ℕ := fun s => (s.length, s ++ [cell])

/-- Overwrite a cell. -/
def patch (i : ℕ) (cell : σ) : StateM (List σ) Unit := fun s => ((), s.set i cell)

/-- The index the next cell gets. -/
def size : StateM (List σ) ℕ := fun s => (s.length, s)

/-- From any arena that has the cells of `H`, the program leaves every old cell outside `H` as it
was, and `P` holds of the range it added in every arena that agrees with the result there. -/
def Builds (H : Set ℕ) (m : StateM (List σ) α) (P : List σ → ℕ → ℕ → α → Prop) : Prop :=
  ∀ s : List σ, (∀ i ∈ H, i < s.length) →
    s.length ≤ (m s).2.length ∧
    (∀ j < s.length, j ∉ H → (m s).2[j]? = s[j]?) ∧
    ∀ t : List σ, (∀ j, s.length ≤ j ∨ j ∈ H → j < (m s).2.length → t[j]? = (m s).2[j]?) →
      P t s.length (m s).2.length (m s).1

variable {H H' : Set ℕ} {m : StateM (List σ) α} {P Q : List σ → ℕ → ℕ → α → Prop}

theorem Builds.mono (h : Builds H m P) (hPQ : ∀ t lo hi r, lo ≤ hi → P t lo hi r → Q t lo hi r) :
    Builds H m Q := by
  intro s hs
  obtain ⟨hlen, hold, hP⟩ := h s hs
  exact ⟨hlen, hold, fun t ht => hPQ t _ _ _ hlen (hP t ht)⟩

theorem Builds.pure (r : α) :
    Builds H (pure r : StateM (List σ) α) (fun _ lo hi r' => hi = lo ∧ r' = r) :=
  fun _ _ => ⟨Nat.le_refl _, fun _ _ _ => rfl, fun _ _ => ⟨rfl, rfl⟩⟩

theorem Builds.add (cell : σ) :
    Builds ∅ (Arena.add cell) (fun t lo hi i => i = lo ∧ hi = lo + 1 ∧ t[lo]? = some cell) := by
  intro s _
  have hlen : (Arena.add cell s).2.length = s.length + 1 := List.length_append
  refine ⟨by omega, fun j hj _ => List.getElem?_append_left hj, fun t ht => ⟨rfl, hlen, ?_⟩⟩
  rw [ht s.length (Or.inl (Nat.le_refl _)) (by omega)]
  exact List.getElem?_concat_length

theorem Builds.patch (i : ℕ) (cell : σ) :
    Builds {i} (Arena.patch i cell) (fun t lo hi _ => hi = lo ∧ t[i]? = some cell) := by
  intro s hs
  have hi := hs i rfl
  have hlen : (Arena.patch i cell s).2.length = s.length := List.length_set
  refine ⟨by omega, fun j _ hj => List.getElem?_set_ne fun heq => hj heq.symm,
    fun t ht => ⟨hlen, ?_⟩⟩
  rw [ht i (Or.inr rfl) (by omega)]
  exact List.getElem?_set_self hi

theorem Builds.bind {f : α → StateM (List σ) β} {R : α → List σ → ℕ → ℕ → β → Prop}
    (h : Builds H m P) (hf : ∀ r, Builds H' (f r) (R r)) (hdisj : Disjoint H H') :
    Builds (H ∪ H') (m >>= f) (fun t lo hi r' =>
      ∃ mid r, lo ≤ mid ∧ mid ≤ hi ∧ P t lo mid r ∧ R r t mid hi r') := by
  intro s hs
  obtain ⟨hlen, hold, hP⟩ := h s fun i hi => hs i (Or.inl hi)
  have hs' : ∀ i ∈ H', i < (m s).2.length := fun i hi =>
    (hs i (Or.inr hi)).trans_le hlen
  obtain ⟨hlen', hold', hR⟩ := hf (m s).1 (m s).2 hs'
  refine ⟨hlen.trans hlen', ?_, ?_⟩
  · intro j hj hjH
    exact (hold' j (hj.trans_le hlen) fun h' => hjH (Or.inr h')).trans
      (hold j hj fun h' => hjH (Or.inl h'))
  · intro t ht
    refine ⟨_, _, hlen, hlen', hP t ?_, hR t ?_⟩
    · intro j hj hlt
      have hkept : j ∉ H' := by
        intro hj'
        rcases hj with hj | hj
        · have := hs j (Or.inr hj')
          omega
        · exact Set.disjoint_left.mp hdisj hj hj'
      refine (ht j ?_ (hlt.trans_le hlen')).trans (hold' j hlt hkept)
      exact hj.imp id Or.inl
    · intro j hj hlt
      exact ht j (hj.imp hlen.trans Or.inr) hlt

/-- The second builder fills in what the first and the caller left open. -/
theorem Builds.andThen {f : α → StateM (List σ) β} {R : α → List σ → ℕ → ℕ → β → Prop}
    (h : Builds ∅ m P) (hf : ∀ r, Builds H (f r) (R r)) :
    Builds H (m >>= f) (fun t lo hi r' =>
      ∃ mid r, lo ≤ mid ∧ mid ≤ hi ∧ P t lo mid r ∧ R r t mid hi r') := by
  have hb := h.bind hf (Set.empty_disjoint H)
  rwa [Set.empty_union] at hb

theorem Builds.size : Builds ∅ (Arena.size (σ := σ)) (fun _ lo hi r => hi = lo ∧ r = lo) :=
  fun _ _ => ⟨Nat.le_refl _, fun _ _ _ => rfl, fun _ _ => ⟨rfl, rfl⟩⟩

/-- A cell for each item of a list, one behind the other. -/
theorem Builds.addEach (cell : ι → σ) (items : List ι) :
    Builds ∅ (items.mapM fun x => Arena.add (cell x)) (fun t lo hi rs =>
      hi = lo + items.length ∧ rs = List.range' lo items.length ∧
        ∀ k x, items[k]? = some x → t[lo + k]? = some (cell x)) := by
  induction items with
  | nil =>
    rw [List.mapM_nil]
    refine (Builds.pure []).mono ?_
    rintro t lo hi rs - ⟨rfl, rfl⟩
    exact ⟨rfl, rfl, fun k x h => by simp at h⟩
  | cons x items ih =>
    rw [List.mapM_cons]
    refine ((Builds.add (cell x)).andThen fun r => ih.andThen fun rs => Builds.pure (r :: rs)).mono ?_
    rintro t lo hi rs - ⟨mid, r, -, -, ⟨rfl, rfl, hr⟩, mid', rs', -, -, ⟨rfl, rfl, hrs⟩, rfl, rfl⟩
    refine ⟨by rw [List.length_cons]; omega, rfl, fun k y hk => ?_⟩
    rcases k with _ | k
    · obtain rfl := Option.some.inj hk
      exact hr
    · have := hrs k y hk
      rwa [Nat.add_assoc, Nat.add_comm 1 k] at this

/-- A placeholder, and a builder that fills it in. -/
theorem Builds.reserve {f : ℕ → StateM (List σ) β} {R : ℕ → List σ → ℕ → ℕ → β → Prop} (cell : σ)
    (hf : ∀ i, i ∉ H → Builds (insert i H) (f i) (R i)) :
    Builds H (Arena.add cell >>= f) (fun t lo hi r => R lo t (lo + 1) hi r) := by
  intro s hs
  have hlen : (s ++ [cell]).length = s.length + 1 := List.length_append
  have hfresh : s.length ∉ H := fun h => Nat.lt_irrefl _ (hs _ h)
  have hs' : ∀ i ∈ insert s.length H, i < (s ++ [cell]).length := by
    rintro i (rfl | hi)
    · omega
    · have := hs i hi
      omega
  obtain ⟨hle, hold, hR⟩ := hf s.length hfresh (s ++ [cell]) hs'
  rw [hlen] at hle hold hR
  refine ⟨(Nat.le_succ _).trans hle, ?_, ?_⟩
  · intro j hj hjH
    refine (hold j (by omega) ?_).trans (List.getElem?_append_left hj)
    rintro (rfl | h)
    exacts [Nat.lt_irrefl _ hj, hjH h]
  · intro t ht
    refine hR t fun j hj hlt => ht j ?_ hlt
    rcases hj with hj | rfl | hj
    · exact Or.inl (by omega)
    · exact Or.inl (Nat.le_refl _)
    · exact Or.inr hj

/-- `f x` was run on some of the cells `lo ≤ j < hi` and returned `r`. -/
def Ran (P : ι → List σ → ℕ → ℕ → α → Prop) (t : List σ) (lo hi : ℕ) (x : ι) (r : α) : Prop :=
  ∃ lo' hi', lo ≤ lo' ∧ hi' ≤ hi ∧ P x t lo' hi' r

theorem Ran.widen {P : ι → List σ → ℕ → ℕ → α → Prop} {t : List σ} {lo hi lo' hi' : ℕ} {x : ι}
    {r : α} (h : Ran P t lo hi x r) (hlo : lo' ≤ lo) (hhi : hi ≤ hi') : Ran P t lo' hi' x r := by
  obtain ⟨a, b, ha, hb, hP⟩ := h
  exact ⟨a, b, hlo.trans ha, hb.trans hhi, hP⟩

/-- One builder for each item of a list, each with its own cells. -/
theorem Builds.mapM {f : ι → StateM (List σ) α} {P : ι → List σ → ℕ → ℕ → α → Prop}
    (items : List ι) (h : ∀ x ∈ items, Builds ∅ (f x) (P x)) :
    Builds ∅ (items.mapM f) (fun t lo hi rs =>
      (∀ x ∈ items, ∃ r ∈ rs, Ran P t lo hi x r) ∧ (∀ r ∈ rs, ∃ x ∈ items, Ran P t lo hi x r) ∧
      ∀ j, lo ≤ j → j < hi → ∃ x ∈ items, ∃ r lo' hi', lo' ≤ j ∧ j < hi' ∧ P x t lo' hi' r) := by
  induction items with
  | nil =>
    rw [List.mapM_nil]
    refine (Builds.pure []).mono ?_
    rintro t lo hi rs - ⟨rfl, rfl⟩
    refine ⟨fun x hx => ?_, fun r hr => ?_, fun j hlo hhi => absurd hhi (by omega)⟩
    · cases hx
    · cases hr
  | cons x items ih =>
    rw [List.mapM_cons]
    refine ((h x List.mem_cons_self).andThen fun r =>
      (ih fun y hy => h y (List.mem_cons_of_mem x hy)).andThen fun rs =>
        Builds.pure (r :: rs)).mono ?_
    rintro t lo hi rs' - ⟨mid, r, hlo, hmid, hr, mid', rs, hlo', hmid', ⟨hitems, hrs, hcells⟩,
      rfl, rfl⟩
    have hfirst : Ran P t lo hi x r := ⟨lo, mid, Nat.le_refl _, hmid, hr⟩
    refine ⟨fun y hy => ?_, fun r' hr' => ?_, fun j hj hj' => ?_⟩
    · rcases List.mem_cons.mp hy with rfl | hy
      · exact ⟨r, List.mem_cons_self, hfirst⟩
      · obtain ⟨r', hr', hran⟩ := hitems y hy
        exact ⟨r', List.mem_cons_of_mem r hr', hran.widen hlo (Nat.le_refl _)⟩
    · rcases List.mem_cons.mp hr' with rfl | hr'
      · exact ⟨x, List.mem_cons_self, hfirst⟩
      · obtain ⟨y, hy, hran⟩ := hrs r' hr'
        exact ⟨y, List.mem_cons_of_mem x hy, hran.widen hlo (Nat.le_refl _)⟩
    · rcases Nat.lt_or_ge j mid with hlt | hge
      · exact ⟨x, List.mem_cons_self, r, lo, mid, hj, hlt, hr⟩
      · obtain ⟨y, hy, r', lo', hi', h1, h2, h3⟩ := hcells j hge hj'
        exact ⟨y, List.mem_cons_of_mem x hy, r', lo', hi', h1, h2, h3⟩

/-- What a builder made of nothing. -/
theorem Builds.run (h : Builds ∅ m P) : P (m []).2 0 (m []).2.length (m []).1 :=
  (h [] fun _ hi => absurd hi (Set.notMem_empty _)).2.2 _ fun _ _ _ => rfl

-- from here on a builder is only taken apart by the rules above
attribute [irreducible] Builds

end Arena
