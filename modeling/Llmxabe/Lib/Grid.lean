/-
Buffers filled row by row.

`grid rows cols f` is the buffer whose entry at `r * cols + c` is `f r c`, or
nothing if one of the entries is (`grid_eq_some_iff`).  Rows that are filled
after others stand behind them (`grid_add`).
-/
import Mathlib.Tactic

section Grid

variable {α : Type}

/-- The entries of a table, row by row. -/
def grid (rows cols : ℕ) (f : ℕ → ℕ → Option α) : Option (List α) :=
  (List.range (rows * cols)).mapM fun i => f (i / cols) (i % cols)

theorem mapM_eq_some_iff {β : Type} {f : β → Option α} {xs : List β} {l : List α} :
    xs.mapM f = some l ↔ xs.map f = l.map some := by
  induction xs generalizing l with
  | nil =>
    cases l <;> simp [Pure.pure]
  | cons x xs ih =>
    rw [List.mapM_cons, List.map_cons]
    constructor
    · intro h
      obtain ⟨y, hy, ys, hys, hl⟩ : ∃ y, f x = some y ∧ ∃ ys, xs.mapM f = some ys ∧ y :: ys = l := by
        simpa [Option.bind_eq_some_iff] using h
      rw [← hl, hy, ih.mp hys, List.map_cons]
    · intro h
      rcases l with _ | ⟨y, ys⟩
      · cases h
      · obtain ⟨hy, hys⟩ := List.cons.inj h
        rw [hy, ih.mpr hys]
        rfl

theorem mapM_range_eq_some_iff {f : ℕ → Option α} {n : ℕ} {l : List α} :
    (List.range n).mapM f = some l ↔ l.length = n ∧ ∀ i < n, f i = l[i]? := by
  rw [mapM_eq_some_iff]
  constructor
  · intro h
    have hlength : n = l.length := by simpa using congrArg List.length h
    refine ⟨hlength.symm, fun i hi => ?_⟩
    have hentry := congrArg (·[i]?) h
    simp only [List.getElem?_map, List.getElem?_range hi, Option.map_some] at hentry
    rw [List.getElem?_eq_getElem (hlength ▸ hi)] at hentry ⊢
    exact Option.some.inj hentry
  · rintro ⟨rfl, h⟩
    refine List.ext_getElem? fun i => ?_
    rw [List.getElem?_map, List.getElem?_map]
    rcases Nat.lt_or_ge i l.length with hi | hi
    · rw [List.getElem?_range hi, Option.map_some, h i hi, List.getElem?_eq_getElem hi]
      rfl
    · rw [List.getElem?_eq_none (by simpa using hi), List.getElem?_eq_none hi]
      rfl

variable {rows cols : ℕ} {f g : ℕ → ℕ → Option α} {l : List α}

theorem grid_eq_some_iff :
    grid rows cols f = some l ↔
      l.length = rows * cols ∧ ∀ r < rows, ∀ c < cols, f r c = l[r * cols + c]? := by
  unfold grid
  rw [mapM_range_eq_some_iff]
  refine and_congr_right fun _ => ⟨fun h r hr c hc => ?_, fun h i hi => ?_⟩
  · have hi : r * cols + c < rows * cols := by
      calc r * cols + c < r * cols + cols := by omega
        _ = (r + 1) * cols := (Nat.succ_mul r cols).symm
        _ ≤ rows * cols := Nat.mul_le_mul_right cols hr
    have hentry := h _ hi
    rwa [Nat.mul_comm r cols, Nat.mul_add_div (by omega), Nat.div_eq_of_lt hc, Nat.add_zero,
      Nat.mul_add_mod, Nat.mod_eq_of_lt hc, Nat.mul_comm cols r] at hentry
  · have hcols : 0 < cols := by
      rcases Nat.eq_zero_or_pos cols with rfl | hpos
      · rw [Nat.mul_zero] at hi
        omega
      · exact hpos
    rw [h (i / cols) (Nat.div_lt_of_lt_mul (by rwa [Nat.mul_comm])) (i % cols)
      (Nat.mod_lt i hcols), Nat.div_add_mod']

theorem mapM_isSome {β : Type} {f : β → Option α} {xs : List β} (h : ∀ x ∈ xs, (f x).isSome) :
    ∃ l, xs.mapM f = some l := by
  induction xs with
  | nil => exact ⟨[], rfl⟩
  | cons x xs ih =>
    rw [List.forall_mem_cons] at h
    obtain ⟨y, hy⟩ := Option.isSome_iff_exists.mp h.1
    obtain ⟨ys, hys⟩ := ih h.2
    exact ⟨y :: ys, by rw [List.mapM_cons, hy, hys]; rfl⟩

/-- A grid all of whose entries are there. -/
theorem grid_isSome (h : ∀ r < rows, ∀ c < cols, (f r c).isSome) :
    ∃ l, grid rows cols f = some l := by
  refine mapM_isSome fun i hi => ?_
  rw [List.mem_range] at hi
  have hcols : 0 < cols := Nat.pos_of_ne_zero fun hzero => by simp [hzero] at hi
  exact h _ (Nat.div_lt_of_lt_mul (by rwa [Nat.mul_comm])) _ (Nat.mod_lt i hcols)

theorem grid_congr (h : ∀ r < rows, ∀ c < cols, f r c = g r c) :
    grid rows cols f = grid rows cols g := by
  refine Option.ext fun l => ?_
  rw [grid_eq_some_iff, grid_eq_some_iff]
  refine and_congr_right fun _ => forall₂_congr fun r hr => forall₂_congr fun c hc => ?_
  rw [h r hr c hc]

theorem grid_add {more : ℕ} {l' : List α} (h : grid rows cols f = some l)
    (h' : grid more cols (fun r => f (rows + r)) = some l') :
    grid (rows + more) cols f = some (l ++ l') := by
  obtain ⟨hlength, hentry⟩ := grid_eq_some_iff.mp h
  obtain ⟨hlength', hentry'⟩ := grid_eq_some_iff.mp h'
  refine grid_eq_some_iff.mpr ⟨?_, fun r hr c hc => ?_⟩
  · rw [List.length_append, hlength, hlength', Nat.add_mul]
  · rcases Nat.lt_or_ge r rows with hlt | hge
    · have hinside : r * cols + c < l.length := by
        calc r * cols + c < (r + 1) * cols := by rw [Nat.succ_mul]; omega
          _ ≤ rows * cols := Nat.mul_le_mul_right cols hlt
          _ = l.length := hlength.symm
      rw [List.getElem?_append_left hinside, hentry r hlt c hc]
    · obtain ⟨k, rfl⟩ := Nat.exists_eq_add_of_le hge
      have hbehind : l.length ≤ (rows + k) * cols + c := by
        rw [hlength, Nat.add_mul, Nat.add_assoc]
        exact Nat.le_add_right _ _
      rw [List.getElem?_append_right hbehind, hentry' k (by omega) c hc, hlength, Nat.add_mul,
        Nat.add_assoc, Nat.add_sub_cancel_left]

end Grid
