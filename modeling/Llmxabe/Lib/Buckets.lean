/-
A counting sort into padded runs.

The numbers below `m` are sorted by a key below `n`: `bucket key m e` are those
with key `e`, ascending, and `runs` is one list for each key, its bucket and then
fillers up to a length that is fixed beforehand.  Writing one more number where
its run has its first filler makes the runs of one number more (`runs_place`), so
an array that is written this way holds the runs, joined.

`foldl_modify_getElem?` reads off a table what is added to one of its rows.
-/
import Mathlib.Tactic

namespace Buckets

variable {α β : Type}

/-- The numbers below `m` with a key. -/
def bucket (key : ℕ → ℕ) (m e : ℕ) : List ℕ := (List.range m).filter fun i => key i = e

/-- A bucket with fillers behind it. -/
def run (key runLength : ℕ → ℕ) (filler m e : ℕ) : List ℕ :=
  bucket key m e ++ List.replicate (runLength e - (bucket key m e).length) filler

/-- The padded buckets of all keys below `n`. -/
def runs (key runLength : ℕ → ℕ) (filler n m : ℕ) : List (List ℕ) :=
  (List.range n).map (run key runLength filler m)

variable {key runLength : ℕ → ℕ} {filler n m e i : ℕ}

theorem mem_bucket : i ∈ bucket key m e ↔ i < m ∧ key i = e := by
  rw [bucket, List.mem_filter, List.mem_range, decide_eq_true_eq]

theorem bucket_succ : bucket key (m + 1) e = bucket key m e ++ if key m = e then [m] else [] := by
  rw [bucket, List.range_succ, List.filter_append, List.filter_singleton, bucket]
  by_cases h : key m = e <;> simp [h]

theorem bucket_nodup : (bucket key m e).Nodup := List.nodup_range.filter _

/-- The buckets hold each number once. -/
theorem flatMap_bucket_perm (hkey : ∀ i < m, key i < n) :
    ((List.range n).flatMap (bucket key m)).Perm (List.range m) := by
  refine (List.perm_ext_iff_of_nodup ?_ List.nodup_range).mpr fun i => ?_
  · refine List.nodup_flatMap.mpr ⟨fun e _ => bucket_nodup, ?_⟩
    refine List.nodup_range.imp fun {e e'} hne i hi hi' => ?_
    exact hne ((mem_bucket.mp hi).2.symm.trans (mem_bucket.mp hi').2)
  · rw [List.mem_flatMap, List.mem_range]
    constructor
    · rintro ⟨e, -, hi⟩
      exact (mem_bucket.mp hi).1
    · intro hi
      exact ⟨key i, List.mem_range.mpr (hkey i hi), mem_bucket.mpr ⟨hi, rfl⟩⟩

theorem run_length (hfit : (bucket key m e).length ≤ runLength e) :
    (run key runLength filler m e).length = runLength e := by
  rw [run, List.length_append, List.length_replicate]
  omega

/-- An element set in one of several joined lists. -/
theorem flatten_set {segments : List (List α)} {segment : List α} {e j : ℕ}
    (hsegment : segments[e]? = some segment) (hj : j < segment.length) (a : α) :
    segments.flatten.set ((segments.take e).flatten.length + j) a =
      (segments.set e (segment.set j a)).flatten := by
  induction segments generalizing e with
  | nil => cases hsegment
  | cons first segments ih =>
    cases e with
    | zero =>
      obtain rfl := Option.some.inj hsegment
      rw [List.flatten_cons, List.take_zero, List.flatten_nil, List.length_nil, Nat.zero_add,
        List.set_append_left _ _ hj, List.set_cons_zero, List.flatten_cons]
    | succ e =>
      rw [List.getElem?_cons_succ] at hsegment
      rw [List.flatten_cons, List.take_succ_cons, List.flatten_cons, List.length_append,
        Nat.add_assoc, List.set_append_right _ _ (Nat.le_add_right _ _), Nat.add_sub_cancel_left,
        ih hsegment, List.set_cons_succ, List.flatten_cons]

/-- An element of joined lists is one of one of them. -/
theorem exists_of_flatten {segments : List (List α)} {i : ℕ} {a : α}
    (h : segments.flatten[i]? = some a) :
    ∃ e segment j, segments[e]? = some segment ∧ segment[j]? = some a ∧
      i = (segments.take e).flatten.length + j := by
  induction segments generalizing i with
  | nil => cases h
  | cons first segments ih =>
    rw [List.flatten_cons] at h
    rcases Nat.lt_or_ge i first.length with hlt | hge
    · rw [List.getElem?_append_left hlt] at h
      exact ⟨0, first, i, rfl, h, by rw [List.take_zero, List.flatten_nil, List.length_nil,
        Nat.zero_add]⟩
    · rw [List.getElem?_append_right hge] at h
      obtain ⟨e, segment, j, hsegment, hj, hi⟩ := ih h
      refine ⟨e + 1, segment, j, by rwa [List.getElem?_cons_succ], hj, ?_⟩
      rw [List.take_succ_cons, List.flatten_cons, List.length_append]
      omega

/-- Where a run starts. -/
theorem take_runs_length (hfit : ∀ e < n, (bucket key m e).length ≤ runLength e) (he : e ≤ n) :
    ((runs key runLength filler n m).take e).flatten.length =
      ((List.range e).map runLength).sum := by
  rw [runs, ← List.map_take, List.take_range, Nat.min_eq_left he, List.length_flatten, List.map_map]
  congr 1
  refine List.map_congr_left fun e' he' => ?_
  have := List.mem_range.mp he'
  exact run_length (hfit e' (by omega))

/-- The place of the next number of a run. -/
theorem runs_place (filler : ℕ) (hkey : key m < n) (hfit : (bucket key m (key m)).length < runLength (key m)) :
    (runs key runLength filler n m).flatten.set
        (((runs key runLength filler n m).take (key m)).flatten.length +
          (bucket key m (key m)).length) m =
      (runs key runLength filler n (m + 1)).flatten := by
  have hrun : (runs key runLength filler n m)[key m]? =
      some (run key runLength filler m (key m)) := by
    rw [runs, List.getElem?_map, List.getElem?_range hkey]
    rfl
  rw [flatten_set hrun (by rw [run_length hfit.le]; exact hfit)]
  congr 1
  refine List.ext_getElem? fun e => ?_
  rw [List.getElem?_set, runs, runs, List.getElem?_map, List.getElem?_map, List.length_map,
    List.length_range]
  by_cases he : key m = e
  · -- the run the number goes to
    subst he
    rw [if_pos rfl, if_pos hkey, List.getElem?_range hkey, Option.map_some, run, run, bucket_succ,
      if_pos rfl, List.set_append_right _ _ (Nat.le_refl _), Nat.sub_self]
    obtain ⟨room, hroom⟩ := Nat.exists_eq_add_of_lt hfit
    have hbefore : runLength (key m) - (bucket key m (key m)).length = room + 1 := by omega
    have hafter : runLength (key m) - (bucket key m (key m) ++ [m]).length = room := by
      rw [List.length_append, List.length_singleton]
      omega
    rw [hbefore, hafter, List.replicate_succ, List.set_cons_zero, List.append_assoc,
      List.singleton_append]
  · rw [if_neg he]
    have hsame : run key runLength filler (m + 1) e = run key runLength filler m e := by
      rw [run, run, bucket_succ, if_neg he, List.append_nil]
    rcases Nat.lt_or_ge e n with hlt | hge
    · rw [List.getElem?_range hlt, Option.map_some, Option.map_some, hsame]
    · rw [List.getElem?_eq_none (by rwa [List.length_range])]
      rfl

/-- The fillers aside, the runs hold each number once. -/
theorem filter_runs (runLength : ℕ → ℕ) (hfiller : m ≤ filler) :
    (runs key runLength filler n m).flatten.filter (· ≠ filler) =
      (List.range n).flatMap (bucket key m) := by
  have hrun : ∀ e, (run key runLength filler m e).filter (· ≠ filler) = bucket key m e := by
    intro e
    rw [run, List.filter_append]
    have hreal : (bucket key m e).filter (· ≠ filler) = bucket key m e := by
      refine List.filter_eq_self.mpr fun i hi => decide_eq_true ?_
      have := (mem_bucket.mp hi).1
      omega
    have hfillers : (List.replicate (runLength e - (bucket key m e).length) filler).filter
        (· ≠ filler) = [] := by
      refine List.filter_eq_nil_iff.mpr fun i hi => ?_
      rw [List.eq_of_mem_replicate hi]
      simp
    rw [hreal, hfillers, List.append_nil]
  rw [runs, List.filter_flatten, List.map_map, List.flatMap_def]
  congr 1
  exact List.map_congr_left fun e _ => hrun e

theorem length_bucket_mono {m' : ℕ} (hle : m ≤ m') :
    (bucket key m e).length ≤ (bucket key m' e).length :=
  ((List.range_sublist.mpr hle).filter _).length_le

/-- One more number counted, modulo a word size that its count does not reach. -/
theorem modify_count {M : ℕ} (hsmall : (bucket key (m + 1) (key m)).length < M) :
    ((List.range n).map fun e => (bucket key m e).length).modify (key m) (fun c => (c + 1) % M) =
      (List.range n).map fun e => (bucket key (m + 1) e).length := by
  refine List.ext_getElem? fun e => ?_
  rw [List.getElem?_modify, List.getElem?_map, List.getElem?_map]
  rcases Nat.lt_or_ge e n with hlt | hge
  · rw [List.getElem?_range hlt, Option.map_some, Option.map_some, bucket_succ]
    by_cases he : key m = e
    · subst he
      rw [bucket_succ, if_pos rfl, List.length_append, List.length_singleton] at hsmall
      simp only [if_true, List.length_append, List.length_singleton, Option.map_eq_map,
        Option.map_some, Nat.mod_eq_of_lt hsmall]
    · simp only [he, if_false, List.append_nil, Option.map_eq_map, Option.map_some]
  · rw [List.getElem?_eq_none (by rwa [List.length_range])]
    rfl

theorem count_zero :
    (List.range n).map (fun e => (bucket key 0 e).length) = List.replicate n 0 := by
  refine List.ext_getElem (by simp) fun i hi _ => ?_
  simp [bucket]

/-- Counting the keys, modulo a word size that no count reaches. -/
theorem foldl_count {M : ℕ} (hsmall : ∀ e, (bucket key m e).length < M) :
    (List.range m).foldl (fun counts i => counts.modify (key i) fun c => (c + 1) % M)
        (List.replicate n 0) =
      (List.range n).map fun e => (bucket key m e).length := by
  induction m with
  | zero => exact count_zero.symm
  | succ m ih =>
    rw [List.range_succ, List.foldl_append,
      ih fun e => (length_bucket_mono (Nat.le_succ m)).trans_lt (hsmall e)]
    exact modify_count (hsmall (key m))

/-- The last of several values that is set, if only one is. -/
theorem foldl_set_unique {P : ℕ → Prop} [DecidablePred P] {f : ℕ → α} {b : α} (he : e < n)
    (hP : P e) (hunique : ∀ e' < n, P e' → e' = e) :
    (List.range n).foldl (fun b e' => if P e' then f e' else b) b = f e := by
  induction n with
  | zero => omega
  | succ n ih =>
    rw [List.range_succ, List.foldl_append, List.foldl_cons, List.foldl_nil]
    by_cases hn : P n
    · rw [if_pos hn, hunique n (Nat.lt_succ_self n) hn]
    · rw [if_neg hn]
      have hlt : e < n := by
        by_contra hge
        obtain rfl : e = n := by omega
        exact hn hP
      exact ih hlt fun e' he' => hunique e' (by omega)

/-! ### Adding to the rows of a table -/

/-- One row of a table after additions that each go to the row of their key. -/
theorem foldl_modify_getElem? (key : ℕ → ℕ) (g : ℕ → β → β) (ids : List ℕ) (out : List β) (t : ℕ) :
    (ids.foldl (fun out i => out.modify (key i) (g i)) out)[t]? =
      (out[t]?).map fun row => (ids.filter fun i => key i = t).foldl (fun row i => g i row) row := by
  induction ids generalizing out with
  | nil => simp
  | cons i ids ih =>
    rw [List.foldl_cons, ih, List.getElem?_modify, List.filter_cons]
    by_cases hi : key i = t
    · simp [hi, Option.map_map, Function.comp_def]
    · simp [hi]

/-- A fold whose steps all succeed. -/
theorem foldlM_eq_some {f : β → α → Option β} {g : β → α → β} {xs : List α} {b : β}
    (h : ∀ b, ∀ a ∈ xs, f b a = some (g b a)) : xs.foldlM f b = some (xs.foldl g b) := by
  induction xs generalizing b with
  | nil => rfl
  | cons a xs ih =>
    rw [List.foldlM_cons, h b a List.mem_cons_self]
    exact ih fun b a ha => h b a (List.mem_cons_of_mem _ ha)

theorem mapM_eq_some {f : α → Option β} {g : α → β} {xs : List α}
    (h : ∀ a ∈ xs, f a = some (g a)) : xs.mapM f = some (xs.map g) := by
  induction xs with
  | nil => rfl
  | cons a xs ih =>
    rw [List.mapM_cons, h a List.mem_cons_self, ih fun a' h' => h a' (List.mem_cons_of_mem a h')]
    rfl

/-- The numbers with one quotient. -/
theorem filter_range_div {portions size t : ℕ} (ht : t < portions) :
    (List.range (portions * size)).filter (fun i => i / size = t) = List.range' (t * size) size := by
  have hpart : ∀ k, ∀ i ∈ List.range' (k * size) size, i / size = k := by
    intro k i hi
    obtain ⟨j, hj, rfl⟩ := List.mem_range'.mp hi
    rw [Nat.one_mul, Nat.mul_comm, Nat.mul_add_div (by omega), Nat.div_eq_of_lt hj, Nat.add_zero]
  induction portions with
  | zero => omega
  | succ portions ih =>
    rw [Nat.succ_mul, List.range_add, ← List.range'_eq_map_range, List.filter_append]
    rcases Nat.lt_succ_iff_lt_or_eq.mp ht with hlt | rfl
    · have hlast : (List.range' (portions * size) size).filter (fun i => i / size = t) = [] := by
        refine List.filter_eq_nil_iff.mpr fun i hi => ?_
        rw [hpart portions i hi, decide_eq_true_eq]
        omega
      rw [ih hlt, hlast, List.append_nil]
    · have hfirst : (List.range (t * size)).filter (fun i => i / size = t) = [] := by
        refine List.filter_eq_nil_iff.mpr fun i hi => ?_
        have := Nat.div_lt_of_lt_mul (Nat.mul_comm t size ▸ List.mem_range.mp hi)
        rw [decide_eq_true_eq]
        omega
      have hall : (List.range' (t * size) size).filter (fun i => i / size = t) =
          List.range' (t * size) size :=
        List.filter_eq_self.mpr fun i hi => decide_eq_true (hpart t i hi)
      rw [hfirst, hall, List.nil_append]

/-- A fold over a list, as one over its indices. -/
theorem foldl_range_getElem? (f : β → α → β) (xs : List α) (b : β) :
    (List.range xs.length).foldl (fun b i => match xs[i]? with
      | some a => f b a
      | none => b) b = xs.foldl f b := by
  induction xs using List.reverseRecOn with
  | nil => rfl
  | append_singleton xs a ih =>
    rw [List.length_append, List.length_singleton, List.range_succ, List.foldl_append,
      List.foldl_append, ← ih]
    simp only [List.foldl_cons, List.foldl_nil, List.getElem?_concat_length]
    refine congrArg (f · a) (List.foldl_ext _ _ _ fun b i hi => ?_)
    rw [List.getElem?_append_left (List.mem_range.mp hi)]

/-- A fold over portions of one length is a fold over all of them. -/
theorem foldl_range_mul (f : β → ℕ → β) (portions size : ℕ) (b : β) :
    (List.range portions).foldl (fun b k => (List.range' (k * size) size).foldl f b) b =
      (List.range (portions * size)).foldl f b := by
  induction portions with
  | zero => rw [Nat.zero_mul]; rfl
  | succ portions ih =>
    rw [List.range_succ, List.foldl_append, ih, Nat.succ_mul, List.range_add, List.foldl_append,
      List.foldl_cons, List.foldl_nil, List.range'_eq_map_range]

end Buckets
