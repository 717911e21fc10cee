/-
Causal attention for one query head (`xabe-kernels/src/attention.rs`), over two passes and
streaming.

Numbers are those of an ordered field, `exp` and `sqrt` any functions; the theorem asks
of `exp` that it be positive and take sums to products.  A matrix of rows carries its
sizes in its type, and a running maximum of `none` is negative infinity.
-/
import Llmxabe.Lib.Softmax
import Mathlib.Analysis.SpecialFunctions.Exp
import Mathlib.Data.Matrix.Mul

open Matrix Softmax

namespace Attention

variable {K : Type} [Field K] [LinearOrder K] (exp sqrt : K → K) {seqLen headDim : ℕ}

/-- A row for each position. -/
abbrev Rows (K : Type) (seqLen headDim : ℕ) := Fin seqLen → Fin headDim → K

/-- The factor on every score. -/
def scale (headDim : ℕ) : K := 1 / sqrt headDim

/-- The scaled product of a query and a key. -/
def score (q k : Rows K seqLen headDim) (t i : Fin seqLen) : K := q t ⬝ᵥ k i * scale sqrt headDim

/-- The positions that `t` attends to, in order. -/
def window (t : Fin seqLen) : List (Fin seqLen) := (List.finRange seqLen).take (t + 1)

/-- The greater of a maximum so far and a score. -/
def newMax (running : Option K) (score : K) : K :=
  match running with
  | none => score
  | some m => max m score

/-- The maximum of the scores, found from left to right. -/
def maxScore (scores : List K) : Option K :=
  scores.foldl (fun running score => some (newMax running score)) none

/-! ### Two passes -/

/-- Weights of a window; its maximum is there, since the window is never empty. -/
def softmaxWeights (scores : List K) : List K :=
  let exps := scores.map fun score => exp (score - (maxScore scores).getD 0)
  exps.map fun e => e / exps.sum

/-- Softmax over the whole window, then the weighted sum of its values. -/
def causalAttentionNaive (q k v : Rows K seqLen headDim) : Rows K seqLen headDim := fun t d =>
  let weights := softmaxWeights exp ((window t).map (score sqrt q k t))
  ((weights.zip (window t)).map fun p => p.1 * v p.2 d).sum

/-! ### Streaming -/

/-- Maximum, normaliser and accumulator so far. -/
structure Running (K : Type) (headDim : ℕ) where
  runningMax : Option K
  runningSum : K
  acc : Fin headDim → K

namespace Running

/-- Before the first key. -/
def start : Running K headDim := ⟨none, 0, fun _ => 0⟩

/-- The factor into the frame of a new maximum. -/
def correction (s : Running K headDim) (m : K) : K :=
  match s.runningMax with
  | none => 0
  | some old => exp (old - m)

/-- One more key. -/
def fold (s : Running K headDim) (score : K) (value : Fin headDim → K) : Running K headDim :=
  let m := newMax s.runningMax score
  let weight := exp (score - m)
  ⟨some m, s.runningSum * s.correction exp m + weight,
    fun d => s.acc d * s.correction exp m + weight * value d⟩

end Running

/-- The state behind the window of `t`. -/
def stream (q k v : Rows K seqLen headDim) (t : Fin seqLen) : Running K headDim :=
  (window t).foldl (fun s i => s.fold exp (score sqrt q k t i) (v i)) Running.start

/-- The accumulator over its normaliser, once the window has passed. -/
def causalAttentionStreaming (q k v : Rows K seqLen headDim) : Rows K seqLen headDim := fun t d =>
  (stream exp sqrt q k v t).acc d / (stream exp sqrt q k v t).runningSum

/-! ### The invariant of the stream -/

/-- The scores and values of some positions. -/
def keysAt (q k v : Rows K seqLen headDim) (t : Fin seqLen) (l : List (Fin seqLen)) :
    List (K × (Fin headDim → K)) :=
  l.map fun i => (score sqrt q k t i, v i)

variable {exp sqrt}

namespace Running

/-- The state has seen the keys: its maximum is theirs, and the sums are taken in its frame. -/
structure Tracks (exp : K → K) (s : Running K headDim) (l : List (K × (Fin headDim → K))) :
    Prop where
  max : s.runningMax = maxScore (l.map Prod.fst)
  sum : ∀ m, s.runningMax = some m → s.runningSum = mass exp m l
  acc : ∀ m, s.runningMax = some m → s.acc = moment exp m l
  empty : s.runningMax = none → l = []

theorem tracks_start : (start : Running K headDim).Tracks exp [] where
  max := rfl
  sum _ h := nomatch h
  acc _ h := nomatch h
  empty _ := rfl

/-- The sums seen so far, in the frame of any later maximum. -/
theorem Tracks.corrected (h : IsExp exp) {s : Running K headDim}
    {l : List (K × (Fin headDim → K))} (hs : s.Tracks exp l) (m : K) :
    s.runningSum * s.correction exp m = mass exp m l ∧
      s.correction exp m • s.acc = moment exp m l := by
  unfold correction
  cases hmax : s.runningMax with
  | none =>
    obtain rfl := hs.empty hmax
    rw [Softmax.mass_nil, moment_nil]
    exact ⟨mul_zero _, zero_smul K _⟩
  | some old =>
    rw [hs.sum old hmax, hs.acc old hmax, mass_frame old l h m, moment_frame old l h m, mul_comm]
    exact ⟨rfl, rfl⟩

/-- One more key keeps the invariant. -/
theorem Tracks.fold (h : IsExp exp) {s : Running K headDim} {l : List (K × (Fin headDim → K))}
    (hs : s.Tracks exp l) (score : K) (value : Fin headDim → K) :
    (s.fold exp score value).Tracks exp (l ++ [(score, value)]) := by
  obtain ⟨hsum, hacc⟩ := hs.corrected h (newMax s.runningMax score)
  refine ⟨?_, ?_, ?_, fun hnone => nomatch hnone⟩
  · rw [List.map_append, maxScore, List.foldl_append, ← maxScore, ← hs.max]
    rfl
  · rintro m ⟨⟩
    rw [mass_concat, ← hsum]
    rfl
  · rintro m ⟨⟩
    rw [moment_concat, ← hacc]
    funext d
    show s.acc d * _ + _ * value d = _ * s.acc d + _ * value d
    rw [mul_comm]

end Running

/-- The invariant over a stretch of positions. -/
theorem foldl_tracks (h : IsExp exp) (q k v : Rows K seqLen headDim) (t : Fin seqLen)
    (l : List (Fin seqLen)) :
    (l.foldl (fun s i => s.fold exp (score sqrt q k t i) (v i)) Running.start).Tracks exp
      (keysAt sqrt q k v t l) := by
  induction l using List.reverseRecOn with
  | nil => exact Running.tracks_start
  | append_singleton l i ih =>
    rw [List.foldl_append, keysAt, List.map_append]
    exact ih.fold h _ _

theorem mem_window {t i : Fin seqLen} (h : i ∈ window t) : i ≤ t := by
  obtain ⟨j, hj, rfl⟩ := List.mem_iff_getElem.mp h
  rw [window, List.length_take] at hj
  rw [Fin.le_iff_val_le_val]
  simp only [window, List.getElem_take, List.getElem_finRange, Fin.cast_mk]
  omega

theorem window_ne_nil (t : Fin seqLen) : window t ≠ [] := by
  rw [← List.length_pos_iff, window, List.length_take, List.length_finRange]
  have := t.isLt
  omega

/-- Weights of positions, applied at these positions. -/
theorem sum_zip_map {R ι : Type} [Semiring R] (l : List ι) (f g : ι → R) :
    ((((l.map f)).zip l).map fun p => p.1 * g p.2).sum = (l.map fun i => f i * g i).sum := by
  induction l with
  | nil => rfl
  | cons i l ih =>
    rw [List.map_cons, List.zip_cons_cons, List.map_cons, List.sum_cons, ih, List.map_cons,
      List.sum_cons]

/-- Two passes give the moment over the mass, in the frame of the greatest score. -/
theorem naive_eq (q k v : Rows K seqLen headDim) (t : Fin seqLen) (d : Fin headDim) :
    causalAttentionNaive exp sqrt q k v t d =
      moment exp ((maxScore ((keysAt sqrt q k v t (window t)).map Prod.fst)).getD 0)
          (keysAt sqrt q k v t (window t)) d /
        mass exp ((maxScore ((keysAt sqrt q k v t (window t)).map Prod.fst)).getD 0)
          (keysAt sqrt q k v t (window t)) := by
  have hfst : (keysAt sqrt q k v t (window t)).map Prod.fst =
      (window t).map (score sqrt q k t) := by
    rw [keysAt, List.map_map]
    rfl
  rw [hfst]
  simp only [causalAttentionNaive, softmaxWeights, List.map_map]
  refine (sum_zip_map _ _ fun i => v i d).trans ?_
  rw [moment, Softmax.mass, keysAt, List.map_map, List.map_map, Pi.list_sum_apply, List.map_map,
    div_eq_mul_inv, ← List.sum_map_mul_right]
  congr 1
  refine List.map_congr_left fun i _ => ?_
  simp only [Function.comp_apply, Pi.smul_apply, smul_eq_mul, div_eq_mul_inv]
  exact mul_right_comm _ _ _

variable (sqrt) in
/-- Behind the window, the stream holds the sums in the frame of the greatest score. -/
theorem stream_eq (h : IsExp exp) (q k v : Rows K seqLen headDim) (t : Fin seqLen) :
    let keys := keysAt sqrt q k v t (window t)
    let m := (maxScore (keys.map Prod.fst)).getD 0
    (stream exp sqrt q k v t).runningSum = mass exp m keys ∧
      (stream exp sqrt q k v t).acc = moment exp m keys := by
  intro keys m
  have htracks : (stream exp sqrt q k v t).Tracks exp keys := foldl_tracks h q k v t (window t)
  cases hmax : (stream exp sqrt q k v t).runningMax with
  | none =>
    have hempty : keys = [] := htracks.empty hmax
    exact absurd (List.map_eq_nil_iff.mp hempty) (window_ne_nil t)
  | some old =>
    obtain rfl : m = old := by
      have hm := htracks.max
      rw [hmax] at hm
      show (maxScore (keys.map Prod.fst)).getD 0 = old
      rw [← hm]
      rfl
    exact ⟨htracks.sum m hmax, htracks.acc m hmax⟩

/-- One pass gives what two passes give, divides by no zero, and looks at no later position. -/
theorem streaming_eq_naive [IsStrictOrderedRing K] (h : IsExp exp) (sqrt : K → K)
    (q k v : Rows K seqLen headDim) :
    causalAttentionStreaming exp sqrt q k v = causalAttentionNaive exp sqrt q k v ∧
      (∀ t, (stream exp sqrt q k v t).runningSum ≠ 0) ∧
      ∀ t q' k' v', (∀ i ≤ t, q' i = q i ∧ k' i = k i ∧ v' i = v i) →
        causalAttentionStreaming exp sqrt q' k' v' t = causalAttentionStreaming exp sqrt q k v t := by
  refine ⟨?_, fun t => ?_, fun t q' k' v' hsame => ?_⟩
  · funext t d
    obtain ⟨hsum, hacc⟩ := stream_eq sqrt h q k v t
    rw [naive_eq, causalAttentionStreaming, hsum, hacc]
  · obtain ⟨hsum, -⟩ := stream_eq sqrt h q k v t
    rw [hsum]
    refine (mass_pos _ _ h fun hempty => ?_).ne'
    exact window_ne_nil t (List.map_eq_nil_iff.mp hempty)
  · have hstream : stream exp sqrt q' k' v' t = stream exp sqrt q k v t := by
      refine List.foldl_ext _ _ _ fun s i hi => ?_
      obtain ⟨-, hk, hv⟩ := hsame i (mem_window hi)
      rw [score, score, (hsame t le_rfl).1, hk, hv]
    funext d
    rw [causalAttentionStreaming, causalAttentionStreaming, hstream]

theorem streaming_eq_naive_real :
    causalAttentionStreaming Real.exp Real.sqrt ![![1, 0], ![0, 2]] ![![1, 1], ![3, 0]]
        ![![5, -5], ![1, 2]] =
      causalAttentionNaive Real.exp Real.sqrt ![![1, 0], ![0, 2]] ![![1, 1], ![3, 0]]
        ![![5, -5], ![1, 2]] :=
  (streaming_eq_naive ⟨Real.exp_pos, Real.exp_add⟩ Real.sqrt _ _ _).1

end Attention
