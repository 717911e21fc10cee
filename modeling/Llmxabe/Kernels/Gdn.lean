/-
Gated DeltaNet for one head, token by token (`gdn/recurrent.rs`) and a chunk at a
time (`gdn/chunked.rs`).

Numbers are those of a field; `exp` takes sums to products and zero to one, `sqrt` is any
function.  The asserted lengths are part of the tokens and of the state, and a buffer
that is filled entry by entry is the function of its entries.

A chunk and the recurrence over it are both the delta rule on the same stretch: the
recurrence by definition (`recurrent_eq`), the chunk because the vectors it solves for
are the corrections (`solution_eq`).

* `chunkedForward_eq`: both forms return the same, wherever the chunks end.
-/
import Llmxabe.Kernels.Tri
import Llmxabe.Lib.DeltaRule
import Mathlib.Algebra.Group.AddChar
import Mathlib.Analysis.SpecialFunctions.Exp
import Mathlib.Analysis.SpecialFunctions.Sqrt

open Matrix Tri

namespace Gdn

/-- `state[v * head_dim + k]`. -/
abbrev GdnState (K : Type) (headDim : ℕ) : Type := Matrix (Fin headDim) (Fin headDim) K

/-- The inputs of one head for one token. -/
structure Token (K : Type) (headDim : ℕ) where
  q : Fin headDim → K
  k : Fin headDim → K
  v : Fin headDim → K
  logDecay : K
  beta : K

variable {K : Type} [Field K] [LinearOrder K] (exp : AddChar K K) (sqrt : K → K) {headDim : ℕ}

/-- The state before the first token. -/
def zeroState (headDim : ℕ) : GdnState K headDim := 0

/-- `x.iter().zip(y).map(|(a, b)| a * b).sum()`. -/
def dot {n : ℕ} (x y : Fin n → K) : K := (List.ofFn fun i => x i * y i).sum

/-- Scale to unit length; short vectors are divided by `eps` at least. -/
def l2Normalize (x : Fin headDim → K) (eps : K) : Fin headDim → K :=
  let sumSq := (List.ofFn fun i => x i * x i).sum
  let invNorm := 1 / max (sqrt sumSq) eps
  fun i => x i * invNorm

/-- The factor on the query. -/
def outputScale (headDim : ℕ) : K := 1 / sqrt headDim

/-- The floor of the norm. -/
def EPS : K := 1 / 1000000

section Recurrent

/-- One step of the gated delta rule: its output and the next state. -/
def recurrentStep (state : GdnState K headDim) (qScaled k v : Fin headDim → K)
    (logDecay beta : K) : (Fin headDim → K) × GdnState K headDim :=
  let decay := exp logDecay
  let decayed : GdnState K headDim := fun vi ki => state vi ki * decay
  let vcorr : Fin headDim → K := fun vi => beta * (v vi - dot (decayed vi) k)
  let updated : GdnState K headDim := fun vi ki => decayed vi ki + vcorr vi * k ki
  (fun vi => dot (updated vi) qScaled, updated)

/-- `q` normalised and scaled. -/
def qScaled (token : Token K headDim) : Fin headDim → K :=
  fun i => l2Normalize sqrt token.q EPS i * outputScale sqrt headDim

/-- The key, normalised. -/
def kNorm (token : Token K headDim) : Fin headDim → K := l2Normalize sqrt token.k EPS

/-- One round of the loop over the tokens. -/
def recurrentRound (acc : List (Fin headDim → K) × GdnState K headDim) (token : Token K headDim) :
    List (Fin headDim → K) × GdnState K headDim :=
  let (out, state) := recurrentStep exp acc.2 (qScaled sqrt token) (kNorm sqrt token) token.v
    token.logDecay token.beta
  (acc.1 ++ [out], state)

/-- Token by token from a state: the outputs and the last state. -/
def recurrentForward (tokens : List (Token K headDim)) (initialState : Option (GdnState K headDim)) :
    List (Fin headDim → K) × GdnState K headDim :=
  tokens.foldl (recurrentRound exp sqrt) ([], initialState.getD (zeroState headDim))

end Recurrent

section Chunked

/-- The cumulative log-decay of a chunk through its token `t`. -/
def gcum (chunk : List (Token K headDim)) (t : ℕ) : K :=
  (chunk.take (t + 1)).foldl (fun running token => running + token.logDecay) 0

variable (chunk : List (Token K headDim)) (state : GdnState K headDim)

/-- `k_norm`, flattened. -/
def kRows : Matrix (Fin chunk.length) (Fin headDim) K := fun t => kNorm sqrt (chunk.get t)

/-- `q_scaled`, flattened. -/
def qRows : Matrix (Fin chunk.length) (Fin headDim) K := fun t => qScaled sqrt (chunk.get t)

/-- `W'[t] = beta_t * (v_t - lambda_t * (S_in k_t))`. -/
def rightSide : Matrix (Fin chunk.length) (Fin headDim) K :=
  let sInDotK := matmul (kRows sqrt chunk) state.transpose
  fun t vi =>
    let predicted := exp (gcum chunk t) * sInDotK t vi
    (chunk.get t).beta * ((chunk.get t).v vi - predicted)

/-- `A'[t][i] = beta_t * (k_i . k_t) * lambda_t/lambda_i` for `i < t`. -/
def system : Matrix (Fin chunk.length) (Fin chunk.length) K := fun t i =>
  if i < t then
    (chunk.get t).beta * dot (kRows sqrt chunk i) (kRows sqrt chunk t) *
      exp (gcum chunk t - gcum chunk i)
  else 0

/-- `P'[t][i] = (k_i . q_t) * lambda_t/lambda_i` for `i <= t`. -/
def attention : Matrix (Fin chunk.length) (Fin chunk.length) K := fun t i =>
  if i ≤ t then
    dot (kRows sqrt chunk i) (qRows sqrt chunk t) * exp (gcum chunk t - gcum chunk i)
  else 0

/-- `U'`. -/
def solution : Matrix (Fin chunk.length) (Fin headDim) K :=
  matmul (invertUnitLowerTriangular (system exp sqrt chunk)) (rightSide exp sqrt chunk state)

/-- What a chunk outputs: the part of its own tokens and that of the state before it. -/
def chunkOutputs : List (Fin headDim → K) :=
  let oIntra := matmul (attention exp sqrt chunk) (solution exp sqrt chunk state)
  let oInter := matmul (qRows sqrt chunk) state.transpose
  List.ofFn fun t vi => exp (gcum chunk t) * oInter t vi + oIntra t vi

/-- The state after a chunk. -/
def chunkState : GdnState K headDim :=
  let last := chunk.length - 1
  let uCarried : Matrix (Fin chunk.length) (Fin headDim) K := fun i vi =>
    solution exp sqrt chunk state i vi * exp (gcum chunk last - gcum chunk i)
  let sumTerm := matmul uCarried.transpose (kRows sqrt chunk)
  fun vi ki => exp (gcum chunk last) * state vi ki + sumTerm vi ki

/-- The rounds of `while start < seq_len`. -/
def chunkedLoop (chunkLen : ℕ) (hlen : 0 < chunkLen) (tokens : List (Token K headDim))
    (state : GdnState K headDim) : List (Fin headDim → K) × GdnState K headDim :=
  if h : tokens = [] then ([], state)
  else
    let chunk := tokens.take chunkLen
    let rest := chunkedLoop chunkLen hlen (tokens.drop chunkLen) (chunkState exp sqrt chunk state)
    (chunkOutputs exp sqrt chunk state ++ rest.1, rest.2)
termination_by tokens.length
decreasing_by
  have := List.length_pos_iff.mpr h
  rw [List.length_drop]
  omega

/-- `chunk_len` must be non-zero. -/
def chunkedForward (chunkLen : ℕ) (tokens : List (Token K headDim))
    (initialState : Option (GdnState K headDim)) :
    Option (List (Fin headDim → K) × GdnState K headDim) :=
  if hlen : 0 < chunkLen then
    some (chunkedLoop exp sqrt chunkLen hlen tokens (initialState.getD (zeroState headDim)))
  else none

end Chunked

section Stretch

variable {exp sqrt}

omit [LinearOrder K] in
theorem dot_eq {n : ℕ} (x y : Fin n → K) : dot x y = x ⬝ᵥ y := List.sum_ofFn

/-- A token past the end. -/
def blank : Token K headDim := ⟨0, 0, 0, 0, 0⟩

variable (exp sqrt) (tokens : List (Token K headDim)) (S : GdnState K headDim) {t i : ℕ}

/-- The decay of token `t`. -/
def decayAt (t : ℕ) : K := exp (tokens.getD t blank).logDecay

/-- Its normalised key. -/
def keyAt (t : ℕ) : Fin headDim → K := kNorm sqrt (tokens.getD t blank)

/-- Its gate. -/
def gateAt (t : ℕ) : K := (tokens.getD t blank).beta

/-- Its value. -/
def valueAt (t : ℕ) : Fin headDim → K := (tokens.getD t blank).v

/-- The delta rule on the stretch that the tokens make. -/
def stateAt (t : ℕ) : GdnState K headDim :=
  DeltaRule.state (decayAt exp tokens) (gateAt tokens) (keyAt sqrt tokens) (valueAt tokens) S t

/-- The correction the delta rule makes at token `t`. -/
def corrAt (t : ℕ) : Fin headDim → K :=
  DeltaRule.corr (decayAt exp tokens) (gateAt tokens) (keyAt sqrt tokens) (valueAt tokens) S t

/-- What token `t` reads from the state it leaves. -/
def outputAt (t : ℕ) : Fin headDim → K :=
  stateAt exp sqrt tokens S (t + 1) *ᵥ qScaled sqrt (tokens.getD t blank)

theorem corrAt_system (t : ℕ) : corrAt exp sqrt tokens S t +
    ∑ i ∈ Finset.range t, (gateAt tokens t * (keyAt sqrt tokens i ⬝ᵥ keyAt sqrt tokens t) *
      DeltaRule.ratio (decayAt exp tokens) t i) • corrAt exp sqrt tokens S i =
      gateAt tokens t • (valueAt tokens t -
        DeltaRule.total (decayAt exp tokens) t • (S *ᵥ keyAt sqrt tokens t)) :=
  DeltaRule.correction_system

theorem outputAt_eq (t : ℕ) : outputAt exp sqrt tokens S t =
    DeltaRule.total (decayAt exp tokens) t • (S *ᵥ qScaled sqrt (tokens.getD t blank)) +
      ∑ i ∈ Finset.range (t + 1), (keyAt sqrt tokens i ⬝ᵥ qScaled sqrt (tokens.getD t blank) *
        DeltaRule.ratio (decayAt exp tokens) t i) • corrAt exp sqrt tokens S i :=
  DeltaRule.read_eq _

variable {exp sqrt tokens S}

omit [LinearOrder K] in
/-- One step is one step of the delta rule. -/
theorem recurrentStep_eq (q k v : Fin headDim → K) (logDecay beta : K) :
    recurrentStep exp S q k v logDecay beta =
      (DeltaRule.learn beta k v (exp logDecay • S) *ᵥ q,
        DeltaRule.learn beta k v (exp logDecay • S)) := by
  have hrow : ∀ vi, (fun ki => S vi ki * exp logDecay) = (exp logDecay • S) vi := fun vi =>
    funext fun ki => mul_comm _ _
  have hupdated : (recurrentStep exp S q k v logDecay beta).2 =
      DeltaRule.learn beta k v (exp logDecay • S) := by
    ext vi ki
    show S vi ki * exp logDecay +
      beta * (v vi - dot (fun ki => S vi ki * exp logDecay) k) * k ki = _
    rw [dot_eq, hrow, mul_comm (S vi ki)]
    rfl
  refine Prod.ext ?_ hupdated
  rw [← hupdated]
  funext vi
  exact dot_eq _ _

/-- The recurrence runs the delta rule. -/
theorem recurrent_take (outs : List (Fin headDim → K)) (ht : t ≤ tokens.length) :
    (tokens.take t).foldl (recurrentRound exp sqrt) (outs, S) =
      (outs ++ (List.range t).map (outputAt exp sqrt tokens S), stateAt exp sqrt tokens S t) := by
  induction t with
  | zero =>
    rw [List.take_zero, List.foldl_nil, List.range_zero, List.map_nil, List.append_nil]
    rfl
  | succ t ih =>
    have hget : tokens[t]? = some (tokens.getD t blank) := by
      rw [List.getD_eq_getElem?_getD, List.getElem?_eq_getElem ht, Option.getD_some]
    rw [List.take_add_one, List.foldl_append, ih (Nat.le_of_succ_le ht), hget, Option.toList_some,
      List.foldl_cons, List.foldl_nil, recurrentRound, recurrentStep_eq, List.range_succ,
      List.map_append, ← List.append_assoc]
    rfl

theorem recurrent_eq (outs : List (Fin headDim → K)) :
    tokens.foldl (recurrentRound exp sqrt) (outs, S) =
      (outs ++ (List.range tokens.length).map (outputAt exp sqrt tokens S),
        stateAt exp sqrt tokens S tokens.length) := by
  have h : (tokens.take tokens.length).foldl (recurrentRound exp sqrt) (outs, S) = _ :=
    recurrent_take outs le_rfl
  rwa [List.take_length] at h

end Stretch

section Chunk

variable {exp sqrt} {chunk : List (Token K headDim)} {S : GdnState K headDim} {t i : ℕ}

omit [LinearOrder K] in
theorem exp_sum (s : Finset ℕ) (f : ℕ → K) : exp (∑ m ∈ s, f m) = ∏ m ∈ s, exp (f m) := by
  induction s using Finset.induction_on with
  | empty => rw [Finset.sum_empty, Finset.prod_empty, AddChar.map_zero_eq_one]
  | insert m s hm ih =>
    rw [Finset.sum_insert hm, Finset.prod_insert hm, AddChar.map_add_eq_mul, ih]

omit [LinearOrder K] in
theorem gcum_eq (ht : t < chunk.length) :
    gcum chunk t = ∑ m ∈ Finset.range (t + 1), (chunk.getD m blank).logDecay := by
  induction t with
  | zero =>
    rw [gcum, List.take_add_one, List.take_zero, List.nil_append, List.getElem?_eq_getElem ht]
    simp [ht]
  | succ t ih =>
    have hget : chunk[t + 1]? = some (chunk.getD (t + 1) blank) := by
      rw [List.getD_eq_getElem?_getD, List.getElem?_eq_getElem ht, Option.getD_some]
    rw [gcum, List.take_add_one, List.foldl_append, hget, Finset.sum_range_succ,
      ← ih (Nat.lt_of_succ_lt ht)]
    rfl

omit [LinearOrder K] in
theorem total_eq (ht : t < chunk.length) :
    DeltaRule.total (decayAt exp chunk) t = exp (gcum chunk t) := by
  rw [gcum_eq ht, exp_sum]
  rfl

omit [LinearOrder K] in
/-- The exponential of a difference is the decay in between, not a quotient. -/
theorem ratio_eq (hi : i ≤ t) (ht : t < chunk.length) :
    DeltaRule.ratio (decayAt exp chunk) t i = exp (gcum chunk t - gcum chunk i) := by
  have hsplit : gcum chunk t =
      gcum chunk i + ∑ m ∈ Finset.Ioc i t, (chunk.getD m blank).logDecay := by
    rw [gcum_eq ht, gcum_eq (hi.trans_lt ht), Finset.range_eq_Ico, Finset.range_eq_Ico,
      ← Finset.sum_Ico_consecutive _ (Nat.zero_le _) (Nat.succ_le_succ hi)]
    refine congrArg _ (Finset.sum_congr ?_ fun _ _ => rfl)
    ext m
    rw [Finset.mem_Ico, Finset.mem_Ioc]
    omega
  rw [hsplit, add_sub_cancel_left, exp_sum]
  rfl

omit [LinearOrder K] in
theorem get_eq (j : Fin chunk.length) : chunk.get j = chunk.getD j blank := by
  rw [List.getD_eq_getElem?_getD, List.getElem?_eq_getElem j.isLt, Option.getD_some]
  rfl

theorem kRows_eq (j : Fin chunk.length) : kRows sqrt chunk j = keyAt sqrt chunk j := by
  rw [kRows, get_eq]
  rfl

theorem qRows_eq (j : Fin chunk.length) :
    qRows sqrt chunk j = qScaled sqrt (chunk.getD j blank) := by
  rw [qRows, get_eq]

omit [LinearOrder K] in
/-- A row of a lower triangular product is a sum over the tokens before. -/
theorem sum_below (f : ℕ → K) (ht : t ≤ chunk.length) :
    ∑ j : Fin chunk.length, (if (j : ℕ) < t then f j else 0) = ∑ j ∈ Finset.range t, f j := by
  rw [Fin.sum_univ_eq_sum_range (fun j => if j < t then f j else 0), ← Finset.sum_filter]
  refine Finset.sum_congr ?_ fun _ _ => rfl
  ext j
  rw [Finset.mem_filter, Finset.mem_range, Finset.mem_range]
  exact ⟨And.right, fun h => ⟨h.trans_le ht, h⟩⟩

/-- The corrections of the stretch, as the rows of a matrix. -/
def corrections (exp : AddChar K K) (sqrt : K → K) (chunk : List (Token K headDim))
    (S : GdnState K headDim) : Matrix (Fin chunk.length) (Fin headDim) K :=
  fun t => corrAt exp sqrt chunk S t

theorem lower_system : lower (system exp sqrt chunk) = system exp sqrt chunk := by
  funext t i
  rw [lower, system]
  by_cases hi : i < t
  · rw [if_pos hi]
  · rw [if_neg hi, if_neg hi]

theorem system_corrections :
    (1 + lower (system exp sqrt chunk)) * corrections exp sqrt chunk S =
      rightSide exp sqrt chunk S := by
  rw [lower_system]
  ext t vi
  have hsys : system exp sqrt chunk t ⬝ᵥ (fun i => corrections exp sqrt chunk S i vi) =
      ∑ i ∈ Finset.range t, gateAt chunk t * (keyAt sqrt chunk i ⬝ᵥ keyAt sqrt chunk t) *
        DeltaRule.ratio (decayAt exp chunk) t i * corrAt exp sqrt chunk S i vi := by
    rw [← sum_below _ t.isLt.le, dotProduct]
    refine Finset.sum_congr rfl fun i _ => ?_
    rw [system]
    by_cases hi : i < t
    · have hi' : (i : ℕ) < t := hi
      rw [if_pos hi, if_pos hi', ratio_eq hi'.le t.isLt, dot_eq, kRows_eq, kRows_eq, get_eq]
      rfl
    · have hi' : ¬(i : ℕ) < t := hi
      rw [if_neg hi, if_neg hi', zero_mul]
  have hcorr := congrFun (corrAt_system exp sqrt chunk S t) vi
  rw [Pi.add_apply, Finset.sum_apply] at hcorr
  rw [Matrix.add_mul, Matrix.one_mul, Matrix.add_apply, Matrix.mul_apply]
  show corrAt exp sqrt chunk S t vi + system exp sqrt chunk t ⬝ᵥ
    (fun i => corrections exp sqrt chunk S i vi) = _
  rw [hsys]
  refine hcorr.trans ?_
  rw [total_eq t.isLt, rightSide, matmul_eq]
  show gateAt chunk t * (valueAt chunk t vi - exp (gcum chunk t) * (S vi ⬝ᵥ keyAt sqrt chunk t)) =
    (chunk.get t).beta *
      ((chunk.get t).v vi - exp (gcum chunk t) * (kRows sqrt chunk t ⬝ᵥ S vi))
  rw [kRows_eq, get_eq, dotProduct_comm]
  rfl

/-- Forward substitution finds the corrections. -/
theorem solution_eq : solution exp sqrt chunk S = corrections exp sqrt chunk S := by
  rw [solution, matmul_eq, ← system_corrections, ← Matrix.mul_assoc, invert_mul, Matrix.one_mul]

/-- What the attention matrix sums along a row. -/
theorem attention_row (t : Fin chunk.length) (vi : Fin headDim) :
    attention exp sqrt chunk t ⬝ᵥ (fun i => corrections exp sqrt chunk S i vi) =
      ∑ i ∈ Finset.range (t + 1), keyAt sqrt chunk i ⬝ᵥ qScaled sqrt (chunk.getD t blank) *
        DeltaRule.ratio (decayAt exp chunk) t i * corrAt exp sqrt chunk S i vi := by
  rw [← sum_below _ t.isLt, dotProduct]
  refine Finset.sum_congr rfl fun i _ => ?_
  rw [attention]
  by_cases hi : i ≤ t
  · have hi' : (i : ℕ) ≤ t := hi
    rw [if_pos hi, if_pos (Nat.lt_succ_of_le hi'), ratio_eq hi' t.isLt, dot_eq, kRows_eq, qRows_eq]
    rfl
  · have hi' : ¬(i : ℕ) < t + 1 := fun h => hi (Nat.le_of_lt_succ h)
    rw [if_neg hi, if_neg hi', zero_mul]

theorem chunkOutputs_eq : chunkOutputs exp sqrt chunk S =
    (List.range chunk.length).map (outputAt exp sqrt chunk S) := by
  rw [← List.map_coe_finRange_eq_range, List.map_map, ← List.ofFn_eq_map, chunkOutputs]
  refine congrArg List.ofFn (funext fun t => funext fun vi => ?_)
  have hread := congrFun (outputAt_eq exp sqrt chunk S t) vi
  rw [Pi.add_apply, Finset.sum_apply] at hread
  refine Eq.trans ?_ hread.symm
  rw [matmul_eq, matmul_eq, solution_eq, total_eq t.isLt]
  show exp (gcum chunk t) * (qRows sqrt chunk t ⬝ᵥ S vi) +
    attention exp sqrt chunk t ⬝ᵥ (fun i => corrections exp sqrt chunk S i vi) = _
  rw [attention_row, qRows_eq, dotProduct_comm]
  rfl

theorem chunkState_eq (hne : chunk ≠ []) :
    chunkState exp sqrt chunk S = stateAt exp sqrt chunk S chunk.length := by
  obtain ⟨last, hlast⟩ : ∃ last, chunk.length = last + 1 :=
    Nat.exists_eq_succ_of_ne_zero (List.length_pos_iff.mpr hne).ne'
  have hlt : last < chunk.length := by omega
  rw [stateAt, hlast, DeltaRule.state_eq, total_eq hlt]
  ext vi ki
  simp only [chunkState, hlast, Nat.add_sub_cancel, matmul_eq, solution_eq]
  rw [Matrix.add_apply, Matrix.mul_apply, Matrix.sum_apply, ← sum_below _ (le_of_eq hlast.symm)]
  refine congrArg _ (Finset.sum_congr rfl fun i _ => ?_)
  have hi : (i : ℕ) < last + 1 := hlast ▸ i.isLt
  rw [if_pos hi, ratio_eq (Nat.le_of_lt_succ hi) hlt, kRows_eq]
  show corrAt exp sqrt chunk S i vi * _ * _ = _ * (corrAt exp sqrt chunk S i vi * _)
  rw [mul_comm (corrAt exp sqrt chunk S i vi), mul_assoc]

/-- A chunk is the recurrence over its tokens. -/
theorem chunk_eq (hne : chunk ≠ []) (outs : List (Fin headDim → K)) :
    chunk.foldl (recurrentRound exp sqrt) (outs, S) =
      (outs ++ chunkOutputs exp sqrt chunk S, chunkState exp sqrt chunk S) := by
  rw [recurrent_eq, chunkOutputs_eq, chunkState_eq hne]

end Chunk

section Chunks

variable {exp sqrt}

/-- The rounds of the loop continue the recurrence. -/
theorem chunkedLoop_eq {chunkLen : ℕ} (hlen : 0 < chunkLen) (tokens : List (Token K headDim))
    (state : GdnState K headDim) (outs : List (Fin headDim → K)) :
    tokens.foldl (recurrentRound exp sqrt) (outs, state) =
      (outs ++ (chunkedLoop exp sqrt chunkLen hlen tokens state).1,
        (chunkedLoop exp sqrt chunkLen hlen tokens state).2) := by
  induction tokens, state using chunkedLoop.induct exp sqrt chunkLen hlen generalizing outs with
  | case1 state =>
    rw [chunkedLoop, dif_pos rfl, List.foldl_nil, List.append_nil]
  | case2 tokens state hne chunk ih =>
    have hchunk : chunk ≠ [] := fun h =>
      (List.take_eq_nil_iff.mp h).elim hlen.ne' hne
    rw [chunkedLoop, dif_neg hne, ← List.append_assoc, ← ih, ← chunk_eq hchunk, ← List.foldl_append,
      List.take_append_drop]

variable (exp sqrt)

/-- The chunked form returns what the recurrent form does, and what it inverts on the
way is inverted truly. -/
theorem chunkedForward_eq {chunkLen : ℕ} (hlen : 0 < chunkLen) (tokens : List (Token K headDim))
    (initialState : Option (GdnState K headDim)) :
    chunkedForward exp sqrt chunkLen tokens initialState =
        some (recurrentForward exp sqrt tokens initialState) ∧
      ∀ (n : ℕ) (m : Matrix (Fin n) (Fin n) K),
        (1 + lower m) * invertUnitLowerTriangular m = 1 ∧
        invertUnitLowerTriangular m * (1 + lower m) = 1 := by
  refine ⟨?_, fun n m => ⟨mul_invert m, invert_mul m⟩⟩
  rw [chunkedForward, dif_pos hlen, recurrentForward, chunkedLoop_eq hlen, List.nil_append]

theorem chunkedForward_eq_witness :
    chunkedForward ⟨Real.exp, Real.exp_zero, Real.exp_add⟩ Real.sqrt 2
        [⟨fun _ => 1, fun _ => 2, fun _ => 3, -1, 1⟩, ⟨fun _ => 2, fun _ => 1, fun _ => 0, -2, 1⟩,
          (⟨fun _ => 0, fun _ => 5, fun _ => 1, -3, 2⟩ : Token ℝ 1)] none =
      some (recurrentForward ⟨Real.exp, Real.exp_zero, Real.exp_add⟩ Real.sqrt
        [⟨fun _ => 1, fun _ => 2, fun _ => 3, -1, 1⟩, ⟨fun _ => 2, fun _ => 1, fun _ => 0, -2, 1⟩,
          (⟨fun _ => 0, fun _ => 5, fun _ => 1, -3, 2⟩ : Token ℝ 1)] none) :=
  (chunkedForward_eq _ _ (by decide) _ _).1

end Chunks

end Gdn
