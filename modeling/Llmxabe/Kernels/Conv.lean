/-
The short causal depthwise convolution of a GDN layer (`xabe-kernels/src/conv.rs`).

Numbers are of any type that has a sum and a product; a read outside of a buffer
and a length that disagrees are `none`.  The state a batch leaves behind shows
the next one the window the whole sequence would (`window_append`):

* `conv_streamed`: a sequence convolved batch by batch is the sequence convolved
  at once.
-/
import Llmxabe.Lib.Grid

namespace Conv

variable {K : Type}

/-- The window at a signed position: this batch's token, or the carried state,
whose last entry is position -1. -/
def window (x state : List K) (channels carry : ℕ) (u : ℤ) (ch : ℕ) : Option K :=
  if 0 ≤ u then x[u.toNat * channels + ch]? else state[ch * carry + (u + carry).toNat]?

/-- The buffers have the shapes the kernel asserts. -/
structure Shaped (weight state : List K) (channels convKernel : ℕ) : Prop where
  kernel_pos : 0 < convKernel
  channels_pos : 0 < channels
  weight_length : weight.length = channels * convKernel
  state_length : state.length = channels * (convKernel - 1)

variable {x x' weight state state' next : List K} {channels carry convKernel seqLen more : ℕ}

/-- Every position from the oldest carried one to the last token is there. -/
theorem window_isSome (hx : x.length = seqLen * channels) (hstate : state.length = channels * carry)
    {u : ℤ} {ch : ℕ} (hch : ch < channels) (hlow : -(carry : ℤ) ≤ u) (hhigh : u < seqLen) :
    (window x state channels carry u ch).isSome := by
  unfold window
  split
  case isTrue hu =>
    have hrow : (u.toNat + 1) * channels ≤ seqLen * channels :=
      Nat.mul_le_mul_right channels (by omega)
    rw [Nat.succ_mul] at hrow
    rw [List.getElem?_eq_getElem (by omega)]
    rfl
  case isFalse hu =>
    have hrow : (ch + 1) * carry ≤ channels * carry := Nat.mul_le_mul_right carry hch
    rw [Nat.succ_mul] at hrow
    rw [List.getElem?_eq_getElem (by omega)]
    rfl

/-- The state a batch leaves behind. -/
structure Leaves (x state next : List K) (seqLen channels carry : ℕ) : Prop where
  length : next.length = channels * carry
  entry : ∀ ch < channels, ∀ j < carry,
    window x state channels carry ((seqLen : ℤ) - carry + j) ch = next[ch * carry + j]?

/-- From the state left behind, the next batch sees what the whole sequence would. -/
theorem Leaves.window_append (h : Leaves x state next seqLen channels carry)
    (hx : x.length = seqLen * channels) {u : ℤ} {ch : ℕ} (hch : ch < channels)
    (hlow : -(carry : ℤ) ≤ u) :
    window x' next channels carry u ch = window (x ++ x') state channels carry (seqLen + u) ch := by
  unfold window
  by_cases hu : 0 ≤ u
  · have hindex : (seqLen + u).toNat = seqLen + u.toNat := by omega
    rw [if_pos hu, if_pos (by omega), hindex, Nat.add_mul, Nat.add_assoc,
      List.getElem?_append_right (by omega), hx, Nat.add_sub_cancel_left]
  · -- a carried position: the state has the batch's own window there
    have hentry := h.entry ch hch (u + carry).toNat (by omega)
    rw [if_neg hu, ← hentry]
    have hposition : (seqLen : ℤ) - carry + (u + carry).toNat = seqLen + u := by omega
    rw [hposition]
    unfold window
    by_cases hnew : 0 ≤ seqLen + u
    · have hrow : ((seqLen + u).toNat + 1) * channels ≤ seqLen * channels :=
        Nat.mul_le_mul_right channels (by omega)
      rw [Nat.succ_mul] at hrow
      rw [if_pos hnew, if_pos hnew, List.getElem?_append_left (by omega)]
    · rw [if_neg hnew, if_neg hnew]

/-- More tokens do not change the window of those there are. -/
theorem window_append_left (hx : x.length = seqLen * channels) {u : ℤ} {ch : ℕ}
    (hch : ch < channels) (hhigh : u < seqLen) :
    window (x ++ x') state channels carry u ch = window x state channels carry u ch := by
  unfold window
  split
  case isTrue hu =>
    have hrow : (u.toNat + 1) * channels ≤ seqLen * channels :=
      Nat.mul_le_mul_right channels (by omega)
    rw [Nat.succ_mul] at hrow
    rw [List.getElem?_append_left (by omega)]
  case isFalse => rfl

theorem Shaped.leave (hshaped : Shaped weight state channels convKernel)
    (hnext : Leaves x state next seqLen channels (convKernel - 1)) :
    Shaped weight next channels convKernel :=
  { hshaped with state_length := hnext.length }

/-- The buffer of a sequence of batches, and the number of its tokens. -/
def joined (batches : List (ℕ × List K)) : List K := batches.flatMap Prod.snd

/-- The tokens of all batches. -/
def tokens (batches : List (ℕ × List K)) : ℕ := (batches.map Prod.fst).sum

theorem joined_length {batches : List (ℕ × List K)}
    (hbatches : ∀ batch ∈ batches, batch.2.length = batch.1 * channels) :
    (joined batches).length = tokens batches * channels := by
  induction batches with
  | nil => exact (Nat.zero_mul channels).symm
  | cons batch batches ih =>
    rw [List.forall_mem_cons] at hbatches
    show (batch.2 ++ joined batches).length = (batch.1 + tokens batches) * channels
    rw [List.length_append, hbatches.1, ih hbatches.2, Nat.add_mul]

theorem foldlM_congr {f g : K → ℕ → Option K} :
    ∀ {indices : List ℕ}, (∀ acc, ∀ i ∈ indices, f acc i = g acc i) →
      ∀ acc, indices.foldlM f acc = indices.foldlM g acc
  | [], _, _ => rfl
  | i :: indices, h, acc => by
    rw [List.foldlM_cons, List.foldlM_cons, h acc i List.mem_cons_self]
    exact congrArg _ (funext (foldlM_congr fun acc i hi => h acc i (List.mem_cons_of_mem _ hi)))

theorem foldlM_isSome {f : K → ℕ → Option K} :
    ∀ {indices : List ℕ}, (∀ acc, ∀ i ∈ indices, (f acc i).isSome) →
      ∀ acc, (indices.foldlM f acc).isSome
  | [], _, _ => rfl
  | i :: indices, h, acc => by
    obtain ⟨next, hnext⟩ := Option.isSome_iff_exists.mp (h acc i List.mem_cons_self)
    rw [List.foldlM_cons, hnext]
    exact foldlM_isSome (fun acc i hi => h acc i (List.mem_cons_of_mem _ hi)) next

/-! ### The kernel -/

variable [Add K] [Mul K] [Zero K]

/-- One output: the taps in ascending order. -/
def output (x weight state : List K) (channels convKernel t ch : ℕ) : Option K :=
  (List.range convKernel).foldlM (fun acc (i : ℕ) => do
    let value ← window x state channels (convKernel - 1) ((t : ℤ) - (convKernel - 1 : ℕ) + i) ch
    let tap ← weight[ch * convKernel + i]?
    return acc + value * tap) 0

/-- Outputs and carried state; `none` where an assertion on the lengths fails. -/
def causalDepthwiseConv1d (x weight state : List K) (seqLen channels convKernel : ℕ) :
    Option (List K × List K) :=
  if 0 < convKernel ∧ 0 < channels ∧ x.length = seqLen * channels ∧
      weight.length = channels * convKernel ∧ state.length = channels * (convKernel - 1) then do
    let carry := convKernel - 1
    let out ← grid seqLen channels (output x weight state channels convKernel)
    let newState ← grid channels carry fun ch j =>
      window x state channels carry ((seqLen : ℤ) - carry + j) ch
    return (out, newState)
  else none

/-- Batch by batch, each from the state the one before it returned. -/
def streamed (weight : List K) (channels convKernel : ℕ) :
    List K → List (ℕ × List K) → Option (List K × List K)
  | state, [] => some ([], state)
  | state, (seqLen, x) :: batches => do
    let (out, state) ← causalDepthwiseConv1d x weight state seqLen channels convKernel
    let (outs, state) ← streamed weight channels convKernel state batches
    return (out ++ outs, state)

/-- An output depends on the window of its token and of the taps before it. -/
theorem output_congr {t t' ch : ℕ}
    (h : ∀ i < convKernel, window x state channels (convKernel - 1)
        ((t : ℤ) - (convKernel - 1 : ℕ) + i) ch =
      window x' state' channels (convKernel - 1) ((t' : ℤ) - (convKernel - 1 : ℕ) + i) ch) :
    output x weight state channels convKernel t ch =
      output x' weight state' channels convKernel t' ch := by
  unfold output
  refine foldlM_congr (fun acc i hi => ?_) 0
  rw [h i (List.mem_range.mp hi)]

theorem output_isSome (hshaped : Shaped weight state channels convKernel)
    (hx : x.length = seqLen * channels) {t ch : ℕ} (ht : t < seqLen) (hch : ch < channels) :
    (output x weight state channels convKernel t ch).isSome := by
  refine foldlM_isSome (fun acc i hi => ?_) 0
  rw [List.mem_range] at hi
  obtain ⟨value, hvalue⟩ := Option.isSome_iff_exists.mp
    (window_isSome (u := (t : ℤ) - (convKernel - 1 : ℕ) + i) hx hshaped.state_length hch
      (by omega) (by omega))
  have htap : ch * convKernel + i < weight.length := by
    have hrow : (ch + 1) * convKernel ≤ channels * convKernel := Nat.mul_le_mul_right convKernel hch
    rw [Nat.succ_mul] at hrow
    rw [hshaped.weight_length]
    omega
  rw [hvalue, List.getElem?_eq_getElem htap]
  rfl

/-- What the kernel returns, entry by entry. -/
theorem causalDepthwiseConv1d_eq_some_iff (hshaped : Shaped weight state channels convKernel)
    (hx : x.length = seqLen * channels) {out : List K} :
    causalDepthwiseConv1d x weight state seqLen channels convKernel = some (out, next) ↔
      grid seqLen channels (output x weight state channels convKernel) = some out ∧
        Leaves x state next seqLen channels (convKernel - 1) := by
  have hleaves : Leaves x state next seqLen channels (convKernel - 1) ↔
      grid channels (convKernel - 1) (fun ch j => window x state channels (convKernel - 1)
        ((seqLen : ℤ) - (convKernel - 1 : ℕ) + j) ch) = some next := by
    rw [grid_eq_some_iff]
    exact ⟨fun h => ⟨h.length, h.entry⟩, fun h => ⟨h.1, h.2⟩⟩
  unfold causalDepthwiseConv1d
  rw [if_pos ⟨hshaped.kernel_pos, hshaped.channels_pos, hx, hshaped.weight_length,
    hshaped.state_length⟩, hleaves]
  simp only [Option.bind_eq_bind, Option.bind_eq_some_iff, Option.pure_def, Option.some.injEq,
    Prod.mk.injEq]
  constructor
  · rintro ⟨_, hout, _, hnext, rfl, rfl⟩
    exact ⟨hout, hnext⟩
  · rintro ⟨hout, hnext⟩
    exact ⟨out, hout, next, hnext, rfl, rfl⟩

/-- The kernel returns on every input of the shapes it asserts. -/
theorem causalDepthwiseConv1d_returns (hshaped : Shaped weight state channels convKernel)
    (hx : x.length = seqLen * channels) :
    ∃ out next, causalDepthwiseConv1d x weight state seqLen channels convKernel =
      some (out, next) := by
  obtain ⟨out, hout⟩ := grid_isSome (f := output x weight state channels convKernel)
    fun t ht ch hch => output_isSome hshaped hx ht hch
  have hstate : ∃ next, grid channels (convKernel - 1) (fun ch j =>
      window x state channels (convKernel - 1) ((seqLen : ℤ) - (convKernel - 1 : ℕ) + j) ch) =
      some next :=
    grid_isSome fun ch hch j hj =>
      window_isSome hx hshaped.state_length hch (by omega) (by omega)
  obtain ⟨next, hnext⟩ := hstate
  obtain ⟨hlength, hentry⟩ := grid_eq_some_iff.mp hnext
  exact ⟨out, next, (causalDepthwiseConv1d_eq_some_iff hshaped hx).mpr ⟨hout, hlength, hentry⟩⟩

/-- Two batches, the second from the state of the first, are one. -/
theorem causalDepthwiseConv1d_append (hshaped : Shaped weight state channels convKernel)
    (hx : x.length = seqLen * channels) (hx' : x'.length = more * channels)
    {out out' final : List K}
    (h : causalDepthwiseConv1d x weight state seqLen channels convKernel = some (out, next))
    (h' : causalDepthwiseConv1d x' weight next more channels convKernel = some (out', final)) :
    causalDepthwiseConv1d (x ++ x') weight state (seqLen + more) channels convKernel =
      some (out ++ out', final) := by
  obtain ⟨hout, hnext⟩ := (causalDepthwiseConv1d_eq_some_iff hshaped hx).mp h
  obtain ⟨hout', hfinal⟩ := (causalDepthwiseConv1d_eq_some_iff (hshaped.leave hnext) hx').mp h'
  have hboth : (x ++ x').length = (seqLen + more) * channels := by
    rw [List.length_append, hx, hx', Nat.add_mul]
  refine (causalDepthwiseConv1d_eq_some_iff hshaped hboth).mpr ⟨grid_add ?_ ?_, hfinal.length, ?_⟩
  · rw [← hout]
    refine grid_congr fun t ht ch hch => output_congr fun i hi => ?_
    exact window_append_left hx hch (by omega)
  · rw [← hout']
    refine grid_congr fun t ht ch hch => output_congr fun i hi => ?_
    rw [hnext.window_append hx hch (by omega)]
    congr 1
    omega
  · intro ch hch j hj
    rw [← hfinal.entry ch hch j hj, hnext.window_append hx hch (by omega)]
    congr 1
    omega

/-- No token leaves the state as it is. -/
theorem causalDepthwiseConv1d_nil (hshaped : Shaped weight state channels convKernel) :
    causalDepthwiseConv1d [] weight state 0 channels convKernel = some ([], state) := by
  refine (causalDepthwiseConv1d_eq_some_iff (x := []) hshaped (Nat.zero_mul channels).symm).mpr
    ⟨?_, hshaped.state_length, fun ch hch j hj => ?_⟩
  · exact grid_eq_some_iff.mpr ⟨(Nat.zero_mul _).symm, fun r hr => absurd hr (Nat.not_lt_zero r)⟩
  · unfold window
    rw [if_neg (by omega)]
    congr 2
    omega

theorem streamed_eq {batches : List (ℕ × List K)}
    (hbatches : ∀ batch ∈ batches, batch.2.length = batch.1 * channels) :
    ∀ {state : List K}, Shaped weight state channels convKernel →
      streamed weight channels convKernel state batches =
        causalDepthwiseConv1d (joined batches) weight state (tokens batches) channels
          convKernel := by
  induction batches with
  | nil => exact fun hshaped => (causalDepthwiseConv1d_nil hshaped).symm
  | cons batch batches ih =>
    intro state hshaped
    rw [List.forall_mem_cons] at hbatches
    obtain ⟨out, next, hfirst⟩ := causalDepthwiseConv1d_returns hshaped hbatches.1
    have hnext := ((causalDepthwiseConv1d_eq_some_iff hshaped hbatches.1).mp hfirst).2
    have hrest := joined_length hbatches.2
    obtain ⟨outs, final, hlast⟩ := causalDepthwiseConv1d_returns (hshaped.leave hnext) hrest
    have hboth := causalDepthwiseConv1d_append hshaped hbatches.1 hrest hfirst hlast
    rw [streamed, hfirst]
    simp only [Option.bind_eq_bind, Option.bind_some, ih hbatches.2 (hshaped.leave hnext), hlast]
    exact hboth.symm

/-- A sequence convolved batch by batch is the sequence convolved at once, and an
output depends on the window of its token alone. -/
theorem conv_streamed (hshaped : Shaped weight state channels convKernel)
    {batches : List (ℕ × List K)}
    (hbatches : ∀ batch ∈ batches, batch.2.length = batch.1 * channels) :
    ∃ out final,
      streamed weight channels convKernel state batches = some (out, final) ∧
      causalDepthwiseConv1d (joined batches) weight state (tokens batches) channels convKernel =
        some (out, final) ∧
      ∀ x' state' out' final', Shaped weight state' channels convKernel →
        x'.length = tokens batches * channels →
        causalDepthwiseConv1d x' weight state' (tokens batches) channels convKernel =
          some (out', final') →
        ∀ t < tokens batches, ∀ ch < channels,
          (∀ u : ℤ, (t : ℤ) - (convKernel - 1 : ℕ) ≤ u → u ≤ t →
            window (joined batches) state channels (convKernel - 1) u ch =
              window x' state' channels (convKernel - 1) u ch) →
          out[t * channels + ch]? = out'[t * channels + ch]? := by
  have hx := joined_length hbatches
  obtain ⟨out, final, hconv⟩ := causalDepthwiseConv1d_returns hshaped hx
  refine ⟨out, final, (streamed_eq hbatches hshaped).trans hconv, hconv, ?_⟩
  intro x' state' out' final' hshaped' hx' hconv' t ht ch hch hwindow
  have hout := ((causalDepthwiseConv1d_eq_some_iff hshaped hx).mp hconv).1
  have hout' := ((causalDepthwiseConv1d_eq_some_iff hshaped' hx').mp hconv').1
  rw [← (grid_eq_some_iff.mp hout).2 t ht ch hch, ← (grid_eq_some_iff.mp hout').2 t ht ch hch]
  exact output_congr fun i hi => hwindow _ (by omega) (by omega)

/-- Two taps over one channel, a batch of one token and one of none. -/
theorem conv_streamed_witness :
    ∃ out final : List ℤ, (out, final) = ([31], [7]) ∧
      streamed [2, 3] 1 2 [5] [(1, [7]), (0, [])] = some (out, final) ∧
      causalDepthwiseConv1d [7] [2, 3] [5] 1 1 2 = some (out, final) := by
  have hshaped : Shaped [(2 : ℤ), 3] [5] 1 2 := ⟨by decide, by decide, rfl, rfl⟩
  have hbatches : ∀ batch ∈ [(1, [(7 : ℤ)]), (0, [])], batch.2.length = batch.1 * 1 := by decide
  obtain ⟨out, final, hstreamed, hconv, -⟩ := conv_streamed hshaped hbatches
  refine ⟨out, final, ?_, hstreamed, hconv⟩
  exact Option.some.inj (hstreamed.symm.trans (by decide))

end Conv
