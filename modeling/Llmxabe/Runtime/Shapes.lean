/-
The passes a runtime builds at load, and the prefill loop that looks them up
(`DeviceRuntime::load`, `prefill_pass_in` and `execute_prefill` of
`xabe-engine/src/runtime.rs`).

A pass is known by the number of tokens it was built for.  The chunk, the retention
interval, the tails and the decode widths are four tables, the shapes of the draft head
a fifth; a lookup that finds nothing is a panic of the source.

* `choosePrefillWidth_built`: what the chooser returns is in the tables;
* `prefill_always_servable`: so the loop consumes its grant in pieces that were built,
  and ends one at every retention boundary.
-/
import Llmxabe.Runtime.Progress

/-- The passes of one runtime. -/
structure PrefillShapes where
  prefill : ℕ
  retentionPrefill : Option ℕ
  prefillTails : List (ℕ × ℕ)
  decode : List (Option ℕ)
  /-- One block of the draft head for each. -/
  mtp : List ℕ
  deriving DecidableEq, Repr

namespace PrefillShapes

/-- The widths that `while tail <= tail_ceiling { .. tail *= 2 }` goes through. -/
def tailsFrom (ceiling tail : ℕ) : List ℕ :=
  if h : 0 < tail ∧ tail ≤ ceiling then tail :: tailsFrom ceiling (tail * 2) else []
termination_by ceiling + 1 - tail

/-- The widest tail pass that is built. -/
def tailCeiling (prefillChunk retentionInterval : ℕ) : ℕ :=
  min (min prefillChunk (max retentionInterval 1)) 256

/-- `want`: a shape that is there already is not built again. -/
def want (shapes : List ℕ) (tokens : ℕ) : List ℕ :=
  if tokens ∈ shapes then shapes else shapes ++ [tokens]

/-- What `load` builds. -/
def load (prefillChunk retentionInterval maxBatch : ℕ) : PrefillShapes :=
  let tails := tailsFrom (tailCeiling prefillChunk retentionInterval) 2
  let mtpWanted := List.range' 2 (maxBatch - 1) ++ [prefillChunk] ++
    (if 0 < retentionInterval then [retentionInterval] else []) ++
    tails.filter fun tail => maxBatch < tail
  { prefill := prefillChunk
    retentionPrefill :=
      if 0 < retentionInterval ∧ retentionInterval ≠ prefillChunk then some retentionInterval
      else none
    prefillTails := (tails.filter fun tail =>
      maxBatch < tail ∧ tail ≠ prefillChunk ∧ tail ≠ retentionInterval).map fun tail => (tail, tail)
    decode := none :: (List.range' 1 maxBatch).map some
    mtp := mtpWanted.foldl want [1] }

/-- The prebuilt pass for a prefill piece. -/
def prefillPassIn (shapes : PrefillShapes) (prefillChunk retentionInterval width : ℕ) : Option ℕ :=
  if width = prefillChunk then some shapes.prefill
  else if width = retentionInterval ∧ width ≠ 1 then shapes.retentionPrefill
  else
    match shapes.prefillTails.find? fun tail => tail.1 = width with
    | some tail => some tail.2
    | none => (shapes.decode[width]?).join

/-- The block the draft head catches up with. -/
def mtpCatchup (shapes : PrefillShapes) (width : ℕ) : Option ℕ :=
  shapes.mtp.find? fun tokens => tokens = width

end PrefillShapes

namespace RuntimeConfig

/-- The passes of this configuration. -/
def shapes (cfg : RuntimeConfig) : PrefillShapes :=
  PrefillShapes.load cfg.prefillChunk cfg.retentionInterval cfg.maxBatch

/-- Its tail widths are those of the passes that were built. -/
def Loaded (cfg : RuntimeConfig) : Prop :=
  cfg.tailWidths = cfg.shapes.prefillTails.map (·.1)

/-- A piece of this width finds its pass, and the draft head its block. -/
def Servable (cfg : RuntimeConfig) (width : ℕ) : Prop :=
  cfg.shapes.prefillPassIn cfg.prefillChunk cfg.retentionInterval width = some width ∧
    cfg.shapes.mtpCatchup width = some width

end RuntimeConfig

section Tables

namespace PrefillShapes

theorem mem_want {shapes : List ℕ} {first tokens : ℕ} :
    tokens ∈ want shapes first ↔ tokens ∈ shapes ∨ tokens = first := by
  rw [want]
  by_cases hmem : first ∈ shapes
  · rw [if_pos hmem]
    exact ⟨Or.inl, fun h => h.elim id fun heq => heq ▸ hmem⟩
  · rw [if_neg hmem, List.mem_append, List.mem_singleton]

theorem mem_foldl_want {tokens : ℕ} : ∀ {wanted shapes : List ℕ},
    tokens ∈ wanted.foldl want shapes ↔ tokens ∈ shapes ∨ tokens ∈ wanted := by
  intro wanted
  induction wanted with
  | nil =>
    intro shapes
    rw [List.foldl_nil, or_iff_left List.not_mem_nil]
  | cons first wanted ih =>
    intro shapes
    rw [List.foldl_cons, ih, mem_want, List.mem_cons, or_assoc]

variable {prefillChunk retentionInterval maxBatch width : ℕ}

/-- A tail is as wide as its pass. -/
theorem prefillTails_eq {tail : ℕ × ℕ}
    (h : tail ∈ (load prefillChunk retentionInterval maxBatch).prefillTails) :
    tail.1 = tail.2 ∧ maxBatch < tail.1 ∧ tail.1 ≠ prefillChunk ∧ tail.1 ≠ retentionInterval ∧
      tail.1 ∈ tailsFrom (tailCeiling prefillChunk retentionInterval) 2 := by
  obtain ⟨width, hwidth, rfl⟩ := List.mem_map.mp h
  obtain ⟨hmem, hkeep⟩ := List.mem_filter.mp hwidth
  rw [decide_eq_true_iff] at hkeep
  exact ⟨rfl, hkeep.1, hkeep.2.1, hkeep.2.2, hmem⟩

theorem decode_eq (hpos : 0 < width) (hle : width ≤ maxBatch) :
    ((load prefillChunk retentionInterval maxBatch).decode[width]?).join = some width := by
  obtain ⟨k, rfl⟩ := Nat.exists_eq_succ_of_ne_zero hpos.ne'
  have hget : (List.range' 1 maxBatch)[k]? = some (1 + 1 * k) := List.getElem?_range' (by omega)
  show ((none :: (List.range' 1 maxBatch).map some)[k + 1]?).join = _
  rw [List.getElem?_cons_succ, List.getElem?_map, hget, Nat.one_mul, Nat.add_comm]
  rfl

end PrefillShapes

end Tables

/-! ### The widths the chooser returns -/

section Chooser

open PrefillShapes

variable {cfg : RuntimeConfig} {width : ℕ}

/-- The tables that a width may come from. -/
inductive RuntimeConfig.Built (cfg : RuntimeConfig) : ℕ → Prop
  | chunk : cfg.Built cfg.prefillChunk
  | interval (h : 0 < cfg.retentionInterval) : cfg.Built cfg.retentionInterval
  | tail {tail : ℕ × ℕ} (h : tail ∈ cfg.shapes.prefillTails) : cfg.Built tail.1
  | narrow {width : ℕ} (hpos : 0 < width) (hle : width ≤ cfg.maxBatch) : cfg.Built width

/-- Whatever the position, the width comes from a table. -/
theorem choosePrefillWidth_built (hload : cfg.Loaded) (position remaining : ℕ) :
    cfg.Built (choosePrefillWidth cfg position remaining) := by
  rw [choosePrefillWidth]
  by_cases hchunk : cfg.prefillChunk ≤ remaining ∧ cfg.prefillChunk ≤ cfg.toBoundary position
  · rw [if_pos hchunk]
    exact .chunk
  rw [if_neg hchunk]
  by_cases hinterval : 0 < cfg.retentionInterval ∧ cfg.retentionInterval ≤ remaining ∧
      position % cfg.retentionInterval = 0
  · rw [if_pos hinterval]
    exact .interval hinterval.1
  rw [if_neg hinterval]
  cases hfind : cfg.tailWidths.reverse.find? fun width =>
      width ≤ remaining ∧ width ≤ cfg.toBoundary position with
  | some width =>
    have hmem := List.mem_reverse.mp (List.mem_of_find?_eq_some hfind)
    rw [hload] at hmem
    obtain ⟨tail, htail, rfl⟩ := List.mem_map.mp hmem
    exact .tail htail
  | none =>
    refine .narrow (Nat.lt_of_lt_of_le Nat.one_pos (le_max_right _ _)) (max_le ?_ cfg.maxBatch_pos)
    exact min_le_right _ _

/-- The blocks of the draft head cover the tables. -/
theorem RuntimeConfig.Built.mem_mtp (h : cfg.Built width) : width ∈ cfg.shapes.mtp := by
  refine mem_foldl_want.mpr ?_
  rw [List.mem_append, List.mem_append, List.mem_append]
  cases h with
  | chunk => exact Or.inr (Or.inl (Or.inl (Or.inr (List.mem_singleton.mpr rfl))))
  | interval h =>
    rw [if_pos h]
    exact Or.inr (Or.inl (Or.inr (List.mem_singleton.mpr rfl)))
  | tail h =>
    obtain ⟨-, hwide, -, -, hmem⟩ := prefillTails_eq h
    exact Or.inr (Or.inr (List.mem_filter.mpr ⟨hmem, decide_eq_true hwide⟩))
  | narrow hpos hle =>
    by_cases hone : width = 1
    · exact Or.inl (List.mem_singleton.mpr hone)
    · refine Or.inr (Or.inl (Or.inl (Or.inl (List.mem_range'_1.mpr ⟨?_, ?_⟩))))
      · omega
      · omega

/-- A width from a table is found in the table that the lookup asks. -/
theorem RuntimeConfig.Built.servable (h : cfg.Built width) : cfg.Servable width := by
  constructor
  · rw [prefillPassIn]
    by_cases hchunk : width = cfg.prefillChunk
    · rw [if_pos hchunk, hchunk]
      rfl
    rw [if_neg hchunk]
    by_cases hinterval : width = cfg.retentionInterval ∧ width ≠ 1
    · have hpos : 0 < width := by
        cases h with
        | chunk => exact cfg.prefillChunk_pos
        | interval h => exact h
        | tail h => exact (Nat.zero_le _).trans_lt (prefillTails_eq h).2.1
        | narrow hpos _ => exact hpos
      rw [if_pos hinterval, hinterval.1]
      rw [hinterval.1] at hpos hchunk
      exact if_pos ⟨hpos, hchunk⟩
    rw [if_neg hinterval]
    cases hfind : cfg.shapes.prefillTails.find? fun tail => tail.1 = width with
    | some tail =>
      have hsame : tail.1 = width := by simpa using List.find?_some hfind
      show some tail.2 = some width
      rw [← (prefillTails_eq (List.mem_of_find?_eq_some hfind)).1, hsame]
    | none =>
      -- a retention interval of one is served by the narrowest decode pass
      have hnarrow : 0 < width ∧ width ≤ cfg.maxBatch := by
        cases h with
        | chunk => exact absurd rfl hchunk
        | interval h =>
          have hone : cfg.retentionInterval = 1 := by
            by_contra hne
            exact hinterval ⟨rfl, hne⟩
          exact ⟨h, hone ▸ cfg.maxBatch_pos⟩
        | tail h => exact absurd (decide_eq_true rfl) (List.find?_eq_none.mp hfind _ h)
        | narrow hpos hle => exact ⟨hpos, hle⟩
      exact decode_eq hnarrow.1 hnarrow.2
  · have hsome : (cfg.shapes.mtpCatchup width).isSome :=
      List.find?_isSome.mpr ⟨width, h.mem_mtp, decide_eq_true rfl⟩
    obtain ⟨other, hother⟩ := Option.isSome_iff_exists.mp hsome
    have hsame : other = width := by simpa using List.find?_some hother
    rw [hother, hsame]

end Chooser

/-! ### The loop -/

section Loop

variable {Row κ σ : Type} {M : Target Row κ σ} {cfg : RuntimeConfig} {io : StepOracle}
  {id : RequestId}

/-- Pieces of servable widths, one after the other from `start` to `stop`. -/
inductive Pieces (cfg : RuntimeConfig) : ℕ → List (ℕ × ℕ) → ℕ → Prop
  | nil (start : ℕ) : Pieces cfg start [] start
  | cons {start width stop : ℕ} {pieces : List (ℕ × ℕ)} (hpos : 0 < width)
    (hservable : cfg.Servable width)
    (hboundary : 0 < cfg.retentionInterval →
      start % cfg.retentionInterval + width ≤ cfg.retentionInterval)
    (rest : Pieces cfg (start + width) pieces stop) : Pieces cfg start ((start, width) :: pieces) stop

/-- A piece of the chooser stays on its side of the next boundary. -/
theorem choosePrefillWidth_straddle (hinterval : 0 < cfg.retentionInterval) (position remaining : ℕ) :
    position % cfg.retentionInterval + choosePrefillWidth cfg position remaining ≤
      cfg.retentionInterval := by
  have hle := @choosePrefillWidth_boundary cfg position remaining hinterval
  have hmod := Nat.mod_lt position hinterval
  rw [RuntimeConfig.toBoundary, if_neg hinterval.ne'] at hle
  omega

theorem prefillPieces_pieces (hload : cfg.Loaded) :
    ∀ {fuel : ℕ} {work : List Token} {seq : RuntimeSequence κ σ}, work.length ≤ fuel →
      ∃ pieces, (prefillPieces M cfg io id fuel work seq).2.writes = pieces.map (id, ·) ∧
        Pieces cfg seq.position pieces (seq.position + work.length) ∧
        (prefillPieces M cfg io id fuel work seq).1.history =
          seq.history ++ inputsFrom seq.images seq.position work := by
  intro fuel
  induction fuel with
  | zero =>
    intro work seq hfuel
    obtain rfl : work = [] := List.length_eq_zero_iff.mp (Nat.le_zero.mp hfuel)
    exact ⟨[], rfl, .nil _, (List.append_nil _).symm⟩
  | succ fuel ih =>
    intro work seq hfuel
    rw [prefillPieces]
    by_cases hnil : work = []
    · subst hnil
      rw [if_pos rfl]
      exact ⟨[], rfl, .nil _, (List.append_nil _).symm⟩
    rw [if_neg hnil]
    have hlen : 0 < work.length := List.length_pos_iff.mpr hnil
    have hpos := @choosePrefillWidth_pos cfg seq.position work.length
    have hle := @choosePrefillWidth_le cfg seq.position work.length hlen
    simp only
    set width := choosePrefillWidth cfg seq.position work.length with hwidth
    set done := prefillPiece M cfg (io.arena id (seq.position + width)) (work.take width) seq
      with hdone
    have htake : (work.take width).length = width := List.length_take_of_le hle
    have hposition : done.1.position = seq.position + width := by
      rw [RuntimeSequence.position, hdone, prefillPiece_history, List.length_append,
        inputsFrom_length, htake]
      rfl
    have hdrop : (work.drop width).length = work.length - width := List.length_drop ..
    obtain ⟨hframe, -⟩ :=
      @prefillPiece_framed _ _ _ M cfg (io.arena id (seq.position + width)) (work.take width) seq
    obtain ⟨pieces, hwrites, hpieces, hhistory⟩ := @ih (work.drop width) done.1 (by omega)
    refine ⟨(seq.position, width) :: pieces, ?_, .cons hpos ?_ ?_ ?_, ?_⟩
    · rw [List.map_cons, ← hwrites]
      rfl
    · exact (choosePrefillWidth_built hload _ _).servable
    · exact fun hinterval => choosePrefillWidth_straddle hinterval _ _
    · have hstop : done.1.position + (work.drop width).length = seq.position + work.length := by
        omega
      rwa [hstop, hposition] at hpieces
    · have hsplit := inputsFrom_append seq.images seq.position (work.take width) (work.drop width)
      rw [List.take_append_drop, htake] at hsplit
      rw [hhistory, hposition, hframe.images, hdone, prefillPiece_history, List.append_assoc, hsplit]

/-- Every boundary in the range ends a piece. -/
theorem Pieces.boundary {start stop : ℕ} {pieces : List (ℕ × ℕ)} (h : Pieces cfg start pieces stop)
    (hinterval : 0 < cfg.retentionInterval) {boundary : ℕ}
    (hdvd : cfg.retentionInterval ∣ boundary) (hlt : start < boundary) (hle : boundary ≤ stop) :
    ∃ piece ∈ pieces, piece.1 + piece.2 = boundary := by
  induction h with
  | nil start => omega
  | @cons start width stop pieces hpos hservable hboundary rest ih =>
    by_cases hthere : start + width < boundary
    · obtain ⟨piece, hmem, heq⟩ := ih hthere hle
      exact ⟨piece, List.mem_cons_of_mem _ hmem, heq⟩
    · -- the piece reaches the boundary, and does not cross the next one after its start
      refine ⟨(start, width), List.mem_cons_self, ?_⟩
      obtain ⟨k, rfl⟩ := hdvd
      have hstraddle := hboundary hinterval
      have hdiv := Nat.div_add_mod start cfg.retentionInterval
      have hk : start / cfg.retentionInterval < k := by
        by_contra hk
        have := Nat.mul_le_mul_left cfg.retentionInterval (Nat.le_of_not_lt hk)
        omega
      have := Nat.mul_le_mul_left cfg.retentionInterval (Nat.succ_le_of_lt hk)
      rw [Nat.mul_succ] at this
      show start + width = _
      omega

/-- The chooser's widths are servable, and the loop driven by it consumes its grant,
whatever fuel it has beyond one round a token, and stops at every boundary. -/
theorem prefill_always_servable (hload : cfg.Loaded) :
    (∀ position remaining, 0 < remaining →
      0 < choosePrefillWidth cfg position remaining ∧
        choosePrefillWidth cfg position remaining ≤ remaining ∧
        (0 < cfg.retentionInterval → position % cfg.retentionInterval +
          choosePrefillWidth cfg position remaining ≤ cfg.retentionInterval) ∧
        cfg.Servable (choosePrefillWidth cfg position remaining)) ∧
    ∀ (M : Target Row κ σ) (io : StepOracle) (id : RequestId) (work : List Token)
      (seq : RuntimeSequence κ σ) (fuel : ℕ), work.length ≤ fuel →
      ∃ pieces, (prefillPieces M cfg io id fuel work seq).2.writes = pieces.map (id, ·) ∧
        Pieces cfg seq.position pieces (seq.position + work.length) ∧
        (prefillPieces M cfg io id fuel work seq).1.history =
          seq.history ++ inputsFrom seq.images seq.position work ∧
        ∀ boundary, 0 < cfg.retentionInterval → cfg.retentionInterval ∣ boundary →
          seq.position < boundary → boundary ≤ seq.position + work.length →
          ∃ piece ∈ pieces, piece.1 + piece.2 = boundary := by
  refine ⟨fun position remaining hremaining => ⟨choosePrefillWidth_pos,
    choosePrefillWidth_le hremaining, fun hinterval => choosePrefillWidth_straddle hinterval _ _,
    (choosePrefillWidth_built hload _ _).servable⟩, ?_⟩
  intro M io id work seq fuel hfuel
  obtain ⟨pieces, hwrites, hpieces, hhistory⟩ :=
    @prefillPieces_pieces _ _ _ M cfg io id hload _ work seq hfuel
  exact ⟨pieces, hwrites, hpieces, hhistory, fun boundary hinterval hdvd hlt hle =>
    hpieces.boundary hinterval hdvd hlt hle⟩

/-- A card with a chunk of 32, an interval of 16 and three decode slots. -/
def tailedConfig : RuntimeConfig where
  window := 0
  verifyBuilt _ := false
  draftHead := false
  draftNMin := 0
  retentionInterval := 16
  prefillChunk := 32
  tailWidths := [4, 8]
  maxBatch := 3
  vocab := 100
  eosToken := none
  prefillChunk_pos := by decide
  maxBatch_pos := by decide
  tailWidths_pos := by decide

theorem tailedConfig_loaded : tailedConfig.Loaded := by
  simp [RuntimeConfig.Loaded, RuntimeConfig.shapes, PrefillShapes.load, PrefillShapes.tailCeiling,
    PrefillShapes.tailsFrom, tailedConfig]

theorem prefill_always_servable_witness :
    0 < choosePrefillWidth tailedConfig 5 11 ∧ choosePrefillWidth tailedConfig 5 11 ≤ 11 ∧
      tailedConfig.Servable (choosePrefillWidth tailedConfig 5 11) :=
  have h := (@prefill_always_servable Unit Unit Unit _ tailedConfig_loaded).1 5 11 (by decide)
  ⟨h.1, h.2.1, h.2.2.2⟩

end Loop
