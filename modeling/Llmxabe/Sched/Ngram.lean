/-
Drafting from a sequence's own history (`xabe-sched/src/ngram.rs`).

A ring keeps the latest tokens, and a table for each length points at the
newest n-gram in each slot that has a token behind it.  A read outside the
history or a table, and a difference below zero, stop the program (`none`).

`Tracks` ties a speculator to the stream it has observed.  It never stops; a
draft continues an earlier occurrence of the current suffix inside the window,
and without collisions it is the draft of a backward scan
(`drafts_from_history`).
-/
import Mathlib.Data.BitVec
import Llmxabe.Lib.RingBuffer

namespace Ngram

/-- Why a configuration is refused. -/
inductive NgramConfigError where
  | invalidNgramRange
  | zeroDraftTokens
  | historyTooShort
  | zeroMinHits
  deriving DecidableEq, Repr

/-- Bounds for the lookup and for the number of tokens drafted at once. -/
structure NgramConfig where
  minNgram : ℕ
  maxNgram : ℕ
  maxDraftTokens : ℕ
  historyCapacity : ℕ
  min_pos : 0 < minNgram
  min_le : minNgram ≤ maxNgram
  drafts_pos : 0 < maxDraftTokens
  capacity_gt : maxNgram < historyCapacity

/-- The checked constructor. -/
def NgramConfig.new (minNgram maxNgram maxDraftTokens historyCapacity : ℕ) :
    Except NgramConfigError NgramConfig :=
  if hrange : minNgram = 0 ∨ maxNgram < minNgram then .error .invalidNgramRange
  else if hdrafts : maxDraftTokens = 0 then .error .zeroDraftTokens
  else if hcapacity : historyCapacity ≤ maxNgram then .error .historyTooShort
  else .ok {
    minNgram, maxNgram, maxDraftTokens, historyCapacity
    min_pos := by omega
    min_le := by omega
    drafts_pos := by omega
    capacity_gt := by omega }

/-- Cap on each table, in entries. -/
def maxTableEntries : ℕ := 2 ^ 20

/-- Mix one token into a running hash. -/
def mix (hash : BitVec 64) (token : ℤ) : BitVec 64 :=
  (hash.rotateLeft 5 ^^^ (BitVec.ofInt 32 token).setWidth 64) * 0x517cc1b727220a95#64

/-- The slot of an n-gram. -/
def slotOf (mask : BitVec 64) (gram : List ℤ) : ℕ := (gram.foldl mix 0 &&& mask).toNat

/-- A difference of machine words. -/
def checkedSub (a b : ℕ) : Option ℕ := if b ≤ a then some (a - b) else none

/-- The window of tokens observed, and where each n-gram was last seen. -/
structure NgramSpeculator where
  config : NgramConfig
  history : RingBuffer ℤ
  /-- Tokens observed since construction. -/
  total : ℕ
  tables : List (List ℕ)
  tableMask : BitVec 64

/-- The offset in slot `slot` of table `j`; out of range panics. -/
def readSlot (tables : List (List ℕ)) (j slot : ℕ) : Option ℕ := tables[j]?.bind (·[slot]?)

/-- Overwrite that slot; out of range panics. -/
def writeSlot (tables : List (List ℕ)) (j slot offset : ℕ) : Option (List (List ℕ)) :=
  tables[j]?.bind fun table =>
    if slot < table.length then some (tables.set j (table.set slot offset)) else none

namespace NgramSpeculator

/-- Slots of a table: twice the window, up to a power of two, capped. -/
def tableEntries (config : NgramConfig) : ℕ :=
  min (config.historyCapacity * 2).nextPowerOfTwo maxTableEntries

/-- Nothing observed, every slot empty. -/
def new (config : NgramConfig) : NgramSpeculator where
  config
  history := .filled config.historyCapacity 0
  total := 0
  tables := List.replicate (config.maxNgram + 1 - config.minNgram)
    (List.replicate (tableEntries config) 0)
  tableMask := BitVec.ofNat 64 (tableEntries config - 1)

/-- Index the n-grams that end at `last`, under the offset of that end. -/
def indexFrom (s : NgramSpeculator) (last offset : ℕ) :
    List ℕ → List (List ℕ) → Option (List (List ℕ))
  | [], tables => some tables
  | n :: ns, tables =>
    if last < n then some tables
    else do
      let first ← checkedSub last n
      let gram ← s.history.slice first n
      let tables ← writeSlot tables (n - s.config.minNgram) (slotOf s.tableMask gram) offset
      s.indexFrom last offset ns tables

/-- Add one committed token, and index the n-grams it continues. -/
def observe (s : NgramSpeculator) (token : ℤ) : Option NgramSpeculator := do
  let next := { s with history := s.history.push token, total := s.total + 1 }
  let last ← checkedSub next.history.len 1
  let offset ← checkedSub next.total 1
  let tables ← next.indexFrom last offset
    (List.range' s.config.minNgram (s.config.maxNgram + 1 - s.config.minNgram)) s.tables
  some { next with tables }

/-- Observe tokens in order. -/
def observeAll (s : NgramSpeculator) (tokens : List ℤ) : Option NgramSpeculator :=
  tokens.foldlM observe s

/-- Draft the continuation of the newest indexed occurrence of the longest
suffix, verified against the history. -/
def proposeFrom (s : NgramSpeculator) (room : ℕ) : List ℕ → Option (List ℤ)
  | [] => some []
  | n :: ns => do
    let suffix ← checkedSub s.history.len n
    let gram ← s.history.slice suffix n
    let endAbs ← readSlot s.tables (n - s.config.minNgram) (slotOf s.tableMask gram)
    if endAbs = 0 then s.proposeFrom room ns
    else
      let windowBase ← checkedSub s.total s.history.len
      -- it has left the ring, or is the suffix itself
      if s.total ≤ endAbs ∨ endAbs < windowBase + n then s.proposeFrom room ns
      else
        let last ← checkedSub endAbs windowBase
        let first ← checkedSub last n
        let earlier ← s.history.slice first n
        if earlier ≠ gram then s.proposeFrom room ns
        else
          let available ← checkedSub s.history.len last
          s.history.slice last (min room available)

/-- The tokens a caller's buffer has room for. -/
def room (config : NgramConfig) (capacity : ℕ) (out : List ℤ) : ℕ :=
  min (capacity - out.length) config.maxDraftTokens

/-- Append a draft to the caller's buffer, and say how long it is. -/
def proposeInto (s : NgramSpeculator) (capacity : ℕ) (out : List ℤ) : Option (List ℤ × ℕ) :=
  if room s.config capacity out = 0 then some (out, 0)
  else do
    let maxN := min s.config.maxNgram s.history.len
    let draft ← s.proposeFrom (room s.config capacity out)
      (List.range' s.config.minNgram (maxN + 1 - s.config.minNgram)).reverse
    some (out ++ draft, draft.length)

end NgramSpeculator

/-! ### The scan -/

/-- The `n` tokens that end at a position. -/
def gramAt (window : List ℤ) (n last : ℕ) : List ℤ := (window.drop (last - n)).take n

/-- The continuation of the newest earlier occurrence of the longest suffix, by
direct backward scan. -/
def scanFrom (window : List ℤ) (room : ℕ) : List ℕ → List ℤ
  | [] => []
  | n :: ns =>
    match (List.range (window.length - n)).reverse.find? fun candidate =>
        decide (gramAt window n (candidate + n) = gramAt window n window.length) with
    | some candidate =>
      (window.drop (candidate + n)).take (min room (window.length - (candidate + n)))
    | none => scanFrom window room ns

/-- The draft a scan finds, longest n-grams first. -/
def scanPropose (window : List ℤ) (config : NgramConfig) (room : ℕ) : List ℤ :=
  scanFrom window room (List.range' config.minNgram
    (min config.maxNgram window.length + 1 - config.minNgram)).reverse

/-! ### N-grams of a stream -/

section Grams

variable {stream : List ℤ} {n last : ℕ}

/-- A token more changes no n-gram that ends before it. -/
theorem gramAt_concat (a : ℤ) (hn : n ≤ last) (hlast : last ≤ stream.length) :
    gramAt (stream ++ [a]) n last = gramAt stream n last := by
  rw [gramAt, gramAt, List.drop_append_of_le_length (by omega), List.take_append_of_le_length]
  rw [List.length_drop]
  omega

/-- An n-gram of a window is one of the stream. -/
theorem gramAt_drop (base : ℕ) (hn : n ≤ last) :
    gramAt (stream.drop base) n last = gramAt stream n (base + last) := by
  rw [gramAt, gramAt, List.drop_drop, Nat.add_sub_assoc hn]

end Grams

theorem checkedSub_eq {a b : ℕ} (h : b ≤ a) : checkedSub a b = some (a - b) := if_pos h

section Tables

variable {tables : List (List ℕ)} {j k slot slot' : ℕ}

theorem writeSlot_eq (offset : ℕ) (hj : j < tables.length) (hslot : slot < tables[j].length) :
    writeSlot tables j slot offset = some (tables.set j (tables[j].set slot offset)) := by
  rw [writeSlot, List.getElem?_eq_getElem hj]
  exact if_pos hslot

/-- A written slot reads what was written, and the others what they did. -/
theorem readSlot_set {offset : ℕ} (hj : j < tables.length) (hslot : slot < tables[j].length) :
    readSlot (tables.set j (tables[j].set slot offset)) k slot'
      = if k = j ∧ slot' = slot then some offset else readSlot tables k slot' := by
  by_cases hk : k = j
  · rw [hk, readSlot, List.getElem?_set_self hj, Option.bind_some]
    by_cases hs : slot' = slot
    · rw [if_pos ⟨rfl, hs⟩, hs, List.getElem?_set_self hslot]
    · rw [if_neg fun h => hs h.2, List.getElem?_set_ne (Ne.symm hs), readSlot,
        List.getElem?_eq_getElem hj, Option.bind_some]
  · rw [if_neg fun h => hk h.1, readSlot, readSlot, List.getElem?_set_ne (Ne.symm hk)]

end Tables

/-! ### What a speculator has observed -/

/-- The entry of a slot is the newest offset whose n-gram belongs there. -/
structure Newest (mask : BitVec 64) (stream : List ℤ) (n slot offset : ℕ) : Prop where
  found : offset = 0 ∨ (n ≤ offset ∧ offset < stream.length ∧
    slotOf mask (gramAt stream n offset) = slot)
  latest : ∀ last, n ≤ last → last < stream.length → slotOf mask (gramAt stream n last) = slot →
    last ≤ offset

/-- The tables have the shape they were made with. -/
structure Shaped (config : NgramConfig) (tables : List (List ℕ)) : Prop where
  length : tables.length = config.maxNgram + 1 - config.minNgram
  entries : ∀ j (hj : j < tables.length),
    tables[j].length = NgramSpeculator.tableEntries config

/-- The speculator has observed a stream. -/
structure Tracks (config : NgramConfig) (stream : List ℤ) (s : NgramSpeculator) : Prop where
  config_eq : s.config = config
  cells : s.history.cells.length = config.historyCapacity
  history : s.history.Holds (recent s.history.cells.length stream)
  total : s.total = stream.length
  mask : s.tableMask = BitVec.ofNat 64 (NgramSpeculator.tableEntries config - 1)
  shaped : Shaped config s.tables
  indexed : ∀ n, config.minNgram ≤ n → n ≤ config.maxNgram → ∀ slot,
    slot < NgramSpeculator.tableEntries config →
      ∃ offset, readSlot s.tables (n - config.minNgram) slot = some offset ∧
        Newest s.tableMask stream n slot offset

theorem Shaped.set {config : NgramConfig} {tables : List (List ℕ)} (h : Shaped config tables)
    {j : ℕ} (hj : j < tables.length) (slot offset : ℕ) :
    Shaped config (tables.set j (tables[j].set slot offset)) := by
  refine ⟨by rw [List.length_set, h.length], fun k hk => ?_⟩
  rw [List.length_set] at hk
  rw [List.getElem_set]
  split
  · rw [List.length_set]
    exact h.entries j hj
  · exact h.entries k hk

section Observe

variable {config : NgramConfig} {stream : List ℤ} {s : NgramSpeculator}

theorem tableEntries_pos (config : NgramConfig) : 0 < NgramSpeculator.tableEntries config := by
  refine lt_min (Nat.pos_of_isPowerOfTwo ?_) (by decide)
  exact Nat.isPowerOfTwo_nextPowerOfTwo _

theorem tableEntries_le (config : NgramConfig) :
    NgramSpeculator.tableEntries config ≤ 2 ^ 20 := min_le_right _ _

/-- Every n-gram has a slot of its table. -/
theorem slotOf_lt (config : NgramConfig) (gram : List ℤ) :
    slotOf (BitVec.ofNat 64 (NgramSpeculator.tableEntries config - 1)) gram
      < NgramSpeculator.tableEntries config := by
  have hpos := tableEntries_pos config
  have hle := tableEntries_le config
  rw [slotOf, BitVec.toNat_and, BitVec.toNat_ofNat, Nat.mod_eq_of_lt (by omega)]
  have hand := @Nat.and_le_right (gram.foldl mix 0).toNat (NgramSpeculator.tableEntries config - 1)
  omega

theorem Tracks.len (h : Tracks config stream s) :
    s.history.len = min config.historyCapacity stream.length := by
  rw [← h.history.length, recent_length, h.cells]

theorem Tracks.new (config : NgramConfig) : Tracks config [] (.new config) := by
  have hcapacity : 0 < config.historyCapacity := (Nat.zero_le _).trans_lt config.capacity_gt
  have hshape : Shaped config (NgramSpeculator.new config).tables := by
    refine ⟨List.length_replicate, fun j hj => ?_⟩
    have hrow : (NgramSpeculator.new config).tables[j]
        = List.replicate (NgramSpeculator.tableEntries config) 0 := List.getElem_replicate _
    rw [hrow, List.length_replicate]
  refine ⟨rfl, List.length_replicate, ?_, rfl, rfl, hshape, fun n hmin hmax slot hslot => ?_⟩
  · have hempty : recent (NgramSpeculator.new config).history.cells.length ([] : List ℤ) = [] :=
      List.drop_nil
    rw [hempty]
    exact RingBuffer.Holds.filled hcapacity 0
  · refine ⟨0, ?_, Or.inl rfl, fun last _ hlast => absurd hlast (Nat.not_lt_zero last)⟩
    have hj : n - config.minNgram < config.maxNgram + 1 - config.minNgram := by omega
    have hrow : (NgramSpeculator.new config).tables[n - config.minNgram]?
        = some (List.replicate (NgramSpeculator.tableEntries config) 0) := by
      rw [NgramSpeculator.new, List.getElem?_replicate, if_pos hj]
    rw [readSlot, hrow, Option.bind_some, List.getElem?_replicate, if_pos hslot]

/-- Indexing from `first` on writes one slot for each n-gram that ends at
`last` and fits. -/
theorem indexFrom_spec {window : List ℤ} {last : ℕ} (offset : ℕ)
    (hwindow : s.history.Holds window) (hlast : last ≤ window.length)
    (hmask : s.tableMask = BitVec.ofNat 64 (NgramSpeculator.tableEntries s.config - 1)) :
    ∀ (count first : ℕ) {tables : List (List ℕ)}, s.config.minNgram ≤ first →
      first + count ≤ s.config.maxNgram + 1 → Shaped s.config tables →
        ∃ tables', s.indexFrom last offset (List.range' first count) tables = some tables' ∧
          Shaped s.config tables' ∧
          ∀ n, s.config.minNgram ≤ n → ∀ slot,
            readSlot tables' (n - s.config.minNgram) slot
              = if first ≤ n ∧ n < first + count ∧ n ≤ last ∧
                  slot = slotOf s.tableMask (gramAt window n last) then some offset
                else readSlot tables (n - s.config.minNgram) slot
  | 0, first, tables, _, _, hshape => by
    refine ⟨tables, rfl, hshape, fun n _ slot => (if_neg ?_).symm⟩
    omega
  | count + 1, first, tables, hmin, hmax, hshape => by
    rw [List.range'_succ, NgramSpeculator.indexFrom]
    by_cases hshort : last < first
    · rw [if_pos hshort]
      refine ⟨tables, rfl, hshape, fun n _ slot => (if_neg ?_).symm⟩
      omega
    · rw [if_neg hshort, checkedSub_eq (Nat.not_lt.mp hshort), Option.bind_eq_bind,
        Option.bind_some, hwindow.slice _ (by omega), Option.bind_eq_bind, Option.bind_some]
      have hj : first - s.config.minNgram < tables.length := by
        rw [hshape.length]
        omega
      have hslot : slotOf s.tableMask (gramAt window first last)
          < tables[first - s.config.minNgram].length := by
        rw [hshape.entries _ hj, hmask]
        exact slotOf_lt _ _
      have hwrite := writeSlot_eq offset hj hslot
      rw [gramAt] at hwrite
      rw [hwrite, Option.bind_eq_bind, Option.bind_some]
      obtain ⟨tables', hindex, hshape', hread⟩ := indexFrom_spec offset hwindow hlast hmask count
        (first + 1) (by omega) (by omega)
        (hshape.set hj (slotOf s.tableMask (gramAt window first last)) offset)
      refine ⟨tables', hindex, hshape', fun n hn slot => ?_⟩
      rw [hread n hn slot, readSlot_set hj hslot]
      by_cases hfirst : n = first
      · -- the slot just written
        subst hfirst
        rw [if_neg (by omega)]
        by_cases hs : slot = slotOf s.tableMask (gramAt window n last)
        · rw [if_pos ⟨rfl, hs⟩, if_pos ⟨le_rfl, by omega, by omega, hs⟩]
        · rw [if_neg fun h => hs h.2, if_neg fun h => hs h.2.2.2]
      · have hother : ¬ (n - s.config.minNgram = first - s.config.minNgram ∧
            slot = slotOf s.tableMask (gramAt window first last)) := by omega
        rw [if_neg hother]
        refine if_congr ?_ rfl rfl
        refine ⟨fun h => ⟨by omega, by omega, h.2.2⟩, fun h => ⟨by omega, by omega, h.2.2⟩⟩

/-- A token more is observed, whatever has been before. -/
theorem Tracks.observe (h : Tracks config stream s) (token : ℤ) :
    ∃ s', s.observe token = some s' ∧ Tracks config (stream ++ [token]) s' := by
  set next : NgramSpeculator := { s with
    history := s.history.push token, total := s.total + 1 } with hnext
  have hconfig : next.config = config := h.config_eq
  have hholds := h.history.observe token
  have hcells : (s.history.push token).cells.length = config.historyCapacity := by
    rw [RingBuffer.push_cells_length, h.cells]
  have hcapacity := config.capacity_gt
  have hlen : (s.history.push token).len = min config.historyCapacity (stream.length + 1) := by
    rw [← hholds.length, recent_length, hcells, List.length_append, List.length_singleton]
  have hwindow : (recent (s.history.push token).cells.length (stream ++ [token])).length
      = (s.history.push token).len := hholds.length
  have hend : next.history.len - 1
      ≤ (recent (s.history.push token).cells.length (stream ++ [token])).length := by
    rw [hwindow]
    exact Nat.sub_le _ _
  have hmin := config.min_le
  obtain ⟨tables, hindex, hshape, hread⟩ := indexFrom_spec (s := next) (next.total - 1)
    hholds hend (hconfig.symm ▸ h.mask) (config.maxNgram + 1 - config.minNgram) config.minNgram
    (hconfig ▸ le_rfl) (by rw [hconfig]; omega) (hconfig.symm ▸ h.shaped)
  rw [hconfig] at hshape hread
  have hoffset : next.total - 1 = stream.length := h.total
  have hlast : next.history.len - 1 = min config.historyCapacity (stream.length + 1) - 1 :=
    congrArg (· - 1) hlen
  -- the n-grams indexed are those of the stream that end before the new token
  have hgram : ∀ n, n ≤ next.history.len - 1 →
      gramAt (recent (s.history.push token).cells.length (stream ++ [token])) n
          (next.history.len - 1)
        = gramAt (stream ++ [token]) n stream.length := by
    intro n hn
    rw [recent, gramAt_drop _ hn, hcells, List.length_append, List.length_singleton]
    congr 1
    omega
  refine ⟨{ next with tables }, ?_, h.config_eq, hcells, hholds, ?_, h.mask, hshape,
    fun n hn hmax slot hslot => ?_⟩
  · rw [NgramSpeculator.observe]
    simp only
    rw [← hnext, checkedSub_eq (by omega), checkedSub_eq (Nat.succ_pos _), Option.bind_eq_bind,
      Option.bind_some, Option.bind_eq_bind, Option.bind_some, h.config_eq]
    rw [show next.indexFrom (next.history.len - 1) (next.total - 1)
      (List.range' config.minNgram (config.maxNgram + 1 - config.minNgram)) s.tables
        = some tables from hindex]
    rfl
  · rw [List.length_append, List.length_singleton, ← h.total]
  · have hentry := hread n hn slot
    rw [hoffset] at hentry
    -- is this the slot of the n-gram that ends before the new token?
    by_cases hhit : config.minNgram ≤ n ∧ n < config.minNgram +
        (config.maxNgram + 1 - config.minNgram) ∧ n ≤ next.history.len - 1 ∧
        slot = slotOf next.tableMask (gramAt (recent (s.history.push token).cells.length
          (stream ++ [token])) n (next.history.len - 1))
    · rw [if_pos hhit] at hentry
      have hshort := hhit.2.2.1
      -- its newest end is the one just written
      refine ⟨stream.length, hentry, Or.inr ⟨by omega, ?_, ?_⟩, fun last _ hlt _ => ?_⟩
      · rw [List.length_append, List.length_singleton]
        exact Nat.lt_succ_self _
      · rw [hhit.2.2.2, hgram n hshort]
      · rw [List.length_append, List.length_singleton] at hlt
        exact Nat.lt_succ_iff.mp hlt
    · rw [if_neg hhit] at hentry
      obtain ⟨offset, hold, hnewest⟩ := h.indexed n hn hmax slot hslot
      refine ⟨offset, hentry.trans hold, ?_, fun last hle hlt hsame => ?_⟩
      -- else the slot keeps its entry, and the occurrences are those of before
      · refine hnewest.found.imp_right fun hfound => ⟨hfound.1, ?_, ?_⟩
        · rw [List.length_append]
          omega
        · rw [gramAt_concat token hfound.1 hfound.2.1.le]
          exact hfound.2.2
      · rw [List.length_append, List.length_singleton] at hlt
        obtain hbefore | rfl := Nat.lt_succ_iff_lt_or_eq.mp hlt
        · rw [gramAt_concat token hle hbefore.le] at hsame
          exact hnewest.latest last hle hbefore hsame
        -- an n-gram with this slot that ends now would have been written there
        · exfalso
          refine hhit ⟨hn, by omega, by omega, ?_⟩
          rw [hgram n (by omega)]
          exact hsame.symm

theorem Tracks.observeAll : ∀ (tokens : List ℤ) {stream : List ℤ} {s : NgramSpeculator},
    Tracks config stream s →
      ∃ s', s.observeAll tokens = some s' ∧ Tracks config (stream ++ tokens) s'
  | [], stream, s, h => ⟨s, rfl, by rw [List.append_nil]; exact h⟩
  | token :: tokens, stream, s, h => by
    obtain ⟨mid, hmid, hnext⟩ := h.observe token
    obtain ⟨s', hs', hall⟩ := Tracks.observeAll tokens hnext
    refine ⟨s', ?_, ?_⟩
    · rw [NgramSpeculator.observeAll, List.foldlM_cons, hmid]
      exact hs'
    · rw [List.append_assoc] at hall
      exact hall

end Observe

/-- A backward search of a range finds the last entry that passes. -/
theorem find_reverse_range {p : ℕ → Bool} : ∀ {m : ℕ},
    ((List.range m).reverse.find? p = none → ∀ c < m, p c = false) ∧
      ∀ c, (List.range m).reverse.find? p = some c →
        c < m ∧ p c = true ∧ ∀ d, c < d → d < m → p d = false
  | 0 => by
    refine ⟨fun _ c hc => absurd hc (Nat.not_lt_zero c), fun c hc => ?_⟩
    cases hc
  | m + 1 => by
    obtain ⟨hnone, hsome⟩ := find_reverse_range (p := p) (m := m)
    rw [List.range_succ, List.reverse_append, List.reverse_singleton, List.singleton_append,
      List.find?_cons]
    cases hp : p m with
    | true =>
      refine ⟨fun h => (Option.some_ne_none m h).elim, fun c hc => ?_⟩
      cases hc
      exact ⟨Nat.lt_succ_self m, hp, fun d hd hlt => by omega⟩
    | false =>
      refine ⟨fun h c hc => ?_, fun c hc => ?_⟩
      · obtain hlt | rfl := Nat.lt_succ_iff_lt_or_eq.mp hc
        · exact hnone h c hlt
        · exact hp
      · obtain ⟨hlt, hfound, hlater⟩ := hsome c hc
        refine ⟨hlt.trans (Nat.lt_succ_self m), hfound, fun d hd hdm => ?_⟩
        obtain hbefore | rfl := Nat.lt_succ_iff_lt_or_eq.mp hdm
        · exact hlater d hd hbefore
        · exact hp

/-! ### Drafts -/

/-- No two n-grams of the window share a slot of the table for their length. -/
def SlotsDistinct (config : NgramConfig) (window : List ℤ) : Prop :=
  ∀ n, config.minNgram ≤ n → n ≤ config.maxNgram → ∀ last last', n ≤ last → n ≤ last' →
    last ≤ window.length → last' ≤ window.length →
    slotOf (BitVec.ofNat 64 (NgramSpeculator.tableEntries config - 1)) (gramAt window n last)
        = slotOf (BitVec.ofNat 64 (NgramSpeculator.tableEntries config - 1))
          (gramAt window n last') →
      gramAt window n last = gramAt window n last'

/-- An earlier occurrence, inside the window, of its last `n` tokens. -/
structure Occurs (window : List ℤ) (n last : ℕ) : Prop where
  inside : n ≤ last
  earlier : last < window.length
  same : gramAt window n last = gramAt window n window.length

section Propose

variable {config : NgramConfig} {stream : List ℤ} {s : NgramSpeculator}

/-- The table's entry for the suffix of a length. -/
def suffixEntry (s : NgramSpeculator) (window : List ℤ) (n : ℕ) : Option ℕ :=
  readSlot s.tables (n - s.config.minNgram) (slotOf s.tableMask (gramAt window n window.length))

/-- One length either drafts behind the occurrence its entry points at, or is
passed over because the entry points at none. -/
theorem Tracks.proposeFrom_cons (h : Tracks config stream s) {n : ℕ} (ns : List ℕ) (room : ℕ)
    (hmin : config.minNgram ≤ n) (hmax : n ≤ config.maxNgram)
    (hlen : n ≤ (recent config.historyCapacity stream).length) :
    (∃ last, Occurs (recent config.historyCapacity stream) n last ∧
        suffixEntry s (recent config.historyCapacity stream) n
          = some (stream.length - config.historyCapacity + last) ∧
        s.proposeFrom room (n :: ns) = some (((recent config.historyCapacity stream).drop last).take
          (min room ((recent config.historyCapacity stream).length - last)))) ∨
      (s.proposeFrom room (n :: ns) = s.proposeFrom room ns ∧
        ∀ last, Occurs (recent config.historyCapacity stream) n last →
          suffixEntry s (recent config.historyCapacity stream) n
            ≠ some (stream.length - config.historyCapacity + last)) := by
  have hwindow := h.history
  rw [h.cells] at hwindow
  set window := recent config.historyCapacity stream with hw
  have hlength : window.length = min config.historyCapacity stream.length := recent_length
  have hpos := config.min_pos
  obtain ⟨endAbs, hentry, hnewest⟩ := h.indexed n hmin hmax
    (slotOf s.tableMask (gramAt window n window.length)) (h.mask ▸ slotOf_lt config _)
  have hsuffix : suffixEntry s window n = some endAbs := by
    rw [suffixEntry, h.config_eq]
    exact hentry
  rw [hsuffix, NgramSpeculator.proposeFrom, ← hwindow.length, checkedSub_eq hlen, h.config_eq,
    Option.bind_eq_bind, Option.bind_some, hwindow.slice _ (by omega), Option.bind_eq_bind,
    Option.bind_some]
  have hgram : (window.drop (window.length - n)).take n = gramAt window n window.length := rfl
  rw [hgram, hentry, Option.bind_some]
  -- a slot never written points at no occurrence
  by_cases hempty : endAbs = 0
  · refine Or.inr ⟨if_pos hempty, fun last hoccurs heq => ?_⟩
    have hinside := hoccurs.inside
    have heq' := Option.some.inj heq
    omega
  rw [if_neg hempty, h.total, checkedSub_eq (by omega), Option.bind_some]
  -- the entry is stale: its n-gram has left the window
  by_cases hstale : stream.length ≤ endAbs ∨ endAbs < stream.length - window.length + n
  · refine Or.inr ⟨if_pos hstale, fun last hoccurs heq => ?_⟩
    have hinside := hoccurs.inside
    have hearlier := hoccurs.earlier
    have heq' := Option.some.inj heq
    omega
  rw [if_neg hstale, checkedSub_eq (by omega), Option.bind_some, checkedSub_eq (by omega),
    Option.bind_some, hwindow.slice _ (by omega), Option.bind_some]
  set last := endAbs - (stream.length - window.length) with hlast
  have hoffset : endAbs = stream.length - config.historyCapacity + last := by omega
  have hearlier : (window.drop (last - n)).take n = gramAt window n last := rfl
  rw [hearlier]
  -- the slot may hold another n-gram, so the tokens are compared
  by_cases hsame : gramAt window n last = gramAt window n window.length
  · refine Or.inl ⟨last, ⟨by omega, by omega, hsame⟩, congrArg some hoffset, ?_⟩
    rw [if_neg (not_not.mpr hsame), checkedSub_eq (by omega), Option.bind_some]
    exact hwindow.slice _ (by omega)
  · refine Or.inr ⟨if_pos hsame, fun last' hoccurs heq => ?_⟩
    have heq' := Option.some.inj heq
    have hlast' : last' = last := by omega
    exact hsame (hlast' ▸ hoccurs.same)

/-- Over any lengths: a draft continues an occurrence, and fits the room. -/
theorem Tracks.proposeFrom_sound (h : Tracks config stream s) (room : ℕ) :
    ∀ {ns : List ℕ}, (∀ n ∈ ns, config.minNgram ≤ n ∧ n ≤ config.maxNgram ∧
        n ≤ (recent config.historyCapacity stream).length) →
      ∃ draft, s.proposeFrom room ns = some draft ∧ draft.length ≤ room ∧
        (draft ≠ [] → ∃ n ∈ ns, ∃ last, Occurs (recent config.historyCapacity stream) n last ∧
          draft <+: (recent config.historyCapacity stream).drop last)
  | [], _ => ⟨[], rfl, Nat.zero_le _, fun hne => absurd rfl hne⟩
  | n :: ns, hns => by
    obtain ⟨hmin, hmax, hlen⟩ := hns n List.mem_cons_self
    obtain ⟨last, hoccurs, -, hdraft⟩ | ⟨hpass, -⟩ :=
      h.proposeFrom_cons ns room hmin hmax hlen
    · refine ⟨_, hdraft, ?_, fun _ => ⟨n, List.mem_cons_self, last, hoccurs, List.take_prefix _ _⟩⟩
      rw [List.length_take]
      omega
    · obtain ⟨draft, hdraft, hfits, hfrom⟩ := h.proposeFrom_sound room fun m hm =>
        hns m (List.mem_cons_of_mem _ hm)
      refine ⟨draft, hpass.trans hdraft, hfits, fun hne => ?_⟩
      obtain ⟨m, hm, hlast⟩ := hfrom hne
      exact ⟨m, List.mem_cons_of_mem _ hm, hlast⟩

/-- Without collisions the entry of the suffix points at its newest earlier
occurrence. -/
theorem Tracks.suffixEntry_newest (h : Tracks config stream s)
    (hdistinct : SlotsDistinct config (recent config.historyCapacity stream)) {n : ℕ} (last : ℕ)
    (hmin : config.minNgram ≤ n) (hmax : n ≤ config.maxNgram)
    (hoccurs : Occurs (recent config.historyCapacity stream) n last)
    (hnewest : ∀ last', last < last' → ¬ Occurs (recent config.historyCapacity stream) n last') :
    suffixEntry s (recent config.historyCapacity stream) n
      = some (stream.length - config.historyCapacity + last) := by
  set window := recent config.historyCapacity stream with hw
  have hlength : window.length = min config.historyCapacity stream.length := recent_length
  have hinside := hoccurs.inside
  have hearlier := hoccurs.earlier
  have hpos := config.min_pos
  have hslots := hdistinct n hmin hmax
  rw [← h.mask] at hslots
  obtain ⟨offset, hentry, hindexed⟩ := h.indexed n hmin hmax
    (slotOf s.tableMask (gramAt window n window.length)) (h.mask ▸ slotOf_lt config _)
  rw [suffixEntry, h.config_eq, hentry]
  -- the occurrence was indexed under this slot, so the entry is not older
  have hle : stream.length - config.historyCapacity + last ≤ offset := by
    refine hindexed.latest _ (by omega) (by omega) ?_
    rw [← gramAt_drop _ hinside]
    exact congrArg (slotOf s.tableMask) hoccurs.same
  obtain hzero | ⟨hfits, hlt, hslot⟩ := hindexed.found
  · omega
  -- and it is one of the window, so it is an occurrence too
  have hentry' : offset = stream.length - config.historyCapacity
      + (offset - (stream.length - config.historyCapacity)) := by omega
  rw [hentry', ← gramAt_drop _ (by omega)] at hslot
  have hsame := hslots _ window.length (by omega) (by omega) (by omega) le_rfl hslot
  have hbound : ¬ last < offset - (stream.length - config.historyCapacity) := fun hlater =>
    hnewest _ hlater ⟨by omega, by omega, hsame⟩
  congr 1
  omega

/-- Without collisions the index drafts what the scan does. -/
theorem Tracks.proposeFrom_scan (h : Tracks config stream s)
    (hdistinct : SlotsDistinct config (recent config.historyCapacity stream)) (room : ℕ) :
    ∀ (ns : List ℕ), (∀ n ∈ ns, config.minNgram ≤ n ∧ n ≤ config.maxNgram ∧
        n ≤ (recent config.historyCapacity stream).length) →
      s.proposeFrom room ns = some (scanFrom (recent config.historyCapacity stream) room ns)
  | [], _ => rfl
  | n :: ns, hns => by
    obtain ⟨hmin, hmax, hlen⟩ := hns n List.mem_cons_self
    have hrest := h.proposeFrom_scan hdistinct room ns fun m hm =>
      hns m (List.mem_cons_of_mem _ hm)
    have hcons := h.proposeFrom_cons ns room hmin hmax hlen
    have hentry := fun last => h.suffixEntry_newest hdistinct last hmin hmax
    set window := recent config.historyCapacity stream
    rw [scanFrom]
    obtain ⟨hnone, hsome⟩ := find_reverse_range (m := window.length - n)
      (p := fun candidate =>
        decide (gramAt window n (candidate + n) = gramAt window n window.length))
    cases hfind : (List.range (window.length - n)).reverse.find? fun candidate =>
        decide (gramAt window n (candidate + n) = gramAt window n window.length) with
    | none =>
      have hmiss : ∀ last, ¬ Occurs window n last := by
        intro last hoccurs
        have hinside := hoccurs.inside
        have hearlier := hoccurs.earlier
        have hfalse := of_decide_eq_false (hnone hfind (last - n) (by omega))
        rw [Nat.sub_add_cancel hinside] at hfalse
        exact hfalse hoccurs.same
      obtain ⟨last, hoccurs, -⟩ | ⟨hpass, -⟩ := hcons
      · exact absurd hoccurs (hmiss last)
      · exact hpass.trans hrest
    | some candidate =>
      obtain ⟨hlt, hfound, hlater⟩ := hsome candidate hfind
      have hoccurs : Occurs window n (candidate + n) :=
        ⟨Nat.le_add_left n candidate, by omega, of_decide_eq_true hfound⟩
      have hnewest : ∀ last, candidate + n < last → ¬ Occurs window n last := by
        intro last hlast hagain
        have hearlier := hagain.earlier
        have hfalse := of_decide_eq_false (hlater (last - n) (by omega) (by omega))
        rw [Nat.sub_add_cancel hagain.inside] at hfalse
        exact hfalse hagain.same
      have hpoints := hentry (candidate + n) hoccurs hnewest
      obtain ⟨last, -, hsuffix, hdraft⟩ | ⟨-, hmiss⟩ := hcons
      · have hsame : last = candidate + n := by
          have heq := Option.some.inj (hsuffix.symm.trans hpoints)
          omega
        rw [hdraft, hsame]
      · exact absurd hpoints (hmiss (candidate + n) hoccurs)

theorem scanFrom_zero {window : List ℤ} : ∀ ns : List ℕ, scanFrom window 0 ns = []
  | [] => rfl
  | n :: ns => by
    rw [scanFrom]
    split
    · rw [Nat.zero_min, List.take_zero]
    · exact scanFrom_zero ns

/-- After any stream of tokens: nothing is read that is not there; what is
appended fits the caller's buffer and the configuration, and continues an
earlier occurrence, inside the window, of the last tokens for some configured
length; and if no two n-grams of the window share a slot it is the draft of the
backward scan. -/
theorem drafts_from_history (config : NgramConfig) (stream : List ℤ) (capacity : ℕ)
    (out : List ℤ) :
    ∃ s draft, (NgramSpeculator.new config).observeAll stream = some s ∧
      s.proposeInto capacity out = some (out ++ draft, draft.length) ∧
      draft.length ≤ NgramSpeculator.room config capacity out ∧
      (draft ≠ [] → ∃ n last, config.minNgram ≤ n ∧ n ≤ config.maxNgram ∧
        Occurs (recent config.historyCapacity stream) n last ∧
        draft <+: (recent config.historyCapacity stream).drop last) ∧
      (SlotsDistinct config (recent config.historyCapacity stream) →
        draft = scanPropose (recent config.historyCapacity stream) config
          (NgramSpeculator.room config capacity out)) := by
  obtain ⟨s, hs, h⟩ := Tracks.observeAll stream (Tracks.new config)
  rw [List.nil_append] at h
  set window := recent config.historyCapacity stream with hw
  have hwindow : window.length = s.history.len := by
    have hheld := h.history
    rw [h.cells] at hheld
    exact hheld.length
  by_cases hroom : NgramSpeculator.room config capacity out = 0
  · refine ⟨s, [], hs, ?_, Nat.zero_le _, fun hne => absurd rfl hne, fun _ => ?_⟩
    · rw [NgramSpeculator.proposeInto, h.config_eq, if_pos hroom, List.append_nil]
      rfl
    · rw [hroom]
      exact (scanFrom_zero _).symm
  · set ns := (List.range' config.minNgram
      (min config.maxNgram window.length + 1 - config.minNgram)).reverse with hns
    have hlengths : ∀ n ∈ ns, config.minNgram ≤ n ∧ n ≤ config.maxNgram ∧ n ≤ window.length := by
      intro n hn
      have hmem := List.mem_range'_1.mp (List.mem_reverse.mp hn)
      omega
    obtain ⟨draft, hdraft, hfits, hfrom⟩ :=
      h.proposeFrom_sound (NgramSpeculator.room config capacity out) hlengths
    refine ⟨s, draft, hs, ?_, hfits, fun hne => ?_, fun hdistinct => ?_⟩
    · rw [NgramSpeculator.proposeInto, h.config_eq, if_neg hroom]
      simp only
      rw [← hwindow, hdraft]
      rfl
    · obtain ⟨n, hn, last, hoccurs, hpre⟩ := hfrom hne
      obtain ⟨hmin, hmax, -⟩ := hlengths n hn
      exact ⟨n, last, hmin, hmax, hoccurs, hpre⟩
    · have hscan := h.proposeFrom_scan hdistinct (NgramSpeculator.room config capacity out) _ hlengths
      exact Option.some.inj (hdraft.symm.trans hscan)

end Propose

end Ngram
