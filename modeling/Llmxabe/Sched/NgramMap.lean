/-
The map drafters (`xabe-sched/src/ngram_map.rs`).

`NgramSimpleSpeculator` scans the history backwards for its tail;
`NgramMapSpeculator` finds an occurrence through a hash map and two scans, and
remembers for each key how much of its last draft was accepted.  A slice
outside the history, an index outside a table and a difference below zero stop
the program (`none`); tokens past the reserved history are dropped, as a
release build drops them.

Neither drafter ever stops, whatever the order of calls; a draft continues an
earlier occurrence of the tail, and an acceptance goes to the key that was
looked up last (`map_drafters_in_bounds`).
-/
import Llmxabe.Sched.Ngram

namespace Ngram

/-- The slice `h[first..last]`. -/
def sliceOf (h : List ℤ) (first last : ℕ) : Option (List ℤ) :=
  if first ≤ last ∧ last ≤ h.length then some ((h.drop first).take (last - first)) else none

/-- Append within the reserved capacity. -/
def pushBounded (capacity : ℕ) (h : List ℤ) (token : ℤ) : List ℤ :=
  if h.length < capacity then h ++ [token] else h

/-- Walk down from `j` while above `stop`, to the first place the key stands. -/
def scanDown (h key : List ℤ) (stop : ℕ) : ℕ → Option (Option ℕ)
  | 0 => some none
  | j + 1 =>
    if j + 1 ≤ stop then some none
    else do
      let gram ← sliceOf h (j + 1) (j + 1 + key.length)
      if gram = key then some (some (j + 1)) else scanDown h key stop j

/-! ### ngram-simple -/

/-- Lengths of the key and of the draft, and of the window they are looked up in. -/
structure NgramSimpleConfig where
  sizeN : ℕ
  sizeM : ℕ
  historyCapacity : ℕ
  n_pos : 0 < sizeN
  m_pos : 0 < sizeM
  capacity_gt : sizeN + sizeM + 1 < historyCapacity

/-- The checked constructor. -/
def NgramSimpleConfig.new (sizeN sizeM historyCapacity : ℕ) :
    Except NgramConfigError NgramSimpleConfig :=
  if hn : sizeN = 0 then .error .invalidNgramRange
  else if hm : sizeM = 0 then .error .zeroDraftTokens
  else if hcapacity : historyCapacity ≤ sizeN + sizeM + 1 then .error .historyTooShort
  else .ok {
    sizeN, sizeM, historyCapacity
    n_pos := by omega
    m_pos := by omega
    capacity_gt := by omega }

/-- The window of tokens observed. -/
structure NgramSimpleSpeculator where
  config : NgramSimpleConfig
  history : List ℤ

namespace NgramSimpleSpeculator

/-- Nothing observed. -/
def new (config : NgramSimpleConfig) : NgramSimpleSpeculator := ⟨config, []⟩

/-- The oldest tokens leave a full window. -/
def observe (s : NgramSimpleSpeculator) (token : ℤ) : NgramSimpleSpeculator :=
  { s with history := pushBounded s.config.historyCapacity s.history token }

/-- Observe tokens in order. -/
def observeAll (s : NgramSimpleSpeculator) (tokens : List ℤ) : NgramSimpleSpeculator :=
  tokens.foldl observe s

/-- Draft the continuation of the newest earlier occurrence of the tail. -/
def propose (s : NgramSimpleSpeculator) (room : ℕ) : Option (List ℤ) :=
  if room = 0 ∨ s.history = [] then some []
  else do
    let n := s.config.sizeN
    let m := s.config.sizeM
    let curLen ← checkedSub s.history.length 1
    if curLen ≤ n + m + 1 then some []
    else
      let tail ← checkedSub s.history.length n
      let pattern ← sliceOf s.history tail s.history.length
      let start ← checkedSub curLen (n + 1)
      let found ← scanDown s.history pattern 0 start
      match found with
      | none => some []
      | some matchPos =>
        let after ← checkedSub curLen (matchPos + n)
        let copyMax := min m after
        if copyMax < n then some []
        else sliceOf s.history (matchPos + n) (matchPos + n + min copyMax room)

/-- Append a draft to the caller's buffer, and say how long it is. -/
def proposeInto (s : NgramSimpleSpeculator) (capacity : ℕ) (out : List ℤ) :
    Option (List ℤ × ℕ) := do
  let draft ← s.propose (min (capacity - out.length) s.config.sizeM)
  some (out ++ draft, draft.length)

end NgramSimpleSpeculator

/-! ### ngram-map -/

/-- As for `ngram-simple`, with the hits a key needs and whether continuations are counted at all.
-/
structure NgramMapConfig where
  sizeN : ℕ
  sizeM : ℕ
  keyOnly : Bool
  minHits : ℕ
  historyCapacity : ℕ
  n_pos : 0 < sizeN
  m_pos : 0 < sizeM
  hits_pos : 0 < minHits
  capacity_ge : 2 * sizeN + sizeM + 1 ≤ historyCapacity

/-- The checked constructor. -/
def NgramMapConfig.new (sizeN sizeM : ℕ) (keyOnly : Bool) (minHits historyCapacity : ℕ) :
    Except NgramConfigError NgramMapConfig :=
  if hn : sizeN = 0 then .error .invalidNgramRange
  else if hm : sizeM = 0 then .error .zeroDraftTokens
  else if hhits : minHits = 0 then .error .zeroMinHits
  else if hcapacity : historyCapacity < 2 * sizeN + sizeM + 1 then .error .historyTooShort
  else .ok {
    sizeN, sizeM, keyOnly, minHits, historyCapacity
    n_pos := by omega
    m_pos := by omega
    hits_pos := Nat.pos_of_ne_zero hhits
    capacity_ge := by omega }

/-- Continuations kept for a key. -/
def ngramMapMaxValues : ℕ := 4

/-- Slots of the key index. -/
def ngramMapHashMapSize : ℕ := 262144

/-- Where an occurrence counter saturates. -/
def maxValueCount : ℕ := 16380

/-- The multiplier of the rolling hash. -/
def lcgFactor : BitVec 32 := 2654435761#32

/-- The hash of a key, in wrapping `u32` arithmetic. -/
def mapHash (tokens : List ℤ) : ℕ :=
  (tokens.foldl (fun hash token => hash * lcgFactor + BitVec.ofInt 32 token) 0).toNat

/-- A count as the sixteen signed bits it is kept in. -/
def asI16 (count : ℕ) : ℤ := (BitVec.ofNat 16 count).toInt

/-- The largest number of accepted tokens that is recorded. -/
def i16Max : ℕ := 2 ^ 15 - 1

/-- A continuation of a key and how often it was counted. -/
structure MapValue where
  /-- Where the value stands in the history; zero marks an unused slot. -/
  valueIdx : ℕ
  valueNum : ℕ
  /-- Tokens accepted the last time this value was drafted. -/
  nAccepted : ℤ
  deriving DecidableEq, Repr

/-- An n-gram that was asked for, with its continuations. -/
structure MapKey where
  /-- Where the key stands in the history. -/
  keyIdx : ℕ
  statIdx : ℕ
  keyNum : ℕ
  values : List MapValue
  deriving DecidableEq, Repr

/-- The window, the keys asked for and their index, and the last draft. -/
structure NgramMapSpeculator where
  config : NgramMapConfig
  history : List ℤ
  keys : List MapKey
  keyMap : List ℕ
  keyMapLastIdx : ℕ
  sizeLastBegin : ℕ
  generationStarted : Bool
  lastDraftCreated : Bool
  lastDraftKeyIdx : ℕ
  lastDraftValueIdx : ℕ
  idxLastCheck : ℕ

namespace NgramMapSpeculator

/-- Nothing observed and nothing asked for. -/
def new (config : NgramMapConfig) : NgramMapSpeculator where
  config
  history := []
  keys := []
  keyMap := List.replicate ngramMapHashMapSize 0
  keyMapLastIdx := 0
  sizeLastBegin := 0
  generationStarted := false
  lastDraftCreated := false
  lastDraftKeyIdx := 0
  lastDraftValueIdx := 0
  idxLastCheck := 0

/-- Add one generated token; the first marks where the generation begins. -/
def observe (s : NgramMapSpeculator) (token : ℤ) : NgramMapSpeculator :=
  let s := if s.generationStarted then s else { s with
    generationStarted := true
    sizeLastBegin := s.history.length
    idxLastCheck := s.history.length }
  { s with history := pushBounded s.config.historyCapacity s.history token }

/-- Add prompt tokens. -/
def observeAll (s : NgramMapSpeculator) (tokens : List ℤ) : NgramMapSpeculator :=
  { s with history := tokens.foldl (pushBounded s.config.historyCapacity) s.history }

/-! #### Finding an occurrence -/

/-- The occurrence the hash map knows of; zero is none. -/
def hashed (s : NgramMapSpeculator) (key : List ℤ) (curLen : ℕ) : Option ℕ :=
  if s.keyMap = [] then some 0
  else do
    let idxKey ← s.keyMap[mapHash key % s.keyMap.length]?
    if idxKey = 0 then some 0
    else
      let bound ← checkedSub curLen (s.config.sizeN + s.config.sizeM + 1)
      if bound ≤ idxKey then some 0
      else
        let gram ← sliceOf s.history idxKey (idxKey + s.config.sizeN)
        some (if gram = key then idxKey else 0)

/-- The newest occurrence, by the map and then by scans of what it has not
indexed: the prompt, and the generated region. -/
def findMatch (s : NgramMapSpeculator) (key : List ℤ) (curLen : ℕ) : Option ℕ := do
  let n := s.config.sizeN
  let m := s.config.sizeM
  let known ← s.hashed key curLen
  let early ←
    if known = 0 ∧ n + m + 1 < s.sizeLastBegin then do
      let found ← scanDown s.history key s.keyMapLastIdx (s.sizeLastBegin - n - m - 1)
      some (found.getD 0)
    else some known
  if early = 0 then do
    let start ← checkedSub curLen (n + m + 1)
    let found ← scanDown s.history key (max s.sizeLastBegin s.keyMapLastIdx) start
    some (found.getD 0)
  else some early

/-- Walk down from `j` while above `stop`, and enter each n-gram whose slot is
free. -/
def indexDown (h : List ℤ) (n stop : ℕ) : ℕ → List ℕ → Option (List ℕ)
  | 0, keyMap => some keyMap
  | j + 1, keyMap =>
    if j + 1 ≤ stop then some keyMap
    else do
      let gram ← sliceOf h (j + 1) (j + 1 + n)
      let taken ← keyMap[mapHash gram % keyMap.length]?
      indexDown h n stop j
        (if taken = 0 then keyMap.set (mapHash gram % keyMap.length) ((j + 1) % 2 ^ 32)
          else keyMap)

/-- Index what the scans walked. -/
def indexed (s : NgramMapSpeculator) (curLen : ℕ) : Option NgramMapSpeculator :=
  if s.keyMap = [] then some s
  else do
    let n := s.config.sizeN
    let m := s.config.sizeM
    let keyMap ←
      if n + m + 1 < s.sizeLastBegin then
        indexDown s.history n s.keyMapLastIdx (s.sizeLastBegin - n - m - 1) s.keyMap
      else some s.keyMap
    let start ← checkedSub curLen (n + m + 1)
    let keyMap ← indexDown s.history n (max s.sizeLastBegin s.keyMapLastIdx) start keyMap
    some { s with keyMap, keyMapLastIdx := max s.keyMapLastIdx (start % 2 ^ 32) }

/-! #### The statistics of a key -/

/-- The entry of a key, or one past the last. -/
def findKey (h key : List ℤ) (n : ℕ) : List MapKey → Option ℕ
  | [] => some 0
  | k :: keys => do
    let gram ← sliceOf h k.keyIdx (k.keyIdx + n)
    if gram = key then some 0
    else
      let offset ← findKey h key n keys
      some (offset + 1)

/-- A key just asked for; its value slots are unused. -/
def newKey (m matchPos : ℕ) : MapKey where
  keyIdx := matchPos
  statIdx := 0
  keyNum := 0
  values := List.replicate ngramMapMaxValues ⟨0, 0, asI16 m⟩

/-- Count one more, up to the saturation point. -/
def bump (count : ℕ) : ℕ := min (count + 1) maxValueCount

/-- Count one continuation of the key, in its own slot or the first free one. -/
def countValue (h : List ℤ) (m valueStart : ℕ) : List MapValue → Option (List MapValue)
  | [] => some []
  | value :: values =>
    if value.valueIdx = 0 then some (⟨valueStart, bump 0, asI16 m⟩ :: values)
    else do
      let new ← sliceOf h valueStart (valueStart + m)
      let old ← sliceOf h value.valueIdx (value.valueIdx + m)
      if new = old then some ({ value with valueNum := bump value.valueNum } :: values)
      else
        let values ← countValue h m valueStart values
        some (value :: values)

/-- Fold the occurrences of the key at these places into its values. -/
def countOccurrences (h key : List ℤ) (n m : ℕ) :
    List ℕ → List MapValue → Option (List MapValue)
  | [], values => some values
  | i :: places, values => do
    let gram ← sliceOf h i (i + n)
    if gram = key then
      let values ← countValue h m (i + n) values
      countOccurrences h key n m places values
    else countOccurrences h key n m places values

/-- The slot with the most occurrences, and how many. -/
def dominant (values : List MapValue) : ℕ × ℕ :=
  values.zipIdx.foldl (fun best entry =>
    if best.2 < entry.1.valueNum then (entry.2, entry.1.valueNum) else best) (0, 0)

/-- The occurrences of the other slots. -/
def sumOthers (values : List MapValue) (slot : ℕ) : ℕ :=
  ((values.zipIdx.filter fun entry => decide (entry.2 ≠ slot)).map (·.1.valueNum)).sum

/-! #### Drafting -/

/-- Draft the tokens behind an occurrence, no more than were accepted last. -/
def draftFrom (s : NgramMapSpeculator) (room matchPos keyOffset slot : ℕ) (values : List MapValue) :
    Option (NgramMapSpeculator × List ℤ) := do
  let value ← values[slot]?
  let count := min (max (min (s.config.sizeM : ℤ) value.nAccepted) 0).toNat room
  let draft ← sliceOf s.history (matchPos + s.config.sizeN) (matchPos + s.config.sizeN + count)
  some ({ s with
    lastDraftCreated := true, lastDraftKeyIdx := keyOffset, lastDraftValueIdx := slot }, draft)

/-- Draft behind an occurrence by the statistics of its key. -/
def draftByKey (s : NgramMapSpeculator) (room matchPos : ℕ) (key : List ℤ) :
    Option (NgramMapSpeculator × List ℤ) := do
  let n := s.config.sizeN
  let m := s.config.sizeM
  let keyOffset ← findKey s.history key n s.keys
  let keys := if keyOffset = s.keys.length then s.keys ++ [newKey m matchPos] else s.keys
  let entry ← keys[keyOffset]?
  let entry := { entry with keyNum := bump entry.keyNum }
  let s := { s with keys := keys.set keyOffset entry }
  if s.config.keyOnly then s.draftFrom room matchPos keyOffset 0 entry.values
  else if entry.keyNum < s.config.minHits then some (s, [])
  else do
    let values ← countOccurrences s.history key n m
      (List.range' entry.statIdx (matchPos + 1 - entry.statIdx)) entry.values
    let s := { s with keys := s.keys.set keyOffset { entry with values, statIdx := matchPos } }
    let best := dominant values
    let others := sumOthers values best.1
    if 0 < others ∧ best.2 < 2 * others then some (s, [])
    else s.draftFrom room matchPos keyOffset best.1 values

/-- Draft what followed the n-gram at the end of the window, `room` tokens at most. -/
def propose (s : NgramMapSpeculator) (room : ℕ) : Option (NgramMapSpeculator × List ℤ) :=
  let s := { s with lastDraftCreated := false, lastDraftKeyIdx := 0, lastDraftValueIdx := 0 }
  if room = 0 ∨ s.history = [] then some (s, [])
  else do
    let n := s.config.sizeN
    let m := s.config.sizeM
    let curLen ← checkedSub s.history.length 1
    if curLen < 2 * n + m then some (s, [])
    else
      let s := { s with idxLastCheck := curLen }
      let tail ← checkedSub s.history.length n
      let key ← sliceOf s.history tail s.history.length
      let matchPos ← s.findMatch key curLen
      let s ← s.indexed curLen
      if matchPos = 0 then some (s, []) else s.draftByKey room matchPos key

/-- Append a draft to the caller's buffer, and say how long it is. -/
def proposeInto (s : NgramMapSpeculator) (capacity : ℕ) (out : List ℤ) :
    Option (NgramMapSpeculator × List ℤ × ℕ) := do
  let (s, draft) ← s.propose (min (capacity - out.length) s.config.sizeM)
  some (s, out ++ draft, draft.length)

/-- Record how much of the last draft was accepted. -/
def accept (s : NgramMapSpeculator) (nAccepted : ℕ) : Option NgramMapSpeculator :=
  if !s.lastDraftCreated then some s
  else do
    let entry ← s.keys[s.lastDraftKeyIdx]?
    let value ← entry.values[s.lastDraftValueIdx]?
    let values := entry.values.set s.lastDraftValueIdx
      { value with nAccepted := (min nAccepted i16Max : ℕ) }
    some { s with keys := s.keys.set s.lastDraftKeyIdx { entry with values } }

end NgramMapSpeculator

/-! ### Slices and scans -/

section Scans

variable {h h' key : List ℤ} {n m curLen : ℕ}

theorem sliceOf_eq {first last : ℕ} (hle : first ≤ last) (hlast : last ≤ h.length) :
    sliceOf h first last = some ((h.drop first).take (last - first)) := if_pos ⟨hle, hlast⟩

/-- A slice inside the history is the n-gram that ends with it. -/
theorem sliceOf_gram {j : ℕ} (hj : j + n ≤ h.length) :
    sliceOf h j (j + n) = some (gramAt h n (j + n)) := by
  rw [sliceOf_eq (Nat.le_add_right j n) hj, gramAt, Nat.add_sub_cancel, Nat.add_sub_cancel_left]

theorem gramAt_length {last : ℕ} (hn : n ≤ last) (hlast : last ≤ h.length) :
    (gramAt h n last).length = n := by
  rw [gramAt, List.length_take, List.length_drop]
  omega

/-- An n-gram stays where it is while the history grows. -/
theorem gramAt_of_isPrefix (hpre : h <+: h') {last : ℕ} (hn : n ≤ last)
    (hlast : last ≤ h.length) : gramAt h' n last = gramAt h n last := by
  obtain ⟨more, rfl⟩ := hpre
  rw [gramAt, gramAt, List.drop_append_of_le_length (by omega), List.take_append_of_le_length]
  rw [List.length_drop]
  omega

theorem scanDown_spec (key : List ℤ) (stop : ℕ) : ∀ j, j + key.length ≤ h.length →
    ∃ found, scanDown h key stop j = some found ∧
      ∀ i, found = some i → 0 < i ∧ i ≤ j ∧ gramAt h key.length (i + key.length) = key
  | 0, _ => ⟨none, rfl, fun i hi => by cases hi⟩
  | j + 1, hj => by
    rw [scanDown]
    by_cases hstop : j + 1 ≤ stop
    · rw [if_pos hstop]
      exact ⟨none, rfl, fun i hi => by cases hi⟩
    · rw [if_neg hstop, sliceOf_gram hj, Option.bind_eq_bind, Option.bind_some]
      by_cases hgram : gramAt h key.length (j + 1 + key.length) = key
      · rw [if_pos hgram]
        refine ⟨some (j + 1), rfl, fun i hi => ?_⟩
        cases hi
        exact ⟨Nat.succ_pos j, le_rfl, hgram⟩
      · rw [if_neg hgram]
        obtain ⟨found, hfound, hat⟩ := scanDown_spec key stop j (by omega)
        refine ⟨found, hfound, fun i hi => ?_⟩
        obtain ⟨hpos, hle, hsame⟩ := hat i hi
        exact ⟨hpos, hle.trans (Nat.le_succ j), hsame⟩

end Scans

/-- What a drafter of a history may append. -/
structure Drafted (h : List ℤ) (n room : ℕ) (draft : List ℤ) : Prop where
  fits : draft.length ≤ room
  follows : draft ≠ [] → ∃ last, Occurs h n last ∧ draft <+: h.drop last

theorem Drafted.nil (h : List ℤ) (n room : ℕ) : Drafted h n room [] :=
  ⟨Nat.zero_le _, fun hne => absurd rfl hne⟩

/-- The tokens behind an occurrence. -/
theorem Drafted.of_occurs {h draft : List ℤ} {n room last count : ℕ} (hoccurs : Occurs h n last)
    (hcount : last + count ≤ h.length) (hroom : count ≤ room)
    (hdraft : sliceOf h last (last + count) = some draft) : Drafted h n room draft := by
  rw [sliceOf_eq (Nat.le_add_right _ _) hcount, Nat.add_sub_cancel_left] at hdraft
  cases hdraft
  refine ⟨?_, fun _ => ⟨last, hoccurs, List.take_prefix _ _⟩⟩
  rw [List.length_take]
  exact (min_le_left _ _).trans hroom

/-- `ngram-simple` reads only what is there. -/
theorem NgramSimpleSpeculator.propose_drafted (s : NgramSimpleSpeculator) (room : ℕ) :
    ∃ draft, s.propose room = some draft ∧ Drafted s.history s.config.sizeN room draft := by
  rw [propose]
  split
  · exact ⟨[], rfl, Drafted.nil _ _ _⟩
  rename_i hsome
  obtain ⟨-, hne⟩ := not_or.mp hsome
  have hpos := List.length_pos_iff.mpr hne
  have hn := s.config.n_pos
  simp only [Option.bind_eq_bind]
  rw [checkedSub_eq hpos, Option.bind_some]
  split
  · exact ⟨[], rfl, Drafted.nil _ _ _⟩
  rename_i hlong
  have htail : s.history.length - s.config.sizeN + s.config.sizeN = s.history.length := by omega
  have hpattern := sliceOf_gram (h := s.history) htail.le
  rw [htail] at hpattern
  rw [checkedSub_eq (by omega), Option.bind_some, hpattern, Option.bind_some,
    checkedSub_eq (by omega), Option.bind_some]
  have hlength : (gramAt s.history s.config.sizeN s.history.length).length = s.config.sizeN :=
    gramAt_length (by omega) le_rfl
  obtain ⟨found, hfound, hat⟩ := scanDown_spec (h := s.history)
    (gramAt s.history s.config.sizeN s.history.length) 0
    (s.history.length - 1 - (s.config.sizeN + 1)) (by omega)
  rw [hfound, Option.bind_some]
  cases found with
  | none => exact ⟨[], rfl, Drafted.nil _ _ _⟩
  | some matchPos =>
    obtain ⟨-, hle, hsame⟩ := hat matchPos rfl
    rw [hlength] at hsame
    simp only
    rw [checkedSub_eq (by omega), Option.bind_some]
    split
    · exact ⟨[], rfl, Drafted.nil _ _ _⟩
    · have hcount : matchPos + s.config.sizeN + min (min s.config.sizeM
          (s.history.length - 1 - (matchPos + s.config.sizeN))) room ≤ s.history.length := by omega
      refine ⟨_, sliceOf_eq (Nat.le_add_right _ _) hcount, ?_⟩
      exact Drafted.of_occurs ⟨Nat.le_add_left _ _, by omega, hsame⟩ hcount (min_le_right _ _)
        (sliceOf_eq (Nat.le_add_right _ _) hcount)

theorem NgramSimpleSpeculator.observeAll_config : ∀ {s : NgramSimpleSpeculator} (tokens : List ℤ),
    (s.observeAll tokens).config = s.config
  | _, [] => rfl
  | s, token :: tokens => by
    rw [observeAll, List.foldl_cons]
    exact observeAll_config (s := s.observe token) tokens

/-! ### Finding an occurrence -/

namespace NgramMapSpeculator

section Find

variable {s : NgramMapSpeculator} {key : List ℤ} {curLen : ℕ}

/-- The key stands here, and its value too, before the current position. -/
structure Match (s : NgramMapSpeculator) (key : List ℤ) (curLen matchPos : ℕ) : Prop where
  fits : matchPos + s.config.sizeN + s.config.sizeM ≤ curLen
  same : gramAt s.history s.config.sizeN (matchPos + s.config.sizeN) = key

theorem hashed_spec (key : List ℤ) (hlen : s.history.length = curLen + 1)
    (hlong : s.config.sizeN + s.config.sizeM + 1 ≤ curLen) :
    ∃ known, s.hashed key curLen = some known ∧ (known ≠ 0 → s.Match key curLen known) := by
  rw [hashed]
  split
  · exact ⟨0, rfl, fun hne => absurd rfl hne⟩
  rename_i hne
  have hslot := Nat.mod_lt (mapHash key) (List.length_pos_iff.mpr hne)
  simp only [Option.bind_eq_bind]
  rw [List.getElem?_eq_getElem hslot, Option.bind_some]
  split
  · exact ⟨0, rfl, fun hne => absurd rfl hne⟩
  rw [checkedSub_eq hlong, Option.bind_some]
  split
  · exact ⟨0, rfl, fun hne => absurd rfl hne⟩
  rename_i hbound
  rw [sliceOf_gram (by omega), Option.bind_some]
  refine ⟨_, rfl, fun hfound => ?_⟩
  split at hfound
  · rename_i hsame
    rw [if_pos hsame]
    exact ⟨by omega, hsame⟩
  · exact absurd rfl hfound

/-- A scan that starts low enough finds an occurrence with room for its value. -/
theorem scan_match (hlen : s.history.length = curLen + 1) (hkey : key.length = s.config.sizeN)
    (start stop : ℕ) (hstart : start + s.config.sizeN + s.config.sizeM ≤ curLen) :
    ∃ found, scanDown s.history key stop start = some found ∧
      (found.getD 0 ≠ 0 → s.Match key curLen (found.getD 0)) := by
  obtain ⟨found, hfound, hat⟩ := scanDown_spec (h := s.history) key stop start (by omega)
  refine ⟨found, hfound, fun hne => ?_⟩
  cases found with
  | none => exact absurd rfl hne
  | some matchPos =>
    obtain ⟨-, hle, hsame⟩ := hat matchPos rfl
    rw [hkey] at hsame
    have hfits : matchPos + s.config.sizeN + s.config.sizeM ≤ curLen := by omega
    exact ⟨hfits, hsame⟩

theorem findMatch_spec (key : List ℤ) (hlen : s.history.length = curLen + 1)
    (hbegin : s.sizeLastBegin ≤ s.history.length) (hkey : key.length = s.config.sizeN)
    (hlong : s.config.sizeN + s.config.sizeM + 1 ≤ curLen) :
    ∃ matchPos, s.findMatch key curLen = some matchPos ∧
      (matchPos ≠ 0 → s.Match key curLen matchPos) := by
  obtain ⟨known, hknown, hmatch⟩ := hashed_spec key hlen hlong
  have hlater : ∃ matchPos, ((checkedSub curLen (s.config.sizeN + s.config.sizeM + 1)).bind
      fun start => (scanDown s.history key (max s.sizeLastBegin s.keyMapLastIdx) start).bind
        fun found => some (found.getD 0)) = some matchPos ∧
      (matchPos ≠ 0 → s.Match key curLen matchPos) := by
    obtain ⟨found, hfound, hat⟩ := scan_match hlen hkey
      (curLen - (s.config.sizeN + s.config.sizeM + 1)) (max s.sizeLastBegin s.keyMapLastIdx)
      (by omega)
    refine ⟨found.getD 0, ?_, hat⟩
    rw [checkedSub_eq hlong, Option.bind_some, hfound, Option.bind_some]
  rw [findMatch]
  simp only [Option.bind_eq_bind]
  rw [hknown, Option.bind_some]
  split
  · -- the prompt is scanned first
    rename_i hprompt
    obtain ⟨found, hfound, hat⟩ := scan_match hlen hkey
      (s.sizeLastBegin - s.config.sizeN - s.config.sizeM - 1) s.keyMapLastIdx (by omega)
    rw [hfound, Option.bind_some, Option.bind_some]
    split
    · exact hlater
    · exact ⟨found.getD 0, rfl, hat⟩
  · rw [Option.bind_some]
    split
    · exact hlater
    · exact ⟨known, rfl, hmatch⟩

theorem indexDown_spec {h : List ℤ} {n : ℕ} (stop : ℕ) : ∀ (j : ℕ) {keyMap : List ℕ},
    keyMap ≠ [] → j + n ≤ h.length →
      ∃ keyMap', indexDown h n stop j keyMap = some keyMap' ∧ keyMap' ≠ []
  | 0, keyMap, hne, _ => ⟨keyMap, rfl, hne⟩
  | j + 1, keyMap, hne, hj => by
    rw [indexDown]
    split
    · exact ⟨keyMap, rfl, hne⟩
    · have hslot := Nat.mod_lt (mapHash (gramAt h n (j + 1 + n))) (List.length_pos_iff.mpr hne)
      simp only [Option.bind_eq_bind]
      rw [sliceOf_gram hj, Option.bind_some, List.getElem?_eq_getElem hslot, Option.bind_some]
      refine indexDown_spec stop j ?_ (by omega)
      split
      · rw [← List.length_pos_iff, List.length_set]
        exact List.length_pos_iff.mpr hne
      · exact hne

/-- Indexing touches the map only. -/
theorem indexed_spec (hlen : s.history.length = curLen + 1)
    (hbegin : s.sizeLastBegin ≤ s.history.length)
    (hlong : s.config.sizeN + s.config.sizeM + 1 ≤ curLen) :
    ∃ keyMap lastIdx, s.indexed curLen
      = some { s with keyMap := keyMap, keyMapLastIdx := lastIdx } := by
  rw [indexed]
  split
  · exact ⟨s.keyMap, s.keyMapLastIdx, rfl⟩
  rename_i hne
  have hrest : ∀ keyMap : List ℕ, keyMap ≠ [] → ∃ keyMap' lastIdx,
      ((checkedSub curLen (s.config.sizeN + s.config.sizeM + 1)).bind fun start =>
        (indexDown s.history s.config.sizeN (max s.sizeLastBegin s.keyMapLastIdx) start keyMap).bind
          fun keyMap => some { s with
            keyMap := keyMap, keyMapLastIdx := max s.keyMapLastIdx (start % 2 ^ 32) })
        = some { s with keyMap := keyMap', keyMapLastIdx := lastIdx } := by
    intro keyMap hsome
    obtain ⟨keyMap', hindex, -⟩ := indexDown_spec (h := s.history) (n := s.config.sizeN)
      (max s.sizeLastBegin s.keyMapLastIdx) (curLen - (s.config.sizeN + s.config.sizeM + 1)) hsome
      (by omega)
    refine ⟨keyMap', max s.keyMapLastIdx
      ((curLen - (s.config.sizeN + s.config.sizeM + 1)) % 2 ^ 32), ?_⟩
    rw [checkedSub_eq hlong, Option.bind_some, hindex, Option.bind_some]
  simp only [Option.bind_eq_bind]
  split
  · obtain ⟨keyMap', hindex, hsome⟩ := indexDown_spec (h := s.history) (n := s.config.sizeN)
      s.keyMapLastIdx (s.sizeLastBegin - s.config.sizeN - s.config.sizeM - 1) hne (by omega)
    rw [hindex, Option.bind_some]
    exact hrest keyMap' hsome
  · rw [Option.bind_some]
    exact hrest s.keyMap hne

end Find

end NgramMapSpeculator

/-! ### Statistics and drafts -/

/-- An entry points into the history, with all its values. -/
structure KeyFits (config : NgramMapConfig) (h : List ℤ) (k : MapKey) : Prop where
  key : k.keyIdx + config.sizeN ≤ h.length
  slots : k.values.length = ngramMapMaxValues
  values : ∀ v ∈ k.values, v.valueIdx = 0 ∨ v.valueIdx + config.sizeM ≤ h.length

theorem KeyFits.mono {config : NgramMapConfig} {h h' : List ℤ} {k : MapKey}
    (hk : KeyFits config h k) (hpre : h <+: h') : KeyFits config h' k := by
  have hle := hpre.length_le
  refine ⟨hk.key.trans hle, hk.slots, fun v hv => ?_⟩
  exact (hk.values v hv).imp_right fun hfits => hfits.trans hle

namespace NgramMapSpeculator

section Statistics

variable {h key : List ℤ} {n m : ℕ}

theorem findKey_spec (key : List ℤ) : ∀ (keys : List MapKey), (∀ k ∈ keys, k.keyIdx + n ≤ h.length) →
    ∃ offset, findKey h key n keys = some offset ∧ offset ≤ keys.length ∧
      ∀ k, keys[offset]? = some k → gramAt h n (k.keyIdx + n) = key
  | [], _ => ⟨0, rfl, le_rfl, fun k hk => by cases hk⟩
  | k :: keys, hkeys => by
    rw [findKey, sliceOf_gram (hkeys k List.mem_cons_self), Option.bind_eq_bind, Option.bind_some]
    split
    · rename_i hsame
      refine ⟨0, rfl, Nat.zero_le _, fun k' hk' => ?_⟩
      cases hk'
      exact hsame
    · obtain ⟨offset, hoffset, hle, hat⟩ := findKey_spec key keys fun k' hk' =>
        hkeys k' (List.mem_cons_of_mem _ hk')
      refine ⟨offset + 1, ?_, Nat.succ_le_succ hle, fun k' hk' => ?_⟩
      · rw [hoffset, Option.bind_eq_bind, Option.bind_some]
      · rw [List.getElem?_cons_succ] at hk'
        exact hat k' hk'

/-- Values that are free or inside the history. -/
def ValuesFit (h : List ℤ) (m : ℕ) (values : List MapValue) : Prop :=
  ∀ v ∈ values, v.valueIdx = 0 ∨ v.valueIdx + m ≤ h.length

theorem countValue_spec {valueStart : ℕ} (hstart : valueStart + m ≤ h.length) :
    ∀ {values : List MapValue}, ValuesFit h m values →
      ∃ values', countValue h m valueStart values = some values' ∧
        values'.length = values.length ∧ ValuesFit h m values'
  | [], hfit => ⟨[], rfl, rfl, hfit⟩
  | value :: values, hfit => by
    have hhead := hfit value List.mem_cons_self
    have htail : ValuesFit h m values := fun v hv => hfit v (List.mem_cons_of_mem _ hv)
    rw [countValue]
    split
    · refine ⟨_, rfl, rfl, fun v hv => ?_⟩
      obtain rfl | hlater := List.mem_cons.mp hv
      · exact Or.inr hstart
      · exact htail v hlater
    · rename_i hused
      rw [sliceOf_gram hstart, sliceOf_gram (hhead.resolve_left hused)]
      simp only [Option.bind_eq_bind, Option.bind_some]
      split
      · refine ⟨_, rfl, rfl, fun v hv => ?_⟩
        obtain rfl | hlater := List.mem_cons.mp hv
        · exact hhead
        · exact htail v hlater
      · obtain ⟨values', hcount, hlength, hfit'⟩ := countValue_spec hstart htail
        refine ⟨value :: values', ?_, ?_, fun v hv => ?_⟩
        · rw [hcount, Option.bind_some]
        · rw [List.length_cons, List.length_cons, hlength]
        · obtain rfl | hlater := List.mem_cons.mp hv
          · exact hhead
          · exact hfit' v hlater

theorem countOccurrences_spec (key : List ℤ) : ∀ (places : List ℕ) {values : List MapValue},
    (∀ i ∈ places, i + n + m ≤ h.length) → ValuesFit h m values →
      ∃ values', countOccurrences h key n m places values = some values' ∧
        values'.length = values.length ∧ ValuesFit h m values'
  | [], values, _, hfit => ⟨values, rfl, rfl, hfit⟩
  | i :: places, values, hplaces, hfit => by
    have hi := hplaces i List.mem_cons_self
    have hrest := fun j hj => hplaces j (List.mem_cons_of_mem i hj)
    rw [countOccurrences, sliceOf_gram (by omega), Option.bind_eq_bind, Option.bind_some]
    split
    · obtain ⟨mid, hmid, hlength, hfit'⟩ := countValue_spec hi hfit
      obtain ⟨values', hcount, hlength', hfit''⟩ := countOccurrences_spec key places hrest hfit'
      refine ⟨values', ?_, hlength'.trans hlength, hfit''⟩
      rw [hmid, Option.bind_eq_bind, Option.bind_some]
      exact hcount
    · exact countOccurrences_spec key places hrest hfit

/-- The dominant slot is one of the values. -/
theorem dominant_lt {values : List MapValue} (hne : values ≠ []) :
    (dominant values).1 < values.length := by
  have hfold : ∀ (entries : List (MapValue × ℕ)) (best : ℕ × ℕ), best.1 < values.length →
      (∀ entry ∈ entries, entry.2 < values.length) →
        (entries.foldl (fun best entry => if best.2 < entry.1.valueNum
          then (entry.2, entry.1.valueNum) else best) best).1 < values.length := by
    intro entries
    induction entries with
    | nil => exact fun best hbest _ => hbest
    | cons entry entries ih =>
      intro best hbest hentries
      rw [List.foldl_cons]
      refine ih _ ?_ fun e he => hentries e (List.mem_cons_of_mem _ he)
      split
      · exact hentries entry List.mem_cons_self
      · exact hbest
  refine hfold _ (0, 0) (List.length_pos_iff.mpr hne) fun entry hentry => ?_
  obtain ⟨value, i⟩ := entry
  have hi := List.mem_zipIdx hentry
  omega

end Statistics

end NgramMapSpeculator

namespace NgramMapSpeculator

/-- Every index the speculator keeps is inside the history or the table it is
for, and the entry of the last draft is that of the key then asked for. -/
structure InBounds (s : NgramMapSpeculator) (asked : List ℤ) : Prop where
  begin_le : s.sizeLastBegin ≤ s.history.length
  keys : ∀ k ∈ s.keys, KeyFits s.config s.history k
  created : s.lastDraftCreated = true → ∃ k, s.keys[s.lastDraftKeyIdx]? = some k ∧
    s.lastDraftValueIdx < k.values.length ∧
      gramAt s.history s.config.sizeN (k.keyIdx + s.config.sizeN) = asked

section Propose

variable {s : NgramMapSpeculator} {key asked : List ℤ} {curLen room matchPos : ℕ}

theorem draftFrom_spec (room keyOffset slot : ℕ) (values : List MapValue)
    (hlen : s.history.length = curLen + 1) (hmatch : s.Match key curLen matchPos)
    (hkey : key = gramAt s.history s.config.sizeN s.history.length)
    (hslot : slot < values.length) :
    ∃ draft, s.draftFrom room matchPos keyOffset slot values = some ({ s with
        lastDraftCreated := true, lastDraftKeyIdx := keyOffset, lastDraftValueIdx := slot }, draft) ∧
      Drafted s.history s.config.sizeN room draft := by
  have hfits := hmatch.fits
  rw [draftFrom, List.getElem?_eq_getElem hslot]
  simp only [Option.bind_eq_bind, Option.bind_some]
  set count := min (max (min (s.config.sizeM : ℤ) values[slot].nAccepted) 0).toNat room with hcount
  have hbound : matchPos + s.config.sizeN + count ≤ s.history.length := by omega
  have hdraft := sliceOf_eq (Nat.le_add_right (matchPos + s.config.sizeN) count) hbound
  refine ⟨_, ?_, Drafted.of_occurs ⟨Nat.le_add_left _ _, by omega, hmatch.same.trans hkey⟩ hbound
    (min_le_right _ _) hdraft⟩
  rw [hdraft]
  rfl

theorem keyFits_set {config : NgramMapConfig} {h : List ℤ} {keys : List MapKey} {entry : MapKey}
    (hkeys : ∀ k ∈ keys, KeyFits config h k) (hentry : KeyFits config h entry) (offset : ℕ) :
    ∀ k ∈ keys.set offset entry, KeyFits config h k := by
  intro k hk
  obtain hold | rfl := List.mem_or_eq_of_mem_set hk
  · exact hkeys k hold
  · exact hentry

/-- A new entry points at the occurrence just found. -/
theorem newKey_fits (hlen : s.history.length = curLen + 1) (hmatch : s.Match key curLen matchPos) :
    KeyFits s.config s.history (newKey s.config.sizeM matchPos) := by
  have hfits := hmatch.fits
  have hkeyIdx : matchPos + s.config.sizeN ≤ s.history.length := by omega
  refine ⟨hkeyIdx, List.length_replicate, fun v hv => Or.inl ?_⟩
  rw [List.eq_of_mem_replicate hv]

theorem draftByKey_spec (hs : s.InBounds asked) (hcreated : s.lastDraftCreated = false)
    (hlen : s.history.length = curLen + 1) (hmatch : s.Match key curLen matchPos)
    (hkey : key = gramAt s.history s.config.sizeN s.history.length) :
    ∃ s' draft, s.draftByKey room matchPos key = some (s', draft) ∧
      Drafted s.history s.config.sizeN room draft ∧ s'.config = s.config ∧
      s'.history = s.history ∧ s'.InBounds key ∧ (draft ≠ [] → s'.lastDraftCreated = true) := by
  obtain ⟨offset, hoffset, hle, hat⟩ := findKey_spec key s.keys fun k hk => (hs.keys k hk).key
  set keys := if offset = s.keys.length then s.keys ++ [newKey s.config.sizeM matchPos]
    else s.keys with hkeys
  -- a new key stands where the match was found, so it fits the history
  have hfit : ∀ k ∈ keys, KeyFits s.config s.history k := by
    rw [hkeys]
    split
    · intro k hk
      obtain hold | hnew := List.mem_append.mp hk
      · exact hs.keys k hold
      · rw [List.mem_singleton.mp hnew]
        exact newKey_fits hlen hmatch
    · exact hs.keys
  -- the entry that is counted holds the n-gram that was asked for
  obtain ⟨entry, hentry, hgram⟩ : ∃ entry, keys[offset]? = some entry ∧
      gramAt s.history s.config.sizeN (entry.keyIdx + s.config.sizeN) = key := by
    rw [hkeys]
    split
    · rename_i hnew
      refine ⟨newKey s.config.sizeM matchPos, ?_, hmatch.same⟩
      rw [hnew, List.getElem?_concat_length]
    · have hlt : offset < s.keys.length := by omega
      exact ⟨_, List.getElem?_eq_getElem hlt, hat _ (List.getElem?_eq_getElem hlt)⟩
  have hbounds : offset < keys.length := (List.getElem?_eq_some_iff.mp hentry).1
  have hold := hfit entry (List.mem_of_getElem? hentry)
  set counted : MapKey := { entry with keyNum := bump entry.keyNum } with hcounted
  have hcountedFits : KeyFits s.config s.history counted := ⟨hold.key, hold.slots, hold.values⟩
  have hset := keyFits_set hfit hcountedFits offset
  have hslots : counted.values.length = ngramMapMaxValues := hold.slots
  have hfirst : 0 < counted.values.length := by
    rw [hslots]
    decide
  -- the entry in place after the counter has been raised
  have hplace : (keys.set offset counted)[offset]? = some counted :=
    List.getElem?_set_self hbounds
  rw [draftByKey]
  simp only [Option.bind_eq_bind]
  rw [hoffset, Option.bind_some, ← hkeys, hentry, Option.bind_some, ← hcounted]
  split
  · -- ngram-map-k
    obtain ⟨draft, hdraft, hdrafted⟩ := draftFrom_spec
      (s := { s with keys := keys.set offset counted }) room offset 0 counted.values hlen
      ⟨hmatch.fits, hmatch.same⟩ hkey hfirst
    refine ⟨_, draft, hdraft, hdrafted, rfl, rfl, ⟨hs.begin_le, hset, fun _ => ?_⟩, fun _ => rfl⟩
    exact ⟨counted, hplace, hfirst, hgram⟩
  -- too few hits for a draft
  split
  · refine ⟨_, [], rfl, Drafted.nil _ _ _, rfl, rfl, ⟨hs.begin_le, hset, fun hnow => ?_⟩,
      fun hne => absurd rfl hne⟩
    rw [hcreated] at hnow
    cases hnow
  · -- ngram-map-k4v
    have hfits := hmatch.fits
    obtain ⟨values, hvalues, hlength, hvaluesFit⟩ := countOccurrences_spec
      (n := s.config.sizeN) (m := s.config.sizeM) (h := s.history) key
      (List.range' counted.statIdx (matchPos + 1 - counted.statIdx)) (fun i hi => by
        have hin := List.mem_range'_1.mp hi
        omega) hcountedFits.values
    rw [hvalues, Option.bind_some]
    set folded : MapKey := { counted with values := values, statIdx := matchPos } with hfolded
    have hvaluesLength : values.length = ngramMapMaxValues := hlength.trans hslots
    have hfoldedFits : KeyFits s.config s.history folded :=
      ⟨hold.key, hvaluesLength, hvaluesFit⟩
    have hsetFolded := keyFits_set hset hfoldedFits offset
    have hplaceFolded : ((keys.set offset counted).set offset folded)[offset]? = some folded := by
      refine List.getElem?_set_self ?_
      rw [List.length_set]
      exact hbounds
    have hdominant : (dominant values).1 < values.length := by
      refine dominant_lt (List.ne_nil_of_length_pos ?_)
      rw [hvaluesLength]
      decide
    -- no continuation dominates the others
    split
    · refine ⟨_, [], rfl, Drafted.nil _ _ _, rfl, rfl, ⟨hs.begin_le, hsetFolded, fun hnow => ?_⟩,
        fun hne => absurd rfl hne⟩
      rw [hcreated] at hnow
      cases hnow
    -- the dominant one is drafted
    · obtain ⟨draft, hdraft, hdrafted⟩ := draftFrom_spec
        (s := { s with keys := (keys.set offset counted).set offset folded }) room offset
        (dominant values).1 values hlen ⟨hmatch.fits, hmatch.same⟩ hkey hdominant
      refine ⟨_, draft, hdraft, hdrafted, rfl, rfl, ⟨hs.begin_le, hsetFolded, fun _ => ?_⟩,
        fun _ => rfl⟩
      exact ⟨folded, hplaceFolded, hdominant, hgram⟩

end Propose

end NgramMapSpeculator

namespace NgramMapSpeculator

section Calls

variable {s : NgramMapSpeculator} {asked : List ℤ}

/-- The last tokens of the history, which a draft would continue. -/
def tail (s : NgramMapSpeculator) : List ℤ :=
  gramAt s.history s.config.sizeN s.history.length

theorem InBounds.new (config : NgramMapConfig) (asked : List ℤ) : (new config).InBounds asked :=
  ⟨le_rfl, fun _ hk => absurd hk List.not_mem_nil, fun hnow => by cases hnow⟩

/-- A history that has grown keeps every index inside. -/
theorem InBounds.grow (hs : s.InBounds asked) {history : List ℤ} (hpre : s.history <+: history)
    {start check : ℕ} {started : Bool} (hbegin : start ≤ history.length) :
    ({ s with
      history := history
      sizeLastBegin := start
      idxLastCheck := check
      generationStarted := started } : NgramMapSpeculator).InBounds asked := by
  refine ⟨hbegin, fun k hk => (hs.keys k hk).mono hpre, fun hnow => ?_⟩
  obtain ⟨k, hk, hslot, hgram⟩ := hs.created hnow
  refine ⟨k, hk, hslot, ?_⟩
  have hfits := (hs.keys k (List.mem_of_getElem? hk)).key
  exact (gramAt_of_isPrefix hpre (Nat.le_add_left _ _) hfits).trans hgram

theorem pushBounded_isPrefix (capacity : ℕ) (h : List ℤ) (token : ℤ) :
    h <+: pushBounded capacity h token := by
  rw [pushBounded]
  split
  · exact List.prefix_append _ _
  · exact List.prefix_refl _

theorem InBounds.observe (hs : s.InBounds asked) (token : ℤ) : (s.observe token).InBounds asked := by
  have hpre := pushBounded_isPrefix s.config.historyCapacity s.history token
  rw [NgramMapSpeculator.observe]
  split
  · exact hs.grow hpre (hs.begin_le.trans hpre.length_le)
  · exact hs.grow hpre hpre.length_le

theorem InBounds.observeAll (hs : s.InBounds asked) (tokens : List ℤ) :
    (s.observeAll tokens).InBounds asked := by
  have hpre : ∀ (tokens h : List ℤ),
      h <+: tokens.foldl (pushBounded s.config.historyCapacity) h := by
    intro tokens
    induction tokens with
    | nil => exact fun h => List.prefix_refl h
    | cons token tokens ih => exact fun h => (pushBounded_isPrefix _ h token).trans (ih _)
  exact hs.grow (hpre tokens s.history) (hs.begin_le.trans (hpre tokens s.history).length_le)

/-- A proposal reads only what is there, and asks for the tail. -/
theorem propose_spec (hs : s.InBounds asked) (room : ℕ) :
    ∃ s' draft, s.propose room = some (s', draft) ∧
      Drafted s.history s.config.sizeN room draft ∧ s'.config = s.config ∧
      s'.history = s.history ∧ s'.InBounds s.tail ∧
      (draft ≠ [] → s'.lastDraftCreated = true) := by
  set cleared : NgramMapSpeculator := { s with
    lastDraftCreated := false, lastDraftKeyIdx := 0, lastDraftValueIdx := 0 } with hcleared
  have hclear : ∀ check keyMap lastIdx, ({ cleared with
      idxLastCheck := check, keyMap := keyMap, keyMapLastIdx := lastIdx } :
        NgramMapSpeculator).InBounds s.tail := fun check keyMap lastIdx =>
    ⟨hs.begin_le, hs.keys, fun hnow => by cases hnow⟩
  have hnone : ∀ check keyMap lastIdx, ∃ s' draft,
      some (({ cleared with idxLastCheck := check, keyMap := keyMap, keyMapLastIdx := lastIdx } :
        NgramMapSpeculator), ([] : List ℤ)) = some (s', draft) ∧
        Drafted s.history s.config.sizeN room draft ∧ s'.config = s.config ∧
        s'.history = s.history ∧ s'.InBounds s.tail ∧ (draft ≠ [] → s'.lastDraftCreated = true) :=
    fun check keyMap lastIdx => ⟨_, [], rfl, Drafted.nil _ _ _, rfl, rfl,
      hclear check keyMap lastIdx, fun hne => absurd rfl hne⟩
  rw [propose]
  simp only [Option.bind_eq_bind]
  split
  · exact hnone s.idxLastCheck s.keyMap s.keyMapLastIdx
  rename_i hsome
  obtain ⟨-, hne⟩ := not_or.mp hsome
  have hpos := List.length_pos_iff.mpr hne
  have hn := s.config.n_pos
  rw [checkedSub_eq hpos, Option.bind_some]
  split
  · exact hnone s.idxLastCheck s.keyMap s.keyMapLastIdx
  rename_i hlong
  have hlen : s.history.length = s.history.length - 1 + 1 := by omega
  have hlong' : s.config.sizeN + s.config.sizeM + 1 ≤ s.history.length - 1 := by omega
  have htail : s.history.length - s.config.sizeN + s.config.sizeN = s.history.length := by omega
  have hpattern := sliceOf_gram (h := s.history) htail.le
  rw [htail] at hpattern
  have hkeyLength : (gramAt s.history s.config.sizeN s.history.length).length = s.config.sizeN :=
    gramAt_length (by omega) le_rfl
  rw [checkedSub_eq (by omega), Option.bind_some, hpattern, Option.bind_some]
  set checked : NgramMapSpeculator := { cleared with idxLastCheck := s.history.length - 1 }
  obtain ⟨matchPos, hmatchPos, hmatch⟩ := findMatch_spec (s := checked)
    (gramAt s.history s.config.sizeN s.history.length) hlen hs.begin_le hkeyLength hlong'
  obtain ⟨keyMap, lastIdx, hindexed⟩ := indexed_spec (s := checked) hlen hs.begin_le hlong'
  rw [hmatchPos, Option.bind_some, hindexed, Option.bind_some]
  split
  · exact hnone (s.history.length - 1) keyMap lastIdx
  · rename_i hfound
    have hat := hmatch hfound
    exact draftByKey_spec (hclear (s.history.length - 1) keyMap lastIdx) rfl hlen
      ⟨hat.fits, hat.same⟩ rfl

/-- An acceptance changes the entry of the key that was asked for, or nothing. -/
theorem accept_spec (hs : s.InBounds asked) (nAccepted : ℕ) :
    ∃ s', s.accept nAccepted = some s' ∧ s'.InBounds asked ∧
      ((s.lastDraftCreated = false ∧ s' = s) ∨
        ∃ offset slot entry value, s.keys[offset]? = some entry ∧
          entry.values[slot]? = some value ∧
          gramAt s.history s.config.sizeN (entry.keyIdx + s.config.sizeN) = asked ∧
          s' = { s with keys := s.keys.set offset { entry with
            values := entry.values.set slot
              { value with nAccepted := (min nAccepted i16Max : ℕ) } } }) := by
  rw [accept]
  cases hnow : s.lastDraftCreated with
  | false => exact ⟨s, rfl, hs, Or.inl ⟨rfl, rfl⟩⟩
  | true =>
    obtain ⟨entry, hentry, hslot, hgram⟩ := hs.created hnow
    have hvalue := List.getElem?_eq_getElem hslot
    have hold := hs.keys entry (List.mem_of_getElem? hentry)
    have hbounds := (List.getElem?_eq_some_iff.mp hentry).1
    simp only [Bool.not_true, Bool.false_eq_true, if_false, Option.bind_eq_bind]
    rw [hentry, Option.bind_some, hvalue, Option.bind_some]
    have hfits : KeyFits s.config s.history { entry with
        values := entry.values.set s.lastDraftValueIdx { entry.values[s.lastDraftValueIdx] with
          nAccepted := (min nAccepted i16Max : ℕ) } } := by
      refine ⟨hold.key, ?_, fun v hv => ?_⟩
      · rw [List.length_set]
        exact hold.slots
      · obtain hin | rfl := List.mem_or_eq_of_mem_set hv
        · exact hold.values v hin
        · exact hold.values entry.values[s.lastDraftValueIdx] (List.getElem_mem hslot)
    refine ⟨_, rfl, ⟨hs.begin_le, keyFits_set hs.keys hfits _, fun _ => ?_⟩,
      Or.inr ⟨s.lastDraftKeyIdx, s.lastDraftValueIdx, entry, _, hentry, hvalue, hgram, ?_⟩⟩
    · refine ⟨_, List.getElem?_set_self hbounds, ?_, hgram⟩
      rw [List.length_set]
      exact hslot
    · rw [← hnow]

end Calls

end NgramMapSpeculator

/-! ### Every order of calls -/

/-- The calls of a speculator. -/
inductive MapCall where
  | observe (token : ℤ)
  | observeAll (tokens : List ℤ)
  | proposeInto (capacity : ℕ) (out : List ℤ)
  | accept (nAccepted : ℕ)

/-- A speculator in use, with the key its last proposal asked for and what it
drafted. -/
structure MapRun where
  spec : NgramMapSpeculator
  asked : List ℤ
  drafted : List ℤ

namespace MapRun

/-- A speculator nobody has called yet. -/
def new (config : NgramMapConfig) : MapRun := ⟨.new config, [], []⟩

/-- The run after a call; `none` where an index leaves its array. -/
def call (r : MapRun) : MapCall → Option MapRun
  | .observe token => some { r with spec := r.spec.observe token }
  | .observeAll tokens => some { r with spec := r.spec.observeAll tokens }
  | .proposeInto capacity out => do
    let (spec, appended, _) ← r.spec.proposeInto capacity out
    some ⟨spec, r.spec.tail, appended.drop out.length⟩
  | .accept nAccepted => do
    let spec ← r.spec.accept nAccepted
    some { r with spec }

/-- What holds between calls. -/
structure Sound (config : NgramMapConfig) (r : MapRun) : Prop where
  config_eq : r.spec.config = config
  inBounds : r.spec.InBounds r.asked
  drafted : r.drafted ≠ [] → r.spec.lastDraftCreated = true

variable {config : NgramMapConfig} {r : MapRun}

theorem Sound.proposeInto (h : Sound config r) (capacity : ℕ) (out : List ℤ) :
    ∃ s' draft, r.spec.proposeInto capacity out = some (s', out ++ draft, draft.length) ∧
      Drafted r.spec.history config.sizeN (min (capacity - out.length) config.sizeM) draft ∧
      Sound config ⟨s', r.spec.tail, draft⟩ := by
  obtain ⟨s', draft, hpropose, hdrafted, hconfig, -, hbounds, hcreated⟩ :=
    NgramMapSpeculator.propose_spec h.inBounds (min (capacity - out.length) config.sizeM)
  rw [h.config_eq] at hdrafted
  refine ⟨s', draft, ?_, hdrafted, hconfig.trans h.config_eq, hbounds, hcreated⟩
  rw [NgramMapSpeculator.proposeInto, h.config_eq, hpropose]
  rfl

/-- No call stops. -/
theorem Sound.call (h : Sound config r) (c : MapCall) :
    ∃ r', r.call c = some r' ∧ Sound config r' := by
  cases c with
  | observe token =>
    refine ⟨_, rfl, ⟨?_, h.inBounds.observe token, fun hne => ?_⟩⟩
    · simp only [NgramMapSpeculator.observe]
      split
      · exact h.config_eq
      · exact h.config_eq
    · have hcreated := h.drafted hne
      simp only [NgramMapSpeculator.observe]
      split
      · exact hcreated
      · exact hcreated
  | observeAll tokens => exact ⟨_, rfl, ⟨h.config_eq, h.inBounds.observeAll tokens, h.drafted⟩⟩
  | proposeInto capacity out =>
    obtain ⟨s', draft, hpropose, -, hsound⟩ := h.proposeInto capacity out
    refine ⟨⟨s', r.spec.tail, draft⟩, ?_, hsound⟩
    rw [MapRun.call, hpropose, Option.bind_eq_bind, Option.bind_some]
    simp only [List.drop_left]
  | accept nAccepted =>
    obtain ⟨s', haccept, hbounds, hchange⟩ := NgramMapSpeculator.accept_spec h.inBounds nAccepted
    refine ⟨{ r with spec := s' }, ?_, ?_, hbounds, fun hne => ?_⟩
    · rw [MapRun.call, haccept]
      rfl
    · obtain ⟨-, rfl⟩ | ⟨_, _, _, _, -, -, -, rfl⟩ := hchange
      · exact h.config_eq
      · exact h.config_eq
    · obtain ⟨-, rfl⟩ | ⟨_, _, _, _, -, -, -, rfl⟩ := hchange
      · exact h.drafted hne
      · exact h.drafted hne

theorem Sound.run : ∀ {r : MapRun} (calls : List MapCall), Sound config r →
    ∃ r', calls.foldlM MapRun.call r = some r' ∧ Sound config r'
  | r, [], h => ⟨r, rfl, h⟩
  | _, c :: calls, h => by
    obtain ⟨mid, hmid, hsound⟩ := h.call c
    obtain ⟨r', hr', hsound'⟩ := Sound.run calls hsound
    refine ⟨r', ?_, hsound'⟩
    rw [List.foldlM_cons, hmid]
    exact hr'

end MapRun

/-- Whatever the order of calls, neither drafter reads outside its history or
its tables; a draft fits the caller's buffer and the configuration and follows
an occurrence of the tail that ends before it; and an acceptance changes the
statistics of the key the last proposal asked for, or, where it drafted
nothing, may change none. -/
theorem map_drafters_in_bounds :
    (∀ (config : NgramSimpleConfig) (tokens : List ℤ) (capacity : ℕ) (out : List ℤ), ∃ draft,
      ((NgramSimpleSpeculator.new config).observeAll tokens).proposeInto capacity out
          = some (out ++ draft, draft.length) ∧
        Drafted ((NgramSimpleSpeculator.new config).observeAll tokens).history config.sizeN
          (min (capacity - out.length) config.sizeM) draft) ∧
    ∀ (config : NgramMapConfig) (calls : List MapCall), ∃ r,
      calls.foldlM MapRun.call (MapRun.new config) = some r ∧
        (∀ capacity out, ∃ s' draft,
          r.spec.proposeInto capacity out = some (s', out ++ draft, draft.length) ∧
            Drafted r.spec.history config.sizeN (min (capacity - out.length) config.sizeM) draft) ∧
        ∀ nAccepted, ∃ s', r.spec.accept nAccepted = some s' ∧
          ((r.drafted = [] ∧ s' = r.spec) ∨
            ∃ offset slot entry value, r.spec.keys[offset]? = some entry ∧
              entry.values[slot]? = some value ∧
              gramAt r.spec.history config.sizeN (entry.keyIdx + config.sizeN) = r.asked ∧
              s' = { r.spec with keys := r.spec.keys.set offset { entry with
                values := entry.values.set slot
                  { value with nAccepted := (min nAccepted i16Max : ℕ) } } }) := by
  constructor
  · intro config tokens capacity out
    set s := (NgramSimpleSpeculator.new config).observeAll tokens with hs
    have hconfig : s.config = config := NgramSimpleSpeculator.observeAll_config tokens
    obtain ⟨draft, hdraft, hdrafted⟩ :=
      s.propose_drafted (min (capacity - out.length) config.sizeM)
    rw [hconfig] at hdrafted
    refine ⟨draft, ?_, hdrafted⟩
    rw [NgramSimpleSpeculator.proposeInto, hconfig, hdraft]
    rfl
  · intro config calls
    have hnew : MapRun.Sound config (MapRun.new config) :=
      ⟨rfl, NgramMapSpeculator.InBounds.new config [], fun hne => absurd rfl hne⟩
    obtain ⟨r, hr, hsound⟩ := MapRun.Sound.run calls hnew
    refine ⟨r, hr, fun capacity out => ?_, fun nAccepted => ?_⟩
    · obtain ⟨s', draft, hpropose, hdrafted, -⟩ := hsound.proposeInto capacity out
      exact ⟨s', draft, hpropose, hdrafted⟩
    · obtain ⟨s', haccept, -, hchange⟩ :=
        NgramMapSpeculator.accept_spec hsound.inBounds nAccepted
      refine ⟨s', haccept, ?_⟩
      obtain ⟨hcleared, hsame⟩ | ⟨offset, slot, entry, value, hentry, hvalue, hgram, hset⟩ :=
        hchange
      · refine Or.inl ⟨?_, hsame⟩
        by_contra hne
        rw [hsound.drafted hne] at hcleared
        cases hcleared
      · rw [hsound.config_eq] at hgram
        exact Or.inr ⟨offset, slot, entry, value, hentry, hvalue, hgram, hset⟩

end Ngram
