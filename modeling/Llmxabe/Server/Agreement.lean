/-
When a stream says what the non-streaming body says, in each dialect.

`MessagesLoop.Tracks` relates the loop of a messages stream to the client that
has read its events and to what has been collected, as long as no text follows
a call.  Otherwise the blocks open in another order than the body has them.  A
chat stream names no order between text and calls, but where the body of a turn
of calls only has a null content, it has an empty one.

* `streams_agree_iff`: which streams agree with their bodies.
-/
import Llmxabe.Server.ResponsesAgreement

variable {spell : JsonMap → String} {requestId : ℕ}

/-! ### Messages -/

/-- The place a block has in a body. -/
def ContentBlock.rank {ι : Type} : ContentBlock ι → ℕ
  | thinking _ _ => 0
  | text _ => 1
  | toolUse _ _ _ => 2

/-- The blocks of what has been collected, in the order of a body. -/
def Collected.blocks (spell : JsonMap → String) (requestId : ℕ) (k : Collected) :
    List (ContentBlock String) :=
  (if k.reasoning = "" then [] else [.thinking k.reasoning (thinkingSignature requestId)]) ++
    (if k.text = "" then [] else [.text k.text]) ++
    k.toolCalls.mapIdx fun index call =>
      .toolUse (toolUseId requestId index) call.name (call.argumentsJson spell)

/-- A body is the blocks, or one empty text. -/
theorem contentBlocks_spelled (k : Collected) :
    (contentBlocks k requestId).map (ContentBlock.spelled spell)
      = if k.blocks spell requestId = [] then [.text ""] else k.blocks spell requestId := by
  have hmap : ((if k.reasoning = "" then []
        else [ContentBlock.thinking k.reasoning (thinkingSignature requestId)]) ++
      (if k.text = "" then [] else [ContentBlock.text k.text]) ++
      k.toolCalls.mapIdx fun index (call : ParsedToolCall) =>
        ContentBlock.toolUse (toolUseId requestId index) call.name call.arguments).map
          (ContentBlock.spelled spell) = k.blocks spell requestId := by
    rw [List.map_append, List.map_append, List.map_mapIdx', apply_ite (List.map _),
      apply_ite (List.map _)]
    rfl
  rw [contentBlocks, ← hmap]
  simp only [List.map_eq_nil_iff]
  rw [apply_ite (List.map _)]
  rfl

theorem blocks_sorted (k : Collected) :
    ((k.blocks spell requestId).map ContentBlock.rank).Pairwise (· ≤ ·) := by
  have hcalls : ∀ r ∈ (k.toolCalls.mapIdx fun index (call : ParsedToolCall) => ContentBlock.toolUse
      (toolUseId requestId index) call.name (call.argumentsJson spell)).map ContentBlock.rank,
      r = 2 := by
    intro r hr
    obtain ⟨block, hblock, rfl⟩ := List.mem_map.mp hr
    obtain ⟨i, _, rfl⟩ := List.mem_mapIdx.mp hblock
    rfl
  have hthinking : ∀ r ∈ (if k.reasoning = "" then []
      else [ContentBlock.thinking k.reasoning (thinkingSignature requestId)]).map
        (ContentBlock.rank (ι := String)), r = 0 := by
    intro r hr
    split at hr
    · cases hr
    · exact List.mem_singleton.mp hr
  have htext : ∀ r ∈ (if k.text = "" then [] else [ContentBlock.text k.text]).map
      (ContentBlock.rank (ι := String)), r = 1 := by
    intro r hr
    split at hr
    · cases hr
    · exact List.mem_singleton.mp hr
  rw [Collected.blocks, List.map_append, List.map_append]
  refine List.pairwise_append.mpr ⟨List.pairwise_append.mpr ⟨?_, ?_, ?_⟩, ?_, ?_⟩
  · exact List.pairwise_of_forall_mem_list fun a ha b hb => by
      rw [hthinking a ha, hthinking b hb]
  · exact List.pairwise_of_forall_mem_list fun a ha b hb => by rw [htext a ha, htext b hb]
  · intro a ha b hb
    rw [hthinking a ha, htext b hb]
    exact Nat.zero_le 1
  · exact List.pairwise_of_forall_mem_list fun a ha b hb => by rw [hcalls a ha, hcalls b hb]
  · intro a ha b hb
    rw [hcalls b hb]
    rcases List.mem_append.mp ha with ha | ha
    · rw [hthinking a ha]
      exact Nat.zero_le 2
    · rw [htext a ha]
      exact Nat.le_succ 1

namespace MessagesLoop

variable {s : MessagesLoop} {c : MessagesClient} {k : Collected}

/-- The block that is open, as it would be closed now. -/
def held (requestId : ℕ) (s : MessagesLoop) (k : Collected) : List (ContentBlock String) :=
  match s.opened with
  | some .thinking => [.thinking k.reasoning (thinkingSignature requestId)]
  | some .text => [.text k.text]
  | none => []

/-- The client has what the loop has sent. -/
structure Holds (s : MessagesLoop) (c : MessagesClient) (k : Collected) : Prop where
  index : s.index = c.closed.length
  opened : c.opened = s.opened.map fun
    | .thinking => .thinking k.reasoning ""
    | .text => .text k.text
  calls : s.emittedCalls = k.toolCalls.length

theorem Holds.close (h : s.Holds c k) (requestId : ℕ) :
    (s.close requestId).1.foldlM MessagesClient.read c
        = some ⟨c.closed ++ s.held requestId k, none⟩ ∧
      (s.close requestId).2 = ⟨(c.closed ++ s.held requestId k).length, none, k.toolCalls.length⟩ := by
  obtain ⟨closed, opened⟩ := c
  obtain ⟨index, kind, emittedCalls⟩ := s
  obtain ⟨hindex, hopened, hcalls⟩ := h
  simp only at hindex hopened hcalls
  subst hindex hopened hcalls
  match kind with
  | none => simp [MessagesLoop.close, held]
  | some .thinking =>
    simp [MessagesLoop.close, closeBlock, held, MessagesClient.read, MessagesClient.grow]
  | some .text => simp [MessagesLoop.close, closeBlock, held, MessagesClient.read]

/-- Nothing of this kind has been collected. -/
def Fresh (k : Collected) : OpenBlock → Prop
  | .thinking => k.reasoning = ""
  | .text => k.text = ""

/-- Turning to another kind closes the open block and opens one of that kind. -/
theorem Holds.turnTo (h : s.Holds c k) {kind : OpenBlock} (hne : s.opened ≠ some kind)
    (hempty : Fresh k kind) :
    ∃ c', (s.turnTo requestId kind).1.foldlM MessagesClient.read c = some c' ∧
      c'.closed = c.closed ++ s.held requestId k ∧ (s.turnTo requestId kind).2.Holds c' k ∧
      (s.turnTo requestId kind).2.opened = some kind := by
  obtain ⟨hread, hloop⟩ := h.close requestId
  have hturn : s.turnTo requestId kind = ((s.close requestId).1 ++
      [.contentBlockStart (s.close requestId).2.index (emptyBlock kind)],
        { (s.close requestId).2 with opened := some kind }) := if_neg hne
  refine ⟨⟨c.closed ++ s.held requestId k, some (emptyBlock kind)⟩, ?_, rfl, ?_, ?_⟩
  · rw [hturn, List.foldlM_append, hread, hloop]
    simp [MessagesClient.read]
  · rw [hturn, hloop]
    refine ⟨rfl, ?_, rfl⟩
    cases kind with
    | thinking =>
      have hnone : k.reasoning = "" := hempty
      simp only [emptyBlock, Option.map_some, hnone]
    | text =>
      have hnone : k.text = "" := hempty
      simp only [emptyBlock, Option.map_some, hnone]
  · rw [hturn]

/-- The client has what the loop has sent, and it is in the order of a body. -/
structure Tracks (spell : JsonMap → String) (requestId : ℕ) (s : MessagesLoop) (c : MessagesClient)
    (k : Collected) : Prop where
  holds : s.Holds c k
  blocks : c.closed ++ s.held requestId k = k.blocks spell requestId
  idle : s.opened = none → k.toolCalls = [] → k.reasoning = "" ∧ k.text = ""
  thinking : s.opened = some .thinking → k.reasoning ≠ "" ∧ k.text = "" ∧ k.toolCalls = []
  answering : s.opened = some .text → k.text ≠ "" ∧ k.toolCalls = []

/-- No body has the chunk behind what has been collected. -/
def Admits (k : Collected) : Chunk → Prop
  | .reasoning words => words ≠ "" ∧ k.text = "" ∧ k.toolCalls = []
  | .text words => words ≠ "" ∧ k.toolCalls = []
  | .toolCall _ => True

/-- The chunk is sent as this delta of a block of this kind. -/
def SentAs (chunk : Chunk) (delta : BlockDelta) : OpenBlock → Prop
  | .thinking => ∃ words, chunk = .reasoning words ∧ delta = .thinking words
  | .text => ∃ words, chunk = .text words ∧ delta = .text words

/-- A delta of the open block is added to it. -/
theorem Holds.delta (h : s.Holds c k) {chunk : Chunk} {delta : BlockDelta} {kind : OpenBlock}
    (hkind : s.opened = some kind) (hdelta : SentAs chunk delta kind) :
    ∃ c', c.read (.contentBlockDelta s.index delta) = some c' ∧ c'.closed = c.closed ∧
      s.Holds c' (k.push chunk) := by
  obtain ⟨closed, opened⟩ := c
  obtain ⟨index, opened', emittedCalls⟩ := s
  obtain ⟨hindex, hopened, hcalls⟩ := h
  simp only at hindex hopened hcalls hkind
  subst hkind hindex hopened hcalls
  cases kind with
  | thinking =>
    obtain ⟨words, rfl, rfl⟩ := hdelta
    refine ⟨⟨closed, some (.thinking (k.reasoning ++ words) "")⟩, ?_, rfl, rfl, rfl, rfl⟩
    simp [MessagesClient.read, MessagesClient.grow]
  | text =>
    obtain ⟨words, rfl, rfl⟩ := hdelta
    refine ⟨⟨closed, some (.text (k.text ++ words))⟩, ?_, rfl, rfl, rfl, rfl⟩
    simp [MessagesClient.read, MessagesClient.grow]

/-- A chunk extends the open block, or closes it and opens one of its kind. -/
theorem Holds.turned_delta (h : s.Holds c k) (requestId : ℕ) {chunk : Chunk} {delta : BlockDelta}
    (kind : OpenBlock) (hdelta : SentAs chunk delta kind) (hempty : s.opened ≠ some kind → Fresh k kind) :
    ∃ c', ((s.turnTo requestId kind).1 ++
        [MessageEvent.contentBlockDelta (s.turnTo requestId kind).2.index delta]).foldlM MessagesClient.read c
          = some c' ∧
      c'.closed = (if s.opened = some kind then c.closed else c.closed ++ s.held requestId k) ∧
      (s.turnTo requestId kind).2.Holds c' (k.push chunk) ∧
      (s.turnTo requestId kind).2.opened = some kind := by
  by_cases hkind : s.opened = some kind
  · obtain ⟨c', hread, hclosed, hholds⟩ := h.delta hkind hdelta
    have hturn : s.turnTo requestId kind = ([], s) := if_pos hkind
    rw [hturn, if_pos hkind, List.nil_append, List.foldlM_cons, hread]
    exact ⟨c', rfl, hclosed, hholds, hkind⟩
  · obtain ⟨c', hread, hclosed, hholds, hopened⟩ := h.turnTo hkind (hempty hkind)
    obtain ⟨c'', hread', hclosed', hholds'⟩ := hholds.delta hopened hdelta
    rw [if_neg hkind, List.foldlM_append, hread]
    refine ⟨c'', ?_, hclosed'.trans hclosed, hholds', hopened⟩
    simp only [Option.bind_eq_bind, Option.bind_some, List.foldlM_cons, List.foldlM_nil, hread',
      Option.pure_def]

/-- Nothing but the open block has been sent of thinking. -/
theorem Tracks.closed_of_thinking (h : s.Tracks spell requestId c k)
    (hkind : s.opened = some .thinking) : c.closed = [] := by
  obtain ⟨hreasoning, htext, hcalls⟩ := h.thinking hkind
  have hblocks := h.blocks
  rw [Collected.blocks, held, hkind, if_neg hreasoning, if_pos htext, hcalls] at hblocks
  have hlength := congrArg List.length hblocks
  rw [List.length_append] at hlength
  exact List.length_eq_zero_iff.mp (Nat.add_right_cancel hlength)

theorem Tracks.closed_of_idle (h : s.Tracks spell requestId c k) (hkind : s.opened = none)
    (hcalls : k.toolCalls = []) : c.closed = [] := by
  obtain ⟨hreasoning, htext⟩ := h.idle hkind hcalls
  have hblocks := h.blocks
  rw [Collected.blocks, held, hkind, if_pos hreasoning, if_pos htext, hcalls,
    List.append_nil] at hblocks
  exact hblocks

theorem Tracks.closed_of_answering (h : s.Tracks spell requestId c k)
    (hkind : s.opened = some .text) : c.closed
      = if k.reasoning = "" then [] else [.thinking k.reasoning (thinkingSignature requestId)] := by
  obtain ⟨htext, hcalls⟩ := h.answering hkind
  have hblocks := h.blocks
  rw [Collected.blocks, held, hkind, if_neg htext, hcalls] at hblocks
  exact List.append_cancel_right (hblocks.trans (List.append_nil _))

theorem Tracks.emit (h : s.Tracks spell requestId c k) {chunk : Chunk} (hallowed : Admits k chunk) :
    ∃ c', (s.emit spell requestId chunk).1.foldlM MessagesClient.read c = some c' ∧
      (s.emit spell requestId chunk).2.Tracks spell requestId c' (k.push chunk) := by
  cases chunk with
  | reasoning words =>
    obtain ⟨hne, htext, hcalls⟩ := hallowed
    have hmore := @ResponsesLoop.append_ne_empty k.reasoning words hne
    -- reasoning comes first, so a block that is open is a thinking block
    have hopened : s.opened ≠ some .thinking → s.opened = none := by
      intro hkind
      rcases hopened : s.opened with _ | kind
      · rfl
      · cases kind with
        | thinking => exact absurd hopened hkind
        | text => exact absurd htext (h.answering hopened).1
    obtain ⟨c', hread, hclosed, hholds, hkind⟩ := h.holds.turned_delta requestId
      .thinking ⟨words, rfl, rfl⟩ (fun hkind => (h.idle (hopened hkind) hcalls).1)
    have hempty : c'.closed = [] := by
      rw [hclosed]
      split
      · rename_i hkind
        exact h.closed_of_thinking hkind
      · rename_i hkind
        rw [h.closed_of_idle (hopened hkind) hcalls, held, hopened hkind]
        rfl
    -- the chunk goes into that block, or opens it
    refine ⟨c', hread, hholds, ?_, ?_, ?_, ?_⟩
    · have hheld : (s.turnTo requestId .thinking).2.held requestId (k.push (.reasoning words))
          = [.thinking (k.reasoning ++ words) (thinkingSignature requestId)] := by
        rw [held, hkind]
        rfl
      rw [MessagesLoop.emit, hheld, hempty, Collected.push, Collected.blocks, if_neg hmore,
        if_pos htext, hcalls]
      rfl
    · exact fun hnone => by cases hnone.symm.trans hkind
    · exact fun _ => ⟨hmore, htext, hcalls⟩
    · exact fun htext => by cases htext.symm.trans hkind
  | text words =>
    obtain ⟨hne, hcalls⟩ := hallowed
    have hmore := @ResponsesLoop.append_ne_empty k.text words hne
    obtain ⟨c', hread, hclosed, hholds, hkind⟩ := h.holds.turned_delta requestId
      .text ⟨words, rfl, rfl⟩ (fun hkind => by
        -- reasoning may be open: its block is closed and signed
        rcases hopened : s.opened with _ | kind
        · exact (h.idle hopened hcalls).2
        · cases kind with
          | thinking => exact (h.thinking hopened).2.1
          | text => exact absurd hopened hkind)
    have hbefore : c'.closed = if k.reasoning = "" then []
        else [.thinking k.reasoning (thinkingSignature requestId)] := by
      rw [hclosed]
      split
      · rename_i hkind
        exact h.closed_of_answering hkind
      · rename_i hkind
        rcases hopened : s.opened with _ | kind
        · rw [h.closed_of_idle hopened hcalls, held, hopened, if_pos (h.idle hopened hcalls).1]
          rfl
        · cases kind with
          | thinking =>
            rw [h.closed_of_thinking hopened, held, hopened, if_neg (h.thinking hopened).1]
            rfl
          | text => exact absurd hopened hkind
    -- the text goes into the block that is open now
    refine ⟨c', hread, hholds, ?_, ?_, ?_, ?_⟩
    · have hheld : (s.turnTo requestId .text).2.held requestId (k.push (.text words))
          = [.text (k.text ++ words)] := by
        rw [held, hkind]
        rfl
      rw [MessagesLoop.emit, hheld, hbefore, Collected.push, Collected.blocks, if_neg hmore, hcalls]
      exact (List.append_nil _).symm
    · exact fun hnone => by cases hnone.symm.trans hkind
    · exact fun hthinking => by cases hthinking.symm.trans hkind
    · exact fun _ => ⟨hmore, hcalls⟩
  | toolCall call =>
    -- whatever is open is closed first
    obtain ⟨hread, hloop⟩ := h.holds.close requestId
    rw [h.blocks] at hread hloop
    have hstate : (s.emit spell requestId (.toolCall call)).2
        = ⟨(k.blocks spell requestId).length + 1, none, k.toolCalls.length + 1⟩ := by
      rw [MessagesLoop.emit, hloop]
    rw [hstate]
    -- the call is a block of its own, closed at once
    refine ⟨⟨k.blocks spell requestId ++ [.toolUse (toolUseId requestId k.toolCalls.length)
      call.name (call.argumentsJson spell)], none⟩, ?_, ⟨?_, rfl, ?_⟩, ?_, ?_, ?_, ?_⟩
    · rw [MessagesLoop.emit, List.foldlM_append, hread, hloop]
      simp [MessagesClient.read, MessagesClient.grow]
    · rw [List.length_append]
      rfl
    · rw [Collected.push, List.length_append]
      rfl
    · rw [held, List.append_nil, Collected.push, Collected.blocks, Collected.blocks,
        List.mapIdx_concat, List.append_assoc]
    · exact fun _ hnil => absurd hnil (List.append_ne_nil_of_right_ne_nil _ (List.cons_ne_nil _ _))
    · exact fun hthinking => by cases hthinking
    · exact fun htext => by cases htext

/-- The client ends with the body of what has been collected. -/
def Ends (spell : JsonMap → String) (requestId : ℕ) (s : MessagesLoop) (c : MessagesClient)
    (k : Collected) (chunks : List Chunk) : Prop :=
  (s.loop spell requestId chunks).foldlM MessagesClient.read c
    = some ⟨(contentBlocks (chunks.foldl Collected.push k) requestId).map
        (ContentBlock.spelled spell), none⟩

theorem Tracks.ends_nil (h : s.Tracks spell requestId c k) : Ends spell requestId s c k [] := by
  rw [Ends, loop, List.foldl_nil, contentBlocks_spelled, ← h.blocks, finish]
  obtain ⟨hindex, hopened, hcalls⟩ := h.holds
  split
  · -- nothing at all was produced
    rename_i hnone
    have hclosed : c.closed = [] := List.length_eq_zero_iff.mp (hindex.symm.trans hnone.2)
    have hfree : c.opened = none := by
      rw [hopened, hnone.1]
      rfl
    rw [hnone.2, held, hnone.1, hclosed, List.append_nil, if_pos rfl]
    obtain ⟨closed, opened⟩ := c
    simp only at hclosed hfree
    subst hclosed hfree
    simp [closeBlock, MessagesClient.read]
  · rename_i hsome
    have hclose := h.holds.close requestId
    have hne : c.closed ++ s.held requestId k ≠ [] := by
      intro hnil
      obtain ⟨hclosed, hheld⟩ := List.append_eq_nil_iff.mp hnil
      refine hsome ⟨?_, by rw [hindex, hclosed]; rfl⟩
      rcases hkind : s.opened with _ | kind
      · rfl
      · rw [held, hkind] at hheld
        cases kind with
        | thinking => cases hheld
        | text => cases hheld
    rw [if_neg hne]
    rcases hkind : s.opened with _ | kind
    · obtain ⟨closed, opened⟩ := c
      rw [hkind] at hopened
      simp only [Option.map_none] at hopened
      subst hopened
      rw [held, hkind, List.append_nil]
      rfl
    · have hsame : (s.close requestId).1 = closeBlock (some kind) s.index requestId := by
        rw [MessagesLoop.close, hkind]
        rfl
      rw [← hsame]
      exact hclose.1

theorem Tracks.ends_cons (h : s.Tracks spell requestId c k) {chunk : Chunk} {chunks : List Chunk}
    (hallowed : Admits k chunk)
    (hrest : ∀ c', (s.emit spell requestId chunk).2.Tracks spell requestId c' (k.push chunk) →
      Ends spell requestId (s.emit spell requestId chunk).2 c' (k.push chunk) chunks) :
    Ends spell requestId s c k (chunk :: chunks) := by
  obtain ⟨c', hread, htracks⟩ := h.emit hallowed
  rw [Ends, loop, List.foldlM_append, hread]
  exact hrest c' htracks

theorem Tracks.ends_calls : ∀ (calls : List ParsedToolCall) {s : MessagesLoop} {c : MessagesClient}
    {k : Collected}, s.Tracks spell requestId c k → Ends spell requestId s c k (calls.map .toolCall)
  | [], _, _, _, h => h.ends_nil
  | _ :: calls, _, _, _, h => h.ends_cons trivial fun _ h' => h'.ends_calls calls

theorem Tracks.ends_texts (calls : List ParsedToolCall) :
    ∀ (texts : List String) {s : MessagesLoop} {c : MessagesClient} {k : Collected},
      s.Tracks spell requestId c k → k.toolCalls = [] → (∀ words ∈ texts, words ≠ "") →
      Ends spell requestId s c k (texts.map .text ++ calls.map .toolCall)
  | [], _, _, _, h, _, _ => h.ends_calls calls
  | words :: texts, _, _, _, h, hcalls, htexts => by
    obtain ⟨hne, htexts⟩ := List.forall_mem_cons.mp htexts
    exact h.ends_cons ⟨hne, hcalls⟩ fun _ h' => h'.ends_texts calls texts hcalls htexts

theorem Tracks.ends_reasonings (texts : List String) (calls : List ParsedToolCall)
    (htexts : ∀ words ∈ texts, words ≠ "") :
    ∀ (reasonings : List String) {s : MessagesLoop} {c : MessagesClient} {k : Collected},
      s.Tracks spell requestId c k → k.text = "" → k.toolCalls = [] →
      (∀ words ∈ reasonings, words ≠ "") → Ends spell requestId s c k
        (reasonings.map .reasoning ++ (texts.map .text ++ calls.map .toolCall))
  | [], _, _, _, h, _, hcalls, _ => h.ends_texts calls texts hcalls htexts
  | words :: reasonings, _, _, _, h, htext, hcalls, hreasonings => by
    obtain ⟨hne, hreasonings⟩ := List.forall_mem_cons.mp hreasonings
    exact h.ends_cons ⟨hne, htext, hcalls⟩ fun _ h' =>
      h'.ends_reasonings texts calls htexts reasonings htext hcalls hreasonings

theorem Tracks.start : start.Tracks spell requestId MessagesClient.start ⟨"", "", []⟩ :=
  ⟨⟨rfl, rfl, rfl⟩, rfl, fun _ _ => ⟨rfl, rfl⟩, (fun h => by cases h), (fun h => by cases h)⟩

end MessagesLoop

/-! ### The order in which blocks open -/

/-- The place of a block an event opens. -/
def MessageEvent.started : MessageEvent → Option ℕ
  | contentBlockStart _ block => some block.rank
  | _ => none

/-- The places of the blocks a client has seen. -/
def MessagesClient.ranks (c : MessagesClient) : List ℕ :=
  c.closed.map ContentBlock.rank ++ (c.opened.map ContentBlock.rank).toList

theorem MessagesClient.grow_rank {block block' : ContentBlock String} {delta : BlockDelta}
    (h : grow block delta = some block') : block'.rank = block.rank := by
  unfold grow at h
  split at h
  · rw [← Option.some.inj h]
    rfl
  · rw [← Option.some.inj h]
    rfl
  · rw [← Option.some.inj h]
    rfl
  · rw [← Option.some.inj h]
    rfl
  · cases h

/-- A client has seen the blocks that were opened, in order. -/
theorem MessagesClient.read_ranks {c c' : MessagesClient} {event : MessageEvent}
    (h : c.read event = some c') : c'.ranks = c.ranks ++ event.started.toList := by
  have hsame : some c = some c' → c'.ranks = c.ranks ++ [] := by
    intro heq
    rw [Option.some.inj heq, List.append_nil]
  cases event with
  | messageStart => exact hsame h
  | contentBlockStart index block =>
    rw [read] at h
    split at h
    · rename_i hopen
      obtain rfl := Option.some.inj h
      rw [ranks, ranks, hopen.1]
      show _ ++ [block.rank] = (_ ++ []) ++ [block.rank]
      rw [List.append_nil]
    · cases h
  | contentBlockDelta index delta =>
    rw [read] at h
    split at h
    · obtain ⟨block', hgrow, rfl⟩ := Option.map_eq_some_iff.mp h
      obtain ⟨block, hopen, hgrow⟩ := Option.bind_eq_some_iff.mp hgrow
      rw [ranks, ranks, hopen]
      show _ ++ [block'.rank] = (_ ++ [block.rank]) ++ []
      rw [grow_rank hgrow, List.append_nil]
    · cases h
  | contentBlockStop index =>
    rw [read] at h
    split at h
    · obtain ⟨block, hopen, rfl⟩ := Option.map_eq_some_iff.mp h
      rw [ranks, ranks, hopen, List.map_append]
      show (_ ++ [block.rank]) ++ [] = (_ ++ [block.rank]) ++ []
      rfl
    · cases h
  | messageDelta _ _ =>
    rw [read] at h
    split at h
    · exact hsame h
    · cases h
  | messageStop => exact hsame h

namespace MessagesLoop

variable {s : MessagesLoop}

theorem close_started : (s.close requestId).1.filterMap MessageEvent.started = [] := by
  rw [close]
  split
  · rcases s.opened with _ | kind
    · rfl
    · cases kind with
      | thinking => rfl
      | text => rfl
  · rfl

theorem turnTo_started (kind : OpenBlock) :
    (s.turnTo requestId kind).1.filterMap MessageEvent.started
        = (if s.opened = some kind then [] else [(emptyBlock kind).rank]) ∧
      (s.turnTo requestId kind).2.opened = some kind := by
  rw [turnTo]
  split
  · rename_i hkind
    exact ⟨rfl, hkind⟩
  · refine ⟨?_, rfl⟩
    rw [List.filterMap_append, close_started]
    rfl

/-- What a chunk opens, and what is open behind it. -/
theorem emit_started (chunk : Chunk) :
    match chunk with
    | .reasoning _ => (s.emit spell requestId chunk).2.opened = some .thinking
    | .text _ => (s.emit spell requestId chunk).1.filterMap MessageEvent.started
          = (if s.opened = some .text then [] else [1])
    | .toolCall _ => (s.emit spell requestId chunk).1.filterMap MessageEvent.started = [2] ∧
        (s.emit spell requestId chunk).2.opened = none := by
  cases chunk with
  | reasoning words => exact (turnTo_started .thinking).2
  | text words =>
    show ((s.turnTo requestId .text).1 ++ _).filterMap MessageEvent.started = _
    rw [List.filterMap_append, (turnTo_started .text).1]
    exact List.append_nil _
  | toolCall call =>
    refine ⟨?_, ?_⟩
    · show ((s.close requestId).1 ++ _).filterMap MessageEvent.started = _
      rw [List.filterMap_append, close_started]
      rfl
    · show (s.close requestId).2.opened = none
      rw [close]
      split
      · rfl
      · rename_i hnone
        exact Option.not_isSome_iff_eq_none.mp hnone

theorem loop_started_cons (s : MessagesLoop) (chunk : Chunk) (chunks : List Chunk) :
    (s.loop spell requestId (chunk :: chunks)).filterMap MessageEvent.started
      = (s.emit spell requestId chunk).1.filterMap MessageEvent.started ++
        ((s.emit spell requestId chunk).2.loop spell requestId chunks).filterMap
          MessageEvent.started := by
  rw [loop]
  exact List.filterMap_append

/-- A text opens a text block, unless one is open. -/
theorem text_started {words : String} : ∀ {chunks : List Chunk} {s : MessagesLoop},
    .text words ∈ chunks → s.opened ≠ some .text →
      1 ∈ (s.loop spell requestId chunks).filterMap MessageEvent.started
  | [], _, hmem, _ => absurd hmem List.not_mem_nil
  | chunk :: chunks, s, hmem, hopen => by
    have hemit := @emit_started spell requestId s chunk
    rw [loop_started_cons, List.mem_append]
    cases chunk with
    | text _ =>
      left
      rw [hemit, if_neg hopen]
      exact List.mem_singleton_self _
    | reasoning _ =>
      have hkind : (s.emit spell requestId (.reasoning _)).2.opened = some .thinking := hemit
      refine Or.inr (text_started ((List.mem_cons.mp hmem).resolve_left fun h => by cases h) ?_)
      rw [hkind]
      exact fun h => by cases h
    | toolCall _ =>
      refine Or.inr (text_started ((List.mem_cons.mp hmem).resolve_left fun h => by cases h) ?_)
      rw [hemit.2]
      exact fun h => by cases h

/-- A text behind a call opens its block behind the call's. -/
theorem call_then_text {call : ParsedToolCall} {post : List Chunk} {words : String}
    (hmem : .text words ∈ post) : ∀ {pre : List Chunk} {s : MessagesLoop},
      [2, 1].Sublist ((s.loop spell requestId (pre ++ .toolCall call :: post)).filterMap
        MessageEvent.started)
  | [], s => by
    have hemit := @emit_started spell requestId s (.toolCall call)
    rw [List.nil_append, loop_started_cons, hemit.1]
    refine List.Sublist.cons_cons _ (List.singleton_sublist.mpr (text_started hmem ?_))
    rw [hemit.2]
    exact fun h => by cases h
  | chunk :: pre, s => by
    rw [List.cons_append, loop_started_cons]
    exact (call_then_text hmem).trans (List.sublist_append_right _ _)

end MessagesLoop

theorem contentBlocks_ids_nodup (k : Collected) :
    ((contentBlocks k requestId).filterMap ContentBlock.id).Nodup := by
  have hids : ((if k.reasoning = "" then []
        else [ContentBlock.thinking k.reasoning (thinkingSignature requestId)]) ++
      (if k.text = "" then [] else [ContentBlock.text k.text]) ++
      k.toolCalls.mapIdx fun index (call : ParsedToolCall) =>
        ContentBlock.toolUse (toolUseId requestId index) call.name call.arguments).filterMap
          ContentBlock.id
      = k.toolCalls.mapIdx fun index _ =>
        "toolu_" ++ toString requestId ++ "_" ++ toString index := by
    have hcalls : (k.toolCalls.mapIdx fun index (call : ParsedToolCall) =>
        ContentBlock.toolUse (toolUseId requestId index) call.name call.arguments).map
          ContentBlock.id = (k.toolCalls.mapIdx fun index _ =>
            "toolu_" ++ toString requestId ++ "_" ++ toString index).map some := by
      rw [List.map_mapIdx', List.map_mapIdx']
      rfl
    have hcalls' := congrArg (List.filterMap id) hcalls
    rw [List.filterMap_map, List.filterMap_map] at hcalls'
    rw [List.filterMap_append, List.filterMap_append]
    refine Eq.trans ?_ (hcalls'.trans List.filterMap_some)
    split
    · split
      · rfl
      · rfl
    · split
      · rfl
      · rfl
  rw [contentBlocks, apply_ite (List.filterMap ContentBlock.id), hids]
  exact iteInduction (fun _ => List.nodup_nil) fun _ => numbered_nodup _ _

/-! ### Chat completions -/

namespace ChatClient

/-- The client has accumulated what has been collected: the text from the
empty string of the first delta on. -/
structure Tracks (spell : JsonMap → String) (requestId : ℕ) (c : ChatClient) (k : Collected) :
    Prop where
  content : c.content = some (some k.text)
  reasoning : c.reasoningContent = if k.reasoning = "" then none else some k.reasoning
  toolCalls : c.toolCalls = if k.toolCalls = [] then none
    else some (k.toolCalls.mapIdx (toolCallValue spell requestId))

theorem Tracks.read_delta {c : ChatClient} {k : Collected} (h : Tracks spell requestId c k)
    (chunk : Chunk) (hne : ∀ words, chunk = .reasoning words → words ≠ "") :
    ∃ c', read c (chatDelta spell requestId k.toolCalls.length chunk) = some c' ∧
      c'.role = c.role ∧ Tracks spell requestId c' (k.push chunk) := by
  obtain ⟨hcontent, hreasoning, hcalls⟩ := h
  cases chunk with
  | reasoning words =>
    have hmore := @ResponsesLoop.append_ne_empty k.reasoning words (hne words rfl)
    have hgrown : c.reasoningContent.getD "" ++ words = k.reasoning ++ words := by
      rw [hreasoning]
      split
      · rename_i hempty
        rw [hempty]
        rfl
      · rfl
    refine ⟨_, rfl, rfl, ⟨hcontent, ?_, hcalls⟩⟩
    show some (c.reasoningContent.getD "" ++ words) = _
    rw [hgrown, Collected.push, if_neg hmore]
  | text words =>
    refine ⟨_, rfl, rfl, ⟨?_, hreasoning, hcalls⟩⟩
    show some (some (c.content.join.getD "" ++ words)) = some (some (k.text ++ words))
    rw [hcontent]
    rfl
  | toolCall call =>
    have hbefore : c.toolCalls.getD [] = k.toolCalls.mapIdx (toolCallValue spell requestId) := by
      rw [hcalls]
      split
      · rename_i hnil
        rw [hnil]
        rfl
      · rfl
    have hmore : k.toolCalls ++ [call] ≠ [] :=
      List.append_ne_nil_of_right_ne_nil _ (List.cons_ne_nil _ _)
    refine ⟨{ c with toolCalls := some (k.toolCalls.mapIdx (toolCallValue spell requestId) ++
      [toolCallValue spell requestId k.toolCalls.length call]) }, ?_, rfl,
      ⟨hcontent, hreasoning, ?_⟩⟩
    · simp [chatDelta, ChatDelta.default, read, ChatClient.call, hbefore, toolCallValue]
    · rw [Collected.push, if_neg hmore, List.mapIdx_concat]

theorem Tracks.read_loop : ∀ {c : ChatClient} {k : Collected},
    Tracks spell requestId c k → ∀ chunks : List Chunk, (∀ words, .reasoning words ∈ chunks → words ≠ "") →
      ∃ c', (chatLoop spell requestId k.toolCalls.length chunks).foldlM read c = some c' ∧
        c'.role = c.role ∧ Tracks spell requestId c' (chunks.foldl Collected.push k)
  | c, k, h, [], _ => by
    refine ⟨c, ?_, rfl, h⟩
    obtain ⟨role, content, reasoning, toolCalls⟩ := c
    simp [chatLoop, read, ChatDelta.default]
  | c, k, h, chunk :: chunks, hne => by
    obtain ⟨c₁, hread, hrole, htracks⟩ := h.read_delta chunk
      fun words heq => hne words (heq ▸ List.mem_cons_self)
    obtain ⟨c', hrest, hrole', htracks'⟩ := htracks.read_loop chunks
      fun words hmem => hne words (List.mem_cons_of_mem _ hmem)
    refine ⟨c', ?_, hrole'.trans hrole, htracks'⟩
    have hcount : (k.push chunk).toolCalls.length = countCall k.toolCalls.length chunk := by
      cases chunk with
      | reasoning _ => rfl
      | text _ => rfl
      | toolCall _ => exact List.length_append
    rw [chatLoop, List.foldlM_cons, hread, ← hcount]
    exact hrest

end ChatClient

/-- What the client reads is the body of a chat completion but for the content,
which the stream never leaves null. -/
theorem chat_read {chunks : List Chunk} (hne : ∀ words, .reasoning words ∈ chunks → words ≠ "") :
    (chatStream spell requestId chunks).foldlM ChatClient.read ChatClient.start
      = some { chatMessage spell (collect chunks) requestId with
          content := some (some (collect chunks).text) } := by
  have hstart : ChatClient.Tracks spell requestId ⟨some "assistant", some (some ""), none, none⟩
      ⟨"", "", []⟩ := ⟨rfl, rfl, rfl⟩
  obtain ⟨⟨role, content, reasoning, toolCalls⟩, hread, hrole, hcontent, hreasoning, hcalls⟩ :=
    hstart.read_loop chunks hne
  simp only at hrole hcontent hreasoning hcalls
  have hfirst : (chatStream spell requestId chunks).foldlM ChatClient.read ChatClient.start
      = (chatLoop spell requestId 0 chunks).foldlM ChatClient.read
        ⟨some "assistant", some (some ""), none, none⟩ := rfl
  rw [hfirst]
  refine hread.trans ?_
  rw [hrole, hcontent, hreasoning, hcalls]
  rfl

/-- A chat stream agrees with its body if and only if there is no call, or a
text: the body of a turn of calls only has a null content, and the stream an
empty one. -/
theorem chat_agrees_iff {chunks : List Chunk}
    (hreasonings : ∀ words, .reasoning words ∈ chunks → words ≠ "")
    (htexts : ∀ words, .text words ∈ chunks → words ≠ "") :
    ChatAgrees spell requestId chunks
      ↔ (∀ call, .toolCall call ∉ chunks) ∨ ∃ words, .text words ∈ chunks := by
  have hcontent : (chatMessage spell (collect chunks) requestId).content
      = some (some (collect chunks).text)
        ↔ (collect chunks).toolCalls = [] ∨ (collect chunks).text ≠ "" := by
    show some (if _ then _ else _) = _ ↔ _
    split
    · rename_i hsome
      exact ⟨fun _ => hsome, fun _ => rfl⟩
    · rename_i hnull
      refine ⟨fun h => ?_, fun h => absurd h hnull⟩
      cases h
  have hids : (((chatMessage spell (collect chunks) requestId).toolCalls.getD []).map
      ToolCallValue.id).Nodup := by
    show ((if (collect chunks).toolCalls = [] then none else some _).getD [] |>.map _).Nodup
    split
    · exact List.nodup_nil
    · show (List.map _ (List.mapIdx _ _)).Nodup
      rw [List.map_mapIdx']
      exact numbered_nodup ("call_" ++ toString requestId ++ "_") (collect chunks).toolCalls
  have hcalls : (collect chunks).toolCalls = [] ↔ ∀ call, .toolCall call ∉ chunks :=
    collect_calls_eq_nil.trans (and_iff_right rfl)
  have htext : (collect chunks).text ≠ "" ↔ ∃ words, .text words ∈ chunks := by
    rw [collect, Ne, collect_text_eq_empty, and_iff_right rfl, not_forall]
    exact exists_congr fun words => by
      rw [Classical.not_imp]
      exact and_iff_left_of_imp fun hmem => htexts words hmem
  rw [ChatAgrees, chat_read hreasonings, ← hcalls, ← htext, ← hcontent]
  constructor
  · rintro ⟨hread, -⟩
    exact (congrArg ChatDelta.content (Option.some.inj hread)).symm
  · intro hsame
    refine ⟨?_, hids⟩
    rw [← hsame]

/-! ### Agreement -/

section Agree

variable {reasonings : List String} {answer : List Chunk} {finish : Finish}

/-- A messages stream agrees with its body if and only if no text follows a call. -/
theorem messages_agrees_iff (h : Delivered reasonings answer) :
    MessagesAgrees spell requestId finish (reasonings.map .reasoning ++ answer)
      ↔ TextsFirst answer := by
  set chunks := reasonings.map Chunk.reasoning ++ answer with hchunks
  constructor
  · rintro ⟨hread, -⟩
    -- the body has the blocks that were opened, in their order
    have hranks := @foldlM_noted _ _ _ MessagesClient.read MessagesClient.ranks MessageEvent.started
      (fun _ _ _ => MessagesClient.read_ranks) _ _ _ hread
    have hopened : ((contentBlocks (collect chunks) requestId).map
        (ContentBlock.spelled spell)).map ContentBlock.rank
          = (MessagesLoop.start.loop spell requestId chunks).filterMap MessageEvent.started := by
      rw [messagesStream, List.cons_append, List.filterMap_cons_none rfl,
        List.filterMap_append, MessagesClient.ranks, MessagesClient.ranks] at hranks
      simp only [MessagesClient.start, Option.map_none, Option.toList_none, List.map_nil,
        List.append_nil, List.nil_append] at hranks
      exact hranks.trans (List.append_nil _)
    obtain hfirst | ⟨pre, call, post, words, rfl, hmem⟩ := textsFirst_or h.answered
    · exact hfirst
    · have hsub := @MessagesLoop.call_then_text spell requestId call post words hmem
        (reasonings.map .reasoning ++ pre) .start
      rw [List.append_assoc, ← hchunks, ← hopened, contentBlocks_spelled] at hsub
      have hsorted : ((if (collect chunks).blocks spell requestId = [] then [.text ""]
          else (collect chunks).blocks spell requestId).map ContentBlock.rank).Pairwise (· ≤ ·) := by
        split
        · exact List.pairwise_singleton _ _
        · exact blocks_sorted _
      have hpair := List.rel_of_pairwise_cons (hsorted.sublist hsub) (List.mem_singleton_self 1)
      exact absurd hpair (by decide)
  · rintro ⟨texts, calls, hanswer⟩
    have hends := (@MessagesLoop.Tracks.start spell requestId).ends_reasonings texts calls
      (h.texts_ne hanswer) reasonings rfl rfl h.reasonings
    rw [← hanswer, ← hchunks, MessagesLoop.Ends] at hends
    refine ⟨?_, contentBlocks_ids_nodup _⟩
    rw [messagesStream, List.cons_append]
    simp only [MessagesClient.read, List.foldlM_append, Option.bind_eq_bind, Option.bind_some,
      List.foldlM_cons,
      List.foldlM_nil, Option.pure_def, hends, if_true, collect]

/-- Which streams agree with their bodies: the Responses stream if no text
follows a call and there is a text or a call, the messages stream if no text
follows a call, the chat stream if there is no call or there is a text. -/
theorem streams_agree_iff (spell : JsonMap → String) (e : Envelope) (finish : Finish)
    (reasonings : List String) (answer : List Chunk) (h : Delivered reasonings answer) :
    (ResponsesAgrees spell e finish (reasonings.map .reasoning ++ answer)
        ↔ TextsFirst answer ∧ answer ≠ []) ∧
      (MessagesAgrees spell e.requestId finish (reasonings.map .reasoning ++ answer)
        ↔ TextsFirst answer) ∧
      (ChatAgrees spell e.requestId (reasonings.map .reasoning ++ answer)
        ↔ (∀ call, .toolCall call ∉ answer) ∨ ∃ words, .text words ∈ answer) := by
  have hanswer : ∀ {chunk : Chunk}, (∀ words, chunk ≠ .reasoning words) →
      (chunk ∈ reasonings.map .reasoning ++ answer ↔ chunk ∈ answer) := by
    intro chunk hne
    rw [List.mem_append]
    refine or_iff_right fun hmem => ?_
    obtain ⟨words, -, heq⟩ := List.mem_map.mp hmem
    exact hne words heq.symm
  have hcall : ∀ call, .toolCall call ∈ reasonings.map .reasoning ++ answer
      ↔ .toolCall call ∈ answer := fun call => hanswer fun words heq => by cases heq
  have htext : ∀ words, .text words ∈ reasonings.map .reasoning ++ answer
      ↔ .text words ∈ answer := fun words => hanswer fun words heq => by cases heq
  refine ⟨responses_agrees_iff h, messages_agrees_iff h, ?_⟩
  rw [chat_agrees_iff]
  · simp only [hcall, htext]
  · intro words hmem
    rcases List.mem_append.mp hmem with hmem | hmem
    · obtain ⟨words', hwords, heq⟩ := List.mem_map.mp hmem
      cases heq
      exact h.reasonings words hwords
    · exact absurd rfl (h.answered _ hmem words)
  · intro words hmem
    exact h.texts words ((htext words).mp hmem)

/-- A call that takes nothing. -/
def pingCall : ParsedToolCall := ⟨"ping", []⟩

/-- Thought, an answer and a call are streamed as they are served, in every
dialect; of a turn of calls only the chat stream is not. -/
theorem streams_agree_witness :
    (ResponsesAgrees (fun _ => "{}") ⟨7, []⟩ .endOfTurn
        [.reasoning "hm", .text "Ping.", .toolCall pingCall] ∧
      MessagesAgrees (fun _ => "{}") 7 .endOfTurn
        [.reasoning "hm", .text "Ping.", .toolCall pingCall] ∧
      ChatAgrees (fun _ => "{}") 7 [.reasoning "hm", .text "Ping.", .toolCall pingCall]) ∧
    ResponsesAgrees (fun _ => "{}") ⟨7, []⟩ .endOfTurn [.toolCall pingCall] ∧
      MessagesAgrees (fun _ => "{}") 7 .endOfTurn [.toolCall pingCall] ∧
      ¬ChatAgrees (fun _ => "{}") 7 [.toolCall pingCall] := by
  have hdelivered : Delivered ["hm"] [.text "Ping.", .toolCall pingCall] := by
    refine ⟨?_, ?_, ?_⟩
    · intro words hwords
      rw [List.mem_singleton.mp hwords]
      decide
    · intro chunk hchunk words heq
      subst heq
      simp at hchunk
    · intro words hwords
      simp only [List.mem_cons, Chunk.text.injEq, reduceCtorEq, List.not_mem_nil, or_false] at hwords
      rw [hwords]
      decide
  have hcalls : Delivered [] [.toolCall pingCall] := by
    refine ⟨fun _ hwords => absurd hwords List.not_mem_nil, ?_, ?_⟩
    · intro chunk hchunk words heq
      subst heq
      simp at hchunk
    · intro words hwords
      simp at hwords
  obtain ⟨hresponses, hmessages, hchat⟩ := streams_agree_iff (fun _ => "{}") ⟨7, []⟩ .endOfTurn
    ["hm"] [.text "Ping.", .toolCall pingCall] hdelivered
  obtain ⟨hresponses', hmessages', hchat'⟩ := streams_agree_iff (fun _ => "{}") ⟨7, []⟩ .endOfTurn
    [] [.toolCall pingCall] hcalls
  have hfirst : TextsFirst [.text "Ping.", .toolCall pingCall] := ⟨["Ping."], [pingCall], rfl⟩
  have hfirst' : TextsFirst [.toolCall pingCall] := ⟨[], [pingCall], rfl⟩
  refine ⟨⟨hresponses.mpr ⟨hfirst, List.cons_ne_nil _ _⟩, hmessages.mpr hfirst,
    hchat.mpr (Or.inr ⟨"Ping.", List.mem_cons_self⟩)⟩,
    hresponses'.mpr ⟨hfirst', List.cons_ne_nil _ _⟩, hmessages'.mpr hfirst', fun hagrees => ?_⟩
  rcases hchat'.mp hagrees with hnone | ⟨words, hmem⟩
  · exact hnone pingCall List.mem_cons_self
  · simp at hmem

/-- A message that goes on behind a call is opened twice under one id, and
closes the second time with the text of both. -/
theorem text_behind_call_repeated :
    ¬ResponsesAgrees (fun _ => "{}") ⟨7, []⟩ .endOfTurn
      [.text "Ping.", .toolCall pingCall, .text "Pong."] ∧
    (responsesStream (fun _ => "{}") ⟨7, []⟩ .endOfTurn
      [.text "Ping.", .toolCall pingCall, .text "Pong."]).filterMap (fun
        | .outputItemDone _ (.message id _ text) => some (id, text)
        | _ => none) = [("msg_7", "Ping."), ("msg_7", "Ping.Pong.")] := by
  refine ⟨?_, by decide⟩
  rintro ⟨hread, -⟩
  exact absurd hread (by decide)

end Agree
