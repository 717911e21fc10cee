/-
What a generation reads and what it hands on.

At every moment the decoded text is the reasoning, the mark that closed it, the answer and
what is pending, one behind the other (`Reads`); nothing that the caller's stop sequences
or the marks end is handed on (`Clear`).

The reasoning ends in one of four ways (`Closing`): it was never open, its own mark ends it, a
call does, or the token that closes it.  What was handed on in the end is the decoded text so
split (`Splits`), with what a stop sequence cut off left over.
-/
import Llmxabe.Server.Generation

/-- What a span says as reasoning. -/
def TextChunk.reasoningText : TextChunk → List Char
  | reasoning t => t
  | text _ => []

/-- What a span says as answer. -/
def TextChunk.answerText : TextChunk → List Char
  | reasoning _ => []
  | text t => t

namespace Generation

/-! ### Spans -/

/-- The reasoning among the spans. -/
def reasoningOf (spans : List TextChunk) : List Char := spans.flatMap TextChunk.reasoningText

/-- The answer among the spans. -/
def answerOf (spans : List TextChunk) : List Char := spans.flatMap TextChunk.answerText

theorem reasoningOf_append (spans spans' : List TextChunk) :
    reasoningOf (spans ++ spans') = reasoningOf spans ++ reasoningOf spans' := List.flatMap_append

theorem answerOf_append (spans spans' : List TextChunk) :
    answerOf (spans ++ spans') = answerOf spans ++ answerOf spans' := List.flatMap_append

/-- A span without the whitespace that opens it. -/
def trimmed (trim : Bool) (raw : List Char) : List Char :=
  if trim then CallBlock.trimStart raw else raw

/-- Whether everything so far would be dropped at the start of a span. -/
def blankSoFar (trim : Bool) (raw : List Char) : Bool := trim && (CallBlock.trimStart raw).isEmpty

theorem trimmed_append (trim : Bool) (raw text : List Char) :
    trimmed trim (raw ++ text) = trimmed trim raw ++ trimmed (blankSoFar trim raw) text := by
  cases trim with
  | false => rfl
  | true =>
    unfold trimmed blankSoFar
    rw [if_pos rfl, if_pos rfl, ToolCallParser.trimStart_append, Bool.true_and]
    by_cases hraw : CallBlock.trimStart raw = []
    · rw [if_pos hraw, hraw]
      rfl
    · rw [if_neg hraw, if_neg]
      rwa [List.isEmpty_iff]

theorem blankSoFar_append (trim : Bool) (raw text : List Char) :
    blankSoFar trim (raw ++ text) = blankSoFar (blankSoFar trim raw) text := by
  unfold blankSoFar
  rw [ToolCallParser.trimStart_append_isEmpty, Bool.and_assoc]

theorem blankSoFar_nil (trim : Bool) : blankSoFar trim [] = trim := by
  cases trim <;> rfl

theorem trimmed_nil (trim : Bool) : trimmed trim [] = [] := by
  cases trim <;> rfl

theorem trimmed_suffix (trim : Bool) (raw : List Char) : trimmed trim raw <:+ raw := by
  cases trim with
  | false => exact List.suffix_rfl
  | true => exact List.dropWhile_suffix _

variable {g : Generation}

section Chunk

variable (g : Generation) (text : List Char)

theorem chunk_fst : (g.chunk text).1 =
    { g with trimSpanStart := blankSoFar g.trimSpanStart text } := by
  obtain ⟨_, _, _, _, _, _, trimSpanStart, _, _, _, _, _, _, _⟩ := g
  unfold chunk blankSoFar
  cases trimSpanStart with
  | false => by_cases htext : text = [] <;> simp [htext]
  | true => by_cases htext : CallBlock.trimStart text = [] <;> simp [htext]

@[simp] theorem detokenizer_chunk : (g.chunk text).1.detokenizer = g.detokenizer := by
  rw [chunk_fst]

@[simp] theorem stop_chunk : (g.chunk text).1.stop = g.stop := by rw [chunk_fst]

@[simp] theorem pending_chunk : (g.chunk text).1.pending = g.pending := by rw [chunk_fst]

@[simp] theorem thinkClose_chunk : (g.chunk text).1.thinkClose = g.thinkClose := by
  rw [chunk_fst]

@[simp] theorem reasoningOpen_chunk : (g.chunk text).1.reasoningOpen = g.reasoningOpen := by
  rw [chunk_fst]

@[simp] theorem trimSpans_chunk : (g.chunk text).1.trimSpans = g.trimSpans := by rw [chunk_fst]

@[simp] theorem finish_chunk : (g.chunk text).1.finish = g.finish := by rw [chunk_fst]

@[simp] theorem drained_chunk : (g.chunk text).1.drained = g.drained := by rw [chunk_fst]

theorem reasoningOf_chunk : reasoningOf (g.chunk text).2.toList =
    if g.reasoningOpen then trimmed g.trimSpanStart text else [] := by
  unfold chunk
  show reasoningOf (if trimmed g.trimSpanStart text = [] then (g, none) else _).2.toList = _
  by_cases htext : trimmed g.trimSpanStart text = []
  · rw [if_pos htext, htext, ite_self]
    rfl
  · rw [if_neg htext]
    cases g.reasoningOpen with
    | false => rfl
    | true => exact List.append_nil _

theorem answerOf_chunk : answerOf (g.chunk text).2.toList =
    if g.reasoningOpen then [] else trimmed g.trimSpanStart text := by
  unfold chunk
  show answerOf (if trimmed g.trimSpanStart text = [] then (g, none) else _).2.toList = _
  by_cases htext : trimmed g.trimSpanStart text = []
  · rw [if_pos htext, htext, ite_self]
    rfl
  · rw [if_neg htext]
    cases g.reasoningOpen with
    | false => exact List.append_nil _
    | true => rfl

end Chunk

/-! ### The text so far -/

/-- The text `u` is the reasoning `R`, the mark that closed it, the answer `T` and the rest;
`R` and `T` were handed on, but for whitespace at their front. -/
structure Reads (g : Generation) (u : List Char) (spans : List TextChunk) (R mark T rest : List Char)
    (trim : Bool) : Prop where
  text_eq : u = R ++ (mark ++ (T ++ rest))
  reasoning : reasoningOf spans = trimmed g.trimSpans R
  answer : answerOf spans = trimmed trim T
  opened : g.reasoningOpen = true → mark = [] ∧ T = [] ∧ trim = g.trimSpans ∧
    g.trimSpanStart = blankSoFar g.trimSpans R
  closed : g.reasoningOpen = false → g.trimSpanStart = blankSoFar trim T
  marked : mark = [] ∨ mark = thinkEnd ∨ mark = thinkEnd ++ ['\n']
  trims : trim = g.trimSpans ∨ trim = false ∧ callOpen <+: T ++ rest

variable {u R mark T rest text : List Char} {spans : List TextChunk} {trim : Bool}

theorem Reads.congr {q : Generation} (h : Reads g u spans R mark T rest trim)
    (htrim : q.trimSpans = g.trimSpans) (hopen : q.reasoningOpen = g.reasoningOpen)
    (hstart : q.trimSpanStart = g.trimSpanStart) : Reads q u spans R mark T rest trim := by
  refine ⟨h.text_eq, ?_, h.answer, ?_, ?_, h.marked, ?_⟩
  · rw [htrim]
    exact h.reasoning
  · rw [htrim, hopen, hstart]
    exact h.opened
  · rw [hopen, hstart]
    exact h.closed
  · rw [htrim]
    exact h.trims

/-- A piece of reasoning is handed on. -/
theorem Reads.chunk_open (h : Reads g u spans R mark T (text ++ rest) trim)
    (hopen : g.reasoningOpen = true) :
    Reads (g.chunk text).1 u (spans ++ (g.chunk text).2.toList) (R ++ text) mark T rest trim := by
  obtain ⟨rfl, rfl, htrim, hstart⟩ := h.opened hopen
  have htext := h.text_eq
  rw [List.nil_append, List.nil_append] at htext
  refine ⟨?_, ?_, ?_, ?_, ?_, Or.inl rfl, ?_⟩
  · rw [htext, List.nil_append, List.nil_append, List.append_assoc]
  · rw [reasoningOf_append, h.reasoning, reasoningOf_chunk, if_pos hopen, chunk_fst, hstart,
      ← trimmed_append]
  · rw [answerOf_append, h.answer, answerOf_chunk, if_pos hopen, List.append_nil]
  · rw [chunk_fst]
    intro _
    exact ⟨rfl, rfl, htrim, by rw [hstart, ← blankSoFar_append]⟩
  · rw [chunk_fst]
    intro hclosed
    rw [hopen] at hclosed
    cases hclosed
  · rw [chunk_fst]
    exact Or.inl htrim

/-- A piece of the answer is handed on. -/
theorem Reads.chunk_closed (h : Reads g u spans R mark T (text ++ rest) trim)
    (hclosed : g.reasoningOpen = false) :
    Reads (g.chunk text).1 u (spans ++ (g.chunk text).2.toList) R mark (T ++ text) rest trim := by
  have hstart := h.closed hclosed
  have hanswer : ¬g.reasoningOpen = true := by
    rw [hclosed]
    exact Bool.false_ne_true
  refine ⟨?_, ?_, ?_, ?_, ?_, h.marked, ?_⟩
  · rw [h.text_eq, List.append_assoc T]
  · rw [reasoningOf_append, h.reasoning, reasoningOf_chunk, if_neg hanswer, List.append_nil,
      chunk_fst]
  · rw [answerOf_append, h.answer, answerOf_chunk, if_neg hanswer, hstart, ← trimmed_append]
  · rw [chunk_fst]
    intro hopen
    exact absurd hopen hanswer
  · rw [chunk_fst]
    intro _
    rw [hstart, ← blankSoFar_append]
  · rw [chunk_fst, List.append_assoc]
    exact h.trims

/-- The reasoning is closed behind `text`. -/
theorem Reads.close {closer pending : List Char} {again : Bool}
    (h : Reads g u spans R mark T (text ++ (closer ++ pending)) trim)
    (hopen : g.reasoningOpen = true)
    (hcloser : closer = [] ∨ closer = thinkEnd ∨ closer = thinkEnd ++ ['\n'])
    (hagain : again = g.trimSpans ∨ again = false ∧ callOpen <+: pending) :
    Reads (g.closeReasoning text pending again).1 u
      (spans ++ (g.closeReasoning text pending again).2.toList) (R ++ text) closer [] pending
      again := by
  have hpending : Reads { g with pending := pending } u spans R mark T
      (text ++ (closer ++ pending)) trim := h.congr rfl rfl rfl
  have hchunk := hpending.chunk_open hopen
  obtain ⟨rfl, rfl, -, -⟩ := h.opened hopen
  unfold closeReasoning
  dsimp only
  refine ⟨?_, ?_, ?_, ?_, ?_, hcloser, ?_⟩
  · have htext := hchunk.text_eq
    rwa [List.nil_append, List.nil_append] at htext
  · exact hchunk.reasoning
  · have hanswer := hchunk.answer
    rwa [trimmed_nil] at hanswer ⊢
  · intro hagain
    cases hagain
  · intro _
    exact (blankSoFar_nil again).symm
  · rw [chunk_fst]
    exact hagain

/-! ### Scanning -/

/-- What ends the reasoning: its own mark, or a tool call. -/
def thinkMarks : List (List Char) := [thinkEnd, callOpen]

theorem thinkEnd_marks : [thinkEnd] ⊆ thinkMarks := by simp [thinkMarks]

theorem callOpen_marks : [callOpen] ⊆ thinkMarks := by simp [thinkMarks]

/-- A generation that began as `first` and goes on. -/
structure Runs (first g : Generation) (u : List Char) (spans : List TextChunk) (R mark T : List Char)
    (trim : Bool) : Prop where
  reads : Reads g u spans R mark T g.pending trim
  stop_eq : g.stop = first.stop
  thinkClose_eq : g.thinkClose = first.thinkClose
  trimSpans_eq : g.trimSpans = first.trimSpans
  running : g.drained = false
  plain : first.reasoningOpen = false → g.reasoningOpen = false ∧ R = [] ∧ mark = []
  thinks : g.reasoningOpen = true → Markers.Clear thinkMarks R g.pending
  thought : g.reasoningOpen = false → ∀ k, ¬Markers.Occurs [thinkEnd] R k
  answers : g.reasoningOpen = false → Markers.Clear first.stop T g.pending

/-- A generation that met a stop sequence, with what it left out. -/
structure Stops (first g : Generation) (u : List Char) (spans : List TextChunk)
    (R mark T left sequence : List Char) (trim : Bool) : Prop where
  reads : Reads g u spans R mark T left trim
  trimSpans_eq : g.trimSpans = first.trimSpans
  drained : g.drained = true
  not_plain : g.reasoningOpen = true → first.reasoningOpen = true
  thinks : g.reasoningOpen = true → ∀ k, ¬Markers.Occurs thinkMarks R k
  thought : ∀ k, ¬Markers.Occurs [thinkEnd] R k
  answers : ∀ k, ¬Markers.Occurs first.stop T k
  mem : sequence ∈ first.stop
  left_eq : sequence <+: left
  finish_eq : g.finish = some (.stopSequence (String.ofList sequence))

variable {first : Generation}

theorem Runs.not_plain (h : Runs first g u spans R mark T trim) (hopen : g.reasoningOpen = true) :
    first.reasoningOpen = true := by
  rcases Bool.eq_false_or_eq_true first.reasoningOpen with hfirst | hfirst
  · exact hfirst
  · rw [(h.plain hfirst).1] at hopen
    cases hopen

theorem not_occurs_of_find {w t : List Char} (hne : t ≠ []) (h : Markers.find w t = none) (k : ℕ) :
    ¬Markers.Occurs [t] w k := by
  rintro ⟨t', ht', hne', hpre⟩
  rw [List.mem_singleton.mp ht'] at hpre
  obtain ⟨i, -, hfind⟩ := Markers.find_isSome hne hpre
  rw [h] at hfind
  cases hfind

theorem not_occurs_before {w t : List Char} {i : ℕ} (h : Markers.find w t = some i) :
    ∀ k < i, ¬Markers.Occurs [t] w k := by
  rintro k hk ⟨t', ht', hne', hpre⟩
  rw [List.mem_singleton.mp ht'] at hpre
  exact (Markers.find_eq_some_iff.mp h).2.2 k hk hpre

/-- Neither mark is found. -/
theorem not_occurs_marks {w : List Char} (hend : Markers.find w thinkEnd = none)
    (hcall : Markers.find w callOpen = none) (k : ℕ) : ¬Markers.Occurs thinkMarks w k := by
  rintro ⟨t, ht, hne, hpre⟩
  rcases List.mem_cons.mp ht with rfl | ht
  · exact not_occurs_of_find hne hend k ⟨_, List.mem_singleton_self _, hne, hpre⟩
  · rw [List.mem_singleton.mp ht] at hne hpre
    exact not_occurs_of_find hne hcall k ⟨_, List.mem_singleton_self _, hne, hpre⟩

theorem heldLen_le (g : Generation) : g.heldLen ≤ g.pending.length := by
  unfold heldLen
  split
  · exact max_le Markers.heldBack_le_length Markers.heldBack_le_length
  · exact Markers.heldBack_le_length

theorem thinkEnd_ne_nil : thinkEnd ≠ [] := by decide

/-- A stop sequence is met in what is pending. -/
theorem Runs.stop {i : ℕ} {sequence : List Char} (h : Runs first g u spans R mark T trim)
    (hthinks : g.reasoningOpen = true → ∀ k, ¬Markers.Occurs thinkMarks g.pending k)
    (hfirst : Markers.firstOf g.stop g.pending = some (i, sequence)) {q : Generation}
    (hq : q = { g with
      pending := []
      armed := false
      drained := true
      finish := some (.stopSequence (String.ofList sequence)) }) :
    ∃ R' T' left, (g.reasoningOpen = false → R' = R) ∧
      Stops first (q.chunk (g.pending.take i)).1 u
        (spans ++ (q.chunk (g.pending.take i)).2.toList) R' mark T' left sequence trim := by
  -- where the sequence stands, with no sequence in front of it
  obtain ⟨hmem, hne, hpre, hleast⟩ := Markers.firstOf_spec hfirst
  rw [h.stop_eq] at hmem hleast
  have hsplit := h.reads
  rw [← List.take_append_drop i g.pending] at hsplit
  have hreads : Reads q u spans R mark T (g.pending.take i ++ g.pending.drop i) trim := by
    rw [hq]
    exact hsplit.congr rfl rfl rfl
  have htrims : (q.chunk (g.pending.take i)).1.trimSpans = first.trimSpans := by
    rw [trimSpans_chunk, hq]
    exact h.trimSpans_eq
  have hdrained : (q.chunk (g.pending.take i)).1.drained = true := by
    rw [drained_chunk, hq]
  have hfinish : (q.chunk (g.pending.take i)).1.finish =
      some (.stopSequence (String.ofList sequence)) := by
    rw [finish_chunk, hq]
  have hopens : (q.chunk (g.pending.take i)).1.reasoningOpen = g.reasoningOpen := by
    rw [reasoningOpen_chunk, hq]
  rcases Bool.eq_false_or_eq_true g.reasoningOpen with hopen | hopen
  -- in the reasoning: what stands before the sequence is reasoning still
  · obtain ⟨rfl, rfl, -, -⟩ := h.reads.opened hopen
    have hopen' : q.reasoningOpen = true := by
      rw [hq]
      exact hopen
    have hclear : ∀ k, ¬Markers.Occurs thinkMarks (R ++ g.pending.take i) k := fun k =>
      (h.thinks hopen).cut fun m _ => hthinks hopen m
    refine ⟨R ++ g.pending.take i, [], g.pending.drop i, ?_, hreads.chunk_open hopen', htrims,
      hdrained, fun _ => h.not_plain hopen, fun _ => hclear,
      fun k hoccurs => hclear k (hoccurs.mono thinkEnd_marks), Markers.not_occurs_nil, hmem, hpre,
      hfinish⟩
    intro hclosed
    rw [hopen] at hclosed
    cases hclosed
  -- behind it: what stands before the sequence is answer
  · have hclosed : q.reasoningOpen = false := by
      rw [hq]
      exact hopen
    have hnot : ¬(q.chunk (g.pending.take i)).1.reasoningOpen = true := by
      rw [hopens, hopen]
      exact Bool.false_ne_true
    exact ⟨R, T ++ g.pending.take i, g.pending.drop i, fun _ => rfl, hreads.chunk_closed hclosed,
      htrims, hdrained, fun hopen' => absurd hopen' hnot, fun hopen' => absurd hopen' hnot,
      h.thought hopen, fun k => (h.answers hopen).cut hleast, hmem, hpre, hfinish⟩

/-- No stop sequence is met, and what cannot begin one is handed on. -/
theorem Runs.emit (h : Runs first g u spans R mark T trim)
    (hthinks : g.reasoningOpen = true → ∀ k, ¬Markers.Occurs thinkMarks g.pending k)
    (hfirst : Markers.firstOf g.stop g.pending = none) {q : Generation} {emit : ℕ}
    (hemit : emit = g.pending.length - g.heldLen)
    (hq : q = { g with pending := g.pending.drop emit }) :
    ∃ R' T', (g.reasoningOpen = false → R' = R) ∧ Runs first (q.chunk (g.pending.take emit)).1 u
      (spans ++ (q.chunk (g.pending.take emit)).2.toList) R' mark T' trim := by
  have hquiet := Markers.firstOf_eq_none_iff.mp hfirst
  -- only what may begin a mark or a sequence is held back
  have hlen : (g.pending.drop emit).length = g.heldLen := by
    have hle := g.heldLen_le
    rw [List.length_drop]
    omega
  have hsplit := h.reads
  rw [← List.take_append_drop emit g.pending] at hsplit
  have hreads : Reads q u spans R mark T (g.pending.take emit ++ g.pending.drop emit) trim := by
    rw [hq]
    exact hsplit.congr rfl rfl rfl
  have hopens : (q.chunk (g.pending.take emit)).1.reasoningOpen = g.reasoningOpen := by
    rw [reasoningOpen_chunk, hq]
  have hpending : (q.chunk (g.pending.take emit)).1.pending = g.pending.drop emit := by
    rw [pending_chunk, hq]
  have hstop : (q.chunk (g.pending.take emit)).1.stop = first.stop := by
    rw [stop_chunk, hq]
    exact h.stop_eq
  have hclose : (q.chunk (g.pending.take emit)).1.thinkClose = first.thinkClose := by
    rw [thinkClose_chunk, hq]
    exact h.thinkClose_eq
  have htrims : (q.chunk (g.pending.take emit)).1.trimSpans = first.trimSpans := by
    rw [trimSpans_chunk, hq]
    exact h.trimSpans_eq
  have hrunning : (q.chunk (g.pending.take emit)).1.drained = false := by
    rw [drained_chunk, hq]
    exact h.running
  rcases Bool.eq_false_or_eq_true g.reasoningOpen with hopen | hopen
  -- in the reasoning the text released is reasoning
  · have hopen' : q.reasoningOpen = true := by
      rw [hq]
      exact hopen
    refine ⟨R ++ g.pending.take emit, T, ?_, ?_, hstop, hclose, htrims, hrunning, ?_, ?_, ?_, ?_⟩
    · intro hclosed
      rw [hopen] at hclosed
      cases hclosed
    · rw [hpending]
      exact hreads.chunk_open hopen'
    · intro hplain
      rw [(h.plain hplain).1] at hopen
      cases hopen
    · -- what is held back begins neither mark
      intro _
      rw [hpending]
      have hclear := h.thinks hopen
      rw [← List.take_append_drop emit g.pending] at hclear
      refine hclear.release ?_ ?_
      · rw [List.take_append_drop]
        exact fun k _ => hthinks hopen k
      · rw [List.take_append_drop, hlen, heldLen, if_pos hopen]
        exact le_max_right _ _
    · intro hclosed
      rw [hopens, hopen] at hclosed
      cases hclosed
    · intro hclosed
      rw [hopens, hopen] at hclosed
      cases hclosed
  -- behind it the text released is answer
  · have hclosed : q.reasoningOpen = false := by
      rw [hq]
      exact hopen
    refine ⟨R, T ++ g.pending.take emit, fun _ => rfl, ?_, hstop, hclose, htrims, hrunning, ?_, ?_,
      ?_, ?_⟩
    · rw [hpending]
      exact hreads.chunk_closed hclosed
    · rw [hopens]
      exact h.plain
    · intro hopen'
      rw [hopens, hopen] at hopen'
      cases hopen'
    · exact fun _ => h.thought hopen
    · intro _
      rw [hpending]
      have hclear := h.answers hopen
      rw [← List.take_append_drop emit g.pending] at hclear
      refine hclear.release ?_ ?_
      · rw [List.take_append_drop, ← h.stop_eq]
        exact fun k _ => hquiet k
      · rw [List.take_append_drop, hlen, ← h.stop_eq, heldLen, hopen,
          if_neg Bool.false_ne_true]

/-- Scanning for stop sequences, where no mark ends the reasoning. -/
theorem Runs.stopOrEmit (h : Runs first g u spans R mark T trim)
    (hthinks : g.reasoningOpen = true → ∀ k, ¬Markers.Occurs thinkMarks g.pending k) :
    (∃ R' T', (g.reasoningOpen = false → R' = R) ∧
        Runs first g.stopOrEmit.1 u (spans ++ g.stopOrEmit.2.toList) R' mark T' trim ∧
        (∀ k, ¬Markers.Occurs first.stop g.stopOrEmit.1.pending k) ∧
        (g.reasoningOpen = true → ∀ k, ¬Markers.Occurs thinkMarks g.stopOrEmit.1.pending k)) ∨
      ∃ R' T' left sequence, (g.reasoningOpen = false → R' = R) ∧
        Stops first g.stopOrEmit.1 u (spans ++ g.stopOrEmit.2.toList)
          R' mark T' left sequence trim := by
  unfold Generation.stopOrEmit
  split
  case h_1 i sequence hfirst =>
    obtain ⟨R', T', left, hsame, hstops⟩ := h.stop hthinks hfirst rfl
    exact Or.inr ⟨R', T', left, sequence, hsame, hstops⟩
  case h_2 hfirst =>
    obtain ⟨R', T', hsame, hruns⟩ := h.emit hthinks hfirst rfl rfl
    refine Or.inl ⟨R', T', hsame, hruns, fun k hoccurs => ?_, fun hopen k hoccurs => ?_⟩
    · rw [pending_chunk, Markers.occurs_drop, ← h.stop_eq] at hoccurs
      exact Markers.firstOf_eq_none_iff.mp hfirst _ hoccurs
    · rw [pending_chunk, Markers.occurs_drop] at hoccurs
      exact hthinks hopen _ hoccurs

section Close

variable (g : Generation) (before after : List Char) (again : Bool)

@[simp] theorem stop_closeReasoning : (g.closeReasoning before after again).1.stop = g.stop :=
  stop_chunk _ _

@[simp] theorem pending_closeReasoning :
    (g.closeReasoning before after again).1.pending = after := pending_chunk _ _

@[simp] theorem thinkClose_closeReasoning :
    (g.closeReasoning before after again).1.thinkClose = g.thinkClose := thinkClose_chunk _ _

@[simp] theorem trimSpans_closeReasoning :
    (g.closeReasoning before after again).1.trimSpans = g.trimSpans := trimSpans_chunk _ _

@[simp] theorem drained_closeReasoning :
    (g.closeReasoning before after again).1.drained = g.drained := drained_chunk _ _

@[simp] theorem detokenizer_closeReasoning :
    (g.closeReasoning before after again).1.detokenizer = g.detokenizer := detokenizer_chunk _ _

end Close

theorem Runs.close {text after : List Char} {again : Bool}
    (h : Runs first g u spans R mark T trim) (closer : List Char) (hopen : g.reasoningOpen = true)
    (hsplit : g.pending = text ++ (closer ++ after))
    (hthought : ∀ k, ¬Markers.Occurs [thinkEnd] (R ++ text) k)
    (hcloser : closer = [] ∨ closer = thinkEnd ∨ closer = thinkEnd ++ ['\n'])
    (hagain : again = g.trimSpans ∨ again = false ∧ callOpen <+: after) :
    Runs first (g.closeReasoning text after again).1 u
      (spans ++ (g.closeReasoning text after again).2.toList) (R ++ text) closer [] again := by
  have hreads := h.reads
  rw [hsplit] at hreads
  refine ⟨?_, ?_, ?_, ?_, ?_, ?_, ?_, fun _ => hthought, fun _ => Markers.Clear.nil⟩
  · rw [pending_closeReasoning]
    exact hreads.close hopen hcloser hagain
  · rw [stop_closeReasoning]
    exact h.stop_eq
  · rw [thinkClose_closeReasoning]
    exact h.thinkClose_eq
  · rw [trimSpans_closeReasoning]
    exact h.trimSpans_eq
  · rw [drained_closeReasoning]
    exact h.running
  · intro hplain
    rw [(h.plain hplain).1] at hopen
    cases hopen
  · intro hopen'
    cases hopen'

theorem strip_newline (rest : List Char) : ∃ closer, (closer = [] ∨ closer = ['\n']) ∧
    rest = closer ++ (CallBlock.strip ['\n'] rest).getD rest := by
  unfold CallBlock.strip
  split
  case isTrue hpre =>
    obtain ⟨after, rfl⟩ := hpre
    exact ⟨['\n'], Or.inr rfl, rfl⟩
  case isFalse => exact ⟨[], Or.inl rfl, rfl⟩

theorem reasoningOpen_stopOrEmit (g : Generation) :
    g.stopOrEmit.1.reasoningOpen = g.reasoningOpen := by
  unfold Generation.stopOrEmit
  split
  · exact reasoningOpen_chunk _ _
  · exact reasoningOpen_chunk _ _

theorem detokenizer_stopOrEmit (g : Generation) : g.stopOrEmit.1.detokenizer = g.detokenizer := by
  unfold Generation.stopOrEmit
  split
  · exact detokenizer_chunk _ _
  · exact detokenizer_chunk _ _

theorem detokenizer_scan (g : Generation) : g.scan.1.detokenizer = g.detokenizer := by
  unfold Generation.scan
  split
  · split
    · exact detokenizer_closeReasoning _ _ _ _
    · split
      · exact detokenizer_closeReasoning _ _ _ _
      · exact detokenizer_stopOrEmit _
  · exact detokenizer_stopOrEmit _

/-- What is pending holds no stop sequence, nor a mark that would end the reasoning. -/
def Quiet (first g : Generation) : Prop :=
  (first.reasoningOpen = false → ∀ k, ¬Markers.Occurs first.stop g.pending k) ∧
    (g.reasoningOpen = true → ∀ k, ¬Markers.Occurs thinkMarks g.pending k)

theorem quiet_close {text after : List Char} {again : Bool} (hfirst : first.reasoningOpen = true) :
    Quiet first (g.closeReasoning text after again).1 := by
  refine ⟨fun hplain => ?_, fun hopen => ?_⟩
  · rw [hfirst] at hplain
    cases hplain
  · cases hopen

/-- What scanning does to the reasoning: nothing if it has ended, and otherwise it goes on
or one of the marks ends it in front of `rest`. -/
inductive Scanned (g q : Generation) (R mark : List Char) : (R' mark' rest : List Char) → Prop
  | kept {rest : List Char} : g.reasoningOpen = false → q.reasoningOpen = false →
      Scanned g q R mark R mark rest
  | goes {R' mark' rest : List Char} : g.reasoningOpen = true → q.reasoningOpen = true →
      Scanned g q R mark R' mark' rest
  | marked {R' mark' rest : List Char} : g.reasoningOpen = true → q.reasoningOpen = false →
      mark' = thinkEnd ∨ mark' = thinkEnd ++ ['\n'] → Scanned g q R mark R' mark' rest
  | called {R' rest : List Char} : g.reasoningOpen = true → q.reasoningOpen = false →
      callOpen <+: rest → (∀ k, ¬Markers.Occurs [callOpen] R' k) → Scanned g q R mark R' [] rest

/-- Looking for stop sequences leaves the reasoning as it is, or goes on with it. -/
theorem Scanned.of_same {q : Generation} {R' rest : List Char}
    (hopens : q.reasoningOpen = g.reasoningOpen) (hsame : g.reasoningOpen = false → R' = R) :
    Scanned g q R mark R' mark rest := by
  rcases Bool.eq_false_or_eq_true g.reasoningOpen with hopen | hopen
  · exact .goes hopen (hopens.trans hopen)
  · rw [hsame hopen]
    exact .kept hopen (hopens.trans hopen)

/-- What is pending is scanned. -/
theorem Runs.scan (h : Runs first g u spans R mark T trim) :
    (∃ R' mark' T' trim', Scanned g g.scan.1 R mark R' mark' (T' ++ g.scan.1.pending) ∧
        Runs first g.scan.1 u (spans ++ g.scan.2.toList) R' mark' T' trim' ∧
        Quiet first g.scan.1) ∨
      ∃ R' mark' T' left sequence trim', Scanned g g.scan.1 R mark R' mark' (T' ++ left) ∧
        Stops first g.scan.1 u (spans ++ g.scan.2.toList) R' mark' T' left sequence trim' := by
  rcases Bool.eq_false_or_eq_true g.reasoningOpen with hopen | hopen
  · have hfirst := h.not_plain hopen
    unfold Generation.scan
    rw [if_pos hopen]
    rcases hend : Markers.find g.pending thinkEnd with _ | i
    · rcases hcall : Markers.find g.pending callOpen with _ | i
      -- neither mark stands in what is pending, and the stop sequences decide
      · dsimp only
        have hopens := reasoningOpen_stopOrEmit g
        rcases h.stopOrEmit fun _ => not_occurs_marks hend hcall with
          ⟨R', T', hsame, hruns, hstop, hmark⟩ | ⟨R', T', left, sequence, hsame, hstops⟩
        · exact Or.inl ⟨R', mark, T', trim, .of_same hopens hsame, hruns, fun _ => hstop,
            fun _ => hmark hopen⟩
        · exact Or.inr ⟨R', mark, T', left, sequence, trim, .of_same hopens hsame, hstops⟩
      · -- a call ends the reasoning
        dsimp only
        obtain ⟨-, hpre, -⟩ := Markers.find_eq_some_iff.mp hcall
        have hthought : ∀ k, ¬Markers.Occurs [thinkEnd] (R ++ g.pending.take i) k := fun k =>
          ((h.thinks hopen).mono thinkEnd_marks).cut fun m _ =>
            not_occurs_of_find thinkEnd_ne_nil hend m
        have hcalled : ∀ k, ¬Markers.Occurs [callOpen] (R ++ g.pending.take i) k := fun k =>
          ((h.thinks hopen).mono callOpen_marks).cut (not_occurs_before hcall)
        have hclose := h.close [] hopen (List.take_append_drop i g.pending).symm hthought
          (Or.inl rfl) (Or.inr ⟨rfl, hpre⟩)
        refine Or.inl ⟨_, _, _, _, .called hopen rfl ?_ hcalled, hclose, quiet_close hfirst⟩
        rwa [pending_closeReasoning]
    · -- its own mark ends it
      dsimp only
      obtain ⟨-, hpre, -⟩ := Markers.find_eq_some_iff.mp hend
      obtain ⟨closer, hcloser, hrest⟩ := strip_newline (g.pending.drop (i + thinkEnd.length))
      have hthought : ∀ k, ¬Markers.Occurs [thinkEnd] (R ++ g.pending.take i) k := fun k =>
        ((h.thinks hopen).mono thinkEnd_marks).cut (not_occurs_before hend)
      have hsplit : g.pending = g.pending.take i ++ ((thinkEnd ++ closer) ++
          (CallBlock.strip ['\n'] (g.pending.drop (i + thinkEnd.length))).getD
            (g.pending.drop (i + thinkEnd.length))) := by
        rw [List.append_assoc, ← hrest, ToolCallParser.take_tag_drop hpre]
      have hmark : thinkEnd ++ closer = thinkEnd ∨ thinkEnd ++ closer = thinkEnd ++ ['\n'] := by
        rcases hcloser with rfl | rfl
        · exact Or.inl (List.append_nil _)
        · exact Or.inr rfl
      have hclose := h.close (thinkEnd ++ closer) hopen hsplit hthought (Or.inr hmark) (Or.inl rfl)
      exact Or.inl ⟨_, _, _, _, .marked hopen rfl hmark, hclose, quiet_close hfirst⟩
  -- the reasoning is over, and the stop sequences decide alone
  · have hthinks : g.reasoningOpen = true → ∀ k, ¬Markers.Occurs thinkMarks g.pending k := by
      intro hopen'
      rw [hopen] at hopen'
      cases hopen'
    have hscan : g.scan = g.stopOrEmit := by
      unfold Generation.scan
      rw [if_neg (by rw [hopen]; exact Bool.false_ne_true)]
    have hopens := reasoningOpen_stopOrEmit g
    rw [hscan]
    rcases h.stopOrEmit hthinks with
      ⟨R', T', hsame, hruns, hstop, -⟩ | ⟨R', T', left, sequence, hsame, hstops⟩
    · refine Or.inl ⟨R', mark, T', trim, .of_same hopens hsame, hruns, fun _ => hstop,
        fun hopen' => ?_⟩
      rw [hopens, hopen] at hopen'
      cases hopen'
    · exact Or.inr ⟨R', mark, T', left, sequence, trim, .of_same hopens hsame, hstops⟩

/-! ### Events -/

section Events

variable {piece : ℕ → List UInt8} {ts : List ℕ}

/-- How the reasoning `R` of the tokens `ts` ended in front of `rest`, where the text is that
of the tokens `fed`: there was none, a mark ended it, a call, or a token that is not decoded. -/
inductive Closing (piece : ℕ → List UInt8) (opened : Bool) (thinkClose : Option ℕ) (ts : List ℕ) :
    (fed : List ℕ) → (R mark rest : List Char) → Prop
  | plain {rest : List Char} : opened = false → Closing piece opened thinkClose ts ts [] [] rest
  | marked {R mark rest : List Char} : opened = true →
      mark = thinkEnd ∨ mark = thinkEnd ++ ['\n'] → Closing piece opened thinkClose ts ts R mark rest
  | called {R rest : List Char} : opened = true → callOpen <+: rest →
      (∀ k, ¬Markers.Occurs [callOpen] R k) → Closing piece opened thinkClose ts ts R [] rest
  | token {before after : List ℕ} {close : ℕ} {R rest : List Char} : opened = true →
      thinkClose = some close → ts = before ++ close :: after →
      R = Detokenizer.delivered piece before → (∀ k, ¬Markers.Occurs [callOpen] R k) →
      Closing piece opened thinkClose ts (before ++ after) R [] rest

/-- The tokens `ts` were received, and the text `u` was decoded from them; `rest` stands behind
the reasoning once that has ended. -/
def Decodes (piece : ℕ → List UInt8) (first g : Generation) (ts : List ℕ)
    (u R mark rest : List Char) : Prop :=
  ∃ fed, Detokenizer.new.pushAll piece fed = (u, g.detokenizer) ∧
    (g.reasoningOpen = true ∧ fed = ts ∨ g.reasoningOpen = false ∧
      Closing piece first.reasoningOpen first.thinkClose ts fed R mark rest)

/-- The generation goes on. -/
def Goes (piece : ℕ → List UInt8) (first g : Generation) (ts : List ℕ) (spans : List TextChunk) : Prop :=
  ∃ u R mark T trim, Runs first g u spans R mark T trim ∧
    Decodes piece first g ts u R mark (T ++ g.pending) ∧ Quiet first g

/-- The generation has met a stop sequence. -/
def Stopped (piece : ℕ → List UInt8) (first g : Generation) (ts : List ℕ) (spans : List TextChunk) :
    Prop :=
  ∃ u R mark T left sequence trim, Stops first g u spans R mark T left sequence trim ∧
    Decodes piece first g ts u R mark (T ++ left)

theorem pushAll_concat (d : Detokenizer) (fed : List ℕ) (token : ℕ) :
    d.pushAll piece (fed ++ [token]) =
      ((d.pushAll piece fed).1 ++ ((d.pushAll piece fed).2.push piece token).1,
        ((d.pushAll piece fed).2.push piece token).2) := by
  induction fed generalizing d with
  | nil => simp [Detokenizer.pushAll]
  | cons first fed ih =>
    rw [List.cons_append, Detokenizer.pushAll, Detokenizer.pushAll, ih]
    dsimp only
    rw [List.append_assoc]

theorem Closing.more {opened : Bool} {thinkClose : Option ℕ} {fed : List ℕ}
    (h : Closing piece opened thinkClose ts fed R mark rest) (token : ℕ) (delta : List Char) :
    Closing piece opened thinkClose (ts ++ [token]) (fed ++ [token]) R mark (rest ++ delta) := by
  cases h with
  | plain hopened => exact .plain hopened
  | marked hopened hmark => exact .marked hopened hmark
  | called hopened hcall hnone => exact .called hopened (hcall.trans (List.prefix_append _ _)) hnone
  | @token before after close _ _ hopened hclose hts hR hnone =>
    rw [List.append_assoc]
    refine .token hopened hclose ?_ hR hnone
    rw [hts, List.append_assoc, List.cons_append]

/-- A token is decoded. -/
theorem Decodes.push {q : Generation} (h : Decodes piece first g ts u R mark rest) (token : ℕ)
    (hdetokenizer : q.detokenizer = (g.detokenizer.push piece token).2)
    (hopen : q.reasoningOpen = g.reasoningOpen) :
    Decodes piece first q (ts ++ [token]) (u ++ (g.detokenizer.push piece token).1) R mark
      (rest ++ (g.detokenizer.push piece token).1) := by
  obtain ⟨fed, hpush, hfed⟩ := h
  refine ⟨fed ++ [token], ?_, ?_⟩
  · rw [pushAll_concat, hpush, hdetokenizer]
  · rw [hopen]
    rcases hfed with ⟨hopen, rfl⟩ | ⟨hclosed, hclosing⟩
    · exact Or.inl ⟨hopen, rfl⟩
    · exact Or.inr ⟨hclosed, hclosing.more token _⟩

/-- Scanning decodes nothing, but may end the reasoning. -/
theorem Decodes.scan {q : Generation} {R' mark' rest' : List Char}
    (h : Decodes piece first g ts u R mark rest) (hscanned : Scanned g q R mark R' mark' rest')
    (hdetokenizer : q.detokenizer = g.detokenizer)
    (hfirst : g.reasoningOpen = true → first.reasoningOpen = true)
    (htext : u = R ++ (mark ++ rest)) (htext' : u = R' ++ (mark' ++ rest')) :
    Decodes piece first q ts u R' mark' rest' := by
  obtain ⟨fed, hpush, hfed⟩ := h
  refine ⟨fed, hdetokenizer ▸ hpush, ?_⟩
  have hstill : g.reasoningOpen = true → fed = ts := by
    intro hopen
    rcases hfed with ⟨-, hsame⟩ | ⟨hclosed, -⟩
    · exact hsame
    · rw [hopen] at hclosed
      cases hclosed
  cases hscanned with
  | kept hclosed hclosed' =>
    have hrest : rest = rest' :=
      List.append_cancel_left (List.append_cancel_left (htext.symm.trans htext'))
    rcases hfed with ⟨hopen, -⟩ | ⟨-, hclosing⟩
    · rw [hopen] at hclosed
      cases hclosed
    · exact Or.inr ⟨hclosed', hrest ▸ hclosing⟩
  | goes hopen hopen' => exact Or.inl ⟨hopen', hstill hopen⟩
  | marked hopen hclosed hmark =>
    rw [hstill hopen]
    exact Or.inr ⟨hclosed, .marked (hfirst hopen) hmark⟩
  | called hopen hclosed hcall hnone =>
    rw [hstill hopen]
    exact Or.inr ⟨hclosed, .called (hfirst hopen) hcall hnone⟩

/-- The token that closes the reasoning is received: all the text is reasoning. -/
theorem Decodes.skip {q : Generation} {close : ℕ} (h : Decodes piece first g ts u R mark rest)
    (hfirst : first.reasoningOpen = true) (hopen : g.reasoningOpen = true)
    (hclose : first.thinkClose = some close) (hdetokenizer : q.detokenizer = g.detokenizer)
    (hclosed : q.reasoningOpen = false) (hnone : ∀ k, ¬Markers.Occurs [callOpen] u k)
    (rest' : List Char) : Decodes piece first q (ts ++ [close]) u u [] rest' := by
  obtain ⟨fed, hpush, hfed⟩ := h
  rcases hfed with ⟨-, rfl⟩ | ⟨hclosed', -⟩
  · have htoken : Closing piece first.reasoningOpen first.thinkClose (fed ++ [close]) (fed ++ [])
        u [] rest' := .token hfirst hclose rfl (congrArg Prod.fst hpush).symm hnone
    rw [List.append_nil] at htoken
    exact ⟨fed, hdetokenizer ▸ hpush, Or.inr ⟨hclosed, htoken⟩⟩
  · rw [hopen] at hclosed'
    cases hclosed'

/-- More text is pending. -/
theorem Runs.extend {q : Generation} {delta : List Char} (h : Runs first g u spans R mark T trim)
    (hpending : q.pending = g.pending ++ delta) (hstop : q.stop = g.stop)
    (hclose : q.thinkClose = g.thinkClose) (htrims : q.trimSpans = g.trimSpans)
    (hdrained : q.drained = g.drained) (hopen : q.reasoningOpen = g.reasoningOpen)
    (hstart : q.trimSpanStart = g.trimSpanStart) :
    Runs first q (u ++ delta) spans R mark T trim := by
  refine ⟨?_, hstop.trans h.stop_eq, hclose.trans h.thinkClose_eq, htrims.trans h.trimSpans_eq,
    hdrained.trans h.running, ?_, ?_, ?_, ?_⟩
  · have hreads := h.reads.congr htrims hopen hstart
    refine ⟨?_, hreads.reasoning, hreads.answer, hreads.opened, hreads.closed, hreads.marked, ?_⟩
    · rw [hreads.text_eq, hpending]
      simp only [List.append_assoc]
    · rcases hreads.trims with hsame | ⟨hfalse, hcall⟩
      · exact Or.inl hsame
      · rw [hpending, ← List.append_assoc]
        exact Or.inr ⟨hfalse, hcall.trans (List.prefix_append _ _)⟩
  · rw [hopen]
    exact h.plain
  · rw [hopen, hpending]
    exact fun hthinks => (h.thinks hthinks).extend delta
  · rw [hopen]
    exact h.thought
  · rw [hopen, hpending]
    exact fun hanswers => (h.answers hanswers).extend delta

/-- What one token does. -/
theorem Goes.receive (h : Goes piece first g ts spans) (token : ℕ) :
    ∃ o, (g.receive piece (.token token)).2 = .ok o ∧
      (Goes piece first (g.receive piece (.token token)).1 (ts ++ [token]) (spans ++ o.toList) ∨
        Stopped piece first (g.receive piece (.token token)).1 (ts ++ [token])
          (spans ++ o.toList)) := by
  obtain ⟨u, R, mark, T, trim, hruns, hdecodes, hquiet⟩ := h
  -- a token is counted, which the run does not see
  obtain ⟨q, hq⟩ : ∃ q, q = { g with completionTokens := g.completionTokens + 1 } := ⟨_, rfl⟩
  unfold Generation.receive
  rw [← hq]
  dsimp only
  have hruns' : Runs first q u spans R mark T trim := by
    have hmore : Runs first q (u ++ []) spans R mark T trim := by
      rw [hq]
      exact hruns.extend (List.append_nil _).symm rfl rfl rfl rfl rfl rfl
    rwa [List.append_nil] at hmore
  have hdetokenizer : q.detokenizer = g.detokenizer := by rw [hq]
  have hopen_eq : q.reasoningOpen = g.reasoningOpen := by rw [hq]
  have hpending_eq : q.pending = g.pending := by rw [hq]
  split
  case isTrue hcloses =>
    -- the reasoning is all the text so far, what was pending included
    rw [Bool.and_eq_true, beq_iff_eq] at hcloses
    obtain ⟨hopen, hclose⟩ := hcloses
    obtain ⟨rfl, rfl, -, -⟩ := hruns'.reads.opened hopen
    have hthought : ∀ k, ¬Markers.Occurs thinkMarks (R ++ q.pending) k := by
      intro k
      have hcut := (hruns'.thinks hopen).cut (i := q.pending.length) (k := k) fun m _ => by
        rw [hpending_eq]
        exact hquiet.2 (hopen_eq ▸ hopen) m
      rwa [List.take_length] at hcut
    have htext : u = R ++ q.pending := by
      have htext := hruns'.reads.text_eq
      rwa [List.nil_append, List.nil_append] at htext
    have hsplit : q.pending = q.pending ++ ([] ++ []) := (List.append_nil _).symm
    have hclosed := hruns'.close [] hopen hsplit
      (fun k hoccurs => hthought k (hoccurs.mono thinkEnd_marks)) (Or.inl rfl) (Or.inl rfl)
    have hfirst := hruns'.not_plain hopen
    have hskipped := hdecodes.skip hfirst (hopen_eq ▸ hopen) (hruns'.thinkClose_eq ▸ hclose.symm)
      (q := (q.closeReasoning q.pending [] q.trimSpans).1)
      (by rw [detokenizer_closeReasoning, hdetokenizer]) rfl
      (fun k hoccurs => hthought k (htext ▸ hoccurs.mono callOpen_marks))
      ([] ++ (q.closeReasoning q.pending [] q.trimSpans).1.pending)
    refine ⟨_, rfl, Or.inl ⟨u, _, _, _, _, hclosed, ?_, quiet_close hfirst⟩⟩
    rwa [← htext]
  -- its text is decoded
  case isFalse =>
    obtain ⟨r, hr⟩ : ∃ r, r = { q with detokenizer := (q.detokenizer.push piece token).2 } :=
      ⟨_, rfl⟩
    rw [← hr]
    split
    -- it completes no character: the text stays as it is
    case isTrue hempty =>
      have hsame : Runs first r u spans R mark T trim := by
        have hmore : Runs first r (u ++ []) spans R mark T trim := by
          rw [hr]
          exact hruns'.extend (List.append_nil _).symm rfl rfl rfl rfl rfl rfl
        rwa [List.append_nil] at hmore
      have hpending_eq' : r.pending = g.pending := by rw [hr, hpending_eq]
      refine ⟨none, rfl, Or.inl ⟨u, R, mark, T, trim, ?_, ?_, ?_⟩⟩
      · rwa [Option.toList_none, List.append_nil]
      · have hpushed := hdecodes.push (q := r) token (by rw [hr, hdetokenizer])
          (by rw [hr]; exact hopen_eq)
        rw [← hdetokenizer, hempty, List.append_nil, List.append_nil] at hpushed
        rwa [hpending_eq']
      · rw [hr]
        unfold Quiet
        rw [hpending_eq, hopen_eq]
        exact hquiet
    -- its text joins what is pending, which is scanned
    case isFalse =>
      obtain ⟨v, hv⟩ : ∃ v, v = { q with
          detokenizer := (q.detokenizer.push piece token).2
          pending := q.pending ++ (q.detokenizer.push piece token).1 } := ⟨_, rfl⟩
      rw [← hv]
      have hmore : Runs first v (u ++ (q.detokenizer.push piece token).1) spans R mark T trim := by
        rw [hv]
        exact hruns'.extend rfl rfl rfl rfl rfl rfl rfl
      have hdetokenizer' : v.detokenizer = (g.detokenizer.push piece token).2 := by
        rw [hv, hdetokenizer]
      have hpending' : T ++ v.pending = T ++ g.pending ++ (g.detokenizer.push piece token).1 := by
        rw [hv, hpending_eq, hdetokenizer, List.append_assoc]
      have hopen_eq' : v.reasoningOpen = g.reasoningOpen := by rw [hv, hopen_eq]
      have hpushed : Decodes piece first v (ts ++ [token]) (u ++ (q.detokenizer.push piece token).1)
          R mark (T ++ v.pending) := by
        rw [hpending', hdetokenizer]
        exact hdecodes.push token hdetokenizer' hopen_eq'
      rcases hmore.scan with ⟨R', mark', T', trim', hscanned, hruns'', hquiet'⟩ |
        ⟨R', mark', T', left, sequence, trim', hscanned, hstops⟩
      · have hscan := hpushed.scan hscanned (detokenizer_scan v) hmore.not_plain
          hmore.reads.text_eq hruns''.reads.text_eq
        exact ⟨_, rfl, Or.inl ⟨_, R', mark', T', trim', hruns'', hscan, hquiet'⟩⟩
      · have hscan := hpushed.scan hscanned (detokenizer_scan v) hmore.not_plain
          hmore.reads.text_eq hstops.reads.text_eq
        exact ⟨_, rfl, Or.inr ⟨_, R', mark', T', left, sequence, trim', hstops, hscan⟩⟩

/-! ### Whole generations -/

/-- All that `raw_next` gives until it ends, and the error it ends with. -/
def spansOf (piece : ℕ → List UInt8) (g : Generation) :
    List ClientEvent → (Generation × List TextChunk) × Option String
  | [] => if g.drained then ((g, []), none) else (({ g with drained := true }, []), some channelClosed)
  | event :: events =>
    if g.drained then ((g, []), none)
    else
      match g.receive piece event with
      | (g, .error message) => ((g, []), some message)
      | (g, .ok o) =>
        let rest := g.spansOf piece events
        ((rest.1.1, o.toList ++ rest.1.2), rest.2)

theorem spansOf_drained (hdrained : g.drained = true) (events : List ClientEvent) :
    g.spansOf piece events = ((g, []), none) := by
  cases events with
  | nil =>
    unfold spansOf
    rw [if_pos hdrained]
  | cons event events =>
    unfold spansOf
    rw [if_pos hdrained]

theorem spansOf_cons {event : ClientEvent} {o : Option TextChunk} (hrunning : g.drained = false)
    (hreceive : (g.receive piece event).2 = .ok o) (events : List ClientEvent) :
    g.spansOf piece (event :: events) =
      ((((g.receive piece event).1.spansOf piece events).1.1,
        o.toList ++ ((g.receive piece event).1.spansOf piece events).1.2),
        ((g.receive piece event).1.spansOf piece events).2) := by
  conv_lhs => unfold spansOf
  rw [if_neg (by rw [hrunning]; exact Bool.false_ne_true)]
  have hpair : g.receive piece event = ((g.receive piece event).1, .ok o) :=
    Prod.ext rfl hreceive
  rw [hpair]

theorem spansOf_error {event : ClientEvent} {message : String} (hrunning : g.drained = false)
    (hreceive : (g.receive piece event).2 = .error message) (events : List ClientEvent) :
    g.spansOf piece (event :: events) = (((g.receive piece event).1, []), some message) := by
  conv_lhs => unfold spansOf
  rw [if_neg (by rw [hrunning]; exact Bool.false_ne_true)]
  have hpair : g.receive piece event = ((g.receive piece event).1, .error message) :=
    Prod.ext rfl hreceive
  rw [hpair]

theorem Goes.start {stop : List (List Char)} {thinkClose : Option ℕ} {thinking trimSpans : Bool}
    {parser : Option ToolCallParser} :
    Goes piece (start stop thinkClose thinking trimSpans parser)
      (start stop thinkClose thinking trimSpans parser) [] [] := by
  refine ⟨[], [], [], [], trimSpans, ⟨?_, rfl, rfl, rfl, rfl, ?_, ?_, ?_, ?_⟩,
    ⟨[], rfl, ?_⟩, ?_, ?_⟩
  · refine ⟨rfl, (trimmed_nil _).symm, (trimmed_nil _).symm, ?_, ?_, Or.inl rfl, Or.inl rfl⟩
    · exact fun _ => ⟨rfl, rfl, rfl, (blankSoFar_nil _).symm⟩
    · exact fun _ => (blankSoFar_nil _).symm
  · exact fun hplain => ⟨hplain, rfl, rfl⟩
  · exact fun _ => Markers.Clear.nil
  · exact fun _ => Markers.not_occurs_nil
  · exact fun _ => Markers.Clear.nil
  · rcases Bool.eq_false_or_eq_true
      (Generation.start stop thinkClose thinking trimSpans parser).reasoningOpen with hopen | hopen
    · exact Or.inl ⟨hopen, rfl⟩
    · exact Or.inr ⟨hopen, .plain hopen⟩
  · exact fun _ => Markers.not_occurs_nil
  · exact fun _ => Markers.not_occurs_nil

/-- What some tokens do. -/
theorem Goes.tokens (h : Goes piece first g ts spans) (tokens : List ℕ) (events : List ClientEvent) :
    (∃ q more, Goes piece first q (ts ++ tokens) (spans ++ more) ∧
      g.spansOf piece (tokens.map .token ++ events) =
        (((q.spansOf piece events).1.1, more ++ (q.spansOf piece events).1.2),
          (q.spansOf piece events).2)) ∨
    ∃ q more front, front <+: tokens ∧ Stopped piece first q (ts ++ front) (spans ++ more) ∧
      g.spansOf piece (tokens.map .token ++ events) = ((q, more), none) := by
  induction tokens generalizing g ts spans with
  | nil =>
    refine Or.inl ⟨g, [], ?_, rfl⟩
    rwa [List.append_nil, List.append_nil]
  | cons token tokens ih =>
    have hrunning : g.drained = false := by
      obtain ⟨u, R, mark, T, trim, hruns, -⟩ := h
      exact hruns.running
    obtain ⟨o, hreceive, hgoes | hstopped⟩ := h.receive token
    · rw [List.map_cons, List.cons_append, spansOf_cons hrunning hreceive]
      rcases ih hgoes with ⟨q, more, hgoes', hspans⟩ | ⟨q, more, front, hfront, hstopped, hspans⟩
      · refine Or.inl ⟨q, o.toList ++ more, ?_, ?_⟩
        · rwa [List.append_assoc, List.append_assoc] at hgoes'
        · rw [hspans, List.append_assoc]
      · refine Or.inr ⟨q, o.toList ++ more, token :: front, ?_, ?_, ?_⟩
        · exact (List.cons_prefix_cons).mpr ⟨rfl, hfront⟩
        · rwa [List.append_assoc, List.append_assoc] at hstopped
        · rw [hspans]
    · have hdrained : (g.receive piece (.token token)).1.drained = true := by
        obtain ⟨u, R, mark, T, left, sequence, trim, hstops, -⟩ := hstopped
        exact hstops.drained
      refine Or.inr ⟨_, o.toList, [token], ?_, hstopped, ?_⟩
      · exact ⟨tokens, rfl⟩
      · rw [List.map_cons, List.cons_append, spansOf_cons hrunning hreceive,
          spansOf_drained hdrained, List.append_nil]

/-- The reasoning `R` has ended, or it never did: then no mark stands in it, and there is no
answer. -/
def Ended (piece : ℕ → List UInt8) (opened : Bool) (thinkClose : Option ℕ) (ts fed : List ℕ)
    (R mark T left : List Char) : Prop :=
  Closing piece opened thinkClose ts fed R mark (T ++ left) ∨
    opened = true ∧ fed = ts ∧ mark = [] ∧ T = [] ∧ ∀ k, ¬Markers.Occurs thinkMarks R k

/-- The text of the tokens `ts` is the reasoning `R`, the mark that ended it, the answer `T`,
and what was left out. -/
structure Splits (piece : ℕ → List UInt8) (opened : Bool) (thinkClose : Option ℕ) (ts : List ℕ)
    (R T left : List Char) : Prop where
  text : ∃ fed mark, Detokenizer.delivered piece fed = R ++ (mark ++ (T ++ left)) ∧
    Ended piece opened thinkClose ts fed R mark T left
  thought : ∀ k, ¬Markers.Occurs [thinkEnd] R k

/-- Without reasoning the whole text is the answer. -/
theorem Splits.plain {thinkClose : Option ℕ} {R T left : List Char}
    (h : Splits piece false thinkClose ts R T left) :
    R = [] ∧ Detokenizer.delivered piece ts = T ++ left := by
  obtain ⟨⟨fed, mark, htext, hclosing | ⟨hopened, -⟩⟩, -⟩ := h
  · cases hclosing with
    | plain => exact ⟨rfl, htext⟩
    | marked hopened => cases hopened
    | called hopened => cases hopened
    | token hopened => cases hopened
  · cases hopened

/-- Whitespace in front of a tool call is never dropped, as there is none. -/
theorem Reads.trimmed_eq {left : List Char} (h : Reads g u spans R mark T left trim) :
    trimmed trim T = trimmed g.trimSpans T := by
  rcases h.trims with rfl | ⟨rfl, rest, hcall⟩
  · rfl
  · cases T with
    | nil => rw [trimmed_nil, trimmed_nil]
    | cons c T =>
      have hword : callOpen = '<' :: "tool_call>".toList := by decide
      rw [hword, List.cons_append, List.cons_append] at hcall
      obtain ⟨rfl, -⟩ := List.cons.inj hcall
      cases g.trimSpans <;> rfl

/-- What was decoded is split where the reasoning ended. -/
theorem Decodes.splits {left : List Char} (h : Decodes piece first g ts u R mark (T ++ left))
    (hreads : Reads g u spans R mark T left trim)
    (hfirst : g.reasoningOpen = true → first.reasoningOpen = true)
    (hthinks : g.reasoningOpen = true → ∀ k, ¬Markers.Occurs thinkMarks R k)
    (hthought : ∀ k, ¬Markers.Occurs [thinkEnd] R k) :
    Splits piece first.reasoningOpen first.thinkClose ts R T left := by
  obtain ⟨fed, hpush, hfed⟩ := h
  refine ⟨⟨fed, mark, (congrArg Prod.fst hpush).trans hreads.text_eq, ?_⟩, hthought⟩
  rcases hfed with ⟨hopen, hsame⟩ | ⟨-, hclosing⟩
  · obtain ⟨hmark, hanswer, -, -⟩ := hreads.opened hopen
    exact Or.inr ⟨hfirst hopen, hsame, hmark, hanswer, hthinks hopen⟩
  · exact Or.inl hclosing

/-- At the end of the stream what is pending is handed on. -/
theorem Goes.done (h : Goes piece first g ts spans) (reason : EngineFinish) :
    ∃ q more R T, g.spansOf piece [.done reason] = ((q, more), none) ∧
      q.finish = some reason.finish ∧ Splits piece first.reasoningOpen first.thinkClose ts R T [] ∧
      reasoningOf (spans ++ more) = trimmed first.trimSpans R ∧
      answerOf (spans ++ more) = trimmed first.trimSpans T ∧
      (first.reasoningOpen = false → ∀ k, ¬Markers.Occurs first.stop T k) := by
  obtain ⟨u, R, mark, T, trim, hruns, hdecodes, hquiet⟩ := h
  obtain ⟨q, hq⟩ : ∃ q, q = { g with
      armed := false
      drained := true
      finish := some reason.finish
      pending := [] } := ⟨_, rfl⟩
  -- what is pending goes to the chunk that is open
  have hreceive : g.receive piece (.done reason) =
      ((q.chunk g.pending).1, .ok (q.chunk g.pending).2) := by rw [hq]; rfl
  have hdrained : (g.receive piece (.done reason)).1.drained = true := by
    rw [hreceive, drained_chunk, hq]
  have hspans : g.spansOf piece [.done reason] =
      (((q.chunk g.pending).1, (q.chunk g.pending).2.toList), none) := by
    rw [spansOf_cons hruns.running (congrArg Prod.snd hreceive), spansOf_drained hdrained,
      List.append_nil, hreceive]
  have hreads : Reads q u spans R mark T (g.pending ++ []) trim := by
    rw [List.append_nil, hq]
    exact hruns.reads.congr rfl rfl rfl
  have hfinish : (q.chunk g.pending).1.finish = some reason.finish := by rw [finish_chunk, hq]
  have htrims : (q.chunk g.pending).1.trimSpans = first.trimSpans := by
    rw [trimSpans_chunk, hq]
    exact hruns.trimSpans_eq
  have hopen_eq : (q.chunk g.pending).1.reasoningOpen = g.reasoningOpen := by
    rw [reasoningOpen_chunk, hq]
  have hdetokenizer : (q.chunk g.pending).1.detokenizer = g.detokenizer := by
    rw [detokenizer_chunk, hq]
  have hfirst : (q.chunk g.pending).1.reasoningOpen = true → first.reasoningOpen = true := by
    rw [hopen_eq]
    exact hruns.not_plain
  rcases Bool.eq_false_or_eq_true g.reasoningOpen with hopen | hopen
  · -- the reasoning never ended
    have hopen' : q.reasoningOpen = true := by
      rw [hq]
      exact hopen
    have hread := hreads.chunk_open hopen'
    obtain ⟨rfl, rfl, -, -⟩ := hruns.reads.opened hopen
    have hclear : ∀ k, ¬Markers.Occurs thinkMarks (R ++ g.pending) k := by
      intro k
      have hcut := (hruns.thinks hopen).cut (i := g.pending.length) (k := k) fun m _ =>
        hquiet.2 hopen m
      rwa [List.take_length] at hcut
    have hdecoded : Decodes piece first (q.chunk g.pending).1 ts u (R ++ g.pending) [] ([] ++ []) := by
      obtain ⟨fed, hpush, hfed⟩ := hdecodes
      refine ⟨fed, hdetokenizer.symm ▸ hpush, ?_⟩
      rcases hfed with ⟨-, hsame⟩ | ⟨hclosed, -⟩
      · exact Or.inl ⟨hopen_eq.trans hopen, hsame⟩
      · rw [hopen] at hclosed
        cases hclosed
    refine ⟨_, _, R ++ g.pending, [], hspans, hfinish, hdecoded.splits hread hfirst
      (fun _ => hclear) (fun k hoccurs => hclear k (hoccurs.mono thinkEnd_marks)), ?_, ?_,
      fun _ => Markers.not_occurs_nil⟩
    · rw [hread.reasoning, htrims]
    · rw [hread.answer, trimmed_nil, trimmed_nil]
  -- the answer ends where the text does
  · have hclosed : q.reasoningOpen = false := by
      rw [hq]
      exact hopen
    have hread := hreads.chunk_closed hclosed
    have hdecoded : Decodes piece first (q.chunk g.pending).1 ts u R mark (T ++ g.pending ++ []) := by
      obtain ⟨fed, hpush, hfed⟩ := hdecodes
      refine ⟨fed, hdetokenizer.symm ▸ hpush, ?_⟩
      rw [List.append_nil, hopen_eq]
      exact hfed
    refine ⟨_, _, R, T ++ g.pending, hspans, hfinish, hdecoded.splits hread hfirst (fun hopen' => ?_)
      (hruns.thought hopen), ?_, ?_, fun hplain k => ?_⟩
    · rw [hopen_eq, hopen] at hopen'
      cases hopen'
    · rw [hread.reasoning, htrims]
    · rw [hread.answer, hread.trimmed_eq, htrims]
    · have hcut := (hruns.answers hopen).cut (i := g.pending.length) (k := k) fun m _ =>
        hquiet.1 hplain m
      rwa [List.take_length] at hcut

/-- A stop sequence ends the answer in front of it. -/
theorem Stopped.splits (h : Stopped piece first g ts spans) :
    ∃ R T left sequence, Splits piece first.reasoningOpen first.thinkClose ts R T left ∧
      reasoningOf spans = trimmed first.trimSpans R ∧ answerOf spans = trimmed first.trimSpans T ∧
      sequence ∈ first.stop ∧ sequence <+: left ∧
      g.finish = some (.stopSequence (String.ofList sequence)) ∧
      ∀ k, ¬Markers.Occurs first.stop T k := by
  obtain ⟨u, R, mark, T, left, sequence, trim, hstops, hdecodes⟩ := h
  have hreads := hstops.reads
  refine ⟨R, T, left, sequence, hdecodes.splits hreads hstops.not_plain hstops.thinks
    hstops.thought, ?_, ?_, hstops.mem, hstops.left_eq, hstops.finish_eq, hstops.answers⟩
  · rw [hreads.reasoning, hstops.trimSpans_eq]
  · rw [hreads.answer, hreads.trimmed_eq, hstops.trimSpans_eq]

/-- More tokens decode to more text. -/
theorem delivered_append (tokens more : List ℕ) :
    Detokenizer.delivered piece tokens <+: Detokenizer.delivered piece (tokens ++ more) := by
  have hpush : ∀ (d : Detokenizer) (tokens : List ℕ),
      (d.pushAll piece tokens).1 <+: (d.pushAll piece (tokens ++ more)).1 := by
    intro d tokens
    induction tokens generalizing d with
    | nil => exact List.nil_prefix
    | cons token tokens ih =>
      rw [List.cons_append, Detokenizer.pushAll, Detokenizer.pushAll]
      exact (List.prefix_append_right_inj _).mpr (ih _)
  exact hpush _ tokens

section Whole

variable (piece) (stop : List (List Char)) (thinkClose : Option ℕ) (thinking trimSpans : Bool)
  (parser : Option ToolCallParser) (tokens : List ℕ) (reason : EngineFinish)

/-- The decoded text is the reasoning, the mark that ended it, the answer, and what a stop
sequence cut off; the spans are the reasoning and the answer. -/
theorem spansOf_conserves :
    ∃ q spans ts R T left,
      (start (stopSequences stop) thinkClose thinking trimSpans parser).spansOf piece
        (tokens.map .token ++ [.done reason]) = ((q, spans), none) ∧
      ts <+: tokens ∧ Splits piece (thinking && thinkClose.isSome) thinkClose ts R T left ∧
      reasoningOf spans = trimmed trimSpans R ∧ answerOf spans = trimmed trimSpans T ∧
      (q.finish = some reason.finish ∧ ts = tokens ∧ left = [] ∨
        ∃ sequence ∈ stopSequences stop,
          q.finish = some (.stopSequence (String.ofList sequence)) ∧ sequence <+: left ∧
            ∀ k, ¬Markers.Occurs (stopSequences stop) T k) := by
  have hgoes : Goes piece (start (stopSequences stop) thinkClose thinking trimSpans parser) _ [] [] :=
    Goes.start
  rcases hgoes.tokens tokens [.done reason] with
    ⟨q, more, hgoes', hspans⟩ | ⟨q, more, front, hfront, hstopped, hspans⟩
  · obtain ⟨q', more', R, T, hdone, hfinish, hsplits, hreasoning, hanswer, -⟩ := hgoes'.done reason
    rw [hdone] at hspans
    exact ⟨q', more ++ more', tokens, R, T, [], hspans, List.prefix_rfl, hsplits, hreasoning,
      hanswer, Or.inl ⟨hfinish, rfl, rfl⟩⟩
  · obtain ⟨R, T, left, sequence, hsplits, hreasoning, hanswer, hmem, hleft, hfinish, hanswers⟩ :=
      hstopped.splits
    exact ⟨q, more, front, R, T, left, hspans, hfront, hsplits, hreasoning, hanswer,
      Or.inr ⟨sequence, hmem, hfinish, hleft, hanswers⟩⟩

/-- Without reasoning: no stop sequence is ever handed on, and the generation ends with one
if and only if one stands in the decoded text, however its tokens cut it. -/
theorem spansOf_stops :
    ∃ q spans T left,
      (start (stopSequences stop) thinkClose false trimSpans parser).spansOf piece
        (tokens.map .token ++ [.done reason]) = ((q, spans), none) ∧
      reasoningOf spans = [] ∧ answerOf spans = trimmed trimSpans T ∧
      T ++ left <+: Detokenizer.delivered piece tokens ∧
      (∀ k, ¬Markers.Occurs (stopSequences stop) (answerOf spans) k) ∧
      ((∀ k, ¬Markers.Occurs (stopSequences stop) (Detokenizer.delivered piece tokens) k) ∧
          q.finish = some reason.finish ∧ T = Detokenizer.delivered piece tokens ∨
        (∃ k, Markers.Occurs (stopSequences stop) (Detokenizer.delivered piece tokens) k) ∧
          ∃ sequence ∈ stopSequences stop, sequence <+: left ∧
            q.finish = some (.stopSequence (String.ofList sequence))) := by
  have hgoes : Goes piece (start (stopSequences stop) thinkClose false trimSpans parser) _ [] [] :=
    Goes.start
  have hplain : (start (stopSequences stop) thinkClose false trimSpans parser).reasoningOpen = false :=
    rfl
  -- trimming in front cannot bring a stop sequence in
  have hclear : ∀ {T : List Char}, (∀ k, ¬Markers.Occurs (stopSequences stop) T k) →
      ∀ k, ¬Markers.Occurs (stopSequences stop) (trimmed trimSpans T) k := by
    intro T hT k hoccurs
    obtain ⟨front, hfront⟩ := trimmed_suffix trimSpans T
    refine hT (front.length + k) ?_
    rw [← Markers.occurs_drop, ← hfront, List.drop_left]
    exact hoccurs
  rcases hgoes.tokens tokens [.done reason] with
    ⟨q, more, hgoes', hspans⟩ | ⟨q, more, front, hfront, hstopped, hspans⟩
  -- no sequence stood in any prefix: all the text is handed on
  · obtain ⟨q', more', R, T, hdone, hfinish, hsplits, hreasoning, hanswer, hquiet⟩ :=
      hgoes'.done reason
    obtain ⟨rfl, htext⟩ := hsplits.plain
    rw [List.nil_append, List.append_nil] at htext
    rw [hdone] at hspans
    have hT : ∀ k, ¬Markers.Occurs (stopSequences stop) T k := hquiet hplain
    refine ⟨q', more ++ more', T, [], hspans, ?_, hanswer, ?_, ?_, Or.inl ⟨?_, hfinish, ?_⟩⟩
    · exact hreasoning.trans (trimmed_nil _)
    · rw [List.append_nil, htext]
    · rw [show answerOf (more ++ more') = trimmed trimSpans T from hanswer]
      exact hclear hT
    · rw [htext]
      exact hT
    · rw [htext]
  -- one stood: what was handed on ends before it
  · obtain ⟨R, T, left, sequence, hsplits, hreasoning, hanswer, hmem, hleft, hfinish, hanswers⟩ :=
      hstopped.splits
    obtain ⟨rfl, htext⟩ := hsplits.plain
    rw [List.nil_append] at htext
    have hpre : T ++ left <+: Detokenizer.delivered piece tokens := by
      obtain ⟨back, hback⟩ := hfront
      rw [← htext, ← hback]
      exact delivered_append front back
    refine ⟨q, more, T, left, hspans, ?_, hanswer, hpre, ?_, Or.inr ⟨⟨T.length, ?_⟩, sequence,
      hmem, hleft, hfinish⟩⟩
    · exact hreasoning.trans (trimmed_nil _)
    · rw [show answerOf more = trimmed trimSpans T from hanswer]
      exact hclear hanswers
    · obtain ⟨back, hback⟩ := hpre
      have hne : sequence ≠ [] := of_decide_eq_true (List.mem_filter.mp hmem).2
      refine ⟨sequence, hmem, hne, ?_⟩
      rw [← hback, List.append_assoc, List.drop_left]
      exact hleft.trans (List.prefix_append _ _)

end Whole

end Events

end Generation
