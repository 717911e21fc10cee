/-
The markers of a prompt, and the images that travel beside it.

An image leaves its marker in a text and its pixels in a list.  Folding keeps the two in step
(`FoldedContent.Paired`); so does every operation on a conversation that adds both (`Grows`).
Two parts are accepted without their pixels: an image in a system message of the Messages
dialect, and one in a reasoning item of the Responses dialect.
-/
import Llmxabe.Server.Requests

namespace Text

theorem images_append (a b : Text) : (a ++ b).images = a.images ++ b.images :=
  List.filterMap_append

theorem images_of (s : String) : (Text.of s).images = [] := by
  unfold of images
  rw [List.filterMap_map]
  exact List.filterMap_eq_nil_iff.mpr fun c _ => rfl

theorem images_join (target value : Text) : (target.join value).images = target.images ++ value.images := by
  unfold join
  rw [images_append]
  split
  case isTrue hnil =>
    rw [hnil]
  case isFalse =>
    rw [images_append, images_of, List.append_nil]

/-- A marker is no white space. -/
theorem images_trimStart (text : Text) : (trimStart text).images = text.images := by
  unfold trimStart
  induction text with
  | nil => rfl
  | cons glyph text ih =>
    rw [List.dropWhile_cons]
    split
    case isTrue hwhite =>
      cases glyph with
      | char c => exact ih
      | marker image => cases hwhite
    case isFalse => rfl

theorem images_reverse (text : Text) : Text.images text.reverse = text.images.reverse :=
  List.filterMap_reverse

theorem images_trim (text : Text) : text.trim.images = text.images := by
  unfold trim
  rw [images_reverse, images_trimStart, images_reverse, images_trimStart, List.reverse_reverse]

theorem images_flatMap {α : Type} (l : List α) (f : α → Text) :
    Text.images (l.flatMap f) = l.flatMap fun a => (f a).images := by
  induction l with
  | nil => rfl
  | cons a l ih => rw [List.flatMap_cons, images_append, ih, List.flatMap_cons]

theorem images_mapIdx {α : Type} {g : α → List DecodedImage} {l : List α} {f : ℕ → α → Text}
    (h : ∀ i, ∀ a ∈ l, (f i a).images = g a) : Text.images (l.mapIdx f).flatten = l.flatMap g := by
  induction l generalizing f with
  | nil => rfl
  | cons a l ih =>
    rw [List.mapIdx_cons, List.flatten_cons, images_append, h 0 a List.mem_cons_self,
      ih fun i b hb => h (i + 1) b (List.mem_cons_of_mem a hb), List.flatMap_cons]

theorem images_intercalate (separator : String) {texts : List Text}
    (h : ∀ text ∈ texts, text.images = []) :
    Text.images (List.intercalate (Text.of separator) texts) = [] := by
  induction texts with
  | nil => rfl
  | cons text texts ih =>
    have hrest := ih fun other hmem => h other (List.mem_cons_of_mem _ hmem)
    have htext := h text List.mem_cons_self
    cases texts with
    | nil => rwa [List.intercalate_singleton]
    | cons other texts =>
      rw [List.intercalate_cons_cons, images_append, images_append, images_of, htext, hrest]
      rfl

end Text

namespace Turn

/-- The images of a turn's markers, but for its reasoning. -/
def images : Turn → List DecodedImage
  | user content | system content | assistant _ content _ => content.images
  | toolResults results => results.flatMap Text.images

/-- The images of the markers in a turn's reasoning. -/
def thoughts : Turn → List DecodedImage
  | assistant reasoning _ _ => reasoning.images
  | _ => []

end Turn

namespace Conversation

variable {codec : Codec}

/-- The images of the markers a conversation renders, as long as no reasoning holds one. -/
def markers (c : Conversation) : List DecodedImage :=
  (c.system.getD []).images ++ c.turns.flatMap Turn.images

theorem images_renderCalls (content : Text) (calls : List ParsedToolCall) :
    (renderCalls codec content calls).images = [] := by
  have hcall : ∀ call : ParsedToolCall, (renderCall codec call).images = [] := by
    intro call
    have harguments : Text.images (call.arguments.flatMap (renderArgument codec)) = [] := by
      rw [Text.images_flatMap]
      refine List.flatMap_eq_nil_iff.mpr fun argument _ => ?_
      simp only [renderArgument, Text.images_append, Text.images_of, List.append_nil]
    simp only [renderCall, Text.images_append, Text.images_of, harguments, List.append_nil]
  unfold renderCalls
  rw [Text.images_mapIdx (g := fun _ => [])]
  · exact List.flatMap_eq_nil_iff.mpr fun _ _ => rfl
  · intro index call _
    rw [Text.images_append, hcall, List.append_nil]
    split
    · exact Text.images_of _
    · split
      · rfl
      · exact Text.images_of _

theorem images_renderTurn {turn : Turn} (h : turn.thoughts = []) (replayed : Bool) :
    (renderTurn codec replayed turn).images = turn.images := by
  cases turn with
  | user content =>
    simp [renderTurn, Text.images_append, Text.images_of, Text.images_trim, Turn.images]
  | system content =>
    simp [renderTurn, Text.images_append, Text.images_of, Text.images_trim, Turn.images]
  | assistant reasoning content calls =>
    have hreasoning : reasoning.images = [] := h
    cases replayed <;>
      simp [renderTurn, Text.images_append, Text.images_of, Text.images_trim, images_renderCalls,
        Turn.images, hreasoning]
  | toolResults results =>
    simp [renderTurn, Text.images_append, Text.images_of, Text.images_trim, Text.images_flatMap,
      Turn.images]

theorem images_renderSystem (c : Conversation) :
    (c.renderSystem codec).images = (c.system.getD []).images := by
  have hsystem : Text.images (((c.system.map Text.trim).filter (· ≠ [])).getD []) =
      (c.system.getD []).images := by
    rcases c.system with _ | system
    · rfl
    · have htrim := Text.images_trim system
      rw [Option.map_some, Option.getD_some, ← htrim]
      by_cases hblank : system.trim = []
      · rw [Option.filter_some_neg (by rw [hblank]; decide), hblank]
        rfl
      · rw [Option.filter_some_pos (by simpa using hblank)]
        rfl
  have htools : Text.images (c.tools.flatMap fun tool =>
      Text.of "\n" ++ Text.of (codec.prompt tool.wrapper)) = [] := by
    rw [Text.images_flatMap]
    refine List.flatMap_eq_nil_iff.mpr fun tool _ => ?_
    rw [Text.images_append, Text.images_of, Text.images_of, List.append_nil]
  rw [← hsystem]
  unfold renderSystem
  dsimp only
  split
  · rcases (c.system.map Text.trim).filter (· ≠ []) with _ | system
    · rfl
    · simp only [Text.images_append, Text.images_of, List.nil_append, List.append_nil,
        Option.getD_some]
  · rcases (c.system.map Text.trim).filter (· ≠ []) with _ | system
    · simp only [Text.images_append, Text.images_of, htools, List.append_nil]
      rfl
    · simp only [Text.images_append, Text.images_of, htools, List.nil_append, List.append_nil,
        Option.getD_some]

/-- The markers of a prompt are those of its texts. -/
theorem images_render {c : Conversation} (h : ∀ turn ∈ c.turns, turn.thoughts = [])
    (thinking : Bool) : (c.render codec thinking).images = c.markers := by
  have hturns : Text.images (c.turns.mapIdx fun index turn =>
      renderTurn codec (decide (lastQuery c.turns < index)) turn).flatten =
        c.turns.flatMap Turn.images :=
    Text.images_mapIdx fun index turn hturn => images_renderTurn (h turn hturn) _
  unfold render markers
  rw [Text.images_append, Text.images_append, Text.images_append, images_renderSystem, hturns,
    Text.images_of, List.append_nil]
  cases thinking
  · exact List.append_nil _
  · exact List.append_nil _

end Conversation

/-! ### Folding -/

/-- The images of a folded content are those of its text's markers. -/
structure FoldedContent.Paired (folded : FoldedContent) : Prop where
  text : folded.text.images = folded.images
  thinking : folded.thinking.images = []
  results : ∀ result ∈ folded.toolResults, result.text.images = result.images

namespace FoldedContent

variable {folded : FoldedContent}

theorem Paired.default : FoldedContent.default.Paired :=
  ⟨rfl, rfl, fun _ hmem => absurd hmem List.not_mem_nil⟩

theorem Paired.pushText (h : folded.Paired) (value : String) : (folded.pushText value).Paired := by
  refine ⟨?_, h.thinking, h.results⟩
  show (folded.text.join (Text.of value)).images = folded.images
  rw [Text.images_join, Text.images_of, List.append_nil, h.text]

theorem Paired.pushThinking (h : folded.Paired) (value : String) :
    (folded.pushThinking value).Paired := by
  refine ⟨h.text, ?_, h.results⟩
  show (folded.thinking.join (Text.of value)).images = []
  rw [Text.images_join, Text.images_of, List.append_nil, h.thinking]

theorem Paired.pushImage (h : folded.Paired) (image : DecodedImage) :
    (folded.pushImage image).Paired := by
  refine ⟨?_, h.thinking, h.results⟩
  show (folded.text.join [.marker image]).images = folded.images ++ [image]
  rw [Text.images_join, h.text]
  rfl

theorem Paired.pushCall (h : folded.Paired) (call : ParsedToolCall) : (folded.pushCall call).Paired :=
  ⟨h.text, h.thinking, h.results⟩

theorem Paired.pushResult (h : folded.Paired) {result : ToolResult}
    (hresult : result.text.images = result.images) : (folded.pushResult result).Paired := by
  refine ⟨h.text, h.thinking, fun other hmem => ?_⟩
  rcases List.mem_append.mp hmem with hold | hnew
  · exact h.results other hold
  · rw [List.mem_singleton.mp hnew]
    exact hresult

end FoldedContent

section Folding

variable {codec : Codec}

theorem foldOther_paired {value : Json} {folded next : FoldedContent} (h : folded.Paired)
    (hfold : foldOther value folded = .ok next) : next.Paired := by
  unfold foldOther at hfold
  dsimp only at hfold
  split at hfold
  · cases hfold
  · split at hfold
    · cases hfold
      exact h.pushText _
    · cases hfold
      exact h

mutual

theorem foldPart_paired (part : ContentPart) (folded next : FoldedContent) (h : folded.Paired)
    (hfold : foldPart codec part folded = .ok next) : next.Paired := by
  cases part with
  | text value | inputText value | outputText value | refusal value =>
    cases hfold
    exact h.pushText value
  | thinking value | reasoningText value | summaryText value =>
    cases hfold
    exact h.pushThinking value
  | toolUse name input =>
    cases hfold
    exact h.pushCall _
  | toolResult content =>
    obtain ⟨result, hresult, rfl⟩ := Except.map_eq_ok_iff.mp hfold
    exact h.pushResult (foldToolResult_paired content result hresult)
  | imageUrl url =>
    obtain ⟨image, -, rfl⟩ := Except.map_eq_ok_iff.mp hfold
    exact h.pushImage image
  | image source =>
    obtain ⟨image, -, rfl⟩ := Except.map_eq_ok_iff.mp hfold
    exact h.pushImage image
  | inputImage url =>
    cases url with
    | none => cases hfold
    | some url =>
      obtain ⟨image, -, rfl⟩ := Except.map_eq_ok_iff.mp hfold
      exact h.pushImage image
  | other value => exact foldOther_paired h hfold

theorem foldToolResult_paired (content : ResultContent ContentPart) (result : ToolResult)
    (hfold : foldToolResult codec content = .ok result) : result.text.images = result.images := by
  cases content with
  | absent =>
    cases hfold
    rfl
  | text text =>
    cases hfold
    exact Text.images_of text
  | other => cases hfold
  | blocks blocks =>
    unfold foldToolResult at hfold
    split at hfold
    · cases hfold
    · rename_i folded hparts
      split at hfold
      · cases hfold
        exact (foldParts_paired blocks .default folded .default hparts).text
      · cases hfold

theorem foldParts_paired (parts : List ContentPart) (folded next : FoldedContent)
    (h : folded.Paired) (hfold : foldParts codec parts folded = .ok next) : next.Paired := by
  cases parts with
  | nil =>
    cases hfold
    exact h
  | cons part parts =>
    unfold foldParts at hfold
    split at hfold
    · cases hfold
    · rename_i between hpart
      exact foldParts_paired parts between next (foldPart_paired part folded between h hpart) hfold

end

theorem fold_paired {content : Content} {folded : FoldedContent}
    (h : content.fold codec = .ok folded) : folded.Paired := by
  cases content with
  | text words =>
    cases h
    exact ⟨Text.images_of words, rfl, fun _ hmem => absurd hmem List.not_mem_nil⟩
  | single part => exact foldPart_paired part .default folded .default h
  | parts parts => exact foldParts_paired parts .default folded .default h

theorem foldOption_paired {content : Option Content} {folded : FoldedContent}
    (h : foldOption codec content = .ok folded) : folded.Paired := by
  cases content with
  | none =>
    cases h
    exact .default
  | some content => exact fold_paired h

/-- System text holds no image. -/
theorem plainText_images {content : Content} {text : Text}
    (h : content.plainText codec = .ok text) : text.images = [] := by
  unfold Content.plainText at h
  split at h
  · cases h
  · rename_i folded hfold
    split at h
    · cases h
    · split at h
      · cases h
      · rename_i himages
        cases h
        rw [(fold_paired hfold).text]
        exact not_not.mp himages

end Folding

/-! ### Conversations -/

namespace Conversation

/-- A conversation grows by the markers `fresh` and the images `kept`. -/
structure Grows (c next : Conversation) (fresh kept : List DecodedImage) : Prop where
  markers : next.markers = c.markers ++ fresh
  images : next.images = c.images ++ kept
  thoughts : (∀ turn ∈ c.turns, turn.thoughts = []) → ∀ turn ∈ next.turns, turn.thoughts = []

variable {c next last : Conversation} {fresh kept fresh' kept' : List DecodedImage}

theorem Grows.refl (c : Conversation) : Grows c c [] [] :=
  ⟨(List.append_nil _).symm, (List.append_nil _).symm, id⟩

theorem Grows.trans (h : Grows c next fresh kept) (h' : Grows next last fresh' kept') :
    Grows c last (fresh ++ fresh') (kept ++ kept') := by
  refine ⟨?_, ?_, fun hthoughts => h'.thoughts (h.thoughts hthoughts)⟩
  · rw [h'.markers, h.markers, List.append_assoc]
  · rw [h'.images, h.images, List.append_assoc]

theorem grows_pushTurn (c : Conversation) (turn : Turn) (h : turn.thoughts = []) :
    Grows c (c.pushTurn turn) turn.images [] := by
  refine ⟨?_, (List.append_nil _).symm, fun hthoughts other hmem => ?_⟩
  · show _ ++ (c.turns ++ [turn]).flatMap Turn.images = _
    rw [List.flatMap_append, List.flatMap_singleton, ← List.append_assoc]
    rfl
  · rcases List.mem_append.mp hmem with hold | hnew
    · exact hthoughts other hold
    · rw [List.mem_singleton.mp hnew]
      exact h

theorem grows_pushImages (c : Conversation) (images : List DecodedImage) :
    Grows c (c.pushImages images) [] images :=
  ⟨(List.append_nil _).symm, rfl, id⟩

/-- The last turn is replaced by one that shows more. -/
theorem grows_replace {turn : Turn} (turn' : Turn) (hlast : c.turns.getLast? = some turn)
    (himages : turn'.images = turn.images ++ fresh)
    (hthoughts : turn.thoughts = [] → turn'.thoughts = []) :
    Grows c { c with turns := c.turns.dropLast ++ [turn'] } fresh [] := by
  have hturns := (List.dropLast_append_getLast? turn hlast).symm
  refine ⟨?_, (List.append_nil _).symm, fun hall other hmem => ?_⟩
  · unfold markers
    dsimp only
    rw [List.append_assoc]
    nth_rewrite 2 [hturns]
    rw [List.flatMap_append, List.flatMap_append, List.flatMap_singleton, List.flatMap_singleton,
      himages, List.append_assoc]
  · rcases List.mem_append.mp hmem with hold | hnew
    · exact hall other (List.mem_of_mem_dropLast hold)
    · rw [List.mem_singleton.mp hnew]
      exact hthoughts (hall turn (List.mem_of_getLast? hlast))

theorem grows_pushToolResult (c : Conversation) (result : ToolResult) :
    Grows c (c.pushToolResult result) result.text.images result.images := by
  have himages : Grows { c with images := c.images ++ result.images } (c.pushToolResult result)
      result.text.images [] := by
    unfold pushToolResult
    dsimp only
    split
    · rename_i results hlast
      refine grows_replace _ hlast ?_ id
      show (results ++ [result.text]).flatMap Text.images = _
      rw [List.flatMap_append, List.flatMap_singleton]
      rfl
    · have hpush := grows_pushTurn { c with images := c.images ++ result.images }
        (.toolResults [result.text]) rfl
      have hshown : (Turn.toolResults [result.text]).images = result.text.images :=
        List.flatMap_singleton _ _
      rwa [hshown] at hpush
  have hpixels : Grows c { c with images := c.images ++ result.images } [] result.images :=
    grows_pushImages c result.images
  have hboth := hpixels.trans himages
  rwa [List.nil_append, List.append_nil] at hboth

/-- Tool results bring their images along. -/
theorem grows_pushToolResults (c : Conversation) {results : List ToolResult}
    (h : ∀ result ∈ results, result.text.images = result.images) :
    ∃ fresh, Grows c (c.pushToolResults results) fresh fresh := by
  induction results generalizing c with
  | nil => exact ⟨[], Grows.refl c⟩
  | cons result results ih =>
    obtain ⟨fresh, hrest⟩ := ih (c.pushToolResult result) fun other hmem =>
      h other (List.mem_cons_of_mem _ hmem)
    have hfirst := grows_pushToolResult c result
    rw [h result List.mem_cons_self] at hfirst
    exact ⟨_, hfirst.trans hrest⟩

theorem grows_pushSystem (c : Conversation) (text : Text) :
    Grows c (c.pushSystem text) text.images [] := by
  unfold pushSystem
  split
  case isTrue hempty =>
    -- there are no turns yet, so the text stands behind every marker
    have hturns := List.isEmpty_iff.mp hempty
    refine ⟨?_, (List.append_nil _).symm, id⟩
    unfold markers
    dsimp only
    rw [Option.getD_some, Text.images_join, hturns, List.flatMap_nil, List.append_nil,
      List.append_nil]
  case isFalse => exact grows_pushTurn c _ rfl

/-- The markers are those of the images, and no reasoning holds one. -/
structure Level (c : Conversation) : Prop where
  markers : c.markers = c.images
  thoughts : ∀ turn ∈ c.turns, turn.thoughts = []

theorem Grows.level (h : Grows c next fresh fresh) (hc : c.Level) : next.Level := by
  refine ⟨?_, h.thoughts hc.thoughts⟩
  rw [h.markers, h.images, hc.markers]

/-- The tools do not show. -/
theorem Level.render {codec : Codec} (h : c.Level) (tools : List ToolDefinition) (thinking : Bool) :
    (({ c with tools := tools } : Conversation).render codec thinking).images = c.images := by
  have himages : ({ c with tools := tools } : Conversation).markers = c.images := h.markers
  exact (images_render (c := { c with tools := tools }) h.thoughts thinking).trans himages

theorem nonempty_eq {failure : String} (h : c.nonempty failure = .ok next) : next = c := by
  unfold nonempty at h
  split at h
  · cases h
  · cases h
    rfl

end Conversation

open Conversation

section Dialects

variable {codec : Codec}

/-! ### Messages -/

/-- The images of a system message, which no dialect but this one accepts. -/
def Message.lost (codec : Codec) (message : Message) : List DecodedImage :=
  if message.role = "system" ∨ message.role = "developer" then
    match message.content.fold codec with
    | .error _ => []
    | .ok folded => folded.images
  else []

theorem Message.appendFolded_grows {c next : Conversation} {role : String} {folded : FoldedContent}
    (hfolded : folded.Paired) (h : Message.appendFolded c role folded = .ok next) :
    ∃ fresh kept, Grows c next fresh kept ∧
      (kept = fresh ∧ ¬(role = "system" ∨ role = "developer") ∨
        kept = [] ∧ fresh = folded.images ∧ (role = "system" ∨ role = "developer")) := by
  obtain ⟨fresh, hresults⟩ := grows_pushToolResults c hfolded.results
  unfold Message.appendFolded at h
  dsimp only at h
  split at h
  · split at h
    · cases h
      exact ⟨fresh, fresh, hresults, Or.inl ⟨rfl, by decide⟩⟩
    · cases h
      have htext := grows_pushTurn ((c.pushToolResults folded.toolResults).pushImages folded.images)
        (.user folded.text) rfl
      have hshown : (Turn.user folded.text).images = folded.images := hfolded.text
      have hboth := hresults.trans ((grows_pushImages _ folded.images).trans htext)
      rw [hshown, List.nil_append, List.append_nil] at hboth
      exact ⟨_, _, hboth, Or.inl ⟨rfl, by decide⟩⟩
  · split at h
    · cases h
    · split at h
      · cases h
      · rename_i himages
        cases h
        have hturn := grows_pushTurn c
          (.assistant folded.thinking folded.text folded.toolCalls) hfolded.thinking
        have hshown : (Turn.assistant folded.thinking folded.text folded.toolCalls).images = [] :=
          hfolded.text.trans (not_not.mp himages)
        rw [hshown] at hturn
        exact ⟨[], [], hturn, Or.inl ⟨rfl, by decide⟩⟩
  · split at h
    · cases h
      exact ⟨fresh, fresh, hresults, Or.inl ⟨rfl, by decide⟩⟩
    · cases h
      have hresult := grows_pushToolResult (c.pushToolResults folded.toolResults)
        ⟨folded.text, folded.images⟩
      rw [hfolded.text] at hresult
      exact ⟨_, _, hresults.trans hresult, Or.inl ⟨rfl, by decide⟩⟩
  · cases h
    have hsystem := grows_pushSystem c folded.text
    rw [hfolded.text] at hsystem
    exact ⟨_, _, hsystem, Or.inr ⟨rfl, rfl, by decide⟩⟩
  · cases h
    have hsystem := grows_pushSystem c folded.text
    rw [hfolded.text] at hsystem
    exact ⟨_, _, hsystem, Or.inr ⟨rfl, rfl, by decide⟩⟩
  · cases h

/-- A conversation whose markers are ahead of its images by those that were lost. -/
structure Conversation.Ahead (c : Conversation) (lost : List DecodedImage) : Prop where
  count : c.markers.length = c.images.length + lost.length
  level : lost = [] → c.markers = c.images
  thoughts : ∀ turn ∈ c.turns, turn.thoughts = []

theorem Message.append_ahead {c next : Conversation} {message : Message} {lost : List DecodedImage}
    (hc : c.Ahead lost) (h : Message.append codec c message = .ok next) :
    next.Ahead (lost ++ message.lost codec) := by
  unfold Message.append at h
  split at h
  case h_1 => cases h
  case h_2 folded hfold =>
    obtain ⟨fresh, kept, hgrows, ⟨rfl, hrole⟩ | ⟨rfl, hfresh, hrole⟩⟩ :=
      Message.appendFolded_grows (fold_paired hfold) h
    · have hlost : message.lost codec = [] := if_neg hrole
      rw [hlost, List.append_nil]
      refine ⟨?_, fun hnone => ?_, hgrows.thoughts hc.thoughts⟩
      · rw [hgrows.markers, hgrows.images, List.length_append, List.length_append, hc.count]
        omega
      · rw [hgrows.markers, hgrows.images, hc.level hnone]
    · have hlost : message.lost codec = fresh := by
        unfold Message.lost
        rw [if_pos hrole, hfold, hfresh]
      rw [hlost]
      refine ⟨?_, fun hnone => ?_, hgrows.thoughts hc.thoughts⟩
      · rw [hgrows.markers, hgrows.images, List.length_append, List.append_nil, hc.count,
          List.length_append, Nat.add_assoc]
      · obtain ⟨hbefore, rfl⟩ := List.append_eq_nil_iff.mp hnone
        rw [hgrows.markers, hgrows.images, hc.level hbefore]

theorem messages_ahead {messages : List Message} {c next : Conversation}
    {lost : List DecodedImage} (hc : c.Ahead lost)
    (h : messages.foldlM (Message.append codec) c = .ok next) :
    next.Ahead (lost ++ messages.flatMap (Message.lost codec)) := by
  induction messages generalizing c lost with
  | nil =>
    cases h
    rwa [List.flatMap_nil, List.append_nil]
  | cons message messages ih =>
    rw [List.foldlM_cons, Except.bind_eq_ok_iff] at h
    obtain ⟨between, hfirst, hrest⟩ := h
    rw [List.flatMap_cons, ← List.append_assoc]
    exact ih (Message.append_ahead hc hfirst) hrest

/-- The prompt of a Messages request shows its images exactly if no system message holds one. -/
theorem messages_show {request : MessagesRequest} {c : Conversation}
    (h : request.conversation codec = .ok c) (tools : List ToolDefinition) (thinking : Bool) :
    (({ c with tools := tools } : Conversation).render codec thinking).images = c.images ↔
      ∀ message ∈ request.messages, message.lost codec = [] := by
  simp only [MessagesRequest.conversation, Except.bind_eq_ok_iff] at h
  obtain ⟨system, hsystem, last, hmessages, hlast⟩ := h
  obtain rfl := nonempty_eq hlast
  have hblank : (system.getD []).images = [] := by
    rcases hcontent : request.system with _ | content
    · rw [hcontent] at hsystem
      cases hsystem
      rfl
    · rw [hcontent] at hsystem
      obtain ⟨text, htext, hout⟩ := Except.bind_eq_ok_iff.mp hsystem
      cases hout
      exact plainText_images htext
  have hstart : Conversation.Ahead ⟨system, [], [], []⟩ [] := by
    refine ⟨?_, fun _ => ?_, fun _ hmem => absurd hmem List.not_mem_nil⟩
    · unfold markers
      dsimp only
      rw [hblank]
      rfl
    · unfold markers
      dsimp only
      rw [hblank]
      rfl
  have hahead := messages_ahead hstart hmessages
  rw [List.nil_append] at hahead
  have hshown : (({ c with tools := tools } : Conversation).render codec thinking).images =
      c.markers := images_render (c := { c with tools := tools }) hahead.thoughts thinking
  rw [hshown, ← List.flatMap_eq_nil_iff]
  constructor
  · intro hsame
    have hcount := hahead.count
    rw [hsame] at hcount
    exact List.length_eq_zero_iff.mp (by omega)
  · intro hnone
    exact hahead.level hnone

/-! ### Chat completions -/

/-- The conversation of the loop is level, and no system text holds an image. -/
structure ChatLoop.Level (loop : ChatLoop) : Prop where
  conversation : loop.conversation.Level
  bare : loop.conversation.system = none
  system : ∀ text ∈ loop.system, text.images = []

theorem system_pushToolResults (c : Conversation) (results : List ToolResult) :
    (c.pushToolResults results).system = c.system := by
  induction results generalizing c with
  | nil => rfl
  | cons result results ih => exact (ih (c.pushToolResult result)).trans rfl

theorem ChatMessage.append_level {loop next : ChatLoop} {message : ChatMessage}
    (hloop : loop.Level) (h : ChatMessage.append codec loop message = .ok next) : next.Level := by
  unfold ChatMessage.append at h
  split at h
  case h_1 => cases h
  case h_2 folded hfold =>
    have hfolded := foldOption_paired hfold
    obtain ⟨fresh, hresults⟩ := grows_pushToolResults loop.conversation hfolded.results
    have hlevel := hresults.level hloop.conversation
    have hbare : (loop.conversation.pushToolResults folded.toolResults).system = none :=
      (system_pushToolResults _ _).trans hloop.bare
    unfold ChatMessage.appendFolded at h
    dsimp only at h
    split at h
    case isTrue => cases h
    case isFalse hallowed =>
      -- only a user's message or a tool's may hold an image
      have hnone : ¬(message.role = "user" ∨ message.role = "tool") → folded.text.images = [] := by
        intro hrole
        rw [hfolded.text]
        by_contra himages
        exact hallowed ⟨himages, hrole⟩
      have hturn : ∀ turn : Turn, turn.images = [] → turn.thoughts = [] →
          ((loop.conversation.pushToolResults folded.toolResults).pushTurn turn).Level := by
        intro turn himages hthoughts
        have hpush := grows_pushTurn (loop.conversation.pushToolResults folded.toolResults) _ hthoughts
        rw [himages] at hpush
        exact hpush.level hlevel
      -- system and developer messages join the leading text, while there is nothing else
      split at h
      · rename_i hrole
        have htext := hnone (by rw [hrole]; decide)
        split at h
        · cases h
          refine ⟨hlevel, hbare, fun text hmem => ?_⟩
          rcases List.mem_append.mp hmem with hold | hnew
          · exact hloop.system text hold
          · rw [List.mem_singleton.mp hnew]
            exact htext
        · cases h
          exact ⟨hturn _ htext rfl, hbare, hloop.system⟩
      · rename_i hrole
        have htext := hnone (by rw [hrole]; decide)
        split at h
        · cases h
          refine ⟨hlevel, hbare, fun text hmem => ?_⟩
          rcases List.mem_append.mp hmem with hold | hnew
          · exact hloop.system text hold
          · rw [List.mem_singleton.mp hnew]
            exact htext
        · cases h
          exact ⟨hturn _ htext rfl, hbare, hloop.system⟩
      -- a user's message shows its images, and a message of images alone is a turn too
      · split at h
        · rename_i hempty
          cases h
          have himages : folded.images = [] := by
            rw [← hfolded.text, List.isEmpty_iff.mp hempty]
            rfl
          have hpush := grows_pushImages (loop.conversation.pushToolResults folded.toolResults)
            folded.images
          rw [himages] at hpush
          exact ⟨himages ▸ hpush.level hlevel, hbare, hloop.system⟩
        · cases h
          have htext := grows_pushTurn ((loop.conversation.pushToolResults
            folded.toolResults).pushImages folded.images) (.user folded.text) rfl
          have hshown : (Turn.user folded.text).images = folded.images := hfolded.text
          have hboth := (grows_pushImages _ folded.images).trans htext
          rw [hshown, List.nil_append, List.append_nil] at hboth
          exact ⟨hboth.level hlevel, hbare, hloop.system⟩
      -- the assistant's turn shows none, nor do its thoughts
      · rename_i hrole
        have htext := hnone (by rw [hrole]; decide)
        obtain ⟨calls, -, rfl⟩ := Except.map_eq_ok_iff.mp h
        refine ⟨hturn _ htext ?_, hbare, hloop.system⟩
        show (((message.reasoningContent.map Text.of).getD folded.thinking)).images = []
        cases message.reasoningContent with
        | none => exact hfolded.thinking
        | some reasoning => exact Text.images_of reasoning
      -- a tool's answer shows those of its result
      · cases h
        have hresult := grows_pushToolResult (loop.conversation.pushToolResults folded.toolResults)
          ⟨folded.text, folded.images⟩
        rw [hfolded.text] at hresult
        refine ⟨hresult.level hlevel, ?_, hloop.system⟩
        exact hbare
      · cases h

/-- The prompt of a chat request shows its images. -/
theorem chat_shows {messages : List ChatMessage} {c : Conversation}
    (h : chatConversation codec messages = .ok c) (tools : List ToolDefinition) (thinking : Bool) :
    (({ c with tools := tools } : Conversation).render codec thinking).images = c.images := by
  simp only [chatConversation, Except.bind_eq_ok_iff] at h
  obtain ⟨loop, hloop, hlast⟩ := h
  obtain rfl := nonempty_eq hlast
  have hstart : ChatLoop.start.Level :=
    ⟨⟨rfl, fun _ hmem => absurd hmem List.not_mem_nil⟩, rfl,
      fun _ hmem => absurd hmem List.not_mem_nil⟩
  have hlevel : loop.Level :=
    foldlM_invariant (fun _ _ _ hloop hstep => ChatMessage.append_level hloop hstep) hstart hloop
  refine Level.render ?_ tools thinking
  unfold ChatLoop.finish
  split
  case isTrue => exact hlevel.conversation
  case isFalse =>
    have hsystem := Text.images_intercalate "\n" hlevel.system
    refine ⟨?_, hlevel.conversation.thoughts⟩
    have hmarkers := hlevel.conversation.markers
    unfold markers at hmarkers ⊢
    rw [hlevel.bare] at hmarkers
    dsimp only
    rw [Option.getD_some, hsystem]
    exact hmarkers

/-! ### Responses -/

/-- The item's content and summary hold no image. -/
def InputItem.Imageless (codec : Codec) (item : InputItem) : Prop :=
  ∀ part ∈ [item.content, item.summary], ∀ folded, foldOption codec part = .ok folded →
    folded.images = []

theorem images_joinPiece (thinking piece : Text) :
    (InputItem.joinPiece thinking piece).images = thinking.images ++ piece.images := by
  unfold InputItem.joinPiece
  split
  case isTrue hnil =>
    rw [hnil]
    exact (List.append_nil _).symm
  case isFalse => exact Text.images_join thinking piece

theorem InputItem.thinking_images {item : InputItem} {text : Text} (hnone : item.Imageless codec)
    (h : item.thinking codec = .ok text) : text.images = [] := by
  obtain ⟨content, hcontent, hrest⟩ := Except.bind_eq_ok_iff.mp h
  obtain ⟨summary, hsummary, hout⟩ := Except.bind_eq_ok_iff.mp hrest
  cases hout
  have hfirst := foldOption_paired hcontent
  have hsecond := foldOption_paired hsummary
  have htext : content.text.images = [] := by
    rw [hfirst.text]
    exact hnone _ List.mem_cons_self content hcontent
  have hlast : summary.text.images = [] := by
    rw [hsecond.text]
    exact hnone _ (List.mem_cons_of_mem _ List.mem_cons_self) summary hsummary
  simp only [List.foldl_cons, List.foldl_nil, images_joinPiece, hfirst.thinking, htext,
    hsecond.thinking, hlast, List.append_nil]
  rfl

theorem appendCall_level {c : Conversation} (hc : c.Level) (call : ParsedToolCall) :
    (InputItem.appendCall c call).Level := by
  unfold InputItem.appendCall
  split
  case h_1 reasoning content calls hlast =>
    exact (grows_replace (.assistant reasoning content (calls ++ [call])) hlast
      (List.append_nil _).symm id).level hc
  case h_2 => exact (grows_pushTurn c (.assistant [] [] [call]) rfl).level hc

theorem appendReasoning_level {c : Conversation} (hc : c.Level) {thinking : Text}
    (hthinking : thinking.images = []) : (InputItem.appendReasoning c thinking).Level := by
  unfold InputItem.appendReasoning
  split
  case isTrue => exact hc
  case isFalse =>
    split
    case h_1 content calls hlast =>
      exact (grows_replace (.assistant thinking content calls) hlast
        (List.append_nil _).symm fun _ => hthinking).level hc
    case h_2 => exact (grows_pushTurn c (.assistant thinking [] []) hthinking).level hc

theorem appendAssistant_level {c : Conversation} (hc : c.Level) {folded : FoldedContent}
    (htext : folded.text.images = []) (hthinking : folded.thinking.images = []) :
    (InputItem.appendAssistant c folded).Level := by
  unfold InputItem.appendAssistant
  split
  case h_1 reasoning content calls hlast =>
    refine (grows_replace _ hlast ?_ fun hreasoning => ?_).level hc
    · show (InputItem.joinPiece content folded.text).images = content.images ++ []
      rw [images_joinPiece, htext]
    · show Text.images (if reasoning = [] then folded.thinking else reasoning) = []
      split
      · exact hthinking
      · exact hreasoning
  case h_2 =>
    have hpush := grows_pushTurn c
      (.assistant folded.thinking folded.text folded.toolCalls) hthinking
    have hshown : (Turn.assistant folded.thinking folded.text folded.toolCalls).images = [] := htext
    rw [hshown] at hpush
    exact hpush.level hc

theorem CallOutput.fold_images {output : Option CallOutput} {result : ToolResult}
    (h : CallOutput.fold codec output = .ok result) : result.text.images = result.images := by
  unfold CallOutput.fold at h
  split at h
  · cases h
    rfl
  · cases h
    exact Text.images_of _
  · split at h
    · exact foldToolResult_paired _ result h
    · cases h
      exact Text.images_of _
  · cases h
    exact Text.images_of _

theorem InputItem.appendFolded_level {c next : Conversation} {role : Option String}
    {folded : FoldedContent} (hc : c.Level) (hfolded : folded.Paired)
    (h : InputItem.appendFolded c role folded = .ok next) : next.Level := by
  obtain ⟨fresh, hresults⟩ := grows_pushToolResults c hfolded.results
  have hlevel := hresults.level hc
  unfold InputItem.appendFolded at h
  dsimp only at h
  split at h
  case isTrue => cases h
  case isFalse hallowed =>
    have hnone : role ≠ some "user" → folded.text.images = [] := by
      intro hrole
      rw [hfolded.text]
      by_contra himages
      exact hallowed ⟨himages, hrole⟩
    have hsystem : folded.text.images = [] →
        ((c.pushToolResults folded.toolResults).pushSystem folded.text).Level := by
      intro htext
      have hpush := grows_pushSystem (c.pushToolResults folded.toolResults) folded.text
      rw [htext] at hpush
      exact hpush.level hlevel
    split at h
    · cases h
      exact hsystem (hnone (by decide))
    · cases h
      exact hsystem (hnone (by decide))
    · split at h
      · rename_i hempty
        cases h
        have himages : folded.images = [] := by
          rw [← hfolded.text, List.isEmpty_iff.mp hempty]
          rfl
        have hpush := grows_pushImages (c.pushToolResults folded.toolResults) folded.images
        rw [himages] at hpush
        exact himages ▸ hpush.level hlevel
      · cases h
        have htext := grows_pushTurn ((c.pushToolResults
          folded.toolResults).pushImages folded.images) (.user folded.text) rfl
        have hshown : (Turn.user folded.text).images = folded.images := hfolded.text
        have hboth := (grows_pushImages _ folded.images).trans htext
        rw [hshown, List.nil_append, List.append_nil] at hboth
        exact hboth.level hlevel
    · cases h
      exact appendAssistant_level hlevel (hnone (by decide)) hfolded.thinking
    · cases h
    · cases h

theorem InputItem.append_level {c next : Conversation} {item : InputItem} (hc : c.Level)
    (hnone : item.kind = some "reasoning" → item.Imageless codec)
    (h : InputItem.append codec c item = .ok next) : next.Level := by
  have hmessage : ∀ folded, foldOption codec item.content = .ok folded →
      InputItem.appendFolded c item.role folded = .ok next → next.Level :=
    fun folded hfold hfolded => appendFolded_level hc (foldOption_paired hfold) hfolded
  unfold InputItem.append at h
  split at h
  · split at h
    · cases h
    · rename_i folded hfold
      exact hmessage folded hfold h
  · split at h
    · cases h
    · rename_i folded hfold
      exact hmessage folded hfold h
  · obtain ⟨call, -, rfl⟩ := Except.map_eq_ok_iff.mp h
    exact appendCall_level hc call
  · obtain ⟨result, hresult, rfl⟩ := Except.map_eq_ok_iff.mp h
    have hpush := grows_pushToolResult c result
    rw [CallOutput.fold_images hresult] at hpush
    exact hpush.level hc
  · rename_i hkind
    obtain ⟨thinking, hthinking, rfl⟩ := Except.map_eq_ok_iff.mp h
    exact appendReasoning_level hc (InputItem.thinking_images (hnone hkind) hthinking)
  · split at h
    · cases h
      exact hc
    · cases h

theorem items_level {items : List InputItem} {c next : Conversation} (hc : c.Level)
    (hnone : ∀ item ∈ items, item.kind = some "reasoning" → item.Imageless codec)
    (h : items.foldlM (InputItem.append codec) c = .ok next) : next.Level := by
  induction items generalizing c with
  | nil =>
    cases h
    exact hc
  | cons item items ih =>
    rw [List.foldlM_cons, Except.bind_eq_ok_iff] at h
    obtain ⟨between, hfirst, hrest⟩ := h
    exact ih (InputItem.append_level hc (hnone item List.mem_cons_self) hfirst)
      (fun other hmem => hnone other (List.mem_cons_of_mem _ hmem)) hrest

/-- The prompt of a Responses request shows its images, if no reasoning item holds one. -/
theorem responses_show {request : ResponsesRequest} {c : Conversation}
    (h : request.conversation codec = .ok c)
    (hnone : ∀ items, request.input = .items items → ∀ item ∈ items,
      item.kind = some "reasoning" → item.Imageless codec)
    (tools : List ToolDefinition) (thinking : Bool) :
    (({ c with tools := tools } : Conversation).render codec thinking).images = c.images := by
  obtain ⟨last, hloop, hlast⟩ := Except.bind_eq_ok_iff.mp h
  obtain rfl := nonempty_eq hlast
  have hstart : request.start.Level := by
    refine ⟨?_, fun _ hmem => absurd hmem List.not_mem_nil⟩
    unfold ResponsesRequest.start ResponsesRequest.leading markers
    dsimp only
    cases request.instructions.or request.system with
    | none => rfl
    | some text =>
      rw [Option.map_some, Option.getD_some, Text.images_of]
      rfl
  refine Level.render ?_ tools thinking
  unfold ResponsesRequest.loop at hloop
  rcases hinput : request.input with text | items
  · rw [hinput] at hloop
    cases hloop
    have hpush := grows_pushTurn request.start (.user (Text.of text)) rfl
    have hshown : (Turn.user (Text.of text)).images = [] := Text.images_of text
    rw [hshown] at hpush
    exact hpush.level hstart
  · rw [hinput] at hloop
    exact items_level hstart (hnone items hinput) hloop

end Dialects

/-- The markers of a prompt are those of the images that travel beside it, in order: in a chat
request, in a Responses request without images in its reasoning items, and in exactly those
Messages requests whose system messages hold none. -/
theorem prompts_show_images (codec : Codec) (tools : List ToolDefinition) (thinking : Bool) :
    (∀ (request : MessagesRequest) (c : Conversation), request.conversation codec = .ok c →
      ((({ c with tools := tools } : Conversation).render codec thinking).images = c.images ↔
        ∀ message ∈ request.messages, message.lost codec = [])) ∧
    (∀ (messages : List ChatMessage) (c : Conversation), chatConversation codec messages = .ok c →
      (({ c with tools := tools } : Conversation).render codec thinking).images = c.images) ∧
    ∀ (request : ResponsesRequest) (c : Conversation), request.conversation codec = .ok c →
      (∀ items, request.input = .items items → ∀ item ∈ items,
        item.kind = some "reasoning" → item.Imageless codec) →
      (({ c with tools := tools } : Conversation).render codec thinking).images = c.images := by
  refine ⟨?_, ?_, ?_⟩
  · intro request c h
    exact messages_show h tools thinking
  · intro messages c h
    exact chat_shows h tools thinking
  · intro request c h hnone
    exact responses_show h hnone tools thinking

/-- One black pixel, whatever was sent. -/
def pixel : DecodedImage := ⟨[0, 0, 0], 1, 1⟩

/-- Every image is one pixel. -/
def pixelCodec : Codec where
  parse := fun _ => none
  spell := fun _ => ""
  prompt := fun _ => ""
  decode := fun _ => .ok pixel

/-- An image part. -/
def pixelPart : ContentPart := .imageUrl "data:image/png;base64,AA=="

/-- An image in a system message is shown, and its pixels are gone. -/
theorem prompts_show_images_witness :
    (Conversation.render pixelCodec
        ⟨some [.marker pixel], [.user (Text.of "hi")], [], []⟩ false).images ≠ [] ∧
      (Conversation.render pixelCodec
        ⟨none, [.user (Text.of "hi\n" ++ [.marker pixel])], [], [pixel]⟩ true).images = [pixel] := by
  obtain ⟨hmessages, -, -⟩ := prompts_show_images pixelCodec [] false
  obtain ⟨-, hchat, -⟩ := prompts_show_images pixelCodec [] true
  refine ⟨fun hsame => ?_, ?_⟩
  · have hlost := (hmessages
      ⟨[⟨"system", .parts [pixelPart]⟩, ⟨"user", .text "hi"⟩], none⟩ _ rfl).mp hsame
    exact absurd (hlost _ List.mem_cons_self) (List.cons_ne_nil pixel [])
  · exact hchat [⟨"user", some (.parts [.text "hi", pixelPart]), none, none⟩] _ rfl
