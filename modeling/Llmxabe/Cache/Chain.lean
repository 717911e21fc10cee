/-
The names of a sequence's own blocks (`xabe-engine/src/prefix.rs`).

A chain hashes every complete block of the tokens pushed so far, with an image's
lanes in the place of its pad tokens (`substituted`).  The hash function and the
mixing of a lane are those of a library, and parameters here.

* `sequence_chain_naming`: the hashes are those of the substituted tokens, however
  they were pushed; `hashesFor` names the block edges reached; chains agree where
  the tokens they name agree, as far as the two functions are injective.
-/
import Llmxabe.Lib.Blocks
import Llmxabe.Lib.HashChain
import Llmxabe.Cache.Radix
import Llmxabe.Runtime.Sequence

open Blocks (blocks leftOver)

/-- The block hashes of a sequence while its tokens arrive. -/
structure SequenceChain where
  blockSize : ℕ
  hashes : List BlockHash
  /-- Tokens of the block being filled. -/
  pending : List ℕ
  promptLen : ℕ
  images : List ImagePlacement
  /-- Absolute index of the next token. -/
  nextIndex : ℕ
  deriving DecidableEq

section Chain

variable (hashBlock : BlockHash → List ℕ → BlockHash) (mix : ℕ → ℕ → ℕ)

/-- The hash lane substituted for the pad token at `start + offset`. -/
def ImagePlacement.lane (img : ImagePlacement) (offset : ℕ) : ℕ := mix img.contentHash offset

/-- What a token contributes to a block: `token as u32`, or the lane of its slot. -/
def slotValue (images : List ImagePlacement) (index : ℕ) (token : Token) : ℕ :=
  match images.find? (·.covers index) with
  | some img => img.lane mix (index - img.start)
  | none => (token % 2 ^ 32).toNat

namespace SequenceChain

/-- Append a token; a full block is hashed onto its parent. -/
def push (c : SequenceChain) (token : Token) : SequenceChain :=
  let pending := c.pending ++ [slotValue mix c.images c.nextIndex token]
  if pending.length = c.blockSize then
    let parent := c.hashes.getLast?.getD rootHash
    { c with
      nextIndex := c.nextIndex + 1
      hashes := c.hashes ++ [hashBlock parent pending]
      pending := [] }
  else { c with nextIndex := c.nextIndex + 1, pending }

/-- Append tokens in order. -/
def extend (c : SequenceChain) (tokens : List Token) : SequenceChain :=
  tokens.foldl (push hashBlock mix) c

/-- The chain of a prompt. -/
def new (blockSize : ℕ) (prompt : List Token) (images : List ImagePlacement) : SequenceChain :=
  extend hashBlock mix
    { blockSize := max blockSize 1, hashes := [], pending := [], promptLen := prompt.length,
      images, nextIndex := 0 } prompt

/-- The chain of a request after the portions of tokens its steps reported. -/
def ofRun (blockSize : ℕ) (prompt : List Token) (images : List ImagePlacement)
    (portions : List (List Token)) : SequenceChain :=
  portions.foldl (extend hashBlock mix) (new hashBlock mix blockSize prompt images)

/-- Tokens accounted for: hashed blocks plus the block being filled. -/
def position (c : SequenceChain) : ℕ := c.hashes.length * c.blockSize + c.pending.length

/-- The hashes of exactly the blocks a snapshot at `position` covers. -/
def hashesFor (c : SequenceChain) (position : ℕ) : Option (List BlockHash) :=
  if position = 0 ∨ ¬c.blockSize ∣ position then none
  else if position / c.blockSize ≤ c.hashes.length then
    some (c.hashes.take (position / c.blockSize))
  else none

/-- The token the model produced at `position`, while its block is being filled. -/
def generatedTokenAt (c : SequenceChain) (position : ℕ) : Option ℕ :=
  if position < c.promptLen ∨ position < c.hashes.length * c.blockSize then none
  else c.pending[position - c.hashes.length * c.blockSize]?

end SequenceChain

/-! ### The stream a chain names -/

/-- The tokens as the cache sees them. -/
def substituted (images : List ImagePlacement) (tokens : List Token) : List ℕ :=
  tokens.mapIdx (slotValue mix images)

/-- The hashes of a sequence all of whose values are known. -/
def blockHashes (blockSize : ℕ) (values : List ℕ) : List BlockHash :=
  chainHashes hashBlock rootHash (blocks blockSize values)

variable {hashBlock mix} {images images' : List ImagePlacement} {tokens : List Token}
  {values values' : List ℕ} {n k : ℕ} {c : SequenceChain}

theorem substituted_length : (substituted mix images tokens).length = tokens.length :=
  List.length_mapIdx

/-- What a chain holds after the tokens of a stream. -/
structure SequenceChain.Names (hashBlock : BlockHash → List ℕ → BlockHash) (mix : ℕ → ℕ → ℕ)
    (c : SequenceChain) (n : ℕ) (images : List ImagePlacement) (tokens : List Token) : Prop where
  blockSize : c.blockSize = n
  nextIndex : c.nextIndex = tokens.length
  hashes : c.hashes = blockHashes hashBlock n (substituted mix images tokens)
  pending : c.pending = leftOver n (substituted mix images tokens)
  images : c.images = images

theorem SequenceChain.Names.push (hn : 0 < n) (h : c.Names hashBlock mix n images tokens)
    (token : Token) :
    (c.push hashBlock mix token).Names hashBlock mix n images (tokens ++ [token]) := by
  have hstream : substituted mix images (tokens ++ [token]) =
      substituted mix images tokens ++ [slotValue mix images tokens.length token] :=
    List.mapIdx_concat
  have hpending : (leftOver n (substituted mix images tokens) ++
      [slotValue mix images tokens.length token]).length =
        (leftOver n (substituted mix images tokens)).length + 1 := by
    rw [List.length_append, List.length_singleton]
  have hlt : (leftOver n (substituted mix images tokens)).length < n := by
    rw [Blocks.leftOver_length]
    exact Nat.mod_lt _ hn
  unfold SequenceChain.push
  rw [h.pending, h.images, h.nextIndex, h.blockSize]
  dsimp only
  by_cases hfull : (leftOver n (substituted mix images tokens)).length + 1 = n
  · -- the token closes a block
    obtain ⟨hblocks, hrest⟩ := Blocks.blocks_concat_full
      (x := slotValue mix images tokens.length token) hn hfull
    rw [if_pos (hpending.trans hfull)]
    refine ⟨rfl, ?_, ?_, ?_, rfl⟩
    · rw [List.length_append, List.length_singleton]
    · rw [hstream, blockHashes, hblocks, chainHashes_concat, chainHash_concat]
      dsimp only
      rw [h.hashes, blockHashes, getLast?_chainHashes]
    · rw [hstream]
      exact hrest.symm
  · have hroom : (leftOver n (substituted mix images tokens)).length + 1 < n := by omega
    obtain ⟨hblocks, hrest⟩ := Blocks.blocks_concat_open
      (x := slotValue mix images tokens.length token) hn hroom
    rw [if_neg fun hlen => hfull (hpending.symm.trans hlen)]
    refine ⟨rfl, ?_, ?_, ?_, rfl⟩
    · rw [List.length_append, List.length_singleton]
    · rw [hstream, blockHashes, hblocks]
      exact h.hashes
    · rw [hstream]
      exact hrest.symm

theorem SequenceChain.Names.extend (hn : 0 < n) (h : c.Names hashBlock mix n images tokens)
    (more : List Token) :
    (c.extend hashBlock mix more).Names hashBlock mix n images (tokens ++ more) := by
  induction more generalizing c tokens with
  | nil =>
    rw [List.append_nil]
    exact h
  | cons token more ih =>
    have := ih (h.push hn token)
    rwa [List.append_assoc, List.singleton_append] at this

theorem SequenceChain.new_names (blockSize : ℕ) (prompt : List Token)
    (images : List ImagePlacement) :
    (new hashBlock mix blockSize prompt images).Names hashBlock mix (max blockSize 1) images
      prompt := by
  have hempty : SequenceChain.Names hashBlock mix
      { blockSize := max blockSize 1, hashes := [], pending := [], promptLen := prompt.length,
        images, nextIndex := 0 } (max blockSize 1) images [] :=
    ⟨rfl, rfl, by rw [substituted, List.mapIdx_nil, blockHashes, Blocks.blocks_nil]; rfl,
      by rw [substituted, List.mapIdx_nil, Blocks.leftOver_nil], rfl⟩
  exact hempty.extend (by omega) prompt

variable (hashBlock mix) in
/-- Whatever is pushed in whatever portions, the chain names the tokens of its stream. -/
theorem SequenceChain.ofRun_names (blockSize : ℕ) (prompt : List Token)
    (images : List ImagePlacement) (portions : List (List Token)) :
    (ofRun hashBlock mix blockSize prompt images portions).Names
      hashBlock mix (max blockSize 1) images (prompt ++ portions.flatten) := by
  have hrun : ∀ c tokens, SequenceChain.Names hashBlock mix c (max blockSize 1) images tokens →
      (portions.foldl (extend hashBlock mix) c).Names hashBlock mix (max blockSize 1) images
        (tokens ++ portions.flatten) := by
    induction portions with
    | nil =>
      intro c tokens h
      rwa [List.flatten_nil, List.append_nil]
    | cons portion portions ih =>
      intro c tokens h
      have := ih _ _ (h.extend (by omega) portion)
      rwa [List.append_assoc, ← List.flatten_cons] at this
  exact hrun _ _ (new_names blockSize prompt images)

/-! ### What the names tell apart -/

theorem blockHashes_length : (blockHashes hashBlock n values).length = values.length / n :=
  (chainHashes_length _ _).trans Blocks.blocks_length

/-- The hashes of a block edge are those of the tokens before it. -/
theorem SequenceChain.Names.hashesFor (hn : 0 < n) (h : c.Names hashBlock mix n images tokens)
    (position : ℕ) (hashes : List BlockHash) :
    c.hashesFor position = some hashes ↔
      (0 < position ∧ n ∣ position ∧ position ≤ tokens.length) ∧
        hashes = blockHashes hashBlock n ((substituted mix images tokens).take position) := by
  have hcount : c.hashes.length = tokens.length / n := by
    rw [h.hashes, blockHashes_length, substituted_length]
  unfold SequenceChain.hashesFor
  rw [h.blockSize, hcount]
  split
  case isTrue hnone =>
    refine iff_of_false (fun h => by cases h) ?_
    rintro ⟨⟨hpos, hdvd, -⟩, -⟩
    rcases hnone with hzero | hndvd
    · omega
    · exact hndvd hdvd
  case isFalse hsome =>
    rw [not_or, not_not] at hsome
    obtain ⟨hne, blocks, rfl⟩ := hsome
    rw [Nat.mul_div_cancel_left _ hn]
    have hreached : blocks ≤ tokens.length / n ↔ n * blocks ≤ tokens.length := by
      rw [Nat.le_div_iff_mul_le hn, Nat.mul_comm]
    split
    case isTrue hle =>
      have hfit := hreached.mp hle
      have htake : c.hashes.take blocks =
          blockHashes hashBlock n ((substituted mix images tokens).take (n * blocks)) := by
        rw [Nat.mul_comm] at hfit ⊢
        rw [h.hashes, blockHashes, blockHashes, ← chainHashes_take, Blocks.blocks_take hn]
        rwa [substituted_length]
      rw [htake, Option.some.injEq]
      constructor
      · rintro rfl
        exact ⟨⟨by omega, Nat.dvd_mul_right n blocks, hfit⟩, rfl⟩
      · rintro ⟨-, rfl⟩
        rfl
    case isFalse hle =>
      refine iff_of_false (fun h => by cases h) ?_
      rintro ⟨⟨-, -, hfit⟩, -⟩
      exact hle (hreached.mpr hfit)

theorem take_blockHashes_inj (hhash : Function.Injective2 hashBlock) (hn : 0 < n)
    (hx : k ≤ (blockHashes hashBlock n values).length)
    (hy : k ≤ (blockHashes hashBlock n values').length) :
    (blockHashes hashBlock n values).take k = (blockHashes hashBlock n values').take k ↔
      values.take (k * n) = values'.take (k * n) := by
  rw [blockHashes_length, Nat.le_div_iff_mul_le hn] at hx hy
  unfold blockHashes
  rw [← chainHashes_take, ← chainHashes_take, chainHashes_inj hhash, Blocks.take_blocks_inj hn hx hy]

/-- Two images at one slot are told apart by every name that covers it. -/
theorem key_ne_of_content (hhash : Function.Injective2 hashBlock) (hmix : Function.Injective2 mix)
    (hn : 0 < n) {tokens tokens' : List Token} {index : ℕ} {img img' : ImagePlacement}
    (himg : images.find? (·.covers index) = some img)
    (himg' : images'.find? (·.covers index) = some img')
    (hcontent : img.contentHash ≠ img'.contentHash) (hindex : index < (k + 1) * n)
    {key key' : BlockHash}
    (hkey : (blockHashes hashBlock n (substituted mix images tokens))[k]? = some key)
    (hkey' : (blockHashes hashBlock n (substituted mix images' tokens'))[k]? = some key') :
    key ≠ key' := by
  rintro rfl
  obtain ⟨hlt, hkey⟩ := List.getElem?_eq_some_iff.mp hkey
  obtain ⟨hlt', hkey'⟩ := List.getElem?_eq_some_iff.mp hkey'
  -- one name, one list of blocks up to it
  have hname : ∀ {values : List ℕ} (hlt : k < (blockHashes hashBlock n values).length),
      chainHash hashBlock rootHash ((blocks n values).take (k + 1)) =
        (blockHashes hashBlock n values)[k] := by
    intro values hlt
    rw [← getLast?_chainHashes, chainHashes_take]
    change ((blockHashes hashBlock n values).take (k + 1)).getLast?.getD rootHash = _
    rw [List.take_succ_eq_append_getElem hlt, List.getLast?_append, List.getLast?_singleton]
    rfl
  have hlength : ∀ {values : List ℕ}, k < (blockHashes hashBlock n values).length →
      ((blocks n values).take (k + 1)).length = k + 1 := by
    intro values hlt
    rw [List.length_take, Blocks.blocks_length]
    rw [blockHashes_length] at hlt
    omega
  have hfit : ∀ {values : List ℕ}, k < (blockHashes hashBlock n values).length →
      (k + 1) * n ≤ values.length := by
    intro values hlt
    rw [blockHashes_length] at hlt
    exact (Nat.le_div_iff_mul_le hn).mp hlt
  have hblocks := chainHash_inj hhash ((hlength hlt).trans (hlength hlt').symm)
    ((hname hlt).trans (hkey.trans (hkey'.symm.trans (hname hlt').symm)))
  have hvalues := (Blocks.take_blocks_inj hn (hfit hlt) (hfit hlt')).mp hblocks
  have hslot := congrArg (fun values => values[index]?) hvalues
  have hvalue : ∀ {images : List ImagePlacement} {tokens : List Token} {img : ImagePlacement},
      images.find? (·.covers index) = some img →
      (k + 1) * n ≤ (substituted mix images tokens).length →
      ((substituted mix images tokens).take ((k + 1) * n))[index]? =
        some (img.lane mix (index - img.start)) := by
    intro images tokens img himg hle
    rw [substituted_length] at hle
    rw [List.getElem?_take_of_lt hindex, substituted, List.getElem?_mapIdx,
      List.getElem?_eq_getElem (by omega), Option.map_some, slotValue, himg]
  rw [hvalue himg (hfit hlt), hvalue himg' (hfit hlt')] at hslot
  exact hcontent (hmix (Option.some.inj hslot)).1

/-- A chain names the substituted tokens of its stream: its hashes depend on them
alone, `hashesFor` gives those of each block edge reached and nothing else, and
chains agree on names where they agree on the tokens named. -/
theorem sequence_chain_naming (blockSize : ℕ) (prompt prompt' : List Token)
    (images images' : List ImagePlacement) (portions portions' : List (List Token)) :
    let c := SequenceChain.ofRun hashBlock mix blockSize prompt images portions
    let c' := SequenceChain.ofRun hashBlock mix blockSize prompt' images' portions'
    let values := substituted mix images (prompt ++ portions.flatten)
    let values' := substituted mix images' (prompt' ++ portions'.flatten)
    (values = values' → c.hashes = c'.hashes) ∧
    (∀ position hashes, c.hashesFor position = some hashes ↔
      (0 < position ∧ max blockSize 1 ∣ position ∧ position ≤ (prompt ++ portions.flatten).length) ∧
        hashes = blockHashes hashBlock (max blockSize 1) (values.take position)) ∧
    (Function.Injective2 hashBlock → ∀ k ≤ c.hashes.length, k ≤ c'.hashes.length →
      (c.hashes.take k = c'.hashes.take k ↔
        values.take (k * max blockSize 1) = values'.take (k * max blockSize 1))) ∧
    (Function.Injective2 hashBlock → Function.Injective2 mix → ∀ index img img',
      images.find? (·.covers index) = some img → images'.find? (·.covers index) = some img' →
      img.contentHash ≠ img'.contentHash → ∀ k key key', index < (k + 1) * max blockSize 1 →
      c.hashes[k]? = some key → c'.hashes[k]? = some key' → key ≠ key') := by
  intro c c' values values'
  have hn : 0 < max blockSize 1 := by omega
  have hnames := SequenceChain.ofRun_names hashBlock mix blockSize prompt images portions
  have hnames' := SequenceChain.ofRun_names hashBlock mix blockSize prompt' images' portions'
  refine ⟨fun hstream => ?_, hnames.hashesFor hn, fun hhash k hk hk' => ?_,
    fun hhash hmix index img img' himg himg' hcontent k key key' hindex hkey hkey' => ?_⟩
  · exact hnames.hashes.trans ((congrArg _ hstream).trans hnames'.hashes.symm)
  · have hx : k ≤ (blockHashes hashBlock (max blockSize 1) values).length :=
      hk.trans (congrArg List.length hnames.hashes).le
    have hy : k ≤ (blockHashes hashBlock (max blockSize 1) values').length :=
      hk'.trans (congrArg List.length hnames'.hashes).le
    rw [← take_blockHashes_inj hhash hn hx hy]
    exact Eq.congr (congrArg (List.take k) hnames.hashes) (congrArg (List.take k) hnames'.hashes)
  · rw [hnames.hashes] at hkey
    rw [hnames'.hashes] at hkey'
    exact key_ne_of_content hhash hmix hn himg himg' hcontent hindex hkey hkey'

theorem sequence_chain_naming_witness :
    (SequenceChain.ofRun (fun h block => Nat.pair h (Encodable.encode block)) Nat.pair 2
        [7, 7] [⟨0, 1, 2, 5⟩] []).hashes[0]? ≠
      (SequenceChain.ofRun (fun h block => Nat.pair h (Encodable.encode block)) Nat.pair 2
        [7] [⟨0, 1, 2, 6⟩] [[7]]).hashes[0]? := by
  have hmix : Function.Injective2 Nat.pair := fun _ _ _ _ h => Nat.pair_eq_pair.mp h
  have hhash : Function.Injective2 fun h (block : List ℕ) => Nat.pair h (Encodable.encode block) :=
    fun _ _ _ _ h => ⟨(Nat.pair_eq_pair.mp h).1, Encodable.encode_injective (Nat.pair_eq_pair.mp h).2⟩
  have hkeys := (sequence_chain_naming 2 [7, 7] [7] [⟨0, 1, 2, 5⟩] [⟨0, 1, 2, 6⟩] [] [[7]]).2.2.2
    hhash hmix 0 ⟨0, 1, 2, 5⟩ ⟨0, 1, 2, 6⟩ rfl rfl (by decide) 0 _ _ (by decide) rfl rfl
  exact fun h => hkeys (Option.some.inj h)

end Chain
