/-
What the reservation slots of a worker hold, and how it changes.

`Housed` is the invariant of the slots and the two pools behind them: the
free blocks and the block tables are the whole pool, a slot is empty or
belongs to one request and holds as many blocks as that request is to have and
one GDN slot.  Two operations change them:

* `reserveCache_taken`: a reservation for a request without one takes its
  blocks off the top of the free lists, if there are enough of them;
* `releaseCache_returned`: a release puts back the request's own table.

Neither touches the slot of another request.
-/
import Llmxabe.Runtime.InStep

variable {κ σ : Type}

/-- Replacing the first element that qualifies splits the list around it. -/
theorem replace_split {α : Type} {l : List α} {p : α → Bool} {x : α} (h : l.find? p = some x) :
    ∃ before after, l = before ++ x :: after ∧ (∀ y ∈ before, p y = false) ∧ p x = true ∧
      ∀ x', l.replaceF (fun y => if p y then some x' else none) = before ++ x' :: after := by
  induction l with
  | nil => simp at h
  | cons y l ih =>
    by_cases hy : p y = true
    · rw [List.find?_cons_of_pos hy, Option.some.injEq] at h
      subst h
      exact ⟨[], l, rfl, fun _ h => absurd h List.not_mem_nil, hy, fun x' => by simp [hy]⟩
    · rw [List.find?_cons_of_neg hy] at h
      obtain ⟨before, after, rfl, hbefore, hx, hreplace⟩ := ih h
      refine ⟨y :: before, after, rfl, ?_, hx, fun x' => ?_⟩
      · rw [List.forall_mem_cons]
        exact ⟨Bool.eq_false_iff.mpr hy, hbefore⟩
      · rw [List.replaceF_cons_of_none _ (by simp [hy]), hreplace]
        rfl

namespace Worker

/-- The requests the slots belong to. -/
def owners (w : Worker κ σ) : List RequestId := w.reservations.filterMap (·.request)

/-- Every block of every block table. -/
def tables (w : Worker κ σ) : List BlockId := w.reservations.flatMap (·.attention)

/-- Every GDN slot in use. -/
def gdnSlots (w : Worker κ σ) : List BlockId := w.reservations.filterMap (·.gdn)

/-- A request's slot, an empty one if it has none. -/
def slotOf (w : Worker κ σ) (id : RequestId) : CacheReservation :=
  (w.reservations.find? (·.request = some id)).getD CacheReservation.empty

/-- A request's block table. -/
def table (w : Worker κ σ) (id : RequestId) : List BlockId := (w.slotOf id).attention

end Worker

/-- A slot is empty, or holds what its request is to have. -/
def CacheReservation.Holds (blocks : RequestId → ℕ) (slot : CacheReservation) : Prop :=
  slot = CacheReservation.empty ∨ ∃ id g, slot.request = some id ∧ slot.gdn = some g ∧
    slot.attention.length = blocks id

/-- The slots and the pools of a worker agree, for requests that are to have
so many blocks each. -/
structure Housed (blocks : RequestId → ℕ) (w : Worker κ σ) : Prop where
  attention : (w.attentionPool.free ++ w.tables).Perm (List.range w.attentionPool.total)
  gdn : (w.gdnPool.free ++ w.gdnSlots).Perm (List.range w.gdnPool.total)
  owners_nodup : w.owners.Nodup
  slot : ∀ slot ∈ w.reservations, slot.Holds blocks

/-- A reservation has been made. -/
structure Taken (id : RequestId) (w w' : Worker κ σ) : Prop where
  scheduler : w'.scheduler = w.scheduler
  runtime : w'.runtime = w.runtime
  pending : w'.pending = w.pending
  width : w'.reservations.length = w.reservations.length
  total : w'.attentionPool.total = w.attentionPool.total
  gdn_total : w'.gdnPool.total = w.gdnPool.total
  owners : w'.owners.Perm (id :: w.owners)
  others : ∀ id', id' ≠ id → w'.slotOf id' = w.slotOf id'
  table : w.attentionPool.free = w'.table id ++ w'.attentionPool.free
  gdn : ∃ g, (w'.slotOf id).gdn = some g ∧ w.gdnPool.free = g :: w'.gdnPool.free

/-- A reservation has been given up. -/
structure Returned (id : RequestId) (w w' : Worker κ σ) : Prop where
  width : w'.reservations.length = w.reservations.length
  total : w'.attentionPool.total = w.attentionPool.total
  gdn_total : w'.gdnPool.total = w.gdnPool.total
  owners : w.owners.Perm (id :: w'.owners)
  others : ∀ id', id' ≠ id → w'.slotOf id' = w.slotOf id'
  table : w'.attentionPool.free = (w.table id).reverse ++ w.attentionPool.free
  gdn : ∃ g, (w.slotOf id).gdn = some g ∧ w'.gdnPool.free = g :: w.gdnPool.free

section Slots

variable {blocks : RequestId → ℕ} {w : Worker κ σ} {id : RequestId}

theorem mem_owners : id ∈ w.owners ↔ ∃ slot ∈ w.reservations, slot.request = some id :=
  List.mem_filterMap

/-- The slots around one of them. -/
structure Around (w : Worker κ σ) (before : List CacheReservation) (slot : CacheReservation)
    (after : List CacheReservation) : Prop where
  split : w.reservations = before ++ slot :: after

namespace Around

variable {before after : List CacheReservation} {slot : CacheReservation}

theorem owners (h : Around w before slot after) :
    w.owners.Perm (slot.request.toList ++ (before ++ after).filterMap (·.request)) := by
  rw [Worker.owners, h.split, List.filterMap_append, List.filterMap_append, List.filterMap_cons]
  rcases slot.request with _ | id
  · exact List.Perm.refl _
  · exact List.perm_middle

theorem gdnSlots (h : Around w before slot after) :
    w.gdnSlots.Perm (slot.gdn.toList ++ (before ++ after).filterMap (·.gdn)) := by
  rw [Worker.gdnSlots, h.split, List.filterMap_append, List.filterMap_append, List.filterMap_cons]
  rcases slot.gdn with _ | g
  · exact List.Perm.refl _
  · exact List.perm_middle

theorem tables (h : Around w before slot after) :
    w.tables.Perm (slot.attention ++ (before ++ after).flatMap (·.attention)) := by
  rw [Worker.tables, h.split, List.flatMap_append, List.flatMap_append, List.flatMap_cons]
  exact List.perm_append_comm_assoc _ _ _

/-- A slot that is not this one is found wherever it was. -/
theorem others {w' : Worker κ σ} {slot' : CacheReservation} (h : Around w before slot after)
    (h' : Around w' before slot' after) (hslot : slot.request ≠ some id)
    (hslot' : slot'.request ≠ some id) : w'.slotOf id = w.slotOf id := by
  rw [Worker.slotOf, Worker.slotOf, h.split, h'.split, List.find?_append, List.find?_append,
    List.find?_cons_of_neg (by simpa using hslot'), List.find?_cons_of_neg (by simpa using hslot)]

theorem slotOf (h : Around w before slot after) (hslot : slot.request = some id)
    (hbefore : ∀ s ∈ before, s.request ≠ some id) : w.slotOf id = slot := by
  have hnone : before.find? (·.request = some id) = none :=
    List.find?_eq_none.mpr fun s hs => by simpa using hbefore s hs
  rw [Worker.slotOf, h.split, List.find?_append, hnone,
    List.find?_cons_of_pos (by simpa using hslot)]
  rfl

theorem length {w' : Worker κ σ} {slot' : CacheReservation} (h : Around w before slot after)
    (h' : Around w' before slot' after) : w'.reservations.length = w.reservations.length := by
  rw [h.split, h'.split, List.length_append, List.length_append, List.length_cons,
    List.length_cons]

end Around

/-- The tables hold what their owners are to have. -/
theorem Housed.tables_length (h : Housed blocks w) :
    w.tables.length = (w.owners.map blocks).sum := by
  have hsum : ∀ slots : List CacheReservation, (∀ slot ∈ slots, slot.Holds blocks) →
      (slots.flatMap (·.attention)).length = ((slots.filterMap (·.request)).map blocks).sum := by
    intro slots
    induction slots with
    | nil => exact fun _ => rfl
    | cons slot slots ih =>
      intro hslots
      rw [List.forall_mem_cons] at hslots
      rw [List.flatMap_cons, List.length_append, ih hslots.2]
      rcases hslots.1 with rfl | ⟨id, g, hid, -, hlength⟩
      · exact Nat.zero_add _
      · rw [List.filterMap_cons_some hid, List.map_cons, List.sum_cons, hlength]
  exact hsum _ h.slot

/-- Every owner has one GDN slot. -/
theorem Housed.gdnSlots_length (h : Housed blocks w) : w.gdnSlots.length = w.owners.length := by
  have hlength : ∀ slots : List CacheReservation, (∀ slot ∈ slots, slot.Holds blocks) →
      (slots.filterMap (·.gdn)).length = (slots.filterMap (·.request)).length := by
    intro slots
    induction slots with
    | nil => exact fun _ => rfl
    | cons slot slots ih =>
      intro hslots
      rw [List.forall_mem_cons] at hslots
      rcases hslots.1 with rfl | ⟨id, g, hid, hgdn, -⟩
      · exact ih hslots.2
      · rw [List.filterMap_cons_some hid, List.filterMap_cons_some hgdn, List.length_cons,
          List.length_cons, ih hslots.2]
  exact hlength _ h.slot

theorem Housed.free_length (h : Housed blocks w) :
    w.attentionPool.free.length + (w.owners.map blocks).sum = w.attentionPool.total := by
  rw [← h.tables_length, ← List.length_append, h.attention.length_eq, List.length_range]

theorem Housed.gdn_length (h : Housed blocks w) :
    w.gdnPool.free.length + w.owners.length = w.gdnPool.total := by
  rw [← h.gdnSlots_length, ← List.length_append, h.gdn.length_eq, List.length_range]

/-- With fewer owners than slots, one of them is empty. -/
theorem exists_empty_slot (h : w.owners.length < w.reservations.length) :
    ∃ slot, w.reservations.find? (·.request.isNone) = some slot := by
  rw [← Option.isSome_iff_exists, List.find?_isSome]
  by_contra hnone
  push Not at hnone
  refine absurd ?_ h.ne
  rw [Worker.owners, List.length_filterMap_eq_countP, List.countP_eq_length]
  intro slot hslot
  exact Option.ne_none_iff_isSome.mp (by simpa using hnone slot hslot)

/-- The slot of an owner holds its share. -/
theorem Housed.slotOf_owner (h : Housed blocks w) (hid : id ∈ w.owners) :
    ∃ g, (w.slotOf id).request = some id ∧ (w.slotOf id).gdn = some g ∧
      (w.table id).length = blocks id ∧ w.slotOf id ∈ w.reservations := by
  obtain ⟨slot, hslot, hreq⟩ := mem_owners.mp hid
  rcases hfind : w.reservations.find? (·.request = some id) with _ | found
  · exact absurd (by simpa using hreq) (List.find?_eq_none.mp hfind slot hslot)
  · have hmem := List.mem_of_find?_eq_some hfind
    have hfound : found.request = some id := by simpa using List.find?_some hfind
    have heq : w.slotOf id = found := by rw [Worker.slotOf, hfind]; rfl
    rw [Worker.table, heq]
    rcases h.slot found hmem with rfl | ⟨id', g, hid', hgdn, hlength⟩
    · cases hfound
    · rw [hfound, Option.some.injEq] at hid'
      subst hid'
      exact ⟨g, hfound, hgdn, hlength, hmem⟩

theorem slotOf_stranger (h : id ∉ w.owners) : w.slotOf id = CacheReservation.empty := by
  rcases hfind : w.reservations.find? (·.request = some id) with _ | found
  · rw [Worker.slotOf, hfind]
    rfl
  · exact absurd (mem_owners.mpr ⟨found, List.mem_of_find?_eq_some hfind,
      by simpa using List.find?_some hfind⟩) h

/-- No two slots belong to one request. -/
theorem Housed.slotOf_eq (h : Housed blocks w) {slot : CacheReservation}
    (hslot : slot ∈ w.reservations) (hreq : slot.request = some id) : w.slotOf id = slot := by
  obtain ⟨g, hown, -, -, hmem⟩ := h.slotOf_owner (mem_owners.mpr ⟨slot, hslot, hreq⟩)
  have hpairs := List.pairwise_filterMap.mp h.owners_nodup
  have : Std.Symm fun s s' : CacheReservation =>
      ∀ id, s.request = some id → ∀ id', s'.request = some id' → id ≠ id' :=
    ⟨fun s s' hss' id hid id' hid' heq => hss' id' hid' id hid heq.symm⟩
  by_contra hne
  exact hpairs.forall hmem hslot hne id hown id hreq rfl

/-- The tables, owner by owner. -/
theorem Housed.tables_eq (h : Housed blocks w) : w.tables = w.owners.flatMap w.table := by
  have hall : ∀ slots : List CacheReservation, (∀ slot ∈ slots, slot ∈ w.reservations) →
      slots.flatMap (·.attention) = (slots.filterMap (·.request)).flatMap w.table := by
    intro slots
    induction slots with
    | nil => exact fun _ => rfl
    | cons slot slots ih =>
      intro hslots
      rw [List.forall_mem_cons] at hslots
      rw [List.flatMap_cons, ih hslots.2]
      rcases h.slot slot hslots.1 with rfl | ⟨id, g, hid, -, -⟩
      · rfl
      · rw [List.filterMap_cons_some hid, List.flatMap_cons, Worker.table,
          h.slotOf_eq hslots.1 hid]
  exact hall _ fun _ hslot => hslot

/-- The GDN slots, owner by owner. -/
theorem Housed.gdnSlots_eq (h : Housed blocks w) :
    w.gdnSlots = w.owners.filterMap fun id => (w.slotOf id).gdn := by
  have hall : ∀ slots : List CacheReservation, (∀ slot ∈ slots, slot ∈ w.reservations) →
      slots.filterMap (·.gdn)
        = (slots.filterMap (·.request)).filterMap fun id => (w.slotOf id).gdn := by
    intro slots
    induction slots with
    | nil => exact fun _ => rfl
    | cons slot slots ih =>
      intro hslots
      rw [List.forall_mem_cons] at hslots
      rcases h.slot slot hslots.1 with rfl | ⟨id, g, hid, hgdn, -⟩
      · exact ih hslots.2
      · rw [List.filterMap_cons_some hid, List.filterMap_cons_some hgdn, ih hslots.2,
          List.filterMap_cons_some]
        rw [h.slotOf_eq hslots.1 hid]
        exact hgdn
  exact hall _ fun _ hslot => hslot

/-- A request without a slot gets one, with its share of both pools. -/
theorem reserveCache_taken (h : Housed blocks w) (hid : id ∉ w.owners)
    (hblocks : w.scheduler.reservedAttentionBlocks id = some (blocks id))
    (hslots : w.owners.length < w.reservations.length)
    (hattention : blocks id ≤ w.attentionPool.free.length) (hgdn : w.gdnPool.free ≠ []) :
    ∃ w', w.reserveCache id = .ok w' ∧ Taken id w w' ∧ Housed blocks w' := by
  -- there is an empty slot, and the others stay on either side of it
  obtain ⟨slot, hfind⟩ := exists_empty_slot hslots
  obtain ⟨before, after, hsplit, -, hnone, hreplace⟩ := replace_split hfind
  obtain ⟨g, gdnFree, hfree⟩ := List.exists_cons_of_ne_nil hgdn
  have hmem : slot ∈ w.reservations := List.mem_of_find?_eq_some hfind
  have hempty : slot = CacheReservation.empty := by
    rcases h.slot slot hmem with hempty | ⟨id', g', hid', -⟩
    · exact hempty
    · rw [hid'] at hnone
      cases hnone
  subst hempty
  set w' : Worker κ σ := { w with
    attentionPool := ⟨w.attentionPool.total, w.attentionPool.free.drop (blocks id)⟩
    gdnPool := ⟨w.gdnPool.total, gdnFree⟩
    reservations := before ++
      ⟨some id, w.attentionPool.free.take (blocks id), some g⟩ :: after } with hw'
  have hold : Around w before CacheReservation.empty after := ⟨hsplit⟩
  have hnew : Around w' before
      ⟨some id, w.attentionPool.free.take (blocks id), some g⟩ after := ⟨rfl⟩
  have howners : w'.owners.Perm (id :: w.owners) :=
    hnew.owners.trans (hold.owners.symm.cons id)
  have hslot : w'.slotOf id = ⟨some id, w.attentionPool.free.take (blocks id), some g⟩ :=
    hnew.slotOf rfl fun s hs hreq =>
      hid (mem_owners.mpr ⟨s, hsplit ▸ List.mem_append_left _ hs, hreq⟩)
  refine ⟨w', ?_, ⟨rfl, rfl, rfl, hold.length hnew, rfl, rfl, howners, fun id' hne => ?_, ?_, ?_⟩,
    ⟨?_, ?_, ?_, ?_⟩⟩
  -- both pools serve the reservation
  · rw [Worker.reserveCache, hblocks]
    simp only [hfind, CacheReservation.empty, BlockPool.allocInto, BlockPool.alloc, hfree,
      if_neg (Nat.not_lt.mpr hattention), List.nil_append]
    rw [hreplace]
  · refine hold.others hnew (fun h => ?_) fun h => hne (Option.some.inj h).symm
    cases h
  · rw [Worker.table, hslot]
    exact (List.take_append_drop _ _).symm
  · exact ⟨g, by rw [hslot], hfree⟩
  -- the pool and the tables together still hold each block once
  · refine ((hnew.tables.append_left _).trans ?_).trans h.attention
    have htables := hold.tables
    refine List.Perm.trans ?_ (htables.symm.append_left _)
    show (w.attentionPool.free.drop (blocks id) ++ (w.attentionPool.free.take (blocks id) ++ _)).Perm
      (w.attentionPool.free ++ ([] ++ _))
    rw [List.nil_append, ← List.append_assoc]
    refine List.Perm.append_right _ ?_
    exact List.perm_append_comm.trans (List.Perm.of_eq (List.take_append_drop _ _))
  -- and the states as well
  · refine ((hnew.gdnSlots.append_left _).trans ?_).trans h.gdn
    refine List.Perm.trans ?_ (hold.gdnSlots.symm.append_left _)
    rw [hfree]
    exact List.perm_middle
  · exact howners.nodup_iff.mpr (List.nodup_cons.mpr ⟨hid, h.owners_nodup⟩)
  -- the new slot is an owner's, with its share; the others are as they were
  · intro s hs
    rcases List.mem_append.mp hs with hs | hs
    · exact h.slot s (hsplit ▸ List.mem_append_left _ hs)
    · rcases List.mem_cons.mp hs with rfl | hs
      · exact Or.inr ⟨id, g, rfl, rfl, List.length_take_of_le hattention⟩
      · exact h.slot s (hsplit ▸ List.mem_append_right _ (List.mem_cons_of_mem _ hs))

/-- An owner gives up its slot, and both pools have back what it held. -/
theorem releaseCache_returned (h : Housed blocks w) (hid : id ∈ w.owners) :
    Returned id w (w.releaseCache id) ∧ Housed blocks (w.releaseCache id) := by
  obtain ⟨g, hreq, hgdn, hlength, hmem⟩ := h.slotOf_owner hid
  -- the slot that is found is the request's own
  have hfind : w.reservations.find? (·.request = some id) = some (w.slotOf id) := by
    rcases hfind : w.reservations.find? (·.request = some id) with _ | found
    · exact absurd (by simpa using hreq) (List.find?_eq_none.mp hfind _ hmem)
    · rw [Worker.slotOf, hfind]
      rfl
  obtain ⟨before, after, hsplit, hbefore, -, hreplace⟩ := replace_split hfind
  have hrelease : w.releaseCache id = { w with
      attentionPool := ⟨w.attentionPool.total, (w.table id).reverse ++ w.attentionPool.free⟩
      gdnPool := ⟨w.gdnPool.total, g :: w.gdnPool.free⟩
      reservations := before ++ CacheReservation.empty :: after } := by
    have hreplaced : w.reservations.replaceF (fun slot =>
        if slot.request = some id then some CacheReservation.empty else none)
        = before ++ CacheReservation.empty :: after := by
      rw [← hreplace]
      congr 1
      funext slot
      simp only [decide_eq_true_eq]
    rw [Worker.releaseCache, hfind]
    simp only [hgdn, hreplaced, BlockPool.freeBlocks_free]
    rfl
  have hold : Around w before (w.slotOf id) after := ⟨hsplit⟩
  have hnew : Around (w.releaseCache id) before CacheReservation.empty after := by
    constructor
    rw [hrelease]
  have howners : w.owners.Perm (id :: (w.releaseCache id).owners) := by
    refine hold.owners.trans ?_
    rw [hreq]
    exact hnew.owners.symm.cons id
  refine ⟨⟨hold.length hnew, by rw [hrelease], by rw [hrelease], howners, fun id' hne => ?_,
    by rw [hrelease], g, hgdn, by rw [hrelease]⟩, ⟨?_, ?_, ?_, ?_⟩⟩
  -- the other slots are those they were
  · refine hold.others hnew (fun h => ?_) fun h => ?_
    · rw [hreq, Option.some.injEq] at h
      exact hne h.symm
    · cases h
  -- the blocks move from the table back to the pool
  · rw [hrelease] at hnew ⊢
    refine ((hnew.tables.append_left _).trans ?_).trans h.attention
    refine List.Perm.trans ?_ (hold.tables.symm.append_left _)
    show ((w.table id).reverse ++ w.attentionPool.free ++ ([] ++ _)).Perm _
    rw [List.nil_append, List.append_assoc]
    exact ((List.reverse_perm _).append_right _).trans (List.perm_append_comm_assoc _ _ _)
  -- and the state to its own
  · rw [hrelease] at hnew ⊢
    refine ((hnew.gdnSlots.append_left _).trans ?_).trans h.gdn
    refine List.Perm.trans ?_ (hold.gdnSlots.symm.append_left _)
    rw [hgdn]
    exact List.perm_middle.symm
  · exact (List.nodup_cons.mp (howners.nodup_iff.mp h.owners_nodup)).2
  · intro s hs
    rw [hnew.split] at hs
    rcases List.mem_append.mp hs with hs | hs
    · exact h.slot s (hsplit ▸ List.mem_append_left _ hs)
    · rcases List.mem_cons.mp hs with rfl | hs
      · exact Or.inl rfl
      · exact h.slot s (hsplit ▸ List.mem_append_right _ (List.mem_cons_of_mem _ hs))

theorem releaseCache_stranger (h : id ∉ w.owners) : w.releaseCache id = w := by
  rcases hfind : w.reservations.find? (·.request = some id) with _ | found
  · rw [Worker.releaseCache, hfind]
  · exact absurd (mem_owners.mpr ⟨found, List.mem_of_find?_eq_some hfind,
      by simpa using List.find?_some hfind⟩) h

end Slots
