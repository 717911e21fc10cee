/-
Snapshots published for other requests (`xabe-engine/src/prefix.rs`), and the leases they pin
(`xabe-engine/src/state.rs`).

`reclaimFor` drops a worker's entries, the least recently reused first, until its
arena has room.  What a drop gives back is not known to it: `Reclaimed` says what it
does whatever a drop does to the world, and `reclaim_for_contract` adds what the
world is, shares of snapshots that each pin a lease.  The loop is counted, and no
longer than the worker's entries (`reclaimFor_ends`).  No two stamps of what the calls make are
alike (`Made.stamped`), so what is dropped was used before whatever stays (`Reclaimed.before`).
-/
import Llmxabe.Cache.Radix
import Llmxabe.Lib.Leases
import Mathlib.Data.List.MinMax

/-- The index of a worker. -/
abbrev WorkerId := ℕ

/-- A published snapshot. -/
structure Held (T : Type) where
  worker : WorkerId
  value : T
  lastUsed : ℕ

/-- The published snapshots; `clock` stamps their uses. -/
structure SharedSnapshots (T : Type) where
  entries : AList fun _ : BlockHash => Held T
  clock : ℕ

namespace SharedSnapshots

variable {T W : Type}

/-! ### The calls -/

/-- Nothing published. -/
def new : SharedSnapshots T := ⟨∅, 0⟩

/-- Take a snapshot to resume from, marking it as used. -/
def takeForReuse (shared : SharedSnapshots T) (hash : BlockHash) :
    Option T × SharedSnapshots T :=
  let clock := shared.clock + 1
  ((shared.entries.lookup hash).map Held.value,
    ⟨shared.entries.modify (fun held => { held with lastUsed := clock }) hash, clock⟩)

/-- An entry replaced by a publication is dropped. -/
def publish (drop : T → W → W) (shared : SharedSnapshots T) (hash : BlockHash) (worker : WorkerId)
    (value : T) (world : W) : SharedSnapshots T × W :=
  let clock := shared.clock + 1
  (⟨shared.entries.insert hash ⟨worker, value, clock⟩, clock⟩,
    ((shared.entries.lookup hash).map Held.value).elim world fun value => drop value world)

/-- Take an entry out. -/
def remove (shared : SharedSnapshots T) (hash : BlockHash) : SharedSnapshots T :=
  { shared with entries := shared.entries.erase hash }

/-- The worker's least recently used entry. -/
def victim (shared : SharedSnapshots T) (worker : WorkerId) : Option (BlockHash × Held T) :=
  ((shared.entries.entries.filter fun entry => entry.2.worker = worker).argmin
    fun entry => entry.2.lastUsed).map fun entry => (entry.1, entry.2)

/-- Drop the worker's entries until `reserve` are available, in so many turns. -/
def reclaimFor (available : W → ℕ) (drop : T → W → W) (worker : WorkerId) (reserve : ℕ) :
    ℕ → SharedSnapshots T → W → Option (Bool × SharedSnapshots T × W)
  | 0, _, _ => none
  | turns + 1, shared, world =>
    if available world < reserve then
      match shared.victim worker with
      | none => some (false, shared, world)
      | some (hash, held) =>
        reclaimFor available drop worker reserve turns (shared.remove hash) (drop held.value world)
    else some (true, shared, world)

/-! ### Stamps -/

/-- No stamp is ahead of the clock, and no two are alike. -/
structure Stamped (shared : SharedSnapshots T) : Prop where
  le : ∀ hash held, shared.entries.lookup hash = some held → held.lastUsed ≤ shared.clock
  inj : ∀ hash hash' held held', shared.entries.lookup hash = some held →
    shared.entries.lookup hash' = some held' → held.lastUsed = held'.lastUsed → hash = hash'

theorem stamped_new : (new : SharedSnapshots T).Stamped :=
  ⟨fun _ _ h => (nomatch h), fun _ _ _ _ h => (nomatch h)⟩

/-- An entry with a new stamp, and otherwise those that were there. -/
theorem Stamped.of_touch {shared shared' : SharedSnapshots T} (h : shared.Stamped)
    (hash : BlockHash) (hclock : shared'.clock = shared.clock + 1)
    (hself : ∀ held, shared'.entries.lookup hash = some held → held.lastUsed = shared.clock + 1)
    (hothers : ∀ other ≠ hash, shared'.entries.lookup other = shared.entries.lookup other) :
    shared'.Stamped := by
  have hold : ∀ other held, other ≠ hash → shared'.entries.lookup other = some held →
      held.lastUsed ≤ shared.clock := by
    intro other held hne hheld
    rw [hothers other hne] at hheld
    exact h.le other held hheld
  constructor
  · intro other held hheld
    rw [hclock]
    by_cases hne : other = hash
    · subst hne
      exact (hself held hheld).le
    · exact (hold other held hne hheld).trans (Nat.le_succ _)
  · intro a b held held' hheld hheld' hstamp
    by_cases ha : a = hash <;> by_cases hb : b = hash
    · rw [ha, hb]
    · subst ha
      have := hself held hheld
      have := hold b held' hb hheld'
      omega
    · subst hb
      have := hself held' hheld'
      have := hold a held ha hheld
      omega
    · rw [hothers a ha] at hheld
      rw [hothers b hb] at hheld'
      exact h.inj a b held held' hheld hheld' hstamp

theorem Stamped.takeForReuse {shared : SharedSnapshots T} (h : shared.Stamped) (hash : BlockHash) :
    (shared.takeForReuse hash).2.Stamped := by
  refine h.of_touch hash rfl ?_ fun other hne => AList.lookup_modify_ne hne
  intro held hheld
  have hheld' := (AList.lookup_modify _ hash shared.entries).symm.trans hheld
  obtain ⟨old, -, rfl⟩ := Option.map_eq_some_iff.mp hheld'
  rfl

theorem Stamped.publish {shared : SharedSnapshots T} (h : shared.Stamped) (drop : T → W → W)
    (hash : BlockHash) (worker : WorkerId) (value : T) (world : W) :
    (shared.publish drop hash worker value world).1.Stamped := by
  refine h.of_touch hash rfl ?_ fun other hne => AList.lookup_insert_ne hne
  intro held hheld
  have hheld' := (AList.lookup_insert shared.entries).symm.trans hheld
  cases hheld'
  rfl

/-! ### What a reclaim does -/

/-- How many entries the worker has. -/
def ofWorker (shared : SharedSnapshots T) (worker : WorkerId) : ℕ :=
  (shared.entries.entries.filter fun entry => entry.2.worker = worker).length

theorem mem_filter_iff {shared : SharedSnapshots T} {worker : WorkerId} {hash : BlockHash}
    {held : Held T} :
    (⟨hash, held⟩ : (_ : BlockHash) × Held T) ∈
        shared.entries.entries.filter (fun entry => entry.2.worker = worker) ↔
      shared.entries.lookup hash = some held ∧ held.worker = worker := by
  rw [List.mem_filter, decide_eq_true_eq, ← AList.mem_lookup_iff, Option.mem_def]

theorem victim_eq_none {shared : SharedSnapshots T} {worker : WorkerId}
    (h : shared.victim worker = none) {hash : BlockHash} {held : Held T}
    (hheld : shared.entries.lookup hash = some held) : held.worker ≠ worker := by
  rw [victim, Option.map_eq_none_iff, List.argmin_eq_none] at h
  intro hworker
  have hmem := mem_filter_iff.mpr ⟨hheld, hworker⟩
  rw [h] at hmem
  exact absurd hmem List.not_mem_nil

/-- The victim is an entry of the worker, used no later than any other. -/
theorem victim_eq_some {shared : SharedSnapshots T} {worker : WorkerId} {hash : BlockHash}
    {held : Held T} (h : shared.victim worker = some (hash, held)) :
    shared.entries.lookup hash = some held ∧ held.worker = worker ∧
      ∀ other held', shared.entries.lookup other = some held' → held'.worker = worker →
        held.lastUsed ≤ held'.lastUsed := by
  obtain ⟨⟨hash', held'⟩, hmin, hentry⟩ := Option.map_eq_some_iff.mp h
  cases hentry
  obtain ⟨hlookup, hworker⟩ := mem_filter_iff.mp (List.argmin_mem hmin)
  refine ⟨hlookup, hworker, fun other held' hheld' hworker' => ?_⟩
  exact List.le_of_mem_argmin (f := fun entry : (_ : BlockHash) × Held T => entry.2.lastUsed)
    (mem_filter_iff.mpr ⟨hheld', hworker'⟩) hmin

/-- The entries without one of them. -/
theorem entries_remove {shared : SharedSnapshots T} {hash : BlockHash} {held : Held T}
    (h : shared.entries.lookup hash = some held) :
    ∃ before after, shared.entries.entries = before ++ ⟨hash, held⟩ :: after ∧
      (shared.remove hash).entries.entries = before ++ after := by
  have hkey : hash ∈ shared.entries.entries.keys :=
    AList.lookup_isSome.mp (Option.isSome_iff_exists.mpr ⟨held, h⟩)
  obtain ⟨found, before, after, -, hentries, herase⟩ := List.exists_of_kerase hkey
  have hfound : shared.entries.lookup hash = some found := by
    rw [← Option.mem_def, AList.mem_lookup_iff, hentries]
    exact List.mem_append_right _ List.mem_cons_self
  rw [h] at hfound
  cases hfound
  exact ⟨before, after, hentries, herase⟩

theorem ofWorker_remove {shared : SharedSnapshots T} {worker : WorkerId} {hash : BlockHash}
    {held : Held T} (h : shared.entries.lookup hash = some held) (hworker : held.worker = worker) :
    (shared.remove hash).ofWorker worker + 1 = shared.ofWorker worker := by
  obtain ⟨before, after, hentries, hremove⟩ := entries_remove h
  rw [ofWorker, ofWorker, hentries, hremove, List.filter_append, List.filter_append,
    List.filter_cons_of_pos (by rw [decide_eq_true_eq]; exact hworker), List.length_append,
    List.length_append, List.length_cons, Nat.add_assoc]

/-- The loop takes a turn for each of the worker's entries, and one more. -/
theorem reclaimFor_ends (available : W → ℕ) (drop : T → W → W) (worker : WorkerId) (reserve : ℕ)
    {turns : ℕ} :
    ∀ {shared : SharedSnapshots T} {world : W}, shared.ofWorker worker < turns →
      ∃ r, reclaimFor available drop worker reserve turns shared world = some r := by
  induction turns with
  | zero => exact fun h => absurd h (Nat.not_lt_zero _)
  | succ turns ih =>
    intro shared world hturns
    rw [reclaimFor]
    split
    · cases hvictim : shared.victim worker with
      | none => exact ⟨_, rfl⟩
      | some entry =>
        obtain ⟨hash, held⟩ := entry
        obtain ⟨hlookup, hworker, -⟩ := victim_eq_some hvictim
        have hless := ofWorker_remove hlookup hworker
        exact ih (by omega)
    · exact ⟨_, rfl⟩

theorem reclaimFor_succ (available : W → ℕ) (drop : T → W → W) (worker : WorkerId) (reserve : ℕ)
    {turns : ℕ} :
    ∀ {shared : SharedSnapshots T} {world : W} {r : Bool × SharedSnapshots T × W},
      reclaimFor available drop worker reserve turns shared world = some r →
        reclaimFor available drop worker reserve (turns + 1) shared world = some r := by
  induction turns with
  | zero => exact fun h => nomatch h
  | succ turns ih =>
    intro shared world r h
    rw [reclaimFor] at h ⊢
    split at h
    case isTrue hshort =>
      rw [if_pos hshort]
      cases hvictim : shared.victim worker with
      | none =>
        rw [hvictim] at h
        exact h
      | some entry =>
        rw [hvictim] at h
        exact ih h
    case isFalse henough => rwa [if_neg henough]

/-- What the drops of some entries, one after the other, do to the world. -/
def dropAll (drop : T → W → W) (removed : List (BlockHash × Held T)) (world : W) : W :=
  removed.foldl (fun world entry => drop entry.2.value world) world

/-- What a reclaim does, with the entries it removes in their order. -/
structure Reclaimed (available : W → ℕ) (drop : T → W → W) (worker : WorkerId) (reserve : ℕ)
    (shared : SharedSnapshots T) (world : W) (removed : List (BlockHash × Held T)) (room : Bool)
    (shared' : SharedSnapshots T) (world' : W) : Prop where
  -- the worker's entries, and no others
  mine : ∀ entry ∈ removed, shared.entries.lookup entry.1 = some entry.2 ∧ entry.2.worker = worker
  entries : ∀ hash, shared'.entries.lookup hash =
    if hash ∈ removed.map Prod.fst then none else shared.entries.lookup hash
  clock : shared'.clock = shared.clock
  dropped : world' = dropAll drop removed world
  -- each used no later than the worker's entries then left
  oldest : ∀ before entry after, removed = before ++ entry :: after →
    ∀ hash held, shared.entries.lookup hash = some held → held.worker = worker →
      hash ∉ before.map Prod.fst → entry.2.lastUsed ≤ held.lastUsed
  -- and each when there was no room yet
  needed : ∀ before entry after, removed = before ++ entry :: after →
    available (dropAll drop before world) < reserve
  enough : room = true ↔ reserve ≤ available world'
  exhausted : room = false → ∀ hash held, shared'.entries.lookup hash = some held →
    held.worker ≠ worker

theorem lookup_remove (shared : SharedSnapshots T) (hash other : BlockHash) :
    (shared.remove hash).entries.lookup other =
      if other = hash then none else shared.entries.lookup other := by
  split
  case isTrue h => rw [h]; exact AList.lookup_erase hash shared.entries
  case isFalse h => exact AList.lookup_erase_ne h

theorem Stamped.remove {shared : SharedSnapshots T} (h : shared.Stamped) (hash : BlockHash) :
    (shared.remove hash).Stamped := by
  have hold : ∀ other held, (shared.remove hash).entries.lookup other = some held →
      shared.entries.lookup other = some held := by
    intro other held hheld
    rw [lookup_remove] at hheld
    split at hheld
    · cases hheld
    · exact hheld
  exact ⟨fun other held hheld => h.le other held (hold other held hheld),
    fun a b held held' hheld hheld' => h.inj a b held held' (hold a held hheld) (hold b held' hheld')⟩

/-- What the calls make of an empty map. -/
inductive Made : SharedSnapshots T → Prop where
  | new : Made new
  | takeForReuse {shared : SharedSnapshots T} (hash : BlockHash) :
      Made shared → Made (shared.takeForReuse hash).2
  | publish {W : Type} {shared : SharedSnapshots T} (drop : T → W → W) (hash : BlockHash)
      (worker : WorkerId) (value : T) (world : W) :
      Made shared → Made (shared.publish drop hash worker value world).1
  | remove {shared : SharedSnapshots T} (hash : BlockHash) : Made shared → Made (shared.remove hash)

theorem Made.stamped {shared : SharedSnapshots T} (h : shared.Made) : shared.Stamped := by
  induction h with
  | new => exact stamped_new
  | takeForReuse hash _ ih => exact ih.takeForReuse hash
  | publish drop hash worker value world _ ih => exact ih.publish drop hash worker value world
  | remove hash _ ih => exact ih.remove hash

/-- Where no two stamps are alike, what is dropped was used before whatever of the worker stays. -/
theorem Reclaimed.before {available : W → ℕ} {drop : T → W → W} {worker : WorkerId} {reserve : ℕ}
    {shared shared' : SharedSnapshots T} {world world' : W} {removed : List (BlockHash × Held T)}
    {room : Bool} (h : Reclaimed available drop worker reserve shared world removed room shared' world')
    (hstamped : shared.Stamped) {entry : BlockHash × Held T} (hentry : entry ∈ removed)
    {hash : BlockHash} {held : Held T} (hheld : shared'.entries.lookup hash = some held)
    (hworker : held.worker = worker) : entry.2.lastUsed < held.lastUsed := by
  rw [h.entries] at hheld
  split at hheld
  case isTrue => cases hheld
  case isFalse hkept =>
    obtain ⟨before, after, hsplit⟩ := List.mem_iff_append.mp hentry
    have hnot : hash ∉ before.map Prod.fst := by
      intro hmem
      rw [hsplit, List.map_append] at hkept
      exact hkept (List.mem_append_left _ hmem)
    have hle := h.oldest before entry after hsplit hash held hheld hworker hnot
    refine lt_of_le_of_ne hle fun hsame => hkept ?_
    have hlookup := (h.mine entry hentry).1
    rw [hstamped.inj hash entry.1 held entry.2 hheld hlookup hsame.symm]
    exact List.mem_map_of_mem hentry

/-- The places in a list: its head, and those behind it. -/
theorem forall_split_cons {α : Type} {a : α} {l : List α} {P : List α → α → Prop} (hhead : P [] a)
    (htail : ∀ before entry after, l = before ++ entry :: after → P (a :: before) entry) :
    ∀ before entry after, a :: l = before ++ entry :: after → P before entry := by
  rintro (_ | ⟨b, before⟩) entry after hl
  · obtain ⟨rfl, -⟩ := List.cons.inj hl
    exact hhead
  · obtain ⟨rfl, hrest⟩ := List.cons.inj hl
    exact htail before entry after hrest

/-- A reclaim that ends without a drop. -/
theorem Reclaimed.nil {available : W → ℕ} (drop : T → W → W) {worker : WorkerId} {reserve : ℕ}
    {shared : SharedSnapshots T} {world : W} {room : Bool}
    (henough : room = true ↔ reserve ≤ available world)
    (hexhausted : room = false → ∀ hash held, shared.entries.lookup hash = some held →
      held.worker ≠ worker) :
    Reclaimed available drop worker reserve shared world [] room shared world where
  mine _ h := absurd h List.not_mem_nil
  entries _ := rfl
  clock := rfl
  dropped := rfl
  oldest before entry after h := by cases before <;> cases h
  needed before entry after h := by cases before <;> cases h
  enough := henough
  exhausted := hexhausted

/-- A drop, and a reclaim behind it. -/
theorem Reclaimed.cons {available : W → ℕ} {drop : T → W → W} {worker : WorkerId} {reserve : ℕ}
    {shared shared' : SharedSnapshots T} {world world' : W} {room : Bool} {hash : BlockHash}
    {held : Held T} {removed : List (BlockHash × Held T)} (hshort : available world < reserve)
    (hvictim : shared.victim worker = some (hash, held))
    (h : Reclaimed available drop worker reserve (shared.remove hash) (drop held.value world)
      removed room shared' world') :
    Reclaimed available drop worker reserve shared world ((hash, held) :: removed) room shared'
      world' := by
  obtain ⟨hlookup, hworker, hmin⟩ := victim_eq_some hvictim
  refine ⟨?_, fun other => ?_, h.clock, h.dropped, ?_, ?_, h.enough, h.exhausted⟩
  · intro entry hentry
    rcases List.mem_cons.mp hentry with rfl | hentry
    · exact ⟨hlookup, hworker⟩
    · obtain ⟨hlookup', hworker'⟩ := h.mine entry hentry
      rw [lookup_remove] at hlookup'
      split at hlookup'
      · cases hlookup'
      · exact ⟨hlookup', hworker'⟩
  · rw [h.entries, lookup_remove, List.map_cons]
    by_cases hother : other = hash
    · rw [if_pos hother, if_pos (List.mem_cons.mpr (.inl hother)), ite_self]
    · rw [if_neg hother]
      simp only [List.mem_cons, hother, false_or]
  · refine forall_split_cons (fun other held' hheld' hworker' _ => ?_) ?_
    · exact hmin other held' hheld' hworker'
    · intro before entry after hremoved other held' hheld' hworker' hfresh
      rw [List.map_cons, List.mem_cons, not_or] at hfresh
      refine h.oldest before entry after hremoved other held' ?_ hworker' hfresh.2
      rw [lookup_remove, if_neg hfresh.1]
      exact hheld'
  · exact forall_split_cons hshort fun before entry after hremoved =>
      h.needed before entry after hremoved

theorem reclaimFor_reclaimed {available : W → ℕ} {drop : T → W → W} {worker : WorkerId}
    {reserve turns : ℕ} :
    ∀ {shared shared' : SharedSnapshots T} {world world' : W} {room : Bool},
      reclaimFor available drop worker reserve turns shared world = some (room, shared', world') →
        ∃ removed, Reclaimed available drop worker reserve shared world removed room shared'
          world' := by
  induction turns with
  | zero => exact fun h => nomatch h
  | succ turns ih =>
    intro shared shared' world world' room h
    rw [reclaimFor] at h
    split at h
    case isFalse henough =>
      cases h
      exact ⟨[], .nil drop ⟨fun _ => not_lt.mp henough, fun _ => rfl⟩ fun h => (nomatch h)⟩
    case isTrue hshort =>
      cases hvictim : shared.victim worker with
      | none =>
        rw [hvictim] at h
        cases h
        exact ⟨[], .nil drop ⟨fun h => (nomatch h), fun h => absurd h (not_le.mpr hshort)⟩
          fun _ _ _ hheld => victim_eq_none hvictim hheld⟩
      | some entry =>
        rw [hvictim] at h
        obtain ⟨removed, hr⟩ := ih h
        exact ⟨_, .cons hshort hvictim hr⟩

/-! ### With shares of snapshots -/

/-- The shares that the entries hold. -/
def shares (shared : SharedSnapshots ℕ) : Multiset ℕ :=
  Multiset.ofList (shared.entries.entries.map fun entry => entry.2.value)

theorem shares_remove {shared : SharedSnapshots ℕ} {hash : BlockHash} {held : Held ℕ}
    (h : shared.entries.lookup hash = some held) :
    shared.shares = held.value ::ₘ (shared.remove hash).shares := by
  obtain ⟨before, after, hentries, hremove⟩ := entries_remove h
  rw [shares, shares, hentries, hremove, List.map_append, List.map_cons, List.map_append]
  exact Multiset.coe_eq_coe.mpr List.perm_middle

open Leases

/-- The free leases of a worker's arena. -/
def available (worker : WorkerId) (heap : Heap) : ℕ := heap.free worker

/-- A reclaim keeps the count of the shares there are. -/
theorem reclaimFor_counted {F : Family} {capacity : ℕ → ℕ} {elsewhere : Multiset ℕ}
    {worker : WorkerId} {reserve turns : ℕ} :
    ∀ {shared shared' : SharedSnapshots ℕ} {heap heap' : Heap} {room : Bool} {alive : Finset ℕ},
      Counted F capacity (shared.shares + elsewhere) alive heap →
      reclaimFor (available worker) (drop F) worker reserve turns shared heap =
          some (room, shared', heap') →
        ∃ alive' ⊆ alive, Counted F capacity (shared'.shares + elsewhere) alive' heap' := by
  induction turns with
  | zero => exact fun _ h => nomatch h
  | succ turns ih =>
    intro shared shared' heap heap' room alive hc h
    rw [reclaimFor] at h
    split at h
    case isFalse =>
      cases h
      exact ⟨alive, Finset.Subset.refl _, hc⟩
    case isTrue =>
      cases hvictim : shared.victim worker with
      | none =>
        rw [hvictim] at h
        cases h
        exact ⟨alive, Finset.Subset.refl _, hc⟩
      | some entry =>
        obtain ⟨hash, held⟩ := entry
        rw [hvictim] at h
        rw [shares_remove (victim_eq_some hvictim).1, Multiset.cons_add] at hc
        obtain ⟨alive', hsub, hc'⟩ := hc.drop
        obtain ⟨alive'', hsub', hc''⟩ := ih hc' h
        exact ⟨alive'', hsub'.trans hsub, hc''⟩

/-- A reclaim ends, does what it promises, and leaves every lease free or with a snapshot that a
share reaches.  Of what the calls make it drops only entries used before those of the worker that
stay. -/
theorem reclaim_for_contract (F : Family) (worker : WorkerId) (reserve : ℕ)
    (shared : SharedSnapshots ℕ) (heap : Heap) :
    ∃ room shared' heap' removed,
      (∃ enough, ∀ turns ≥ enough, reclaimFor (available worker) (drop F) worker reserve turns
        shared heap = some (room, shared', heap')) ∧
      Reclaimed (available worker) (drop F) worker reserve shared heap removed room shared' heap' ∧
      (shared.Made → ∀ entry ∈ removed, ∀ hash held, shared'.entries.lookup hash = some held →
        held.worker = worker → entry.2.lastUsed < held.lastUsed) ∧
      ∀ capacity elsewhere alive, Counted F capacity (shared.shares + elsewhere) alive heap →
        ∃ alive' : Finset ℕ, (∀ i, i ∈ alive' ↔ Reaches F (shared'.shares + elsewhere) i) ∧
          ∀ arena, heap'.free arena + (alive'.filter fun i => F.arena i = arena).card =
            capacity arena := by
  obtain ⟨⟨room, shared', heap'⟩, hend⟩ := reclaimFor_ends (available worker) (drop F) worker
    reserve (Nat.lt_succ_self (shared.ofWorker worker))
  obtain ⟨removed, hreclaimed⟩ := reclaimFor_reclaimed hend
  refine ⟨room, shared', heap', removed, ⟨shared.ofWorker worker + 1, fun turns hturns => ?_⟩,
    hreclaimed, fun hmade entry hentry hash held => hreclaimed.before hmade.stamped hentry,
    fun capacity elsewhere alive hc => ?_⟩
  · induction turns, hturns using Nat.le_induction with
    | base => exact hend
    | succ turns _ ih => exact reclaimFor_succ _ _ _ _ ih
  · obtain ⟨alive', -, hc'⟩ := reclaimFor_counted hc hend
    exact ⟨alive', fun i => hc'.mem_alive_iff, hc'.free⟩

end SharedSnapshots
