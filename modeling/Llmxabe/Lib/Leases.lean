/-
Cells shared by counting, each with a lease of an arena and maybe a share of an older cell.

Dropping the last share of a cell gives its lease back, and then its share of the
older cell.  `Counted` says that the counts are the shares there are: handles, and
cells alive.  `drop` keeps it (`Counted.drop`), and a cell is alive exactly if a
handle reaches it (`Counted.mem_alive_iff`).
-/
import Mathlib.Data.Finset.Card
import Mathlib.Data.Multiset.Count
import Mathlib.Logic.Relation
import Mathlib.Tactic

namespace Leases

/-- What the cells hold; a cell is made after the one it shares. -/
structure Family where
  parent : ℕ → Option ℕ
  arena : ℕ → ℕ
  older : ∀ {i j}, parent i = some j → j < i

/-- The shares of every cell, and the free leases of every arena. -/
structure Heap where
  strong : ℕ → ℕ
  free : ℕ → ℕ

variable (F : Family)

/-- One share less of a cell, and of what goes with it, down to some depth. -/
def release : ℕ → ℕ → Heap → Heap
  | 0, _, h => h
  | depth + 1, i, h =>
    let strong := Function.update h.strong i (h.strong i - 1)
    if h.strong i - 1 = 0 then
      let free := Function.update h.free (F.arena i) (h.free (F.arena i) + 1)
      match F.parent i with
      | none => ⟨strong, free⟩
      | some j => release depth j ⟨strong, free⟩
    else ⟨strong, h.free⟩

/-- One share less of a cell. -/
def drop (i : ℕ) (h : Heap) : Heap := release F (i + 1) i h

/-- A handle reaches the cells that it shares, directly or through others. -/
def Reaches (handles : Multiset ℕ) (i : ℕ) : Prop :=
  ∃ root ∈ handles, Relation.ReflTransGen (fun c p => F.parent c = some p) root i

/-- The counts are the handles and the cells alive, and every lease is free or with a cell alive. -/
structure Counted (capacity : ℕ → ℕ) (handles : Multiset ℕ) (alive : Finset ℕ) (h : Heap) :
    Prop where
  strong : ∀ i, h.strong i = handles.count i + (alive.filter fun c => F.parent c = some i).card
  mem : ∀ i, i ∈ alive ↔ 0 < h.strong i
  free : ∀ a, h.free a + (alive.filter fun i => F.arena i = a).card = capacity a

variable {F}

namespace Counted

variable {capacity : ℕ → ℕ} {handles : Multiset ℕ} {alive : Finset ℕ} {h : Heap} {i : ℕ}

theorem mem_of_handle (hc : Counted F capacity handles alive h) (hi : i ∈ handles) : i ∈ alive := by
  rw [hc.mem, hc.strong]
  exact Nat.add_pos_left (Multiset.count_pos.mpr hi) _

theorem mem_of_parent (hc : Counted F capacity handles alive h) {c : ℕ} (halive : c ∈ alive)
    (hparent : F.parent c = some i) : i ∈ alive := by
  rw [hc.mem, hc.strong]
  exact Nat.add_pos_right _ (Finset.card_pos.mpr ⟨c, Finset.mem_filter.mpr ⟨halive, hparent⟩⟩)

/-- A cell is alive exactly if a handle reaches it. -/
theorem mem_alive_iff (hc : Counted F capacity handles alive h) :
    i ∈ alive ↔ Reaches F handles i := by
  constructor
  · intro hi
    -- children are younger, so going up them ends
    induction hk : alive.sup id - i using Nat.strong_induction_on generalizing i with
    | _ k ih =>
      subst hk
      have hpos := (hc.mem i).mp hi
      rw [hc.strong] at hpos
      rcases Nat.add_pos_iff_pos_or_pos.mp hpos with hhandle | hchild
      · exact ⟨i, Multiset.count_pos.mp hhandle, .refl⟩
      · obtain ⟨c, hmem⟩ := Finset.card_pos.mp hchild
        obtain ⟨halive, hparent⟩ := Finset.mem_filter.mp hmem
        have holder := F.older hparent
        have hsup : c ≤ alive.sup id := Finset.le_sup (f := id) halive
        obtain ⟨root, hroot, hpath⟩ := ih (alive.sup id - c) (by omega) halive rfl
        exact ⟨root, hroot, hpath.tail hparent⟩
  · rintro ⟨root, hroot, hpath⟩
    induction hpath with
    | refl => exact hc.mem_of_handle hroot
    | tail _ hparent ih => exact hc.mem_of_parent ih hparent

/-- A share that is not the last. -/
theorem of_shared (hc : Counted F capacity (i ::ₘ handles) alive h) (hmore : h.strong i - 1 ≠ 0) :
    Counted F capacity handles alive ⟨Function.update h.strong i (h.strong i - 1), h.free⟩ where
  strong j := by
    have hj := hc.strong j
    by_cases hij : j = i
    · subst hij
      rw [Multiset.count_cons_self] at hj
      dsimp only
      rw [Function.update_self]
      omega
    · rw [Multiset.count_cons_of_ne hij] at hj
      dsimp only
      rwa [Function.update_of_ne hij]
  mem j := by
    dsimp only
    by_cases hij : j = i
    · subst hij
      rw [hc.mem, Function.update_self]
      omega
    · rw [Function.update_of_ne hij]
      exact hc.mem j
  free := hc.free

/-- The share of an older cell that the last share of a cell leaves. -/
def left (F : Family) (i : ℕ) (handles : Multiset ℕ) : Multiset ℕ :=
  match F.parent i with
  | none => handles
  | some j => j ::ₘ handles

theorem count_left (j : ℕ) :
    (left F i handles).count j = handles.count j + if F.parent i = some j then 1 else 0 := by
  unfold left
  cases hparent : F.parent i with
  | none => rfl
  | some k =>
    dsimp only
    rw [Multiset.count_cons]
    by_cases hjk : j = k
    · rw [if_pos hjk, if_pos (congrArg some hjk.symm)]
    · rw [if_neg hjk, if_neg fun heq => hjk (Option.some.inj heq).symm]

theorem card_filter_erase (P : ℕ → Prop) [DecidablePred P] (hi : i ∈ alive) :
    ((alive.erase i).filter P).card + (if P i then 1 else 0) = (alive.filter P).card := by
  rw [Finset.filter_erase]
  split
  case isTrue hP => exact Finset.card_erase_add_one (Finset.mem_filter.mpr ⟨hi, hP⟩)
  case isFalse hP =>
    rw [Finset.erase_eq_of_notMem fun hmem => hP (Finset.mem_filter.mp hmem).2]
    exact Nat.add_zero _

/-- The last share of a cell gives the lease back and leaves the share of the older cell. -/
theorem of_last (hc : Counted F capacity (i ::ₘ handles) alive h) (hlast : h.strong i - 1 = 0) :
    Counted F capacity (left F i handles) (alive.erase i)
      ⟨Function.update h.strong i (h.strong i - 1),
        Function.update h.free (F.arena i) (h.free (F.arena i) + 1)⟩ := by
  have hi : i ∈ alive := hc.mem_of_handle (Multiset.mem_cons_self i handles)
  have hself := hc.strong i
  rw [Multiset.count_cons_self] at hself
  refine ⟨fun j => ?_, fun j => ?_, fun a => ?_⟩
  · have hj := hc.strong j
    have hcard := card_filter_erase (fun c => F.parent c = some j) hi
    rw [count_left]
    dsimp only at hcard ⊢
    by_cases hij : j = i
    · subst hij
      rw [Function.update_self]
      omega
    · rw [Multiset.count_cons_of_ne hij] at hj
      rw [Function.update_of_ne hij]
      omega
  · dsimp only
    rw [Finset.mem_erase]
    by_cases hij : j = i
    · subst hij
      rw [Function.update_self, hlast]
      exact ⟨fun hne => absurd rfl hne.1, fun hpos => absurd hpos (Nat.lt_irrefl 0)⟩
    · rw [Function.update_of_ne hij, and_iff_right hij]
      exact hc.mem j
  · have ha := hc.free a
    have hcard := card_filter_erase (fun j => F.arena j = a) hi
    dsimp only at hcard ⊢
    by_cases hia : a = F.arena i
    · subst hia
      rw [Function.update_self]
      rw [if_pos rfl] at hcard
      omega
    · rw [Function.update_of_ne hia]
      rw [if_neg fun heq => hia heq.symm] at hcard
      omega

/-- Giving back a handle keeps the count of what is left. -/
theorem release {depth : ℕ} (hc : Counted F capacity (i ::ₘ handles) alive h) (hdepth : i < depth) :
    ∃ alive' ⊆ alive, Counted F capacity handles alive' (release F depth i h) := by
  induction depth generalizing i handles alive h with
  | zero => exact absurd hdepth (Nat.not_lt_zero i)
  | succ depth ih =>
    rw [Leases.release]
    by_cases hlast : h.strong i - 1 = 0
    · simp only [if_pos hlast]
      have hleft := hc.of_last hlast
      unfold left at hleft
      cases hparent : F.parent i with
      | none =>
        rw [hparent] at hleft
        exact ⟨alive.erase i, Finset.erase_subset _ _, hleft⟩
      | some j =>
        rw [hparent] at hleft
        have holder := F.older hparent
        obtain ⟨alive', hsub, hc'⟩ := ih hleft (by omega)
        exact ⟨alive', hsub.trans (Finset.erase_subset _ _), hc'⟩
    · simp only [if_neg hlast]
      exact ⟨alive, Finset.Subset.refl _, hc.of_shared hlast⟩

theorem drop (hc : Counted F capacity (i ::ₘ handles) alive h) :
    ∃ alive' ⊆ alive, Counted F capacity handles alive' (drop F i h) :=
  hc.release (Nat.lt_succ_self i)

end Counted

end Leases
