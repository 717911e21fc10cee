/-
Hash chains: every element of a sequence is named by a hash of its
predecessor's name and itself.

`chainHash` is the name of a whole sequence, `chainHashes` lists the names of
its nonempty prefixes.  No two sequences of a set share a name if the set is
`CollisionFree`; a name then has one predecessor (`CollisionFree.concat_inj`)
and is not the root's (`CollisionFree.ne_root`).
-/
import Mathlib.Tactic

section HashChain

variable {H α : Type} (f : H → α → H) (root : H)

/-- The hash of a word, chained from the root. -/
def chainHash (xs : List α) : H := xs.foldl f root

/-- The names along a sequence, from the one it starts at. -/
def chainHashes : H → List α → List H
  | _, [] => []
  | h, x :: xs => f h x :: chainHashes (f h x) xs

/-- The sequences in use, closed under prefixes, have names of their own. -/
structure CollisionFree (U : Set (List α)) : Prop where
  nil_mem : [] ∈ U
  of_concat : ∀ {xs : List α} {x : α}, xs ++ [x] ∈ U → xs ∈ U
  injOn : Set.InjOn (chainHash f root) U

variable {f root}

@[simp] theorem chainHash_nil : chainHash f root [] = root := rfl

@[simp] theorem chainHash_concat (xs : List α) (x : α) :
    chainHash f root (xs ++ [x]) = f (chainHash f root xs) x := by
  rw [chainHash, List.foldl_append]
  rfl

theorem chainHashes_length : ∀ (h : H) (xs : List α), (chainHashes f h xs).length = xs.length
  | _, [] => rfl
  | h, x :: xs => congrArg (· + 1) (chainHashes_length (f h x) xs)

theorem chainHashes_append :
    ∀ (h : H) (xs ys : List α),
      chainHashes f h (xs ++ ys) = chainHashes f h xs ++ chainHashes f (chainHash f h xs) ys := by
  intro h xs
  induction xs generalizing h with
  | nil => exact fun _ => rfl
  | cons x xs ih =>
    intro ys
    rw [List.cons_append, chainHashes, ih, chainHashes, List.cons_append]
    rfl

theorem chainHashes_concat (xs : List α) (x : α) :
    chainHashes f root (xs ++ [x])
      = chainHashes f root xs ++ [chainHash f root (xs ++ [x])] := by
  rw [chainHashes_append, chainHash_concat]
  rfl

/-- The names of a sequence are those of its nonempty prefixes. -/
theorem mem_chainHashes {xs : List α} {h : H} :
    h ∈ chainHashes f root xs ↔ ∃ n < xs.length, h = chainHash f root (xs.take (n + 1)) := by
  induction xs using List.reverseRecOn with
  | nil => simp [chainHashes]
  | append_singleton xs x ih =>
    rw [chainHashes_concat, List.mem_append, List.mem_singleton, ih, List.length_append,
      List.length_singleton]
    constructor
    · rintro (⟨n, hn, rfl⟩ | rfl)
      · exact ⟨n, by omega, by rw [List.take_append_of_le_length hn]⟩
      · exact ⟨xs.length, Nat.lt_succ_self _, by rw [List.take_of_length_le (by simp)]⟩
    · rintro ⟨n, hn, rfl⟩
      rcases Nat.lt_succ_iff_lt_or_eq.mp hn with hn | rfl
      · exact Or.inl ⟨n, hn, by rw [List.take_append_of_le_length hn]⟩
      · exact Or.inr (by rw [List.take_of_length_le (by simp)])

theorem getLast?_chainHashes (xs : List α) :
    (chainHashes f root xs).getLast?.getD root = chainHash f root xs := by
  induction xs using List.reverseRecOn with
  | nil => rfl
  | append_singleton xs x _ =>
    rw [chainHashes_concat, List.getLast?_append, List.getLast?_singleton]
    rfl

theorem chainHashes_take (h : H) (xs : List α) (k : ℕ) :
    chainHashes f h (xs.take k) = (chainHashes f h xs).take k := by
  induction xs generalizing h k with
  | nil => rw [List.take_nil, chainHashes, List.take_nil]
  | cons x xs ih =>
    cases k with
    | zero => rfl
    | succ k => rw [List.take_succ_cons, chainHashes, ih, chainHashes, List.take_succ_cons]

/-- With an injective step, sequences of one length have names of their own. -/
theorem chainHash_inj (hf : Function.Injective2 f) {xs ys : List α}
    (hlen : xs.length = ys.length) (h : chainHash f root xs = chainHash f root ys) : xs = ys := by
  induction xs using List.reverseRecOn generalizing ys with
  | nil => exact (List.length_eq_zero_iff.mp hlen.symm).symm
  | append_singleton xs x ih =>
    rcases List.eq_nil_or_concat' ys with rfl | ⟨ys, y, rfl⟩
    · simp at hlen
    · rw [chainHash_concat, chainHash_concat] at h
      obtain ⟨hprev, rfl⟩ := hf h
      rw [List.length_append, List.length_append] at hlen
      rw [ih (Nat.add_right_cancel hlen) hprev]

theorem chainHashes_inj (hf : Function.Injective2 f) {xs ys : List α} :
    chainHashes f root xs = chainHashes f root ys ↔ xs = ys := by
  constructor
  · intro h
    have hlen : xs.length = ys.length := by
      rw [← chainHashes_length (f := f) root xs, h, chainHashes_length]
    have hname : chainHash f root xs = chainHash f root ys := by
      rw [← getLast?_chainHashes, h, getLast?_chainHashes]
    exact chainHash_inj hf hlen hname
  · exact congrArg _

namespace CollisionFree

variable {U : Set (List α)} {xs ys : List α} {x y : α}

theorem of_append (hU : CollisionFree f root U) : ∀ {ys : List α}, xs ++ ys ∈ U → xs ∈ U := by
  intro ys
  induction ys using List.reverseRecOn with
  | nil =>
    intro h
    rwa [List.append_nil] at h
  | append_singleton ys y ih =>
    intro h
    rw [← List.append_assoc] at h
    exact ih (hU.of_concat h)

theorem take (hU : CollisionFree f root U) (h : xs ∈ U) (n : ℕ) : xs.take n ∈ U := by
  rw [← List.take_append_drop n xs] at h
  exact hU.of_append h

theorem ne_root (hU : CollisionFree f root U) (h : xs ++ [x] ∈ U) :
    chainHash f root (xs ++ [x]) ≠ root := by
  intro heq
  have hnil : xs ++ [x] = [] := hU.injOn h hU.nil_mem heq
  exact List.append_ne_nil_of_right_ne_nil xs (List.cons_ne_nil x []) hnil

/-- One name, one predecessor. -/
theorem concat_inj (hU : CollisionFree f root U) (hx : xs ++ [x] ∈ U) (hy : ys ++ [y] ∈ U)
    (heq : chainHash f root (xs ++ [x]) = chainHash f root (ys ++ [y])) : xs = ys ∧ x = y := by
  have h := hU.injOn hx hy heq
  exact List.append_singleton_inj.mp h

theorem eq_nil (hU : CollisionFree f root U) (h : xs ∈ U) (heq : chainHash f root xs = root) :
    xs = [] := hU.injOn h hU.nil_mem heq

/-- An injective step that never names the root names every sequence apart. -/
theorem of_injective2 (hf : Function.Injective2 f) (hroot : ∀ h x, f h x ≠ root) :
    CollisionFree f root Set.univ where
  nil_mem := Set.mem_univ _
  of_concat _ := Set.mem_univ _
  injOn := by
    intro xs _ ys _ heq
    induction xs using List.reverseRecOn generalizing ys with
    | nil =>
      rcases List.eq_nil_or_concat' ys with rfl | ⟨ys, y, rfl⟩
      · rfl
      · rw [chainHash_concat, chainHash_nil] at heq
        exact absurd heq.symm (hroot _ _)
    | append_singleton xs x ih =>
      rcases List.eq_nil_or_concat' ys with rfl | ⟨ys, y, rfl⟩
      · rw [chainHash_concat, chainHash_nil] at heq
        exact absurd heq (hroot _ _)
      · rw [chainHash_concat, chainHash_concat] at heq
        obtain ⟨hprev, rfl⟩ := hf heq
        rw [ih (Set.mem_univ _) (Set.mem_univ _) hprev]

end CollisionFree

end HashChain
