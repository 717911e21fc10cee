/-
The block allocator of one cache group (`xabe-cache/src/pool.rs`).

A pool hands out the blocks of its free list from the top, and puts what comes
back on top again.  Its label and page size serve diagnostics only and are left
out.
-/
import Mathlib.Tactic

/-- The index of a block in its arena. -/
abbrev BlockId := ℕ

/-- The free list of a fixed arena. -/
structure BlockPool where
  total : ℕ
  /-- The free list, top first. -/
  free : List BlockId
  deriving DecidableEq, Repr

namespace BlockPool

/-- All blocks start free. -/
def new (totalBlocks : ℕ) : BlockPool := ⟨totalBlocks, List.range totalBlocks⟩

/-- Take one free block. -/
def alloc (pool : BlockPool) : Option (BlockId × BlockPool) :=
  match pool.free with
  | [] => none
  | id :: free => some (id, { pool with free })

/-- Take `n` free blocks after those in `out`, or none at all. -/
def allocInto (n : ℕ) (out : List BlockId) (pool : BlockPool) :
    Option (List BlockId × BlockPool) :=
  if pool.free.length < n then none
  else some (out ++ pool.free.take n, { pool with free := pool.free.drop n })

/-- Return a block. -/
def freeBlock (pool : BlockPool) (id : BlockId) : BlockPool :=
  { pool with free := id :: pool.free }

/-- Return many blocks, in order. -/
def freeBlocks (ids : List BlockId) (pool : BlockPool) : BlockPool := ids.foldl freeBlock pool

/-- How many blocks are free. -/
def freeCount (pool : BlockPool) : ℕ := pool.free.length

theorem freeBlocks_free (pool : BlockPool) (ids : List BlockId) :
    pool.freeBlocks ids = { pool with free := ids.reverse ++ pool.free } := by
  induction ids generalizing pool with
  | nil => rfl
  | cons id ids ih =>
    rw [freeBlocks, List.foldl_cons, ← freeBlocks, ih, freeBlock, List.reverse_cons,
      List.append_assoc]
    rfl

end BlockPool
