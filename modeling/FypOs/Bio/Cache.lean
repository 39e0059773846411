import FypOs.Lib.Ring
import FypOs.Lib.Runs
import FypOs.Param

/-!
# Bio — the buffer cache of `kernel/bio.c`

`Bcache` is the cache: the `NBUF` buffers, and the pointers `next` and `prev` through which they
and `bcache.head` are linked.  `bget`, `unref` (the part of `brelse` under `bcache.lock`), `bpin`
and `bunpin` are its critical sections; `binit` is its initial state.

A process goes through `bread` and `brelse` in several critical sections, between which other
processes run.  `Thread` records how far it is.
-/

namespace FypOs.Bio
open Lib Function

scoped instance (priority := 2000) lawfulBuf : LawfulBEq (Fin NBUF) := inferInstance

/-- A pointer into the list of buffers; `none` is `&bcache.head`. -/
abbrev BufPtr := Option (Fin NBUF)

/-- `struct buf`, without its links.  `lock` is the process that holds the sleep-lock. -/
structure Buf (P : Type) where
  valid : Bool
  dev : Nat
  blockno : Nat
  lock : Option P
  refcnt : Nat
  data : Block

/-- The buffer cache.  `next` and `prev` are the links of the buffers and of `bcache.head`. -/
structure Bcache (P : Type) where
  buf : Fin NBUF → Buf P
  next : BufPtr → BufPtr
  prev : BufPtr → BufPtr

variable {P : Type}

namespace Bcache

/-- Change buffer `i`. -/
def modify (c : Bcache P) (i : Fin NBUF) (f : Buf P → Buf P) : Bcache P :=
  { c with buf := update c.buf i (f (c.buf i)) }

/-- Link buffer `b` behind `bcache.head`. -/
def pushFront (c : Bcache P) (b : Fin NBUF) : Bcache P :=
  let next := update c.next (some b) (c.next none)
  let prev := update c.prev (some b) none
  let prev := update prev (next none) (some b)
  let next := update next none (some b)
  { c with next, prev }

/-- Take buffer `b` out of the list: `b->next->prev = b->prev; b->prev->next = b->next`. -/
def unlink (c : Bcache P) (b : Fin NBUF) : Bcache P :=
  let prev := update c.prev (c.next (some b)) (c.prev (some b))
  let next := update c.next (prev (some b)) (c.next (some b))
  { c with next, prev }

/-- The cache in zeroed memory, with `bcache.head` pointing at itself. -/
def zeroed : Bcache P where
  buf _ := { valid := false, dev := 0, blockno := 0, lock := none, refcnt := 0, data := fun _ => 0 }
  next _ := none
  prev _ := none

/-- `binit`: link every buffer, in the order of the array. -/
def binit : Bcache P := (List.finRange NBUF).foldl pushFront zeroed

/-- The buffers met by `for(b = head.next; b != &head; b = b->next)`. -/
def forward (c : Bcache P) : List (Fin NBUF) := walk c.next NBUF (c.next none)

/-- The buffers met by `for(b = head.prev; b != &head; b = b->prev)`. -/
def backward (c : Bcache P) : List (Fin NBUF) := walk c.prev NBUF (c.prev none)

/-- `bget` up to `acquiresleep`: the block's buffer with its count raised, or else the least
recently used unused buffer, made to hold the block.  `none` is the panic `bget: no buffers`. -/
def bget (c : Bcache P) (dev blockno : Nat) : Option (Bcache P × Fin NBUF) :=
  match c.forward.find? fun i => (c.buf i).dev = dev ∧ (c.buf i).blockno = blockno with
  | some i => some (c.modify i fun b => { b with refcnt := uinc b.refcnt }, i)
  | none =>
    match c.backward.find? fun i => (c.buf i).refcnt = 0 with
    | some i =>
      some (c.modify i fun b => { b with dev := dev, blockno := blockno, valid := false, refcnt := 1 }, i)
    | none => none

/-- `brelse` after `releasesleep`: drop the reference, and move a buffer nobody uses any more to
the front of the list. -/
def unref (c : Bcache P) (i : Fin NBUF) : Bcache P :=
  let c := c.modify i fun b => { b with refcnt := udec b.refcnt }
  if (c.buf i).refcnt = 0 then (c.unlink i).pushFront i else c

def bpin (c : Bcache P) (i : Fin NBUF) : Bcache P :=
  c.modify i fun b => { b with refcnt := uinc b.refcnt }

def bunpin (c : Bcache P) (i : Fin NBUF) : Bcache P :=
  c.modify i fun b => { b with refcnt := udec b.refcnt }

end Bcache

/-- What a process is doing with a buffer inside `bread` or `brelse`: nothing, waiting for the
sleep-lock in `bget`, holding the lock before `bread` returns, or past `releasesleep` in
`brelse`. -/
inductive Pend where
  | idle
  | waiting (i : Fin NBUF)
  | locked (i : Fin NBUF)
  | releasing (i : Fin NBUF)
  deriving DecidableEq

/-- The buffers of a process: those its calls of `bread` have returned and `brelse` has not taken
back, the latest first, and the one it is acquiring or releasing. -/
structure Thread where
  pend : Pend
  held : List (Fin NBUF)

/-- A process that uses no buffer. -/
def Thread.start : Thread := { pend := .idle, held := [] }

/-- The buffer cache with the processes that use it. -/
structure Cache (P : Type) where
  bc : Bcache P
  thr : P → Thread

namespace Cache

variable [DecidableEq P]

/-- The cache after `binit`, used by nobody. -/
def init : Cache P := { bc := .binit, thr := fun _ => .start }

/-- `bget` up to `acquiresleep`, called by `p`. -/
def bget (s : Cache P) (p : P) (dev blockno : Nat) : Outcome (Cache P) :=
  if (s.thr p).pend = .idle then
    match s.bc.bget dev blockno with
    | some (bc, i) => .ok { bc, thr := update s.thr p { pend := .waiting i, held := (s.thr p).held } }
    | none => .panic "bget: no buffers"
  else .blocked

/-- `acquiresleep` in `bget` returns: the lock was free and is now `p`'s. -/
def acquire (s : Cache P) (p : P) : Outcome (Cache P) :=
  match (s.thr p).pend with
  | .waiting i =>
    if (s.bc.buf i).lock = none then
      .ok { bc := s.bc.modify i fun b => { b with lock := some p },
            thr := update s.thr p { pend := .locked i, held := (s.thr p).held } }
    else .blocked
  | _ => .blocked

/-- The rest of `bread`: read the block from the disk if the buffer is not valid, and return. -/
def fill (s : Cache P) (p : P) (disk : Nat → Block) : Outcome (Cache P) :=
  match (s.thr p).pend with
  | .locked i =>
    .ok { bc := if (s.bc.buf i).valid then s.bc
            else s.bc.modify i fun b => { b with data := disk b.blockno, valid := true },
          thr := update s.thr p { pend := .idle, held := i :: (s.thr p).held } }
  | _ => .blocked

/-- `brelse(b)` up to `releasesleep`. -/
def brelse (s : Cache P) (p : P) (i : Fin NBUF) : Outcome (Cache P) :=
  if (s.thr p).pend = .idle ∧ i ∈ (s.thr p).held then
    if (s.bc.buf i).lock = some p then
      .ok { bc := s.bc.modify i fun b => { b with lock := none }, thr := update s.thr p
              { pend := .releasing i, held := (s.thr p).held.erase i } }
    else .panic "brelse"
  else .blocked

/-- The rest of `brelse`, under `bcache.lock`. -/
def unref (s : Cache P) (p : P) : Outcome (Cache P) :=
  match (s.thr p).pend with
  | .releasing i =>
    .ok { bc := s.bc.unref i, thr := update s.thr p { pend := .idle, held := (s.thr p).held } }
  | _ => .blocked

end Cache

end FypOs.Bio
