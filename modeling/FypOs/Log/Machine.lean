import FypOs.Bio.Cache
import FypOs.Log.Header

/-!
# Log — the kernel around `kernel/log.c`

`State` is the part of the kernel the log works on: the buffer cache and its users, the disk, and
`struct log`.  Processes of a type `P` run FS operations: between `begin_op` and `end_op` a process
reads blocks, modifies them and passes them to `log_write`.  The process whose `end_op` leaves no
operation outstanding runs `commit`; after a crash one process runs `recover_from_log` before any
other runs.  `com` is the process inside `commit` or `recover_from_log`, with the point it has
reached (`Ctl`).

`step` executes one critical section, or one disk transfer, of one process.  A whole-block write to
the disk is one step.  A crash may come between any two steps; it leaves only the disk.
-/

namespace FypOs.Log
open Lib Bio

/-- The log's place on the disk, from the superblock: `log.start` and `log.size`. -/
structure Sb where
  logstart : Nat
  nlog : Nat

/-- The points of `commit` and `recover_from_log`.  `tail` is the loop variable, `rec` the
argument `recovering` of `install_trans`, and `erase` tells the second call of `write_head`. -/
inductive Ctl where
  /-- The test `log.lh.n > 0` of `commit`. -/
  | start
  /-- `write_log`: the loop test, and the `bread` of the log block. -/
  | writeLog (tail : Nat)
  /-- The `bread` of the cached block. -/
  | writeLogFrom (tail : Nat)
  /-- `memmove` and `bwrite(to)`. -/
  | writeLogCopy (tail : Nat)
  | writeLogRelFrom (tail : Nat)
  | writeLogRelTo (tail : Nat)
  /-- `write_head`: the `bread` of the header block. -/
  | writeHead (erase : Bool)
  | writeHeadPut (erase : Bool)
  | writeHeadRel (erase : Bool)
  /-- `install_trans`: the loop test, the `bread` of the log block, and `log.lh.n = 0` at the end. -/
  | install (rec : Bool) (tail : Nat)
  /-- The `bread` of the home block. -/
  | installDst (rec : Bool) (tail : Nat)
  /-- `memmove` and `bwrite(dbuf)`. -/
  | installCopy (rec : Bool) (tail : Nat)
  | installUnpin (rec : Bool) (tail : Nat)
  | installRelSrc (rec : Bool) (tail : Nat)
  | installRelDst (rec : Bool) (tail : Nat)
  /-- `read_head`: the `bread` of the header block. -/
  | readHead
  | readHeadGet
  | readHeadRel
  /-- Back in `end_op` or `initlog`. -/
  | finish
  deriving DecidableEq

/-- The kernel state the log works on.  `op p` tells whether `p` is between `begin_op` and
`end_op`, and how many block numbers its `log_write`s have added to the header since; `booting`
holds until `recover_from_log` is done. -/
structure State (P : Type) where
  cache : Cache P
  disk : Nat → Block
  outstanding : ℤ
  committing : Bool
  lh : List Nat
  op : P → Option Nat
  com : Option (P × Ctl)
  booting : Bool

inductive Event (P : Type) where
  | beginOp (p : P)
  | bread (p : P) (blockno : Nat)
  | acquire (p : P)
  | fill (p : P)
  | logWrite (p : P) (i : Fin NBUF) (data : Block)
  | brelse (p : P) (i : Fin NBUF)
  | unref (p : P)
  | endOp (p : P)
  | commit
  | crash (p : P)

namespace State

variable {P : Type} [DecidableEq P]

/-- `p` is the process inside `commit` or `recover_from_log`. -/
def isCom (s : State P) (p : P) : Prop := s.com.map Prod.fst = some p

instance (s : State P) (p : P) : Decidable (s.isCom p) :=
  inferInstanceAs (Decidable (_ = _))

/-- `p` is free to begin a step of its own: it is not inside `bread` or `brelse`, and neither
committing nor waiting for the system to come up. -/
def ready (s : State P) (p : P) : Prop :=
  s.booting = false ∧ ¬ s.isCom p ∧ (s.cache.thr p).pend = .idle

instance (s : State P) (p : P) : Decidable (s.ready p) :=
  inferInstanceAs (Decidable (_ ∧ _ ∧ _))

/-- `begin_op`.  A process that has to sleep tests again later. -/
def beginOp (s : State P) (p : P) : Outcome (State P) :=
  if s.ready p ∧ s.op p = none then
    if s.committing then .blocked
    else if (s.lh.length : ℤ) + (s.outstanding + 1) * MAXOPBLOCKS > LOGSIZE then .blocked
    else .ok { s with outstanding := s.outstanding + 1, op := Function.update s.op p (some 0) }
  else .blocked

/-- The cache after a process has stored `data` in `b->data`. -/
def stored (s : State P) (i : Fin NBUF) (data : Block) : Bcache P :=
  s.cache.bc.modify i fun b => { b with data := data }

/-- `log_write(b)`, after the caller has stored `data` in `b->data`. -/
def logWrite (sb : Sb) (s : State P) (p : P) (i : Fin NBUF) (data : Block) : Outcome (State P) :=
  match s.op p with
  | none => .blocked
  | some used =>
    if s.ready p ∧ i ∈ (s.cache.thr p).held then
      if s.lh.length ≥ LOGSIZE ∨ (s.lh.length : ℤ) ≥ (sb.nlog : ℤ) - 1 then
        .panic "too big a transaction"
      else if s.outstanding < 1 then .panic "log_write outside of trans"
      else
        let blockno := (s.cache.bc.buf i).blockno
        let k := s.lh.findIdx (· == blockno)
        if k = s.lh.length then
          .ok { s with cache := { s.cache with bc := (s.stored i data).bpin i }, lh := s.lh ++ [blockno],
                       op := Function.update s.op p (some (used + 1)) }
        else .ok { s with cache := { s.cache with bc := s.stored i data }, lh := s.lh.set k blockno }
    else .blocked

/-- `end_op` up to `commit`. -/
def endOp (s : State P) (p : P) : Outcome (State P) :=
  if s.ready p ∧ s.op p ≠ none then
    let outstanding := s.outstanding - 1
    if s.committing then .panic "log.committing"
    else if outstanding = 0 then
      .ok { s with outstanding, op := Function.update s.op p none, committing := true, com := some (p, .start) }
    else .ok { s with outstanding, op := Function.update s.op p none }
  else .blocked

/-! ### `commit` and `recover_from_log` -/

/-- What one step of `commit` or `recover_from_log` does. -/
inductive Act where
  /-- A test or a jump. -/
  | goto
  /-- `bread(log.dev, blockno)`, up to `acquiresleep`. -/
  | bread (blockno : Nat)
  /-- `brelse(b)`, up to `releasesleep`. -/
  | brelse (i : Fin NBUF)
  /-- Store `data` in `b->data` and `bwrite(b)`. -/
  | bwrite (i : Fin NBUF) (data : Block)
  | bunpin (i : Fin NBUF)
  /-- Assign `log.lh`. -/
  | setHead (lh : List Nat)
  /-- `log.committing = 0` in `end_op`, or the return from `initlog`. -/
  | finish

/-- The next step of the process inside `commit` or `recover_from_log`, and the point it then is
at.  `held` is the process's buffers, the one it read last first. -/
def plan (sb : Sb) (s : State P) (held : List (Fin NBUF)) : Ctl → Option (Act × Option Ctl)
  | .start => some (.goto, some (if s.lh.length > 0 then .writeLog 0 else .finish))
  | .writeLog t =>
    if t < s.lh.length then some (.bread (sb.logstart + t + 1), some (.writeLogFrom t))
    else some (.goto, some (.writeHead false))
  | .writeLogFrom t => s.lh[t]?.map fun b => (.bread b, some (.writeLogCopy t))
  | .writeLogCopy t =>
    match held with
    | src :: dst :: _ => some (.bwrite dst (s.cache.bc.buf src).data, some (.writeLogRelFrom t))
    | _ => none
  | .writeLogRelFrom t => held.head?.map fun src => (.brelse src, some (.writeLogRelTo t))
  | .writeLogRelTo t => held.head?.map fun dst => (.brelse dst, some (.writeLog (t + 1)))
  | .writeHead e => some (.bread sb.logstart, some (.writeHeadPut e))
  | .writeHeadPut e =>
    held.head?.map fun b =>
      (.bwrite b (putHead s.lh (s.cache.bc.buf b).data), some (.writeHeadRel e))
  | .writeHeadRel e =>
    held.head?.map fun b => (.brelse b, some (if e then .finish else .install false 0))
  | .install r t =>
    if t < s.lh.length then some (.bread (sb.logstart + t + 1), some (.installDst r t))
    else some (.setHead [], some (.writeHead true))
  | .installDst r t => s.lh[t]?.map fun b => (.bread b, some (.installCopy r t))
  | .installCopy r t =>
    match held with
    | dst :: src :: _ => some (.bwrite dst (s.cache.bc.buf src).data, some (.installUnpin r t))
    | _ => none
  | .installUnpin r t =>
    held.head?.map fun dst => (if r then .goto else .bunpin dst, some (.installRelSrc r t))
  | .installRelSrc r t =>
    match held with
    | _ :: src :: _ => some (.brelse src, some (.installRelDst r t))
    | _ => none
  | .installRelDst r t => held.head?.map fun dst => (.brelse dst, some (.install r (t + 1)))
  | .readHead => some (.bread sb.logstart, some .readHeadGet)
  | .readHeadGet =>
    held.head?.map fun b => (.setHead (getHead (s.cache.bc.buf b).data), some .readHeadRel)
  | .readHeadRel => held.head?.map fun b => (.brelse b, some (.install true 0))
  | .finish => some (.finish, none)

/-- The effect of a step of process `p` inside `commit` or `recover_from_log`. -/
def exec (s : State P) (p : P) : Act → Outcome (State P)
  | .goto => .ok s
  | .bread blockno => (s.cache.bget p ROOTDEV blockno).map fun cache => { s with cache }
  | .brelse i => (s.cache.brelse p i).map fun cache => { s with cache }
  | .bwrite i data =>
    if (s.cache.bc.buf i).lock = some p then
      .ok { s with
        cache := { s.cache with bc := s.stored i data },
        disk := Function.update s.disk (s.cache.bc.buf i).blockno data }
    else .panic "bwrite"
  | .bunpin i => .ok { s with cache := { s.cache with bc := s.cache.bc.bunpin i } }
  | .setHead lh => .ok { s with lh }
  | .finish => .ok { s with committing := false, booting := false }

/-- One step of the process inside `commit` or `recover_from_log`. -/
def commit (sb : Sb) (s : State P) : Outcome (State P) :=
  match s.com with
  | none => .blocked
  | some (p, c) =>
    if (s.cache.thr p).pend = .idle then
      match s.plan sb (s.cache.thr p).held c with
      | none => .blocked
      | some (a, c') => (s.exec p a).map fun s' => { s' with com := c'.map (p, ·) }
    else .blocked

/-- The system after a power failure, with `p` about to run `recover_from_log`. -/
def reboot (disk : Nat → Block) (p : P) : State P where
  cache := .init
  disk := disk
  outstanding := 0
  committing := false
  lh := []
  op _ := none
  com := some (p, .readHead)
  booting := true

/-- The system with the file system up, before the first FS operation. -/
def init (disk : Nat → Block) : State P where
  cache := .init
  disk := disk
  outstanding := 0
  committing := false
  lh := []
  op _ := none
  com := none
  booting := false

def step (sb : Sb) (s : State P) : Event P → Outcome (State P)
  | .beginOp p => s.beginOp p
  | .bread p blockno =>
    if s.ready p then (s.cache.bget p ROOTDEV blockno).map fun cache => { s with cache }
    else .blocked
  | .acquire p => (s.cache.acquire p).map fun cache => { s with cache }
  | .fill p => (s.cache.fill p s.disk).map fun cache => { s with cache }
  | .logWrite p i data => s.logWrite sb p i data
  | .brelse p i =>
    if s.ready p then (s.cache.brelse p i).map fun cache => { s with cache }
    else .blocked
  | .unref p => (s.cache.unref p).map fun cache => { s with cache }
  | .endOp p => s.endOp p
  | .commit => s.commit sb
  | .crash p => .ok (reboot s.disk p)

end State

end FypOs.Log
