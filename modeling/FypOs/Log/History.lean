import FypOs.Log.Pin
import FypOs.Lib.Redo

/-!
# Log — the history of a run

`Hist` records what the file system has asked the log for since the system came up: the writes of
each transaction, in the order of the `log_write` calls, each with the number of the FS operation
that made it.  The writes `log_write` has taken since the last commit began are the current
transaction; the `end_op` that starts the commit closes it.  `view` is what the disk is to become:
the home blocks the system came up with, and every write since.
-/

namespace FypOs.Log
open Lib Bio

/-- A `log_write` by FS operation `op`. -/
structure Write where
  op : Nat
  blockno : Nat
  data : Block

def Write.entry (w : Write) : Nat × Block := (w.blockno, w.data)

/-- The transactions since the system came up.  `base` is the disk it came up with, `txns` the
transactions whose commit has begun, the oldest first, `returned` the number of commits that have
returned, `cur` the transaction being collected; `opid p` is the number of the operation `p` began
last and `next` the number of the next one. -/
structure Hist (P : Type) where
  base : Nat → Block
  txns : List (List Write)
  cur : List Write
  returned : Nat
  opid : P → Nat
  next : Nat

variable {P : Type} {sb : Sb}

namespace Hist

/-- Blocks after the first `k` transactions. -/
def after (h : Hist P) (k : Nat) : Nat → Block :=
  writeAll h.base ((h.txns.take k).flatten.map Write.entry)

/-- Blocks after every `log_write`. -/
def view (h : Hist P) : Nat → Block :=
  writeAll h.base ((h.txns.flatten ++ h.cur).map Write.entry)

/-- A history that begins with the disk `base`. -/
def start (base : Nat → Block) : Hist P :=
  { base, txns := [], cur := [], returned := 0, opid := fun _ => 0, next := 0 }

/-- The history after event `e` in state `s`. -/
def step [DecidableEq P] (s : State P) (h : Hist P) : Event P → Hist P
  | .beginOp p => { h with opid := Function.update h.opid p h.next, next := h.next + 1 }
  | .logWrite p i data =>
    { h with cur := h.cur ++ [⟨h.opid p, (s.cache.bc.buf i).blockno, data⟩] }
  | .endOp _ =>
    -- the last operation outstanding: its `end_op` goes on to `commit`
    if s.outstanding = 1 then { h with txns := h.txns ++ [h.cur], cur := [] } else h
  | .commit =>
    match s.com with
    -- `commit` returns: it has nothing to do, or its last `write_head` is done
    | some (_, .start) => if s.lh = [] then { h with returned := h.txns.length } else h
    | some (_, .writeHeadRel true) =>
      if s.booting then h else { h with returned := h.txns.length }
    -- the system is up
    | some (_, .finish) =>
      if s.booting then { h with base := s.disk, txns := [], cur := [], returned := 0 } else h
    | _ => h
  | .bread .. | .acquire _ | .fill _ | .brelse .. | .unref _ | .crash _ => h

lemma after_start (base : Nat → Block) (k : Nat) : (start base : Hist P).after k = base := by
  unfold after start
  simp

lemma view_concat (h : Hist P) (w : Write) :
    view { h with cur := h.cur ++ [w] } = Function.update h.view w.blockno w.data := by
  unfold view
  rw [← List.append_assoc, List.map_append]
  exact writeAll_concat _ _ _

lemma view_close (h : Hist P) : view { h with txns := h.txns ++ [h.cur], cur := [] } = h.view := by
  unfold view
  simp

/-- Blocks after all transactions, when no other is being collected. -/
lemma after_length (h : Hist P) (hc : h.cur = []) : h.after h.txns.length = h.view := by
  unfold after view
  simp [hc]

end Hist

/-- The machine with its history. -/
structure Recorded (P : Type) where
  st : State P
  hist : Hist P

namespace Recorded

variable [DecidableEq P]

def step (sb : Sb) (t : Recorded P) (e : Event P) : Outcome (Recorded P) :=
  (t.st.step sb e).map fun st => ⟨st, t.hist.step t.st e⟩

/-- The system with the file system up, before the first FS operation. -/
def init (disk : Nat → Block) : Recorded P := ⟨.init disk, .start disk⟩

lemma step_ok {t t' : Recorded P} {e : Event P} (h : t.step sb e = .ok t') :
    t.st.step sb e = .ok t'.st ∧ t'.hist = t.hist.step t.st e := by
  obtain ⟨st, hs, rfl⟩ := Outcome.map_eq_ok h
  exact ⟨hs, rfl⟩

end Recorded

end FypOs.Log
