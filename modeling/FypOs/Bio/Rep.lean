import FypOs.Bio.Cache
import FypOs.Lib.Tally
import Mathlib.Tactic.Ring

/-!
# Bio — the representation invariant of the buffer cache

The list through `bcache.head` always contains every buffer once (`Listed`), and no two buffers
carry the same `(dev, blockno)` (`Unique`).  `bget` is analysed once, by `bget_cases`: it finds the
block's buffer, or it recycles the last buffer of the list nobody uses, or every buffer is in use.
-/

namespace FypOs.Bio
open Lib List Bcache

variable {P : Type}

/-! ### The list -/

/-- The list through `bcache.head` runs through the buffers `l`, which are all buffers. -/
structure Listed (c : Bcache P) (l : List (Fin NBUF)) : Prop where
  ring : IsRing c.next c.prev l
  all : ∀ i, i ∈ l

namespace Listed

variable {c : Bcache P} {l : List (Fin NBUF)}

section

variable (h : Listed c l)

include h

lemma length_le : l.length ≤ NBUF := by
  simpa using h.ring.nodup.length_le_card

lemma forward_eq : c.forward = l :=
  h.ring.walk_nxt h.length_le

lemma backward_eq : c.backward = l.reverse :=
  h.ring.walk_prv h.length_le

lemma modify (i : Fin NBUF) (f : Buf P → Buf P) : Listed (c.modify i f) l :=
  ⟨h.ring, h.all⟩

end

end Listed

variable {c : Bcache P} {i : Fin NBUF} {l1 l2 : List (Fin NBUF)} {l : List (Fin NBUF)}

lemma ring_pushFront (h : IsRing c.next c.prev l) (hi : i ∉ l) : IsRing (c.pushFront i).next (c.pushFront i).prev (i :: l) := by
  have := h.pushFront hi
  simpa [pushFront] using this

lemma ring_unlink (h : IsRing c.next c.prev (l1 ++ i :: l2)) :
    IsRing (c.unlink i).next (c.unlink i).prev (l1 ++ l2) := by
  obtain ⟨-, h2⟩ := Seg.append_iff.mp h.seg
  -- `b->next` is not `b`, so `b->prev` survives the first assignment
  have hne : some i ≠ c.next (some i) := by
    intro e
    rcases h2.nxt_start with e' | ⟨j, hj, e'⟩
    · exact absurd (e.trans e') (by simp)
    · cases Option.some.inj (e.trans e')
      exact (nodup_cons.mp (nodup_append.mp h.nodup).2.1).1 hj
  have := h.unlink
  simpa [unlink, Function.update_of_ne hne] using this

lemma Listed.toFront (h : Listed c (l1 ++ i :: l2)) : Listed ((c.unlink i).pushFront i) (i :: (l1 ++ l2)) := by
  have hnd := nodup_append.mp h.ring.nodup
  have hi : i ∉ l1 ++ l2 := by
    rintro hm
    rcases mem_append.mp hm with hm | hm
    · exact hnd.2.2 i hm i mem_cons_self rfl
    · exact (nodup_cons.mp hnd.2.1).1 hm
  refine ⟨ring_pushFront (ring_unlink h.ring) hi, fun j => ?_⟩
  have := h.all j
  simp only [mem_append, mem_cons] at this ⊢
  tauto

/-- `binit` links all buffers, the last of the array first. -/
lemma listed_binit : Listed (binit : Bcache P) (List.finRange NBUF).reverse := by
  have key : ∀ (todo l : List (Fin NBUF)) (c : Bcache P), IsRing c.next c.prev l →
      (l.reverse ++ todo).Nodup → IsRing (todo.foldl pushFront c).next
        (todo.foldl pushFront c).prev (todo.reverse ++ l) := by
    intro todo
    induction todo with
    | nil => intro l c h _; simpa using h
    | cons i todo ih =>
      intro l c h hnd
      have hi : i ∉ l := fun hm =>
        (nodup_append.mp hnd).2.2 i (by simpa using hm) i mem_cons_self rfl
      simpa using ih (i :: l) (c.pushFront i) (ring_pushFront h hi) (by simpa using hnd)
  have h0 : IsRing (zeroed : Bcache P).next (zeroed : Bcache P).prev [] :=
    IsRing.nil_of_self rfl rfl
  refine ⟨by simpa [binit] using key _ _ _ h0 (by simpa using nodup_finRange NBUF), fun i => ?_⟩
  simp

lemma binit_buf : (binit : Bcache P).buf = (zeroed : Bcache P).buf := by
  have key : ∀ (todo : List (Fin NBUF)) (c : Bcache P), (todo.foldl pushFront c).buf = c.buf := by
    intro todo
    induction todo with
    | nil => intro c; rfl
    | cons i todo ih => intro c; exact ih (c.pushFront i)
  exact key _ _

/-! ### `bget` -/

/-- Buffer `i` carries block `blockno` of device `dev`. -/
def Carries (c : Bcache P) (dev blockno : Nat) (i : Fin NBUF) : Prop :=
  (c.buf i).dev = dev ∧ (c.buf i).blockno = blockno

/-- No two buffers carry the same block of a device other than 0, the device number of the
buffers nothing has been read into. -/
def Unique (c : Bcache P) : Prop :=
  ∀ dev blockno i j, dev ≠ 0 → Carries c dev blockno i → Carries c dev blockno j → i = j

/-- Give buffer `i` to block `blockno` of device `dev`. -/
def recycle (c : Bcache P) (dev blockno : Nat) (i : Fin NBUF) : Bcache P :=
  c.modify i fun b => { b with dev := dev, blockno := blockno, valid := false, refcnt := 1 }

/-- What `bget` can do: find the block, recycle the last unused buffer of the list, or panic. -/
inductive BgetCase (c : Bcache P) (l : List (Fin NBUF)) (dev blockno : Nat) :
    Option (Bcache P × Fin NBUF) → Prop where
  | hit (i : Fin NBUF) (hi : Carries c dev blockno i) : BgetCase c l dev blockno (c.bpin i, i)
  | recycled (i : Fin NBUF) (l₁ l₂ : List (Fin NBUF)) (hno : ∀ j, ¬ Carries c dev blockno j)
      (hl : l = l₁ ++ i :: l₂) (h₀ : (c.buf i).refcnt = 0) (hlast : ∀ j ∈ l₂, (c.buf j).refcnt ≠ 0) :
      BgetCase c l dev blockno (recycle c dev blockno i, i)
  | full (hno : ∀ j, ¬ Carries c dev blockno j) (hall : ∀ j, (c.buf j).refcnt ≠ 0) :
      BgetCase c l dev blockno none

lemma bget_cases (h : Listed c l) (dev blockno : Nat) : BgetCase c l dev blockno (c.bget dev blockno) := by
  unfold bget
  rw [h.forward_eq, h.backward_eq]
  cases hf : l.find? fun i => decide ((c.buf i).dev = dev ∧ (c.buf i).blockno = blockno) with
  | some i => exact .hit i (by simpa [Carries] using find?_some hf)
  | none =>
    have hno : ∀ j, ¬ Carries c dev blockno j := fun j hj => by
      have := find?_eq_none.mp hf j (h.all j)
      exact this (by simpa [Carries] using hj)
    cases hb : l.reverse.find? fun i => decide ((c.buf i).refcnt = 0) with
    | some i =>
      obtain ⟨h0, l2, l1, hl, hlast⟩ := find?_eq_some_iff_append.mp hb
      have hl' : l = l1.reverse ++ i :: l2.reverse := by
        have := congrArg List.reverse hl
        simpa using this
      exact .recycled i _ _ hno hl' (by simpa using h0) fun j hj => by
        simpa using hlast j (by simpa using hj)
    | none =>
      exact .full hno fun j => by
        simpa using find?_eq_none.mp hb j (mem_reverse.mpr (h.all j))

lemma unique_binit : Unique (binit : Bcache P) := by
  rintro dev blockno i j h0 ⟨hi, -⟩ -
  exact absurd (binit_buf ▸ hi).symm h0

lemma unique_modify (h : Unique c) (i : Fin NBUF) {f : Buf P → Buf P}
    (hf : ∀ b, (f b).dev = b.dev ∧ (f b).blockno = b.blockno) : Unique (c.modify i f) := by
  have hc : ∀ dev blockno j, Carries (c.modify i f) dev blockno j ↔ Carries c dev blockno j := by
    intro dev blockno j
    by_cases e : j = i
    · subst e; simp [Carries, Bcache.modify, hf]
    · simp [Carries, Bcache.modify, Function.update_of_ne e]
  intro dev blockno j k h0 hj hk
  exact h dev blockno j k h0 ((hc ..).mp hj) ((hc ..).mp hk)

lemma carries_recycle {dev blockno dev' blockno' : Nat} {i j : Fin NBUF} :
    Carries (recycle c dev' blockno' i) dev blockno j ↔
      if j = i then dev' = dev ∧ blockno' = blockno else Carries c dev blockno j := by
  by_cases e : j = i
  · subst e; simp [Carries, recycle, Bcache.modify]
  · simp [Carries, recycle, Bcache.modify, e]

/-- Recycling a buffer for a block no buffer carries keeps the blocks apart. -/
lemma unique_recycle (h : Unique c) {dev blockno : Nat}
    (hno : ∀ j, ¬ Carries c dev blockno j) (i : Fin NBUF) : Unique (recycle c dev blockno i) := by
  intro d b j k h0 hj hk
  rw [carries_recycle] at hj hk
  split at hj <;> split at hk
  · simp_all
  · obtain ⟨rfl, rfl⟩ := hj; exact absurd hk (hno k)
  · obtain ⟨rfl, rfl⟩ := hk; exact absurd hj (hno j)
  · exact h d b j k h0 hj hk

end FypOs.Bio
