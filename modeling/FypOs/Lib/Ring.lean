import Mathlib.Data.List.Nodup

/-!
# Lib — circular doubly linked lists

Nodes of a type `N` and one sentinel are linked by two pointer maps, `nxt` and `prv`.  A pointer
is an `Option N`; `none` is the sentinel.  `Seg nxt prv a l z` says that the nodes `l` stand, in
this order, between `a` and `z`, every neighbouring pair pointing at each other; a *ring* is a
segment from the sentinel to itself without a repeated node (`IsRing`).
-/

namespace FypOs.Lib

open Function List

variable {N : Type}

/-- `a` and `b` are neighbours: each points at the other. -/
def Linked (nxt prv : Option N → Option N) (a b : Option N) : Prop :=
  nxt a = b ∧ prv b = a

/-- The nodes `l` stand between `a` and `z`. -/
def Seg (nxt prv : Option N → Option N) : Option N → List N → Option N → Prop
  | a, [], z => Linked nxt prv a z
  | a, i :: l, z => Linked nxt prv a (some i) ∧ Seg nxt prv (some i) l z

/-- The nodes `l`, without repetition, are linked in a circle through the sentinel. -/
structure IsRing (nxt prv : Option N → Option N) (l : List N) : Prop where
  nodup : l.Nodup
  seg : Seg nxt prv none l none

/-- The nodes met from `b` on by following `f`, until the sentinel or for `fuel` nodes. -/
def walk (f : Option N → Option N) : Nat → Option N → List N
  | 0, _ => []
  | _ + 1, none => []
  | n + 1, some i => i :: walk f n (f (some i))

namespace Seg

variable {nxt prv nxt' prv' : Option N → Option N} {a z : Option N} {l : List N}

lemma append_iff {i : N} {l1 l2 : List N} :
    Seg nxt prv a (l1 ++ i :: l2) z ↔ Seg nxt prv a l1 (some i) ∧ Seg nxt prv (some i) l2 z := by
  induction l1 generalizing a with
  | nil => rfl
  | cons j l1 ih => simp only [cons_append, Seg, ih, and_assoc]

section

variable (h : Seg nxt prv a l z)

include h

/-- A segment depends only on the forward pointers of its start and nodes and on the backward
pointers of its nodes and end. -/
lemma congr (ha : nxt' a = nxt a) (hz : prv' z = prv z)
    (hn : ∀ i ∈ l, nxt' (some i) = nxt (some i)) (hp : ∀ i ∈ l, prv' (some i) = prv (some i)) :
    Seg nxt' prv' a l z := by
  induction l generalizing a with
  | nil => exact ⟨ha.trans h.1, hz.trans h.2⟩
  | cons i l ih =>
    obtain ⟨⟨h1, h2⟩, ht⟩ := h
    refine ⟨⟨ha.trans h1, (hp i mem_cons_self).trans h2⟩, ih ht (hn i mem_cons_self) ?_ ?_⟩
    · exact fun j hj => hn j (mem_cons_of_mem _ hj)
    · exact fun j hj => hp j (mem_cons_of_mem _ hj)

/-- The end of a segment points back at its start or at one of its nodes. -/
lemma prv_end : prv z = a ∨ ∃ i ∈ l, prv z = some i := by
  induction l generalizing a with
  | nil => exact Or.inl h.2
  | cons i l ih =>
    rcases ih h.2 with e | ⟨j, hj, e⟩
    · exact Or.inr ⟨i, mem_cons_self, e⟩
    · exact Or.inr ⟨j, mem_cons_of_mem _ hj, e⟩

/-- The start of a segment points at its end or at one of its nodes. -/
lemma nxt_start : nxt a = z ∨ ∃ i ∈ l, nxt a = some i := by
  cases l with
  | nil => exact Or.inl h.1
  | cons i l => exact Or.inr ⟨i, mem_cons_self, h.1.1⟩

/-- Moving the end of a segment: the node before the old end is made to point at the new end,
and the new end at it. -/
lemma moveEnd {y : Option N}
    (hn : ∀ x, x ≠ prv z → nxt' x = nxt x) (hy : nxt' (prv z) = y) (hp : prv' y = prv z)
    (hl : ∀ i ∈ l, prv' (some i) = prv (some i)) (ha : ∀ i ∈ l, a ≠ some i) (hd : l.Nodup) :
    Seg nxt' prv' a l y := by
  induction l generalizing a with
  | nil => obtain rfl : prv z = a := h.2; exact ⟨hy, hp⟩
  | cons i l ih =>
    obtain ⟨⟨h1, h2⟩, ht⟩ := h
    have hne : a ≠ prv z := by
      rcases prv_end ht with e | ⟨j, hj, e⟩
      · rw [e]; exact ha i mem_cons_self
      · rw [e]; exact ha j (mem_cons_of_mem _ hj)
    refine ⟨⟨(hn a hne).trans h1, (hl i mem_cons_self).trans h2⟩,
      ih ht (fun j hj => hl j (mem_cons_of_mem _ hj)) (fun j hj e => ?_) hd.of_cons⟩
    cases Option.some.inj e
    exact (nodup_cons.mp hd).1 hj

end

/-- Following `nxt` from the start of a segment visits its nodes. -/
lemma walk_nxt (h : Seg nxt prv a l none) {n : Nat} (hn : l.length ≤ n) : walk nxt n (nxt a) = l := by
  induction l generalizing a n with
  | nil => rw [h.1]; cases n <;> rfl
  | cons i l ih =>
    cases n with
    | zero => simp at hn
    | succ n =>
      rw [h.1.1]
      exact congrArg (i :: ·) (ih h.2 (Nat.le_of_succ_le_succ hn))

lemma reverse (h : Seg nxt prv a l z) : Seg prv nxt z l.reverse a := by
  induction l generalizing a with
  | nil => exact ⟨h.2, h.1⟩
  | cons i l ih =>
    rw [reverse_cons]
    exact append_iff.mpr ⟨ih h.2, h.1.2, h.1.1⟩

end Seg

namespace IsRing

variable {nxt prv : Option N → Option N} {l : List N}

lemma nil_of_self (hn : nxt none = none) (hp : prv none = none) : IsRing nxt prv [] :=
  ⟨nodup_nil, hn, hp⟩

lemma walk_nxt (h : IsRing nxt prv l) {n : Nat} (hn : l.length ≤ n) : walk nxt n (nxt none) = l :=
  h.seg.walk_nxt hn

lemma walk_prv (h : IsRing nxt prv l) {n : Nat} (hn : l.length ≤ n) : walk prv n (prv none) = l.reverse :=
  h.seg.reverse.walk_nxt (by simpa using hn)

section Relink

variable [DecidableEq N]

/-- **Linking in front.**  A node outside the ring is linked between the sentinel and the node
that was first. -/
lemma pushFront (h : IsRing nxt prv l) {i : N} (hi : i ∉ l) :
    IsRing (update (update nxt (some i) (nxt none)) none (some i))
      (update (update prv (some i) none) (nxt none) (some i)) (i :: l) := by
  refine ⟨nodup_cons.mpr ⟨hi, h.nodup⟩, ?_⟩
  have hne : ∀ j ∈ l, some j ≠ some i := fun j hj e => hi (Option.some.inj e ▸ hj)
  cases l with
  | nil =>
    have e : nxt none = none := h.seg.1
    simp [Seg, Linked, e]
  | cons j l =>
    obtain ⟨⟨e, -⟩, ht⟩ := h.seg
    have hji := hne j mem_cons_self
    refine ⟨⟨by simp, by simp [e, hji.symm]⟩, ⟨by simp [e], by simp [e]⟩, ?_⟩
    refine ht.congr (by simp [hji]) (by simp [e]) (fun k hk => ?_) (fun k hk => ?_)
    · simp [hne k (mem_cons_of_mem _ hk)]
    · have hkj : some k ≠ some j :=
        fun e' => (nodup_cons.mp h.nodup).1 (Option.some.inj e' ▸ hk)
      simp [e, hkj, hne k (mem_cons_of_mem _ hk)]

/-- **Unlinking.**  The neighbours of a node of the ring are made to point at each other. -/
lemma unlink {l1 l2 : List N} {i : N} (h : IsRing nxt prv (l1 ++ i :: l2)) :
    IsRing (update nxt (prv (some i)) (nxt (some i)))
      (update prv (nxt (some i)) (prv (some i))) (l1 ++ l2) := by
  obtain ⟨h1, h2⟩ := Seg.append_iff.mp h.seg
  obtain ⟨hd1, hd2, hdis⟩ := nodup_append.mp h.nodup
  have hd : (l1 ++ l2).Nodup :=
    nodup_append.mpr ⟨hd1, hd2.of_cons, fun a ha b hb => hdis a ha b (mem_cons_of_mem _ hb)⟩
  -- the backward pointer that changes is that of the sentinel or of a node after `i`
  have hnot : ∀ k ∈ l1, some k ≠ nxt (some i) := by
    intro k hk e
    rcases h2.nxt_start with e' | ⟨j, hj, e'⟩
    · exact absurd (e.trans e') (by simp)
    · cases Option.some.inj (e.trans e')
      exact hdis k hk k (mem_cons_of_mem _ hj) rfl
  have hmove : Seg (update nxt (prv (some i)) (nxt (some i)))
      (update prv (nxt (some i)) (prv (some i))) none l1 (nxt (some i)) :=
    h1.moveEnd (fun x hx => update_of_ne hx _ _) (update_self ..)
      (update_self ..) (fun k hk => update_of_ne (hnot k hk) _ _)
      (fun _ _ => by simp) hd1
  refine ⟨hd, ?_⟩
  cases l2 with
  | nil => rw [append_nil]; rw [h2.1] at hmove ⊢; exact hmove
  | cons j l2 =>
    obtain ⟨⟨e, -⟩, ht⟩ := h2
    rw [e] at hmove ⊢
    refine Seg.append_iff.mpr ⟨hmove, ht.congr ?_ ?_ (fun k hk => ?_) (fun k hk => ?_)⟩
    · refine update_of_ne (fun e' => ?_) _ _
      rcases h1.prv_end with e'' | ⟨k, hk, e''⟩
      · exact absurd (e'.trans e'') (by simp)
      · cases Option.some.inj (e'.trans e'')
        exact hdis j hk j (mem_cons_of_mem _ mem_cons_self) rfl
    · exact update_of_ne (by simp) _ _
    · refine update_of_ne (fun e' => ?_) _ _
      rcases h1.prv_end with e'' | ⟨m, hm, e''⟩
      · exact absurd (e'.trans e'') (by simp)
      · cases Option.some.inj (e'.trans e'')
        exact hdis k hm k (mem_cons_of_mem _ (mem_cons_of_mem _ hk)) rfl
    · refine update_of_ne (fun e' => ?_) _ _
      cases Option.some.inj e'
      exact (nodup_cons.mp hd2.of_cons).1 hk

end Relink

/-- **The pointer maps are inverse to each other**, at the sentinel and at every node. -/
lemma inverse (h : IsRing nxt prv l) :
    ∀ b : Option N, (∀ i, b = some i → i ∈ l) → prv (nxt b) = b ∧ nxt (prv b) = b := by
  have fwd : ∀ {nxt prv : Option N → Option N} {a z : Option N} {l : List N}, Seg nxt prv a l z →
      prv (nxt a) = a ∧ ∀ i ∈ l, prv (nxt (some i)) = some i := by
    intro nxt prv a z l h
    induction l generalizing a with
    | nil => exact ⟨by rw [h.1]; exact h.2, by simp⟩
    | cons i l ih =>
      obtain ⟨⟨h1, h2⟩, ht⟩ := h
      obtain ⟨e, hl⟩ := ih ht
      exact ⟨by rw [h1]; exact h2, forall_mem_cons.mpr ⟨e, hl⟩⟩
  obtain ⟨e1, hl1⟩ := fwd h.seg
  obtain ⟨e2, hl2⟩ := fwd h.seg.reverse
  rintro (_ | i) hb
  · exact ⟨e1, e2⟩
  · exact ⟨hl1 i (hb i rfl), hl2 i (mem_reverse.mpr (hb i rfl))⟩

end IsRing

end FypOs.Lib
