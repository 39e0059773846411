import Mathlib.Data.List.Nodup

/-!
# Lib — redo logs

A store is a function from addresses to values.  `writeAll m ws` is the store after the writes
`ws`.  A redo log is a list of addresses, the header, with a slot for each: `replay hdr slot m` is
the store in which every address of the header has the value of its slot.
-/

namespace FypOs.Lib

open List Function

variable {A V : Type} [DecidableEq A]

/-- The store after a list of writes. -/
def writeAll (m : A → V) (ws : List (A × V)) : A → V :=
  ws.foldl (fun m w => Function.update m w.1 w.2) m

@[simp] lemma writeAll_nil (m : A → V) : writeAll m [] = m := rfl

lemma writeAll_append (m : A → V) (ws ws' : List (A × V)) :
    writeAll m (ws ++ ws') = writeAll (writeAll m ws) ws' :=
  foldl_append

lemma writeAll_concat (m : A → V) (ws : List (A × V)) (w : A × V) :
    writeAll m (ws ++ [w]) = update (writeAll m ws) w.1 w.2 :=
  writeAll_append m ws [w]

lemma writeAll_of_not_mem {m : A → V} {ws : List (A × V)} {a : A} (h : ∀ w ∈ ws, w.1 ≠ a) :
    writeAll m ws a = m a := by
  induction ws generalizing m with
  | nil => rfl
  | cons w ws ih =>
    show writeAll (update m w.1 w.2) ws a = m a
    rw [ih fun w' hw' => h w' (mem_cons_of_mem _ hw')]
    exact update_of_ne (h w mem_cons_self).symm ..

/-- The store after the log has been replayed. -/
def replay (hdr : List A) (slot : Nat → V) (m : A → V) (a : A) : V :=
  if a ∈ hdr then slot (hdr.idxOf a) else m a

variable {hdr : List A} {slot slot' : Nat → V} {m m' : A → V} {a : A}

@[simp] lemma replay_nil : replay ([] : List A) slot m = m := by
  funext a
  exact if_neg not_mem_nil

lemma replay_of_not_mem (h : a ∉ hdr) : replay hdr slot m a = m a := if_neg h

lemma replay_of_mem (slot : Nat → V) (m : A → V) (h : a ∈ hdr) :
    ∃ k, k < hdr.length ∧ hdr[k]? = some a ∧ replay hdr slot m a = slot k := by
  refine ⟨hdr.idxOf a, idxOf_lt_length_of_mem h, ?_, if_pos h⟩
  rw [List.getElem?_eq_getElem (idxOf_lt_length_of_mem h), getElem_idxOf]

/-- The slots of the header, and the store elsewhere, are all that matters. -/
lemma replay_congr (hs : ∀ k < hdr.length, slot' k = slot k) (hm : a ∉ hdr → m' a = m a) :
    replay hdr slot' m' a = replay hdr slot m a := by
  unfold replay
  split
  · exact hs _ (idxOf_lt_length_of_mem ‹_›)
  · exact hm ‹_›

/-- Installing an address of the header does not change what the log will replay. -/
lemma replay_update (slot : Nat → V) {b : A} (hb : b ∈ hdr) (v : V) :
    replay hdr slot (update m b v) = replay hdr slot m := by
  funext a
  refine replay_congr (fun _ _ => rfl) fun ha => ?_
  have hne : a ≠ b := fun e => ha (e ▸ hb)
  exact update_of_ne hne ..

/-- A log whose slots are all installed replays nothing. -/
lemma replay_settled (h : ∀ k a, hdr[k]? = some a → m a = slot k) : replay hdr slot m = m := by
  funext a
  by_cases ha : a ∈ hdr
  · obtain ⟨k, -, hk, e⟩ := replay_of_mem slot m ha
    rw [e, h k a hk]
  · exact replay_of_not_mem ha

/-- A log that has the value of every address written, in a store where the others have theirs,
replays the writes. -/
lemma replay_writes {v : A → V} (hin : ∀ k a, hdr[k]? = some a → slot k = v a)
    (hout : a ∉ hdr → m a = v a) : replay hdr slot m a = v a := by
  by_cases ha : a ∈ hdr
  · obtain ⟨k, -, hk, e⟩ := replay_of_mem slot m ha
    rw [e, hin k a hk]
  · rw [replay_of_not_mem ha, hout ha]

end FypOs.Lib
