import FypOs.Fs.Tree

/-!
# Fs — a list of directory entries as a finite map
-/

namespace FypOs.Fs

open Lib

/-- **The map of a directory**: the inode number under a name. -/
def dirMap (l : List Dirent) (x : List UInt8) : Option Nat := (findSlot l x).bind fun k => l[k]?.map Prod.fst

/-- The entries in use have names of their own. -/
def Distinct (l : List Dirent) : Prop :=
  ∀ (j k m n : Nat) (x : List UInt8), l[j]? = some (m, x) → l[k]? = some (n, x) → m ≠ 0 → n ≠ 0 → j = k

lemma Tree.lookup_eq_dirMap (T : Tree) (d : Nat) (x : List UInt8) : T.lookup d x = dirMap (T d).slots x := rfl

variable {l : List Dirent} {x y z : List UInt8} {k m n : Nat}

lemma dirMap_eq_none : dirMap l x = none ↔ findSlot l x = none := by
  rw [dirMap]
  cases h : findSlot l x with
  | none => exact ⟨fun _ => rfl, fun _ => rfl⟩
  | some k =>
    obtain ⟨⟨n, -, hk⟩, -⟩ := findSlot_eq_some.mp h
    rw [Option.bind_some, hk]
    exact ⟨fun e => (by cases e), fun e => (by cases e)⟩

lemma dirMap_entry (h : dirMap l x = some n) : n ≠ 0 ∧ ∃ k, findSlot l x = some k ∧ l[k]? = some (n, x) := by
  obtain ⟨k, hfind, hk⟩ := Option.bind_eq_some_iff.mp h
  obtain ⟨⟨n', hn', hk'⟩, -⟩ := findSlot_eq_some.mp hfind
  rw [hk', Option.map_some, Option.some.injEq] at hk
  subst hk
  exact ⟨hn', k, hfind, hk'⟩

namespace Distinct

section

variable (h : Distinct l)

include h

/-- The entry in use under a name is the one that is found. -/
lemma dirMap_of_entry (hk : l[k]? = some (n, x)) (hn : n ≠ 0) : dirMap l x = some n := by
  cases hmap : dirMap l x with
  | none => exact absurd (findSlot_eq_none.mp (dirMap_eq_none.mp hmap) k n hk) hn
  | some n' =>
    obtain ⟨hn', k', -, hk'⟩ := dirMap_entry hmap
    have := h k' k n' n x hk' hk hn' hn
    subst this
    rw [hk] at hk'
    cases hk'
    rfl

lemma dirMap_iff : dirMap l x = some n ↔ n ≠ 0 ∧ ∃ k : Nat, l[k]? = some (n, x) := by
  constructor
  · intro hmap
    obtain ⟨hn, k, -, hk⟩ := dirMap_entry hmap
    exact ⟨hn, k, hk⟩
  · rintro ⟨hn, k, hk⟩
    exact h.dirMap_of_entry hk hn

/-- Two lists with the same entries in use under a name bind it alike. -/
lemma dirMap_congr {l' : List Dirent} (h' : Distinct l')
    (hsame : ∀ n, n ≠ 0 → ((∃ k : Nat, l'[k]? = some (n, x)) ↔ ∃ k : Nat, l[k]? = some (n, x))) :
    dirMap l' x = dirMap l x := by
  refine Option.ext fun n => ?_
  rw [h.dirMap_iff, h'.dirMap_iff]
  exact ⟨fun hn => ⟨hn.1, (hsame n hn.1).mp hn.2⟩, fun hn => ⟨hn.1, (hsame n hn.1).mpr hn.2⟩⟩

/-- **A name is bound**, where no entry is in use. -/
lemma add (hk : VacantIn l k) (hx : dirMap l x = none) : Distinct (splice l k [(n, x)]) ∧
      (n ≠ 0 → ∀ y, dirMap (splice l k [(n, x)]) y = if y = x then some n else dirMap l y) := by
  have hget := getElem?_splice_one hk.1 (n, x)
  have hfresh := findSlot_eq_none.mp (dirMap_eq_none.mp hx)
  have hd : Distinct (splice l k [(n, x)]) := by
    intro i j m m' y hi hj hm hm'
    rw [hget] at hi hj
    split at hi <;> split at hj
    · rename_i e e'
      rw [e, e']
    · cases hi
      exact absurd (hfresh j m' hj) hm'
    · cases hj
      exact absurd (hfresh i m hi) hm
    · exact h i j m m' y hi hj hm hm'
  refine ⟨hd, fun hn y => ?_⟩
  split
  · rename_i e
    subst e
    exact hd.dirMap_of_entry (by rw [hget, if_pos rfl]) hn
  · rename_i hne
    refine h.dirMap_congr hd fun m hm => ⟨?_, ?_⟩
    · rintro ⟨j, hj⟩
      rw [hget] at hj
      split at hj
      · cases hj
        exact absurd rfl hne
      · exact ⟨j, hj⟩
    · rintro ⟨j, hj⟩
      refine ⟨j, ?_⟩
      rw [hget, if_neg fun e => ?_]
      · exact hj
      · subst e
        exact hm (hk.2 _ hj)

/-- **A name is unbound**: its entry is cleared, and may keep the name. -/
lemma remove (hk : l[k]? = some (n, x)) (hn : n ≠ 0) :
    Distinct (splice l k [(0, z)]) ∧ ∀ y, dirMap (splice l k [(0, z)]) y = if y = x then none else dirMap l y := by
  have hlen : k ≤ l.length := by
    obtain ⟨hlt, -⟩ := List.getElem?_eq_some_iff.mp hk
    exact hlt.le
  have hget := getElem?_splice_one hlen (0, z)
  have hd : Distinct (splice l k [(0, z)]) := by
    intro i j m m' y hi hj hm hm'
    rw [hget] at hi hj
    split at hi
    · cases hi
      exact absurd rfl hm
    · split at hj
      · cases hj
        exact absurd rfl hm'
      · exact h i j m m' y hi hj hm hm'
  refine ⟨hd, fun y => ?_⟩
  split
  · rename_i e
    subst e
    rw [dirMap_eq_none, findSlot_eq_none]
    intro j m hj
    rw [hget] at hj
    split at hj
    · cases hj
      rfl
    · rename_i hne
      by_contra hm
      exact hne (h j k m n y hj hk hm hn)
  · rename_i hne
    refine h.dirMap_congr hd fun m hm => ⟨?_, ?_⟩
    · rintro ⟨j, hj⟩
      rw [hget] at hj
      split at hj
      · cases hj
        exact absurd rfl hm
      · exact ⟨j, hj⟩
    · rintro ⟨j, hj⟩
      refine ⟨j, ?_⟩
      rw [hget, if_neg fun e => ?_]
      · exact hj
      · subst e
        rw [hk] at hj
        cases hj
        exact hne rfl

end

end Distinct

lemma direntInum_lt (de : Block) : direntInum de < 2 ^ 16 := by
  have h0 := (de 0).toNat_lt
  have h1 := (de (0 + 1)).toNat_lt
  simp only [direntInum, getLE]
  omega

lemma slots_lt {s : State} {d : Nat} (h : (s.tree d).slots[k]? = some (n, x)) : n < 2 ^ 16 := by
  have hmem := List.mem_of_getElem? h
  rw [State.tree] at hmem
  split at hmem
  · dsimp only at hmem
    split at hmem
    · obtain ⟨k', -, hk'⟩ := List.mem_map.mp hmem
      have hn : direntInum (s.entry d (k' * DIRENTSZ)) = n := congrArg Prod.fst hk'
      rw [← hn]
      exact direntInum_lt _
    · cases hmem
  · cases hmem

end FypOs.Fs
