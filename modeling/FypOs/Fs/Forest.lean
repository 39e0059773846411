import FypOs.Fs.Tree
import FypOs.Lib.Forest
import Mathlib.Algebra.Order.BigOperators.Group.Finset

/-!
# Fs — directories and link counts

A tree of files is well formed if its directories that have links form a tree, the link counts are the
numbers of entries that refer to an inode, and a directory without links has no entries but `.` and
`..`.

* `Tree.links`: the entries that refer to an inode, counted over the directories that have links.
-/

namespace FypOs.Fs

open Lib Finset Int16

/-! ### Counters -/

variable {a : Int16}

lemma toInt_add_one (h : a < 32767) : (a + 1).toInt = a.toInt + 1 := by
  have hlt : a.toInt < 32767 := lt_iff_toInt_lt.mp h
  have hge := a.le_toInt
  have hone : (1 : Int16).toInt = 1 := rfl
  rw [toInt_add, hone]
  exact Int.bmod_eq_of_le (by omega) (by omega)

lemma toInt_sub_one (h : 1 ≤ a) : (a - 1).toInt = a.toInt - 1 := by
  have hge : (1 : Int16).toInt ≤ a.toInt := le_iff_toInt_le.mp h
  have hlt := a.toInt_lt
  have hone : (1 : Int16).toInt = 1 := rfl
  rw [hone] at hge
  rw [toInt_sub, hone]
  exact Int.bmod_eq_of_le (by omega) (by omega)

lemma one_le_iff_toInt : 1 ≤ a ↔ 1 ≤ a.toInt := le_iff_toInt_le

/-! ### Entries in use -/

section

variable {l : List Dirent} {k b c n : Nat} {x y : List UInt8}

/-- Entry `k` names inode `n`. -/
def Used (l : List Dirent) (k n : Nat) (x : List UInt8) : Prop := l[k]? = some (n, x) ∧ n ≠ 0

lemma used_splice (hk : VacantIn l k) (hn : n ≠ 0) :
    Used (splice l k [(n, x)]) b c y ↔ Used l b c y ∨ b = k ∧ c = n ∧ y = x := by
  rw [Used, Used, getElem?_splice_one hk.1]
  by_cases hb : b = k
  · rw [if_pos hb, Option.some_inj, Prod.ext_iff]
    constructor
    · rintro ⟨⟨rfl, rfl⟩, -⟩
      exact .inr ⟨hb, rfl, rfl⟩
    · rintro (⟨hl, hc⟩ | ⟨-, rfl, rfl⟩)
      · exact absurd (hk.2 _ (hb ▸ hl)) hc
      · exact ⟨⟨rfl, rfl⟩, hn⟩
  · rw [if_neg hb]
    exact ⟨.inl, fun h => h.resolve_right fun e => hb e.1⟩

lemma used_clear (hk : k ≤ l.length) : Used (splice l k [(0, x)]) b c y ↔ Used l b c y ∧ b ≠ k := by
  rw [Used, Used, getElem?_splice_one hk]
  by_cases hb : b = k
  · rw [if_pos hb]
    exact ⟨fun ⟨e, hc⟩ => absurd (Prod.ext_iff.mp (Option.some_inj.mp e)).1.symm hc,
      fun ⟨_, hne⟩ => absurd hb hne⟩
  · rw [if_neg hb]
    exact ⟨fun h => ⟨h, hb⟩, And.left⟩

lemma VacantIn.not_used (hk : VacantIn l k) : ¬ Used l k n x := fun h => h.2 (hk.2 _ h.1)

lemma not_used_of_find (h : findSlot l x = none) : ¬ Used l k n x := fun hu =>
  hu.2 (findSlot_eq_none.mp h k n hu.1)

lemma Used.lt (h : Used l k n x) : k < l.length := (List.getElem?_eq_some_iff.mp h.1).1

/-- The entry refers to inode `n`; `.` does not count. -/
def Refers (n : Nat) (e : Dirent) : Prop := e.1 = n ∧ n ≠ 0 ∧ e.2 ≠ nameStr dot

instance (n : Nat) (e : Dirent) : Decidable (Refers n e) := inferInstanceAs (Decidable (_ ∧ _ ∧ _))

/-- The number of entries that refer to inode `n`. -/
def refersIn (l : List Dirent) (n : Nat) : Nat := l.countP fun e => Refers n e

lemma refersIn_eq_zero (h : ∀ k x, Used l k n x → x = nameStr dot) : refersIn l n = 0 := by
  refine List.countP_eq_zero.mpr fun e he hr => ?_
  obtain ⟨hn, h0, hx⟩ := of_decide_eq_true hr
  obtain ⟨k, hk⟩ := List.mem_iff_getElem?.mp he
  exact hx (h k e.2 ⟨by rw [hk, ← hn], h0⟩)

lemma refersIn_pos (h : Used l k n x) (hx : x ≠ nameStr dot) : 1 ≤ refersIn l n :=
  List.countP_pos_iff.mpr ⟨(n, x), List.mem_of_getElem? h.1, decide_eq_true ⟨rfl, h.2, hx⟩⟩

lemma refersIn_le_one (h : ∀ i j x y, Used l i n x → x ≠ nameStr dot → Used l j n y →
    y ≠ nameStr dot → i = j) : refersIn l n ≤ 1 := by
  refine countP_le_one fun i j a b hi ha hj hb => ?_
  obtain ⟨rfl, h0, hx⟩ := of_decide_eq_true ha
  obtain ⟨e, -, hy⟩ := of_decide_eq_true hb
  exact h i j a.2 b.2 ⟨hi, h0⟩ hx ⟨by rw [hj, ← e], h0⟩ hy

lemma refersIn_splice (hk : VacantIn l k) (hx : x ≠ nameStr dot) (hn : n ≠ 0) (m : Nat) :
    refersIn (splice l k [(n, x)]) m = refersIn l m + if n = m then 1 else 0 := by
  have h := countP_splice (p := fun e => decide (Refers m e)) (a := (n, x)) hk.1
  have hold : (l[k]?.elim 0 fun e => if decide (Refers m e) then 1 else 0) = 0 := by
    cases hget : l[k]? with
    | none => rfl
    | some e => exact if_neg fun hr => (of_decide_eq_true hr).2.1 ((of_decide_eq_true hr).1 ▸ hk.2 e hget)
  have hnew : (if decide (Refers m (n, x)) then 1 else 0) = if n = m then 1 else 0 :=
    if_congr ⟨fun hr => (of_decide_eq_true hr).1, fun e => decide_eq_true ⟨e, e ▸ hn, hx⟩⟩ rfl rfl
  rw [hold, hnew] at h
  exact h

lemma refersIn_clear (hu : Used l k n x) (hx : x ≠ nameStr dot) (m : Nat) :
    refersIn (splice l k [(0, y)]) m + (if n = m then 1 else 0) = refersIn l m := by
  have h := countP_splice (p := fun e => decide (Refers m e)) (a := (0, y)) hu.lt.le
  have hnew : (if decide (Refers m (0, y)) then 1 else 0) = 0 :=
    if_neg fun hr => (of_decide_eq_true hr).2.1 (of_decide_eq_true hr).1.symm
  have hold : (if decide (Refers m (n, x)) then 1 else 0) = if n = m then 1 else 0 :=
    if_congr ⟨fun hr => (of_decide_eq_true hr).1, fun e => decide_eq_true ⟨e, e ▸ hu.2, hx⟩⟩ rfl rfl
  rw [hu.1, Option.elim_some, hnew, hold] at h
  exact h

end

/-! ### Trees -/

/-- A directory that has links. -/
def Node.Dir (nd : Node) : Prop := nd.type = T_DIR ∧ 1 ≤ nd.nlink

instance (nd : Node) : Decidable nd.Dir := inferInstanceAs (Decidable (_ ∧ _))

/-- The entries of a directory that refer to inode `n`, if it has links. -/
def Node.refers (nd : Node) (n : Nat) : Nat := if nd.Dir then refersIn nd.slots n else 0

/-- The root is its own parent; entries 0 and 1 of a directory are `.` and `..`. -/
def conventions : Conventions Nat Nat (List UInt8) where
  root := ROOTINO
  self := 0
  up := 1
  dot := nameStr dot
  dotdot := nameStr dotdot
  self_ne_up := by decide
  dot_ne_dotdot := by decide

namespace Tree

/-- Entry `k` of directory `d`, which has links, names inode `n`. -/
def Lists (T : Tree) (d k n : Nat) (x : List UInt8) : Prop := (T d).Dir ∧ Used (T d).slots k n x

/-- The entries that refer to inode `n`, in the directories below `N` that have links. -/
def links (T : Tree) (N n : Nat) : Nat := ∑ d ∈ range N, (T d).refers n

/-- The directories form a tree, and the link counts are exact. -/
structure WellFormed (N : Nat) (T : Tree) : Prop where
  bound : ∀ n, N ≤ n → (T n).nlink = 0
  forest : Forest conventions (fun d => (T d).Dir) T.Lists
  exact : ∀ n, (T n).nlink.toInt = T.links N n
  bare : ∀ d, (T d).type = T_DIR → (T d).nlink = 0 → Bare d (T d).slots

end Tree

section

variable {T T' : Tree} {N d d' k k' n m : Nat} {x y : List UInt8} {nd : Node}

lemma refers_of_dir (h : nd.Dir) (n : Nat) : nd.refers n = refersIn nd.slots n := if_pos h

lemma refers_of_not_dir (h : ¬ nd.Dir) (n : Nat) : nd.refers n = 0 := if_neg h

lemma Node.Dir.nlink_ne (h : nd.Dir) : nd.nlink ≠ 0 := fun e => absurd (e ▸ h.2) (by decide)

lemma not_dir_of_nlink (h : nd.nlink = 0) : ¬ nd.Dir := fun hd => hd.nlink_ne h

lemma not_dir_of_type (h : nd.type ≠ T_DIR) : ¬ nd.Dir := fun hd => h hd.1

/-! ### Counting -/

lemma links_exchange (T' : Tree) (hd : d < N) (h : ∀ m, m ≠ d → T' m = T m) (x : Nat) :
    T'.links N x + (T d).refers x = T.links N x + (T' d).refers x := by
  have hmem := mem_range.mpr hd
  have hrest : ∑ m ∈ (range N).erase d, (T' m).refers x = ∑ m ∈ (range N).erase d, (T m).refers x :=
    sum_congr rfl fun m hm => by rw [h m (ne_of_mem_erase hm)]
  rw [Tree.links, Tree.links, ← sum_erase_add _ _ hmem, hrest, ← sum_erase_add _ _ hmem, add_right_comm]

lemma links_exchange_two (T' : Tree) (hd : d < N) (hn : n < N) (hne : n ≠ d)
    (h : ∀ m, m ≠ n → m ≠ d → T' m = T m) (x : Nat) :
    T'.links N x + ((T d).refers x + (T n).refers x) = T.links N x + ((T' d).refers x + (T' n).refers x) := by
  have h1 : (T.set n (T' n)).links N x + (T n).refers x =
      T.links N x + (T.set n (T' n) n).refers x := links_exchange _ hn (fun m hm => T.set_of_ne _ hm) x
  have h2 : T'.links N x + (T.set n (T' n) d).refers x = (T.set n (T' n)).links N x + (T' d).refers x := by
    refine links_exchange T' hd (fun m hm => ?_) x
    by_cases e : m = n
    · rw [e, Tree.set_self]
    · rw [T.set_of_ne _ e, h m e hm]
  rw [Tree.set_self] at h1
  rw [T.set_of_ne _ hne.symm] at h2
  omega

namespace Tree.WellFormed

variable (h : T.WellFormed N)

include h

lemma lt_of_dir (hd : (T d).Dir) : d < N := by
  by_contra hge
  exact hd.nlink_ne (h.bound d (not_lt.mp hge))

lemma links_pos (hl : T.Lists d k n x) (hx : x ≠ nameStr dot) : 1 ≤ T.links N n := by
  have hle : (T d).refers n ≤ T.links N n := single_le_sum (f := fun m => (T m).refers n)
    (fun _ _ => Nat.zero_le _) (mem_range.mpr (h.lt_of_dir hl.1))
  rw [refers_of_dir hl.1] at hle
  exact (refersIn_pos hl.2 hx).trans hle

lemma two_le_links (hl : T.Lists d k n x) (hx : x ≠ nameStr dot) (hl' : T.Lists d' k' n y)
    (hy : y ≠ nameStr dot) (hne : d ≠ d') : 2 ≤ T.links N n := by
  have hsub : ({d, d'} : Finset Nat) ⊆ range N := by
    intro m hm
    rcases mem_insert.mp hm with rfl | hm
    · exact mem_range.mpr (h.lt_of_dir hl.1)
    · exact mem_singleton.mp hm ▸ mem_range.mpr (h.lt_of_dir hl'.1)
  have hle := sum_le_sum_of_subset (f := fun m => (T m).refers n) hsub
  rw [sum_pair hne, refers_of_dir hl.1, refers_of_dir hl'.1] at hle
  have h1 := refersIn_pos hl.2 hx
  have h2 := refersIn_pos hl'.2 hy
  exact (Nat.add_le_add h1 h2).trans hle

lemma pos_of_ne_zero (hn : (T n).nlink ≠ 0) : 1 ≤ (T n).nlink := by
  have he := h.exact n
  have hne : (T n).nlink.toInt ≠ 0 := fun e => hn (toInt_inj.mp e)
  rw [one_le_iff_toInt]
  omega

lemma eq_of_dot (hl : T.Lists d k n (nameStr dot)) : n = d := by
  have hdot := h.forest.dot hl.1
  obtain rfl : k = conventions.self := h.forest.distinct hl hdot
  exact (h.forest.slot hl hdot).1

lemma eq_up (hl : T.Lists d k n (nameStr dotdot)) : T.Lists d conventions.up n conventions.dotdot := by
  obtain ⟨p, hp⟩ := h.forest.up hl.1
  obtain rfl : k = conventions.up := h.forest.distinct hl hp
  exact hl

lemma nlink_pos (hl : T.Lists d k n x) : 1 ≤ (T n).nlink := by
  by_cases hx : x = nameStr dot
  · subst hx
    obtain rfl := h.eq_of_dot hl
    exact hl.1.2
  · have hlinks := h.links_pos hl hx
    have he := h.exact n
    rw [one_le_iff_toInt]
    omega

lemma not_lists (hn : (T n).nlink = 0) : ¬ T.Lists d k n x := fun hl =>
  absurd (hn ▸ h.nlink_pos hl) (by decide)

lemma congr (hnlink : ∀ m, (T' m).nlink = (T m).nlink) (hdir : ∀ m, (T m).Dir → T' m = T m)
    (hbare : ∀ d, (T' d).type = T_DIR → (T' d).nlink = 0 → Bare d (T' d).slots)
    (hnew : ∀ m, (T' m).Dir → (T m).Dir) : T'.WellFormed N := by
  have hdirs (m) : (T' m).Dir ↔ (T m).Dir := ⟨hnew m, fun hm => (hdir m hm).symm ▸ hm⟩
  have hrefers (m x) : (T' m).refers x = (T m).refers x := by
    by_cases hm : (T m).Dir
    · rw [hdir m hm]
    · rw [refers_of_not_dir hm, refers_of_not_dir fun hd => hm (hnew m hd)]
  refine ⟨fun n hn => by rw [hnlink, h.bound n hn], ?_, fun n => ?_, hbare⟩
  · have hD : (fun d => (T' d).Dir) = fun d => (T d).Dir := funext fun d => propext (hdirs d)
    have hR : T'.Lists = T.Lists := by
      funext a b c y
      refine propext ⟨fun ⟨ha, hu⟩ => ?_, fun ⟨ha, hu⟩ => ?_⟩
      · have ha := hnew a ha
        exact ⟨ha, hdir a ha ▸ hu⟩
      · exact ⟨(hdirs a).mpr ha, (hdir a ha).symm ▸ hu⟩
    rw [hD, hR]
    exact h.forest
  · rw [hnlink, h.exact, Tree.links, Tree.links, sum_congr rfl fun m _ => hrefers m n]

lemma frees (hf : T.Frees T') : T'.WellFormed N := by
  have hnlink (m) : (T' m).nlink = (T m).nlink := by
    rcases hf m with e | ⟨hz, e⟩
    · rw [e]
    · rw [e, hz]
      rfl
  refine h.congr hnlink (fun m hm => hf.eq_of_nlink hm.nlink_ne) (fun d ht hz => ?_) fun m hm => ?_
  · have htype : (T' d).type ≠ 0 := by
      rw [ht]
      decide
    rw [hf.eq_of_type htype] at ht ⊢
    exact h.bare d ht (hnlink d ▸ hz)
  · rcases hf m with e | ⟨hz, e⟩
    · exact e ▸ hm
    · exact absurd hm (not_dir_of_nlink (by rw [hnlink, hz]))

lemma spare (hn : T n = .free) (hz : nd.nlink = 0) (hb : Bare n nd.slots) : (T.set n nd).WellFormed N := by
  have hne {m : Nat} (hm : (T m).Dir) : m ≠ n := by
    rintro rfl
    rw [hn] at hm
    exact hm.nlink_ne rfl
  refine h.congr (fun m => ?_) (fun m hm => T.set_of_ne _ (hne hm)) (fun d ht hd => ?_) fun m hm => ?_
  · by_cases e : m = n
    · rw [e, Tree.set_self, hz, hn]
      rfl
    · rw [T.set_of_ne _ e]
  · by_cases e : d = n
    · rw [e, Tree.set_self]
      exact hb
    · rw [T.set_of_ne _ e] at ht hd ⊢
      exact h.bare d ht hd
  · by_cases e : m = n
    · rw [e, Tree.set_self] at hm
      exact absurd hm (not_dir_of_nlink hz)
    · rwa [T.set_of_ne _ e] at hm

/-- A change of directory `d`, which stays one, and of inode `n`, at most. -/
lemma exchange (hd : (T d).Dir) (hd' : (T' d).Dir) (hnN : n < N) (hother : ∀ m, m ≠ n → m ≠ d → T' m = T m)
    (hbare : (T' n).type = T_DIR → (T' n).nlink = 0 → Bare n (T' n).slots)
    (hforest : Forest conventions (fun d => (T' d).Dir) T'.Lists)
    (hexact : ∀ m, (T' m).nlink.toInt = T'.links N m) : T'.WellFormed N := by
  refine ⟨fun m hm => ?_, hforest, hexact, fun m ht hz => ?_⟩
  · rw [hother m (by omega) (by have := h.lt_of_dir hd; omega)]
    exact h.bound m hm
  · by_cases e : m = n
    · exact e ▸ hbare (e ▸ ht) (e ▸ hz)
    · by_cases e' : m = d
      · exact absurd (e' ▸ hz) hd'.nlink_ne
      · rw [hother m e e'] at ht hz ⊢
        exact h.bare m ht hz

/-! ### New names -/

lemma ne_dot (hd : (T d).Dir) (hx : ∀ k n, ¬ T.Lists d k n x) : x ≠ nameStr dot := by
  rintro rfl
  exact hx _ _ (h.forest.dot hd)

/-- **A new name** for inode `n`, which is no directory, in directory `d`. -/
lemma addFile (nd : Node) (hd : (T d).Dir) (hroom : TreeOp.Room T d k x) (hn : n ≠ 0) (hnN : n < N)
    (htype : (T n).type ≠ T_DIR) (hnd : nd.type ≠ T_DIR) (hnlink : nd.nlink.toInt = (T n).nlink.toInt + 1)
    (hself : T' d = { T d with slots := splice (T d).slots k [(n, x)] }) (hnew : T' n = nd)
    (hother : ∀ m, m ≠ n → m ≠ d → T' m = T m) : T'.WellFormed N := by
  have hne : n ≠ d := fun e => htype (e ▸ hd.1)
  have hfree (j c) : ¬ T.Lists d j c x := fun hl => not_used_of_find hroom.fresh hl.2
  have hdot := h.ne_dot hd hfree
  have hdn : ¬ (T n).Dir := not_dir_of_type htype
  have hdn' : ¬ (T' n).Dir := hnew ▸ not_dir_of_type hnd
  have hdirs (m) : (T' m).Dir ↔ (T m).Dir := by
    by_cases e : m = n
    · exact e ▸ iff_of_false hdn' hdn
    · by_cases e' : m = d
      · rw [e', hself]
        exact Iff.rfl
      · rw [hother m e e']
  have hd' : (T' d).Dir := (hdirs d).mpr hd
  refine h.exchange hd hd' hnN hother (fun ht _ => absurd ht (hnew ▸ hnd)) ?_ fun m => ?_
  · have hD : (fun d => (T' d).Dir) = fun d => (T d).Dir := funext fun m => propext (hdirs m)
    have hR : T'.Lists = fun a b c y => T.Lists a b c y ∨ a = d ∧ b = k ∧ c = n ∧ y = x := by
      funext a b c y
      refine propext ?_
      rw [Tree.Lists, Tree.Lists, hdirs a]
      by_cases e : a = d
      · subst e
        rw [hself, used_splice hroom.vacant hn]
        simp [hd]
      · by_cases e' : a = n
        · subst e'
          simp [hdn, e]
        · simp [hother a e' e, e]
    rw [hD, hR]
    exact h.forest.add hd (fun c y hl => hroom.vacant.not_used hl.2) hfree hdn
  · have hx := links_exchange_two T' (h.lt_of_dir hd) hnN hne hother m
    rw [refers_of_dir hd, refers_of_dir hd', refers_of_not_dir hdn, refers_of_not_dir hdn', hself,
      refersIn_splice hroom.vacant hdot hn] at hx
    have hm := h.exact m
    by_cases e : m = n
    · subst e
      rw [if_pos rfl] at hx
      rw [hnew, hnlink]
      omega
    · rw [if_neg (Ne.symm e)] at hx
      have hnl : (T' m).nlink = (T m).nlink := by
        by_cases e' : m = d
        · rw [e', hself]
        · rw [hother m e e']
      rw [hnl]
      omega

/-- **A new directory** `n` in directory `d`. -/
lemma addDir (hd : (T d).Dir) (hroom : TreeOp.Room T d k x) (hn : n ≠ 0) (hnN : n < N)
    (hfree : T n = .free) (hmax : (T d).nlink < 32767)
    (hself : T' d = { T d with nlink := (T d).nlink + 1, slots := splice (T d).slots k [(n, x)] })
    (hnew : T' n = ⟨T_DIR, 1, [(n, nameStr dot), (d, nameStr dotdot)]⟩)
    (hother : ∀ m, m ≠ n → m ≠ d → T' m = T m) : T'.WellFormed N := by
  have hdn : ¬ (T n).Dir := hfree ▸ not_dir_of_nlink rfl
  have hne : n ≠ d := fun e => hdn (e ▸ hd)
  have hd0 : d ≠ 0 := (h.forest.dot hd).2.2
  have hx (j c) : ¬ T.Lists d j c x := fun hl => not_used_of_find hroom.fresh hl.2
  have hdot := h.ne_dot hd hx
  have hup := toInt_add_one hmax
  have hdn' : (T' n).Dir := by
    rw [hnew]
    exact ⟨rfl, Int16.le_refl 1⟩
  have hd' : (T' d).Dir := by
    rw [hself]
    refine ⟨hd.1, one_le_iff_toInt.mpr ?_⟩
    have := one_le_iff_toInt.mp hd.2
    simp only
    omega
  have hdirs (m) : (T' m).Dir ↔ (T m).Dir ∨ m = n := by
    by_cases e : m = n
    · subst e
      exact iff_of_true hdn' (.inr rfl)
    · by_cases e' : m = d
      · subst e'
        exact iff_of_true hd' (.inl hd)
      · simp [hother m e e', e]
  have hused (b c y) : Used (T' n).slots b c y ↔
      b = 0 ∧ c = n ∧ y = nameStr dot ∨ b = 1 ∧ c = d ∧ y = nameStr dotdot := by
    rw [hnew, Used]
    match b with
    | 0 => simp; grind
    | 1 => simp; grind
    | b + 2 => simp
  refine h.exchange hd hd' hnN hother (fun _ hz => absurd hz hdn'.nlink_ne) ?_ fun m => ?_
  · have hD : (fun d => (T' d).Dir) = fun a => (T a).Dir ∨ a = n := funext fun m => propext (hdirs m)
    have hR : T'.Lists = fun a b c y => T.Lists a b c y ∨ a = d ∧ b = k ∧ c = n ∧ y = x ∨
        a = n ∧ b = conventions.self ∧ c = n ∧ y = conventions.dot ∨
        a = n ∧ b = conventions.up ∧ c = d ∧ y = conventions.dotdot := by
      funext a b c y
      refine propext ?_
      rw [Tree.Lists, Tree.Lists, hdirs a]
      by_cases e : a = d
      · subst e
        rw [hself, used_splice hroom.vacant hn]
        simp [hd, hne.symm]
      · by_cases e' : a = n
        · subst e'
          rw [hused]
          simp [hdn, e, conventions]
        · simp [hother a e' e, e, e']
    rw [hD, hR]
    exact h.forest.mkdir hd (fun c y hl => hroom.vacant.not_used hl.2) hx hdn
      fun a b y => h.not_lists (hfree ▸ rfl)
  · have hsum := links_exchange_two T' (h.lt_of_dir hd) hnN hne hother m
    have hnewRefers : (T' n).refers m = if d = m then 1 else 0 := by
      rw [refers_of_dir hdn', hnew]
      by_cases e : d = m
      · simp [refersIn, Refers, e, e ▸ hd0, show nameStr dotdot ≠ nameStr dot by decide]
      · simp [refersIn, Refers, e]
    rw [hnewRefers, refers_of_dir hd, refers_of_dir hd', refers_of_not_dir hdn, hself,
      refersIn_splice hroom.vacant hdot hn] at hsum
    have hm := h.exact m
    by_cases e : m = n
    · subst e
      rw [if_pos rfl, if_neg hne.symm] at hsum
      have hz : (T m).nlink.toInt = 0 := by rw [hfree]; rfl
      have hone : (T' m).nlink.toInt = 1 := by rw [hnew]; rfl
      omega
    · rw [if_neg (Ne.symm e)] at hsum
      by_cases e' : m = d
      · subst e'
        rw [if_pos rfl] at hsum
        rw [hself]
        simp only
        omega
      · rw [if_neg (Ne.symm e')] at hsum
        rw [hother m e e']
        omega

/-! ### Names that go -/

/-- A directory with an entry other than `.` and `..` has links. -/
lemma dir_of_used (ht : (T d).type = T_DIR) (hu : Used (T d).slots k n x) (hx : n ≠ d ∨ x ≠ nameStr dot)
    (hx' : x ≠ nameStr dotdot) : (T d).Dir := by
  refine ⟨ht, h.pos_of_ne_zero fun hz => ?_⟩
  rcases h.bare d ht hz k n x hu.1 hu.2 with ⟨e, e'⟩ | e
  · rcases hx with hx | hx
    · exact hx e'
    · exact hx e
  · exact hx' e

/-- **A name goes**, of inode `n` which is no directory. -/
lemma removeFile (hd : (T d).Dir) (hu : Used (T d).slots k n x) (hx : conventions.Proper x)
    (htype : (T n).type ≠ T_DIR) (hself : T' d = { T d with slots := splice (T d).slots k [(0, y)] })
    (hnew : T' n = { T n with nlink := (T n).nlink - 1 })
    (hother : ∀ m, m ≠ n → m ≠ d → T' m = T m) : T'.WellFormed N := by
  have hne : n ≠ d := fun e => htype (e ▸ hd.1)
  have hdn : ¬ (T n).Dir := not_dir_of_type htype
  have hdn' : ¬ (T' n).Dir := not_dir_of_type (hnew ▸ htype)
  have hpos := h.nlink_pos ⟨hd, hu⟩
  have hnN : n < N := by
    by_contra hge
    rw [h.bound n (not_lt.mp hge)] at hpos
    exact absurd hpos (by decide)
  have hdirs (m) : (T' m).Dir ↔ (T m).Dir := by
    by_cases e : m = n
    · exact e ▸ iff_of_false hdn' hdn
    · by_cases e' : m = d
      · rw [e', hself]
        exact Iff.rfl
      · rw [hother m e e']
  have hd' : (T' d).Dir := (hdirs d).mpr hd
  refine h.exchange hd hd' hnN hother (fun ht _ => absurd ht (hnew ▸ htype)) ?_ fun m => ?_
  · have hD : (fun d => (T' d).Dir) = fun d => (T d).Dir := funext fun m => propext (hdirs m)
    have hR : T'.Lists = fun a b c y => T.Lists a b c y ∧ ¬ (a = d ∧ b = k) := by
      funext a b c y
      refine propext ?_
      rw [Tree.Lists, Tree.Lists, hdirs a]
      by_cases e : a = d
      · subst e
        rw [hself, used_clear hu.lt.le]
        simp [and_assoc]
      · by_cases e' : a = n
        · subst e'
          simp [hdn]
        · simp [hother a e' e, e]
    rw [hD, hR]
    exact h.forest.remove ⟨hd, hu⟩ hx hdn
  · have hsum := links_exchange_two T' (h.lt_of_dir hd) hnN hne hother m
    have hclear := refersIn_clear (y := y) hu hx.1 m
    rw [refers_of_dir hd, refers_of_dir hd', refers_of_not_dir hdn, refers_of_not_dir hdn', hself] at hsum
    dsimp only at hsum
    have hm := h.exact m
    by_cases e : m = n
    · subst e
      rw [if_pos rfl] at hclear
      rw [hnew]
      simp only [toInt_sub_one hpos]
      omega
    · rw [if_neg (Ne.symm e)] at hclear
      have hnl : (T' m).nlink = (T m).nlink := by
        by_cases e' : m = d
        · rw [e', hself]
        · rw [hother m e e']
      rw [hnl]
      omega

/-- **An inode gets another name** in its directory. -/
lemma moveName (hd : (T d).Dir) (hroom : TreeOp.Room T d k x) (hu : Used (T d).slots k' n y)
    (hy : conventions.Proper y) {z : List UInt8}
    (hself : T' d = { T d with slots := splice (splice (T d).slots k [(n, x)]) k' [(0, z)] })
    (hother : ∀ m, m ≠ d → T' m = T m) : T'.WellFormed N := by
  have hx (j c) : ¬ T.Lists d j c x := fun hl => not_used_of_find hroom.fresh hl.2
  have hdot := h.ne_dot hd hx
  have hkk : k' ≠ k := fun e => hroom.vacant.not_used (e ▸ hu)
  have hu' : Used (splice (T d).slots k [(n, x)]) k' n y := (used_splice hroom.vacant hu.2).mpr (.inl hu)
  have hnlink (m) : (T' m).nlink = (T m).nlink ∧ (T' m).type = (T m).type := by
    by_cases e : m = d
    · rw [e, hself]
      exact ⟨rfl, rfl⟩
    · rw [hother m e]
      exact ⟨rfl, rfl⟩
  have hdirs (m) : (T' m).Dir ↔ (T m).Dir := by rw [Node.Dir, Node.Dir, (hnlink m).1, (hnlink m).2]
  have hd' : (T' d).Dir := (hdirs d).mpr hd
  refine ⟨fun m hm => (hnlink m).1.trans (h.bound m hm), ?_, fun m => ?_, fun m ht hz => ?_⟩
  · have hD : (fun d => (T' d).Dir) = fun d => (T d).Dir := funext fun m => propext (hdirs m)
    have hR : T'.Lists = fun a b c w => T.Lists a b c w ∧ ¬ (a = d ∧ b = k') ∨ a = d ∧ b = k ∧ c = n ∧ w = x := by
      funext a b c w
      refine propext ?_
      rw [Tree.Lists, Tree.Lists, hdirs a]
      by_cases e : a = d
      · subst e
        rw [hself, used_clear hu'.lt.le, used_splice hroom.vacant hu.2]
        simp only [hd, true_and]
        grind
      · simp [hother a e, e]
    rw [hD, hR]
    exact h.forest.move ⟨hd, hu⟩ hy (fun c w hl => hroom.vacant.not_used hl.2) hx
  · have hsum := links_exchange T' (h.lt_of_dir hd) hother m
    have hclear := refersIn_clear (y := z) hu' hy.1 m
    rw [refersIn_splice hroom.vacant hdot hu.2] at hclear
    rw [refers_of_dir hd, refers_of_dir hd', hself] at hsum
    dsimp only at hsum
    have hm := h.exact m
    rw [(hnlink m).1]
    omega
  · by_cases e : m = d
    · subst e
      exact absurd hz hd'.nlink_ne
    · rw [hother m e] at ht hz ⊢
      exact h.bare m ht hz

/-! ### Directories that go -/

/-- An empty directory lists nothing under a proper name. -/
lemma not_proper_of_empty (hempty : EmptyDir (T n).slots) (hl : T.Lists n k m x) : ¬ conventions.Proper x := by
  intro hx
  match k with
  | 0 => exact hx.1 (h.forest.slot hl (h.forest.dot hl.1)).2
  | 1 =>
    obtain ⟨p, hp⟩ := h.forest.up hl.1
    exact hx.2 (h.forest.slot hl hp).2
  | k + 2 => exact hl.2.2 (hempty (k + 2) _ (by omega) hl.2.1)

section

variable (hl : T.Lists d k n x)

include hl

/-- The parent of a named directory is where it is named. -/
lemma up_of_named (hx : conventions.Proper x) (hn : (T n).Dir) :
    T.Lists n conventions.up d conventions.dotdot := (h.forest.named hl hx hn).2

lemma links_of_empty (hx : conventions.Proper x) (hn : (T n).Dir)
    (hempty : EmptyDir (T n).slots) : T.links N n = 1 := by
  have hup := h.up_of_named hl hx hn
  -- an entry that refers to it is its name
  have hall {a b y} (ha : T.Lists a b n y) (hy : y ≠ nameStr dot) : a = d ∧ b = k := by
    have hproper : conventions.Proper y := by
      refine ⟨hy, ?_⟩
      rintro rfl
      have haup := h.eq_up ha
      have hroot : a ≠ conventions.root := by
        rintro rfl
        exact (h.forest.named hl hx hn).1 (h.forest.slot haup h.forest.rootUp).1
      obtain ⟨p, j, w, hp, hpa, hw⟩ := h.forest.parent ha.1 hroot
      obtain rfl := (h.forest.slot haup hp).1
      exact h.not_proper_of_empty hempty hpa hw
    obtain rfl := (h.forest.slot (h.up_of_named ha hproper hn) hup).1
    exact ⟨rfl, h.forest.single ha hproper hl hx hn⟩
  have hd : (T d).refers n = 1 := by
    rw [refers_of_dir hl.1]
    refine le_antisymm (refersIn_le_one fun i j y z hi hy hj hz => ?_) (refersIn_pos hl.2 hx.1)
    rw [(hall ⟨hl.1, hi⟩ hy).2, (hall ⟨hl.1, hj⟩ hz).2]
  rw [Tree.links, sum_eq_single d (fun a _ hne => ?_)
    fun hno => absurd (mem_range.mpr (h.lt_of_dir hl.1)) hno, hd]
  by_cases ha : (T a).Dir
  · rw [refers_of_dir ha]
    refine refersIn_eq_zero fun j y hj => ?_
    by_contra hy
    exact hne (hall ⟨ha, hj⟩ hy).1
  · exact refers_of_not_dir ha n

lemma refers_of_empty (hx : conventions.Proper x) (hn : (T n).Dir)
    (hempty : EmptyDir (T n).slots) (m : Nat) : (T n).refers m = if d = m then 1 else 0 := by
  have hup := h.up_of_named hl hx hn
  -- its only entries are the first two
  have hall {b c y} (hu : Used (T n).slots b c y) (hy : y ≠ nameStr dot) : c = d ∧ b = conventions.up := by
    have hl' : T.Lists n b c y := ⟨hn, hu⟩
    by_cases hyy : y = nameStr dotdot
    · subst hyy
      exact ⟨(h.forest.slot (h.eq_up hl') hup).1, h.forest.distinct hl' hup⟩
    · exact absurd ⟨hy, hyy⟩ (h.not_proper_of_empty hempty hl')
  rw [refers_of_dir hn]
  by_cases e : d = m
  · subst e
    rw [if_pos rfl]
    refine le_antisymm (refersIn_le_one fun i j y z hi hy hj hz => ?_) (refersIn_pos hup.2 (by decide))
    rw [(hall hi hy).2, (hall hj hz).2]
  · rw [if_neg e]
    refine refersIn_eq_zero fun j y hj => ?_
    by_contra hy
    exact e (hall hj hy).1.symm

/-- A directory with a directory in it that is empty has another link. -/
lemma two_le_of_empty (hx : conventions.Proper x) (hn : (T n).Dir)
    (hempty : EmptyDir (T n).slots) : 2 ≤ T.links N d := by
  have hup := h.up_of_named hl hx hn
  by_cases hroot : d = conventions.root
  · subst hroot
    exact h.two_le_links h.forest.rootUp (by decide) hup (by decide) (h.forest.named hl hx hn).1.symm
  · obtain ⟨p, j, w, -, hp, hw⟩ := h.forest.parent hl.1 hroot
    refine h.two_le_links hp hw.1 hup (by decide) ?_
    rintro rfl
    exact h.not_proper_of_empty hempty hp hw

end

/-- **An empty directory goes.** -/
lemma removeDir (hd : (T d).Dir) (hu : Used (T d).slots k n x) (hx : conventions.Proper x) (hne : n ≠ d)
    (hn : (T n).Dir) (hempty : EmptyDir (T n).slots)
    (hself : T' d = { T d with nlink := (T d).nlink - 1, slots := splice (T d).slots k [(0, y)] })
    (hnew : T' n = { T n with nlink := (T n).nlink - 1 })
    (hother : ∀ m, m ≠ n → m ≠ d → T' m = T m) : T'.WellFormed N := by
  have hl : T.Lists d k n x := ⟨hd, hu⟩
  have hone := h.links_of_empty hl hx hn hempty
  have htwo := h.two_le_of_empty hl hx hn hempty
  have hsubd := toInt_sub_one hd.2
  have hsubn := toInt_sub_one hn.2
  have hexd := h.exact d
  have hexn := h.exact n
  have hzn : (T' n).nlink = 0 := by
    rw [hnew]
    refine toInt_inj.mp ?_
    rw [hsubn]
    exact (by omega : (T n).nlink.toInt - 1 = 0)
  have hdn' : ¬ (T' n).Dir := not_dir_of_nlink hzn
  have hd' : (T' d).Dir := by
    rw [hself]
    refine ⟨hd.1, one_le_iff_toInt.mpr ?_⟩
    simp only
    omega
  have hdirs (m) : (T' m).Dir ↔ (T m).Dir ∧ m ≠ n := by
    by_cases e : m = n
    · subst e
      simp [hdn']
    · by_cases e' : m = d
      · subst e'
        exact iff_of_true hd' ⟨hd, e⟩
      · simp [hother m e e', e]
  refine h.exchange hd hd' (h.lt_of_dir hn) hother (fun _ _ => ?_) ?_ fun m => ?_
  · rw [hnew]
    intro b c w hb hc
    have hlist : T.Lists n b c w := ⟨hn, hb, hc⟩
    by_cases hw : w = nameStr dot
    · subst hw
      exact .inl ⟨rfl, h.eq_of_dot hlist⟩
    · by_contra hno
      exact h.not_proper_of_empty hempty hlist ⟨hw, fun e => hno (.inr e)⟩
  · have hD : (fun d => (T' d).Dir) = fun a => (T a).Dir ∧ a ≠ n := funext fun m => propext (hdirs m)
    have hR : T'.Lists = fun a b c y => T.Lists a b c y ∧ ¬ (a = d ∧ b = k) ∧ a ≠ n := by
      funext a b c y
      refine propext ?_
      rw [Tree.Lists, Tree.Lists, hdirs a]
      by_cases e : a = d
      · subst e
        rw [hself, used_clear hu.lt.le]
        simp [hd, hne.symm]
      · by_cases e' : a = n
        · subst e'
          simp
        · simp [hother a e' e, e, e']
    rw [hD, hR]
    exact h.forest.rmdir hl hx hn fun hl => h.not_proper_of_empty hempty hl
  · have hsum := links_exchange_two T' (h.lt_of_dir hd) (h.lt_of_dir hn) hne hother m
    have hclear := refersIn_clear (y := y) hu hx.1 m
    rw [h.refers_of_empty hl hx hn hempty, refers_of_dir hd, refers_of_dir hd', refers_of_not_dir hdn',
      hself] at hsum
    dsimp only at hsum
    have hm := h.exact m
    by_cases e : m = n
    · subst e
      rw [if_pos rfl] at hclear
      rw [if_neg hne.symm] at hsum
      rw [hzn]
      change (0 : Int) = _
      omega
    · rw [if_neg (Ne.symm e)] at hclear
      by_cases e' : m = d
      · subst e'
        rw [if_pos rfl] at hsum
        rw [hself]
        dsimp only
        omega
      · rw [if_neg (Ne.symm e')] at hsum
        rw [hother m e e']
        omega

end Tree.WellFormed

end

/-! ### Whatever calls do -/

/-- The change adds no entry to a directory without links, does not rename `..`, and no count overflows. -/
def TreeOp.Sane (T : Tree) : TreeOp → Prop
  | .create d _ _ _ type => 1 ≤ (T d).nlink ∧ (type = T_DIR → (T d).nlink < 32767)
  | .link d _ n _ => 1 ≤ (T d).nlink ∧ (T n).nlink < 32767
  | .rename _ _ _ _ old _ => old ≠ nameStr dotdot
  | _ => True

/-- The inodes in use are numbered from 1 up to `N`. -/
def Tree.Bounded (N : Nat) (T : Tree) : Prop := ∀ n, (T n).type ≠ 0 → 0 < n ∧ n < N

section

variable {T : Tree} {N : Nat} {op : TreeOp}

/-- **What calls do** to a well-formed tree leaves it well formed. -/
lemma Tree.WellFormed.apply (h : T.WellFormed N) (hN : T.Bounded N) (hop : op.Enabled T) (hs : op.Sane T)
    (hnew : ∀ d k n x type, op = .create d k n x type → n < N) : (op.apply T).WellFormed N := by
  cases op with
  | idle => exact h
  | spare n nd => exact h.spare hop.1 hop.2.1 hop.2.2
  | create d k n x type =>
    obtain ⟨hfree, hpos, htype, hroom⟩ := hop
    have hd : (T d).Dir := ⟨hroom.dir, hs.1⟩
    have hne : n ≠ d := by
      rintro rfl
      rw [hfree] at hd
      exact hd.nlink_ne rfl
    have hnN := hnew d k n x type rfl
    by_cases hdir : type = T_DIR
    · subst hdir
      refine h.addDir hd hroom hpos.ne' hnN hfree (hs.2 rfl) ?_ ?_ fun m hn hm => ?_ <;>
        simp [TreeOp.apply, TreeOp.firstSlots, Tree.setSlot, Tree.setNlink, Tree.set, *, hne.symm]
    · have hnd : (⟨type, 1, []⟩ : Node).nlink.toInt = (T n).nlink.toInt + 1 := by
        rw [hfree]
        rfl
      refine h.addFile ⟨type, 1, []⟩ hd hroom hpos.ne' hnN (by rw [hfree]; decide) hdir hnd
        ?_ ?_ fun m hn hm => ?_ <;>
        simp [TreeOp.apply, TreeOp.firstSlots, Tree.setSlot, Tree.set, *, hne.symm]
  | link d k n x =>
    obtain ⟨htype, hdir, hroom⟩ := hop
    have hne : n ≠ d := fun e => hdir (e ▸ hroom.dir)
    refine h.addFile { T n with nlink := (T n).nlink + 1 } ⟨hroom.dir, hs.1⟩ hroom
      (hN n htype).1.ne' (hN n htype).2 hdir hdir (toInt_add_one hs.2) ?_ ?_ fun m hn hm => ?_ <;>
      simp [TreeOp.apply, Tree.setSlot, Tree.setNlink, Tree.set, *, hne.symm]
  | unlink d k n x =>
    obtain ⟨hnames, hne, hdot, hdotdot, hpos, hempty⟩ := hop
    have hu : Used (T d).slots k n x := ⟨hnames.entry, (hN n hnames.node).1.ne'⟩
    have hd : (T d).Dir := h.dir_of_used hnames.dir hu (.inl hne) hdotdot
    by_cases hdir : (T n).type = T_DIR
    · refine h.removeDir (y := []) hd hu ⟨hdot, hdotdot⟩ hne ⟨hdir, hpos⟩ (hempty hdir) ?_ ?_
        fun m hn hm => ?_ <;>
        simp [TreeOp.apply, Tree.setSlot, Tree.setNlink, Tree.set, *, hne.symm]
    · refine h.removeFile (y := []) hd hu ⟨hdot, hdotdot⟩ hdir ?_ ?_ fun m hn hm => ?_ <;>
        simp [TreeOp.apply, Tree.setSlot, Tree.setNlink, Tree.set, *, hne.symm]
  | rename d k k' n old new =>
    obtain ⟨hroom, hnames, hne⟩ := hop
    have hu : Used (T d).slots k' n old := ⟨hnames.entry, (hN n hnames.node).1.ne'⟩
    have hd : (T d).Dir := h.dir_of_used hnames.dir hu (.inl hne) hs
    have hold : conventions.Proper old := by
      refine ⟨?_, hs⟩
      rintro rfl
      exact hne (h.eq_of_dot ⟨hd, hu⟩)
    refine h.moveName (z := old) hd hroom hu hold ?_ fun m hm => ?_ <;>
      simp [TreeOp.apply, Tree.setSlot, Tree.set, *]

end

end FypOs.Fs
