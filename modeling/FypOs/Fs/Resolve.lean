import FypOs.Fs.Alone
import FypOs.Fs.Boot

/-!
# Fs — a path is looked up component by component

* `elems`: the components of a path, the runs of bytes between its slashes, cut to the length of a name.
* `Tree.resolve`: the components looked up one after the other.
* `paths_resolve`: `namei` and `nameiparent` do that, and take one reference.
-/

namespace FypOs.Fs

open Lib Prog List

/-! ### Components -/

/-- The maximal runs of bytes other than a slash, each cut to the length of a name. -/
def elems (path : List UInt8) : List (List UInt8) :=
  ((path.splitOnP (· == slash)).filter (· ≠ [])).map (·.take DIRSIZ)

/-- `skipelem` again and again, until it finds no more component. -/
inductive Skips : List UInt8 → List Name → Prop
  | done {path : List UInt8} (h : skipelem path = none) : Skips path []
  | next {path rest : List UInt8} {name : Name} {names : List Name} (h : skipelem path = some (name, rest))
      (hs : Skips rest names) : Skips path (name :: names)

lemma elems_slash (l : List UInt8) : elems (slash :: l) = elems l := by
  rw [elems, splitOnP_cons_eq_if_modifyHead]
  rfl

lemma elems_dropWhile (l : List UInt8) : elems (l.dropWhile (· == slash)) = elems l := by
  induction l with
  | nil => rfl
  | cons c l ih =>
    rw [dropWhile_cons]
    split
    · rename_i hc
      rw [ih, eq_of_beq hc, elems_slash]
    · rfl

lemma elems_run {w d : List UInt8} (hw : ∀ c ∈ w, (c == slash) = false) (hne : w ≠ [])
    (hd : d = [] ∨ ∃ d', d = slash :: d') : elems (w ++ d) = w.take DIRSIZ :: elems d := by
  rcases hd with rfl | ⟨d', rfl⟩
  · rw [append_nil, elems, splitOnP_eq_singleton hw]
    simp [hne, elems]
  · rw [elems_slash, elems, splitOnP_append_cons_of_forall_mem hw _ (beq_self_eq_true slash)]
    simp [hne, elems]

lemma dropWhile_head (p : UInt8 → Bool) (l : List UInt8) :
    l.dropWhile p = [] ∨ ∃ c d, l.dropWhile p = c :: d ∧ p c = false := by
  cases h : l.dropWhile p with
  | nil => exact .inl rfl
  | cons c d =>
    have hne : l.dropWhile p ≠ [] := by simp [h]
    have := head_dropWhile_not p hne
    simp only [h, head_cons] at this
    exact .inr ⟨c, d, rfl, this⟩

lemma strOf_cstr {l : List UInt8} (h : ∀ c ∈ l, c ≠ 0) {n : Nat} (hn : l.length ≤ n) : strOf (cstr l) n = l := by
  induction l generalizing n with
  | nil =>
    cases n with
    | zero => rfl
    | succ n => rfl
  | cons c l ih =>
    cases n with
    | zero => cases hn
    | succ n =>
      have hc : cstr (c :: l) 0 = c := rfl
      rw [strOf, hc, if_neg (h c mem_cons_self)]
      exact congrArg (c :: ·) (ih (fun x hx => h x (mem_cons_of_mem c hx)) (Nat.le_of_succ_le_succ hn))

/-- The first component of a path that does not begin with a slash. -/
lemma elems_first {c : UInt8} {d : List UInt8} (hc : (c == slash) = false) :
    elems (c :: d) = ((c :: d).takeWhile (· != slash)).take DIRSIZ :: elems ((c :: d).dropWhile (· != slash)) := by
  have hrun : (c :: d).takeWhile (· != slash) ≠ [] := by
    rw [takeWhile_cons, if_pos (by simp only [bne, hc, Bool.not_false])]
    exact cons_ne_nil _ _
  have hw : ∀ x ∈ (c :: d).takeWhile (· != slash), (x == slash) = false := fun x hx => by
    have := all_eq_true.mp (all_takeWhile (p := (· != slash)) (l := c :: d)) x hx
    simpa using this
  have hd : (c :: d).dropWhile (· != slash) = [] ∨ ∃ d', (c :: d).dropWhile (· != slash) = slash :: d' := by
    rcases dropWhile_head (· != slash) (c :: d) with h | ⟨x, y, h, hx⟩
    · exact .inl h
    · rw [bne_eq_false_iff_eq] at hx
      exact .inr ⟨y, hx ▸ h⟩
  have hsplit := elems_run hw hrun hd
  rwa [takeWhile_append_dropWhile] at hsplit

lemma skipelem_none {path : List UInt8} : skipelem path = none ↔ elems path = [] := by
  rw [skipelem, ← elems_dropWhile path]
  rcases dropWhile_head (· == slash) path with h | ⟨c, d, h, hc⟩
  · rw [h]
    exact ⟨fun _ => rfl, fun _ => rfl⟩
  · rw [h, elems_first hc]
    exact ⟨fun e => (by cases e), fun e => (by cases e)⟩

/-- **`skipelem` takes the first component off**; what is left does not begin with a slash. -/
lemma skipelem_some {path rest : List UInt8} {name : Name} (hpath : ∀ c ∈ path, c ≠ 0)
    (h : skipelem path = some (name, rest)) :
    elems path = nameStr name :: elems rest ∧ (elems rest = [] → rest = []) ∧ rest.length < path.length ∧
      ∀ c ∈ rest, c ≠ 0 := by
  have hsuf := dropWhile_suffix (l := path) (· == slash)
  rw [skipelem] at h
  rcases dropWhile_head (· == slash) path with hp | ⟨c, d, hp, hc⟩
  · rw [hp] at h
    cases h
  rw [hp] at h hsuf
  simp only [cons_ne_nil, if_false, Option.some.injEq, Prod.mk.injEq] at h
  obtain ⟨rfl, rfl⟩ := h
  have hrest : (((c :: d).dropWhile (· != slash)).dropWhile (· == slash)) <:+ d := by
    rw [dropWhile_cons, if_pos (by simp only [bne, hc, Bool.not_false])]
    exact (dropWhile_suffix _).trans (dropWhile_suffix _)
  have hlong := hsuf.length_le
  refine ⟨?_, fun he => ?_, ?_, fun x hx => hpath x (hsuf.subset (mem_cons_of_mem c (hrest.subset hx)))⟩
  · have hbytes : ∀ x ∈ ((c :: d).takeWhile (· != slash)).take DIRSIZ, x ≠ 0 := fun x hx =>
      hpath x (hsuf.subset ((takeWhile_sublist _).subset (mem_of_mem_take hx)))
    rw [← elems_dropWhile path, hp, elems_first hc, elems_dropWhile, nameStr,
      strOf_cstr hbytes (length_take_le ..)]
  · rcases dropWhile_head (· == slash) ((c :: d).dropWhile (· != slash)) with hn | ⟨x, y, hn, hx⟩
    · exact hn
    · rw [hn, elems_first hx] at he
      cases he
  · have := hrest.length_le
    rw [length_cons] at hlong
    omega

/-- Skipping comes to an end, and has found the components. -/
lemma skips_elems (path : List UInt8) (hpath : ∀ c ∈ path, c ≠ 0) :
    ∃ names, Skips path names ∧ names.map nameStr = elems path := by
  cases h : skipelem path with
  | none => exact ⟨[], .done h, (skipelem_none.mp h).symm⟩
  | some q =>
    obtain ⟨name, rest⟩ := q
    obtain ⟨helems, -, hlt, hrest⟩ := skipelem_some hpath h
    obtain ⟨names, hs, hn⟩ := skips_elems rest hrest
    exact ⟨name :: names, .next h hs, by rw [map_cons, hn, helems]⟩
  termination_by path.length

/-! ### Looking components up -/

namespace Tree

variable {T : Tree} {fuel n : Nat}

/-- One component, looked up in an inode that has to be a directory. -/
def step (T : Tree) (n : Nat) (c : List UInt8) : Option Nat := if (T n).type = T_DIR then T.lookup n c else none

/-- **The components, one after the other**. -/
def resolve (T : Tree) (n : Nat) (cs : List (List UInt8)) : Option Nat := cs.foldlM T.step n

/-- The directory of the last component, and that component. -/
def resolveParent (T : Tree) (n : Nat) (cs : List (List UInt8)) : Option (Nat × List UInt8) :=
  (T.resolve n cs.dropLast).bind fun d => if (T d).type = T_DIR then cs.getLast?.map (d, ·) else none

@[simp] lemma resolve_nil (n : Nat) : T.resolve n [] = some n := rfl

lemma resolve_cons (n : Nat) (c : List UInt8) (cs : List (List UInt8)) :
    T.resolve n (c :: cs) = (T.step n c).bind fun m => T.resolve m cs := foldlM_cons

/-- The last component is looked up in the directory of the others. -/
lemma resolve_of_parent {n d : Nat} {c : List UInt8} {cs : List (List UInt8)}
    (h : T.resolveParent n cs = some (d, c)) : T.resolve n cs = T.lookup d c := by
  obtain ⟨d', hd, hc⟩ := Option.bind_eq_some_iff.mp h
  split at hc
  · rename_i hdir
    obtain ⟨c', hlast, hpair⟩ := Option.map_eq_some_iff.mp hc
    obtain ⟨rfl, rfl⟩ := Prod.mk.inj hpair
    have hcs : cs = cs.dropLast ++ [c'] := (dropLast_append_getLast? c' hlast).symm
    rw [hcs, resolve, foldlM_append]
    show (T.resolve n cs.dropLast).bind _ = _
    rw [hd]
    simp [step, hdir]
  · cases hc

lemma walkFrom_resolve {path : List UInt8} (hpath : ∀ c ∈ path, c ≠ 0) (hfuel : path.length ≤ fuel) :
    T.walkFrom false fuel n path = (T.resolve n (elems path)).map fun m => (m, cstr []) := by
  induction fuel generalizing n path with
  | zero =>
    rw [length_eq_zero_iff.mp (Nat.le_zero.mp hfuel)]
    rfl
  | succ fuel ih =>
    cases h : skipelem path with
    | none =>
      rw [walkFrom_end h, skipelem_none.mp h]
      rfl
    | some q =>
      obtain ⟨name, rest⟩ := q
      obtain ⟨helems, -, hlt, hrest⟩ := skipelem_some hpath h
      rw [helems, resolve_cons, step]
      by_cases hdir : (T n).type = T_DIR
      · rw [walkFrom_dir h hdir (fun e => (by cases e.1)), if_pos hdir, Option.map_bind]
        refine congrArg (Option.bind (T.lookup n (nameStr name))) (funext fun m => ?_)
        exact ih hrest (by omega)
      · rw [walkFrom_file h hdir, if_neg hdir]
        rfl

lemma walkFrom_resolveParent {path : List UInt8} (hpath : ∀ c ∈ path, c ≠ 0) (hfuel : path.length ≤ fuel) :
    (T.walkFrom true fuel n path).map (fun q => (q.1, nameStr q.2)) = T.resolveParent n (elems path) := by
  induction fuel generalizing n path with
  | zero =>
    rw [length_eq_zero_iff.mp (Nat.le_zero.mp hfuel)]
    show none = _
    simp [resolveParent, elems]
  | succ fuel ih =>
    cases h : skipelem path with
    | none =>
      rw [walkFrom_end h, skipelem_none.mp h]
      simp [resolveParent]
    | some q =>
      obtain ⟨name, rest⟩ := q
      obtain ⟨helems, hnil, hlt, hrest⟩ := skipelem_some hpath h
      rw [helems]
      by_cases hdir : (T n).type = T_DIR
      · by_cases hlast : rest = []
        · rw [walkFrom_last h hdir ⟨rfl, hlast⟩, hlast]
          simp [resolveParent, elems, hdir]
        · rw [walkFrom_dir h hdir (fun e => hlast e.2)]
          have hne : elems rest ≠ [] := fun e => hlast (hnil e)
          rw [resolveParent, dropLast_cons_of_ne_nil hne, resolve_cons, step, if_pos hdir,
            getLast?_cons_of_ne_nil hne, Option.map_bind, Option.bind_assoc]
          refine congrArg (Option.bind (T.lookup n (nameStr name))) (funext fun m => ?_)
          exact ih hrest (by omega)
      · rw [walkFrom_file h hdir, resolveParent]
        cases hr : elems rest with
        | nil => simp [hdir]
        | cons c cs =>
          rw [dropLast_cons_of_ne_nil (by simp), resolve_cons, step, if_neg hdir]
          rfl

end Tree

/-! ### The walks -/

/-- Where a walk starts. -/
def State.start (s : State) (path : List UInt8) : Nat :=
  if path.head? = some slash then ROOTINO else (s.itable s.me.cwd).inum

/-- One reference more to what was found, and none if nothing was. -/
def OneMore (s s' : State) (r : Option (Fin NINODE)) : Prop :=
  ∀ j, (s'.itable j).ref = (s.itable j).ref + if r = some j then 1 else 0

variable {s s' : State} {path : List UInt8}

lemma oneMore_of_keeps {X : Nat → Prop} {r : Option (Fin NINODE × Name)} (h : Keeps X 0 (walkHold r) s s') :
    OneMore s s' (r.map Prod.fst) := by
  intro j
  have hr := h.ref j
  cases r with
  | none => simpa [walkHold] using hr
  | some q => simpa [walkHold, Hold.ref, Multiset.count_singleton, eq_comm] using hr

section

variable (h : Covers 0 s) (hcwd : 0 < (s.itable s.me.cwd).ref) (hpath : ∀ c ∈ path, c ≠ 0)

include h hcwd hpath

/-- What a walk along a path without a NUL finds. -/
lemma namex_resolves (parent : Bool) : wp (namex path parent) (fun r s' => Keeps (fun _ => True) 0 (walkHold r) s s' ∧
      r.map (fun q => ((s'.itable q.1).inum, nameStr q.2)) = (if parent
        then s.tree.resolveParent (s.start path) (elems path)
        else (s.tree.resolve (s.start path) (elems path)).map fun m => (m, [])) ∧
      (parent = true → ∀ q, r = some q → Held s' q.1 ∧ (s'.itable q.1).d.type = T_DIR)) Stops s := by
  refine (namex_does (X := fun _ => True) hcwd path parent (.refl s.tree) h).post fun r s' hr => ?_
  obtain ⟨hk, -, hwalk, hdir⟩ := hr
  refine ⟨hk, ?_, hdir⟩
  have hstr : r.map (fun q => ((s'.itable q.1).inum, nameStr q.2)) =
      (s.tree.walk (s.itable s.me.cwd).inum path parent).map fun q => (q.1, nameStr q.2) := by
    rw [← hwalk, Option.map_map]
    rfl
  rw [hstr]
  cases parent with
  | true => exact Tree.walkFrom_resolveParent hpath (le_refl _)
  | false =>
    rw [Tree.walk, Tree.walkFrom_resolve hpath (le_refl _), Option.map_map]
    rfl

/-- What `namei` has to do: the inode the components lead to, and a reference to it. -/
def Named (s : State) (path : List UInt8) (r : Option (Fin NINODE)) (s' : State) : Prop :=
  r.map (fun i => (s'.itable i).inum) = s.tree.resolve (s.start path) (elems path) ∧ OneMore s s' r

/-- What `nameiparent` has to do. -/
def ParentNamed (s : State) (path : List UInt8) (r : Option (Fin NINODE × Name)) (s' : State) : Prop :=
  r.map (fun q => ((s'.itable q.1).inum, nameStr q.2)) = s.tree.resolveParent (s.start path) (elems path) ∧
    OneMore s s' (r.map Prod.fst)

lemma namei_named : wp (namei path) (Named s path) Stops s := by
  refine wp_bind.mpr ((namex_resolves h hcwd hpath false).post fun r s' hr => wp_pure.mpr ⟨?_, oneMore_of_keeps hr.1⟩)
  have := congrArg (Option.map Prod.fst) hr.2.1
  simpa [Option.map_map, Function.comp_def] using this

lemma nameiparent_named : wp (nameiparent path) (ParentNamed s path) Stops s :=
  (namex_resolves h hcwd hpath true).post fun _ _ hr => ⟨hr.2.1, oneMore_of_keeps hr.1⟩

end

/-- **Path resolution is component-wise lookup.**  `skipelem` yields the components; whenever `namei` and `nameiparent`
return, they have looked them up one after the other; and they return where no inode is locked, the entries of
directories lead to allocated inodes and two entries of the inode table are unused. -/
theorem paths_resolve (s : State) (h : Covers 0 s) (hcwd : 0 < (s.itable s.me.cwd).ref) (path : List UInt8)
    (hpath : ∀ c ∈ path, c ≠ 0) : (∃ names, Skips path names ∧ names.map nameStr = elems path) ∧
    (∀ r s', namei path s = .ok (r, s') → Named s path r s') ∧
    (∀ r s', nameiparent path s = .ok (r, s') → ParentNamed s path r s') ∧
    (elems path = [] → s.tree.resolveParent (s.start path) (elems path) = none) ∧
    (∀ d c, s.tree.resolveParent (s.start path) (elems path) = some (d, c) →
      s.tree.resolve (s.start path) (elems path) = s.tree.lookup d c) ∧
    (Walkable s → 1 < s.unused.card → (∃ r s', namei path s = .ok (r, s') ∧ s'.blocks = s.blocks) ∧
      ∃ r s', nameiparent path s = .ok (r, s') ∧ s'.blocks = s.blocks) := by
  refine ⟨skips_elems path hpath, fun r s' => (namei_named h hcwd hpath).ok,
    fun r s' => (nameiparent_named h hcwd hpath).ok, fun e => ?_, fun d c => Tree.resolve_of_parent, fun hw hroom => ⟨?_, ?_⟩⟩
  · rw [e]
    simp [Tree.resolveParent]
  · have hret : wp (namei path) (fun _ s' => s'.blocks = s.blocks) (fun _ => False) s :=
      wp_bind.mpr ((namex_returns hw (.inl hroom) path false).post fun _ _ h => h.blocks)
    exact hret.returns
  · obtain ⟨r, s', hrun, hwalked⟩ := (namex_returns (E := fun _ => False) hw (.inl hroom) path true).returns
    exact ⟨r, s', hrun, hwalked.blocks⟩

lemma boot_walkable : Walkable bootFs where
  sound := boot_sound
  unlocked j := by
    simp only [bootFs]
    split <;> rfl
  nonneg j := by
    simp only [bootFs]
    split <;> decide
  entries d k n name h hn := by
    rw [boot_tree] at h ⊢
    split at h
    · have hmem := mem_of_getElem? h
      simp only [mem_cons, Prod.mk.injEq, not_mem_nil, or_false] at hmem
      have h1 : n = 1 := by
        rcases hmem with ⟨h1, -⟩ | ⟨h1, -⟩
        · exact h1
        · exact h1
      rw [if_pos h1]
      decide
    · cases h
  anchored n h := by
    rw [boot_tree] at h
    split at h
    · exact absurd h (by decide)
    · rename_i hn
      exact .inl (by rw [boot_tree, if_neg hn])
  root := by
    rw [boot_tree]
    decide
  cwd := by
    refine ⟨by decide, ?_⟩
    rw [boot_tree]
    decide

lemma boot_unused : 2 < bootFs.unused.card := by decide +kernel

lemma boot_covers : Covers 0 bootFs := ⟨boot_sound, fun j => by simpa using boot_walkable.nonneg j⟩

/-- The path `//.` in the root. -/
theorem paths_resolve_dot : elems [slash, slash, 46] = [[46]] ∧
    ∃ r s', namei [slash, slash, 46] bootFs = .ok (r, s') ∧ r.map (fun i => (s'.itable i).inum) = some 1 := by
  obtain ⟨-, hnamed, -, -, -, hret⟩ := paths_resolve bootFs boot_covers (by decide) [slash, slash, 46]
    (by decide +kernel)
  obtain ⟨⟨r, s', hrun, -⟩, -⟩ := hret boot_walkable (Nat.lt_of_succ_lt boot_unused)
  refine ⟨by decide, r, s', hrun, ?_⟩
  rw [(hnamed r s' hrun).1]
  have helems : elems [slash, slash, 46] = [[46]] := by decide
  rw [helems, Tree.resolve_cons, Tree.step, Tree.lookup]
  simp only [boot_tree, State.start]
  decide

/-! ### A full table -/

/-- Inodes of a disk: a root directory, a device with a name in it, and `k` devices without links. -/
def crowdInode (k n : Nat) : Dinode :=
  if n = 1 then { bootRoot with size := 64, addrs := fun c => if c = 0 then 7 else 0 }
  else if n = 2 then { Dinode.blank T_DEVICE with nlink := 1 }
  else if 3 ≤ n ∧ n < k + 3 then .blank T_DEVICE else .blank 0

/-- A root directory with one name, `a`, and an entry that is not in use, on a disk of 52 inodes; `k` devices that have
lost their links are open. -/
def crowd (k : Nat) : State where
  sb := ⟨16, 9, 52, 2, 6⟩
  blocks b :=
    if b < 6 then fun j => putDinode (fun _ => 0) (j / 64) (crowdInode k (16 * (b - 2) + j / 64)) j
    else if b = 6 then putLE 1 0 255 fun _ => 0
    else if b = 7 then fun j =>
      if j < 16 then mkDirent dot 1 j else if j < 32 then mkDirent dotdot 1 (j - 16)
      else if j < 48 then mkDirent (cstr [97]) 2 (j - 32) else 0
    else fun _ => 0
  writes := []
  itable i := if i = 0 then ⟨ROOTDEV, 1, 2, none, true, crowdInode k 1⟩
    else if i.val ≤ k then ⟨ROOTDEV, i.val + 2, 1, none, false, .blank 0⟩ else ⟨0, 0, 0, none, false, .blank 0⟩
  me := ⟨1, 0⟩

/-- With no device and with as many as the table has room for. -/
def Crowding (k : Nat) : Prop := k = 0 ∨ k = 49

section

variable {k : Nat} (hk : Crowding k)

include hk

lemma crowd_rootOnly : RootOnly (crowd k) := by
  refine ⟨⟨?_, ?_, ?_, ?_, ?_, ?_⟩, ?_, ?_, ?_, ?_, ?_, ?_, ?_, ?_⟩ <;> rcases hk with rfl | rfl <;> decide +kernel

lemma crowd_tree (n : Nat) : (crowd k).tree n =
    if n = 1 then ⟨T_DIR, 1, [(1, nameStr dot), (1, nameStr dotdot), (2, [97]), (0, [])]⟩
    else if n = 2 then ⟨T_DEVICE, 1, []⟩ else if 3 ≤ n ∧ n < k + 3 then ⟨T_DEVICE, 0, []⟩ else .free := by
  by_cases hn : n < 52
  · have hsmall : ∀ n < 52, (crowd k).tree n =
        if n = 1 then ⟨T_DIR, 1, [(1, nameStr dot), (1, nameStr dotdot), (2, [97]), (0, [])]⟩
        else if n = 2 then ⟨T_DEVICE, 1, []⟩ else if 3 ≤ n ∧ n < k + 3 then ⟨T_DEVICE, 0, []⟩ else .free := by
      rcases hk with rfl | rfl <;> decide +kernel
    exact hsmall n hn
  · have hk' : k < 50 := by rcases hk with rfl | rfl <;> decide
    rw [tree_of_ge hn, if_neg (by omega), if_neg (by omega), if_neg (by omega)]

lemma crowd_table (i : Fin NINODE) : ((crowd k).itable i).lock = none ∧ 0 ≤ ((crowd k).itable i).ref ∧
    (0 < ((crowd k).itable i).ref → ((crowd k).itable i).dev = ROOTDEV ∧
      ((crowd k).itable i).inum = if i = 0 then 1 else i.val + 2) ∧
    (((crowd k).itable i).valid = true → i = 0) := by
  revert i
  rcases hk with rfl | rfl <;> decide +kernel

omit hk in
lemma crowd_root : (crowd k).dinode 1 = crowdInode k 1 := by
  refine (getDinode_congr fun j h1 h2 => ?_).trans (getDinode_putDinode_self (fun _ => 0) 1 _)
  have h1 : 64 ≤ j := h1
  have h2 : j < 128 := h2
  have hj : j / 64 = 1 := by omega
  change putDinode (fun _ => 0) (j / 64) (crowdInode k (16 * (2 - 2) + j / 64)) j = _
  rw [hj]

lemma crowd_type : ((crowd k).tree 1).type = T_DIR ∧ ((crowd k).tree 2).type = T_DEVICE := by
  rw [crowd_tree hk, crowd_tree hk]
  exact ⟨rfl, rfl⟩

lemma crowd_entry {d j n : Nat} {x : List UInt8} (h : ((crowd k).tree d).slots[j]? = some (n, x)) :
    d = 1 ∧ (n = 1 ∧ (j = 0 ∧ x = nameStr dot ∨ j = 1 ∧ x = nameStr dotdot) ∨ n = 2 ∧ j = 2 ∧ x = [97] ∨ n = 0) := by
  rw [crowd_tree hk] at h
  split at h
  · rename_i hd
    refine ⟨hd, ?_⟩
    match j, h with
    | 0, h =>
      cases h
      exact .inl ⟨rfl, .inl ⟨rfl, rfl⟩⟩
    | 1, h =>
      cases h
      exact .inl ⟨rfl, .inr ⟨rfl, rfl⟩⟩
    | 2, h =>
      cases h
      exact .inr (.inl ⟨rfl, rfl, rfl⟩)
    | 3, h =>
      cases h
      exact .inr (.inr rfl)
  · split at h
    · cases h
    · split at h <;> cases h

lemma crowd_sound : Sound (crowd k) := by
  have hr := crowd_rootOnly hk
  have hpos := fun i => (crowd_table hk i).2.2.1
  refine ⟨⟨hr.owns, fun i hi => ?_, fun i j hi hj e => ?_, fun i hi => (hpos i hi).1⟩, fun n => hr.fileOk, fun i hi => ?_⟩
  · obtain rfl := (crowd_table hk i).2.2.2 hi.2
    have hroot := hr.root
    rw [crowd_root] at hroot
    exact ⟨hroot, crowd_root.symm⟩
  · rw [(hpos i hi).2, (hpos j hj).2] at e
    refine Fin.ext ?_
    split at e <;> split at e <;> simp_all
  · have hlt := i.isLt
    rw [(hpos i hi).2]
    change _ < 50 at hlt
    change _ ∧ _ < 52
    split <;> omega

lemma crowd_walkable : Walkable (crowd k) where
  sound := crowd_sound hk
  unlocked j := (crowd_table hk j).1
  nonneg j := (crowd_table hk j).2.1
  entries d j n x h hn := by
    obtain ⟨-, ⟨rfl, -⟩ | ⟨rfl, -⟩ | rfl⟩ := crowd_entry hk h
    · rw [(crowd_type hk).1]
      decide
    · rw [(crowd_type hk).2]
      decide
    · exact absurd rfl hn
  anchored n h := by
    rw [crowd_tree hk] at h ⊢
    split at h
    · cases h
    · split at h
      · cases h
      · split at h
        · -- a device without links is in the table
          rename_i h1 h2 h3
          have hk' : k < 50 := by rcases hk with rfl | rfl <;> decide
          refine .inr ⟨⟨n - 2, by change _ < 50; omega⟩, ?_⟩
          have hne : (⟨n - 2, by change _ < 50; omega⟩ : Fin NINODE) ≠ 0 := fun e => by
            have := congrArg Fin.val e
            change n - 2 = 0 at this
            omega
          have hle : n - 2 ≤ k := by omega
          simp only [crowd, if_neg hne, if_pos hle]
          exact ⟨Int.one_pos, by omega⟩
        · rename_i h1 h2 h3
          rw [if_neg h1, if_neg h2, if_neg h3]
          exact .inl rfl
  root := by
    rw [ROOTINO, (crowd_type hk).1]
    decide
  cwd := by
    refine ⟨show (0 : Int) < 2 by decide, ?_⟩
    change ((crowd k).tree 1).type ≠ 0
    rw [(crowd_type hk).1]
    decide

end

/-- **No entry of the inode table is free**: `namei` of a name whose inode is not in the table does not return. -/
theorem crowded_walk : Walkable (crowd 49) ∧ Covers 0 (crowd 49) ∧ (crowd 49).unused = ∅ ∧
    (crowd 49).tree.resolve ((crowd 49).start [97]) (elems [97]) = some 2 ∧
    namei [97] (crowd 49) = .panic "iget: no inodes" := by
  have hw : Walkable (crowd 49) := crowd_walkable (.inr rfl)
  exact ⟨hw, ⟨hw.sound, fun j => by simpa using hw.nonneg j⟩, by decide +kernel, by decide +kernel,
    Outcome.eq_panic_of_stops (by decide +kernel)⟩

end FypOs.Fs
