import FypOs.Lib.Runs
import FypOs.Lib.Tally

/-!
# Fs — the inode table under concurrency

`iget`, `idup`, `ilock`, `iunlock`, `iput` and `ialloc` by any number of processes, a step for each section of
`itable.lock` or of a sleep-lock.  Entries, processes and the pairs `(dev, inum)` are of any type; of a
`struct dinode` the type and the link count are modelled, and `rest` stands for its other fields.

`refs` counts the references of each process.  `life` counts the allocations of an inode, `born` says
from which of them the copy of an entry stems, and `made` is what `ialloc` has written, until somebody
writes the inode: these are not part of the kernel.

* `inode_table`: one entry for each inode, as many references as `ref` says, and no copy from an earlier life.
-/

set_option linter.unusedSectionVars false

namespace FypOs.Fs.Inodes

open Lib Function

structure Dinode (α : Type) where
  type : UInt16
  nlink : Int16
  rest : α
  deriving DecidableEq

structure Entry (K α : Type) where
  key : K
  ref : Nat
  valid : Bool
  copy : Dinode α
  born : Nat

/-- Where a process is. -/
inductive Pc (E K : Type) where
  | idle
  /-- `ilock` has the sleep-lock, before it looks at `valid`. -/
  | loading (e : E)
  /-- `ialloc` has marked the inode, before its `iget`. -/
  | allocated (k : K)
  /-- `iput` has the sleep-lock, before it truncates and frees the inode. -/
  | freeing (e : E)
  /-- `iput` has freed the inode, before it clears `valid`. -/
  | wiped (e : E)
  | cleared (e : E)
  /-- `iput` has released the sleep-lock, before it takes `itable.lock` again. -/
  | released (e : E)
  deriving DecidableEq

structure State (P E K α : Type) where
  entries : E → Entry K α
  lock : E → Option P
  disk : K → Dinode α
  refs : P → E → Nat
  pcs : P → Pc E K
  life : K → Nat
  made : K → Option (Dinode α)

inductive Event (P E K α : Type) where
  | ialloc (p : P) (k : K) (type : UInt16)
  /-- The `iget` of `ialloc`. -/
  | igot (p : P)
  | iget (p : P) (k : K)
  | idup (p : P) (e : E)
  /-- `ilock` takes the sleep-lock. -/
  | ilock (p : P) (e : E)
  | load (p : P)
  | modify (p : P) (e : E) (d : Dinode α)
  | iupdate (p : P) (e : E)
  | iunlock (p : P) (e : E)
  /-- `iput`, up to the release of `itable.lock`. -/
  | iput (p : P) (e : E)
  | wipe (p : P)
  | clear (p : P)
  | release (p : P)
  /-- The end of `iput`. -/
  | decr (p : P)

section

variable {P E K α : Type} [DecidableEq P] [DecidableEq E] [DecidableEq K]

namespace State

def setEntry (t : State P E K α) (e : E) (x : Entry K α) : State P E K α :=
  { t with entries := update t.entries e x }

def setRef (t : State P E K α) (p : P) (e : E) (n : Nat) : State P E K α :=
  { t with refs := update t.refs p (update (t.refs p) e n) }

def setPc (t : State P E K α) (p : P) (pc : Pc E K) : State P E K α :=
  { t with pcs := update t.pcs p pc }

def setLock (t : State P E K α) (e : E) (o : Option P) : State P E K α :=
  { t with lock := update t.lock e o }

/-- `p` gets one more reference to `e`, which has the fields `x` otherwise. -/
def gain (t : State P E K α) (p : P) (e : E) (x : Entry K α) : State P E K α :=
  (t.setEntry e { x with ref := (t.entries e).ref + 1 }).setRef p e (t.refs p e + 1)

/-- `ip->ref--`. -/
def drop (t : State P E K α) (p : P) (e : E) : State P E K α :=
  (t.setEntry e { t.entries e with ref := (t.entries e).ref - 1 }).setRef p e (t.refs p e - 1)

end State

/-- `iget`, in a table with the entries `es`. -/
def iget (es : List E) (t : State P E K α) (p : P) (k : K) : Outcome (State P E K α) :=
  match es.find? fun e => decide (0 < (t.entries e).ref) && decide ((t.entries e).key = k) with
  | some e => .ok (t.gain p e (t.entries e))
  | none =>
    match es.find? fun e => decide ((t.entries e).ref = 0) with
    | some e => .ok (t.gain p e { t.entries e with key := k, valid := false })
    | none => .panic "iget: no inodes"

def step (es : List E) (blank : α) (t : State P E K α) : Event P E K α → Outcome (State P E K α)
  | .ialloc p k type =>
    if t.pcs p = .idle ∧ (t.disk k).type = 0 then
      .ok { t.setPc p (.allocated k) with
        disk := update t.disk k ⟨type, 0, blank⟩
        life := update t.life k (t.life k + 1)
        made := update t.made k (some ⟨type, 0, blank⟩) }
    else .blocked
  | .igot p =>
    match t.pcs p with
    | .allocated k => iget es (t.setPc p .idle) p k
    | _ => .blocked
  | .iget p k => if t.pcs p = .idle then iget es t p k else .blocked
  | .idup p e => if t.pcs p = .idle then .ok (t.gain p e (t.entries e)) else .blocked
  | .ilock p e =>
    if t.pcs p = .idle then
      if (t.entries e).ref < 1 then .panic "ilock"
      else if t.lock e = none then .ok ((t.setLock e (some p)).setPc p (.loading e))
      else .blocked
    else .blocked
  | .load p =>
    match t.pcs p with
    | .loading e =>
      let x := t.entries e
      if x.valid then .ok (t.setPc p .idle)
      else if (t.disk x.key).type = 0 then .panic "ilock: no type"
      else .ok ((t.setEntry e { x with
        copy := t.disk x.key, valid := true, born := t.life x.key }).setPc p .idle)
    | _ => .blocked
  | .modify p e d =>
    if t.pcs p = .idle ∧ t.lock e = some p ∧ (t.entries e).valid then
      .ok { t.setEntry e { t.entries e with copy := d } with
        made := update t.made (t.entries e).key none }
    else .blocked
  | .iupdate p e =>
    if t.pcs p = .idle ∧ t.lock e = some p ∧ (t.entries e).valid then
      .ok { t with
        disk := update t.disk (t.entries e).key (t.entries e).copy
        made := update t.made (t.entries e).key none }
    else .blocked
  | .iunlock p e =>
    if t.pcs p = .idle then
      if t.lock e = some p ∧ 1 ≤ (t.entries e).ref then .ok (t.setLock e none) else .panic "iunlock"
    else .blocked
  | .iput p e =>
    if t.pcs p = .idle then
      let x := t.entries e
      if x.ref = 1 ∧ x.valid ∧ x.copy.nlink = 0 then
        -- `acquiresleep` with `itable.lock` held
        if t.lock e = none then .ok ((t.setLock e (some p)).setPc p (.freeing e)) else .blocked
      else .ok (t.drop p e)
    else .blocked
  | .wipe p =>
    match t.pcs p with
    | .freeing e =>
      let x := t.entries e
      .ok { (t.setEntry e { x with copy := { x.copy with type := 0 } }).setPc p (.wiped e) with
        disk := update t.disk x.key { x.copy with type := 0 }
        made := update t.made x.key none }
    | _ => .blocked
  | .clear p =>
    match t.pcs p with
    | .wiped e => .ok ((t.setEntry e { t.entries e with valid := false }).setPc p (.cleared e))
    | _ => .blocked
  | .release p =>
    match t.pcs p with
    | .cleared e => .ok ((t.setLock e none).setPc p (.released e))
    | _ => .blocked
  | .decr p =>
    match t.pcs p with
    | .released e => .ok ((t.drop p e).setPc p .idle)
    | _ => .blocked

/-- Processes hold a reference whenever they hold or request a sleep-lock; types that are written are not 0. -/
def Disciplined (t : State P E K α) : Event P E K α → Prop
  | .idup p e => 0 < t.refs p e
  | .ilock p e => 0 < t.refs p e ∧ t.lock e ≠ some p
  | .iput p e => 0 < t.refs p e ∧ (t.lock e = some p → 2 ≤ t.refs p e)
  | .ialloc _ _ type => type ≠ 0
  | .modify _ _ d => d.type ≠ 0
  | _ => True

instance (t : State P E K α) (ev : Event P E K α) : Decidable (Disciplined t ev) := by
  cases ev <;> unfold Disciplined <;> infer_instance

/-! ### The invariant -/

/-- The entry whose sleep-lock a process has on account of where it is. -/
def Pc.locks (e : E) : Pc E K → Prop
  | .loading e' | .freeing e' | .wiped e' | .cleared e' => e' = e
  | _ => False

variable [Fintype P]

structure Inv (t : State P E K α) : Prop where
  one : ∀ e e', 0 < (t.entries e).ref → 0 < (t.entries e').ref → (t.entries e).key = (t.entries e').key → e = e'
  count : ∀ e, (t.entries e).ref = ∑ p, t.refs p e
  lockRef : ∀ p e, t.lock e = some p → 0 < t.refs p e
  locks : ∀ p e, (t.pcs p).locks e → t.lock e = some p
  released : ∀ p e, t.pcs p = .released e → 0 < t.refs p e ∧ t.lock e ≠ some p
  /-- A copy is from the current life of the inode, but while `iput` frees it. -/
  live : ∀ e, 0 < (t.entries e).ref → (t.entries e).valid = true → (∀ p, t.pcs p ≠ .wiped e) →
    (t.entries e).born = t.life (t.entries e).key ∧ (t.disk (t.entries e).key).type ≠ 0 ∧
      (t.entries e).copy.type ≠ 0
  madeDisk : ∀ k d, t.made k = some d → t.disk k = d
  madeCopy : ∀ e d, t.made (t.entries e).key = some d → 0 < (t.entries e).ref →
    (t.entries e).valid = true → (∀ p, t.pcs p ≠ .wiped e) → (t.entries e).copy = d

lemma Inv.ref_pos {t : State P E K α} {p : P} {e : E} (h : Inv t) (hp : 0 < t.refs p e) :
    0 < (t.entries e).ref := by
  have := le_tally (fun r : E → Nat => r e) t.refs p
  rw [h.count]
  omega

lemma sum_setRef (t : State P E K α) (p : P) (e e' : E) (n : Nat) :
    (∑ q, (t.setRef p e n).refs q e') + t.refs p e' = (∑ q, t.refs q e') + if e' = e then n else t.refs p e' := by
  have := tally_update (fun r : E → Nat => r e') t.refs p (update (t.refs p) e n)
  simpa only [State.setRef, update_apply] using this

variable {t t' : State P E K α} {p q : P} {e : E} {k : K} {es : List E} {blank : α} {pc : Pc E K}

lemma count_gain (h : Inv t) (p : P) (e : E) (x : Entry K α) (e' : E) :
    ((t.gain p e x).entries e').ref = ∑ q, (t.gain p e x).refs q e' := by
  have hsum := sum_setRef t p e e' (t.refs p e + 1)
  have hc := h.count e'
  simp only [State.gain, State.setEntry, State.setRef, update_apply] at *
  split_ifs at * with he
  · subst he
    simp only
    omega
  · omega

lemma count_drop (h : Inv t) (hp : 0 < t.refs p e) (e' : E) :
    ((t.drop p e).entries e').ref = ∑ q, (t.drop p e).refs q e' := by
  have hsum := sum_setRef t p e e' (t.refs p e - 1)
  have hc := h.count e'
  have hpos := h.ref_pos hp
  simp only [State.drop, State.setEntry, State.setRef, update_apply] at *
  split_ifs at * with he
  · subst he
    simp only
    omega
  · omega

/-- **The last reference.**  Who has the only reference finds the sleep-lock free. -/
lemma Inv.lock_free (h : Inv t) (hp : 0 < t.refs p e) (hown : t.lock e = some p → 2 ≤ t.refs p e)
    (href : (t.entries e).ref = 1) : t.lock e = none := by
  by_contra hl
  obtain ⟨q, hq⟩ := Option.ne_none_iff_exists'.mp hl
  have hrq := h.lockRef q e hq
  have hsum := sum_setRef t p e e 0
  have hc := h.count e
  by_cases hqp : q = p
  · have hle := le_tally (fun r : E → Nat => r e) t.refs p
    have := hown (hqp ▸ hq)
    omega
  · have hle := le_tally (fun r : E → Nat => r e) (t.setRef p e 0).refs q
    have hrefs : (t.setRef p e 0).refs q e = t.refs q e := by
      simp [State.setRef, hqp]
    rw [if_pos rfl] at hsum
    omega

lemma inv_gain (h : Inv t) (x : Entry K α) (hx : x = t.entries e ∧ 0 < (t.entries e).ref ∨
    x.valid = false ∧ (t.entries e).ref = 0 ∧ ∀ e', 0 < (t.entries e').ref → (t.entries e').key ≠ x.key) :
    Inv (t.gain p e x) := by
  have hcount := count_gain h p e x
  obtain ⟨h1, h2, h3, h4, h5, h6, h7, h8⟩ := h
  refine ⟨?_, hcount, ?_, h4, ?_, ?_, h7, ?_⟩ <;>
    simp only [State.gain, State.setEntry, State.setRef, update_apply] <;> grind

lemma inv_iget (hes : ∀ e, e ∈ es) (h : Inv t) (hs : iget es t p k = .ok t') : Inv t' := by
  unfold iget at hs
  split at hs
  · rename_i e he
    cases hs
    have := List.find?_some he
    simp only [Bool.and_eq_true, decide_eq_true_eq] at this
    exact inv_gain h _ (.inl ⟨rfl, this.1⟩)
  · rename_i hnone
    split at hs
    · rename_i e he
      cases hs
      have href := List.find?_some he
      simp only [decide_eq_true_eq] at href
      refine inv_gain h _ (.inr ⟨rfl, href, fun e' hpos hkey => ?_⟩)
      have := List.find?_eq_none.mp hnone e' (hes e')
      simp_all
    · cases hs

section

variable (h : Inv t)

include h

lemma inv_drop (hp : 0 < t.refs p e) (hown : t.lock e = some p → 2 ≤ t.refs p e)
    (hpc : t.pcs p ≠ .released e) : Inv (t.drop p e) := by
  have hcount := count_drop h hp
  obtain ⟨h1, h2, h3, h4, h5, h6, h7, h8⟩ := h
  refine ⟨?_, hcount, ?_, h4, ?_, ?_, h7, ?_⟩ <;>
    simp only [State.drop, State.setEntry, State.setRef, update_apply] <;> grind

/-- A process moves on, to where it needs the locks it has. -/
lemma inv_setPc (hl : ∀ e, pc.locks e → t.lock e = some p)
    (hr : ∀ e, pc ≠ .released e) (hw : ∀ e, t.pcs p ≠ .wiped e) : Inv (t.setPc p pc) := by
  obtain ⟨h1, h2, h3, h4, h5, h6, h7, h8⟩ := h
  have hwiped : ∀ e, (∀ q, (t.setPc p pc).pcs q ≠ .wiped e) → ∀ q, t.pcs q ≠ .wiped e := by
    simp only [State.setPc, update_apply]
    grind
  refine ⟨h1, h2, h3, ?_, ?_, fun e hpos hv hq => h6 e hpos hv (hwiped e hq), h7,
    fun e d hm hpos hv hq => h8 e d hm hpos hv (hwiped e hq)⟩ <;>
    simp only [State.setPc, update_apply] <;> grind

lemma inv_idle (hw : ∀ e, t.pcs p ≠ .wiped e) : Inv (t.setPc p .idle) :=
  inv_setPc h (fun e (hl : Pc.locks e .idle) => hl.elim) (by simp) hw

lemma inv_ialloc {type : UInt16} (hfree : (t.disk k).type = 0) (hpc : t.pcs p = .idle) :
    Inv { t.setPc p (.allocated k) with
        disk := update t.disk k ⟨type, 0, blank⟩
        life := update t.life k (t.life k + 1)
        made := update t.made k (some ⟨type, 0, blank⟩) } := by
  have hmoved := inv_setPc (p := p) h (fun e (hl : Pc.locks e (.allocated k)) => hl.elim) (by simp)
    (by simp [hpc])
  -- a valid entry of a free inode is one that is being freed
  obtain ⟨h1, h2, h3, h4, h5, h6, h7, h8⟩ := hmoved
  refine ⟨h1, h2, h3, h4, h5, ?_, ?_, ?_⟩ <;>
    simp only [State.setPc, update_apply] at * <;> grind

lemma inv_acquire (hp : 0 < t.refs p e) (hpc : t.pcs p = .idle)
    (hfree : t.lock e = none) (hl : pc = .loading e ∨ pc = .freeing e) :
    Inv ((t.setLock e (some p)).setPc p pc) := by
  obtain ⟨h1, h2, h3, h4, h5, h6, h7, h8⟩ := h
  have hlocked : Inv (t.setLock e (some p)) := by
    refine ⟨h1, h2, ?_, ?_, ?_, h6, h7, h8⟩ <;>
      simp only [State.setLock, update_apply] <;> grind
  refine inv_setPc hlocked ?_ ?_ (by simp [State.setLock, hpc])
  · intro e' he'
    rcases hl with rfl | rfl <;> simp [State.setLock, show e = e' from he']
  · rcases hl with rfl | rfl <;> simp

lemma inv_load (hpc : t.pcs p = .loading e) (htype : (t.disk (t.entries e).key).type ≠ 0) :
    Inv ((t.setEntry e { t.entries e with
      copy := t.disk (t.entries e).key, valid := true, born := t.life (t.entries e).key }).setPc p .idle) := by
  obtain ⟨h1, h2, h3, h4, h5, h6, h7, h8⟩ := h
  refine inv_idle ⟨?_, ?_, h3, h4, h5, ?_, h7, ?_⟩ (by simp [State.setEntry, hpc]) <;>
    simp only [State.setEntry, update_apply] <;> grind

lemma not_wiped (hpc : t.pcs p = .idle) (hl : t.lock e = some p) (q : P) : t.pcs q ≠ .wiped e := by
  intro hq
  have hlock := h.locks q e (by rw [hq]; rfl)
  rw [hl] at hlock
  obtain rfl := Option.some.inj hlock
  rw [hpc] at hq
  cases hq

lemma inv_modify {d : Dinode α} (hd : d.type ≠ 0) : Inv { t.setEntry e { t.entries e with copy := d } with
        made := update t.made (t.entries e).key none } := by
  obtain ⟨h1, h2, h3, h4, h5, h6, h7, h8⟩ := h
  refine ⟨?_, ?_, h3, h4, h5, ?_, ?_, ?_⟩ <;>
    simp only [State.setEntry, update_apply] <;> grind

lemma inv_iupdate (hpc : t.pcs p = .idle) (hl : t.lock e = some p) (hv : (t.entries e).valid = true) :
    Inv { t with
        disk := update t.disk (t.entries e).key (t.entries e).copy
        made := update t.made (t.entries e).key none } := by
  have hlive := h.live e (h.ref_pos (h.lockRef p e hl)) hv (not_wiped h hpc hl)
  obtain ⟨h1, h2, h3, h4, h5, h6, h7, h8⟩ := h
  refine ⟨h1, h2, h3, h4, h5, ?_, ?_, ?_⟩ <;> simp only [update_apply] <;> grind

lemma inv_wipe (hpc : t.pcs p = .freeing e) :
    Inv { (t.setEntry e { t.entries e with copy := { (t.entries e).copy with type := 0 } }).setPc p
          (.wiped e) with
        disk := update t.disk (t.entries e).key { (t.entries e).copy with type := 0 }
        made := update t.made (t.entries e).key none } := by
  have hl := h.locks p e (by rw [hpc]; rfl)
  have hpos := h.ref_pos (h.lockRef p e hl)
  obtain ⟨h1, h2, h3, h4, h5, h6, h7, h8⟩ := h
  refine ⟨?_, ?_, h3, ?_, ?_, ?_, ?_, ?_⟩ <;>
    simp only [State.setEntry, State.setPc, update_apply] <;> grind [Pc.locks]

lemma inv_clear (hpc : t.pcs p = .wiped e) :
    Inv ((t.setEntry e { t.entries e with valid := false }).setPc p (.cleared e)) := by
  obtain ⟨h1, h2, h3, h4, h5, h6, h7, h8⟩ := h
  refine ⟨?_, ?_, h3, ?_, ?_, ?_, h7, ?_⟩ <;>
    simp only [State.setEntry, State.setPc, update_apply] <;> grind [Pc.locks]

lemma inv_unlock (hl : ¬ (t.pcs p).locks e) (hown : t.lock e = some p) : Inv (t.setLock e none) := by
  obtain ⟨h1, h2, h3, h4, h5, h6, h7, h8⟩ := h
  refine ⟨h1, h2, ?_, ?_, ?_, h6, h7, h8⟩ <;>
    simp only [State.setLock, update_apply] <;> grind

lemma inv_release (hpc : t.pcs p = .cleared e) : Inv ((t.setLock e none).setPc p (.released e)) := by
  have hl := h.locks p e (by rw [hpc]; rfl)
  obtain ⟨h1, h2, h3, h4, h5, h6, h7, h8⟩ := h
  refine ⟨h1, h2, ?_, ?_, ?_, ?_, h7, ?_⟩ <;>
    simp only [State.setLock, State.setPc, update_apply] <;> grind [Pc.locks]

lemma inv_decr (hpc : t.pcs p = .released e) : Inv ((t.drop p e).setPc p .idle) := by
  obtain ⟨hpos, hl⟩ := h.released p e hpc
  exact inv_drop (inv_idle h (by simp [hpc])) hpos (fun ho => absurd ho hl) (by simp [State.setPc])

end

/-- **One step** keeps the invariant. -/
lemma Inv.step {ev : Event P E K α} (hes : ∀ e, e ∈ es) (h : Inv t) (hd : Disciplined t ev)
    (hs : Inodes.step es blank t ev = .ok t') : Inv t' := by
  cases ev with simp only [Inodes.step] at hs
  | ialloc p k type =>
    split_ifs at hs with hc
    cases hs
    exact inv_ialloc h hc.2 hc.1
  | igot p =>
    split at hs
    · rename_i k hpc
      exact inv_iget hes (inv_idle h (by simp [hpc])) hs
    · cases hs
  | iget p k =>
    split_ifs at hs
    exact inv_iget hes h hs
  | idup p e =>
    split_ifs at hs
    cases hs
    exact inv_gain h _ (.inl ⟨rfl, h.ref_pos hd⟩)
  | ilock p e =>
    split_ifs at hs with hpc href hfree
    cases hs
    exact inv_acquire h hd.1 hpc hfree (.inl rfl)
  | load p =>
    split at hs
    · rename_i e hpc
      split_ifs at hs with hv htype
      · cases hs
        exact inv_idle h (by simp [hpc])
      · cases hs
        exact inv_load h hpc htype
    · cases hs
  | modify p e d =>
    split_ifs at hs with hc
    cases hs
    exact inv_modify h hd
  | iupdate p e =>
    split_ifs at hs with hc
    cases hs
    exact inv_iupdate h hc.1 hc.2.1 hc.2.2
  | iunlock p e =>
    split_ifs at hs with hpc hc
    cases hs
    exact inv_unlock h (by rw [hpc]; exact id) hc.1
  | iput p e =>
    split_ifs at hs with hpc hc hfree
    · cases hs
      exact inv_acquire h hd.1 hpc hfree (.inr rfl)
    · cases hs
      exact inv_drop h hd.1 hd.2 (by simp [hpc])
  | wipe p =>
    split at hs
    · rename_i e hpc
      cases hs
      exact inv_wipe h hpc
    · cases hs
  | clear p =>
    split at hs
    · rename_i e hpc
      cases hs
      exact inv_clear h hpc
    · cases hs
  | release p =>
    split at hs
    · rename_i e hpc
      cases hs
      exact inv_release h hpc
    · cases hs
  | decr p =>
    split at hs
    · rename_i e hpc
      cases hs
      exact inv_decr h hpc
    · cases hs

/-- At boot the table is empty. -/
structure Boot (t : State P E K α) : Prop where
  ref : ∀ e, (t.entries e).ref = 0
  refs : ∀ p e, t.refs p e = 0
  lock : ∀ e, t.lock e = none
  pcs : ∀ p, t.pcs p = .idle
  made : ∀ k, t.made k = none

lemma Boot.inv {t0 : State P E K α} (h : Boot t0) : Inv t0 := by
  obtain ⟨h1, h2, h3, h4, h5⟩ := h
  constructor <;> simp [h1, h2, h3, h4, h5, Pc.locks]

/-- **The inode table.**  Whatever the interleaving: at most one entry in use has a given inode; its `ref` is the
number of references to it; the `acquiresleep` of `iput` does not sleep, so that `iput` of a process that
meets the discipline never waits; and who has locked an inode with `ilock` sees a copy of its current life, which
is the one that `ialloc` has made as long as nobody has written it. -/
theorem inode_table {t₀ : State P E K α} (hes : ∀ e, e ∈ es) (h₀ : Boot t₀)
    (hr : Reach (step es blank) Disciplined t₀ t) :
    (∀ e e', 0 < (t.entries e).ref → 0 < (t.entries e').ref → (t.entries e).key = (t.entries e').key → e = e') ∧
    (∀ e, (t.entries e).ref = ∑ p, t.refs p e) ∧
    (∀ p e, t.pcs p = .idle → Disciplined t (.iput p e) → ∃ t', step es blank t (.iput p e) = .ok t') ∧
    (∀ p e, t.pcs p = .idle → t.lock e = some p → (t.entries e).valid = true →
      (t.entries e).born = t.life (t.entries e).key ∧
      ∀ d, t.made (t.entries e).key = some d → (t.entries e).copy = d) := by
  have h : Inv t := hr.invariant h₀.inv (fun hi hd hs => hi.step hes hd hs)
  refine ⟨h.one, h.count, fun p e hpc hd => ?_, fun p e hpc hl hv => ?_⟩
  · simp only [step, if_pos hpc]
    split_ifs with hc hfree
    · exact ⟨_, rfl⟩
    · exact absurd (h.lock_free hd.1 hd.2 hc.1) hfree
    · exact ⟨_, rfl⟩
  · have hpos := h.ref_pos (h.lockRef p e hl)
    have hw := not_wiped h hpc hl
    exact ⟨(h.live e hpos hv hw).1, fun d hm => h.madeCopy e d hm hpos hv hw⟩

end

/-- No inode is allocated. -/
def sampleBoot : State (Fin 2) (Fin 1) (Fin 1) Unit where
  entries _ := ⟨0, 0, false, ⟨0, 0, ()⟩, 0⟩
  lock _ := none
  disk _ := ⟨0, 0, ()⟩
  refs _ _ := 0
  pcs _ := .idle
  life _ := 0
  made _ := none

/-- While one process frees the inode, another one allocates it again, as a file. -/
def sampleRun : List (Event (Fin 2) (Fin 1) (Fin 1) Unit) :=
  [.ialloc 0 0 1, .igot 0, .ilock 0 0, .load 0, .iunlock 0 0, .iput 0 0, .wipe 0, .ialloc 1 0 2, .igot 1,
    .clear 0, .release 0, .ilock 1 0, .load 1]

theorem inode_table_sample : ∃ t : State (Fin 2) (Fin 1) (Fin 1) Unit,
    Reach (step [0] ()) Disciplined sampleBoot t ∧ t.pcs 0 = .released 0 ∧ t.lock 0 = some 1 ∧
      (t.entries 0).copy = ⟨2, 0, ()⟩ := by
  have h : runTest (step [0] ()) Disciplined sampleBoot sampleRun (fun t =>
      decide (t.pcs 0 = .released 0) && decide (t.pcs 1 = .idle) && decide (t.lock 0 = some 1) &&
        (t.entries 0).valid && decide (t.made (t.entries 0).key = some ⟨2, 0, ()⟩)) = true := by
    decide +kernel
  obtain ⟨t, ht, hc⟩ := Reach.of_runTest h
  simp only [Bool.and_eq_true, decide_eq_true_eq] at hc
  obtain ⟨⟨⟨⟨h0, h1⟩, hl⟩, hv⟩, hm⟩ := hc
  have hboot : Boot sampleBoot := ⟨fun _ => rfl, fun _ _ => rfl, fun _ => rfl, fun _ => rfl, fun _ => rfl⟩
  exact ⟨t, ht, h0, hl, ((inode_table (by decide) hboot ht).2.2.2 1 0 h1 hl hv).2 _ hm⟩

end FypOs.Fs.Inodes
