import FypOs.Vm.Exec

/-!
# Vm — the memory of all processes

The system calls and the accesses of users that allocate, free or write memory, for processes of any
type `P`.

* `Sound`: every page is in one place, and every process has an address space of its size.
* `Sound.step`: every step returns, and keeps this.
-/

namespace FypOs.Vm

open Lib Prog Function

/-- `struct proc`, as far as memory and what `fork` copies go. -/
structure Proc where
  sz : Nat
  pt : Table
  trapframe : Frame
  ofile : List (Option Nat)
  cwd : Nat
  /-- It has called `exit`. -/
  exited : Bool

structure Sys (P : Type) where
  mem : Mem
  procs : P → Option Proc
  /-- The pages of the pipes. -/
  pipes : Nat → Option Frame
  /-- The `ref` fields of files and inodes. -/
  fileRef : Nat → Nat
  inodeRef : Nat → Nat

inductive Event (P : Type) where
  | userinit (p : P) (code : List UInt8)
  /-- `fork` by `p`, where `allocproc` finds slot `q`. -/
  | fork (p q : P)
  | exec (p : P) (image : Image) (args : List Arg)
  | sbrk (p : P) (n : Int32)
  | exit (p : P)
  /-- A `wait` frees the process. -/
  | wait (q : P)
  | pipe (k : Nat)
  | closePipe (k : Nat)
  /-- A system call writes to the memory of `p`. -/
  | copyout (p : P) (dstva : Nat) (src : List UInt8)
  /-- `p` writes to its memory. -/
  | store (p : P) (va : Nat) (byte : UInt8)

/-- The memory of `userinit`; out of memory, the kernel does not come up. -/
def userinitMem (trampoline : Frame) (code : List UInt8) : Prog Space (Option Frame) := do
  match ← kalloc with
  | none => pure none
  | some tf => do
    if ← procPagetable trampoline tf then
      match ← kalloc with
      | none => pure none
      | some x => do
        modify fun s => s.fill x fun _ => 0
        if ← mappages 0 ⟨x, ⟨true, true, true, true⟩⟩ then do
          modify fun s => s.fill x (memmove (s.mem.data x) 0 code)
          pure (some tf)
        else pure none
    else pure none

/-- `growproc`: the new size. -/
def growproc (sz : Nat) (n : Int32) : Prog Space (Option Nat) :=
  if 0 < n.toInt then do
    let r ← uvmalloc sz (((sz : Int) + n.toInt) % 2 ^ 64).toNat ⟨false, true, false, false⟩
    if r = 0 then pure none else pure (some r)
  else if n.toInt < 0 then do
    let r ← uvmdealloc sz (((sz : Int) + n.toInt) % 2 ^ 64).toNat
    pure (some r)
  else pure (some sz)

/-- The memory of `freeproc`. -/
def freeMem (trapframe : Frame) (sz : Nat) : Prog Space Unit := do
  kfree trapframe
  procFreepagetable sz

/-- A store by the user: without `PTE_U` and `PTE_W` it faults. -/
def storeByte (va : Nat) (byte : UInt8) : Prog Space Unit := modify fun s =>
  match s.pt.ptes (va / PGSIZE) with
  | some pte =>
    if pte.perm.u && pte.perm.w then
      s.fill pte.frame (memmove (s.mem.data pte.frame) (va % PGSIZE) [byte])
    else s
  | none => s

section

variable {P : Type} [DecidableEq P]

/-- Run a program with a table at work. -/
def Sys.run {α : Type} (t : Sys P) (pt : Table) (m : Prog Space α) (k : α → Space → Outcome (Sys P)) :
    Outcome (Sys P) :=
  match m ⟨t.mem, pt⟩ with
  | .ok (a, s) => k a s
  | .panic msg => .panic msg
  | .blocked => .blocked

/-- The process of a system call. -/
def Sys.call (t : Sys P) (p : P) (k : Proc → Outcome (Sys P)) : Outcome (Sys P) :=
  match t.procs p with
  | some pr => if pr.exited then .blocked else k pr
  | none => .blocked

def step (trampoline : Frame) (t : Sys P) : Event P → Outcome (Sys P)
  | .userinit p code =>
    match t.procs p with
    | some _ => .blocked
    | none => t.run .empty (userinitMem trampoline code) fun r s =>
      match r with
      | some tf => .ok { t with
          mem := s.mem, procs := update t.procs p (some ⟨PGSIZE, s.pt, tf, [], 0, false⟩) }
      | none => .blocked
  | .fork p q => t.call p fun pr =>
    match t.procs q with
    | some _ => .blocked
    | none => t.run .empty (forkMem trampoline pr.pt pr.sz pr.trapframe) fun r s =>
      match r with
      | some tf => .ok { t with
          mem := s.mem
          procs := update t.procs q (some ⟨pr.sz, s.pt, tf, pr.ofile, pr.cwd, false⟩)
          fileRef := fun f => t.fileRef f + pr.ofile.count (some f)
          inodeRef := update t.inodeRef pr.cwd (t.inodeRef pr.cwd + 1) }
      | none => .ok { t with mem := s.mem }
  | .exec p image args => t.call p fun pr =>
    t.run .empty (sysExec trampoline pr.trapframe pr.pt pr.sz image args) fun r s =>
      match r with
      | some sz => .ok { t with
          mem := s.mem, procs := update t.procs p (some { pr with sz := sz, pt := s.pt }) }
      | none => .ok { t with mem := s.mem }
  | .sbrk p n => t.call p fun pr =>
    t.run pr.pt (growproc pr.sz n) fun r s => .ok { t with
      mem := s.mem
      procs := update t.procs p (some { pr with sz := r.getD pr.sz, pt := s.pt }) }
  | .exit p => t.call p fun pr => .ok { t with
      procs := update t.procs p (some { pr with ofile := [], exited := true })
      fileRef := fun f => t.fileRef f - pr.ofile.count (some f)
      inodeRef := update t.inodeRef pr.cwd (t.inodeRef pr.cwd - 1) }
  | .wait q =>
    match t.procs q with
    | some pr =>
      if pr.exited then
        t.run pr.pt (freeMem pr.trapframe pr.sz) fun _ s => .ok { t with
          mem := s.mem, procs := update t.procs q none }
      else .blocked
    | none => .blocked
  | .pipe k =>
    match t.pipes k with
    | some _ => .blocked
    | none => t.run .empty kalloc fun r s =>
      match r with
      | some x => .ok { t with mem := s.mem, pipes := update t.pipes k (some x) }
      | none => .ok { t with mem := s.mem }
  | .closePipe k =>
    match t.pipes k with
    | some x => t.run .empty (kfree x) fun _ s => .ok { t with
        mem := s.mem, pipes := update t.pipes k none }
    | none => .blocked
  | .copyout p dstva src => t.call p fun pr =>
    t.run pr.pt (copyout dstva src) fun _ s => .ok { t with mem := s.mem }
  | .store p va byte => t.call p fun pr =>
    t.run pr.pt (storeByte va byte) fun _ s => .ok { t with mem := s.mem }

/-- The memory before `userinit`. -/
def boot (mem : Mem) : Sys P := ⟨mem, fun _ => none, fun _ => none, fun _ => 0, fun _ => 0⟩

/-! ### Who holds a page -/

inductive Holder (P : Type) where
  | part (p : P) (a : Place)
  | trapframe (p : P)
  | pipe (k : Nat)
  deriving DecidableEq

def Sys.held (t : Sys P) : Holder P → Option Frame
  | .part p a => (t.procs p).bind fun pr => pr.pt.held a
  | .trapframe p => (t.procs p).map Proc.trapframe
  | .pipe k => t.pipes k

structure Sound (trampoline : Frame) (rest : Frame → Prop) (t : Sys P) : Prop where
  ledger : Ledger t.mem.free t.held rest
  shape : ∀ p pr, t.procs p = some pr → Shape pr.pt
  spans : ∀ p pr, t.procs p = some pr → ∃ g, Spans trampoline pr.trapframe g (pages pr.sz) pr.pt

/-- The pages outside of the free list and the table of `p`. -/
def Sys.Others (t : Sys P) (rest : Frame → Prop) (p : P) (x : Frame) : Prop :=
  rest x ∨ ∃ b, (∀ a, Holder.part p a ≠ b) ∧ t.held b = some x

/-- The pages outside of the free list. -/
def Sys.All (t : Sys P) (rest : Frame → Prop) (x : Frame) : Prop := rest x ∨ ∃ b, t.held b = some x

/-- `q` has the same address space as before. -/
def Apart (t t' : Sys P) (q : P) : Prop :=
  ∀ pr, t.procs q = some pr → ∃ pr', t'.procs q = some pr' ∧ pr'.pt = pr.pt ∧
    ∀ v pte, v < TRAPFRAME → pr.pt.ptes v = some pte → t'.mem.data pte.frame = t.mem.data pte.frame

variable {tr : Frame} {rest : Frame → Prop} {t t' : Sys P} {p q : P} {pr : Proc} {s : Space} {g : Nat}

section
omit [DecidableEq P]

lemma held_part (hp : t.procs p = some pr) : (fun a => t.held (.part p a)) = pr.pt.held := by
  funext a
  simp [Sys.held, hp]

lemma all_iff (hp : t.procs p = some pr) (x : Frame) :
    t.All rest x ↔ t.Others rest p x ∨ ∃ a, pr.pt.held a = some x := by
  have hpart (a) : t.held (.part p a) = pr.pt.held a := congrFun (held_part hp) a
  constructor
  · rintro (hr | ⟨b, hb⟩)
    · exact .inl (.inl hr)
    · by_cases hpb : ∃ a, Holder.part p a = b
      · obtain ⟨a, rfl⟩ := hpb
        exact .inr ⟨a, (hpart a).symm.trans hb⟩
      · exact .inl (.inr ⟨b, fun a e => hpb ⟨a, e⟩, hb⟩)
  · rintro ((hr | ⟨b, _, hb⟩) | ⟨a, ha⟩)
    · exact .inl hr
    · exact .inr ⟨b, hb⟩
    · exact .inr ⟨_, (hpart a).trans ha⟩

lemma held_leaf {v : Nat} {pte : Pte} (hq : t.procs q = some pr) (hv : v < TRAPFRAME)
    (hpte : pr.pt.ptes v = some pte) : t.held (.part q (.leaf v)) = some pte.frame := by
  simp [Sys.held, hq, Table.held, hv, hpte]

/-- What keeps the pages of all the others keeps the address spaces of the other processes. -/
lemma apart_of_keeps {s0 : Space} (hqp : q ≠ p) (hk : Keeps (t.Others rest p) s0 s) (hmem : s0.mem = t.mem)
    (hmem' : t'.mem = s.mem) (hprocs : t'.procs q = t.procs q) : Apart t t' q := by
  intro pr hq
  refine ⟨pr, hprocs.trans hq, rfl, fun v pte hv hpte => ?_⟩
  have := hk pte.frame (.inr ⟨_, fun a e => hqp (Holder.part.inj e).1.symm, held_leaf hq hv hpte⟩)
  rw [hmem', this, hmem]

lemma apart_of_keeps_all {s0 : Space} (hk : Keeps (t.All rest) s0 s) (hmem : s0.mem = t.mem)
    (hmem' : t'.mem = s.mem) (hprocs : t'.procs q = t.procs q) : Apart t t' q := by
  intro pr hq
  refine ⟨pr, hprocs.trans hq, rfl, fun v pte hv hpte => ?_⟩
  have := hk pte.frame (.inr ⟨_, held_leaf hq hv hpte⟩)
  rw [hmem', this, hmem]

end

namespace Sound

section

variable (h : Sound tr rest t)

include h

omit [DecidableEq P] in
lemma good (hp : t.procs p = some pr) : Good (t.Others rest p) ⟨t.mem, pr.pt⟩ := by
  refine (h.shape p pr hp).good ?_
  rw [← held_part hp]
  exact h.ledger.focus (Holder.part p) fun a b e => (Holder.part.inj e).2

omit [DecidableEq P] in
lemma spare : Good (t.All rest) ⟨t.mem, .empty⟩ := by
  refine shape_empty.good ?_
  have hnone : Ledger t.mem.free t.held fun x => rest x ∨ ∃ a, Table.empty.held a = some x :=
    h.ledger.congr fun x => by simp [held_empty]
  exact hnone.swap (fun a b x ha => by simp [held_empty] at ha) fun a x ha => by simp [held_empty] at ha

omit [DecidableEq P] in
/-- The work on a new table comes to nothing. -/
lemma same (hg : Good (t.All rest) s) (hpt : s.pt = Table.empty)
    (hmem : t'.mem = s.mem) (hprocs : t'.procs = t.procs) (hpipes : t'.pipes = t.pipes) :
    Sound tr rest t' := by
  have hheld : t'.held = t.held := by
    funext b
    cases b <;> simp only [Sys.held, hprocs, hpipes]
  refine ⟨?_, hprocs ▸ h.shape, hprocs ▸ h.spans⟩
  have hnone (a) : s.pt.held a = none := by rw [hpt]; exact held_empty a
  rw [hmem, hheld]
  exact (hg.ledger.swap h.ledger.inj h.ledger.held_other).congr fun x => by simp [hnone]

lemma put (pr' : Proc) (hp : t.procs p = some pr) (hg : Good (t.Others rest p) s)
    (hs : Spans tr pr.trapframe g (pages pr'.sz) s.pt) (hpt : pr'.pt = s.pt)
    (htf : pr'.trapframe = pr.trapframe) (hmem : t'.mem = s.mem)
    (hprocs : t'.procs = update t.procs p (some pr')) (hpipes : t'.pipes = t.pipes) :
    Sound tr rest t' := by
  refine ⟨?_, fun q pr1 hq => ?_, fun q pr1 hq => ?_⟩
  · rw [hmem]
    refine hg.ledger.widen (Holder.part p) h.ledger.inj h.ledger.held_other (fun a => ?_) fun b hb => ?_
    · simp [Sys.held, hprocs, hpt]
    · cases b with
      | part q a =>
        have hqp : q ≠ p := fun e => hb a (by rw [e])
        simp [Sys.held, hprocs, hqp]
      | trapframe q =>
        by_cases hqp : q = p
        · rw [hqp]
          simp [Sys.held, hprocs, hp, htf]
        · simp [Sys.held, hprocs, hqp]
      | pipe k => simp [Sys.held, hpipes]
  · rw [hprocs, update_apply] at hq
    split_ifs at hq
    · cases hq
      rw [hpt]
      exact hg.shape
    · exact h.shape q pr1 hq
  · rw [hprocs, update_apply] at hq
    split_ifs at hq
    · cases hq
      rw [hpt, htf]
      exact ⟨g, hs⟩
    · exact h.spans q pr1 hq

lemma add {tf : Frame} (pr' : Proc) (hq : t.procs q = none)
    (hg : Good (fun y => t.All rest y ∨ y = tf) s) (hnew : ¬ t.All rest tf)
    (hs : Spans tr tf g (pages pr'.sz) s.pt) (hpt : pr'.pt = s.pt) (htf : pr'.trapframe = tf)
    (hmem : t'.mem = s.mem) (hprocs : t'.procs = update t.procs q (some pr'))
    (hpipes : t'.pipes = t.pipes) : Sound tr rest t' := by
  -- the trapframe and the pages of the table, as places of the new process
  let f : Option Place → Holder P := fun o => o.elim (.trapframe q) (.part q)
  have hempty (o) : t.held (f o) = none := by
    cases o <;> simp [f, Sys.held, hq]
  have hall (x) : t.All rest x ↔ rest x ∨ ∃ b, (∀ o, f o ≠ b) ∧ t.held b = some x := by
    refine or_congr_right ⟨?_, fun h => h.imp fun b hb => hb.2⟩
    rintro ⟨b, hb⟩
    refine ⟨b, fun o e => ?_, hb⟩
    rw [← e, hempty] at hb
    cases hb
  refine ⟨?_, fun q' pr1 hq' => ?_, fun q' pr1 hq' => ?_⟩
  · rw [hmem]
    refine ((hg.ledger.extend hnew).congr hall).widen f h.ledger.inj h.ledger.held_other (fun o => ?_)
      fun b hb => ?_
    · cases o with
      | none => simp [f, Sys.held, hprocs, htf]
      | some a => simp [f, Sys.held, hprocs, hpt]
    · cases b with
      | part q' a =>
        have hne : q' ≠ q := fun e => hb (some a) (by rw [e]; rfl)
        simp [Sys.held, hprocs, hne]
      | trapframe q' =>
        have hne : q' ≠ q := fun e => hb none (by rw [e]; rfl)
        simp [Sys.held, hprocs, hne]
      | pipe k => simp [Sys.held, hpipes]
  · rw [hprocs, update_apply] at hq'
    split_ifs at hq'
    · cases hq'
      rw [hpt]
      exact hg.shape
    · exact h.shape q' pr1 hq'
  · rw [hprocs, update_apply] at hq'
    split_ifs at hq'
    · cases hq'
      rw [hpt, htf]
      exact ⟨g, hs⟩
    · exact h.spans q' pr1 hq'

lemma remove (hq : t.procs q = some pr)
    (hg : Good (fun y => t.Others rest q y ∧ y ≠ pr.trapframe) s) (hpt : s.pt = Table.empty)
    (hmem : t'.mem = s.mem) (hprocs : t'.procs = update t.procs q none)
    (hpipes : t'.pipes = t.pipes) : Sound tr rest t' := by
  have htf : t.held (.trapframe q) = some pr.trapframe := by simp [Sys.held, hq]
  have hcase (b) : t'.held b = none ∧ ((∃ a, b = .part q a) ∨ b = .trapframe q) ∨
      t'.held b = t.held b ∧ (∀ a, .part q a ≠ b) ∧ b ≠ .trapframe q := by
    cases b with
    | part q' a =>
      by_cases hqq : q' = q
      · exact .inl ⟨by simp [Sys.held, hprocs, hqq], .inl ⟨a, by rw [hqq]⟩⟩
      · exact .inr ⟨by simp [Sys.held, hprocs, hqq], by simp [Ne.symm hqq], by simp⟩
    | trapframe q' =>
      by_cases hqq : q' = q
      · exact .inl ⟨by simp [Sys.held, hprocs, hqq], .inr (by rw [hqq])⟩
      · exact .inr ⟨by simp [Sys.held, hprocs, hqq], by simp, by simp [hqq]⟩
    | pipe k => exact .inr ⟨by simp [Sys.held, hpipes], by simp, by simp⟩
  have hsub (b x) (hb : t'.held b = some x) : t.held b = some x := by
    rcases hcase b with ⟨e, _⟩ | ⟨e, _⟩ <;> rw [e] at hb
    · cases hb
    · exact hb
  have hO (x) : t.Others rest q x ∧ x ≠ pr.trapframe ↔ rest x ∨ ∃ b, t'.held b = some x := by
    constructor
    · rintro ⟨hr | ⟨b, hb, hx⟩, hne⟩
      · exact .inl hr
      · rcases hcase b with ⟨_, ⟨a, e⟩ | e⟩ | ⟨e, _⟩
        · exact absurd e.symm (hb a)
        · rw [e, htf] at hx
          exact absurd (Option.some_inj.mp hx).symm hne
        · exact .inr ⟨b, e.trans hx⟩
    · rintro (hr | ⟨b, hb⟩)
      · exact ⟨.inl hr, fun e => h.ledger.held_other _ _ htf (e ▸ hr)⟩
      · rcases hcase b with ⟨e, _⟩ | ⟨e, hpart, hne⟩
        · rw [e] at hb
          cases hb
        · refine ⟨.inr ⟨b, hpart, hsub b x hb⟩, fun ex => hne (h.ledger.inj _ _ _ (hsub b x hb) ?_)⟩
          rw [ex]
          exact htf
  have hnone (a) : s.pt.held a = none := by rw [hpt]; exact held_empty a
  refine ⟨?_, fun q' pr1 hq' => ?_, fun q' pr1 hq' => ?_⟩
  · rw [hmem]
    refine ((hg.ledger.congr hO).swap (fun a b x ha hb => ?_) fun a x ha => ?_).congr fun x => by simp [hnone]
    · exact h.ledger.inj _ _ _ (hsub a x ha) (hsub b x hb)
    · exact h.ledger.held_other _ _ (hsub a x ha)
  · rw [hprocs, update_apply] at hq'
    split_ifs at hq'
    exact h.shape q' pr1 hq'
  · rw [hprocs, update_apply] at hq'
    split_ifs at hq'
    exact h.spans q' pr1 hq'

end

end Sound

end

end FypOs.Vm
