import FypOs.Vm.Spans

/-!
# Vm — `fork` and `exec`

What `fork`, `exec` and `sys_exec` do with memory.  A program file is modelled by what `exec` reads of it: its
program headers, and for each segment what `readi` returns page by page.

* `wp_forkMem`, `wp_sysExec`: the new address space has a span, or every page that was taken is given back.
-/

namespace FypOs.Vm

open Lib Prog Function List Table

/-- `MAXARG`. -/
def MAXARG : Nat := 32

/-- `struct proghdr`, and what is read of its segment. -/
structure Segment where
  load : Bool
  flags : UInt32
  vaddr : UInt64
  filesz : UInt64
  memsz : UInt64
  content : Nat → List UInt8

structure Image where
  /-- The header can be read, and has the magic number. -/
  header : Bool
  /-- The program headers, as far as they can be read. -/
  segments : List (Option Segment)

/-- `flags2perm`. -/
def flags2perm (flags : UInt32) : Perm := ⟨false, flags &&& 2 != 0, flags &&& 1 != 0, false⟩

/-! ### `fork` -/

/-- The memory of `fork`, with the table of the new process at work: its trapframe, or nothing.  `freeproc`
frees the trapframe first. -/
def forkMem (trampoline : Frame) (old : Table) (sz : Nat) (trapframe : Frame) : Prog Space (Option Frame) := do
  match ← kalloc with
  | none => pure none
  | some tf => do
    if ← procPagetable trampoline tf then
      if ← uvmcopy old sz then do
        -- `a0` of the copy is 0
        modify fun s => s.fill tf (memmove (s.mem.data trapframe) 112 (List.replicate 8 0))
        pure (some tf)
      else do
        kfree tf
        procFreepagetable 0
        pure none
    else do
      kfree tf
      pure none

/-! ### `exec` -/

/-- A turn of the loop of `loadseg`, which ends it if the file is too short. -/
def loadPage (seg : Segment) (sz i : Nat) : Prog Space (Option Unit) := do
  match ← reads fun s => walkaddr s.pt (seg.vaddr.toNat / PGSIZE + i) with
  | none => Prog.panic "loadseg: address should exist"
  | some x => do
    let n := min PGSIZE (sz - i * PGSIZE)
    modify fun s => s.fill x (memmove (s.mem.data x) 0 ((seg.content i).take n))
    if n ≤ (seg.content i).length then pure none else pure (some ())

/-- `loadseg`; the size is a `uint`. -/
def loadseg (seg : Segment) : Prog Space Bool := do
  let sz := seg.filesz.toNat % 2 ^ 32
  match ← search (loadPage seg sz) (List.range' 0 (pages sz)) with
  | some () => pure false
  | none => pure true

/-- A turn of the loop of `exec` over the program headers: whether to go on, and the size so far. -/
def execSegment (seg : Option Segment) (sz : Nat) : Prog Space (Bool × Nat) :=
  match seg with
  | none => pure (false, sz)
  | some seg =>
    if seg.load = false then pure (true, sz)
    else if seg.memsz < seg.filesz then pure (false, sz)
    else if seg.vaddr + seg.memsz < seg.vaddr then pure (false, sz)
    else if seg.vaddr.toNat % PGSIZE ≠ 0 then pure (false, sz)
    else do
      let sz1 ← uvmalloc sz (seg.vaddr + seg.memsz).toNat (flags2perm seg.flags)
      if sz1 = 0 then pure (false, sz)
      else do
        let ok ← loadseg seg
        pure (ok, sz1)

def execLoop : List (Option Segment) → Nat → Prog Space (Bool × Nat)
  | [], sz => pure (true, sz)
  | seg :: rest, sz => do
    let (ok, sz1) ← execSegment seg sz
    if ok then execLoop rest sz1 else pure (false, sz1)

/-- The eight bytes of a pointer. -/
def le64 (n : Nat) : List UInt8 := (List.range 8).map fun k => UInt8.ofNat (n / 256 ^ k)

/-- `sp -= sp % 16`. -/
def align16 (sp : Nat) : Nat := sp - sp % 16

/-- The loop of `exec` over the arguments: the stack pointer, and those of the strings. -/
def pushArgs (stackbase : Nat) : List (List UInt8) → Nat → Nat → List Nat → Prog Space (Option (Nat × List Nat))
  | [], _, sp, ustack => pure (some (sp, ustack))
  | arg :: args, argc, sp, ustack =>
    if MAXARG ≤ argc then pure none
    else
      let sp := align16 (sp - (arg.length + 1))
      if sp < stackbase then pure none
      else do
        if ← copyout sp (arg ++ [0]) then pushArgs stackbase args (argc + 1) sp (ustack ++ [sp])
        else pure none

/-- What `exec` does at `bad`. -/
def execBad (sz : Nat) : Prog Space (Option Nat) := do
  procFreepagetable sz
  pure none

/-- The pointers to the strings, at `sp`. -/
def pushPointers (sz1 stackbase sp : Nat) (ustack : List Nat) : Prog Space (Option Nat) :=
  if sp < stackbase then execBad sz1
  else do
    if ← copyout sp ((ustack ++ [0]).flatMap le64) then pure (some sz1) else execBad sz1

/-- The stack of `exec`: its guard page, the strings, and the pointers to them. -/
def execStack (sz1 : Nat) (args : List (List UInt8)) : Prog Space (Option Nat) := do
  uvmclear (sz1 / PGSIZE - 2)
  match ← pushArgs (sz1 - PGSIZE) args 0 sz1 [] with
  | none => execBad sz1
  | some (sp, ustack) => pushPointers sz1 (sz1 - PGSIZE) (align16 (sp - (ustack.length + 1) * 8)) ustack

/-- `exec`, with the new table at work: the size of the new image, or nothing. -/
def execMem (trampoline trapframe : Frame) (image : Image) (args : List (List UInt8)) :
    Prog Space (Option Nat) := do
  if image.header = false then pure none
  else if ← procPagetable trampoline trapframe then do
    let (ok, sz) ← execLoop image.segments 0
    if ok then do
      let sz1 ← uvmalloc (pages sz * PGSIZE) (pages sz * PGSIZE + 2 * PGSIZE) ⟨false, true, false, false⟩
      if sz1 = 0 then execBad (pages sz * PGSIZE) else execStack sz1 args
    else execBad sz
  else pure none

/-- An element of the user's `argv`: an address that cannot be read, one of a string that cannot be read, or
one of a string. -/
inductive Arg where
  | badAddr
  | badStr
  | str (bytes : List UInt8)

/-- The loop of `sys_exec`: whether to go on, the pages, and the strings in them. -/
def fetchArgs : List Arg → Nat → Prog Space (Bool × List Frame × List (List UInt8))
  | [], i => pure (i < MAXARG, [], [])
  | arg :: args, i =>
    if MAXARG ≤ i then pure (false, [], [])
    else
      match arg with
      | .badAddr => pure (false, [], [])
      | .badStr => do
        match ← kalloc with
        | none => pure (false, [], [])
        | some x => pure (false, [x], [])
      | .str bytes => do
        match ← kalloc with
        | none => pure (false, [], [])
        | some x => do
          modify fun s => s.fill x (memmove (s.mem.data x) 0 (bytes ++ [0]))
          let (ok, xs, strs) ← fetchArgs args (i + 1)
          pure (ok, x :: xs, bytes :: strs)

/-- `exec` on the arguments of `sys_exec`, if they could be read. -/
def execIf (trampoline trapframe : Frame) (image : Image) (ok : Bool) (strs : List (List UInt8)) :
    Prog Space (Option Nat) :=
  if ok then execMem trampoline trapframe image strs else pure none

/-- The end of `exec`: the old table is freed. -/
def freeOld (old : Table) (oldsz : Nat) (r : Option Nat) : Prog Space Unit :=
  match r with
  | some _ => zoom (fun s => ⟨s.mem, old⟩) (fun s' s => ⟨s'.mem, s.pt⟩) (procFreepagetable oldsz)
  | none => pure ()

/-- `sys_exec`, with the new table at work. -/
def sysExec (trampoline trapframe : Frame) (old : Table) (oldsz : Nat) (image : Image) (args : List Arg) :
    Prog Space (Option Nat) := do
  let fetched ← fetchArgs args 0
  let r ← execIf trampoline trapframe image fetched.1 fetched.2.2
  freeOld old oldsz r
  forEach kfree fetched.2.1
  pure r

/-! ### Specifications -/

variable {O : Frame → Prop} {s s' : Space} {tr tf : Frame} {g n v k : Nat}

variable {args : List (List UInt8)} {seg : Segment} {image : Image} {sz : Nat} {s1 : Space}
  {Q : Option Nat → Space → Prop} {ustack : List Nat} {old : Table} {pt : Table}

section

variable (h : Good O s)

include h

lemma wp_forkMem {trapframe : Frame} (hpt : s.pt = empty)
    (hold : Source O g (pages sz) old) : wp (forkMem tr old sz trapframe) (fun r s' => Keeps O s s' ∧ match r with
      | some tf => Good (fun y => O y ∨ y = tf) s' ∧ ¬ O tf ∧ Spans tr tf g (pages sz) s'.pt ∧
          Copied old s.mem.data (pages sz) s'
      | none => Good O s' ∧ s'.pt = empty) Never s := by
  rw [forkMem, wp_bind]
  refine (wp_kalloc h).post fun r s1 hpost => ?_
  obtain ⟨hpt1, hg, hr⟩ := hpost
  have hk1 := h.keeps hg
  cases r with
  | none => exact ⟨hk1, hr, hpt1.trans hpt⟩
  | some tf =>
    obtain ⟨h1, htf, hfree, _⟩ := hr
    have hweak {a b : Space} (hk : Keeps (fun y => O y ∨ y = tf) a b) : Keeps O a b := fun f hf =>
      hk f (.inl hf)
    have hdrop (y) : (O y ∨ y = tf) ∧ y ≠ tf ↔ O y := by grind
    simp only [wp_bind]
    refine (wp_procPagetable h1 (hpt1.trans hpt) tr tf g).post
      fun r s2 hpost => ?_
    obtain ⟨h2, hk2, htrue2, hfalse2⟩ := hpost
    cases r with
    | false =>
      simp only [Bool.false_eq_true, if_false, wp_bind]
      refine (wp_kfree h2 (.inr rfl)).post fun _ s3 hpost => ?_
      obtain ⟨hpt3, hk3, h3⟩ := hpost
      refine ⟨(hk1.trans (hweak hk2)).trans fun f hf => hk3 f ((hdrop f).mpr hf), h3.congr hdrop, ?_⟩
      exact hpt3.trans (hfalse2 rfl)
    | true =>
      have hold' : Source (fun y => O y ∨ y = tf) g (pages sz) old :=
        ⟨fun v hv => by
          obtain ⟨pte, hp, hr, hu, hO⟩ := hold.user v hv
          exact ⟨pte, hp, hr, hu, .inl hO⟩, hold.present⟩
      simp only [if_true, wp_bind]
      refine (wp_uvmcopy h2 (htrue2 rfl) hold').post fun r s3 hpost => ?_
      obtain ⟨h3, hk3, htrue3, hfalse3⟩ := hpost
      have hk : Keeps O s s3 := (hk1.trans (hweak hk2)).trans (hweak hk3)
      cases r with
      | false =>
        simp only [Bool.false_eq_true, if_false, wp_bind]
        refine (wp_kfree h3 (.inr rfl)).post fun _ s4 hpost => ?_
        obtain ⟨hpt4, hk4, h4⟩ := hpost
        have hs4 : Spans tr tf g (pages 0) s4.pt := hpt4 ▸ hfalse3 rfl
        rw [wp_bind]
        refine (wp_procFreepagetable (h4.congr hdrop) hs4).post fun _ s5 hpost => ?_
        obtain ⟨h5, hk5, hpt5⟩ := hpost
        exact ⟨(hk.trans fun f hf => hk4 f ((hdrop f).mpr hf)).trans hk5, h5, hpt5⟩
      | true =>
        obtain ⟨hs3, hc3⟩ := htrue3 rfl
        simp only [if_true, wp_bind, wp_modify, wp_pure]
        have hne (f) (hf : O f) : f ≠ tf := fun e => htf (by rw [← e]; exact hf)
        refine ⟨fun f hf => (update_of_ne (hne f hf) _ _).trans (hk f hf), h3.fill _ _, htf, hs3,
          fun v hv => ?_⟩
        obtain ⟨pte, pte', hp, hp', hpp, hd⟩ := hc3 v hv
        -- the trapframe is not one of the pages of the user
        have hheld : s3.pt.held (.leaf v) = some pte'.frame := by
          have := hs3.lt h3
          have : v < TRAPFRAME := by omega
          simp [held, this, hp']
        have hnf : pte'.frame ≠ tf := fun e => h3.ledger.held_other _ _ hheld (.inr e)
        refine ⟨pte, pte', hp, hp', hpp, (update_of_ne hnf _ _).trans (hd.trans ?_)⟩
        obtain ⟨pte0, hp0, _, _, hO⟩ := hold.user v hv
        rw [hp] at hp0
        cases hp0
        exact (hk1.trans (hweak hk2)) pte.frame hO

section

variable (hs : Spans tr tf MAXPAGE n s.pt)

include hs

lemma wp_loadPage {sz i : Nat}
    (hi : seg.vaddr.toNat / PGSIZE + i < n) : wp (loadPage seg sz i) (fun _ s' => Good O s' ∧
      Keeps O s s' ∧ s'.pt = s.pt) Never s := by
  have hlt := hs.lt h
  have hmax : TRAPFRAME < MAXPAGE := by decide
  obtain ⟨pte, _, hw⟩ := hs.walkaddr_eq h hi (by omega)
  rw [loadPage, wp_bind, wp_reads, hw]
  simp only [wp_bind, wp_modify]
  obtain ⟨h1, hk1⟩ := h.write hs hw (memmove (s.mem.data pte.frame) 0
    ((seg.content i).take (min PGSIZE (sz - i * PGSIZE))))
  split_ifs
  · exact ⟨h1, hk1, rfl⟩
  · exact ⟨h1, hk1, rfl⟩

lemma wp_loadLoop {sz i : Nat} (hi : seg.vaddr.toNat / PGSIZE + (i + k) ≤ n) :
    wp (search (loadPage seg sz) (List.range' i k)) (fun _ s' => Good O s' ∧ Keeps O s s' ∧
      s'.pt = s.pt) Never s := by
  induction k generalizing i s with
  | zero => exact ⟨h, fun _ _ => rfl, rfl⟩
  | succ k ih =>
    rw [List.range'_succ, search, wp_bind]
    refine (wp_loadPage h hs (by omega)).post fun r s1 hpost => ?_
    obtain ⟨h1, hk1, hpt1⟩ := hpost
    cases r with
    | some u => exact ⟨h1, hk1, hpt1⟩
    | none =>
      have hs1 : Spans tr tf MAXPAGE n s1.pt := hpt1 ▸ hs
      refine (ih h1 hs1 (by omega)).post fun r s2 hpost => ?_
      obtain ⟨h2, hk2, hpt2⟩ := hpost
      exact ⟨h2, hk1.trans hk2, hpt2.trans hpt1⟩

lemma wp_loadseg (hn : seg.vaddr.toNat / PGSIZE + pages seg.filesz.toNat ≤ n) :
    wp (loadseg seg) (fun _ s' => Good O s' ∧ Keeps O s s' ∧ s'.pt = s.pt) Never s := by
  have hle : pages (seg.filesz.toNat % 2 ^ 32) ≤ pages seg.filesz.toNat := pages_mono (Nat.mod_le _ _)
  rw [loadseg, wp_bind]
  refine (wp_loadLoop h hs (by omega)).post fun r s1 hs1 => ?_
  cases r with
  | some u => exact hs1
  | none => exact hs1

end

lemma wp_execSegment {seg : Option Segment}
    (hs : Spans tr tf MAXPAGE (pages sz) s.pt) : wp (execSegment seg sz) (fun r s' => Good O s' ∧
      Keeps O s s' ∧ Spans tr tf MAXPAGE (pages r.2) s'.pt) Never s := by
  cases seg with
  | none => exact ⟨h, fun _ _ => rfl, hs⟩
  | some seg =>
    rw [execSegment]
    refine wp_ite (fun _ => ⟨h, fun _ _ => rfl, hs⟩) fun _ => ?_
    refine wp_ite (fun _ => ⟨h, fun _ _ => rfl, hs⟩) fun hmem => ?_
    refine wp_ite (fun _ => ⟨h, fun _ _ => rfl, hs⟩) fun hwrap => ?_
    refine wp_ite (fun _ => ⟨h, fun _ _ => rfl, hs⟩) fun halign => ?_
    rw [wp_bind]
    refine (wp_uvmalloc h hs).post fun r s1 hpost => ?_
    obtain ⟨h1, hk1, hr, hs1, _⟩ := hpost
    refine wp_ite (fun h0 => ?_) fun h0 => ?_
    · rw [if_pos h0] at hs1
      exact ⟨h1, hk1, hs1⟩
    · rw [if_neg h0] at hs1
      rw [wp_bind]
      have hsum : (seg.vaddr + seg.memsz).toNat = seg.vaddr.toNat + seg.memsz.toNat := by
        have h1 := seg.vaddr.toNat_lt
        have h2 := seg.memsz.toNat_lt
        rw [UInt64.lt_iff_toNat_lt, UInt64.toNat_add] at hwrap
        rw [UInt64.toNat_add]
        omega
      have hle : seg.vaddr.toNat / PGSIZE + pages seg.filesz.toNat ≤ pages r := by
        have hfile : seg.filesz.toNat ≤ seg.memsz.toNat := by
          rw [UInt64.lt_iff_toNat_lt] at hmem
          omega
        have hmax : seg.vaddr.toNat + seg.memsz.toNat ≤ r := by
          rw [hr h0, hsum]
          exact Nat.le_max_right ..
        unfold pages PGSIZE at *
        omega
      refine (wp_loadseg h1 hs1 hle).post fun ok s2 hpost => ?_
      obtain ⟨h2, hk2, hpt2⟩ := hpost
      exact ⟨h2, hk1.trans hk2, hpt2 ▸ hs1⟩

lemma wp_execLoop {segs : List (Option Segment)}
    (hs : Spans tr tf MAXPAGE (pages sz) s.pt) : wp (execLoop segs sz) (fun r s' => Good O s' ∧
      Keeps O s s' ∧ Spans tr tf MAXPAGE (pages r.2) s'.pt) Never s := by
  induction segs generalizing sz s with
  | nil => exact ⟨h, fun _ _ => rfl, hs⟩
  | cons seg segs ih =>
    rw [execLoop, wp_bind]
    refine (wp_execSegment h hs).post fun r s1 hpost => ?_
    obtain ⟨h1, hk1, hs1⟩ := hpost
    refine wp_ite (fun _ => ?_) fun _ => ⟨h1, hk1, hs1⟩
    refine (ih h1 hs1).post fun r s2 hpost => ?_
    obtain ⟨h2, hk2, hs2⟩ := hpost
    exact ⟨h2, hk1.trans hk2, hs2⟩

lemma wp_pushArgs {stackbase : Nat} {argc sp : Nat} (hs : Spans tr tf g n s.pt) : wp (pushArgs stackbase args argc sp ustack)
      (fun _ s' => Good O s' ∧ Keeps O s s' ∧ s'.pt = s.pt) Never s := by
  induction args generalizing argc sp ustack s with
  | nil => exact ⟨h, fun _ _ => rfl, rfl⟩
  | cons arg args ih =>
    rw [pushArgs]
    refine wp_ite (fun _ => ⟨h, fun _ _ => rfl, rfl⟩) fun _ => ?_
    refine wp_ite (fun _ => ⟨h, fun _ _ => rfl, rfl⟩) fun _ => ?_
    rw [wp_bind]
    refine (wp_copyout h hs).post fun r s1 hpost => ?_
    obtain ⟨h1, hk1, hpt1, _⟩ := hpost
    refine wp_ite (fun _ => ?_) fun _ => ⟨h1, hk1, hpt1⟩
    have hs1 : Spans tr tf g n s1.pt := hpt1 ▸ hs
    refine (ih h1 hs1).post fun r s2 hpost => ?_
    obtain ⟨h2, hk2, hpt2⟩ := hpost
    exact ⟨h2, hk1.trans hk2, hpt2.trans hpt1⟩

end

/-- What `exec` comes to: an address space of the size that it returns, or nothing. -/
def Execs (O : Frame → Prop) (tr tf : Frame) (s : Space) (r : Option Nat) (s' : Space) : Prop :=
  Good O s' ∧ Keeps O s s' ∧
    match r with
    | some sz => ∃ g, Spans tr tf g (pages sz) s'.pt
    | none => s'.pt = empty

lemma wp_execBad (h : Good O s1) (hk : Keeps O s s1)
    (hs : Spans tr tf g (pages sz) s1.pt) (hbad : ∀ s', Execs O tr tf s none s' → Q none s') :
    wp (execBad sz) Q Never s1 := by
  rw [execBad, wp_bind]
  refine (wp_procFreepagetable h hs).post fun _ s2 hpost => ?_
  obtain ⟨h2, hk2, hpt2⟩ := hpost
  exact hbad s2 ⟨h2, hk.trans hk2, hpt2⟩

lemma wp_pushPointers {sz1 stackbase sp : Nat} (h : Good O s1) (hk : Keeps O s s1)
    (hs : Spans tr tf g (pages sz1) s1.pt) :
    wp (pushPointers sz1 stackbase sp ustack) (Execs O tr tf s) Never s1 := by
  unfold pushPointers
  split_ifs
  · exact wp_execBad h hk hs fun _ => id
  · rw [wp_bind]
    refine (wp_copyout h hs).post fun r s2 hpost => ?_
    obtain ⟨h2, hk2, hpt2, _⟩ := hpost
    have hs2 : Spans tr tf g (pages sz1) s2.pt := hpt2 ▸ hs
    exact wp_ite (fun _ => ⟨h2, hk.trans hk2, g, hs2⟩) fun _ => wp_execBad h2 (hk.trans hk2) hs2 fun _ => id

lemma wp_execStack {sz1 : Nat} (h : Good O s1) (hk : Keeps O s s1)
    (hs : Spans tr tf MAXPAGE (pages sz1) s1.pt) (hsz : 2 ≤ sz1 / PGSIZE) :
    wp (execStack sz1 args) (Execs O tr tf s) Never s1 := by
  have hv : sz1 / PGSIZE - 2 < pages sz1 := by
    unfold pages PGSIZE at *
    omega
  rw [execStack, wp_bind]
  generalize sz1 - PGSIZE = stackbase
  refine (wp_uvmclear h hs hv).post fun _ s2 hpost => ?_
  obtain ⟨h2, hk2, hs2⟩ := hpost
  rw [wp_bind]
  refine (wp_pushArgs h2 hs2).post fun r s3 hpost => ?_
  obtain ⟨h3, hk3, hpt3⟩ := hpost
  have hs3 := hpt3 ▸ hs2
  have hk' : Keeps O s s3 := (hk.trans hk2).trans hk3
  cases r with
  | none => exact wp_execBad h3 hk' hs3 fun _ => id
  | some r =>
    exact wp_pushPointers h3 hk' hs3

/-- **The rule for `exec`**: what it comes to on failure, and what its last part does. -/
lemma wp_execMem_of (h : Good O s) (hpt : s.pt = empty) (hbad : ∀ s', Execs O tr tf s none s' → Q none s')
    (hstack : ∀ sz1 s1, Good O s1 → Keeps O s s1 → Spans tr tf MAXPAGE (pages sz1) s1.pt → PGSIZE ∣ sz1 →
      2 ≤ sz1 / PGSIZE → wp (execStack sz1 args) Q Never s1) : wp (execMem tr tf image args) Q Never s := by
  rw [execMem]
  refine wp_ite (fun _ => hbad s ⟨h, fun _ _ => rfl, hpt⟩) fun _ => ?_
  rw [wp_bind]
  refine (wp_procPagetable h hpt tr tf MAXPAGE).post fun r s1 hpost => ?_
  obtain ⟨h1, hk1, htrue1, hfalse1⟩ := hpost
  cases r with
  | false => exact hbad s1 ⟨h1, hk1, hfalse1 rfl⟩
  | true =>
    rw [if_pos rfl, wp_bind]
    have hs1 : Spans tr tf MAXPAGE (pages 0) s1.pt := htrue1 rfl
    refine (wp_execLoop h1 hs1).post fun r s2 hpost => ?_
    obtain ⟨h2, hk2, hs2⟩ := hpost
    refine wp_ite (fun _ => ?_) fun _ => wp_execBad h2 (hk1.trans hk2) hs2 hbad
    have hs2' : Spans tr tf MAXPAGE (pages (pages r.2 * PGSIZE)) s2.pt := by
      rw [pages_mul]
      exact hs2
    rw [wp_bind]
    refine (wp_uvmalloc h2 hs2').post fun sz1 s3 hpost => ?_
    obtain ⟨h3, hk3, hr, hs3, _⟩ := hpost
    have hk : Keeps O s s3 := (hk1.trans hk2).trans hk3
    refine wp_ite (fun h0 => ?_) fun h0 => ?_
    · rw [if_pos h0] at hs3
      exact wp_execBad h3 hk hs3 hbad
    · rw [if_neg h0] at hs3
      refine hstack sz1 s3 h3 hk hs3 ?_ ?_ <;> rw [hr h0] <;> unfold PGSIZE <;> omega

lemma wp_execMem (h : Good O s) (hpt : s.pt = empty) :
    wp (execMem tr tf image args) (Execs O tr tf s) Never s :=
  wp_execMem_of h hpt (fun _ => id) fun _ _ h1 hk hs _ htwo => wp_execStack h1 hk hs htwo

/-! ### `sys_exec` -/

lemma wp_freeArgs {xs : List Frame} (h : Good (fun y => O y ∨ y ∈ xs) s) (hnodup : xs.Nodup)
    (hO : ∀ x, x ∈ xs → ¬ O x) :
    wp (forEach kfree xs) (fun _ s' => Good O s' ∧ Keeps O s s' ∧ s'.pt = s.pt) Never s := by
  induction xs generalizing s with
  | nil => exact ⟨h.congr fun y => by simp, fun _ _ => rfl, rfl⟩
  | cons x xs ih =>
    obtain ⟨hx, hnodup'⟩ := nodup_cons.mp hnodup
    rw [forEach, wp_bind]
    refine (wp_kfree h (.inr mem_cons_self)).post fun _ s1 hpost => ?_
    obtain ⟨hpt1, hk1, h1⟩ := hpost
    have h1' : Good (fun y => O y ∨ y ∈ xs) s1 := h1.congr fun y => by
      have := hO x mem_cons_self
      grind
    refine (ih h1' hnodup' fun y hy => hO y (mem_cons_of_mem x hy)).post
      fun _ s2 hpost => ?_
    obtain ⟨h2, hk2, hpt2⟩ := hpost
    refine ⟨h2, fun f hf => (hk2 f hf).trans (hk1 f ⟨.inl hf, fun e => ?_⟩), hpt2.trans hpt1⟩
    exact hO x mem_cons_self (by rw [← e]; exact hf)

lemma wp_fetchArgs {args : List Arg} {i : Nat} (h : Good O s) :
    wp (fetchArgs args i) (fun r s' => Good (fun y => O y ∨ y ∈ r.2.1) s' ∧ Keeps O s s' ∧ s'.pt = s.pt ∧
      r.2.1.Nodup ∧ ∀ x, x ∈ r.2.1 → ¬ O x) Never s := by
  have hnil {s'} (h : Good O s') : Good (fun y => O y ∨ y ∈ ([] : List Frame)) s' :=
    h.congr fun y => by simp
  induction args generalizing i O s with
  | nil => exact ⟨hnil h, fun _ _ => rfl, rfl, nodup_nil, by simp⟩
  | cons arg args ih =>
    rw [fetchArgs.eq_def]
    dsimp only
    refine wp_ite (fun _ => ⟨hnil h, fun _ _ => rfl, rfl, nodup_nil, by simp⟩) fun _ => ?_
    cases arg with
    | badAddr => exact ⟨hnil h, fun _ _ => rfl, rfl, nodup_nil, by simp⟩
    | badStr =>
      simp only [wp_bind]
      refine (wp_kalloc h).post fun r s1 hpost => ?_
      obtain ⟨hpt1, hg, hr⟩ := hpost
      cases r with
      | none => exact ⟨hnil hr, h.keeps hg, hpt1, nodup_nil, by simp⟩
      | some x =>
        refine ⟨hr.1.congr fun y => by simp, h.keeps hg, hpt1,
          nodup_cons.mpr ⟨by simp, nodup_nil⟩, fun y hy => ?_⟩
        rw [mem_singleton.mp hy]
        exact hr.2.1
    | str bytes =>
      simp only [wp_bind]
      refine (wp_kalloc h).post fun r s1 hpost => ?_
      obtain ⟨hpt1, hg, hr⟩ := hpost
      cases r with
      | none => exact ⟨hnil hr, h.keeps hg, hpt1, nodup_nil, by simp⟩
      | some x =>
        obtain ⟨h1, hx, _⟩ := hr
        have hne (f) (hf : O f) : f ≠ x := fun e => hx (by rw [← e]; exact hf)
        simp only [wp_bind, wp_modify]
        refine (ih (h1.fill x _) fun h => h.congr fun y => by simp).post
          fun r s2 hpost => ?_
        obtain ⟨h2, hk2, hpt2, hnodup, hnew⟩ := hpost
        refine ⟨h2.congr fun y => ?_, fun f hf => ?_, hpt2.trans hpt1,
          nodup_cons.mpr ⟨fun hm => hnew x hm (.inr rfl), hnodup⟩, fun y hy => ?_⟩
        · simp only [mem_cons]
          grind
        · exact (hk2 f (.inl hf)).trans ((update_of_ne (hne f hf) _ _).trans (h.keeps hg f hf))
        · rcases mem_cons.mp hy with rfl | hy
          · exact hx
          · exact fun ho => hnew y hy (.inl ho)

/-- The shape of a table, whoever holds its pages. -/
structure Shape (pt : Table) : Prop where
  tab : ∀ v, pt.ptes v ≠ none → pt.tabs (v / 2 ^ 9) ≠ none
  dir : ∀ i, pt.tabs i ≠ none → pt.dirs (i / 2 ^ 9) ≠ none
  bound : ∀ i, pt.dirs i ≠ none → i < 2 ^ 9

lemma Good.shape (h : Good O s) : Shape s.pt := ⟨h.tab, h.dir, h.bound⟩

lemma Shape.good {mem : Mem} (hs : Shape pt) (hl : Ledger mem.free pt.held O) :
    Good O ⟨mem, pt⟩ := ⟨hl, hs.tab, hs.dir, hs.bound⟩

lemma held_empty (a : Place) : empty.held a = none := by
  cases a with
  | leaf v =>
    simp only [held, empty]
    split_ifs <;> rfl
  | root | dir | tab => rfl

lemma shape_empty : Shape empty := ⟨nofun, nofun, nofun⟩

lemma Good.swap (h : Good (fun x => O x ∨ ∃ a, pt.held a = some x) s) (hshape : Shape pt)
    (hinj : ∀ a b x, pt.held a = some x → pt.held b = some x → a = b) (hO : ∀ a x, pt.held a = some x → ¬ O x) :
    Good (fun x => O x ∨ ∃ a, s.pt.held a = some x) ⟨s.mem, pt⟩ :=
  hshape.good (h.ledger.swap hinj hO)

/-- **`sys_exec`** puts a new address space in the place of the old one, or gives back every page that it
has taken. -/
lemma wp_sysExec {oldsz : Nat} {args : List Arg}
    (h : Good (fun x => O x ∨ ∃ a, old.held a = some x) s) (hpt : s.pt = empty) (hshape : Shape old)
    (hold : Spans tr tf g (pages oldsz) old) (hinj : ∀ a b x, old.held a = some x → old.held b = some x → a = b)
    (hO : ∀ a x, old.held a = some x → ¬ O x) : wp (sysExec tr tf old oldsz image args) (fun r s' =>
      Keeps O s s' ∧
      match r with
      | some sz => Good O s' ∧ ∃ g, Spans tr tf g (pages sz) s'.pt
      | none => Good (fun x => O x ∨ ∃ a, old.held a = some x) s' ∧ s'.pt = empty ∧
          Keeps (fun x => O x ∨ ∃ a, old.held a = some x) s s') Never s := by
  rw [sysExec, wp_bind]
  refine (wp_fetchArgs h).post fun r s1 hpost => ?_
  obtain ⟨h1, hk1, hpt1, hnodup, hnew⟩ := hpost
  obtain ⟨ok, xs, strs⟩ := r
  have hexec : wp (execIf tr tf image ok strs)
      (Execs (fun y => (O y ∨ ∃ a, old.held a = some y) ∨ y ∈ xs) tr tf s1) Never s1 := by
    refine wp_ite (fun _ => wp_execMem h1 (hpt1.trans hpt)) fun _ => ?_
    exact ⟨h1, fun _ _ => rfl, hpt1.trans hpt⟩
  rw [wp_bind]
  refine hexec.post fun r s2 hpost => ?_
  obtain ⟨h2, hk2, hr⟩ := hpost
  have hk : Keeps (fun x => O x ∨ ∃ a, old.held a = some x) s s2 :=
    hk1.trans fun f hf => hk2 f (.inl hf)
  cases r with
  | none =>
    simp only [wp_bind, freeOld, wp_pure]
    refine (wp_freeArgs h2 hnodup hnew).post fun _ s3 hpost => ?_
    obtain ⟨h3, hk3, hpt3⟩ := hpost
    exact ⟨fun f hf => (hk.trans hk3) f (.inl hf), h3, hpt3.trans hr, hk.trans hk3⟩
  | some sz =>
    obtain ⟨g', hs2⟩ := hr
    simp only [wp_bind, freeOld, wp_zoom]
    -- the old table is put to work, and the new one is elsewhere
    have hO' (a x) (ha : old.held a = some x) : ¬ (O x ∨ x ∈ xs) := by
      rintro (ho | hx)
      · exact hO a x ha ho
      · exact hnew x hx (.inr ⟨a, ha⟩)
    have hswap := Good.swap (O := fun y => O y ∨ y ∈ xs) (h2.congr fun y => by grind) hshape hinj hO'
    refine (wp_procFreepagetable hswap hold).post fun _ s3 hpost => ?_
    obtain ⟨h3, hk3, hpt3⟩ := hpost
    have hnone (a) : s3.pt.held a = none := by rw [hpt3]; exact held_empty a
    have hback : Good (fun y => O y ∨ y ∈ xs) ⟨s3.mem, s2.pt⟩ := by
      have := h3.swap h2.shape h2.ledger.inj fun a x ha ho => h2.ledger.held_other a x ha (by grind)
      exact this.congr fun y => by simp [hnone]
    refine (wp_freeArgs hback hnodup fun x hx ho => hnew x hx (.inl ho)).post
      fun _ s4 hpost => ?_
    obtain ⟨h4, hk4, hpt4⟩ := hpost
    refine ⟨fun f hf => (hk4 f hf).trans ((hk3 f (.inl (.inl hf))).trans (hk f (.inl hf))), h4, g', ?_⟩
    rw [hpt4]
    exact hs2

end FypOs.Vm
