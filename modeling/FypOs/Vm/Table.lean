import FypOs.Lib.Ledger
import FypOs.Lib.Prog
import FypOs.Param

/-!
# Vm — page tables

The physical allocator of `kernel/kalloc.c` and the user page tables of `kernel/vm.c`.

A page table of three levels is modelled by what its pages hold: `dirs` has the pages of the middle level, by
the first index, `tabs` those of the lowest level, by the first two indices as one number, and `ptes` the
entries for pages, by the number of the virtual page.  Virtual addresses and sizes are natural
numbers, reduced where the source may wrap.  The page table that a function works on is part of its state.

`kalloc` may fail at any call: `luck` says which calls are served, if there is a page left.
-/

namespace FypOs.Vm

open Lib Prog

/-! ### Physical pages -/

/-- The pages between `KERNBASE` and `PHYSTOP`. -/
abbrev Frame : Type := Fin 32768

abbrev Page : Type := Nat → UInt8

structure Mem where
  /-- `kmem.freelist`. -/
  free : List Frame
  data : Frame → Page
  luck : Nat → Bool
  calls : Nat

/-- `MAXVA`, in pages. -/
def MAXPAGE : Nat := 2 ^ 26

/-- The pages of `TRAMPOLINE` and of `TRAPFRAME`. -/
def TRAMPOLINE : Nat := MAXPAGE - 1

def TRAPFRAME : Nat := MAXPAGE - 2

/-- `PGROUNDUP(sz) / PGSIZE`. -/
def pages (sz : Nat) : Nat := (sz + (PGSIZE - 1)) / PGSIZE

/-! ### Page tables -/

/-- `PTE_R`, `PTE_W`, `PTE_X` and `PTE_U`. -/
structure Perm where
  r : Bool
  w : Bool
  x : Bool
  u : Bool
  deriving DecidableEq

/-- An entry with `PTE_V`. -/
structure Pte where
  frame : Frame
  perm : Perm
  deriving DecidableEq

/-- Some flag other than `PTE_V` is set. -/
def Perm.Leaf (f : Perm) : Prop := f ≠ ⟨false, false, false, false⟩

instance (f : Perm) : Decidable f.Leaf := inferInstanceAs (Decidable (_ ≠ _))

structure Table where
  root : Option Frame
  dirs : Nat → Option Frame
  tabs : Nat → Option Frame
  ptes : Nat → Option Pte

def Table.empty : Table := ⟨none, fun _ => none, fun _ => none, fun _ => none⟩

/-- The memory, and the page table at work. -/
structure Space where
  mem : Mem
  pt : Table

namespace Space

def setRoot (s : Space) (x : Option Frame) : Space := { s with pt := { s.pt with root := x } }

def setDir (s : Space) (i : Nat) (x : Option Frame) : Space :=
  { s with pt := { s.pt with dirs := Function.update s.pt.dirs i x } }

def setTab (s : Space) (i : Nat) (x : Option Frame) : Space :=
  { s with pt := { s.pt with tabs := Function.update s.pt.tabs i x } }

def setPte (s : Space) (v : Nat) (x : Option Pte) : Space :=
  { s with pt := { s.pt with ptes := Function.update s.pt.ptes v x } }

def fill (s : Space) (x : Frame) (page : Page) : Space :=
  { s with mem := { s.mem with data := Function.update s.mem.data x page } }

end Space

/-! ### The allocator -/

/-- `kalloc`. -/
def kalloc : Prog Space (Option Frame) := fun s =>
  match s.mem.free with
  | x :: free =>
    if s.mem.luck s.mem.calls then
      .ok (some x, Space.fill { s with mem := { s.mem with free := free, calls := s.mem.calls + 1 } } x
        fun _ => 5)
    else .ok (none, { s with mem := { s.mem with calls := s.mem.calls + 1 } })
  | [] => .ok (none, { s with mem := { s.mem with calls := s.mem.calls + 1 } })

/-- `kfree`, of a page that is in range. -/
def kfree (x : Frame) : Prog Space Unit :=
  modify fun s => Space.fill { s with mem := { s.mem with free := x :: s.mem.free } } x fun _ => 1

/-! ### `kernel/vm.c` -/

/-- A turn of the loop of `walk`, at the two upper levels: `get` is the entry, and `set` fills it. -/
def walkLevel (get : Table → Option Frame) (set : Space → Option Frame → Space) (alloc : Bool) :
    Prog Space Bool := do
  match ← reads fun s => get s.pt with
  | some _ => pure true
  | none =>
    if alloc then
      match ← kalloc with
      | some x => do
        modify fun s => set (s.fill x fun _ => 0) (some x)
        pure true
      | none => pure false
    else pure false

/-- `walk`: whether there is an entry for the page `v`. -/
def walk (v : Nat) (alloc : Bool) : Prog Space Bool :=
  if MAXPAGE ≤ v then Prog.panic "walk"
  else do
    if ← walkLevel (fun pt => pt.dirs (v / 2 ^ 18)) (fun s => s.setDir (v / 2 ^ 18)) alloc then
      walkLevel (fun pt => pt.tabs (v / 2 ^ 9)) (fun s => s.setTab (v / 2 ^ 9)) alloc
    else pure false

/-- `walkaddr`, of an address in the page `v`. -/
def walkaddr (pt : Table) (v : Nat) : Option Frame :=
  if MAXPAGE ≤ v then none
  else if (pt.dirs (v / 2 ^ 18)).isNone || (pt.tabs (v / 2 ^ 9)).isNone then none
  else
    match pt.ptes v with
    | some pte => if pte.perm.u then some pte.frame else none
    | none => none

/-- `mappages` with the size `PGSIZE`, as for all user page tables: the loop is taken once. -/
def mappages (v : Nat) (pte : Pte) : Prog Space Bool := do
  if ← walk v true then
    match ← reads fun s => s.pt.ptes v with
    | some _ => Prog.panic "mappages: remap"
    | none => do
      modify fun s => s.setPte v (some pte)
      pure true
  else pure false

/-- A turn of the loop of `uvmunmap`. -/
def unmap (dofree : Bool) (v : Nat) : Prog Space Unit := do
  if ← walk v false then
    match ← reads fun s => s.pt.ptes v with
    | none => Prog.panic "uvmunmap: not mapped"
    | some pte =>
      if pte.perm.Leaf then do
        if dofree then kfree pte.frame
        modify fun s => s.setPte v none
      else Prog.panic "uvmunmap: not a leaf"
  else Prog.panic "uvmunmap: walk"

/-- `uvmunmap`. -/
def uvmunmap (v npages : Nat) (dofree : Bool) : Prog Space Unit :=
  forEach (unmap dofree) (List.range' v npages)

/-- `uvmcreate`. -/
def uvmcreate : Prog Space Bool := do
  match ← kalloc with
  | some x => do
    modify fun s => (s.fill x fun _ => 0).setRoot (some x)
    pure true
  | none => pure false

/-- `uvmdealloc`. -/
def uvmdealloc (oldsz newsz : Nat) : Prog Space Nat :=
  if oldsz ≤ newsz then pure oldsz
  else do
    if pages newsz < pages oldsz then uvmunmap (pages newsz) (pages oldsz - pages newsz) true
    pure newsz

/-- A turn of the loop of `uvmalloc`, which ends it if memory runs out. -/
def grow (first : Nat) (xperm : Perm) (v : Nat) : Prog Space (Option Unit) := do
  match ← kalloc with
  | none => do
    let _ ← uvmdealloc (v * PGSIZE) (first * PGSIZE)
    pure (some ())
  | some x => do
    modify fun s => s.fill x fun _ => 0
    if ← mappages v ⟨x, { xperm with r := true, u := true }⟩ then pure none
    else do
      kfree x
      let _ ← uvmdealloc (v * PGSIZE) (first * PGSIZE)
      pure (some ())

/-- `uvmalloc`: the new size, or 0. -/
def uvmalloc (oldsz newsz : Nat) (xperm : Perm) : Prog Space Nat :=
  if newsz < oldsz then pure oldsz
  else do
    match ← search (grow (pages oldsz) xperm) (List.range' (pages oldsz) (pages newsz - pages oldsz)) with
    | some () => pure 0
    | none => pure newsz

/-- `freewalk`, of a page of the lowest level. -/
def freeTab (i : Nat) : Prog Space Unit := do
  match ← reads fun s => s.pt.tabs i with
  | none => pure ()
  | some x => do
    forEach (fun k => do
      if (← reads fun s => s.pt.ptes (i * 2 ^ 9 + k)).isSome then Prog.panic "freewalk: leaf")
      (List.range (2 ^ 9))
    kfree x
    modify fun s => s.setTab i none

/-- `freewalk`, of a page of the middle level. -/
def freeDir (i : Nat) : Prog Space Unit := do
  match ← reads fun s => s.pt.dirs i with
  | none => pure ()
  | some x => do
    forEach (fun k => freeTab (i * 2 ^ 9 + k)) (List.range (2 ^ 9))
    kfree x
    modify fun s => s.setDir i none

/-- `freewalk`. -/
def freewalk : Prog Space Unit := do
  match ← reads fun s => s.pt.root with
  | none => pure ()
  | some x => do
    forEach freeDir (List.range (2 ^ 9))
    kfree x
    modify fun s => s.setRoot none

/-- `uvmfree`. -/
def uvmfree (sz : Nat) : Prog Space Unit := do
  if 0 < sz then uvmunmap 0 (pages sz) true
  freewalk

/-- A turn of the loop of `uvmcopy`, from the page table `old`. -/
def copyPage (old : Table) (v : Nat) : Prog Space (Option Unit) :=
  if (old.dirs (v / 2 ^ 18)).isNone || (old.tabs (v / 2 ^ 9)).isNone then Prog.panic "uvmcopy: pte should exist"
  else
    match old.ptes v with
    | none => Prog.panic "uvmcopy: page not present"
    | some pte => do
      match ← kalloc with
      | none => do
        uvmunmap 0 v true
        pure (some ())
      | some x => do
        modify fun s => s.fill x (s.mem.data pte.frame)
        if ← mappages v ⟨x, pte.perm⟩ then pure none
        else do
          kfree x
          uvmunmap 0 v true
          pure (some ())

/-- `uvmcopy`: whether all pages were copied. -/
def uvmcopy (old : Table) (sz : Nat) : Prog Space Bool := do
  match ← search (copyPage old) (List.range' 0 (pages sz)) with
  | some () => pure false
  | none => pure true

/-- `uvmclear`. -/
def uvmclear (v : Nat) : Prog Space Unit := do
  if ← walk v false then
    modify fun s => match s.pt.ptes v with
      | some pte => s.setPte v (some { pte with perm := { pte.perm with u := false } })
      | none => s
  else Prog.panic "uvmclear"

/-- `memmove` to a physical page. -/
def memmove (page : Page) (off : Nat) (src : List UInt8) : Page := fun k =>
  if k < off then page k else src.getD (k - off) (page k)

/-- The loop of `copyout`; a turn does the part of the range in one page. -/
def copyout (dstva : Nat) (src : List UInt8) : Prog Space Bool :=
  if _h : src = [] then pure true
  else do
    match ← reads fun s => walkaddr s.pt (dstva / PGSIZE) with
    | none => pure false
    | some x => do
      let n := PGSIZE - dstva % PGSIZE
      modify fun s => s.fill x (memmove (s.mem.data x) (dstva % PGSIZE) (src.take n))
      copyout ((dstva / PGSIZE + 1) * PGSIZE) (src.drop n)
termination_by src.length
decreasing_by
  have hlt : dstva % PGSIZE < PGSIZE := Nat.mod_lt _ (by decide)
  have hpos : 0 < src.length := List.length_pos_iff.mpr ‹_›
  rw [List.length_drop]
  omega

/-! ### `kernel/proc.c` -/

/-- `proc_pagetable`: the table at work is a new one. -/
def procPagetable (trampoline trapframe : Frame) : Prog Space Bool := do
  if ← uvmcreate then
    if ← mappages TRAMPOLINE ⟨trampoline, ⟨true, false, true, false⟩⟩ then
      if ← mappages TRAPFRAME ⟨trapframe, ⟨true, true, false, false⟩⟩ then pure true
      else do
        uvmunmap TRAMPOLINE 1 false
        uvmfree 0
        pure false
    else do
      uvmfree 0
      pure false
  else pure false

/-- `proc_freepagetable`. -/
def procFreepagetable (sz : Nat) : Prog Space Unit := do
  uvmunmap TRAMPOLINE 1 false
  uvmunmap TRAPFRAME 1 false
  uvmfree sz

end FypOs.Vm
