import FypOs.Lib.Runs
import FypOs.Lib.Slots
import FypOs.Param

/-!
# Dev — the disk's descriptors

`kernel/virtio_disk.c`: requests to the disk are chains of three descriptors.  `virtio_disk_rw` takes three that are
free, writes the request into them and puts the head of the chain into the ring of available chains.  The device
takes chains from there, carries them out in any order and puts their heads into the ring of used chains.
`virtio_disk_intr` reads those and marks the buffers as done, and the callers free their chains.

A step is one critical section of `vdisk_lock`, one turn of the loop in `virtio_disk_intr`, or a step of the device.
A caller that sleeps may go on at any time, which covers every wakeup.

* `descriptors_safe`: in every run, no descriptor is used for two requests, and no request is lost.
-/

namespace FypOs.Dev.Virtio

open Lib Function List

/-- The number of descriptors. -/
def NUM : Nat := 8

lemma NUM_dvd : NUM ∣ 2 ^ 16 := by decide

def VRING_DESC_F_NEXT : UInt16 := 1

def VRING_DESC_F_WRITE : UInt16 := 2

def VIRTIO_BLK_T_IN : UInt32 := 0

def VIRTIO_BLK_T_OUT : UInt32 := 1

/-- What the address in a descriptor points to. -/
inductive Addr (B : Type) where
  | null
  /-- The command `disk.ops[i]`. -/
  | ops (i : Nat)
  /-- The data of a buffer. -/
  | data (b : B)
  /-- The byte `disk.info[i].status`. -/
  | status (i : Nat)

/-- `struct virtq_desc`. -/
structure Desc (B : Type) where
  addr : Addr B
  len : Nat
  flags : UInt16
  next : Nat

/-- `struct virtio_blk_req`. -/
structure BlkReq where
  type : UInt32
  reserved : UInt32
  sector : UInt64

/-- `struct virtq_avail` and `struct virtq_used`, of whose entries only the head is read. -/
structure Queue where
  ring : Nat → Nat
  idx : UInt16

structure Info (B : Type) where
  b : Option B
  status : UInt8

/-- The driver's structure, with the memory that it shares with the device. -/
structure Disk (B : Type) where
  desc : Nat → Desc B
  avail : Queue
  used : Queue
  free : Nat → Bool
  /-- How far the driver has looked into the used ring. -/
  usedIdx : UInt16
  info : Nat → Info B
  ops : Nat → BlkReq

variable {P B : Type}

/-! ### Descriptors -/

/-- Find a free descriptor and mark it as not free. -/
def allocDesc (d : Disk B) : Option (Nat × Disk B) :=
  ((List.range NUM).find? d.free).map fun i => (i, { d with free := update d.free i false })

def freeDesc (d : Disk B) (i : Nat) : Outcome (Disk B) :=
  if NUM ≤ i then .panic "free_desc 1"
  else if d.free i then .panic "free_desc 2"
  else .ok { d with desc := update d.desc i ⟨.null, 0, 0, 0⟩, free := update d.free i true }

/-- The loop of `free_chain`, for at most `fuel` turns. -/
def freeChain : Nat → Disk B → Nat → Outcome (Disk B)
  | 0, _, _ => .blocked
  | fuel + 1, d, i =>
    match freeDesc d i with
    | .ok d' => if (d.desc i).flags &&& VRING_DESC_F_NEXT ≠ 0 then freeChain fuel d' (d.desc i).next else .ok d'
    | .panic msg => .panic msg
    | .blocked => .blocked

/-- The loop of `alloc3_desc`, which gives back what it has taken when there are no three. -/
def alloc3Desc (d : Disk B) : Outcome (Option (Nat × Nat × Nat) × Disk B) :=
  match allocDesc d with
  | none => .ok (none, d)
  | some (i₀, d₀) =>
    match allocDesc d₀ with
    | none => (freeDesc d₀ i₀).map fun d => (none, d)
    | some (i₁, d₁) =>
      match allocDesc d₁ with
      | none =>
        match freeDesc d₁ i₀ with
        | .ok d => (freeDesc d i₁).map fun d => (none, d)
        | .panic msg => .panic msg
        | .blocked => .blocked
      | some (i₂, d₂) => .ok (some (i₀, i₁, i₂), d₂)

/-- A request that has been handed to the device. -/
structure Chain (B : Type) where
  b : B
  i₀ : Nat
  i₁ : Nat
  i₂ : Nat

def Chain.descs (c : Chain B) : List Nat := [c.i₀, c.i₁, c.i₂]

/-- An array with new values for the three descriptors of a chain. -/
def Chain.set {α : Type} (c : Chain B) (f : Nat → α) (x y z : α) : Nat → α :=
  update (update (update f c.i₀ x) c.i₁ y) c.i₂ z

def op (blockno : UInt32) (write : Bool) : BlkReq where
  type := if write then VIRTIO_BLK_T_OUT else VIRTIO_BLK_T_IN
  reserved := 0
  sector := (blockno * UInt32.ofNat (BSIZE / 512)).toUInt64

def head (c : Chain B) : Desc B := ⟨.ops c.i₀, 16, VRING_DESC_F_NEXT, c.i₁⟩

def body (c : Chain B) (write : Bool) : Desc B :=
  ⟨.data c.b, BSIZE, (if write then 0 else VRING_DESC_F_WRITE) ||| VRING_DESC_F_NEXT, c.i₂⟩

def tail (c : Chain B) : Desc B := ⟨.status c.i₀, 1, VRING_DESC_F_WRITE, 0⟩

/-- `virtio_disk_rw` from the three descriptors it has got to the notification of the device. -/
def submit (d : Disk B) (c : Chain B) (blockno : UInt32) (write : Bool) : Disk B :=
  { d with
    ops := update d.ops c.i₀ (op blockno write)
    desc := c.set d.desc (head c) (body c write) (tail c)
    info := update d.info c.i₀ ⟨some c.b, 0xff⟩
    avail := ⟨update d.avail.ring (d.avail.idx.toNat % NUM) c.i₀, d.avail.idx + 1⟩ }

/-! ### The machine -/

/-- Where a call of `virtio_disk_rw` is. -/
inductive Call (B : Type) where
  | idle
  /-- Before it has its descriptors. -/
  | allocating (b : B) (blockno : UInt32) (write : Bool)
  /-- In the loop on `b->disk`. -/
  | waiting (c : Chain B)

/-- The buffer a call is about. -/
def Call.buf : Call B → Option B
  | .idle => none
  | .allocating b _ _ => some b
  | .waiting c => some c.b

/-- What the device has read of a chain it works on. -/
structure Work (B : Type) where
  data : Addr B
  status : Addr B
  /-- The status has been written. -/
  done : Bool

/-- How far a request has come. -/
inductive Stage where
  | published
  | taken
  | posted
  | seen
  deriving DecidableEq

structure State (P B : Type) where
  disk : Disk B
  /-- The field `disk` of each buffer: the device owns it. -/
  owned : B → Bool
  calls : P → Call B
  /-- How far the device has looked into the ring of available chains. -/
  taken : UInt16
  /-- The chains the device works on, by their heads. -/
  work : Nat → Option (Work B)
  /-- The requests in flight, by their heads.  Not in the kernel or the device. -/
  stage : Nat → Option Stage

inductive Event (P B : Type) where
  /-- A call of `virtio_disk_rw`. -/
  | call (p : P) (b : B) (blockno : UInt32) (write : Bool)
  /-- A turn of its first loop, and what follows if there are three descriptors. -/
  | alloc (p : P)
  /-- Its return. -/
  | finish (p : P)
  /-- A turn of the loop in `virtio_disk_intr`. -/
  | intr
  /-- The device takes the next available chain. -/
  | take
  /-- The device writes the status of a chain. -/
  | status (h : Nat)
  /-- The device puts a chain into the used ring. -/
  | post (h : Nat)

/-- All descriptors are free, with any values of the counters. -/
def start (a u : UInt16) : State P B where
  disk :=
    { desc := fun _ => ⟨.null, 0, 0, 0⟩
      avail := ⟨fun _ => 0, a⟩
      used := ⟨fun _ => 0, u⟩
      free := fun _ => true
      usedIdx := u
      info := fun _ => ⟨none, 0⟩
      ops := fun _ => ⟨0, 0, 0⟩ }
  owned := fun _ => false
  calls := fun _ => .idle
  taken := a
  work := fun _ => none
  stage := fun _ => none

/-- What the device reads of the chain `h`. -/
def readChain (d : Disk B) (h : Nat) : Work B :=
  let d₁ := d.desc (d.desc h).next
  ⟨d₁.addr, (d.desc d₁.next).addr, false⟩

section Machine

variable [DecidableEq P] [DecidableEq B]

/-- The section of `virtio_disk_rw` that allocates; without descriptors the call goes to sleep. -/
def rwAlloc (s : State P B) (p : P) (b : B) (blockno : UInt32) (write : Bool) :
    Option (Nat × Nat × Nat) × Disk B → State P B
  | (none, d) => { s with disk := d }
  | (some (i₀, i₁, i₂), d) =>
    { s with
      disk := submit d ⟨b, i₀, i₁, i₂⟩ blockno write
      owned := update s.owned b true
      calls := update s.calls p (.waiting ⟨b, i₀, i₁, i₂⟩)
      stage := update s.stage i₀ (some .published) }

/-- The last section of `virtio_disk_rw`. -/
def rwFinish (s : State P B) (p : P) (c : Chain B) : Outcome (State P B) :=
  let info := update s.disk.info c.i₀ { s.disk.info c.i₀ with b := none }
  (freeChain (NUM + 1) { s.disk with info := info } c.i₀).map fun d =>
    { s with disk := d, calls := update s.calls p .idle, stage := update s.stage c.i₀ none }

/-- `virtio_disk_intr` on the entry `id` of the used ring. -/
def intrEntry (s : State P B) (id : Nat) : Outcome (State P B) :=
  if (s.disk.info id).status ≠ 0 then .panic "virtio_disk_intr status"
  else
    match (s.disk.info id).b with
    | none => .panic "null pointer"
    | some b => .ok
      { s with
        owned := update s.owned b false
        disk := { s.disk with usedIdx := s.disk.usedIdx + 1 }
        stage := update s.stage id (some .seen) }

def step (s : State P B) : Event P B → Outcome (State P B)
  | .call p b blockno write =>
    match s.calls p with
    | .idle => .ok { s with calls := update s.calls p (.allocating b blockno write) }
    | _ => .blocked
  | .alloc p =>
    match s.calls p with
    | .allocating b blockno write => (alloc3Desc s.disk).map (rwAlloc s p b blockno write)
    | _ => .blocked
  | .finish p =>
    match s.calls p with
    | .waiting c => if s.owned c.b then .blocked else rwFinish s p c
    | _ => .blocked
  | .intr =>
    if s.disk.usedIdx = s.disk.used.idx then .blocked
    else intrEntry s (s.disk.used.ring (s.disk.usedIdx.toNat % NUM))
  | .take =>
    if s.taken = s.disk.avail.idx then .blocked
    else
      let h := s.disk.avail.ring (s.taken.toNat % NUM)
      .ok { s with
            taken := s.taken + 1
            work := update s.work h (some (readChain s.disk h))
            stage := update s.stage h (some .taken) }
  | .status h =>
    match s.work h with
    | some ⟨data, .status i, false⟩ => .ok
        { s with
          disk := { s.disk with info := update s.disk.info i { s.disk.info i with status := 0 } }
          work := update s.work h (some ⟨data, .status i, true⟩) }
    | _ => .blocked
  | .post h =>
    match s.work h with
    | some ⟨_, _, true⟩ => .ok
        { s with
          disk := { s.disk with used := ⟨update s.disk.used.ring (s.disk.used.idx.toNat % NUM) h,
                                         s.disk.used.idx + 1⟩ }
          work := update s.work h none
          stage := update s.stage h (some .posted) }
    | _ => .blocked

end Machine

/-- Calls at the same time are on different buffers. -/
def Allowed (s : State P B) : Event P B → Prop
  | .call _ b _ _ => ∀ q, (s.calls q).buf ≠ some b
  | _ => True

/-! ### What the functions on descriptors do -/

section Set

variable {α : Type} {c : Chain B} {i : Nat}

lemma Chain.mem_descs : i ∈ c.descs ↔ i = c.i₀ ∨ i = c.i₁ ∨ i = c.i₂ := by
  simp [Chain.descs]

lemma Chain.set_of_notMem (f : Nat → α) (x y z : α) (hno : i ∉ c.descs) : c.set f x y z i = f i := by
  rw [Chain.mem_descs, not_or, not_or] at hno
  rw [Chain.set, update_of_ne hno.2.2, update_of_ne hno.2.1, update_of_ne hno.1]

lemma Chain.set_of_mem (f : Nat → α) (x : α) (hm : i ∈ c.descs) : c.set f x x x i = x := by
  rw [Chain.mem_descs] at hm
  simp only [Chain.set, update_apply]
  grind

end Set

lemma allocDesc_spec (d : Disk B) :
    allocDesc d = none ∨ ∃ i, allocDesc d = some (i, { d with free := update d.free i false }) ∧ i < NUM ∧
      d.free i = true := by
  unfold allocDesc
  cases hf : (List.range NUM).find? d.free with
  | none => exact .inl rfl
  | some i =>
    exact .inr ⟨i, rfl, mem_range.mp (mem_of_find?_eq_some hf), find?_some hf⟩

lemma freeDesc_eq {d : Disk B} {i : Nat} (hi : i < NUM) (hf : d.free i = false) : freeDesc d i = .ok { d with
      desc := update d.desc i ⟨.null, 0, 0, 0⟩, free := update d.free i true } := by
  rw [freeDesc, if_neg (Nat.not_le.mpr hi), hf, if_neg Bool.false_ne_true]

/-- The chain `c` is written in the descriptors. -/
structure Formatted (d : Disk B) (c : Chain B) : Prop where
  lt : ∀ i ∈ c.descs, i < NUM
  ne : c.descs.Nodup
  head : d.desc c.i₀ = head c
  body : ∃ write, d.desc c.i₁ = body c write
  tail : d.desc c.i₂ = tail c
  info : (d.info c.i₀).b = some c.b

/-- `alloc3_desc` gets three free descriptors, or leaves everything but the contents of free descriptors as it
was. -/
lemma alloc3Desc_spec (d : Disk B) :
    (∃ g, alloc3Desc d = .ok (none, { d with desc := g }) ∧ ∀ i, d.free i = false → g i = d.desc i) ∨
    (∃ i₀ i₁ i₂, alloc3Desc d = .ok (some (i₀, i₁, i₂), { d with
        free := update (update (update d.free i₀ false) i₁ false) i₂ false }) ∧
      (∀ i ∈ [i₀, i₁, i₂], i < NUM ∧ d.free i = true) ∧ [i₀, i₁, i₂].Nodup) := by
  unfold alloc3Desc
  rcases allocDesc_spec d with e | ⟨i₀, e, lt0, f0⟩
  · exact .inl ⟨d.desc, by simp only [e], fun _ _ => rfl⟩
  simp only [e]
  rcases allocDesc_spec { d with free := update d.free i₀ false } with e | ⟨i₁, e, lt1, f1⟩
  · refine .inl ⟨update d.desc i₀ ⟨.null, 0, 0, 0⟩, ?_, fun i hi => ?_⟩
    · simp only [e]
      rw [freeDesc_eq lt0 (update_self ..)]
      simp only [Outcome.map, update_idem]
      have hfree : update d.free i₀ true = d.free := Function.update_eq_self_iff.mpr f0.symm
      rw [hfree]
    · exact update_of_ne (fun h => by rw [h, f0] at hi; cases hi) ..
  have n1 : i₁ ≠ i₀ := fun h => by simp [h] at f1
  simp only [e]
  rcases allocDesc_spec { d with free := update (update d.free i₀ false) i₁ false } with
    e | ⟨i₂, e, lt2, f2⟩
  · refine .inl ⟨update (update d.desc i₀ ⟨.null, 0, 0, 0⟩) i₁ ⟨.null, 0, 0, 0⟩, ?_,
      fun i hi => ?_⟩
    · simp only [e]
      rw [freeDesc_eq lt0 (by simp [n1.symm])]
      simp only
      rw [freeDesc_eq lt1 (by simp [n1])]
      simp only [Outcome.map]
      have hfree : update (update (update (update d.free i₀ false) i₁ false)
          i₀ true) i₁ true = d.free := by
        funext i
        simp only [update_apply]
        grind
      rw [hfree]
    · grind
  · simp only [e]
    refine .inr ⟨i₀, i₁, i₂, rfl, ?_, ?_⟩
    · grind
    · grind

lemma head_next (c : Chain B) : (head c).flags &&& VRING_DESC_F_NEXT ≠ 0 := by
  simp only [head]
  decide

lemma body_next (c : Chain B) (write : Bool) : (body c write).flags &&& VRING_DESC_F_NEXT ≠ 0 := by
  cases write <;> simp only [body] <;> decide

lemma tail_next (c : Chain B) : ¬ (tail c).flags &&& VRING_DESC_F_NEXT ≠ 0 := by
  simp only [tail]
  decide

/-- The descriptors of `c` given back. -/
def released (d : Disk B) (c : Chain B) : Disk B :=
  { d with
    desc := c.set d.desc ⟨.null, 0, 0, 0⟩ ⟨.null, 0, 0, 0⟩ ⟨.null, 0, 0, 0⟩
    free := c.set d.free true true true }

/-- `free_chain` frees the three descriptors of a chain, and stops. -/
lemma freeChain_eq {d : Disk B} {c : Chain B} (fuel : Nat) (lt : ∀ i ∈ c.descs, i < NUM) (ne : c.descs.Nodup)
    (hhead : d.desc c.i₀ = head c) (hbody : ∃ write, d.desc c.i₁ = body c write) (htail : d.desc c.i₂ = tail c)
    (hf : ∀ i ∈ c.descs, d.free i = false) : freeChain (fuel + 3) d c.i₀ = .ok (released d c) := by
  obtain ⟨write, hbody⟩ := hbody
  simp only [Chain.descs, nodup_cons, mem_cons, not_mem_nil, or_false, not_or] at lt ne hf
  obtain ⟨⟨n1, n2⟩, n3, -⟩ := ne
  rw [freeChain, freeDesc_eq (lt _ (.inl rfl)) (hf _ (.inl rfl))]
  simp only
  rw [hhead, if_pos (head_next c)]
  simp only [head]
  rw [freeChain, freeDesc_eq (lt _ (.inr (.inl rfl)))
    (by simp only [update_of_ne (Ne.symm n1)]; exact hf _ (.inr (.inl rfl)))]
  simp only [update_of_ne (Ne.symm n1), hbody]
  rw [if_pos (body_next c write)]
  simp only [body]
  rw [freeChain, freeDesc_eq (lt _ (.inr (.inr rfl)))
    (by simp only [update_of_ne (Ne.symm n2), update_of_ne (Ne.symm n3)]
        exact hf _ (.inr (.inr rfl)))]
  simp only [update_of_ne (Ne.symm n2), update_of_ne (Ne.symm n3), htail]
  rw [if_neg (tail_next c), released, Chain.set, Chain.set]

lemma submit_formatted (d : Disk B) (c : Chain B) (blockno : UInt32) (write : Bool) (lt : ∀ i ∈ c.descs, i < NUM)
    (ne : c.descs.Nodup) : Formatted (submit d c blockno write) c := by
  have hne := ne
  simp only [Chain.descs, nodup_cons, mem_cons, not_mem_nil, or_false, not_or] at hne
  obtain ⟨⟨n1, n2⟩, n3, -⟩ := hne
  refine ⟨lt, ne, ?_, ⟨write, ?_⟩, update_self .., ?_⟩
  · simp only [submit, Chain.set, update_of_ne n2, update_of_ne n1, update_self]
  · simp only [submit, Chain.set, update_of_ne n3, update_self]
  · simp only [submit, update_self]

/-- A chain is not changed when nothing is changed about its descriptors. -/
lemma Formatted.congr {d d' : Disk B} {c : Chain B} (hf : Formatted d c)
    (hd : ∀ i ∈ c.descs, d'.desc i = d.desc i) (hi : (d'.info c.i₀).b = (d.info c.i₀).b) : Formatted d' c where
  lt := hf.lt
  ne := hf.ne
  head := (hd _ (Chain.mem_descs.mpr (.inl rfl))).trans hf.head
  body := hf.body.imp fun _ hb => (hd _ (Chain.mem_descs.mpr (.inr (.inl rfl)))).trans hb
  tail := (hd _ (Chain.mem_descs.mpr (.inr (.inr rfl)))).trans hf.tail
  info := hi.trans hf.info

/-! ### The invariant -/

/-- Who holds which descriptor, and where each request is. -/
structure Inv (s : State P B) : Prop where
  formatted : ∀ p c, s.calls p = .waiting c → Formatted s.disk c
  apart : ∀ p q c c' i, s.calls p = .waiting c → s.calls q = .waiting c' → i ∈ c.descs → i ∈ c'.descs → p = q
  free : ∀ i, i < NUM → (s.disk.free i = false ↔ ∃ p c, s.calls p = .waiting c ∧ i ∈ c.descs)
  bufs : ∀ p q b, (s.calls p).buf = some b → (s.calls q).buf = some b → p = q
  live : ∀ p c, s.calls p = .waiting c → s.stage c.i₀ ≠ none
  heads : ∀ h, s.stage h ≠ none → ∃ p c, s.calls p = .waiting c ∧ c.i₀ = h
  owned : ∀ p c, s.calls p = .waiting c → (s.owned c.b = false ↔ s.stage c.i₀ = some .seen)
  avail : ∃ a b, Holds NUM s.disk.avail.ring s.taken s.disk.avail.idx (fun h => s.stage h = some .published) a b
  used : ∃ a b, Holds NUM s.disk.used.ring s.disk.usedIdx s.disk.used.idx (fun h => s.stage h = some .posted) a b
  working : ∀ h, s.work h ≠ none ↔ s.stage h = some .taken
  reads : ∀ p c w, s.calls p = .waiting c → s.work c.i₀ = some w →
    w.data = .data c.b ∧ w.status = .status c.i₀ ∧ (w.done = true → (s.disk.info c.i₀).status = 0)
  status : ∀ h, s.stage h = some .posted ∨ s.stage h = some .seen → (s.disk.info h).status = 0

lemma Chain.head_mem (c : Chain B) : c.i₀ ∈ c.descs := mem_cons_self

lemma Inv.start (a u : UInt16) : Inv (start a u : State P B) where
  formatted p c h := by cases h
  apart p q c c' i h := by cases h
  free i _ := by
    refine ⟨fun h => (by cases h), fun h => ?_⟩
    obtain ⟨p, c, h, -⟩ := h
    cases h
  bufs p q b h := by cases h
  live p c h := by cases h
  heads h hn := absurd rfl hn
  owned p c h := by cases h
  avail := ⟨_, _, (Holds.empty NUM _ a).congr fun x => ⟨fun h => (by cases h), False.elim⟩⟩
  used := ⟨_, _, (Holds.empty NUM _ u).congr fun x => ⟨fun h => (by cases h), False.elim⟩⟩
  working h := ⟨fun hn => absurd rfl hn, fun h => by cases h⟩
  reads p c w h := by cases h
  status h hs := by rcases hs with h | h <;> cases h

namespace Inv

variable {s s' : State P B} {h : Nat}

lemma stage_lt (hi : Inv s) (hs : s.stage h ≠ none) : h < NUM := by
  obtain ⟨p, c, hc, rfl⟩ := hi.heads h hs
  exact (hi.formatted p c hc).lt _ c.head_mem

lemma head_unique (hi : Inv s) {p q : P} {c c' : Chain B} (hp : s.calls p = .waiting c)
    (hq : s.calls q = .waiting c') (e : c.i₀ = c'.i₀) : p = q ∧ c = c' := by
  obtain rfl := hi.apart p q c c' c.i₀ hp hq c.head_mem (e ▸ c'.head_mem)
  rw [hp] at hq
  cases hq
  exact ⟨rfl, rfl⟩

section Rings

variable {ring : Nat → Nat} {lo hi : UInt16} {x : Nat} {st : Stage}

/-- The entries of the two rings are heads of requests at one stage. -/
def AtStage (s : State P B) (st : Stage) (ring : Nat → Nat) (lo hi : UInt16) : Prop :=
  ∃ a b, Holds NUM ring lo hi (fun h => s.stage h = some st) a b

lemma atStage_lt (hi : Inv s) (st : Stage) : ∀ x, s.stage x = some st → x < NUM :=
  fun x hx => hi.stage_lt (by rw [hx]; exact Option.some_ne_none _)

/-- The first entry is taken out when its request leaves the stage. -/
lemma pop (hinv : Inv s) (hh : AtStage s st ring lo hi) (hne : lo ≠ hi) :
    s.stage (ring (lo.toNat % NUM)) = some st ∧
      ∀ s' : State P B, (∀ y, s'.stage y = some st ↔ s.stage y = some st ∧ y ≠ ring (lo.toNat % NUM)) →
        AtStage s' st ring (lo + 1) hi := by
  obtain ⟨a, b, hh⟩ := hh
  have hlen := hh.length_le_size (hinv.atStage_lt st)
  have hlt : a < b := by
    have hab := mt (hh.eq_iff (Nat.lt_of_le_of_lt hlen (by decide))).mpr hne
    have := hh.le
    omega
  exact ⟨(hh.pop NUM_dvd hlt).1, fun s' hs' => ⟨_, _, (hh.pop NUM_dvd hlt).2.congr hs'⟩⟩

/-- An entry is put in when its request comes to the stage. -/
lemma push (hinv : Inv s) (hh : AtStage s st ring lo hi) (hx : x < NUM) (hno : s.stage x ≠ some st)
    (hs' : ∀ y, s'.stage y = some st ↔ s.stage y = some st ∨ y = x) :
    AtStage s' st (update ring (hi.toNat % NUM) x) lo (hi + 1) := by
  obtain ⟨a, b, hh⟩ := hh
  exact ⟨_, _, (hh.push NUM_dvd (hinv.atStage_lt st) hx hno).congr hs'⟩

lemma AtStage.congr (hh : AtStage s st ring lo hi) (hs' : ∀ y, s'.stage y = some st ↔ s.stage y = some st) :
    AtStage s' st ring lo hi := by
  obtain ⟨a, b, hh⟩ := hh
  exact ⟨a, b, hh.congr hs'⟩

end Rings

/-! ### Steps of the device -/

lemma take (hi : Inv s) (hne : s.taken ≠ s.disk.avail.idx) (hh : h = s.disk.avail.ring (s.taken.toNat % NUM)) :
    Inv { s with
      taken := s.taken + 1
      work := update s.work h (some (readChain s.disk h))
      stage := update s.stage h (some .taken) } := by
  obtain ⟨hst, havail⟩ := hi.pop hi.avail hne
  rw [← hh] at hst
  refine ⟨hi.formatted, hi.apart, hi.free, hi.bufs, fun p c hc => ?_, fun y hy => ?_, fun p c hc => ?_, havail _ ?_,
    AtStage.congr hi.used ?_, ?_, fun p c w hc hw => ?_, ?_⟩
  · have := hi.live p c hc
    grind
  · have := hi.heads y
    grind
  · have := hi.owned p c hc
    grind
  · grind
  · grind
  · have := hi.working
    grind
  · have := hi.reads p c w hc
    by_cases e : c.i₀ = h
    · -- the device reads the chain as it was written
      obtain ⟨write, hbody⟩ := (hi.formatted p c hc).body
      subst e
      simp only [update_self, Option.some.injEq] at hw
      subst hw
      simp [readChain, (hi.formatted p c hc).head, head, hbody, body, (hi.formatted p c hc).tail, tail]
    · simp only [update_of_ne e] at hw
      exact this hw
  · have := hi.status
    grind

lemma writeStatus (hi : Inv s) {data : Addr B} {i : Nat} (hw : s.work h = some ⟨data, .status i, false⟩) :
    Inv { s with
      disk := { s.disk with info := update s.disk.info i { s.disk.info i with status := 0 } }
      work := update s.work h (some ⟨data, .status i, true⟩) } := by
  have hst : s.stage h = some .taken := (hi.working h).mp (by rw [hw]; exact Option.some_ne_none _)
  obtain ⟨p, c, hc, rfl⟩ := hi.heads h (by rw [hst]; exact Option.some_ne_none _)
  obtain ⟨hdata, hstatus, -⟩ := hi.reads p c _ hc hw
  cases hstatus
  refine ⟨fun q c' hq => ?_, hi.apart, hi.free, hi.bufs, hi.live, hi.heads, hi.owned, hi.avail, hi.used, ?_,
    fun q c' w hq hw' => ?_, ?_⟩
  · obtain ⟨lt, ne, hhead, hbody, htail, hinfo⟩ := hi.formatted q c' hq
    refine ⟨lt, ne, hhead, hbody, htail, ?_⟩
    grind
  · have := hi.working
    grind
  · have := hi.reads q c' w hq
    have := hi.head_unique hc hq
    grind
  · have := hi.status
    grind

lemma post (hi : Inv s) {w : Work B} (hw : s.work h = some w) (hdone : w.done = true) : Inv { s with
      disk := { s.disk with used := ⟨update s.disk.used.ring (s.disk.used.idx.toNat % NUM) h,
                                     s.disk.used.idx + 1⟩ }
      work := update s.work h none
      stage := update s.stage h (some .posted) } := by
  have hst : s.stage h = some .taken := (hi.working h).mp (by rw [hw]; exact Option.some_ne_none _)
  have hsome : s.stage h ≠ none := by rw [hst]; exact Option.some_ne_none _
  obtain ⟨p, c, hc, rfl⟩ := hi.heads h hsome
  have hzero := (hi.reads p c w hc hw).2.2 hdone
  refine ⟨fun q c' hq => ?_, hi.apart, hi.free, hi.bufs, fun q c' hq => ?_, fun y hy => ?_, fun q c' hq => ?_,
    AtStage.congr hi.avail ?_, hi.push hi.used (hi.stage_lt hsome) (by rw [hst]; decide) ?_, ?_,
    fun q c' w hq hw' => ?_, ?_⟩
  · obtain ⟨lt, ne, hhead, hbody, htail, hinfo⟩ := hi.formatted q c' hq
    exact ⟨lt, ne, hhead, hbody, htail, hinfo⟩
  · have := hi.live q c' hq
    grind
  · have := hi.heads y
    grind
  · have := hi.owned q c' hq
    grind
  · grind
  · grind
  · have := hi.working
    grind
  · have := hi.reads q c' w hq
    grind
  · have := hi.status
    grind

/-! ### Steps of the driver -/

/-- What `virtio_disk_intr` finds: the request of a caller that waits. -/
lemma used_entry (hi : Inv s) (hne : s.disk.usedIdx ≠ s.disk.used.idx)
    (hh : h = s.disk.used.ring (s.disk.usedIdx.toNat % NUM)) :
    ∃ p c, s.calls p = .waiting c ∧ c.i₀ = h ∧ s.disk.info h = ⟨some c.b, 0⟩ ∧ s.owned c.b = true := by
  have hst := (hi.pop hi.used hne).1
  rw [← hh] at hst
  obtain ⟨p, c, hc, rfl⟩ := hi.heads h (by rw [hst]; exact Option.some_ne_none _)
  refine ⟨p, c, hc, rfl, ?_, ?_⟩
  · have hb := (hi.formatted p c hc).info
    have hz := hi.status c.i₀ (.inl hst)
    cases hinfo : s.disk.info c.i₀ with
    | mk b status =>
      rw [hinfo] at hb hz
      simp only at hb hz
      rw [hb, hz]
  · have := hi.owned p c hc
    grind

variable {c : Chain B} {p : P}

lemma intr [DecidableEq B] (hi : Inv s) (hne : s.disk.usedIdx ≠ s.disk.used.idx)
    (hc : s.calls p = .waiting c) (hh : c.i₀ = s.disk.used.ring (s.disk.usedIdx.toNat % NUM)) :
    Inv { s with
      owned := update s.owned c.b false
      disk := { s.disk with usedIdx := s.disk.usedIdx + 1 }
      stage := update s.stage c.i₀ (some .seen) } := by
  obtain ⟨hst, hused⟩ := hi.pop hi.used hne
  rw [← hh] at hst
  refine ⟨fun q c' hq => ?_, hi.apart, hi.free, hi.bufs, fun q c' hq => ?_, fun y hy => ?_, fun q c' hq => ?_,
    AtStage.congr hi.avail ?_, hused _ ?_, ?_, hi.reads, ?_⟩
  · obtain ⟨lt, ne, hhead, hbody, htail, hinfo⟩ := hi.formatted q c' hq
    exact ⟨lt, ne, hhead, hbody, htail, hinfo⟩
  · have := hi.live q c' hq
    grind
  · have := hi.heads y
    grind
  · -- a buffer has one call, and a head has one call
    by_cases e : q = p
    · subst e
      rw [hc] at hq
      cases hq
      simp
    · have hb : c'.b ≠ c.b := fun hb => e (hi.bufs q p c.b (by rw [hq, ← hb]; rfl) (by rw [hc]; rfl))
      have hhead : c'.i₀ ≠ c.i₀ := fun he => e (hi.head_unique hq hc he).1
      simp only [update_of_ne hb, update_of_ne hhead]
      exact hi.owned q c' hq
  · grind
  · grind
  · have := hi.working
    grind
  · have := hi.status
    grind

lemma free_false (hi : Inv s) (hc : s.calls p = .waiting c) {i : Nat} (hm : i ∈ c.descs) :
    s.disk.free i = false :=
  (hi.free i ((hi.formatted p c hc).lt i hm)).mpr ⟨p, c, hc, hm⟩

/-- A call that gets no descriptors leaves the requests alone. -/
lemma allocFails (hi : Inv s) {g : Nat → Desc B} (hg : ∀ i, s.disk.free i = false → g i = s.disk.desc i) :
    Inv { s with disk := { s.disk with desc := g } } := by
  refine ⟨fun p c hc => ?_, hi.apart, hi.free, hi.bufs, hi.live, hi.heads, hi.owned, hi.avail, hi.used, hi.working,
    hi.reads, hi.status⟩
  exact (hi.formatted p c hc).congr (fun i hm => hg i (hi.free_false hc hm)) rfl

variable [DecidableEq P]

lemma waiting_update {calls : P → Call B} {p q : P} {x : Call B}
    (hq : update calls p x q = .waiting c) : q = p ∧ x = .waiting c ∨ q ≠ p ∧ calls q = .waiting c := by
  by_cases e : q = p
  · rw [e, update_self] at hq
    exact .inl ⟨e, hq⟩
  · rw [update_of_ne e] at hq
    exact .inr ⟨e, hq⟩

/-- **A call that gets its descriptors** uses none that another request holds. -/
lemma allocSucceeds [DecidableEq B] (hi : Inv s) {blockno : UInt32} {write : Bool}
    (hp : s.calls p = .allocating c.b blockno write)
    (hfree : ∀ i ∈ c.descs, i < NUM ∧ s.disk.free i = true) (ne : c.descs.Nodup) :
    Inv (rwAlloc s p c.b blockno write
      (some (c.i₀, c.i₁, c.i₂), { s.disk with free := c.set s.disk.free false false false })) := by
  have hno (q : P) (c' : Chain B) (hq : s.calls q = .waiting c') : ∀ i ∈ c'.descs, i ∉ c.descs := fun i hm hm' => by
    have h1 := hi.free_false hq hm
    rw [(hfree i hm').2] at h1
    cases h1
  have hstage : s.stage c.i₀ = none := by
    by_contra hsome
    obtain ⟨q, c', hq, e⟩ := hi.heads c.i₀ hsome
    exact hno q c' hq c.i₀ (e ▸ c'.head_mem) c.head_mem
  have hhead (q : P) (c' : Chain B) (hq : s.calls q = .waiting c') : c'.i₀ ≠ c.i₀ := fun e =>
    hi.live q c' hq (by rw [e, hstage])
  have hkept (q : P) (c' : Chain B) (hq : s.calls q = .waiting c') :
      update s.calls p (.waiting c) q = .waiting c' := by
    have hqp : q ≠ p := fun e => by rw [e, hp] at hq; cases hq
    rw [update_of_ne hqp, hq]
  have hbuf (q : P) : (update s.calls p (.waiting c) q).buf = (s.calls q).buf := by
    by_cases e : q = p
    · rw [e, update_self, hp]
      rfl
    · rw [update_of_ne e]
  refine ⟨fun q c' hq => ?_, fun q r c1 c2 i h1 h2 hm1 hm2 => ?_, fun i hlt => ?_, fun q r b' h1 h2 => ?_,
    fun q c' hq => ?_, fun y hy => ?_, fun q c' hq => ?_, ?_, AtStage.congr hi.used fun y => ?_, fun y => ?_,
    fun q c' w hq hw => ?_, fun y hy => ?_⟩
  · rcases waiting_update hq with ⟨rfl, e⟩ | ⟨-, hq⟩
    · cases e
      exact submit_formatted _ c blockno write (fun i hm => (hfree i hm).1) ne
    · refine (hi.formatted q c' hq).congr (fun i hm => ?_) ?_
      · exact Chain.set_of_notMem _ _ _ _ (hno q c' hq i hm)
      · simp only [rwAlloc, submit, update_of_ne (hhead q c' hq)]
  · rcases waiting_update h1 with ⟨rfl, e⟩ | ⟨-, h1⟩ <;> rcases waiting_update h2 with ⟨rfl, e'⟩ | ⟨-, h2⟩
    · rfl
    · cases e
      exact absurd hm1 (hno r c2 h2 i hm2)
    · cases e'
      exact absurd hm2 (hno q c1 (by assumption) i hm1)
    · exact hi.apart q r c1 c2 i h1 h2 hm1 hm2
  · simp only [rwAlloc, submit]
    by_cases hm : i ∈ c.descs
    · rw [Chain.set_of_mem _ _ hm]
      exact ⟨fun _ => ⟨p, c, update_self .., hm⟩, fun _ => rfl⟩
    · rw [Chain.set_of_notMem _ _ _ _ hm, hi.free i hlt]
      constructor
      · rintro ⟨q, c', hq, hm'⟩
        exact ⟨q, c', hkept q c' hq, hm'⟩
      · rintro ⟨q, c', hq, hm'⟩
        rcases waiting_update hq with ⟨rfl, e⟩ | ⟨-, hq⟩
        · cases e
          exact absurd hm' hm
        · exact ⟨q, c', hq, hm'⟩
  · exact hi.bufs q r b' (hbuf q ▸ h1) (hbuf r ▸ h2)
  · rcases waiting_update hq with ⟨rfl, e⟩ | ⟨-, hq⟩
    · cases e
      simp [rwAlloc]
    · simp only [rwAlloc, update_of_ne (hhead q c' hq)]
      exact hi.live q c' hq
  · by_cases e : y = c.i₀
    · exact ⟨p, c, update_self .., e.symm⟩
    · simp only [rwAlloc, update_of_ne e] at hy
      obtain ⟨q, c', hq, rfl⟩ := hi.heads y hy
      exact ⟨q, c', hkept q c' hq, rfl⟩
  · rcases waiting_update hq with ⟨rfl, e⟩ | ⟨hqp, hq⟩
    · cases e
      simp [rwAlloc]
    · have hb : c'.b ≠ c.b := fun e => hqp (hi.bufs q p c.b (by rw [hq, ← e]; rfl) (by rw [hp]; rfl))
      simp only [rwAlloc, update_of_ne hb, update_of_ne (hhead q c' hq)]
      exact hi.owned q c' hq
  · refine hi.push hi.avail (hfree _ c.head_mem).1 (by rw [hstage]; exact fun h => by cases h) fun y => ?_
    simp only [rwAlloc]
    grind
  · simp only [rwAlloc]
    grind
  · have := hi.working y
    simp only [rwAlloc]
    grind
  · rcases waiting_update hq with ⟨rfl, e⟩ | ⟨-, hq⟩
    · cases e
      have hnone : s.stage c.i₀ = some .taken := (hi.working c.i₀).mp (by rw [show s.work c.i₀ = some w from hw]; simp)
      rw [hstage] at hnone
      cases hnone
    · have := hi.reads q c' w hq hw
      simpa only [rwAlloc, submit, update_of_ne (hhead q c' hq)] using this
  · have hne : y ≠ c.i₀ := fun e => by
      rw [e] at hy
      simp [rwAlloc] at hy
    simp only [rwAlloc, update_of_ne hne] at hy
    simp only [rwAlloc, submit, update_of_ne hne]
    exact hi.status y hy

/-- The state after a call has returned. -/
def finished (s : State P B) (p : P) (c : Chain B) : State P B :=
  { s with
    disk := released { s.disk with
      info := update s.disk.info c.i₀ { s.disk.info c.i₀ with b := none } } c
    calls := update s.calls p .idle
    stage := update s.stage c.i₀ none }

/-- The last section of a call frees the chain, without a panic. -/
lemma rwFinish_eq (hi : Inv s) (hp : s.calls p = .waiting c) : rwFinish s p c = .ok (finished s p c) := by
  have hf := hi.formatted p c hp
  have hfree (info : Nat → Info B) :
      freeChain (NUM + 1) { s.disk with info := info } c.i₀ = .ok (released { s.disk with info := info } c) :=
    freeChain_eq 6 hf.lt hf.ne hf.head hf.body hf.tail fun i hm => hi.free_false hp hm
  simp only [rwFinish, hfree]
  rfl

/-- **A call that returns** frees the descriptors that it alone holds. -/
lemma finish (hi : Inv s) (hp : s.calls p = .waiting c) (hown : s.owned c.b = false) :
    Inv (finished s p c) := by
  have hseen := (hi.owned p c hp).mp hown
  have hno (q : P) (c' : Chain B) (hqp : q ≠ p) (hq : s.calls q = .waiting c') : ∀ i ∈ c'.descs, i ∉ c.descs :=
    fun i hm hm' => hqp (hi.apart q p c' c i hq hp hm hm')
  have hold (q : P) (c' : Chain B) (hq : update s.calls p .idle q = .waiting c') :
      q ≠ p ∧ s.calls q = .waiting c' := by
    rcases waiting_update hq with ⟨-, e⟩ | h
    · cases e
    · exact h
  have hhead (q : P) (c' : Chain B) (hqp : q ≠ p) (hq : s.calls q = .waiting c') : c'.i₀ ≠ c.i₀ := fun e =>
    hno q c' hqp hq c'.i₀ c'.head_mem (e ▸ c.head_mem)
  have hbuf (q : P) (b : B) (hq : (update s.calls p .idle q).buf = some b) : (s.calls q).buf = some b := by
    by_cases e : q = p
    · rw [e, update_self] at hq
      cases hq
    · rwa [update_of_ne e] at hq
  refine ⟨fun q c' hq => ?_, fun q r c1 c2 i h1 h2 => ?_, fun i hlt => ?_, fun q r b h1 h2 => ?_,
    fun q c' hq => ?_, fun y hy => ?_, fun q c' hq => ?_, AtStage.congr hi.avail fun y => ?_,
    AtStage.congr hi.used fun y => ?_, fun y => ?_, fun q c' w hq hw => ?_, fun y hy => ?_⟩
  · obtain ⟨hqp, hq⟩ := hold q c' hq
    refine (hi.formatted q c' hq).congr (fun i hm => ?_) ?_
    · exact Chain.set_of_notMem _ _ _ _ (hno q c' hqp hq i hm)
    · simp only [finished, released, update_of_ne (hhead q c' hqp hq)]
  · exact hi.apart q r c1 c2 i (hold q c1 h1).2 (hold r c2 h2).2
  · simp only [finished, released]
    by_cases hm : i ∈ c.descs
    · rw [Chain.set_of_mem _ _ hm]
      refine ⟨fun h => (by cases h), fun h => ?_⟩
      obtain ⟨q, c', hq, hm'⟩ := h
      obtain ⟨hqp, hq⟩ := hold q c' hq
      exact absurd hm (hno q c' hqp hq i hm')
    · rw [Chain.set_of_notMem _ _ _ _ hm, hi.free i hlt]
      constructor
      · rintro ⟨q, c', hq, hm'⟩
        have hqp : q ≠ p := fun e => by
          rw [e, hp] at hq
          cases hq
          exact hm hm'
        exact ⟨q, c', by rw [update_of_ne hqp, hq], hm'⟩
      · rintro ⟨q, c', hq, hm'⟩
        exact ⟨q, c', (hold q c' hq).2, hm'⟩
  · exact hi.bufs q r b (hbuf q b h1) (hbuf r b h2)
  · obtain ⟨hqp, hq⟩ := hold q c' hq
    simp only [finished, update_of_ne (hhead q c' hqp hq)]
    exact hi.live q c' hq
  · have hne : y ≠ c.i₀ := fun e => hy (by rw [e]; exact update_self ..)
    simp only [finished, update_of_ne hne] at hy
    obtain ⟨q, c', hq, rfl⟩ := hi.heads y hy
    have hqp : q ≠ p := fun e => by
      rw [e, hp] at hq
      cases hq
      exact hne rfl
    exact ⟨q, c', by simp only [finished, update_of_ne hqp, hq], rfl⟩
  · obtain ⟨hqp, hq⟩ := hold q c' hq
    simp only [finished, update_of_ne (hhead q c' hqp hq)]
    exact hi.owned q c' hq
  · simp only [finished]
    grind
  · simp only [finished]
    grind
  · have := hi.working y
    simp only [finished]
    grind
  · obtain ⟨hqp, hq⟩ := hold q c' hq
    have := hi.reads q c' w hq hw
    simpa only [finished, released, update_of_ne (hhead q c' hqp hq)] using this
  · have hne : y ≠ c.i₀ := fun e => by
      rw [e] at hy
      simp [finished] at hy
    simp only [finished, update_of_ne hne] at hy
    simp only [finished, released, update_of_ne hne]
    exact hi.status y hy

lemma call (hi : Inv s) {b : B} (hp : s.calls p = .idle) (hb : ∀ q, (s.calls q).buf ≠ some b)
    (blockno : UInt32) (write : Bool) :
    Inv { s with calls := update s.calls p (.allocating b blockno write) } := by
  have hw (q : P) (c : Chain B) :
      update s.calls p (.allocating b blockno write) q = .waiting c ↔ s.calls q = .waiting c := by
    by_cases e : q = p
    · rw [e, update_self, hp]
      exact ⟨fun h => (by cases h), fun h => (by cases h)⟩
    · rw [update_of_ne e]
  refine ⟨?_, ?_, ?_, fun q r b' h1 h2 => ?_, ?_, ?_, ?_, hi.avail, hi.used, hi.working, ?_, hi.status⟩
  case refine_4 =>
    simp only at h1 h2
    by_cases e : q = p <;> by_cases e' : r = p
    · rw [e, e']
    · rw [e, update_self] at h1
      rw [update_of_ne e'] at h2
      cases h1
      exact absurd h2 (hb r)
    · rw [e', update_self] at h2
      rw [update_of_ne e] at h1
      cases h2
      exact absurd h1 (hb q)
    · rw [update_of_ne e] at h1
      rw [update_of_ne e'] at h2
      exact hi.bufs q r b' h1 h2
  all_goals simp only [hw]
  · exact hi.formatted
  · exact hi.apart
  · exact hi.free
  · exact hi.live
  · exact hi.heads
  · exact hi.owned
  · exact hi.reads

end Inv

/-! ### Runs -/

section Runs

variable [DecidableEq P] [DecidableEq B] {s s' : State P B} {e : Event P B}

/-- What the steps do in a state that satisfies the invariant. -/
inductive Does (s : State P B) : Event P B → State P B → Prop where
  | call {p b} (blockno write) (hp : s.calls p = .idle) (hb : ∀ q, (s.calls q).buf ≠ some b) :
      Does s (.call p b blockno write)
        { s with calls := update s.calls p (.allocating b blockno write) }
  | allocFails {p} {g : Nat → Desc B} (hg : ∀ i, s.disk.free i = false → g i = s.disk.desc i) :
      Does s (.alloc p) { s with disk := { s.disk with desc := g } }
  | allocSucceeds {p} {c : Chain B} {blockno write} (hp : s.calls p = .allocating c.b blockno write)
      (hfree : ∀ i ∈ c.descs, i < NUM ∧ s.disk.free i = true) (ne : c.descs.Nodup) :
      Does s (.alloc p) (rwAlloc s p c.b blockno write
        (some (c.i₀, c.i₁, c.i₂), { s.disk with free := c.set s.disk.free false false false }))
  | finish {p c} (hp : s.calls p = .waiting c) (hown : s.owned c.b = false) :
      Does s (.finish p) (Inv.finished s p c)
  | intr {p c} (hne : s.disk.usedIdx ≠ s.disk.used.idx) (hc : s.calls p = .waiting c)
      (hh : c.i₀ = s.disk.used.ring (s.disk.usedIdx.toNat % NUM)) :
      Does s .intr
        { s with
          owned := update s.owned c.b false
          disk := { s.disk with usedIdx := s.disk.usedIdx + 1 }
          stage := update s.stage c.i₀ (some .seen) }
  | take {h} (hne : s.taken ≠ s.disk.avail.idx) (hh : h = s.disk.avail.ring (s.taken.toNat % NUM)) :
      Does s .take
        { s with
          taken := s.taken + 1
          work := update s.work h (some (readChain s.disk h))
          stage := update s.stage h (some .taken) }
  | status {h data i} (hw : s.work h = some ⟨data, .status i, false⟩) :
      Does s (.status h)
        { s with
          disk := { s.disk with info := update s.disk.info i { s.disk.info i with status := 0 } }
          work := update s.work h (some ⟨data, .status i, true⟩) }
  | post {h w} (hw : s.work h = some w) (hdone : w.done = true) :
      Does s (.post h)
        { s with
          disk := { s.disk with used := ⟨update s.disk.used.ring (s.disk.used.idx.toNat % NUM) h,
                                         s.disk.used.idx + 1⟩ }
          work := update s.work h none
          stage := update s.stage h (some .posted) }

lemma Does.inv (h : Does s e s') (hi : Inv s) : Inv s' := by
  cases h with
  | call blockno write hp hb => exact hi.call hp hb blockno write
  | allocFails hg => exact hi.allocFails hg
  | allocSucceeds hp hfree ne => exact hi.allocSucceeds hp hfree ne
  | finish hp hown => exact hi.finish hp hown
  | intr hne hc hh => exact hi.intr hne hc hh
  | take hne hh => exact hi.take hne hh
  | status hw => exact hi.writeStatus hw
  | post hw hdone => exact hi.post hw hdone

/-- `virtio_disk_intr` marks the buffer of a caller that waits, and no other. -/
lemma Inv.intr_eq (hi : Inv s) (hne : s.disk.usedIdx ≠ s.disk.used.idx) :
    ∃ p c, s.calls p = .waiting c ∧ c.i₀ = s.disk.used.ring (s.disk.usedIdx.toNat % NUM) ∧
      s.disk.info c.i₀ = ⟨some c.b, 0⟩ ∧ s.owned c.b = true ∧
      step s .intr = .ok
        { s with
          owned := update s.owned c.b false
          disk := { s.disk with usedIdx := s.disk.usedIdx + 1 }
          stage := update s.stage c.i₀ (some .seen) } := by
  obtain ⟨p, c, hc, hhead, hinfo, hown⟩ := hi.used_entry hne rfl
  rw [← hhead] at hinfo
  refine ⟨p, c, hc, hhead, hinfo, hown, ?_⟩
  simp only [step]
  rw [if_neg hne, ← hhead, intrEntry, hinfo]
  rfl

/-- **Every step that is not blocked** is one of these; none stops with a panic. -/
lemma Inv.does (hi : Inv s) (hd : Allowed s e) : step s e = .blocked ∨ ∃ s', step s e = .ok s' ∧ Does s e s' := by
  cases e with
  | call p b blockno write =>
    simp only [step]
    cases hp : s.calls p with
    | idle => exact .inr ⟨_, rfl, .call blockno write hp hd⟩
    | allocating => exact .inl rfl
    | waiting => exact .inl rfl
  | alloc p =>
    simp only [step]
    cases hp : s.calls p with
    | idle => exact .inl rfl
    | waiting => exact .inl rfl
    | allocating b blockno write =>
      right
      rcases alloc3Desc_spec s.disk with ⟨g, e, hg⟩ | ⟨i₀, i₁, i₂, e, hfree, ne⟩
      · simp only [e]
        exact ⟨_, rfl, .allocFails hg⟩
      · simp only [e]
        exact ⟨_, rfl, .allocSucceeds (c := ⟨b, i₀, i₁, i₂⟩) hp hfree ne⟩
  | finish p =>
    simp only [step]
    cases hp : s.calls p with
    | idle => exact .inl rfl
    | allocating => exact .inl rfl
    | waiting c =>
      simp only
      cases hown : s.owned c.b with
      | true => exact .inl rfl
      | false =>
        rw [if_neg Bool.false_ne_true, hi.rwFinish_eq hp]
        exact .inr ⟨_, rfl, .finish hp hown⟩
  | intr =>
    by_cases hne : s.disk.usedIdx = s.disk.used.idx
    · exact .inl (by simp only [step, if_pos hne])
    · obtain ⟨p, c, hc, hhead, -, -, e⟩ := hi.intr_eq hne
      exact .inr ⟨_, e, .intr hne hc hhead⟩
  | take =>
    simp only [step]
    by_cases hne : s.taken = s.disk.avail.idx
    · exact .inl (if_pos hne)
    · rw [if_neg hne]
      exact .inr ⟨_, rfl, .take hne rfl⟩
  | status h =>
    simp only [step]
    split
    · exact .inr ⟨_, rfl, .status ‹_›⟩
    · exact .inl rfl
  | post h =>
    simp only [step]
    split
    · exact .inr ⟨_, rfl, .post ‹_› rfl⟩
    · exact .inl rfl

lemma Inv.does_of_ok (hi : Inv s) (hd : Allowed s e) (h : step s e = .ok s') : Does s e s' := by
  rcases hi.does hd with hb | ⟨s1, h1, hdo⟩
  · rw [hb] at h
    cases h
  · rw [h1] at h
    cases h
    exact hdo

lemma Inv.of_reach {a u : UInt16} (h : Reach step Allowed (Virtio.start a u) s) : Inv s :=
  h.invariant (Inv.start a u) fun hi hd hs => (hi.does_of_ok hd hs).inv hi

/-- An entry of the available ring that the device has not taken stays as it is. -/
lemma Does.avail_kept (h : Does s e s') (hi : Inv s) {k : Nat} (hk : k < (s.disk.avail.idx - s.taken).toNat) :
    s'.disk.avail.ring ((s.taken + UInt16.ofNat k).toNat % NUM) =
      s.disk.avail.ring ((s.taken + UInt16.ofNat k).toNat % NUM) := by
  cases h with
  | allocSucceeds hp hfree ne =>
    rename_i c _ _
    obtain ⟨a, b, hh⟩ := hi.avail
    have hno : s.stage c.i₀ ≠ some .published := fun hst => by
      obtain ⟨q, c', hq, e⟩ := hi.heads c.i₀ (by rw [hst]; exact Option.some_ne_none _)
      have h1 := hi.free_false hq c'.head_mem
      rw [e, (hfree _ c.head_mem).2] at h1
      cases h1
    have hlen := hh.length_lt_size (hi.atStage_lt .published) (hfree _ c.head_mem).1 hno
    exact update_of_ne (hh.slot_free NUM_dvd hlen hk) ..
  | _ => rfl

/-- A descriptor is freed by the call that holds it, after its request has been completed and seen. -/
lemma Does.freed (h : Does s e s') (hi : Inv s) {i : Nat} (h0 : s.disk.free i = false)
    (h1 : s'.disk.free i = true) :
    ∃ p c, e = .finish p ∧ s.calls p = .waiting c ∧ i ∈ c.descs ∧ s.owned c.b = false ∧
      s.stage c.i₀ = some .seen ∧ s.work c.i₀ = none ∧ (s.disk.info c.i₀).status = 0 := by
  cases h with
  | finish hp hown =>
    rename_i p c
    have hseen := (hi.owned p c hp).mp hown
    have hwork : s.work c.i₀ = none := by
      by_contra hw
      have := (hi.working c.i₀).mp hw
      rw [hseen] at this
      cases this
    refine ⟨p, c, rfl, hp, ?_, hown, hseen, hwork, hi.status c.i₀ (.inr hseen)⟩
    by_contra hm
    simp only [Inv.finished, released, Chain.set_of_notMem _ _ _ _ hm, h0] at h1
    cases h1
  | allocSucceeds hp hfree ne =>
    rename_i c _ _
    simp only [rwAlloc, submit] at h1
    by_cases hm : i ∈ c.descs
    · have := Chain.set_of_mem s.disk.free false hm
      rw [show c.set s.disk.free false false false i = true from h1] at this
      cases this
    · have := Chain.set_of_notMem s.disk.free false false false hm
      rw [show c.set s.disk.free false false false i = true from h1, h0] at this
      cases this
  | _ => rw [h0] at h1; cases h1

/-- **The descriptors are safe.**  In every run of any number of calls on different buffers, with the device and the
interrupt handler, from any values of the ring counters: each descriptor is free or in the chain of exactly one
request, of three different descriptors; when `alloc3_desc` fails it leaves the free descriptors as they were;
chains that the device has not taken stay in the ring; `virtio_disk_intr` finds the buffer of a caller that waits and
marks that buffer only; chains are freed after completion only, and nothing stops with a panic. -/
theorem descriptors_safe {a u : UInt16} (h : Reach step Allowed (start a u) s) : (∀ i, i < NUM →
      (s.disk.free i = true ∧ ∀ p c, s.calls p = .waiting c → i ∉ c.descs) ∨
      (s.disk.free i = false ∧ ∃! p, ∃ c, s.calls p = .waiting c ∧ i ∈ c.descs)) ∧
    (∀ p c, s.calls p = .waiting c → c.descs.Nodup ∧ ∀ i ∈ c.descs, i < NUM) ∧
    (∀ d, alloc3Desc s.disk = .ok (none, d) → d.free = s.disk.free) ∧
    (∀ e s', Allowed s e → step s e = .ok s' → ∀ k, k < (s.disk.avail.idx - s.taken).toNat →
      s'.disk.avail.ring ((s.taken + UInt16.ofNat k).toNat % NUM) =
        s.disk.avail.ring ((s.taken + UInt16.ofNat k).toNat % NUM)) ∧
    (s.disk.usedIdx ≠ s.disk.used.idx →
      ∃ p c, s.calls p = .waiting c ∧ c.i₀ = s.disk.used.ring (s.disk.usedIdx.toNat % NUM) ∧
        s.disk.info c.i₀ = ⟨some c.b, 0⟩ ∧ s.owned c.b = true ∧
        step s .intr = .ok
          { s with
            owned := Function.update s.owned c.b false
            disk := { s.disk with usedIdx := s.disk.usedIdx + 1 }
            stage := Function.update s.stage c.i₀ (some .seen) }) ∧
    (∀ p c w, s.calls p = .waiting c → s.work c.i₀ = some w → w.data = .data c.b ∧ w.status = .status c.i₀) ∧
    (∀ e s' i, Allowed s e → step s e = .ok s' → s.disk.free i = false → s'.disk.free i = true →
      ∃ p c, e = .finish p ∧ s.calls p = .waiting c ∧ i ∈ c.descs ∧ s.owned c.b = false ∧
        s.stage c.i₀ = some .seen ∧ s.work c.i₀ = none ∧ (s.disk.info c.i₀).status = 0) ∧
    (∀ e msg, Allowed s e → step s e ≠ .panic msg) := by
  have hi := Inv.of_reach h
  refine ⟨fun i hlt => ?_, fun p c hc => ⟨(hi.formatted p c hc).ne, (hi.formatted p c hc).lt⟩, fun d hd => ?_,
    fun e s' hd hs k hk => (hi.does_of_ok hd hs).avail_kept hi hk, hi.intr_eq,
    fun p c w hc hw => ⟨(hi.reads p c w hc hw).1, (hi.reads p c w hc hw).2.1⟩,
    fun e s' i hd hs h₀ h₁ => (hi.does_of_ok hd hs).freed hi h₀ h₁, fun e msg hd hs => ?_⟩
  · cases hf : s.disk.free i with
    | true =>
      refine .inl ⟨rfl, fun p c hc hm => ?_⟩
      rw [hi.free_false hc hm] at hf
      cases hf
    | false =>
      obtain ⟨p, c, hc, hm⟩ := (hi.free i hlt).mp hf
      refine .inr ⟨rfl, p, ⟨c, hc, hm⟩, fun q hq => ?_⟩
      obtain ⟨c', hq, hm'⟩ := hq
      exact hi.apart q p c' c i hq hc hm' hm
  · rcases alloc3Desc_spec s.disk with ⟨g, e, -⟩ | ⟨i₀, i₁, i₂, e, -⟩
    · rw [e] at hd
      cases hd
      rfl
    · rw [e] at hd
      cases hd
  · rcases hi.does hd with hb | ⟨s₁, h₁, -⟩
    · rw [hb] at hs
      cases hs
    · rw [h₁] at hs
      cases hs

end Runs

instance (s : State Bool B) [DecidableEq B] (e : Event Bool B) : Decidable (Allowed s e) :=
  match e with
  | .call _ b _ _ => inferInstanceAs (Decidable (∀ q, (s.calls q).buf ≠ some b))
  | .alloc _ | .finish _ | .intr | .take | .status _ | .post _ => inferInstanceAs (Decidable True)

/-- Two calls, of which the device completes the second first. -/
def sampleRun : List (Event Bool Nat) :=
  [.call false 10 3 false, .alloc false, .call true 11 4 true, .alloc true, .take, .take, .status 3, .post 3]

/-- The counters have wrapped around, and the interrupt handler finds the second call's buffer. -/
theorem descriptors_safe_sample : ∃ s : State Bool Nat, Reach step Allowed (start 65535 65535) s ∧
    s.taken = 1 ∧ s.disk.used.idx = 0 ∧ ∃ p c, s.calls p = .waiting c ∧ c.i₀ = 3 ∧ c.b = 11 ∧ s.owned 11 = true := by
  obtain ⟨s, hs, ht⟩ := Reach.of_runTest (show runTest step Allowed (start 65535 65535) sampleRun (fun s =>
    s.taken == 1 && s.disk.used.idx == 0 && s.disk.usedIdx == 65535 && s.disk.used.ring 7 == 3 &&
      (s.disk.info 3).b == some 11) = true by decide +kernel)
  simp only [Bool.and_eq_true, beq_iff_eq] at ht
  obtain ⟨⟨⟨⟨htaken, hidx⟩, huidx⟩, hring⟩, hinfo⟩ := ht
  obtain ⟨p, c, hc, hhead, hb, hown, -⟩ := (descriptors_safe hs).2.2.2.2.1 (by rw [huidx, hidx]; decide)
  have h3 : c.i₀ = 3 := by rw [hhead, huidx]; exact hring
  have hbuf : c.b = 11 := by
    rw [h3] at hb
    rw [hb] at hinfo
    exact Option.some.inj hinfo
  exact ⟨s, hs, htaken, hidx, p, c, hc, h3, hbuf, hbuf ▸ hown⟩

end FypOs.Dev.Virtio
