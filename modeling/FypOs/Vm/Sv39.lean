import FypOs.Vm.Copy

/-!
# Vm — the three-level page table in memory

`walk`, `mappages` and `uvmunmap` of `vm.c` on the words of physical memory: a page table is a root page of 512 entries,
an entry that is valid leads one level down, and an entry of the lowest level maps a page.

* `mapping_changes_range`: what `mappages` changes, and that `uvmunmap` takes it back.
-/

namespace FypOs.Vm.Sv39

open Lib Prog Function UInt64 Prog

/-! ### The functions -/

/-- Physical memory in words of eight bytes, and what `kalloc` will return; `kend` is the kernel's `end`. -/
structure Ram where
  word : Nat → UInt64
  supply : List UInt64
  kend : UInt64

def PTE_V : UInt64 := 1

def MAXVA : UInt64 := (1 : UInt64) <<< 38

def PHYSTOP : UInt64 := 0x88000000

def PA2PTE (pa : UInt64) : UInt64 := (pa >>> 12) <<< 10

def PTE2PA (pte : UInt64) : UInt64 := (pte >>> 10) <<< 12

def PTE_FLAGS (pte : UInt64) : UInt64 := pte &&& 0x3FF

/-- The index of an address at a level. -/
def PX (level : Nat) (va : UInt64) : UInt64 := (va >>> ofNat (12 + 9 * level)) &&& 0x1FF

def load (a : UInt64) : Prog Ram UInt64 := reads fun m => m.word a.toNat

def store (a e : UInt64) : Prog Ram Unit :=
  modify fun m => { m with word := update m.word a.toNat e }

/-- The words of a page set to one value. -/
def fill (w : Nat → UInt64) (p : Nat) (c : UInt64) : Nat → UInt64 :=
  fun a => if p ≤ a ∧ a < p + 4096 then c else w a

def memset (p c : UInt64) : Prog Ram Unit := modify fun m => { m with word := fill m.word p.toNat c }

def kalloc : Prog Ram UInt64 := fun m =>
  match m.supply with
  | [] => .ok (0, m)
  | n :: ns => .ok (n, { m with supply := ns })

def kfree (pa : UInt64) : Prog Ram Unit := do
  let e ← reads Ram.kend
  if pa % 4096 ≠ 0 ∨ pa < e ∨ PHYSTOP ≤ pa then Prog.panic "kfree"
  else do
    memset pa 0x0101010101010101
    modify fun m => { m with supply := pa :: m.supply }

/-- A step of `walk` from a page to the next level, or the return of 0. -/
def walkStep (pagetable va : UInt64) (level : Nat) (alloc : Bool) : Prog Ram (Option UInt64) := do
  let pte := pagetable + 8 * PX level va
  let e ← load pte
  if e &&& PTE_V ≠ 0 then pure (some (PTE2PA e))
  else if alloc = false then pure none
  else do
    let n ← kalloc
    if n = 0 then pure none
    else do
      memset n 0
      store pte (PA2PTE n ||| PTE_V)
      pure (some n)

/-- `walk`; the address of the entry at the lowest level. -/
def walk (pagetable va : UInt64) (alloc : Bool) : Prog Ram (Option UInt64) :=
  if MAXVA ≤ va then Prog.panic "walk"
  else do
    match ← walkStep pagetable va 2 alloc with
    | none => pure none
    | some mid =>
      match ← walkStep mid va 1 alloc with
      | none => pure none
      | some low => pure (some (low + 8 * PX 0 va))

/-- The loop of `mappages`, from `a` on; `mappages` lets it go round often enough. -/
def mapLoop (pagetable last perm : UInt64) : Nat → UInt64 → UInt64 → Prog Ram Int
  | 0, _, _ => block
  | n + 1, a, pa => do
    match ← walk pagetable a true with
    | none => pure (-1)
    | some pte => do
      let e ← load pte
      if e &&& PTE_V ≠ 0 then Prog.panic "mappages: remap"
      else do
        store pte (PA2PTE pa ||| perm ||| PTE_V)
        if a = last then pure 0 else mapLoop pagetable last perm n (a + 4096) (pa + 4096)

def mappages (pagetable va size pa perm : UInt64) : Prog Ram Int :=
  if size = 0 then Prog.panic "mappages: size"
  else
    let a := pgrounddown va
    let last := pgrounddown (va + size - 1)
    mapLoop pagetable last perm ((last - a).toNat / 4096 + 1) a pa

/-- `if(do_free) kfree(pa)` -/
def freeFrame (doFree : Bool) (pa : UInt64) : Prog Ram Unit := if doFree then kfree pa else pure ()

/-- The loop of `uvmunmap`; a page of the range is passed in each round. -/
def unmapLoop (pagetable stop : UInt64) (doFree : Bool) : Nat → UInt64 → Prog Ram Unit
  | 0, _ => pure ()
  | n + 1, a =>
    if a < stop then do
      match ← walk pagetable a false with
      | none => Prog.panic "uvmunmap: walk"
      | some pte => do
        let e ← load pte
        if e &&& PTE_V = 0 then Prog.panic "uvmunmap: not mapped"
        else if PTE_FLAGS e = PTE_V then Prog.panic "uvmunmap: not a leaf"
        else do
          freeFrame doFree (PTE2PA e)
          store pte 0
          unmapLoop pagetable stop doFree n (a + 4096)
    else pure ()

def uvmunmap (pagetable va npages : UInt64) (doFree : Bool) : Prog Ram Unit :=
  if va % 4096 ≠ 0 then Prog.panic "uvmunmap: not aligned"
  else unmapLoop pagetable (va + npages * 4096) doFree npages.toNat va

/-! ### Entries -/

lemma toNat_PTE2PA (e : UInt64) : (PTE2PA e).toNat = e.toNat / 1024 * 4096 % 2 ^ 64 := by
  simp [PTE2PA, UInt64.toNat_shiftLeft, UInt64.toNat_shiftRight, Nat.shiftRight_eq_div_pow, Nat.shiftLeft_eq]

lemma toNat_PA2PTE (pa : UInt64) : (PA2PTE pa).toNat = pa.toNat / 4096 * 1024 := by
  have := pa.toNat_lt
  simp [PA2PTE, UInt64.toNat_shiftLeft, UInt64.toNat_shiftRight, Nat.shiftRight_eq_div_pow, Nat.shiftLeft_eq]
  omega

variable {q : Option (Fin 512)} {doFree : Bool} {a : UInt64} {level : Nat} {va : UInt64}
  {f : UInt64} {v p : Nat}

/-- An entry is its page and its flags side by side. -/
lemma toNat_entry (pa : UInt64) (hf : f.toNat < 1024) :
    (PA2PTE pa ||| f).toNat = pa.toNat / 4096 * 1024 + f.toNat := by
  rw [UInt64.toNat_or, toNat_PA2PTE, Nat.mul_comm]
  exact (Nat.two_pow_add_eq_or_of_lt (i := 10) hf _).symm

lemma PTE2PA_entry {pa f : UInt64} (hpa : pa.toNat % 4096 = 0) (hf : f.toNat < 1024) :
    PTE2PA (PA2PTE pa ||| f) = pa := by
  have := pa.toNat_lt
  refine UInt64.toNat_inj.mp ?_
  rw [toNat_PTE2PA, toNat_entry pa hf]
  omega

lemma PTE_FLAGS_entry {pa f : UInt64} (hf : f.toNat < 1024) : PTE_FLAGS (PA2PTE pa ||| f) = f := by
  refine UInt64.toNat_inj.mp ?_
  rw [PTE_FLAGS, UInt64.toNat_and, toNat_entry pa hf, show (0x3FF : UInt64).toNat = 2 ^ 10 - 1 from rfl,
    Nat.and_two_pow_sub_one_eq_mod]
  omega

lemma or_valid (e : UInt64) : (e ||| PTE_V) &&& PTE_V ≠ 0 := by
  intro h
  have hn := congrArg (fun x => Nat.testBit (UInt64.toNat x) 0) h
  simp [PTE_V, UInt64.toNat_and, UInt64.toNat_or] at hn

lemma or_valid_lt (hf : f.toNat < 1024) : (f ||| PTE_V).toNat < 1024 := by
  rw [UInt64.toNat_or]
  exact Nat.or_lt_two_pow (n := 10) hf (by decide)

lemma or_valid_leaf (hf : f &&& 0xE ≠ 0) : f ||| PTE_V ≠ PTE_V := by
  intro h
  refine hf (UInt64.toNat_inj.mp ?_)
  have hn := congrArg (fun x => UInt64.toNat (x &&& 0xE)) h
  simpa [PTE_V, UInt64.toNat_and, UInt64.toNat_or, Nat.and_or_distrib_right] using hn

/-! ### The tree -/

/-- The index of a page at a level. -/
def ix (level v : Nat) : Fin 512 := Fin.ofNat 512 (v / 512 ^ level)

lemma ix_val (level v : Nat) : (ix level v).val = v / 512 ^ level % 512 := rfl

lemma ix_inj {v u : Nat} (hv : v < 512 ^ 3) (hu : u < 512 ^ 3) (h₂ : ix 2 v = ix 2 u) (h₁ : ix 1 v = ix 1 u)
    (h₀ : ix 0 v = ix 0 u) : v = u := by
  have h2 := congrArg Fin.val h₂
  have h1 := congrArg Fin.val h₁
  have h0 := congrArg Fin.val h₀
  simp only [ix_val] at h2 h1 h0
  omega

lemma toNat_PX (hl : level ≤ 2) (va : UInt64) : (PX level va).toNat = (ix level (va.toNat / 4096)).val := by
  have hs : (UInt64.ofNat (12 + 9 * level)).toNat % 64 = 12 + 9 * level := by
    rw [toNat_ofNat']
    omega
  rw [PX, UInt64.toNat_and, UInt64.toNat_shiftRight, hs, show (0x1FF : UInt64).toNat = 2 ^ 9 - 1 from rfl,
    Nat.and_two_pow_sub_one_eq_mod, Nat.shiftRight_eq_div_pow, ix_val, Nat.div_div_eq_div_mul,
    Nat.pow_add, Nat.pow_mul]

/-- What can be the address of a page-table page. -/
def Page (p : Nat) : Prop := p % 4096 = 0 ∧ 0 < p ∧ p < 2 ^ 56

lemma toNat_slot {p : UInt64} (hp : Page p.toNat) (hl : level ≤ 2) (va : UInt64) :
    (p + 8 * PX level va).toNat = p.toNat + 8 * (ix level (va.toNat / 4096)).val := by
  have h8 : (8 : UInt64).toNat = 8 := rfl
  have hlt := (ix level (va.toNat / 4096)).isLt
  have := hp.2.2
  rw [UInt64.toNat_add, UInt64.toNat_mul, toNat_PX hl, h8]
  omega

lemma slot_inj {p q : Nat} (hp : p % 4096 = 0) (hq : q % 4096 = 0) {i j : Fin 512}
    (h : p + 8 * i.val = q + 8 * j.val) : p = q ∧ i = j := by
  have hi := i.isLt
  have hj := j.isLt
  exact ⟨by omega, Fin.ext (by omega)⟩

/-- Where in the tree a page of entries stands. -/
inductive Place where
  | root
  | mid (i : Fin 512)
  | low (i j : Fin 512)
  deriving DecidableEq

/-- The page an entry of page `p` leads to. -/
def sub (w : Nat → UInt64) (p : Nat) (i : Fin 512) : Option Nat :=
  if w (p + 8 * i.val) &&& PTE_V = 0 then none else some (PTE2PA (w (p + 8 * i.val))).toNat

def base (w : Nat → UInt64) (root : Nat) : Place → Option Nat
  | .root => some root
  | .mid i => sub w root i
  | .low i j => (sub w root i).bind fun p => sub w p j

/-- A place above the lowest level: the root, or a place below it. -/
def inner : Option (Fin 512) → Place
  | none => .root
  | some i => .mid i

def child : Option (Fin 512) → Fin 512 → Place
  | none, j => .mid j
  | some i, j => .low i j

/-- The place of the page with the entry that maps page `v`. -/
def lowOf (v : Nat) : Place := .low (ix 2 v) (ix 1 v)

/-- **A tree of distinct page-table pages**. -/
structure Tree (w : Nat → UInt64) (root : Nat) : Prop where
  page : ∀ q p, base w root q = some p → Page p
  apart : ∀ q q' p, base w root q = some p → base w root q' = some p → q = q'

/-- The entry that maps page `v`, if there is a page with it. -/
def entry (w : Nat → UInt64) (root v : Nat) : Option UInt64 :=
  (base w root (lowOf v)).map fun p => w (p + 8 * (ix 0 v).val)

/-- What page `v` is translated to: a physical address and flags. -/
def translate (w : Nat → UInt64) (root v : Nat) : Option (UInt64 × UInt64) :=
  (entry w root v).bind fun e => if e &&& PTE_V = 0 then none else some (PTE2PA e, PTE_FLAGS e)

lemma base_child {w : Nat → UInt64} {root p : Nat} (h : base w root (inner q) = some p)
    (j : Fin 512) : base w root (child q j) = sub w p j := by
  cases q with
  | none =>
    obtain rfl : root = p := Option.some.inj h
    rfl
  | some i =>
    show (sub w root i).bind _ = _
    rw [show sub w root i = some p from h]
    rfl

lemma base_parent {w : Nat → UInt64} {root p : Nat} {j : Fin 512}
    (h : base w root (child q j) = some p) : ∃ p', base w root (inner q) = some p' := by
  cases q with
  | none => exact ⟨root, rfl⟩
  | some i =>
    obtain ⟨p', hp', -⟩ := Option.bind_eq_some_iff.mp h
    exact ⟨p', hp'⟩

lemma sub_congr {w w' : Nat → UInt64} {p : Nat} {i : Fin 512} (h : w' (p + 8 * i.val) = w (p + 8 * i.val)) :
    sub w' p i = sub w p i := by
  rw [sub, sub, h]

/-- The tree is read off the two upper levels. -/
lemma base_congr {w w' : Nat → UInt64} {root : Nat}
    (h : ∀ q p (j : Fin 512), base w root (inner q) = some p → w' (p + 8 * j.val) = w (p + 8 * j.val)) :
    base w' root = base w root := by
  have hmid : ∀ i, sub w' root i = sub w root i := fun i => sub_congr (h none root i rfl)
  funext q
  cases q with
  | root => rfl
  | mid i => exact hmid i
  | low i j =>
    show (sub w' root i).bind _ = (sub w root i).bind _
    rw [hmid i]
    cases hp : sub w root i with
    | none => rfl
    | some p => exact sub_congr (h (some i) p j hp)

lemma inner_ne_low (q : Option (Fin 512)) (v : Nat) : inner q ≠ lowOf v := by
  cases q <;> simp [inner, lowOf]

variable {w : Nat → UInt64} {root : Nat} {w' : Nat → UInt64} {m1 m2 : Ram} {n : Nat}

section

variable (h : Tree w root)

include h

lemma Tree.frame (hw : ∀ q p (j : Fin 512), base w root q = some p → w' (p + 8 * j.val) = w (p + 8 * j.val)) :
    Tree w' root ∧ base w' root = base w root ∧ ∀ v, entry w' root v = entry w root v := by
  have hb : base w' root = base w root := base_congr fun q p j hp => hw _ p j hp
  refine ⟨⟨by rw [hb]; exact h.page, by rw [hb]; exact h.apart⟩, hb, fun v => ?_⟩
  rw [entry, entry, hb]
  cases hp : base w root (lowOf v) with
  | none => rfl
  | some p => exact congrArg some (hw _ p _ hp)

/-- A page that is not one of the table's can be filled with anything. -/
lemma Tree.fill (hn : n % 4096 = 0) (hfresh : ∀ q, base w root q ≠ some n) (c : UInt64) :
    Tree (fill w n c) root ∧ base (fill w n c) root = base w root ∧
      ∀ v, entry (fill w n c) root v = entry w root v := by
  refine h.frame fun q p j hp => ?_
  have hne : p ≠ n := fun e => hfresh q (e ▸ hp)
  have hpg := (h.page q p hp).1
  have hj := j.isLt
  exact if_neg (by omega)

/-- **An entry of the lowest level is written**: no page moves, and one entry is another. -/
lemma Tree.leaf (hv : v < 512 ^ 3) (hp : base w root (lowOf v) = some p) (e : UInt64) :
    Tree (update w (p + 8 * (ix 0 v).val) e) root ∧ base (update w (p + 8 * (ix 0 v).val) e) root = base w root ∧
      ∀ u < 512 ^ 3, entry (update w (p + 8 * (ix 0 v).val) e) root u =
        if u = v then some e else entry w root u := by
  have hpg := (h.page _ p hp).1
  have hb : base (update w (p + 8 * (ix 0 v).val) e) root = base w root := by
    refine base_congr fun q p' j hp' => update_of_ne (fun heq => ?_) _ _
    obtain ⟨rfl, -⟩ := slot_inj (h.page _ _ hp').1 hpg heq
    exact inner_ne_low q v (h.apart _ _ _ hp' hp)
  refine ⟨⟨by rw [hb]; exact h.page, by rw [hb]; exact h.apart⟩, hb, fun u hu => ?_⟩
  rw [entry, hb]
  by_cases huv : u = v
  · subst huv
    rw [hp, if_pos rfl]
    exact congrArg some (update_self ..)
  · rw [if_neg huv, entry]
    cases hpu : base w root (lowOf u) with
    | none => rfl
    | some p' =>
      refine congrArg some (update_of_ne (fun heq => ?_) _ _)
      obtain ⟨rfl, h0⟩ := slot_inj (h.page _ _ hpu).1 hpg heq
      -- one page at one place: the three indices agree
      have hpl := h.apart _ _ _ hpu hp
      simp only [lowOf, Place.low.injEq] at hpl
      exact huv (ix_inj hu hv hpl.1 hpl.2 h0)

/-- A place without a page gets a page that stood nowhere. -/
lemma Tree.place {c : Place} (hn : Page n)
    (hfresh : ∀ q, base w root q ≠ some n) (hb : base w' root = update (base w root) c (some n)) :
    Tree w' root := by
  have hcases : ∀ x p, base w' root x = some p → x = c ∧ p = n ∨ base w root x = some p := by
    intro x p hx
    rw [hb] at hx
    by_cases hxc : x = c
    · subst hxc
      rw [update_self] at hx
      exact .inl ⟨rfl, (Option.some.inj hx).symm⟩
    · rw [update_of_ne hxc] at hx
      exact .inr hx
  refine ⟨fun x p hx => ?_, fun x y p hx hy => ?_⟩
  · obtain ⟨-, rfl⟩ | hx := hcases x p hx
    · exact hn
    · exact h.page x p hx
  · obtain ⟨rfl, rfl⟩ | hx := hcases x p hx
    · obtain ⟨rfl, -⟩ | hy := hcases y p hy
      · rfl
      · exact absurd hy (hfresh y)
    · obtain ⟨-, rfl⟩ | hy := hcases y p hy
      · exact absurd hx (hfresh x)
      · exact h.apart x y p hx hy

end

/-- The memory when `walk` has put the page `n` behind the entry `j` of the page `p`. -/
def grown (w : Nat → UInt64) (p : Nat) (j : Fin 512) (n : UInt64) : Nat → UInt64 :=
  update (fill w n.toNat 0) (p + 8 * j.val) (PA2PTE n ||| PTE_V)

section Grow

variable {q : Option (Fin 512)} {p : Nat} {j : Fin 512} {n : UInt64}

lemma grown_new (hp : p % 4096 = 0) (hn : n.toNat % 4096 = 0) (hpn : p ≠ n.toNat) (i : Fin 512) :
    grown w p j n (n.toNat + 8 * i.val) = 0 := by
  have hi := i.isLt
  refine (update_of_ne (fun e => hpn ?_) _ _).trans (if_pos ⟨by omega, by omega⟩)
  exact (slot_inj hn hp e).1.symm

lemma grown_old (hp : p % 4096 = 0) (hn : n.toNat % 4096 = 0) {p' : Nat} (hp' : p' % 4096 = 0) (hne : p' ≠ n.toNat)
    {i : Fin 512} (hij : p' = p → i ≠ j) : grown w p j n (p' + 8 * i.val) = w (p' + 8 * i.val) := by
  have hi := i.isLt
  refine (update_of_ne (fun e => ?_) _ _).trans (if_neg (by omega))
  obtain ⟨rfl, rfl⟩ := slot_inj hp' hp e
  exact hij rfl rfl

lemma sub_grown_self (hn : n.toNat % 4096 = 0) : sub (grown w p j n) p j = some n.toNat := by
  have hself : grown w p j n (p + 8 * j.val) = PA2PTE n ||| PTE_V := update_self ..
  rw [sub, hself, if_neg (or_valid _), PTE2PA_entry hn (by decide)]

variable (h : Tree w root) (hp : base w root (inner q) = some p) (hnone : base w root (child q j) = none)
  (hn : Page n.toNat) (hfresh : ∀ q, base w root q ≠ some n.toNat)

include h hp hnone hn hfresh

/-- The new page stands at its place, and nothing else has changed. -/
lemma Tree.base_grown : base (grown w p j n) root = update (base w root) (child q j) (some n.toNat) := by
  have hpg := (h.page _ p hp).1
  have hself : sub (grown w p j n) p j = some n.toNat := sub_grown_self hn.1
  have hnew : ∀ i, sub (grown w p j n) n.toNat i = none := fun i => by
    rw [sub, grown_new hpg hn.1 (fun e => hfresh _ (e ▸ hp)), if_pos (by decide)]
  have hold : ∀ q' p' i, base w root q' = some p' → (p' = p → i ≠ j) → sub (grown w p j n) p' i = sub w p' i :=
    fun q' p' i hp' hij => sub_congr (grown_old hpg hn.1 (h.page _ _ hp').1 (fun e => hfresh _ (e ▸ hp')) hij)
  funext x
  cases q with
  | none =>
    obtain rfl : root = p := Option.some.inj hp
    cases x with
    | root => simp [child, base]
    | mid i =>
      by_cases hij : i = j
      · subst hij
        simpa [child, base] using hself
      · simpa [child, base, hij] using hold .root root i rfl fun _ => hij
    | low i k =>
      rw [update_of_ne (by simp [child])]
      show (sub (grown w root j n) root i).bind _ = (sub w root i).bind _
      by_cases hij : i = j
      · subst hij
        rw [hself, show sub w root i = none from hnone]
        exact hnew k
      · rw [hold .root root i rfl fun _ => hij]
        cases hpi : sub w root i with
        | none => rfl
        | some p' =>
          refine hold (.mid i) p' k hpi fun e => ?_
          cases h.apart (.mid i) .root p' hpi (e ▸ rfl)
  | some i₀ =>
    have hroot : ∀ i, sub (grown w p j n) root i = sub w root i := fun i =>
      hold .root root i rfl fun e => by cases h.apart .root (.mid i₀) root rfl (e ▸ hp)
    cases x with
    | root => simp [child, base]
    | mid i => simpa [child, base] using hroot i
    | low i k =>
      have hlow : base (grown w p j n) root (.low i k) =
          (sub w root i).bind fun p' => sub (grown w p j n) p' k := by
        rw [← hroot i]
        rfl
      rw [hlow]
      by_cases hx : i = i₀ ∧ k = j
      · obtain ⟨rfl, rfl⟩ := hx
        rw [show sub w root i = some p from hp]
        simpa [child] using hself
      · rw [update_of_ne (by simpa [child] using hx)]
        cases hpi : sub w root i with
        | none => simp [base, hpi]
        | some p' =>
          rw [show base w root (.low i k) = sub w p' k from base_child (q := some i) hpi k]
          refine hold (.mid i) p' k hpi fun e hkj => hx ⟨?_, hkj⟩
          cases h.apart (.mid i) (.mid i₀) p' hpi (e ▸ hp)
          rfl

/-- **A new page of entries** maps nothing, and moves no other page. -/
lemma Tree.grow :
    Tree (grown w p j n) root ∧ ∀ v, translate (grown w p j n) root v = translate w root v := by
  have hb := h.base_grown hp hnone hn hfresh
  have hpg := (h.page _ p hp).1
  refine ⟨h.place hn hfresh hb, fun v => ?_⟩
  rw [translate, translate, entry, entry, hb]
  by_cases hvc : lowOf v = child q j
  · rw [hvc, update_self, hnone, Option.map_some, grown_new hpg hn.1 (fun e => hfresh _ (e ▸ hp))]
    rfl
  · rw [update_of_ne hvc]
    cases hpv : base w root (lowOf v) with
    | none => rfl
    | some p' =>
      have hne : p' ≠ p := fun e => inner_ne_low q v (h.apart _ _ _ hp (e ▸ hpv))
      rw [Option.map_some, Option.map_some,
        grown_old hpg hn.1 (h.page _ _ hpv).1 (fun e => hfresh _ (e ▸ hpv)) fun e => absurd e hne]

end Grow

/-! ### The walk -/

/-- `kalloc` returns 0, or a page that is not one of the table's and that it has not returned before. -/
structure Supplied (m : Ram) (root : Nat) : Prop where
  fresh : ∀ n ∈ m.supply, n ≠ 0 → Page n.toNat ∧ ∀ q, base m.word root q ≠ some n.toNat
  distinct : m.supply.Pairwise fun a b => a ≠ 0 → a ≠ b

/-- A table that is a tree, and the memory it can grow into. -/
structure Ready (m : Ram) (root : Nat) : Prop where
  tree : Tree m.word root
  supplied : Supplied m root

/-- The table may have grown. -/
structure Grown (root : Nat) (m m' : Ram) : Prop where
  ready : Ready m' root
  same : ∀ v, translate m'.word root v = translate m.word root v

variable {m m' : Ram} {r : UInt64} {E : Stop → Prop}

lemma Grown.trans {m'' : Ram} (h : Grown root m m') (h' : Grown root m' m'') : Grown root m m'' :=
  ⟨h'.ready, fun v => (h'.same v).trans (h.same v)⟩

/-- A step down with `alloc`: the page below is there, or `kalloc` had none. -/
lemma walkStep_grows (h : Ready m root) {p va : UInt64} (hl : level ≤ 2)
    (hp : base m.word root (inner q) = some p.toNat) :
    wp (walkStep p va level true) (fun r m' => Grown root m m' ∧
      ∀ p', r = some p' → base m'.word root (child q (ix level (va.toNat / 4096))) = some p'.toNat) E m := by
  have hpg := h.tree.page _ _ hp
  have haddr := toNat_slot hpg hl va
  have hsub := base_child hp (ix level (va.toNat / 4096))
  have hsame : Grown root m m := ⟨h, fun _ => rfl⟩
  refine wp_bind.mpr (wp_reads.mpr (wp_ite (fun hv => ?_) fun hv => ?_))
  · refine wp_pure.mpr ⟨hsame, fun p' hp' => ?_⟩
    rw [haddr] at hv hp'
    rw [hsub, sub, if_neg hv, ← Option.some.inj hp']
  rw [haddr, Classical.not_not] at hv
  have hnone : base m.word root (child q (ix level (va.toNat / 4096))) = none := by
    rw [hsub, sub, if_pos hv]
  rw [if_neg (by decide)]
  refine wp_bind.mpr ?_
  cases hs : m.supply with
  | nil =>
    rw [wp, kalloc, hs]
    exact wp_pure.mpr ⟨hsame, fun p' e => (by cases e)⟩
  | cons n ns =>
    rw [wp, kalloc, hs]
    have hmem : ∀ x ∈ ns, x ∈ m.supply := fun x hx => hs ▸ List.mem_cons_of_mem _ hx
    obtain ⟨hfst, hrest⟩ := List.pairwise_cons.mp (hs ▸ h.supplied.distinct)
    refine wp_ite (fun hn => ?_) fun hn => ?_
    · refine wp_pure.mpr ⟨⟨⟨h.tree, ⟨fun x hx => ?_, hrest⟩⟩, fun _ => rfl⟩, fun p' e => (by cases e)⟩
      exact h.supplied.fresh x (hmem x hx)
    obtain ⟨hpage, hfresh⟩ := h.supplied.fresh n (hs ▸ List.mem_cons_self) hn
    refine wp_bind.mpr (wp_modify.mpr (wp_bind.mpr (wp_modify.mpr (wp_pure.mpr ?_))))
    have hb := h.tree.base_grown hp hnone hpage hfresh
    obtain ⟨htree, hsame'⟩ := h.tree.grow hp hnone hpage hfresh
    rw [haddr]
    refine ⟨⟨⟨htree, ⟨fun x hx hx0 => ?_, hrest⟩⟩, hsame'⟩, fun p' e => ?_⟩
    · obtain ⟨hxp, hxf⟩ := h.supplied.fresh x (hmem x hx) hx0
      refine ⟨hxp, fun y hy => ?_⟩
      have hy' := (congrFun hb y).symm.trans hy
      by_cases hyc : y = child q (ix level (va.toNat / 4096))
      · rw [hyc, update_self] at hy'
        exact hfst x hx hn (UInt64.toNat_inj.mp (Option.some.inj hy'))
      · rw [update_of_ne hyc] at hy'
        exact hxf y hy'
    · obtain rfl := Option.some.inj e
      exact (congrFun hb _).trans (update_self ..)

/-- **`walk` with `alloc`** translates as before, and finds the entry of the page. -/
lemma walk_grows (h : Ready m r.toNat) (hva : va < MAXVA) :
    wp (walk r va true) (fun a m' => Grown r.toNat m m' ∧ ∀ pte, a = some pte →
      ∃ p, base m'.word r.toNat (lowOf (va.toNat / 4096)) = some p ∧
        pte.toNat = p + 8 * (ix 0 (va.toNat / 4096)).val) E m := by
  rw [walk, if_neg (UInt64.not_le.mpr hva)]
  refine wp_bind.mpr ((walkStep_grows (q := none) h (by decide) rfl).post fun a m1 h1 => ?_)
  cases a with
  | none => exact wp_pure.mpr ⟨h1.1, fun pte e => (by cases e)⟩
  | some mid =>
    have hmid := h1.2 mid rfl
    refine wp_bind.mpr ((walkStep_grows (q := some _) h1.1.ready (by decide) hmid).post fun a m2 h2 => ?_)
    cases a with
    | none => exact wp_pure.mpr ⟨h1.1.trans h2.1, fun pte e => (by cases e)⟩
    | some low =>
      refine wp_pure.mpr ⟨h1.1.trans h2.1, fun pte e => ?_⟩
      obtain rfl := Option.some.inj e
      exact ⟨low.toNat, h2.2 low rfl, toNat_slot (h2.1.ready.tree.page _ _ (h2.2 low rfl)) (by decide) va⟩

lemma walkStep_finds (h : Tree m.word root) {p va : UInt64} {level p' : Nat} (hl : level ≤ 2)
    (hp : base m.word root (inner q) = some p.toNat)
    (hp' : base m.word root (child q (ix level (va.toNat / 4096))) = some p') :
    wp (walkStep p va level false) (fun a m' => m' = m ∧ ∃ x, a = some x ∧ x.toNat = p') E m := by
  have haddr := toNat_slot (h.page _ _ hp) hl va
  rw [base_child hp, sub] at hp'
  refine wp_bind.mpr (wp_reads.mpr ?_)
  rw [haddr]
  split at hp'
  · cases hp'
  case isFalse hv =>
    rw [if_pos hv]
    exact wp_pure.mpr ⟨rfl, _, rfl, Option.some.inj hp'⟩

/-- `walk` without `alloc` finds the entry of a page that has one. -/
lemma walk_finds (h : Tree m.word r.toNat) (hva : va < MAXVA) {p : Nat}
    (hp : base m.word r.toNat (lowOf (va.toNat / 4096)) = some p) :
    wp (walk r va false) (fun a m' => m' = m ∧ ∃ pte, a = some pte ∧
      pte.toNat = p + 8 * (ix 0 (va.toNat / 4096)).val) E m := by
  obtain ⟨p1, hp1⟩ := base_parent (q := some (ix 2 (va.toNat / 4096))) hp
  rw [walk, if_neg (UInt64.not_le.mpr hva)]
  refine wp_bind.mpr ((walkStep_finds (q := none) h (by decide) rfl hp1).post ?_)
  rintro _ _ ⟨rfl, mid, rfl, rfl⟩
  refine wp_bind.mpr ((walkStep_finds (q := some (ix 2 (va.toNat / 4096))) h (by decide) hp1 hp).post ?_)
  rintro _ _ ⟨rfl, low, rfl, rfl⟩
  exact wp_pure.mpr ⟨rfl, _, rfl, toNat_slot (h.page _ _ hp) (by decide) va⟩

/-! ### Mapping and unmapping -/

lemma lt_cube {v : Nat} (hv : v < MAXPAGE) : v < 512 ^ 3 := by
  simp only [MAXPAGE] at hv
  omega

lemma page_of_lt (ha : a < MAXVA) : a.toNat / 4096 < MAXPAGE := by
  have h : a.toNat < 2 ^ 38 := lt_iff_toNat_lt.mp ha
  simp only [MAXPAGE]
  omega

/-- An entry at the lowest level written: one page is translated by it. -/
lemma Tree.translate_leaf (h : Tree w root) (hv : v < MAXPAGE) (hp : base w root (lowOf v) = some p)
    (e : UInt64) {u : Nat} (hu : u < MAXPAGE) :
    translate (update w (p + 8 * (ix 0 v).val) e) root u =
      if u = v then (if e &&& PTE_V = 0 then none else some (PTE2PA e, PTE_FLAGS e)) else translate w root u := by
  rw [translate, (h.leaf (lt_cube hv) hp e).2.2 u (lt_cube hu)]
  by_cases huv : u = v
  · rw [if_pos huv, if_pos huv]
    rfl
  · rw [if_neg huv, if_neg huv, translate]

/-- **`k` pages from `v` on are mapped** to `pa` on, and every other page is translated as before. -/
structure Maps (root v : Nat) (pa perm : UInt64) (k : Nat) (m m' : Ram) : Prop where
  range : ∀ i < k, translate m'.word root (v + i) = some (pa + ofNat (i * 4096), perm ||| PTE_V)
  rest : ∀ u < MAXPAGE, ¬ (v ≤ u ∧ u < v + k) → translate m'.word root u = translate m.word root u

lemma Grown.maps (h : Grown root m m') (v : Nat) (pa perm : UInt64) : Maps root v pa perm 0 m m' :=
  ⟨fun _ hi => absurd hi (Nat.not_lt_zero _), fun u _ _ => h.same u⟩

lemma Maps.cons {v k : Nat} {pa perm : UInt64} (hv : v < MAXPAGE)
    (hone : ∀ u < MAXPAGE, translate m1.word root u =
      if u = v then some (pa, perm ||| PTE_V) else translate m.word root u)
    (h : Maps root (v + 1) (pa + 4096) perm k m1 m2) : Maps root v pa perm (k + 1) m m2 := by
  refine ⟨fun i hi => ?_, fun u hu hout => ?_⟩
  · cases i with
    | zero =>
      rw [Nat.add_zero, h.rest v hv (by omega), hone v hv, if_pos rfl]
      simp
    | succ i =>
      have hi' := h.range i (by omega)
      rw [show v + (i + 1) = v + 1 + i by omega, hi', Nat.succ_mul, UInt64.ofNat_add, UInt64.add_assoc,
        UInt64.add_comm 4096]
      rfl
  · rw [h.rest u hu (by omega), hone u hu, if_neg (by omega)]

/-- The address of the page behind a page below the last. -/
lemma toNat_next (h : a < MAXVA) : (a + 4096).toNat = a.toNat + 4096 := by
  have h' : a.toNat < 2 ^ 38 := UInt64.lt_iff_toNat_lt.mp h
  rw [UInt64.toNat_add]
  exact Nat.mod_eq_of_lt (show a.toNat + 4096 < 2 ^ 64 by omega)

/-- A table with an entry of the lowest level written is as ready as before. -/
lemma Ready.leaf (h : Ready m root) (hv : v < MAXPAGE) (hp : base m.word root (lowOf v) = some p)
    (e : UInt64) : Ready { m with word := update m.word (p + 8 * (ix 0 v).val) e } root := by
  obtain ⟨htree, hb, -⟩ := h.tree.leaf (lt_cube hv) hp e
  refine ⟨htree, fun n hn hn0 => ?_, h.supplied.distinct⟩
  show Page n.toNat ∧ ∀ q, base (update m.word _ e) root q ≠ some n.toNat
  rw [hb]
  exact h.supplied.fresh n hn hn0

/-- **A round of `mappages`**: no memory for a table, or one page more. -/
lemma wp_mapRound {a pa perm : UInt64} {rest : Prog Ram Int} {Q : Int → Ram → Prop} (hperm : perm.toNat < 1024)
    (h : Ready m r.toNat) (ha : a < MAXVA) (hpa : pa.toNat % 4096 = 0)
    (hun : translate m.word r.toNat (a.toNat / 4096) = none) (hnone : ∀ m', Grown r.toNat m m' → Q (-1) m')
    (hsome : ∀ m', Ready m' r.toNat → (∀ u < MAXPAGE, translate m'.word r.toNat u =
      if u = a.toNat / 4096 then some (pa, perm ||| PTE_V) else translate m.word r.toNat u) → wp rest Q E m') :
    wp (do
      match ← walk r a true with
      | none => pure (-1)
      | some pte => do
        let e ← load pte
        if e &&& PTE_V ≠ 0 then Prog.panic "mappages: remap"
        else do
          store pte (PA2PTE pa ||| perm ||| PTE_V)
          rest) Q E m := by
  have hv := page_of_lt ha
  refine wp_bind.mpr ((walk_grows h ha).post fun x m1 h1 => ?_)
  obtain ⟨hg, hpte⟩ := h1
  cases x with
  | none => exact wp_pure.mpr (hnone m1 hg)
  | some pte =>
    obtain ⟨p, hp, haddr⟩ := hpte pte rfl
    have hfree : m1.word (p + 8 * (ix 0 (a.toNat / 4096)).val) &&& PTE_V = 0 := by
      by_contra hne
      have := (hg.same (a.toNat / 4096)).trans hun
      rw [translate, entry, hp, Option.map_some, Option.bind_some, if_neg hne] at this
      cases this
    refine wp_bind.mpr (wp_reads.mpr ?_)
    rw [haddr, if_neg (not_not.mpr hfree)]
    refine wp_bind.mpr (wp_modify.mpr ?_)
    rw [haddr, UInt64.or_assoc]
    refine hsome _ (hg.ready.leaf hv hp _) fun u hu => ?_
    have hlt := or_valid_lt hperm
    rw [← hg.same u]
    refine (hg.ready.tree.translate_leaf hv hp _ hu).trans ?_
    rw [← UInt64.or_assoc, if_neg (or_valid _), UInt64.or_assoc, PTE2PA_entry hpa hlt, PTE_FLAGS_entry hlt]

/-- **The loop of `mappages`** maps all pages of its range, or those before the one `walk` found no memory for. -/
lemma mapLoop_maps {last perm : UInt64} (hperm : perm.toNat < 1024) (n : Nat) {a pa : UInt64} (h : Ready m r.toNat)
    (ha : a.toNat % 4096 = 0) (hpa : pa.toNat % 4096 = 0) (hlast : last.toNat = a.toNat + n * 4096)
    (hmax : last < MAXVA) (hun : ∀ i ≤ n, translate m.word r.toNat (a.toNat / 4096 + i) = none) :
    wp (mapLoop r last perm (n + 1) a pa) (fun c m' => Tree m'.word r.toNat ∧
      ∃ k, (c = 0 ∧ k = n + 1 ∨ c = -1 ∧ k < n + 1) ∧ Maps r.toNat (a.toNat / 4096) pa perm k m m') E m := by
  have hamax : a < MAXVA := by
    refine lt_iff_toNat_lt.mpr (Nat.lt_of_le_of_lt ?_ (lt_iff_toNat_lt.mp hmax))
    omega
  have hv := page_of_lt hamax
  induction n generalizing a pa m with
  | zero =>
    rw [mapLoop]
    refine wp_mapRound hperm h hamax hpa (hun 0 (le_refl 0)) (fun m' hg => ?_) fun m' hr hone => ?_
    · exact ⟨hg.ready.tree, 0, .inr ⟨rfl, Nat.one_pos⟩, hg.maps _ _ _⟩
    · rw [if_pos (UInt64.toNat_inj.mp (by omega))]
      refine wp_pure.mpr ⟨hr.tree, 1, .inl ⟨rfl, rfl⟩, Maps.cons hv hone ?_⟩
      exact Grown.maps ⟨hr, fun _ => rfl⟩ _ _ _
  | succ n ih =>
    rw [mapLoop]
    refine wp_mapRound hperm h hamax hpa (hun 0 (Nat.zero_le _)) (fun m' hg => ?_) fun m' hr hone => ?_
    · exact ⟨hg.ready.tree, 0, .inr ⟨rfl, Nat.succ_pos _⟩, hg.maps _ _ _⟩
    have hnext := toNat_next hamax
    have hmax' : last.toNat < 2 ^ 38 := lt_iff_toNat_lt.mp hmax
    have hpage : (a + 4096).toNat / 4096 = a.toNat / 4096 + 1 := by omega
    have hnmax : a + 4096 < MAXVA := lt_iff_toNat_lt.mpr (show _ < 2 ^ 38 by omega)
    rw [if_neg (fun e => by rw [e] at hlast; omega)]
    have hpa' : (pa + 4096).toNat % 4096 = 0 := by
      have h4096 : (4096 : UInt64).toNat = 4096 := rfl
      rw [UInt64.toNat_add, h4096]
      omega
    have hun' : ∀ i ≤ n, translate m'.word r.toNat ((a + 4096).toNat / 4096 + i) = none := fun i hi => by
      rw [hpage, hone _ (by simp only [MAXPAGE]; omega), if_neg (by omega), Nat.add_assoc]
      exact hun (1 + i) (by omega)
    have hnext' : last.toNat = (a + 4096).toNat + n * 4096 := by omega
    have halign : (a + 4096).toNat % 4096 = 0 := by omega
    have hnpage := page_of_lt hnmax
    generalize a + 4096 = b at *
    refine (ih hr halign hpa' hnext' hun' hnmax hnpage).post ?_
    rintro c m'' ⟨htree, k, hk, hmaps⟩
    rw [hpage] at hmaps
    refine ⟨htree, k + 1, ?_, hmaps.cons hv hone⟩
    obtain ⟨rfl, rfl⟩ | ⟨rfl, hlt⟩ := hk
    · exact .inl ⟨rfl, rfl⟩
    · exact .inr ⟨rfl, Nat.succ_lt_succ hlt⟩

/-- `kfree` can have the frame of a page: it is one of its frames, and not one of the table's pages. -/
def Freeable (m : Ram) (root : Nat) (pa : UInt64) : Prop :=
  pa.toNat % 4096 = 0 ∧ m.kend ≤ pa ∧ pa < PHYSTOP ∧ ∀ q, base m.word root q ≠ some pa.toNat

/-- What `uvmunmap` asks of a page. -/
def Leaf (m : Ram) (root : Nat) (doFree : Bool) (v : Nat) : Prop :=
  ∃ pa f, translate m.word root v = some (pa, f) ∧ f ≠ PTE_V ∧ (doFree = true → Freeable m root pa)

/-- Of the pages of a range no one is translated, and every other page as before. -/
structure Unmaps (root v k : Nat) (m m' : Ram) : Prop where
  range : ∀ i < k, translate m'.word root (v + i) = none
  rest : ∀ u < MAXPAGE, ¬ (v ≤ u ∧ u < v + k) → translate m'.word root u = translate m.word root u

lemma kfree_fills {pa : UInt64} (ha : pa.toNat % 4096 = 0) (hk : m.kend ≤ pa) (hp : pa < PHYSTOP) :
    wp (kfree pa) (fun _ m' => m'.word = fill m.word pa.toNat 0x0101010101010101 ∧ m'.kend = m.kend) E m := by
  refine wp_bind.mpr (wp_reads.mpr ?_)
  have hmod : pa % 4096 = 0 := UInt64.toNat_inj.mp (by rw [UInt64.toNat_mod]; exact ha)
  rw [if_neg (by
    rintro (h | h | h)
    · exact h hmod
    · exact UInt64.not_le.mpr h hk
    · exact UInt64.not_lt.mpr h hp)]
  exact wp_bind.mpr (wp_modify.mpr (wp_modify.mpr ⟨rfl, rfl⟩))

/-- The pages of `k + 1` rounds are those of the first and those of the others. -/
lemma Unmaps.cons {v k : Nat} (hv : v < MAXPAGE)
    (hone : ∀ u < MAXPAGE, translate m1.word root u = if u = v then none else translate m.word root u)
    (h : Unmaps root (v + 1) k m1 m2) : Unmaps root v (k + 1) m m2 := by
  refine ⟨fun i hi => ?_, fun u hu hout => ?_⟩
  · cases i with
    | zero => rw [Nat.add_zero, h.rest v hv (by omega), hone v hv, if_pos rfl]
    | succ i => rw [show v + (i + 1) = v + 1 + i by omega, h.range i (by omega)]
  · rw [h.rest u hu (by omega), hone u hu, if_neg (by omega)]

/-- A page of a table's lowest level is unmapped: the table stands as before. -/
structure Cleared (root v : Nat) (m m' : Ram) : Prop where
  tree : Tree m'.word root
  base : base m'.word root = base m.word root
  kend : m'.kend = m.kend
  pages : ∀ u < MAXPAGE, translate m'.word root u = if u = v then none else translate m.word root u

/-- The pages that are left stay what `uvmunmap` asks for. -/
lemma Cleared.leaf {v u : Nat} (h : Cleared root v m m') (hu : u < MAXPAGE) (hne : u ≠ v)
    (hl : Leaf m root doFree u) : Leaf m' root doFree u := by
  obtain ⟨pa, f, ht, hf, hfree⟩ := hl
  refine ⟨pa, f, by rw [h.pages u hu, if_neg hne, ht], hf, fun hd => ?_⟩
  obtain ⟨ha, hk, hp, hb⟩ := hfree hd
  exact ⟨ha, h.kend ▸ hk, hp, fun q => h.base ▸ hb q⟩

/-- **A round of `uvmunmap`**. -/
lemma wp_unmapRound {rest : Prog Ram Unit} {Q : Unit → Ram → Prop}
    (h : Tree m.word r.toNat) (ha : a < MAXVA) (hl : Leaf m r.toNat doFree (a.toNat / 4096))
    (hrest : ∀ m', Cleared r.toNat (a.toNat / 4096) m m' → wp rest Q E m') :
    wp (do
      match ← walk r a false with
      | none => panic "uvmunmap: walk"
      | some pte => do
        let e ← load pte
        if e &&& PTE_V = 0 then panic "uvmunmap: not mapped"
        else if PTE_FLAGS e = PTE_V then panic "uvmunmap: not a leaf"
        else do
          freeFrame doFree (PTE2PA e)
          store pte 0
          rest) Q E m := by
  have hv := page_of_lt ha
  obtain ⟨pa, f, ht, hf, hfree⟩ := hl
  obtain ⟨e, he, hte⟩ := Option.bind_eq_some_iff.mp ht
  obtain ⟨p, hp, rfl⟩ := Option.map_eq_some_iff.mp he
  split at hte
  · cases hte
  case isFalse hvalid =>
    obtain ⟨rfl, rfl⟩ := Prod.mk.inj (Option.some.inj hte)
    refine wp_bind.mpr ((walk_finds h ha hp).post ?_)
    rintro _ m0 ⟨hm0, pte, rfl, haddr⟩
    rw [hm0]
    refine wp_bind.mpr (wp_reads.mpr ?_)
    rw [haddr, if_neg hvalid, if_neg hf]
    -- the frame, if it is freed, is not a page of the table
    have hframe : wp (freeFrame doFree (PTE2PA (m.word (p + 8 * (ix 0 (a.toNat / 4096)).val))))
        (fun _ m' => m'.kend = m.kend ∧ Tree m'.word r.toNat ∧ base m'.word r.toNat = base m.word r.toNat ∧
          ∀ v, entry m'.word r.toNat v = entry m.word r.toNat v) E m := by
      refine wp_ite (fun hd => ?_) fun _ => wp_pure.mpr ⟨rfl, h, rfl, fun _ => rfl⟩
      obtain ⟨hpa, hk, hstop, hfresh⟩ := hfree hd
      refine (kfree_fills hpa hk hstop).post fun _ m' h' => ?_
      rw [h'.1]
      exact ⟨h'.2, h.fill hpa hfresh _⟩
    refine wp_bind.mpr (hframe.post fun _ m1 h1 => ?_)
    obtain ⟨hk1, htree1, hb1, hentry1⟩ := h1
    refine wp_bind.mpr (wp_modify.mpr (hrest _ ?_))
    rw [haddr]
    have hp1 : base m1.word r.toNat (lowOf (a.toNat / 4096)) = some p := hb1 ▸ hp
    obtain ⟨htree2, hb2, -⟩ := htree1.leaf (lt_cube hv) hp1 0
    refine ⟨htree2, hb2.trans hb1, hk1, fun u hu => ?_⟩
    refine (htree1.translate_leaf hv hp1 0 hu).trans ?_
    rw [translate, hentry1 u]
    rfl

/-- **The loop of `uvmunmap`** takes the pages of its range out of the table. -/
lemma unmapLoop_unmaps {stop : UInt64} (n : Nat) (h : Tree m.word r.toNat)
    (ha : a.toNat % 4096 = 0) (hstop : stop.toNat = a.toNat + n * 4096) (hmax : stop ≤ MAXVA)
    (hl : ∀ i < n, Leaf m r.toNat doFree (a.toNat / 4096 + i)) :
    wp (unmapLoop r stop doFree n a) (fun _ m' => Tree m'.word r.toNat ∧
      Unmaps r.toNat (a.toNat / 4096) n m m') E m := by
  have hmax' : stop.toNat ≤ 2 ^ 38 := le_iff_toNat_le.mp hmax
  induction n generalizing a m with
  | zero => exact wp_pure.mpr ⟨h, fun _ hi => absurd hi (Nat.not_lt_zero _), fun _ _ _ => rfl⟩
  | succ n ih =>
    have hamax : a < MAXVA := lt_iff_toNat_lt.mpr (show _ < 2 ^ 38 by omega)
    rw [unmapLoop, if_pos (lt_iff_toNat_lt.mpr (by omega))]
    refine wp_unmapRound h hamax (hl 0 (Nat.succ_pos n)) fun m' hc => ?_
    have hnext := toNat_next hamax
    have hpage : (a + 4096).toNat / 4096 = a.toNat / 4096 + 1 := by omega
    have hl' : ∀ i < n, Leaf m' r.toNat doFree ((a + 4096).toNat / 4096 + i) := fun i hi => by
      rw [hpage]
      refine hc.leaf (by simp only [MAXPAGE]; omega) (by omega) ?_
      rw [Nat.add_assoc]
      exact hl (1 + i) (by omega)
    refine (ih hc.tree (by omega) (by omega) hl').post ?_
    rintro _ m'' ⟨htree, hun⟩
    rw [hpage] at hun
    exact ⟨htree, hun.cons (page_of_lt hamax) hc.pages⟩

lemma mappages_maps {va size pa perm : UInt64} (h : Ready m r.toNat) (hva : va.toNat % 4096 = 0)
    (hsize : size.toNat % 4096 = 0) (hpos : 0 < size.toNat) (hmax : va.toNat + size.toNat ≤ MAXVA.toNat)
    (hun : ∀ i < size.toNat / 4096, translate m.word r.toNat (va.toNat / 4096 + i) = none)
    (hpa : pa.toNat % 4096 = 0) (hperm : perm.toNat < 1024) :
    wp (mappages r va size pa perm) (fun c m' => Tree m'.word r.toNat ∧ ∃ k,
      (c = 0 ∧ k = size.toNat / 4096 ∨ c = -1 ∧ k < size.toNat / 4096) ∧
      Maps r.toNat (va.toNat / 4096) pa perm k m m') E m := by
  have hmax' : va.toNat + size.toNat ≤ 2 ^ 38 := hmax
  -- the first page is `va`'s, the last is the one with the last byte
  have hfirst : (pgrounddown va).toNat = va.toNat := by
    rw [toNat_pgrounddown]
    simp only [PGSIZE]
    omega
  have hend : (va + size - 1).toNat = va.toNat + size.toNat - 1 := by
    have h1 : (1 : UInt64).toNat = 1 := rfl
    have hadd : (va + size).toNat = va.toNat + size.toNat := by
      rw [UInt64.toNat_add]
      omega
    rw [UInt64.toNat_sub_of_le _ _ (UInt64.le_iff_toNat_le.mpr (by omega)), hadd, h1]
  have hlast : (pgrounddown (va + size - 1)).toNat = va.toNat + (size.toNat / 4096 - 1) * 4096 := by
    rw [toNat_pgrounddown, hend]
    simp only [PGSIZE]
    omega
  have hrounds : (pgrounddown (va + size - 1) - pgrounddown va).toNat / 4096 + 1 = size.toNat / 4096 - 1 + 1 := by
    rw [UInt64.toNat_sub_of_le _ _ (UInt64.le_iff_toNat_le.mpr (by omega)), hlast, hfirst]
    omega
  have hcount : size.toNat / 4096 - 1 + 1 = size.toNat / 4096 := by omega
  have hzero : size ≠ 0 := fun e => by
    rw [e] at hpos
    exact absurd hpos (Nat.lt_irrefl 0)
  rw [mappages, if_neg hzero]
  show wp (mapLoop _ _ _ ((pgrounddown (va + size - 1) - pgrounddown va).toNat / 4096 + 1) _ _) _ E m
  rw [hrounds]
  have hloop := mapLoop_maps (E := E) (r := r) hperm (size.toNat / 4096 - 1) (a := pgrounddown va) h
    (by rw [hfirst]; exact hva) hpa (hlast.trans (by rw [hfirst]))
    (lt_iff_toNat_lt.mpr (show _ < 2 ^ 38 by omega)) (by rw [hfirst]; exact fun i hi => hun i (by omega))
  rw [hfirst, hcount] at hloop
  rw [hcount]
  exact hloop

lemma uvmunmap_unmaps {k : Nat} (h : Tree m.word r.toNat) (hva : va.toNat % 4096 = 0)
    (hmax : va.toNat + k * 4096 ≤ MAXVA.toNat) (hl : ∀ i < k, Leaf m r.toNat doFree (va.toNat / 4096 + i)) :
    wp (uvmunmap r va (ofNat k) doFree) (fun _ m' => Tree m'.word r.toNat ∧
      Unmaps r.toNat (va.toNat / 4096) k m m') E m := by
  have hmax' : va.toNat + k * 4096 ≤ 2 ^ 38 := hmax
  have hk : (ofNat k).toNat = k := by
    rw [toNat_ofNat']
    omega
  have hstop : (va + ofNat k * 4096).toNat = va.toNat + k * 4096 := by
    have h4096 : (4096 : UInt64).toNat = 4096 := rfl
    rw [UInt64.toNat_add, UInt64.toNat_mul, hk, h4096]
    omega
  have hmod : va % 4096 = 0 := UInt64.toNat_inj.mp (by rw [UInt64.toNat_mod]; exact hva)
  rw [uvmunmap, if_neg (not_not.mpr hmod), hk]
  exact unmapLoop_unmaps k h hva hstop (le_iff_toNat_le.mpr (hstop ▸ hmax)) hl

/-- **A mapping changes only what it says**, and `uvmunmap` of what was mapped takes it back. -/
theorem mapping_changes_range (r : UInt64) (m : Ram) (h : Ready m r.toNat) (va size pa perm : UInt64)
    (hva : va.toNat % 4096 = 0) (hsize : size.toNat % 4096 = 0) (hpos : 0 < size.toNat)
    (hmax : va.toNat + size.toNat ≤ MAXVA.toNat)
    (hun : ∀ i < size.toNat / 4096, translate m.word r.toNat (va.toNat / 4096 + i) = none)
    (hpa : pa.toNat % 4096 = 0) (hperm : perm.toNat < 1024) (hleaf : perm &&& 0xE ≠ 0) :
    ∃ c m' k, mappages r va size pa perm m = .ok (c, m') ∧ Tree m'.word r.toNat ∧
      (c = 0 ∧ k = size.toNat / 4096 ∨ c = -1 ∧ k < size.toNat / 4096) ∧
      Maps r.toNat (va.toNat / 4096) pa perm k m m' ∧
      ∀ doFree, (doFree = true → ∀ i < k, Freeable m' r.toNat (pa + ofNat (i * 4096))) →
        ∃ m'', uvmunmap r va (ofNat k) doFree m' = .ok ((), m'') ∧ Tree m''.word r.toNat ∧
          ∀ u < MAXPAGE, translate m''.word r.toNat u = translate m.word r.toNat u := by
  obtain ⟨c, m', hrun, htree, k, hk, hmaps⟩ := (mappages_maps h hva hsize hpos hmax hun hpa hperm).returns
  have hle : k ≤ size.toNat / 4096 := by
    obtain ⟨-, rfl⟩ | ⟨-, hlt⟩ := hk
    · exact le_refl _
    · exact hlt.le
  refine ⟨c, m', k, hrun, htree, hk, hmaps, fun doFree hfree => ?_⟩
  have hleaves : ∀ i < k, Leaf m' r.toNat doFree (va.toNat / 4096 + i) := fun i hi =>
    ⟨_, _, hmaps.range i hi, or_valid_leaf hleaf, fun hd => hfree hd i hi⟩
  obtain ⟨_, m'', hrun', htree', hback⟩ := (uvmunmap_unmaps htree hva (by omega) hleaves).returns
  refine ⟨m'', hrun', htree', fun u hu => ?_⟩
  by_cases hin : va.toNat / 4096 ≤ u ∧ u < va.toNat / 4096 + k
  · obtain ⟨i, rfl⟩ := Nat.exists_eq_add_of_le hin.1
    rw [hback.range i (by omega), hun i (by omega)]
  · rw [hback.rest u hu hin, hmaps.rest u hu hin]

/-- Memory of zeros: a table with a root page only. -/
def blank (ns : List UInt64) : Ram := ⟨fun _ => 0, ns, 0x80000000⟩

lemma base_blank (ns : List UInt64) {q : Place} {p : Nat} (h : base (blank ns).word root q = some p) :
    q = .root ∧ p = root := by
  have hsub : ∀ p i, sub (blank ns).word p i = none := fun _ _ => if_pos (show 0 &&& PTE_V = 0 by decide)
  cases q with
  | root => exact ⟨rfl, (Option.some.inj h).symm⟩
  | mid i => cases (hsub root i).symm.trans h
  | low i j =>
    rw [base, hsub root i] at h
    cases h

lemma blank_ready : Ready (blank [0x2000, 0x3000]) 0x1000 := by
  refine ⟨⟨fun q p hp => ?_, fun q q' p hp hp' => ?_⟩, fun n hn _ => ?_, by decide⟩
  · rw [(base_blank _ hp).2]
    exact ⟨by decide, by decide, by decide⟩
  · rw [(base_blank _ hp).1, (base_blank _ hp').1]
  · simp only [blank, List.mem_cons, List.not_mem_nil, or_false] at hn
    obtain rfl | rfl := hn
    all_goals exact ⟨⟨by decide, by decide, by decide⟩, fun q hq => absurd (base_blank _ hq).2 (by decide)⟩

/-- Two pages of a new table. -/
theorem mapping_changes_pages : ∃ m', mappages 0x1000 0 8192 0x80001000 6 (blank [0x2000, 0x3000]) = .ok (0, m') ∧
    Maps 0x1000 0 0x80001000 6 2 (blank [0x2000, 0x3000]) m' := by
  have hun : ∀ i < (8192 : UInt64).toNat / 4096,
      translate (blank [0x2000, 0x3000]).word 0x1000 ((0 : UInt64).toNat / 4096 + i) = none := by decide
  obtain ⟨c, m', k, hrun, -, hk, hmaps, -⟩ := mapping_changes_range 0x1000 _ blank_ready 0 8192 0x80001000 6
    (by decide) (by decide) (by decide) (by decide) hun (by decide) (by decide) (by decide)
  obtain ⟨m, hzero⟩ : ∃ m, mappages 0x1000 0 8192 0x80001000 6 (blank [0x2000, 0x3000]) = .ok (0, m) :=
    Outcome.returns_of_test (by decide +kernel)
  cases hrun.symm.trans hzero
  obtain ⟨-, rfl⟩ | ⟨h, -⟩ := hk
  · exact ⟨m', hrun, hmaps⟩
  · cases h

end FypOs.Vm.Sv39
