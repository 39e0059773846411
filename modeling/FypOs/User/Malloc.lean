import FypOs.Lib.Runs
import FypOs.Lib.Segments
import Mathlib.Algebra.Order.Ring.Nat
import Mathlib.Data.List.Chain

/-!
# User — the memory allocator

`user/umalloc.c`: the blocks that are free form a circular list through `base`, in the order of their addresses, from
which `malloc` cuts the blocks it returns and into which `free` puts them back.  Each block begins with a header, of
which `size` counts the whole block in units of a header.

Addresses are numbers of bytes.  `base` is below the heap, which begins at `start`; `sbrk` adds to its end, or fails.
The loops are followed for a given number of turns.
-/

namespace FypOs.User

open Lib Function List Tiles

/-- `sizeof(Header)`. -/
def headerSize : Nat := 16

/-- The values of a `uint`. -/
def uintRange : Nat := 2 ^ 32

structure Heap where
  /-- The fields of the headers, by their addresses. -/
  ptr : Nat → Nat
  size : Nat → Nat
  freep : Option Nat
  /-- The end of the heap. -/
  brk : Nat
  /-- The blocks in use, by their headers.  Not in the program. -/
  live : Nat → Bool

variable (base start : Nat)

/-! ### The functions -/

/-- The two conditions on which the loop of `free` ends. -/
def Stop (h : Heap) (bp p : Nat) : Prop :=
  (p < bp ∧ bp < h.ptr p) ∨ (h.ptr p ≤ p ∧ (p < bp ∨ bp < h.ptr p))

instance (h : Heap) (bp p : Nat) : Decidable (Stop h bp p) :=
  inferInstanceAs (Decidable (_ ∨ _))

/-- The loop of `free`. -/
def findPlace : Nat → Heap → Nat → Nat → Option Nat
  | 0, _, _, _ => none
  | turns + 1, h, bp, p => if Stop h bp p then some p else findPlace turns h bp (h.ptr p)

/-- Join `bp` to the block behind it, or hook that in. -/
def joinUpper (h : Heap) (bp p : Nat) : Heap :=
  if bp + headerSize * h.size bp = h.ptr p then
    { h with
      size := update h.size bp ((h.size bp + h.size (h.ptr p)) % uintRange)
      ptr := update h.ptr bp (h.ptr (h.ptr p)) }
  else { h with ptr := update h.ptr bp (h.ptr p) }

/-- Join `bp` to the block before it, or hook it in. -/
def joinLower (h : Heap) (bp p : Nat) : Heap :=
  if p + headerSize * h.size p = bp then
    { h with
      size := update h.size p ((h.size p + h.size bp) % uintRange)
      ptr := update h.ptr p (h.ptr bp) }
  else { h with ptr := update h.ptr p bp }

/-- `free` behind its loop. -/
def putBack (h : Heap) (bp p : Nat) : Heap :=
  { joinLower (joinUpper h bp p) bp p with freep := some p, live := update h.live bp false }

/-- `free` of the block with the header `bp`. -/
def free (turns : Nat) (h : Heap) (bp : Nat) : Option Heap :=
  match h.freep with
  | none => none
  | some f => (findPlace turns h bp f).map (putBack h bp)

/-- The memory that `sbrk` has returned, as a block. -/
def grown (h : Heap) (nu : Nat) : Heap :=
  { h with
    brk := h.brk + headerSize * nu
    size := update h.size h.brk nu
    live := update h.live h.brk true }

/-- `morecore`, when `sbrk` does not fail. -/
def morecore (turns : Nat) (h : Heap) (nu : Nat) : Option Heap :=
  free turns (grown h (if nu < 4096 then 4096 else nu)) h.brk

/-- `malloc` takes `nunits` units of the block `p`, with `prevp` before it in the list. -/
def take (h : Heap) (nunits prevp p : Nat) : Heap × Nat :=
  if h.size p = nunits then
    ({ h with ptr := update h.ptr prevp (h.ptr p), freep := some prevp, live := update h.live p true },
      p + headerSize)
  else
    let q := p + headerSize * (h.size p - nunits)
    ({ h with
       size := update (update h.size p (h.size p - nunits)) q nunits
       freep := some prevp
       live := update h.live q true }, q + headerSize)

/-- The loop of `malloc`; `ok` says whether `sbrk` serves a call.  The result is the pointer returned, `0` for none. -/
def mallocLoop (nunits : Nat) (ok : Bool) : Nat → Heap → Nat → Nat → Option (Heap × Nat)
  | 0, _, _, _ => none
  | turns + 1, h, prevp, p =>
    if nunits ≤ h.size p then some (take h nunits prevp p)
    else if h.freep = some p then
      if ok then
        match morecore turns h nunits with
        | none => none
        | some h' =>
          match h'.freep with
          | none => none
          | some f => mallocLoop nunits ok turns h' f (h'.ptr f)
      else some (h, 0)
    else mallocLoop nunits ok turns h p (h.ptr p)

def nunitsOf (nbytes : Nat) : Nat := ((nbytes + headerSize - 1) / headerSize + 1) % uintRange

/-- The list at the first call. -/
def initialized (h : Heap) : Heap :=
  match h.freep with
  | none => { h with ptr := update h.ptr base base, size := update h.size base 0, freep := some base }
  | some _ => h

def malloc (turns : Nat) (h : Heap) (nbytes : Nat) (ok : Bool) : Option (Heap × Nat) :=
  match (initialized base h).freep with
  | none => none
  | some f => mallocLoop (nunitsOf nbytes) ok turns (initialized base h) f ((initialized base h).ptr f)

/-! ### The invariant -/

/-- The blocks of `T` that are free. -/
def Heap.frees (h : Heap) (T : List Nat) : List Nat := T.filter fun x => !h.live x

/-- The blocks `T` cover the heap, no two free ones are next to each other, and the free ones are linked in order. -/
structure Inv (h : Heap) (T : List Nat) : Prop where
  tiles : Tiles headerSize h.size start T h.brk
  gaps : T.IsChain fun x y => h.live x = true ∨ h.live y = true
  seg : Leads h.ptr base (h.frees T) base
  freep : ∃ f ∈ base :: h.frees T, h.freep = some f
  zero : h.size base = 0
  live : ∀ x, h.live x = true → x ∈ T

variable {base start : Nat} {h h' : Heap} {T T₁ T₂ : List Nat} {bp p n turns : Nat} {l : List Nat}

lemma headerSize_pos : 0 < headerSize := by decide

lemma mem_frees {x : Nat} : x ∈ h.frees T ↔ x ∈ T ∧ h.live x = false := by
  simp [Heap.frees]

lemma frees_append : h.frees (T₁ ++ T₂) = h.frees T₁ ++ h.frees T₂ := filter_append ..

lemma tiles_lt (ht : Tiles headerSize h.size start T h.brk) : T.Pairwise (· < ·) := by
  refine (List.Pairwise.and_mem.mp ht.sorted).imp fun hxy => ?_
  exact Nat.lt_of_lt_of_le (lt_of_unit headerSize_pos (ht.mem hxy.1).2.2) hxy.2.2

lemma frees_sorted (hb : base < start) (ht : Tiles headerSize h.size start T h.brk) :
    (base :: h.frees T).Pairwise (· < ·) :=
  pairwise_cons.mpr ⟨fun _ hx => Nat.lt_of_lt_of_le hb (ht.mem (mem_frees.mp hx).1).1, (tiles_lt ht).filter _⟩

/-! ### The loop of `free` -/

/-- The loop passes the elements of a list on which it does not end. -/
lemma findPlace_skip {x z : Nat} (hl : Leads h.ptr x l z) (hno : ∀ y ∈ x :: l, ¬ Stop h bp y)
    (turns : Nat) : findPlace (turns + (l.length + 1)) h bp x = findPlace turns h bp z := by
  induction l generalizing x with
  | nil =>
    rw [length_nil, Nat.zero_add, findPlace, if_neg (hno x mem_cons_self)]
    rw [show h.ptr x = z from hl]
  | cons w l ih =>
    obtain ⟨hx, hl⟩ := hl
    rw [length_cons, ← Nat.add_assoc, findPlace, if_neg (hno x mem_cons_self), hx]
    exact ih hl fun y hy => hno y (mem_cons_of_mem x hy)

/-- The free blocks before and behind an address. -/
structure Around (base : Nat) (L₁ L₂ : List Nat) (bp : Nat) : Prop where
  sorted : (base :: (L₁ ++ L₂)).Pairwise (· < ·)
  low : ∀ x ∈ base :: L₁, x < bp
  up : ∀ x ∈ L₂, bp < x

section Place

variable {L₁ L₂ : List Nat} (ha : Around base L₁ L₂ bp) (hp : Upto h.ptr base L₁ p) (hseg : Leads h.ptr p L₂ base)
  {x : Nat} {f : Nat}

include ha in
lemma Around.base_le (hx : x ∈ base :: (L₁ ++ L₂)) : base ≤ x := by
  rcases mem_cons.mp hx with rfl | hx
  · exact le_rfl
  · exact Nat.le_of_lt ((pairwise_cons.mp ha.sorted).1 x hx)

include ha in
lemma Around.lower_sorted : (base :: L₁).Pairwise (· < ·) := by
  have := ha.sorted
  rw [← cons_append] at this
  exact (pairwise_append.mp this).1

include ha in
lemma Around.upper_sorted : L₂.Pairwise (· < ·) := by
  have := ha.sorted
  rw [← cons_append] at this
  exact (pairwise_append.mp this).2.1

include ha hp hseg

/-- The loop ends at the last free block before `bp`. -/
lemma stop_place : Stop h bp p := by
  have hpb := ha.low p hp.mem
  have hbase : base ≤ p := ha.base_le (by rw [← cons_append]; exact mem_append_left _ hp.mem)
  cases L₂ with
  | nil =>
    have hptr : h.ptr p = base := hseg
    exact .inr ⟨hptr ▸ hbase, .inl hpb⟩
  | cons y L =>
    obtain ⟨hptr, -⟩ := hseg
    exact .inl ⟨hpb, hptr ▸ ha.up y mem_cons_self⟩

omit hseg in
lemma not_stop_lower {l : List Nat} (e : L₁ = l ++ [p]) (hl : Leads h.ptr base l p)
    (hx : x ∈ base :: l) : ¬ Stop h bp x := by
  subst e
  have hsort := ha.lower_sorted
  rw [← cons_append] at hsort
  obtain ⟨hsort, -, hlast⟩ := pairwise_append.mp hsort
  have hxp : x < p := hlast x hx p mem_cons_self
  have hup : x < h.ptr x ∧ h.ptr x < bp := by
    rcases hl.next hsort hx with e | ⟨hlt, hm⟩
    · rw [e]
      exact ⟨hxp, ha.low p hp.mem⟩
    · refine ⟨hlt, ha.low _ ?_⟩
      rw [← cons_append]
      exact mem_append_left _ (mem_cons_of_mem base hm)
  rintro (⟨-, hs⟩ | ⟨hs, -⟩) <;> omega

omit hp in
lemma not_stop_upper (hx : x ∈ L₂) : ¬ Stop h bp x := by
  cases L₂ with
  | nil => cases hx
  | cons y L =>
    have hbx := ha.up x hx
    have hbase : base < bp := ha.low base mem_cons_self
    rcases hseg.2.next ha.upper_sorted hx with e | ⟨hlt, hm⟩
    · rintro (⟨hs, -⟩ | ⟨-, hs | hs⟩) <;> omega
    · rintro (⟨hs, -⟩ | ⟨hs, -⟩) <;> omega

lemma findPlace_self (turns : Nat) : findPlace (turns + 1) h bp p = some p := by
  rw [findPlace, if_pos (stop_place ha hp hseg)]

lemma findPlace_lower (hf : f ∈ base :: L₁) (hn : L₁.length + 1 < turns) : findPlace turns h bp f = some p := by
  have hself := findPlace_self ha hp hseg
  have hsome (k : Nat) (hk : 0 < k) : findPlace k h bp p = some p := by
    obtain ⟨k, rfl⟩ := Nat.exists_eq_add_of_le hk
    rw [Nat.add_comm]
    exact hself k
  rcases hp with ⟨rfl, rfl⟩ | ⟨l, rfl, hl⟩
  · rw [mem_singleton.mp hf]
    exact hsome turns (by omega)
  · rw [← cons_append] at hf
    rcases mem_append.mp hf with hf | hf
    · obtain ⟨a, b, e⟩ := append_of_mem hf
      have hlen := congrArg List.length e
      simp only [length_cons, length_append, length_nil] at hlen hn
      have hskip := findPlace_skip (hl.suffix e) (fun y hy => not_stop_lower ha (.inr ⟨l, rfl, hl⟩) rfl hl
        (by rw [e]; exact mem_append_right a hy)) (turns - (b.length + 1))
      rw [Nat.sub_add_cancel (by omega)] at hskip
      rw [hskip]
      exact hsome _ (by omega)
    · rw [mem_singleton.mp hf]
      exact hsome turns (by omega)

/-- **The loop of `free` ends**, at the last free block before `bp`, wherever in the list it starts. -/
lemma findPlace_eq (hf : f ∈ base :: (L₁ ++ L₂)) (hn : L₁.length + L₂.length + 2 < turns) :
    findPlace turns h bp f = some p := by
  rw [← cons_append] at hf
  rcases mem_append.mp hf with hf | hf
  · exact findPlace_lower ha hp hseg hf (by omega)
  · obtain ⟨a, b, e⟩ := append_of_mem hf
    have hlen := congrArg List.length e
    simp only [length_cons, length_append] at hlen
    have hsuffix : Leads h.ptr f b base := hseg.suffix (by rw [e]; exact (cons_append ..).symm)
    have hskip := findPlace_skip hsuffix (fun y hy => not_stop_upper ha hseg
      (by rw [e]; exact mem_append_right a hy)) (turns - (b.length + 1))
    rw [Nat.sub_add_cancel (by omega)] at hskip
    rw [hskip]
    exact findPlace_lower ha hp hseg mem_cons_self (by omega)

end Place

/-! ### Putting a block back -/

lemma joinUpper_brk : (joinUpper h bp p).brk = h.brk := by
  rw [joinUpper]
  split <;> rfl

/-- No two free blocks are next to each other. -/
def Gaps (live : Nat → Bool) (T : List Nat) : Prop := T.IsChain fun x y => live x = true ∨ live y = true

lemma Gaps.congr {live live' : Nat → Bool} (hg : Gaps live T) (e : ∀ x ∈ T, live' x = live x) : Gaps live' T :=
  List.IsChain.imp_of_mem_imp (fun x y hx hy hxy => by rwa [e x hx, e y hy]) hg

lemma frees_congr {live' : Nat → Bool} (e : ∀ x ∈ T, live' x = h.live x) :
    T.filter (fun x => !live' x) = h.frees T :=
  filter_congr fun x hx => by rw [e x hx]

/-- A block in use, between the others. -/
structure Held (base start : Nat) (h : Heap) (T₁ : List Nat) (bp : Nat) (T₂ : List Nat) (p : Nat) : Prop where
  below : base < start
  bound : h.brk < start + headerSize * uintRange
  tiles : Tiles headerSize h.size start (T₁ ++ bp :: T₂) h.brk
  lower : Gaps h.live T₁
  upper : Gaps h.live T₂
  upto : Upto h.ptr base (h.frees T₁) p
  zero : h.size base = 0

/-- The block `bp` with the free block behind it, if there was one. -/
structure Joined (base start : Nat) (h h₁ : Heap) (T₁ : List Nat) (bp : Nat) (T₂ T' : List Nat) : Prop where
  tiles : Tiles headerSize h₁.size start (T₁ ++ bp :: T') h.brk
  seg : Leads h₁.ptr bp (h.frees T') base
  upper : Gaps h.live T'
  head : ∀ y ∈ T'.head?, h.live y = true
  le : h.size bp ≤ h₁.size bp
  size : ∀ x, x ≠ bp → h₁.size x = h.size x
  ptr : ∀ x, x ≠ bp → h₁.ptr x = h.ptr x
  sub : ∀ x ∈ T', x ∈ T₂
  live : ∀ x ∈ T₂, h.live x = true → x ∈ T'

namespace Held

variable (hh : Held base start h T₁ bp T₂ p) {x : Nat}

include hh

lemma lt_bp (hx : x ∈ T₁) : x + headerSize * h.size x ≤ bp := hh.tiles.apart hx mem_cons_self

lemma bp_lt (hx : x ∈ T₂) : bp + headerSize * h.size bp ≤ x := by
  have ht := hh.tiles
  rw [← singleton_append, ← append_assoc] at ht
  exact ht.apart (mem_append_right T₁ mem_cons_self) hx

lemma start_le : start ≤ bp := (hh.tiles.mem (mem_append_right T₁ mem_cons_self)).1

lemma pos (hx : x ∈ T₁ ++ bp :: T₂) : 0 < h.size x := (hh.tiles.mem hx).2.2

lemma bp_pos : 0 < h.size bp := hh.pos (mem_append_right T₁ mem_cons_self)

lemma ne_lower (hx : x ∈ T₁) : x ≠ bp := by
  have h1 := hh.lt_bp hx
  have h2 := lt_of_unit headerSize_pos (hh.pos (mem_append_left _ hx))
  omega

lemma ne_upper (hx : x ∈ T₂) : x ≠ bp := by
  have h1 := hh.bp_lt hx
  have h2 := lt_of_unit headerSize_pos hh.bp_pos
  omega

lemma base_ne : base ≠ bp := by
  have := hh.below
  have := hh.start_le
  omega

/-- The block before `bp` in the list is `base`, or before `bp` in the heap. -/
lemma place_cases : p = base ∨ p ∈ T₁ ∧ h.live p = false := by
  rcases mem_cons.mp hh.upto.mem with e | hm
  · exact .inl e
  · exact .inr (mem_frees.mp hm)

lemma place_ne : p ≠ bp := by
  rcases hh.place_cases with rfl | ⟨hm, -⟩
  · exact hh.base_ne
  · exact hh.ne_lower hm

/-- **Joining with the block behind.**  Afterwards the block behind is in use. -/
lemma joinUpper (hseg : Leads h.ptr p (h.frees T₂) base) :
    ∃ T', Joined base start h (joinUpper h bp p) T₁ bp T₂ T' := by
  have hsplit := append.mp hh.tiles
  obtain ⟨m, ht1, rfl, hpos, ht2⟩ := hsplit
  -- the list goes on behind `bp` as it did, when there is nothing to join
  have hkeep (hne : bp + headerSize * h.size bp ≠ h.ptr p) (hlive : ∀ y ∈ T₂.head?, h.live y = true) :
      ∃ T', Joined base start h (User.joinUpper h bp p) T₁ bp T₂ T' := by
    rw [User.joinUpper, if_neg hne]
    refine ⟨T₂, hh.tiles, hseg.head (update_self ..) fun w hw => ?_, hh.upper, hlive, le_rfl,
      fun _ _ => rfl, fun x hx => update_of_ne hx .., fun _ hx => hx, fun _ hx _ => hx⟩
    exact update_of_ne (hh.ne_upper (mem_frees.mp hw).1) ..
  have hbase : base < bp + headerSize * h.size bp := by
    have := hh.below
    have := hh.start_le
    omega
  cases T₂ with
  | nil =>
    refine hkeep (fun e => ?_) fun y hy => by cases hy
    rw [show h.ptr p = base from hseg] at e
    omega
  | cons y T =>
    obtain ⟨hy, hypos, ht⟩ := ht2
    cases hlive : h.live y with
    | true =>
      refine hkeep (fun e => ?_) fun z hz => by cases hz; exact hlive
      have hfrees : h.frees (y :: T) = h.frees T := by simp [Heap.frees, hlive]
      rw [hfrees] at hseg
      cases hT : h.frees T with
      | nil =>
        rw [hT] at hseg
        rw [show h.ptr p = base from hseg] at e
        omega
      | cons z L =>
        rw [hT] at hseg
        have hz : z ∈ T := (mem_frees.mp (hT ▸ mem_cons_self : z ∈ h.frees T)).1
        have := (ht.mem hz).1
        have := lt_of_unit headerSize_pos hypos
        have := hseg.1
        omega
    | false =>
      have hfrees : h.frees (y :: T) = y :: h.frees T := by simp [Heap.frees, hlive]
      rw [hfrees] at hseg
      obtain ⟨hptr, hseg⟩ := hseg
      have hsum : (h.size bp + h.size y) % uintRange = h.size bp + h.size y := by
        refine Nat.mod_eq_of_lt ?_
        have h1 := hh.start_le
        have h2 := hh.bound
        have h3 := ht.le
        simp only [headerSize] at h2 h3 hy
        omega
      rw [User.joinUpper, hptr, if_pos hy.symm, hsum]
      have hybp : y ≠ bp := hh.ne_upper mem_cons_self
      obtain ⟨hhead, hgaps⟩ := isChain_cons.mp hh.upper
      refine ⟨T, append.mpr ⟨bp, ht1.congr fun x hx => ?_, rfl, ?_, ?_⟩,
        hseg.head (update_self ..) fun w hw => ?_, hgaps, fun z hz => ?_, ?_, fun x hx => ?_,
        fun x hx => ?_, fun x hx => mem_cons_of_mem y hx, fun x hx hl => ?_⟩
      · exact update_of_ne (hh.ne_lower hx) ..
      · simp only [update_self]
        omega
      · simp only [update_self]
        rw [Nat.mul_add, ← Nat.add_assoc, ← hy]
        exact ht.congr fun x hx => update_of_ne (hh.ne_upper (mem_cons_of_mem y hx)) ..
      · exact update_of_ne (hh.ne_upper (mem_cons_of_mem y (mem_frees.mp hw).1)) ..
      · rcases hhead z hz with hl | hl
        · rw [hlive] at hl
          cases hl
        · exact hl
      · simp only [update_self]
        omega
      · exact update_of_ne hx ..
      · exact update_of_ne hx ..
      · rcases mem_cons.mp hx with rfl | hx
        · rw [hlive] at hl
          cases hl
        · exact hx

/-- The free list behind `p` may change, when `bp` is not in it. -/
lemma upto_congr {ptr' : Nat → Nat} (e : ∀ x, x ≠ bp → x ≠ p → ptr' x = h.ptr x) :
    Upto ptr' base (h.frees T₁) p := by
  have ht := append.mp hh.tiles
  obtain ⟨m, ht1, -⟩ := ht
  have hnodup : (base :: h.frees T₁).Nodup := by
    refine nodup_cons.mpr ⟨fun hm => ?_, (ht1.nodup headerSize_pos).filter _⟩
    have := (ht1.mem (mem_frees.mp hm).1).1
    have := hh.below
    omega
  refine hh.upto.congr hnodup fun w hw hne => e w ?_ hne
  rcases mem_cons.mp hw with rfl | hw
  · exact hh.base_ne
  · exact hh.ne_lower (mem_frees.mp hw).1

/-- When `bp` begins where `p` ends, `p` is the block before it. -/
lemma place_last (hc : p + headerSize * h.size p = bp) : ∃ T0, T₁ = T0 ++ [p] := by
  rcases hh.place_cases with rfl | ⟨hm, -⟩
  · rw [hh.zero, Nat.mul_zero, Nat.add_zero] at hc
    exact absurd hc hh.base_ne
  · obtain ⟨T0, T3, rfl⟩ := append_of_mem hm
    refine ⟨T0, ?_⟩
    cases T3 with
    | nil => rfl
    | cons w T3 =>
      have hw : w ∈ T0 ++ p :: w :: T3 := by simp
      have ht := hh.tiles
      rw [show T0 ++ p :: w :: T3 ++ bp :: T₂ = (T0 ++ [p]) ++ (w :: T3 ++ bp :: T₂) by simp] at ht
      have h1 : p + headerSize * h.size p ≤ w := ht.apart (by simp) (by simp)
      have h2 := hh.lt_bp hw
      have h3 := lt_of_unit headerSize_pos (hh.pos (mem_append_left _ hw))
      omega

/-- When it does not, the block before it is in use. -/
lemma last_live (hc : p + headerSize * h.size p ≠ bp) {w : Nat} (hw : w ∈ T₁.getLast?) : h.live w = true := by
  obtain ⟨T0, rfl⟩ := getLast?_eq_some_iff.mp hw
  by_contra hl
  have hl : h.live w = false := by simpa using hl
  have hfrees : h.frees (T0 ++ [w]) = h.frees T0 ++ [w] := by simp [Heap.frees, hl]
  have hpw : p = w := by
    rcases hh.upto with ⟨e, -⟩ | ⟨l, e, -⟩
    · rw [hfrees] at e
      simp at e
    · rw [hfrees] at e
      exact (append_inj_right' e rfl |> singleton_inj.mp).symm
  have ht := hh.tiles
  rw [append_assoc, singleton_append] at ht
  obtain ⟨m, -, rfl, -, hbp, -⟩ := append.mp ht
  exact hc (by rw [hpw]; exact hbp.symm)

/-- **Putting a block back** keeps the invariant, and there is a free block that is at least as large. -/
lemma putBack (hlive : ∀ x, h.live x = true → x ∈ T₁ ++ bp :: T₂) (hseg : Leads h.ptr p (h.frees T₂) base) :
    ∃ T, Inv base start (putBack h bp p) T ∧ ∃ y ∈ (User.putBack h bp p).frees T,
      h.size bp ≤ (User.putBack h bp p).size y := by
  obtain ⟨T', hj⟩ := hh.joinUpper hseg
  have hp := hh.place_ne
  have hzero : (User.joinUpper h bp p).size base = 0 := by rw [hj.size base hh.base_ne, hh.zero]
  -- the marks of the other blocks stay
  have hmark (x : Nat) (hx : x ∈ T₁ ∨ x ∈ T') : update h.live bp false x = h.live x := by
    refine update_of_ne ?_ ..
    rcases hx with hx | hx
    · exact hh.ne_lower hx
    · exact hh.ne_upper (hj.sub x hx)
  have hin (x : Nat) (hx : update h.live bp false x = true) : x ∈ T₁ ∨ x ∈ T' := by
    have hne : x ≠ bp := fun e => by
      rw [e, update_self] at hx
      cases hx
    rw [update_of_ne hne] at hx
    rcases mem_append.mp (hlive x hx) with hm | hm
    · exact .inl hm
    · exact .inr (hj.live x ((mem_cons.mp hm).resolve_left hne) hx)
  have hfrees1 : T₁.filter (fun x => !update h.live bp false x) = h.frees T₁ :=
    frees_congr fun x hx => hmark x (.inl hx)
  have hfrees' : T'.filter (fun x => !update h.live bp false x) = h.frees T' :=
    frees_congr fun x hx => hmark x (.inr hx)
  have hlist : (T₁ ++ T').filter (fun x => !update h.live bp false x) = h.frees T₁ ++ h.frees T' := by
    rw [filter_append, hfrees1, hfrees']
  have hlower : Gaps (update h.live bp false) T₁ := hh.lower.congr fun x hx => hmark x (.inl hx)
  have hupper : Gaps (update h.live bp false) T' := hj.upper.congr fun x hx => hmark x (.inr hx)
  have hhead (y : Nat) (hy : y ∈ T'.head?) : update h.live bp false y = true := by
    rw [hmark y (.inr (mem_of_mem_head? hy))]
    exact hj.head y hy
  have htail (w : Nat) (hw : w ∈ h.frees T') : w ≠ bp ∧ w ≠ p := by
    have hm := hj.sub w (mem_frees.mp hw).1
    refine ⟨hh.ne_upper hm, ?_⟩
    have h1 := hh.bp_lt hm
    have h2 := lt_of_unit headerSize_pos hh.bp_pos
    have h3 := hh.start_le
    have h4 := hh.below
    rcases hh.place_cases with rfl | ⟨hp1, -⟩
    · omega
    · have := hh.lt_bp hp1
      omega
  by_cases hc : p + headerSize * (User.joinUpper h bp p).size p = bp
  · obtain ⟨T0, rfl⟩ := hh.place_last (hj.size p hp ▸ hc)
    rw [User.putBack, joinLower, if_pos hc]
    have ht := hj.tiles
    rw [append_assoc, singleton_append] at ht
    obtain ⟨m, ht0, rfl, hpos, -, hpos', ht'⟩ := append.mp ht
    have hsum : ((User.joinUpper h bp p).size p + (User.joinUpper h bp p).size bp) % uintRange =
        (User.joinUpper h bp p).size p + (User.joinUpper h bp p).size bp := by
      refine Nat.mod_eq_of_lt ?_
      have h1 := ht0.le
      have h2 := hh.bound
      have h3 := ht'.le
      simp only [headerSize] at h2 h3 hc
      omega
    rw [hsum]
    have hbase : base ≠ p := fun e => by
      have := ht0.le
      have := hh.below
      omega
    refine ⟨T0 ++ [p] ++ T', ⟨?_, ?_, ?_, ?_, ?_, fun x hx => mem_append.mpr (hin x hx)⟩, p, ?_, ?_⟩
    · rw [append_assoc, singleton_append]
      simp only [joinUpper_brk]
      refine append.mpr ⟨p, ht0.congr fun x hx => ?_, rfl, ?_, ?_⟩
      · refine update_of_ne ?_ ..
        have h1 := ht0.mem hx
        have h2 := lt_of_unit headerSize_pos h1.2.2
        omega
      · simp only [update_self]
        omega
      · simp only [update_self]
        rw [Nat.mul_add, ← Nat.add_assoc, hc]
        refine ht'.congr fun x hx => update_of_ne ?_ ..
        have h1 := (ht'.mem hx).1
        have h2 := lt_of_unit headerSize_pos hpos'
        omega
    · exact isChain_append.mpr ⟨hlower, hupper, fun x _ y hy => .inr (hhead y hy)⟩
    · simp only [Heap.frees]
      rw [hlist]
      refine Upto.seg (hh.upto_congr fun x hx hxp => ?_) (hj.seg.head (update_self ..) fun w hw => ?_)
      · rw [update_of_ne hxp, hj.ptr x hx]
      · exact update_of_ne (htail w hw).2 ..
    · refine ⟨p, ?_, rfl⟩
      simp only [Heap.frees]
      rw [hlist, ← cons_append]
      exact mem_append_left _ hh.upto.mem
    · simp only [update_of_ne hbase]
      exact hzero
    · simp only [Heap.frees]
      rw [hlist]
      exact mem_append_left _ ((mem_cons.mp hh.upto.mem).resolve_left hbase.symm)
    · simp only [update_self]
      have := hj.le
      omega
  · rw [User.putBack, joinLower, if_neg hc]
    have hlist' : (T₁ ++ bp :: T').filter (fun x => !update h.live bp false x) =
        h.frees T₁ ++ bp :: h.frees T' := by
      rw [filter_append, hfrees1, filter_cons_of_pos (by simp), hfrees']
    refine ⟨T₁ ++ bp :: T', ⟨?_, ?_, ?_, ?_, hzero, fun x hx => ?_⟩, bp, ?_, hj.le⟩
    · simp only [joinUpper_brk]
      exact hj.tiles
    · refine isChain_append.mpr ⟨hlower, isChain_cons.mpr ⟨fun y hy => .inr (hhead y hy), hupper⟩,
        fun x hx y _ => .inl ?_⟩
      exact (hmark x (.inl (mem_of_getLast? hx))).trans (hh.last_live (hj.size p hp ▸ hc) hx)
    · simp only [Heap.frees]
      rw [hlist']
      refine Upto.seg (hh.upto_congr fun x hx hxp => ?_) ⟨update_self .., ?_⟩
      · rw [update_of_ne hxp, hj.ptr x hx]
      · exact hj.seg.head (update_of_ne hp.symm ..) fun w hw => update_of_ne (htail w hw).2 ..
    · refine ⟨p, ?_, rfl⟩
      simp only [Heap.frees]
      rw [hlist', ← cons_append]
      exact mem_append_left _ hh.upto.mem
    · rcases hin x hx with hm | hm
      · exact mem_append_left _ hm
      · exact mem_append_right T₁ (mem_cons_of_mem bp hm)
    · simp only [Heap.frees]
      rw [hlist']
      exact mem_append_right _ mem_cons_self

end Held

/-! ### `free` and `morecore` -/

namespace Inv

variable (hi : Inv base start h T)

include hi

/-- The free blocks on both sides of a block, and the one before it in the list. -/
lemma split (hb : base < start) (hbound : h.brk < start + headerSize * uintRange) (e : T = T₁ ++ bp :: T₂) {m : List Nat}
    (hm : h.frees (bp :: T₂) = m) :
    ∃ p, Held base start h T₁ bp T₂ p ∧ Leads h.ptr p m base := by
  subst e
  have hseg := hi.seg
  rw [frees_append, hm] at hseg
  obtain ⟨p, hp, hs⟩ := hseg.upto
  obtain ⟨hlower, hupper, -⟩ := isChain_append.mp hi.gaps
  exact ⟨p, ⟨hb, hbound, hi.tiles, hlower, (isChain_cons.mp hupper).2, hp, hi.zero⟩, hs⟩

/-- **`free` of a block in use** returns, and keeps the invariant. -/
lemma free (hb : base < start) (hbound : h.brk < start + headerSize * uintRange) (hlive : h.live bp = true) :
    ∃ h', (∀ turns, T.length + 2 < turns → free turns h bp = some h') ∧ h'.brk = h.brk ∧
      h'.live = update h.live bp false ∧
      ∃ T', Inv base start h' T' ∧ ∃ y ∈ h'.frees T', h.size bp ≤ h'.size y := by
  obtain ⟨T₁, T₂, rfl⟩ := append_of_mem (hi.live bp hlive)
  have hfrees : h.frees (bp :: T₂) = h.frees T₂ := by simp [Heap.frees, hlive]
  obtain ⟨p, hh, hs⟩ := hi.split hb hbound rfl hfrees
  have ha : Around base (h.frees T₁) (h.frees T₂) bp := by
    refine ⟨?_, fun x hx => ?_, fun x hx => ?_⟩
    · have := frees_sorted hb hi.tiles
      rwa [frees_append, hfrees] at this
    · rcases mem_cons.mp hx with rfl | hx
      · exact Nat.lt_of_lt_of_le hb hh.start_le
      · have hm := (mem_frees.mp hx).1
        have h1 := hh.lt_bp hm
        have h2 := hh.ne_lower hm
        omega
    · have hm := (mem_frees.mp hx).1
      have h1 := hh.bp_lt hm
      have h2 := hh.ne_upper hm
      omega
  obtain ⟨f, hf, hfreep⟩ := hi.freep
  rw [frees_append, hfrees] at hf
  have hlen : (h.frees T₁).length + (h.frees T₂).length ≤ (T₁ ++ bp :: T₂).length := by
    have h1 := length_filter_le (fun x => !h.live x) T₁
    have h2 := length_filter_le (fun x => !h.live x) T₂
    simp only [Heap.frees, length_append, length_cons]
    omega
  refine ⟨putBack h bp p, fun turns hn => ?_, ?_, rfl, hh.putBack hi.live hs⟩
  · rw [User.free, hfreep]
    simp only
    rw [findPlace_eq ha hh.upto hs hf (by omega)]
    rfl
  · rw [putBack, joinLower]
    split
    · exact joinUpper_brk
    · exact joinUpper_brk

lemma grown (hn : 0 < n) (hb : base < start) : Inv base start (grown h n) (T ++ [h.brk]) := by
  have hle := hi.tiles.le
  have hne (x : Nat) (hx : x ∈ T) : x ≠ h.brk := by
    have h1 := hi.tiles.mem hx
    have h2 := lt_of_unit headerSize_pos h1.2.2
    omega
  have hfrees : (T ++ [h.brk]).filter (fun x => !update h.live h.brk true x) = h.frees T := by
    rw [filter_append, frees_congr fun x hx => update_of_ne (hne x hx) ..]
    simp
  refine ⟨append.mpr ⟨h.brk, ?_, rfl, ?_, ?_⟩, ?_, ?_, ?_, ?_, fun x hx => ?_⟩
  · exact hi.tiles.congr fun x hx => update_of_ne (hne x hx) ..
  · simp only [User.grown, update_self]
    exact hn
  · simp only [User.grown, update_self]
    rfl
  · refine isChain_append.mpr ⟨Gaps.congr hi.gaps fun x hx => update_of_ne (hne x hx) ..,
      isChain_singleton _, fun x _ y hy => .inr ?_⟩
    cases hy
    exact update_self ..
  · simp only [Heap.frees, User.grown]
    rw [hfrees]
    exact hi.seg
  · simp only [Heap.frees, User.grown]
    rw [hfrees]
    exact hi.freep
  · simp only [User.grown]
    rw [update_of_ne (by omega)]
    exact hi.zero
  · by_cases e : x = h.brk
    · rw [e]
      simp
    · simp only [User.grown, update_of_ne e] at hx
      exact mem_append_left _ (hi.live x hx)

end Inv

/-! ### `malloc` -/

lemma mallocLoop_skip {f q : Nat} (ok : Bool) (hl : Upto h.ptr f l q)
    (hno : ∀ y ∈ l, h.size y < n ∧ h.freep ≠ some y) (turns : Nat) :
    mallocLoop n ok (turns + l.length) h f (h.ptr f) = mallocLoop n ok turns h q (h.ptr q) := by
  induction l generalizing f with
  | nil =>
    rcases hl with ⟨-, rfl⟩ | ⟨l', e, -⟩
    · rfl
    · simp at e
  | cons y l ih =>
    obtain ⟨hf, hl⟩ := hl.of_cons
    obtain ⟨hsmall, hne⟩ := hno y mem_cons_self
    rw [length_cons, ← Nat.add_assoc, mallocLoop, hf, if_neg (Nat.not_le.mpr hsmall), if_neg hne]
    exact ih hl fun z hz => hno z (mem_cons_of_mem y hz)

/-- The first element that satisfies a decidable property. -/
lemma exists_first {α : Type} (P : α → Prop) [DecidablePred P] {l : List α} (h : ∃ y ∈ l, P y) :
    ∃ a y b, l = a ++ y :: b ∧ P y ∧ ∀ x ∈ a, ¬ P x := by
  induction l with
  | nil =>
    obtain ⟨y, hy, -⟩ := h
    cases hy
  | cons x l ih =>
    by_cases hx : P x
    · exact ⟨[], x, l, rfl, hx, fun _ hm => by cases hm⟩
    · have h' : ∃ y ∈ l, P y := by
        obtain ⟨y, hy, hp⟩ := h
        rcases mem_cons.mp hy with rfl | hy
        · exact absurd hp hx
        · exact ⟨y, hy, hp⟩
      obtain ⟨a, y, b, rfl, hp, hno⟩ := ih h'
      refine ⟨x :: a, y, b, rfl, hp, fun z hz => ?_⟩
      rcases mem_cons.mp hz with rfl | hz
      · exact hx
      · exact hno z hz

/-- What `malloc` returns: a new block of `n` units, of the memory that was free. -/
structure Returned (base start : Nat) (h h' : Heap) (n b : Nat) : Prop where
  inv : ∃ T, Inv base start h' T
  size : h'.size b = n
  fresh : h.live b = false
  live : h'.live = update h.live b true
  brk : h.brk ≤ h'.brk
  bound : h'.brk < start + headerSize * uintRange

namespace Inv

variable (hi : Inv base start h T) (hb : base < start) (hbound : h.brk < start + headerSize * uintRange)
  {f : Nat}

include hi hb hbound

/-- **Taking units of a free block.** -/
lemma take {q y : Nat} (hn : 0 < n) (hq : q ∈ base :: h.frees T) (hptr : h.ptr q = y) (hy : y ∈ h.frees T)
    (hfit : n ≤ h.size y) : ∃ b, (take h n q y).2 = b + headerSize ∧ Returned base start h (take h n q y).1 n b := by
  obtain ⟨hyT, hfree⟩ := mem_frees.mp hy
  obtain ⟨T₁, T₂, rfl⟩ := append_of_mem hyT
  have hfrees : h.frees (y :: T₂) = y :: h.frees T₂ := by simp [Heap.frees, hfree]
  obtain ⟨p, hh, hs⟩ := hi.split hb hbound rfl hfrees
  obtain ⟨hp, hs⟩ := hs
  -- the block before `y` in the list is the one the loop came from
  obtain rfl : q = p := by
    have hsorted := frees_sorted hb hi.tiles
    have hno : (h.frees (T₁ ++ y :: T₂) ++ [base]).Nodup :=
      (perm_append_singleton base _).nodup_iff.mpr (hsorted.imp fun hlt => Nat.ne_of_lt hlt)
    refine hi.seg.inj hno hq ?_ (hptr.trans hp.symm)
    rw [frees_append, ← cons_append]
    exact mem_append_left _ hh.upto.mem
  have hqy := hh.place_ne
  by_cases he : h.size y = n
  · rw [User.take, if_pos he]
    have hlist : (T₁ ++ y :: T₂).filter (fun x => !update h.live y true x) = h.frees T₁ ++ h.frees T₂ := by
      rw [filter_append, frees_congr fun x hx => update_of_ne (hh.ne_lower hx) ..,
        filter_cons_of_neg (by simp), frees_congr fun x hx => update_of_ne (hh.ne_upper hx) ..]
    refine ⟨y, rfl, ⟨T₁ ++ y :: T₂, hi.tiles, ?_, ?_, ?_, hi.zero, fun x hx => ?_⟩, he, hfree, rfl,
      le_rfl, hbound⟩
    · refine List.IsChain.imp (fun a b hab => ?_) hi.gaps
      simp only [update_apply]
      grind
    · simp only [Heap.frees]
      rw [hlist]
      refine Upto.seg (hh.upto_congr fun x _ hx => update_of_ne hx ..)
        (hs.head (update_self ..) fun w hw => update_of_ne ?_ ..)
      have hw := (mem_frees.mp hw).1
      have h1 := hh.bp_lt hw
      have h2 := lt_of_unit headerSize_pos hh.bp_pos
      have h3 := hh.start_le
      rcases hh.place_cases with rfl | ⟨hq1, -⟩
      · omega
      · have := hh.lt_bp hq1
        omega
    · refine ⟨q, ?_, rfl⟩
      simp only [Heap.frees]
      rw [hlist, ← cons_append]
      exact mem_append_left _ hh.upto.mem
    · by_cases e : x = y
      · rw [e]
        simp
      · simp only [update_of_ne e] at hx
        exact hi.live x hx
  · rw [User.take, if_neg he]
    obtain ⟨b, hbdef⟩ : ∃ b, b = y + headerSize * (h.size y - n) := ⟨_, rfl⟩
    simp only [← hbdef]
    have hend : b + headerSize * n = y + headerSize * h.size y := by
      rw [hbdef, Nat.add_assoc, ← Nat.mul_add, Nat.sub_add_cancel hfit]
    have hyb : y < b := by
      rw [hbdef]
      exact Nat.lt_add_of_pos_right (Nat.mul_pos headerSize_pos (by omega))
    have hbn : b < b + headerSize * n := Nat.lt_add_of_pos_right (Nat.mul_pos headerSize_pos hn)
    have hlow (x : Nat) (hx : x ∈ T₁) : x ≠ b := by
      have h1 := hh.lt_bp hx
      omega
    have hup (x : Nat) (hx : x ∈ T₂) : x ≠ b := by
      have h1 := hh.bp_lt hx
      omega
    have hbase : base ≠ b ∧ base ≠ y := by
      have := hh.start_le
      omega
    have hlist : (T₁ ++ y :: b :: T₂).filter (fun x => !update h.live b true x) = h.frees (T₁ ++ y :: T₂) := by
      rw [frees_append, hfrees, filter_append, frees_congr fun x hx => update_of_ne (hlow x hx) ..,
        filter_cons_of_pos (by simp [update_of_ne (Nat.ne_of_lt hyb), hfree]),
        filter_cons_of_neg (by simp), frees_congr fun x hx => update_of_ne (hup x hx) ..]
    obtain ⟨m, ht1, rfl, -, ht2⟩ := append.mp hi.tiles
    refine ⟨b, rfl, ⟨T₁ ++ y :: b :: T₂, append.mpr ⟨y, ?_, rfl, ?_, ?_, ?_, ?_⟩, ?_, ?_, ?_, ?_, fun x hx => ?_⟩,
      update_self .., ?_, rfl, le_rfl, hbound⟩
    · refine ht1.congr fun x hx => ?_
      simp only [update_of_ne (hlow x hx), update_of_ne (hh.ne_lower hx)]
    · simp only [update_of_ne (Nat.ne_of_lt hyb), update_self]
      omega
    · simp only [update_of_ne (Nat.ne_of_lt hyb), update_self]
      exact hbdef
    · simp only [update_self]
      exact hn
    · simp only [update_self, hend]
      refine ht2.congr fun x hx => ?_
      simp only [update_of_ne (hup x hx), update_of_ne (hh.ne_upper hx)]
    · have hlower : Gaps (update h.live b true) T₁ :=
        hh.lower.congr fun x hx => update_of_ne (hlow x hx) ..
      have hupper : Gaps (update h.live b true) T₂ :=
        hh.upper.congr fun x hx => update_of_ne (hup x hx) ..
      refine isChain_append.mpr ⟨hlower, isChain_cons.mpr ⟨fun z hz => .inr ?_,
        isChain_cons.mpr ⟨fun z _ => .inl (update_self ..), hupper⟩⟩, fun x hx z hz => ?_⟩
      · cases hz
        exact update_self ..
      · cases hz
        have hx' := (isChain_append.mp hi.gaps).2.2 x hx y rfl
        simp only [update_of_ne (hlow x (mem_of_getLast? hx)), update_of_ne (Nat.ne_of_lt hyb)]
        exact hx'
    · simp only [Heap.frees]
      rw [hlist]
      exact hi.seg
    · refine ⟨q, ?_, rfl⟩
      simp only [Heap.frees]
      rw [hlist]
      exact hq
    · simp only [update_of_ne hbase.1, update_of_ne hbase.2]
      exact hi.zero
    · by_cases e : x = b
      · rw [e]
        simp
      · simp only [update_of_ne e] at hx
        rcases mem_append.mp (hi.live x hx) with hm | hm
        · exact mem_append_left _ hm
        · rcases mem_cons.mp hm with rfl | hm
          · simp
          · exact mem_append_right T₁ (mem_cons_of_mem y (mem_cons_of_mem b hm))
    · by_contra hl
      rcases mem_append.mp (hi.live b (by simpa using hl)) with hm | hm
      · exact hlow b hm rfl
      · rcases mem_cons.mp hm with e | hm
        · omega
        · exact hup b hm rfl

omit hbound in
/-- The order in which the search visits the list, from `freep` around to `freep`. -/
lemma order (hf : h.freep = some f) :
    ∃ l, Leads h.ptr f l f ∧ (l ++ [f]).Perm (base :: h.frees T) ∧ (l ++ [f]).Nodup := by
  obtain ⟨f', hf', e⟩ := hi.freep
  obtain rfl : f = f' := Option.some.inj (hf.symm.trans e)
  obtain ⟨a, c, hac⟩ := append_of_mem hf'
  have hperm : (c ++ a ++ [f]).Perm (base :: h.frees T) := by
    rw [hac]
    refine (perm_append_singleton f _).trans ?_
    exact ((perm_append_comm).cons f).trans perm_middle.symm
  exact ⟨c ++ a, hi.seg.rotate hac, hperm,
    hperm.nodup_iff.mpr ((frees_sorted hb hi.tiles).imp fun hlt => Nat.ne_of_lt hlt)⟩

/-- **A search that finds a block.** -/
lemma mallocLoop_fits (ok : Bool) (hn : 0 < n) (hf : h.freep = some f) (hfit : ∃ y ∈ h.frees T, n ≤ h.size y) :
    ∃ h' b, (∀ turns, T.length + 2 < turns → mallocLoop n ok turns h f (h.ptr f) = some (h', b + headerSize)) ∧
      Returned base start h h' n b := by
  obtain ⟨ca, hrot, hperm, hnodup⟩ := hi.order hb hf
  -- the first block that is large enough, in the order of the search
  obtain ⟨y0, hy0, hfit0⟩ := hfit
  obtain ⟨l, y, r, hl, hy, hno⟩ := exists_first (fun x => n ≤ h.size x)
    ⟨y0, hperm.mem_iff.mpr (mem_cons_of_mem base hy0), hfit0⟩
  have hyfree : y ∈ h.frees T := by
    have hm : y ∈ base :: h.frees T := hperm.mem_iff.mp (by rw [hl]; simp)
    refine (mem_cons.mp hm).resolve_left fun e => ?_
    rw [e, hi.zero] at hy
    omega
  have hfno (x : Nat) (hx : x ∈ l) : h.freep ≠ some x := fun e' => by
    obtain rfl : f = x := Option.some.inj (hf.symm.trans e')
    -- `f` comes last in the order of the search
    have hlast : f ∈ (y :: r).getLast? := by
      rw [← getLast?_append_cons l y r, ← hl]
      simp
    rw [hl] at hnodup
    exact (nodup_append.mp hnodup).2.2 f hx f (mem_of_getLast? hlast) rfl
  obtain ⟨q, hq, hptr⟩ : ∃ q, Upto h.ptr f l q ∧ h.ptr q = y := by
    rcases eq_nil_or_concat r with rfl | ⟨r', f', rfl⟩
    · obtain ⟨e1, e2⟩ := append_inj' hl rfl
      rw [e1, ← append_nil l] at hrot
      obtain ⟨q, hq, hs⟩ := hrot.upto
      exact ⟨q, hq, (show h.ptr q = f from hs).trans (singleton_inj.mp e2)⟩
    · rw [concat_eq_append, ← cons_append, ← append_assoc] at hl
      rw [(append_inj' hl rfl).1] at hrot
      obtain ⟨q, hq, hs⟩ := hrot.upto
      exact ⟨q, hq, hs.1⟩
  have hqmem : q ∈ base :: h.frees T := by
    rcases mem_cons.mp hq.mem with e | hm
    · rw [e]
      exact hperm.mem_iff.mp (by simp)
    · exact hperm.mem_iff.mp (by rw [hl]; exact mem_append_left _ hm)
  obtain ⟨b, hret, hr⟩ := hi.take hb hbound hn hqmem hptr hyfree hy
  refine ⟨_, b, fun turns ht => ?_, hr⟩
  have hlen : l.length ≤ T.length := by
    have h1 := hperm.length_eq
    have h2 := length_filter_le (fun x => !h.live x) T
    rw [hl] at h1
    simp only [length_append, length_cons, Heap.frees] at h1
    omega
  have hskip := mallocLoop_skip ok hq (fun x hx => ⟨Nat.not_le.mp (hno x hx), hfno x hx⟩) (turns - l.length - 1 + 1)
  rw [show turns - l.length - 1 + 1 + l.length = turns by omega] at hskip
  rw [hskip, mallocLoop, hptr, if_pos hy, ← hret]

omit hbound in
/-- A search that finds none comes around to `freep`. -/
lemma mallocLoop_around (ok : Bool) (hn : 0 < n) (hf : h.freep = some f)
    (hno : ¬ ∃ y ∈ h.frees T, n ≤ h.size y) : h.size f < n ∧ ∃ k q, k ≤ T.length ∧
      ∀ turns, mallocLoop n ok (turns + k) h f (h.ptr f) = mallocLoop n ok turns h q f := by
  obtain ⟨l, hrot, hperm, hnodup⟩ := hi.order hb hf
  have hsmall (x : Nat) (hx : x ∈ l ++ [f]) : h.size x < n := by
    rcases mem_cons.mp (hperm.mem_iff.mp hx) with rfl | hx
    · rw [hi.zero]
      exact hn
    · by_contra hc
      exact hno ⟨x, hx, Nat.not_lt.mp hc⟩
  have hlen : l.length ≤ T.length := by
    have h1 := hperm.length_eq
    have h2 := length_filter_le (fun x => !h.live x) T
    simp only [length_append, length_cons, Heap.frees, length_nil] at h1
    omega
  rw [← append_nil l] at hrot
  obtain ⟨q, hq, hptr⟩ := hrot.upto
  refine ⟨hsmall f (by simp), l.length, q, hlen, fun turns => ?_⟩
  rw [mallocLoop_skip ok hq (fun x hx => ⟨hsmall x (mem_append_left _ hx), fun e => ?_⟩),
    show h.ptr q = f from hptr]
  exact (nodup_append.mp hnodup).2.2 x hx f mem_cons_self (Option.some.inj (e.symm.trans hf))

omit hbound in
/-- **A search that finds none** asks for more memory, once. -/
lemma mallocLoop_grows (hn : 0 < n) (hf : h.freep = some f) (hno : ¬ ∃ y ∈ h.frees T, n ≤ h.size y)
    (hroom : h.brk + headerSize * (if n < 4096 then 4096 else n) < start + headerSize * uintRange) :
    ∃ h' b N, (∀ turns, N < turns → mallocLoop n true turns h f (h.ptr f) = some (h', b + headerSize)) ∧
      Returned base start h h' n b := by
  obtain ⟨nu, hnu⟩ : ∃ nu, nu = if n < 4096 then 4096 else n := ⟨_, rfl⟩
  rw [← hnu] at hroom
  have hge : n ≤ nu := by
    rw [hnu]
    split <;> omega
  have hle := hi.tiles.le
  have hbrk : h.live h.brk = false := by
    by_contra hl
    have h1 := hi.tiles.mem (hi.live h.brk (by simpa using hl))
    have h2 := lt_of_unit headerSize_pos h1.2.2
    omega
  obtain ⟨h1, hfree, hbrk1, hlive1, T₁, hi1, y, hy, hsize⟩ :=
    (hi.grown (Nat.lt_of_lt_of_le hn hge) hb).free hb hroom (update_self ..)
  have hlive : h1.live = h.live := by
    rw [hlive1]
    simp only [User.grown, update_idem]
    exact Function.update_eq_self_iff.mpr hbrk.symm
  have hfit : n ≤ h1.size y := by
    simp only [User.grown, update_self] at hsize
    omega
  obtain ⟨f1, -, hf1⟩ := hi1.freep
  have hbound1 : h1.brk < start + headerSize * uintRange := by
    rw [hbrk1]
    exact hroom
  obtain ⟨h', b, hloop, hret⟩ := hi1.mallocLoop_fits hb hbound1 true hn hf1 ⟨y, hy, hfit⟩
  refine ⟨h', b, T.length + (T.length + T₁.length) + 10, fun turns ht => ?_, hret.inv, hret.size,
    by rw [← hlive]; exact hret.fresh, by rw [← hlive]; exact hret.live, ?_, hret.bound⟩
  · obtain ⟨hsmall, k, q, hk, haround⟩ := hi.mallocLoop_around hb true hn hf hno
    rw [show turns = turns - k - 1 + 1 + k by omega, haround, mallocLoop, if_neg (Nat.not_le.mpr hsmall), if_pos hf,
      if_pos rfl, morecore, ← hnu, hfree _ (by simp only [length_append, length_singleton]; omega)]
    simp only [hf1]
    exact hloop _ (by omega)
  · have h2 := hret.brk
    rw [hbrk1] at h2
    exact Nat.le_trans (Nat.le_add_right _ _) h2

omit hbound in
/-- A search that finds none when `sbrk` fails leaves everything as it is. -/
lemma mallocLoop_fails (hn : 0 < n) (hf : h.freep = some f) (hno : ¬ ∃ y ∈ h.frees T, n ≤ h.size y)
    (turns : Nat) (ht : T.length + 2 < turns) : mallocLoop n false turns h f (h.ptr f) = some (h, 0) := by
  obtain ⟨hsmall, k, q, hk, haround⟩ := hi.mallocLoop_around hb false hn hf hno
  rw [show turns = turns - k - 1 + 1 + k by omega, haround, mallocLoop, if_neg (Nat.not_le.mpr hsmall), if_pos hf,
    if_neg Bool.false_ne_true]

end Inv

/-! ### What the invariant says about the list -/

namespace Inv

variable (hi : Inv base start h T)

include hi

/-- Free blocks do not overlap, and are not next to each other. -/
lemma frees_apart : (h.frees T).Pairwise fun x y => x + headerSize * h.size x < y := by
  have hgaps : Gaps h.live T := hi.gaps
  have ht := hi.tiles
  clear hi
  obtain ⟨a, e⟩ : ∃ a, a = start := ⟨_, rfl⟩
  rw [← e] at ht
  clear e
  induction T generalizing a with
  | nil => exact List.Pairwise.nil
  | cons x T ih =>
    obtain ⟨hhead, hgaps⟩ := isChain_cons.mp hgaps
    obtain ⟨-, hpos, ht⟩ := ht
    have hrest := ih hgaps _ ht
    cases hx : h.live x with
    | true => rwa [Heap.frees, filter_cons_of_neg (by simp [hx])]
    | false =>
      rw [Heap.frees, filter_cons_of_pos (by simp [hx])]
      refine pairwise_cons.mpr ⟨fun y hy => ?_, hrest⟩
      obtain ⟨hy, hfree⟩ := mem_frees.mp hy
      cases T with
      | nil => cases hy
      | cons w T =>
        -- the block behind `x` is in use, and `y` is behind it
        have hw : h.live w = true := (hhead w rfl).resolve_left (by simp [hx])
        obtain ⟨hwx, hwpos, ht⟩ := ht
        rcases mem_cons.mp hy with rfl | hy
        · rw [hw] at hfree
          cases hfree
        · have h1 := (ht.mem hy).1
          have h2 := lt_of_unit headerSize_pos hwpos
          omega

/-- When no block is in use, the heap is one free block. -/
lemma all_free (hno : ∀ x, h.live x = false) :
    h.frees T = [] ∧ h.brk = start ∨ h.frees T = [start] ∧ start + headerSize * h.size start = h.brk := by
  have hfrees : h.frees T = T := filter_eq_self.mpr fun x _ => by simp [hno x]
  rw [hfrees]
  have hgaps := hi.gaps
  have ht := hi.tiles
  cases T with
  | nil => exact .inl ⟨rfl, ht.symm⟩
  | cons x T =>
    obtain ⟨rfl, -, ht⟩ := ht
    cases T with
    | nil => exact .inr ⟨rfl, ht⟩
    | cons y T =>
      have := (isChain_cons.mp hgaps).1 y rfl
      simp [hno] at this

lemma aligned (hs : headerSize ∣ start) {x : Nat} (hx : x ∈ T) : headerSize ∣ x := by
  have ht := hi.tiles
  clear hi
  obtain ⟨a, e⟩ : ∃ a, a = start := ⟨_, rfl⟩
  rw [← e] at ht hs
  clear e
  induction T generalizing a with
  | nil => cases hx
  | cons y T ih =>
    obtain ⟨rfl, -, ht⟩ := ht
    rcases mem_cons.mp hx with rfl | hx
    · exact hs
    · exact ih hx _ (Nat.dvd_add hs (Nat.dvd_mul_right _ _)) ht

end Inv

end FypOs.User
