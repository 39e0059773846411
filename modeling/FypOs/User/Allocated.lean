import FypOs.User.Malloc

/-!
# User — runs of the allocator

Sequences of calls of `malloc` and `free`, from the first one on.

* `heap_represented`: in every run the functions return, and the heap is represented.
* `size_wraps`: with `2 ^ 32` units or more, the size of a block that is put together does not fit in a `uint`.
-/

namespace FypOs.User

open Lib Function List

variable {base start : Nat} {h h' : Heap} {T : List Nat} {bp p n : Nat} {t t' q : Nat}
  {nbytes : Nat} {e : Event}

/-! ### More turns -/

lemma findPlace_mono (ht : t ≤ t') (hq : findPlace t h bp p = some q) : findPlace t' h bp p = some q := by
  induction t generalizing t' p with
  | zero => cases hq
  | succ t ih =>
    obtain ⟨t', rfl⟩ := Nat.exists_eq_add_of_le' (Nat.lt_of_lt_of_le (Nat.succ_pos t) ht)
    rw [findPlace] at hq ⊢
    split at hq
    · rw [if_pos ‹_›]
      exact hq
    · rw [if_neg ‹_›]
      exact ih (by omega) hq

lemma free_mono {t t' : Nat} (ht : t ≤ t') (hq : free t h bp = some h') : free t' h bp = some h' := by
  rw [free] at hq ⊢
  cases hf : h.freep with
  | none =>
    rw [hf] at hq
    cases hq
  | some f =>
    rw [hf] at hq
    simp only at hq ⊢
    obtain ⟨q, hplace, e⟩ := Option.map_eq_some_iff.mp hq
    rw [findPlace_mono ht hplace, ← e]
    rfl

variable {ok : Bool} {r : Heap × Nat}

lemma mallocLoop_mono (ht : t ≤ t')
    (hq : mallocLoop n ok t h q p = some r) : mallocLoop n ok t' h q p = some r := by
  induction t generalizing t' h q p with
  | zero => cases hq
  | succ t ih =>
    obtain ⟨t', rfl⟩ := Nat.exists_eq_add_of_le' (Nat.lt_of_lt_of_le (Nat.succ_pos t) ht)
    rw [mallocLoop] at hq ⊢
    by_cases hfit : n ≤ h.size p
    · rw [if_pos hfit] at hq ⊢
      exact hq
    rw [if_neg hfit] at hq ⊢
    by_cases hf : h.freep = some p
    · rw [if_pos hf] at hq ⊢
      cases ok with
      | false => exact hq
      | true =>
        simp only [if_true] at hq ⊢
        cases hm : morecore t h n with
        | none =>
          rw [hm] at hq
          cases hq
        | some h1 =>
          rw [show morecore t' h n = some h1 from free_mono (by omega) hm]
          rw [hm] at hq
          simp only at hq ⊢
          cases hf1 : h1.freep with
          | none =>
            rw [hf1] at hq
            cases hq
          | some f1 =>
            rw [hf1] at hq
            exact ih (by omega) hq
    · rw [if_neg hf] at hq ⊢
      exact ih (by omega) hq

lemma malloc_mono {nbytes t t' : Nat} (ht : t ≤ t')
    (hq : malloc base t h nbytes ok = some r) : malloc base t' h nbytes ok = some r := by
  rw [malloc] at hq ⊢
  cases hf : (initialized base h).freep with
  | none =>
    rw [hf] at hq
    cases hq
  | some f =>
    rw [hf] at hq
    exact mallocLoop_mono ht hq

/-! ### Runs -/

inductive Event where
  | malloc (nbytes : Nat) (ok : Bool) (turns : Nat)
  | free (ap : Nat) (turns : Nat)

def step (base : Nat) (h : Heap) : Event → Outcome Heap
  | .malloc nbytes ok turns =>
    match malloc base turns h nbytes ok with
    | some (h', _) => .ok h'
    | none => .blocked
  | .free ap turns =>
    match free turns h (ap - headerSize) with
    | some h' => .ok h'
    | none => .blocked

/-- The calls: requests are not too large, and only blocks in use are freed. -/
def Called (h : Heap) : Event → Prop
  | .malloc nbytes _ _ => nbytes < 2 ^ 31 - 2 ^ 16
  | .free ap _ => headerSize ≤ ap ∧ h.live (ap - headerSize) = true

/-- `sbrk` fails before the heap has as many units as there are values of a `uint`. -/
def Roomy (start : Nat) (h : Heap) : Event → Prop
  | .malloc nbytes ok _ => ok = true →
      h.brk + headerSize * (if nunitsOf nbytes < 4096 then 4096 else nunitsOf nbytes) < start + headerSize * uintRange
  | .free _ _ => True

/-- Before the first call. -/
def Untouched (start : Nat) (h : Heap) : Prop := h.freep = none ∧ h.brk = start ∧ ∀ x, h.live x = false

/-- **The representation of the heap**: a circular list through `base` in the order of the addresses, of blocks that
are apart and not next to each other; these and the blocks in use are a partition of the heap. -/
structure Represented (base start : Nat) (h : Heap) (L : List Nat) : Prop where
  linked : Leads h.ptr base L base
  sorted : (base :: L).Pairwise (· < ·)
  freep : ∃ f ∈ base :: L, h.freep = some f
  apart : L.Pairwise fun x y => x + headerSize * h.size x < y
  disjoint : ∀ x ∈ L, h.live x = false
  cover : ∀ a, start ≤ a → a < h.brk → ∃! x, (x ∈ L ∨ h.live x = true) ∧ x ≤ a ∧ a < x + headerSize * h.size x
  inside : ∀ x, x ∈ L ∨ h.live x = true → start ≤ x ∧ x + headerSize * h.size x ≤ h.brk ∧ 0 < h.size x
  single : (∀ x, h.live x = false) → L = [] ∧ h.brk = start ∨ L = [start] ∧ start + headerSize * h.size start = h.brk

lemma Inv.represented (hi : Inv base start h T) (hb : base < start) : Represented base start h (h.frees T) := by
  have hmem (x : Nat) : x ∈ h.frees T ∨ h.live x = true ↔ x ∈ T := by
    rw [mem_frees]
    have := hi.live x
    cases hl : h.live x <;> simp [hl] at this ⊢
    exact this
  refine ⟨hi.seg, frees_sorted hb hi.tiles, hi.freep, hi.frees_apart, fun x hx => (mem_frees.mp hx).2,
    fun a h1 h2 => ?_, fun x hx => hi.tiles.mem ((hmem x).mp hx), hi.all_free⟩
  simp only [hmem]
  exact hi.tiles.cover ⟨h1, h2⟩

/-- The states that runs lead to. -/
def Good (base start : Nat) (h : Heap) : Prop :=
  h.brk < start + headerSize * uintRange ∧ (Untouched start h ∨ ∃ T, Inv base start h T)

lemma nunitsOf_spec (hn : nbytes < uintRange) :
    0 < nunitsOf nbytes ∧ nbytes + headerSize ≤ headerSize * nunitsOf nbytes := by
  simp only [nunitsOf, headerSize, uintRange] at hn ⊢
  omega

section

variable (hg : Good base start h)

include hg

lemma Good.initialized : (initialized base h).brk = h.brk ∧ (User.initialized base h).live = h.live ∧
      ∃ T, Inv base start (User.initialized base h) T := by
  obtain ⟨-, ⟨hf, hbrk, hlive⟩ | ⟨T, hi⟩⟩ := hg
  · rw [User.initialized, hf]
    refine ⟨rfl, rfl, [], hbrk.symm, List.IsChain.nil, update_self .., ⟨base, mem_cons_self, rfl⟩,
      update_self .., fun x hx => ?_⟩
    rw [hlive x] at hx
    cases hx
  · obtain ⟨f, -, hf⟩ := hi.freep
    rw [User.initialized, hf]
    exact ⟨rfl, rfl, T, hi⟩

/-- **`malloc` returns**, a new block or nothing. -/
lemma Good.malloc (hb : base < start) (hn : nbytes < uintRange) (hroom : Roomy start h (.malloc nbytes ok 0)) :
    ∃ h' ap N, (∀ turns, N < turns → malloc base turns h nbytes ok = some (h', ap)) ∧ Good base start h' ∧
      ((ap = 0 ∧ ok = false) ∧ h'.brk = h.brk ∨ ∃ b, ap = b + headerSize ∧ Returned base start h h' (nunitsOf nbytes) b) := by
  obtain ⟨hbrk, hlive, T, hi⟩ := hg.initialized
  obtain ⟨f, -, hf⟩ := hi.freep
  have hpos := (nunitsOf_spec hn).1
  have hbound : (User.initialized base h).brk < start + headerSize * uintRange := hbrk ▸ hg.1
  have hret {h' : Heap} {b : Nat} (hr : Returned base start (User.initialized base h) h' (nunitsOf nbytes) b) :
      Returned base start h h' (nunitsOf nbytes) b :=
    ⟨hr.inv, hr.size, hlive ▸ hr.fresh, hlive ▸ hr.live, hbrk ▸ hr.brk, hr.bound⟩
  simp only [User.malloc, hf]
  by_cases hfit : ∃ y ∈ (User.initialized base h).frees T, nunitsOf nbytes ≤ (User.initialized base h).size y
  · obtain ⟨h', b, hloop, hr⟩ := hi.mallocLoop_fits hb hbound ok hpos hf hfit
    exact ⟨h', b + headerSize, _, hloop, ⟨hr.bound, .inr hr.inv⟩, .inr ⟨b, rfl, hret hr⟩⟩
  · cases ok with
    | false =>
      exact ⟨_, 0, _, hi.mallocLoop_fails hb hpos hf hfit, ⟨hbound, .inr ⟨T, hi⟩⟩, .inl ⟨⟨rfl, rfl⟩, hbrk⟩⟩
    | true =>
      obtain ⟨h', b, N, hloop, hr⟩ := hi.mallocLoop_grows hb hpos hf hfit (hbrk ▸ hroom rfl)
      exact ⟨h', b + headerSize, N, hloop, ⟨hr.bound, .inr hr.inv⟩, .inr ⟨b, rfl, hret hr⟩⟩

/-- **`free` returns.** -/
lemma Good.free {b : Nat} (hb : base < start) (hlive : h.live b = true) :
    ∃ h' N, (∀ turns, N < turns → free turns h b = some h') ∧ Good base start h' := by
  obtain ⟨hbound, ⟨-, -, hno⟩ | ⟨T, hi⟩⟩ := hg
  · rw [hno b] at hlive
    cases hlive
  · obtain ⟨h', hfree, hbrk, -, T', hi', -⟩ := hi.free hb hbound hlive
    exact ⟨h', _, hfree, hbrk ▸ hbound, .inr ⟨T', hi'⟩⟩

lemma Good.step (hb : base < start) (hc : Called h e) (hr : Roomy start h e)
    (hs : step base h e = .ok h') : Good base start h' := by
  cases e with
  | malloc nbytes ok turns =>
    obtain ⟨h1, ap, N, hall, hgood, -⟩ := hg.malloc hb (Nat.lt_trans hc (by decide)) hr
    simp only [User.step] at hs
    cases hm : User.malloc base turns h nbytes ok with
    | none =>
      rw [hm] at hs
      cases hs
    | some r =>
      have h2 := malloc_mono (Nat.le_add_right turns (N + 1)) hm
      rw [hall _ (by omega)] at h2
      cases h2
      rw [hm] at hs
      cases hs
      exact hgood
  | free ap turns =>
    obtain ⟨h1, N, hall, hgood⟩ := hg.free hb hc.2
    simp only [User.step] at hs
    cases hm : User.free turns h (ap - headerSize) with
    | none =>
      rw [hm] at hs
      cases hs
    | some r =>
      have h2 := free_mono (Nat.le_add_right turns (N + 1)) hm
      rw [hall _ (by omega)] at h2
      cases h2
      rw [hm] at hs
      cases hs
      exact hgood

end

/-- **The heap is represented.**  In every run of `malloc` and `free` on blocks in use, with a heap of less than
`2 ^ 32` units: the free list and the blocks in use are as `Represented` says; `malloc` and `free` return; and what
`malloc` returns is aligned, has room for the bytes asked for, and overlaps no other block in use. -/
theorem heap_represented {h₀ : Heap} (hb : base + headerSize ≤ start) (hs : headerSize ∣ start)
    (h₀u : Untouched start h₀) (hr : Reach (step base) (fun h e => Called h e ∧ Roomy start h e) h₀ h) :
    (Untouched start h ∨ ∃ L, Represented base start h L) ∧
    (∀ nbytes ok, nbytes < 2 ^ 31 - 2 ^ 16 → Roomy start h (.malloc nbytes ok 0) →
      ∃ h' ap N, (∀ turns, N < turns → malloc base turns h nbytes ok = some (h', ap)) ∧
        (ap = 0 ∧ ok = false ∨ ∃ b, ap = b + headerSize ∧ headerSize ∣ ap ∧
          ap + nbytes ≤ b + headerSize * h'.size b ∧ h.live b = false ∧ h'.live = Function.update h.live b true ∧
          ∀ x, h.live x = true → x + headerSize * h'.size x ≤ b ∨ b + headerSize * h'.size b ≤ x)) ∧
    (∀ b, h.live b = true → ∃ h' N, ∀ turns, N < turns → free turns h b = some h') := by
  have hb' : base < start := by
    have := headerSize_pos
    omega
  have hg : Good base start h := by
    refine hr.invariant (I := Good base start) ⟨?_, .inl h₀u⟩ fun hg hd hs => hg.step hb' hd.1 hd.2 hs
    rw [h₀u.2.1]
    exact Nat.lt_add_of_pos_right (by decide)
  refine ⟨hg.2.imp_right fun hT => ?_, fun nbytes ok hn hroom => ?_, fun b hl => ?_⟩
  · obtain ⟨T, hi⟩ := hT
    exact ⟨_, hi.represented hb'⟩
  · obtain ⟨h', ap, N, hall, -, hret⟩ := hg.malloc hb' (hn.trans (by decide)) hroom
    refine ⟨h', ap, N, hall, hret.imp And.left fun hret => ?_⟩
    obtain ⟨b, rfl, hr⟩ := hret
    obtain ⟨T, hi⟩ := hr.inv
    have hlive (x : Nat) (hx : h.live x = true ∨ x = b) : x ∈ T := by
      refine hi.live x ?_
      rw [hr.live]
      rcases hx with hx | rfl
      · by_cases e : x = b
        · rw [e, update_self]
        · rwa [update_of_ne e]
      · exact update_self ..
    have hbT := hlive b (.inr rfl)
    refine ⟨b, rfl, Nat.dvd_add (hi.aligned hs hbT) (Nat.dvd_refl _), ?_, hr.fresh, hr.live, fun x hx => ?_⟩
    · rw [hr.size]
      have := (nunitsOf_spec (hn.trans (by decide))).2
      omega
    · obtain ⟨T₁, T₂, rfl⟩ := append_of_mem hbT
      rcases mem_append.mp (hlive x (.inl hx)) with hm | hm
      · exact .inl (hi.tiles.apart hm mem_cons_self)
      · rcases mem_cons.mp hm with rfl | hm
        · rw [hr.fresh] at hx
          cases hx
        · have ht := hi.tiles
          rw [← singleton_append, ← append_assoc] at ht
          exact .inr (ht.apart (mem_append_right T₁ mem_cons_self) hm)
  · obtain ⟨h', N, hall, -⟩ := hg.free hb' hl
    exact ⟨h', N, hall⟩

instance (h : Heap) (e : Event) : Decidable (Called h e) :=
  match e with
  | .malloc nbytes _ _ => inferInstanceAs (Decidable (nbytes < 2 ^ 31 - 2 ^ 16))
  | .free _ _ => inferInstanceAs (Decidable (_ ∧ _))

instance (start : Nat) (h : Heap) (e : Event) : Decidable (Roomy start h e) :=
  match e with
  | .malloc _ _ _ => inferInstanceAs (Decidable (_ → _))
  | .free _ _ => inferInstanceAs (Decidable True)

def untouched (start : Nat) : Heap := ⟨fun _ => 0, fun _ => 0, none, start, fun _ => false⟩

/-- Two blocks are allocated, and the first is freed. -/
def sampleRun : List Event := [.malloc 100 true 9, .malloc 10 true 9, .free 65440 9]

theorem heap_represented_sample : ∃ h, Reach (step 0) (fun h e => Called h e ∧ Roomy 16 h e) (untouched 16) h ∧
    h.live 65392 = true ∧ h.live 65424 = false ∧ ∃ L, Represented 0 16 h L := by
  obtain ⟨h, hr, ht⟩ := Reach.of_runTest (show runTest (step 0) (fun h e => Called h e ∧ Roomy 16 h e) (untouched 16)
    sampleRun (fun h => h.live 65392 && !h.live 65424) = true by decide +kernel)
  rw [Bool.and_eq_true, Bool.not_eq_true'] at ht
  have hbelow : 0 + headerSize ≤ 16 := by decide
  have haligned : headerSize ∣ 16 := by decide
  have hstart : Untouched 16 (untouched 16) := ⟨rfl, rfl, fun _ => rfl⟩
  refine ⟨h, hr, ht.1, ht.2, (heap_represented hbelow haligned hstart hr).1.resolve_left fun hu => ?_⟩
  rw [hu.2.2] at ht
  cases ht.1

/-! ### Large heaps -/

lemma free_live {turns x : Nat} (hf : free turns h bp = some h') (hx : h'.live x = true) :
    h.live x = true ∧ x ≠ bp := by
  rw [free] at hf
  cases hp : h.freep with
  | none =>
    rw [hp] at hf
    cases hf
  | some f =>
    rw [hp] at hf
    obtain ⟨q, -, rfl⟩ := Option.map_eq_some_iff.mp hf
    have hne : x ≠ bp := fun e => by
      simp only [putBack, e, update_self] at hx
      cases hx
    simp only [putBack, update_of_ne hne] at hx
    exact ⟨hx, hne⟩

lemma take_live {q y x : Nat} (hx : (take h n q y).1.live x = true) :
    h.live x = true ∨ x + headerSize = (take h n q y).2 := by
  simp only [take] at hx ⊢
  split at hx
  · rw [if_pos ‹_›]
    simp only [update_apply] at hx ⊢
    grind
  · rw [if_neg ‹_›]
    simp only [update_apply] at hx ⊢
    grind

/-- `malloc` marks no block but the one it returns. -/
lemma mallocLoop_live {turns q x : Nat} (hm : mallocLoop n ok turns h q p = some r)
    (hx : r.1.live x = true) : h.live x = true ∨ x + headerSize = r.2 := by
  induction turns generalizing h q p with
  | zero => cases hm
  | succ turns ih =>
    rw [mallocLoop] at hm
    split at hm
    · cases hm
      exact take_live hx
    split at hm
    · split at hm
      · cases hc : morecore turns h n with
        | none =>
          rw [hc] at hm
          cases hm
        | some h1 =>
          rw [hc] at hm
          simp only at hm
          cases hf : h1.freep with
          | none =>
            rw [hf] at hm
            cases hm
          | some f =>
            rw [hf] at hm
            refine (ih hm).imp_left fun hl => ?_
            obtain ⟨hl, hne⟩ := free_live hc hl
            simpa only [grown, update_of_ne hne] using hl
      · cases hm
        exact .inl hx
    · exact ih hm

/-- A heap, and a list of its blocks in use. -/
def stepListed (base : Nat) (s : Heap × List Nat) : Event → Outcome (Heap × List Nat)
  | .malloc nbytes ok turns =>
    match malloc base turns s.1 nbytes ok with
    | some (h', ap) => .ok (h', (ap - headerSize) :: s.2)
    | none => .blocked
  | .free ap turns =>
    match free turns s.1 (ap - headerSize) with
    | some h' => .ok (h', s.2.filter (· != ap - headerSize))
    | none => .blocked

lemma malloc_live {nbytes turns ap x : Nat} (hm : malloc base turns h nbytes ok = some (h', ap))
    (hx : h'.live x = true) : h.live x = true ∨ x = ap - headerSize := by
  have hlive : (initialized base h).live = h.live := by
    rw [initialized]
    split <;> rfl
  rw [malloc] at hm
  split at hm
  · cases hm
  · rcases mallocLoop_live hm hx with hl | e
    · exact .inl (hlive ▸ hl)
    · exact .inr (by omega)

/-- The list has all blocks in use. -/
def Listed (s : Heap × List Nat) : Prop := ∀ x, s.1.live x = true → x ∈ s.2

lemma Listed.step {s s' : Heap × List Nat} (hl : Listed s) (hs : stepListed base s e = .ok s') :
    Listed s' ∧ step base s.1 e = .ok s'.1 := by
  cases e with
  | malloc nbytes ok turns =>
    simp only [stepListed, User.step] at hs ⊢
    cases hm : malloc base turns s.1 nbytes ok with
    | none =>
      rw [hm] at hs
      cases hs
    | some r =>
      rw [hm] at hs
      cases hs
      refine ⟨fun x hx => ?_, rfl⟩
      rcases malloc_live hm hx with h1 | e
      · exact mem_cons_of_mem _ (hl x h1)
      · exact e ▸ mem_cons_self
  | free ap turns =>
    simp only [stepListed, User.step] at hs ⊢
    cases hm : free turns s.1 (ap - headerSize) with
    | none =>
      rw [hm] at hs
      cases hs
    | some r =>
      rw [hm] at hs
      cases hs
      refine ⟨fun x hx => ?_, rfl⟩
      obtain ⟨h1, hne⟩ := free_live hm hx
      exact mem_filter.mpr ⟨hl x h1, by simpa using hne⟩

lemma Listed.reach {s0 s : Heap × List Nat} (h0 : Listed s0)
    (hr : Reach (stepListed base) (fun s e => Called s.1 e) s0 s) :
    Listed s ∧ Reach (User.step base) Called s0.1 s.1 := by
  induction hr with
  | refl => exact ⟨h0, .refl⟩
  | tail _ hd hs ih => exact ⟨(ih.1.step hs).1, .tail ih.2 hd (ih.1.step hs).2⟩

/-- Requests of the largest size, one after the other, all of which are then freed. -/
def largeRun : List Event :=
  (List.range 33).map (fun _ => .malloc 2147418111 true 5) ++
    (List.range 33).map fun i => .free (32 + 2147418128 * i) 5

/-- When the heap has more than `2 ^ 32` units, the size of a free block wraps around, and memory is lost. -/
theorem size_wraps : ∃ h, Reach (step 0) Called (untouched 16) h ∧ (∀ x, h.live x = false) ∧
    ¬ Untouched 16 h ∧ ¬ ∃ L, Represented 0 16 h L := by
  obtain ⟨s, hr, ht⟩ := Reach.of_runTest (show runTest (stepListed 0) (fun s e => Called s.1 e) (untouched 16, [])
    largeRun (fun s => s.2.isEmpty && s.1.brk != 16 && s.1.brk != 16 + headerSize * s.1.size 16) = true by
      decide +kernel)
  obtain ⟨hl, hreach⟩ := Listed.reach (fun x hx => by cases hx) hr
  simp only [Bool.and_eq_true, List.isEmpty_iff, bne_iff_ne] at ht
  obtain ⟨⟨hnil, hbrk⟩, hsize⟩ := ht
  have hno (x : Nat) : s.1.live x = false := by
    by_contra hx
    have := hl x (by simpa using hx)
    rw [hnil] at this
    cases this
  refine ⟨s.1, hreach, hno, fun hu => hbrk hu.2.1, fun hL => ?_⟩
  obtain ⟨L, hL⟩ := hL
  rcases hL.single hno with ⟨-, e⟩ | ⟨-, e⟩
  · exact hbrk e
  · exact hsize e.symm

end FypOs.User
