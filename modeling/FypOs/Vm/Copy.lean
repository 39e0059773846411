import FypOs.Vm.Exec

/-!
# Vm — copies between the kernel and user memory

`copyout`, `copyin` and `copyinstr` of `vm.c` with their 64-bit addresses: each loop goes through the range page by page,
by what `walkaddr` finds.

* `copyout64_eq`: no address wraps around; a page behind which it would is not one of the user's.
* `user_copies`: what the three functions return and change.
-/

namespace FypOs.Vm

open Lib Prog Function List

/-! ### The functions -/

def pgrounddown (a : UInt64) : UInt64 := a &&& ~~~ 4095

lemma toNat_pgrounddown (a : UInt64) : (pgrounddown a).toNat = a.toNat / PGSIZE * PGSIZE := by
  have hmask : ∀ i : Fin 64, (~~~ (4095 : UInt64)).toNat.testBit i = decide (12 ≤ i.val) := by decide
  rw [pgrounddown, UInt64.toNat_and, show PGSIZE = 2 ^ 12 from rfl]
  refine Nat.eq_of_testBit_eq fun i => ?_
  rw [Nat.testBit_and, Nat.testBit_mul_two_pow, Nat.testBit_div_two_pow]
  by_cases hi : i < 64
  · rw [hmask ⟨i, hi⟩]
    by_cases h12 : 12 ≤ i
    · simp [h12]
    · simp [h12]
  · have hlt : a.toNat < 2 ^ i := Nat.lt_of_lt_of_le a.toNat_lt (Nat.pow_le_pow_right (by decide) (by omega))
    have hz := Nat.testBit_lt_two_pow hlt
    rw [hz, Nat.sub_add_cancel (by omega), hz]
    simp

lemma toNat_pageOff (a : UInt64) : (a - pgrounddown a).toNat = a.toNat % PGSIZE := by
  have h := toNat_pgrounddown a
  have hle : pgrounddown a ≤ a := UInt64.le_iff_toNat_le.mpr (h ▸ Nat.div_mul_le_self ..)
  rw [UInt64.toNat_sub_of_le _ _ hle, h]
  have := Nat.div_add_mod' a.toNat PGSIZE
  omega

lemma toNat_pageRest (a : UInt64) : (4096 - (a - pgrounddown a)).toNat = PGSIZE - a.toNat % PGSIZE := by
  have hlt := Nat.mod_lt a.toNat (show PGSIZE > 0 by decide)
  have h := toNat_pageOff a
  have hle : a - pgrounddown a ≤ 4096 := UInt64.le_iff_toNat_le.mpr (by rw [h]; exact hlt.le)
  rw [UInt64.toNat_sub_of_le _ _ hle, h]
  rfl

/-- The next page, if the address is one of the first `2 ^ 38`. -/
lemma toNat_nextPage {a : UInt64} (h : a.toNat / PGSIZE < MAXPAGE) :
    (pgrounddown a + 4096).toNat = (a.toNat / PGSIZE + 1) * PGSIZE := by
  rw [UInt64.toNat_add, toNat_pgrounddown, Nat.succ_mul]
  refine Nat.mod_eq_of_lt ?_
  simp only [MAXPAGE, PGSIZE] at h ⊢
  show _ + 4096 < 2 ^ 64
  omega

/-- `copyout`; the bytes of `src` are the `len` bytes that are left. -/
def copyout64 (dstva : UInt64) (src : List UInt8) : Prog Space Bool :=
  if _h : src = [] then pure true
  else do
    match ← reads fun s => walkaddr s.pt ((pgrounddown dstva).toNat / PGSIZE) with
    | none => pure false
    | some x => do
      let n := (4096 - (dstva - pgrounddown dstva)).toNat
      modify fun s => s.fill x (memmove (s.mem.data x) (dstva - pgrounddown dstva).toNat (src.take n))
      copyout64 (pgrounddown dstva + 4096) (src.drop n)
termination_by src.length
decreasing_by
  have hlt := Nat.mod_lt dstva.toNat (show PGSIZE > 0 by decide)
  have hpos : 0 < src.length := length_pos_iff.mpr ‹_›
  rw [length_drop, toNat_pageRest]
  omega

/-- `copyin`, with what it has written to `dst`. -/
def copyin64 (srcva : UInt64) (len : Nat) : Prog Space (Bool × List UInt8) :=
  if _h : len = 0 then pure (true, [])
  else do
    match ← reads fun s => walkaddr s.pt ((pgrounddown srcva).toNat / PGSIZE) with
    | none => pure (false, [])
    | some x => do
      let n := min (4096 - (srcva - pgrounddown srcva)).toNat len
      let page ← reads fun s => s.mem.data x
      let bytes := (List.range n).map fun k => page ((srcva - pgrounddown srcva).toNat + k)
      let (ok, rest) ← copyin64 (pgrounddown srcva + 4096) (len - n)
      pure (ok, bytes ++ rest)
termination_by len
decreasing_by
  have hlt := Nat.mod_lt srcva.toNat (show PGSIZE > 0 by decide)
  rw [toNat_pageRest]
  omega

/-- The inner loop of `copyinstr`: `n` bytes from `p` on, up to a NUL. -/
def copyStr (page : Page) : Nat → Nat → List UInt8 × Bool
  | _, 0 => ([], false)
  | p, n + 1 =>
    if page p = 0 then ([0], true)
    else (page p :: (copyStr page (p + 1) n).1, (copyStr page (p + 1) n).2)

/-- `copyinstr`, with what it has written to `dst`. -/
def copyinstr64 (srcva : UInt64) (max : Nat) : Prog Space (Bool × List UInt8) :=
  if _h : max = 0 then pure (false, [])
  else do
    match ← reads fun s => walkaddr s.pt ((pgrounddown srcva).toNat / PGSIZE) with
    | none => pure (false, [])
    | some x => do
      let n := min (4096 - (srcva - pgrounddown srcva)).toNat max
      let page ← reads fun s => s.mem.data x
      let (bytes, got_null) := copyStr page (srcva - pgrounddown srcva).toNat n
      if got_null then pure (true, bytes)
      else do
        let (ok, rest) ← copyinstr64 (pgrounddown srcva + 4096) (max - n)
        pure (ok, bytes ++ rest)
termination_by max
decreasing_by
  have hlt := Nat.mod_lt srcva.toNat (show PGSIZE > 0 by decide)
  rw [toNat_pageRest]
  omega

/-! ### User memory -/

/-- The page is one of the user's. -/
def UserPage (pt : Table) (v : Nat) : Prop := v < MAXPAGE ∧ ∃ pte, pt.ptes v = some pte ∧ pte.perm.u = true

/-- The byte at a user address. -/
def Space.user (s : Space) (a : Nat) : Option UInt8 :=
  (walkaddr s.pt (a / PGSIZE)).map fun x => s.mem.data x (a % PGSIZE)

/-- Page-table pages are where they are needed, and no two pages of the user share a frame. -/
structure Separate (pt : Table) : Prop where
  shape : Shape pt
  inj : ∀ u v x, walkaddr pt u = some x → walkaddr pt v = some x → u = v

section

variable {s s₁ s' : Space} {pt : Table} {v x : Nat} {f : Frame} {a : Nat}

lemma walkaddr_isSome (h : Shape pt) : (walkaddr pt v).isSome ↔ UserPage pt v := by
  unfold walkaddr UserPage
  by_cases hv : MAXPAGE ≤ v
  · rw [if_pos hv]
    exact ⟨fun h => (by cases h), fun h => absurd h.1 (Nat.not_lt.mpr hv)⟩
  · rw [if_neg hv]
    cases hp : pt.ptes v with
    | none => simp
    | some pte =>
      have htab := h.tab v (by rw [hp]; simp)
      have hdir := h.dir _ htab
      rw [Nat.div_div_eq_div_mul, ← Nat.pow_add] at hdir
      rw [if_neg (not_isNone_or (Option.isSome_iff_ne_none.mpr hdir) (Option.isSome_iff_ne_none.mpr htab))]
      by_cases hu : pte.perm.u = true
      · simp [hu, Nat.not_le.mp hv]
      · simp [hu]

lemma lt_of_walkaddr (h : walkaddr pt v = some f) : v < MAXPAGE := by
  by_contra hv
  rw [walkaddr, if_pos (Nat.not_lt.mp hv)] at h
  cases h

/-- The bytes of `bs` have been written to user memory from `a` on, and nothing else has. -/
structure Stored (s s' : Space) (a : Nat) (bs : List UInt8) : Prop where
  pt : s'.pt = s.pt
  pages : ∀ k, k < bs.length → (walkaddr s.pt ((a + k) / PGSIZE)).isSome
  user : ∀ b, s'.user b = if a ≤ b ∧ b < a + bs.length then bs[b - a]? else s.user b
  other : ∀ f, (∀ v, walkaddr s.pt v ≠ some f) → s'.mem.data f = s.mem.data f

lemma Stored.refl (s : Space) (a : Nat) : Stored s s a [] := by
  refine ⟨rfl, fun k hk => (by cases hk), fun b => ?_, fun _ _ => rfl⟩
  rw [if_neg]
  simp only [length_nil]
  omega

lemma Stored.trans {bs cs : List UInt8} (h : Stored s s₁ a bs) (h' : Stored s₁ s' (a + bs.length) cs) :
    Stored s s' a (bs ++ cs) := by
  refine ⟨h'.pt.trans h.pt, fun k hk => ?_, fun b => ?_, fun f hf => ?_⟩
  · by_cases hlt : k < bs.length
    · exact h.pages k hlt
    · have := h'.pages (k - bs.length) (by rw [length_append] at hk; omega)
      rwa [h.pt, Nat.add_assoc, Nat.add_sub_cancel' (Nat.not_lt.mp hlt)] at this
  · rw [h'.user, h.user, length_append]
    by_cases h2 : a + bs.length ≤ b ∧ b < a + bs.length + cs.length
    · rw [if_pos h2, if_pos (by omega), getElem?_append_right (by omega)]
      congr 1
      omega
    · rw [if_neg h2]
      by_cases h1 : a ≤ b ∧ b < a + bs.length
      · rw [if_pos h1, if_pos (by omega), getElem?_append_left (by omega)]
      · rw [if_neg h1, if_neg (by omega)]
  · rw [h'.other f (by rw [h.pt]; exact hf), h.other f hf]

lemma Stored.nil {a b m : Nat} (h : Stored s s' a (List.take m [])) : Stored s s' b [] := by
  rw [take_nil] at h
  refine ⟨h.pt, fun k hk => (by cases hk), fun c => ?_, h.other⟩
  rw [h.user, if_neg, if_neg]
  · simp only [length_nil]
    omega
  · simp only [length_nil]
    omega

lemma Stored.page {bs : List UInt8} (h : Separate s.pt)
    (hw : walkaddr s.pt (a / PGSIZE) = some f) (hlen : a % PGSIZE + bs.length ≤ PGSIZE) :
    Stored s (s.fill f (memmove (s.mem.data f) (a % PGSIZE) bs)) a bs := by
  have hdm := Nat.div_add_mod' a PGSIZE
  have hpage (k : Nat) (hk : k < bs.length) : (a + k) / PGSIZE = a / PGSIZE := by
    simp only [PGSIZE] at hlen ⊢
    omega
  refine ⟨rfl, fun k hk => by rw [hpage k hk, hw]; rfl, fun b => ?_, fun f' hf' => ?_⟩
  · by_cases hb : b / PGSIZE = a / PGSIZE
    · have hbm := Nat.div_add_mod' b PGSIZE
      have hd : (s.fill f (memmove (s.mem.data f) (a % PGSIZE) bs)).user b =
          some (memmove (s.mem.data f) (a % PGSIZE) bs (b % PGSIZE)) := by
        simp only [Space.user, Space.fill, hb, hw, Option.map_some, update_self]
      have hs : s.user b = some (s.mem.data f (b % PGSIZE)) := by
        simp only [Space.user, hb, hw, Option.map_some]
      rw [hd, hs, memmove]
      by_cases hlt : b % PGSIZE < a % PGSIZE
      · rw [if_pos hlt, if_neg]
        rw [hb] at hbm
        omega
      · rw [if_neg hlt, getD_eq_getElem?_getD]
        have he : b % PGSIZE - a % PGSIZE = b - a := by
          rw [hb] at hbm
          omega
        rw [he]
        by_cases hin : a ≤ b ∧ b < a + bs.length
        · rw [if_pos hin, List.getElem?_eq_getElem (by omega)]
          rfl
        · rw [if_neg hin, List.getElem?_eq_none]
          · rfl
          · rw [hb] at hbm
            omega
    · rw [if_neg]
      · simp only [Space.user, Space.fill]
        cases hb' : walkaddr s.pt (b / PGSIZE) with
        | none => rfl
        | some f' =>
          have hne : f' ≠ f := fun e => hb (h.inj _ _ f (e ▸ hb') hw)
          simp only [Option.map_some, update_of_ne hne]
      · rintro ⟨h1, h2⟩
        refine hb ?_
        have := hpage (b - a) (by omega)
        rwa [Nat.add_sub_cancel' h1] at this
  · have hne : f' ≠ f := fun e => hf' _ (e ▸ hw)
    exact update_of_ne hne ..

/-! ### Writing -/

/-- **No wrap-around**: the loop with 64-bit addresses is the one with natural numbers. -/
lemma copyout64_eq (dstva : UInt64) (src : List UInt8) : copyout64 dstva src = copyout dstva.toNat src := by
  induction dstva, src using copyout64.induct with
  | case1 dstva => rw [copyout64, copyout, dif_pos rfl, dif_pos rfl]
  | case2 dstva src hne ih =>
    funext s
    have hdiv : (pgrounddown dstva).toNat / PGSIZE = dstva.toNat / PGSIZE := by
      rw [toNat_pgrounddown, Nat.mul_div_cancel _ (by decide)]
    rw [copyout64, copyout, dif_neg hne, dif_neg hne]
    simp only [hdiv, toNat_pageOff, toNat_pageRest]
    change Prog.bind _ _ s = Prog.bind _ _ s
    simp only [Prog.bind, Prog.reads]
    cases hw : walkaddr s.pt (dstva.toNat / PGSIZE) with
    | none => rfl
    | some f =>
      simp only [toNat_pageRest] at ih
      rw [toNat_nextPage (lt_of_walkaddr hw)] at ih
      simp only [ih]

/-- **`copyout`** writes a beginning of the bytes, all of them if every page is the user's. -/
lemma copyout_stores {dstva : Nat} {src : List UInt8} (h : Separate s.pt) :
    wp (copyout dstva src) (fun ok s' => ∃ m ≤ src.length, Stored s s' dstva (src.take m) ∧
      (ok = true → m = src.length) ∧
      (ok = false → ∃ k, k < src.length ∧ walkaddr s.pt ((dstva + k) / PGSIZE) = none)) Never s := by
  induction dstva, src using copyout.induct generalizing s with
  | case1 dstva =>
    rw [copyout, dif_pos rfl]
    exact ⟨0, Nat.le_refl 0, .refl s dstva, fun _ => rfl, fun e => by cases e⟩
  | case2 dstva src hne ih =>
    have hlen : 0 < src.length := length_pos_iff.mpr hne
    have hlt := Nat.mod_lt dstva (show PGSIZE > 0 by decide)
    rw [copyout, dif_neg hne, wp_bind, wp_reads]
    cases hw : walkaddr s.pt (dstva / PGSIZE) with
    | none => exact ⟨0, Nat.zero_le _, .refl s dstva, fun e => (by cases e), fun _ => ⟨0, hlen, hw⟩⟩
    | some f =>
      simp only [wp_bind, wp_modify]
      have hst : Stored s (s.fill f (memmove (s.mem.data f) (dstva % PGSIZE)
          (src.take (PGSIZE - dstva % PGSIZE)))) dstva (src.take (PGSIZE - dstva % PGSIZE)) := by
        refine .page h hw ?_
        rw [length_take]
        omega
      refine (ih (s := s.fill f _) h).post fun ok s2 hpost => ?_
      obtain ⟨m, hm, hst', hok, hbad⟩ := hpost
      by_cases hend : src.length ≤ PGSIZE - dstva % PGSIZE
      · -- the last page
        rw [drop_eq_nil_of_le hend] at hm hst' hok hbad
        obtain rfl : m = 0 := Nat.le_zero.mp hm
        refine ⟨src.length, le_rfl, ?_, fun _ => rfl, fun e => ?_⟩
        · have := hst.trans hst'.nil
          rw [append_nil, take_of_length_le hend] at this
          rwa [take_length]
        · obtain ⟨k, hk, -⟩ := hbad e
          cases hk
      · have hnext : (dstva / PGSIZE + 1) * PGSIZE = dstva + (PGSIZE - dstva % PGSIZE) := by
          have := Nat.div_add_mod' dstva PGSIZE
          rw [Nat.succ_mul]
          omega
        rw [length_drop] at hm hok hbad
        refine ⟨PGSIZE - dstva % PGSIZE + m, by omega, ?_, fun e => ?_, fun e => ?_⟩
        · rw [hnext] at hst'
          rw [take_add]
          refine hst.trans ?_
          rw [length_take, Nat.min_eq_left (by omega)]
          exact hst'
        · have := hok e
          omega
        · obtain ⟨k, hk, hnone⟩ := hbad e
          refine ⟨PGSIZE - dstva % PGSIZE + k, by omega, ?_⟩
          rw [hnext] at hnone
          rwa [← Nat.add_assoc]

/-! ### Reading -/

lemma user_page {a k : Nat} (hw : walkaddr s.pt (a / PGSIZE) = some f) (hk : a % PGSIZE + k < PGSIZE) :
    s.user (a + k) = some (s.mem.data f (a % PGSIZE + k)) := by
  have hdm := Nat.div_add_mod' a PGSIZE
  have hdiv : (a + k) / PGSIZE = a / PGSIZE := by
    simp only [PGSIZE] at hk ⊢
    omega
  have hmod : (a + k) % PGSIZE = a % PGSIZE + k := by
    simp only [PGSIZE] at hk ⊢
    omega
  rw [Space.user, hdiv, hmod, hw]
  rfl

lemma isSome_user (a : Nat) : (s.user a).isSome = (walkaddr s.pt (a / PGSIZE)).isSome := Option.isSome_map ..

lemma div_pgrounddown (a : UInt64) : (pgrounddown a).toNat / PGSIZE = a.toNat / PGSIZE := by
  rw [toNat_pgrounddown, Nat.mul_div_cancel _ (by decide)]

/-- The bytes of `out` are those of user memory from `a` on. -/
def Fetched (s : Space) (a : Nat) (out : List UInt8) : Prop := ∀ k, k < out.length → out[k]? = s.user (a + k)

lemma Fetched.append {out rest : List UInt8} (h : Fetched s a out) (h' : Fetched s (a + out.length) rest) :
    Fetched s a (out ++ rest) := by
  intro k hk
  by_cases hlt : k < out.length
  · rw [getElem?_append_left hlt]
    exact h k hlt
  · have hge := Nat.not_lt.mp hlt
    rw [length_append] at hk
    rw [getElem?_append_right hge, h' (k - out.length) (by omega), Nat.add_assoc, Nat.add_sub_cancel' hge]

/-- The end of the page of `a`, where another one follows. -/
lemma nextPage_eq (a : Nat) : (a / PGSIZE + 1) * PGSIZE = a + (PGSIZE - a % PGSIZE) := by
  have := Nat.div_add_mod' a PGSIZE
  have := Nat.mod_lt a (show PGSIZE > 0 by decide)
  rw [Nat.succ_mul]
  omega

/-- **`copyin`** reads a beginning of the range, all of it if every page is the user's. -/
lemma copyin_fetches (srcva : UInt64) (len : Nat) : wp (copyin64 srcva len) (fun r s' => s' = s ∧
    r.2.length ≤ len ∧ Fetched s srcva.toNat r.2 ∧ (r.1 = true → r.2.length = len) ∧
    (r.1 = false → ∃ k, k < len ∧ s.user (srcva.toNat + k) = none)) Never s := by
  induction len using Nat.strong_induction_on generalizing srcva with
  | _ len ih =>
    have hlt := Nat.mod_lt srcva.toNat (show PGSIZE > 0 by decide)
    rw [copyin64]
    by_cases hlen : len = 0
    · rw [dif_pos hlen]
      exact ⟨rfl, Nat.zero_le _, fun k hk => (by cases hk), fun _ => hlen.symm, fun e => (by cases e)⟩
    rw [dif_neg hlen, wp_bind, wp_reads]
    simp only [div_pgrounddown, toNat_pageOff, toNat_pageRest]
    cases hw : walkaddr s.pt (srcva.toNat / PGSIZE) with
    | none =>
      refine ⟨rfl, Nat.zero_le _, fun k hk => (by cases hk), fun e => (by cases e),
        fun _ => ⟨0, Nat.pos_of_ne_zero hlen, ?_⟩⟩
      rw [Nat.add_zero, Space.user, hw]
      rfl
    | some f =>
      simp only [wp_bind, wp_reads]
      obtain ⟨n, hn⟩ : ∃ n, n = min (PGSIZE - srcva.toNat % PGSIZE) len := ⟨_, rfl⟩
      rw [← hn]
      have hbytes : Fetched s srcva.toNat
          ((List.range n).map fun k => s.mem.data f (srcva.toNat % PGSIZE + k)) := by
        intro k hk
        rw [length_map, length_range] at hk
        rw [user_page hw (by omega), getElem?_map, getElem?_range hk]
        rfl
      refine (ih (len - n) (by omega) (pgrounddown srcva + 4096)).post fun r s' hr => ?_
      obtain ⟨rfl, hle, hfetched, hok, hbad⟩ := hr
      rw [toNat_nextPage (lt_of_walkaddr hw), nextPage_eq] at hfetched hbad
      -- what is left begins at the next page, if there is something left
      have hnext (hrest : len - n ≠ 0) : PGSIZE - srcva.toNat % PGSIZE = n := by omega
      refine ⟨rfl, ?_, ?_, fun e => ?_, fun e => ?_⟩
      · simp only [length_append, length_map, length_range]
        omega
      · refine hbytes.append ?_
        rw [length_map, length_range]
        by_cases hrest : len - n = 0
        · have hnil : r.2.length = 0 := by omega
          intro k hk
          omega
        · rwa [hnext hrest] at hfetched
      · have := hok e
        simp only [length_append, length_map, length_range]
        omega
      · obtain ⟨k, hk, hnone⟩ := hbad e
        rw [hnext (by omega)] at hnone
        exact ⟨n + k, by omega, by rwa [← Nat.add_assoc]⟩

/-- Up to and with a NUL, or `n` bytes without one. -/
lemma copyStr_spec (page : Page) (p n : Nat) :
    (∀ k, k < (copyStr page p n).1.length → (copyStr page p n).1[k]? = some (page (p + k))) ∧
    ((copyStr page p n).2 = true ∧ (∃ k, k < n ∧ (copyStr page p n).1.length = k + 1 ∧ page (p + k) = 0 ∧
        ∀ j, j < k → page (p + j) ≠ 0) ∨
      (copyStr page p n).2 = false ∧ (copyStr page p n).1.length = n ∧ ∀ j, j < n → page (p + j) ≠ 0) := by
  induction n generalizing p with
  | zero => exact ⟨fun k hk => (by cases hk), .inr ⟨rfl, rfl, fun j hj => (by cases hj)⟩⟩
  | succ n ih =>
    by_cases hz : page p = 0
    · rw [copyStr, if_pos hz]
      refine ⟨fun k hk => ?_, .inl ⟨rfl, 0, Nat.succ_pos n, rfl, hz, fun j hj => (by cases hj)⟩⟩
      obtain rfl : k = 0 := Nat.lt_one_iff.mp hk
      rw [Nat.add_zero, hz]
      rfl
    · rw [copyStr, if_neg hz]
      obtain ⟨hget, hend⟩ := ih (p + 1)
      have hsucc (j : Nat) : p + (j + 1) = p + 1 + j := by omega
      have hne (m : Nat) (h : ∀ j, j < m → page (p + 1 + j) ≠ 0) (j : Nat) (hj : j < m + 1) : page (p + j) ≠ 0 := by
        cases j with
        | zero => exact hz
        | succ j =>
          rw [hsucc]
          exact h j (by omega)
      refine ⟨fun k hk => ?_, hend.imp ?_ ?_⟩
      · cases k with
        | zero => rfl
        | succ k =>
          rw [getElem?_cons_succ]
          exact (hget k (Nat.lt_of_succ_lt_succ hk)).trans (congrArg (fun q => some (page q)) (hsucc k).symm)
      · rintro ⟨hgot, k, hk, hlen, hnul, hbefore⟩
        exact ⟨hgot, k + 1, by omega, by rw [length_cons, hlen], by rw [hsucc]; exact hnul, hne k hbefore⟩
      · rintro ⟨hgot, hlen, hbefore⟩
        exact ⟨hgot, by rw [length_cons, hlen], hne n hbefore⟩

/-- There is a string of `k` bytes at `a`. -/
def StringAt (s : Space) (a k : Nat) : Prop :=
  s.user (a + k) = some 0 ∧ ∀ j, j < k → ∃ c, c ≠ 0 ∧ s.user (a + j) = some c

/-- **`copyinstr`** reads a string that ends within `m` bytes. -/
lemma copyinstr_fetches (srcva : UInt64) (m : Nat) : wp (copyinstr64 srcva m) (fun r s' => s' = s ∧
    r.2.length ≤ m ∧ Fetched s srcva.toNat r.2 ∧
    (r.1 = true ∧ (∃ k, k < m ∧ StringAt s srcva.toNat k ∧ r.2.length = k + 1) ∨
      r.1 = false ∧ ∀ k, k < m → ¬ StringAt s srcva.toNat k)) Never s := by
  induction m using Nat.strong_induction_on generalizing srcva with
  | _ m ih =>
    have hlt := Nat.mod_lt srcva.toNat (show PGSIZE > 0 by decide)
    rw [copyinstr64]
    by_cases hm : m = 0
    · rw [dif_pos hm]
      exact ⟨rfl, Nat.zero_le _, fun k hk => (by cases hk), .inr ⟨rfl, fun k hk => by omega⟩⟩
    rw [dif_neg hm, wp_bind, wp_reads]
    simp only [div_pgrounddown, toNat_pageOff, toNat_pageRest]
    cases hw : walkaddr s.pt (srcva.toNat / PGSIZE) with
    | none =>
      refine ⟨rfl, Nat.zero_le _, fun k hk => (by cases hk), .inr ⟨rfl, fun k _ hstr => ?_⟩⟩
      have hnone : s.user srcva.toNat = none := by
        rw [Space.user, hw]
        rfl
      cases k with
      | zero =>
        have := hstr.1
        rw [Nat.add_zero, hnone] at this
        cases this
      | succ k =>
        obtain ⟨c, -, hc⟩ := hstr.2 0 (Nat.succ_pos k)
        rw [Nat.add_zero, hnone] at hc
        cases hc
    | some f =>
      simp only [wp_bind, wp_reads]
      obtain ⟨n, hn⟩ : ∃ n, n = min (PGSIZE - srcva.toNat % PGSIZE) m := ⟨_, rfl⟩
      rw [← hn]
      obtain ⟨hget, hend⟩ := copyStr_spec (s.mem.data f) (srcva.toNat % PGSIZE) n
      have huser (j : Nat) (hj : j < n) : s.user (srcva.toNat + j) =
          some (s.mem.data f (srcva.toNat % PGSIZE + j)) := user_page hw (by omega)
      have hbytes : (copyStr (s.mem.data f) (srcva.toNat % PGSIZE) n).1.length ≤ n →
          Fetched s srcva.toNat (copyStr (s.mem.data f) (srcva.toNat % PGSIZE) n).1 := by
        intro hle k hk
        rw [hget k hk, huser k (by omega)]
      rcases hend with ⟨hgot, k, hk, hlen, hnul, hbefore⟩ | ⟨hgot, hlen, hbefore⟩
      · rw [if_pos hgot]
        refine ⟨rfl, (show (copyStr _ _ _).1.length ≤ m by omega), hbytes (by omega), .inl ⟨rfl, k, by omega, ⟨?_, fun j hj => ?_⟩, hlen⟩⟩
        · rw [huser k hk, hnul]
        · exact ⟨_, hbefore j hj, huser j (by omega)⟩
      · rw [if_neg (by rw [hgot]; exact Bool.false_ne_true), wp_bind]
        have hnext (hrest : m - n ≠ 0) : PGSIZE - srcva.toNat % PGSIZE = n := by omega
        have hnm : n ≤ m := by omega
        refine (ih (m - n) (by omega) (pgrounddown srcva + 4096)).post fun r s' hr => ?_
        obtain ⟨rfl, hle, hfetched, hcase⟩ := hr
        rw [toNat_nextPage (lt_of_walkaddr hw), nextPage_eq] at hfetched hcase
        refine ⟨rfl, ?_, ?_, ?_⟩
        · simp only [length_append, hlen]
          exact Nat.add_le_of_le_sub' hnm hle
        · refine (hbytes hlen.le).append ?_
          rw [hlen]
          by_cases hrest : m - n = 0
          · intro k hk
            omega
          · rwa [hnext hrest] at hfetched
        · -- a string from here on ends on a later page
          rcases hcase with ⟨hok, k, hk, hstr, hl⟩ | ⟨hok, hno⟩
          · rw [hnext (by omega)] at hstr
            refine .inl ⟨hok, n + k, by omega, ⟨by rw [← Nat.add_assoc]; exact hstr.1, fun j hj => ?_⟩, ?_⟩
            · by_cases hjn : j < n
              · exact ⟨_, hbefore j hjn, huser j hjn⟩
              · obtain ⟨c, hc, hu⟩ := hstr.2 (j - n) (by omega)
                rw [Nat.add_assoc, Nat.add_sub_cancel' (Nat.not_lt.mp hjn)] at hu
                exact ⟨c, hc, hu⟩
            · simp only [length_append, hlen, hl]
              omega
          · refine .inr ⟨hok, fun k hk hstr => ?_⟩
            by_cases hkn : k < n
            · have := hstr.1
              rw [huser k hkn] at this
              exact hbefore k hkn (Option.some.inj this)
            · have hge := Nat.not_lt.mp hkn
              rw [hnext (by omega)] at hno
              refine hno (k - n) (by omega) ⟨?_, fun j hj => ?_⟩
              · rw [Nat.add_assoc, Nat.add_sub_cancel' hge]
                exact hstr.1
              · rw [Nat.add_assoc]
                exact hstr.2 (n + j) (by omega)

/-- **Copies follow the page table.**  `copyout` and `copyin` succeed if and only if each page of the range is the user's,
and then move its bytes in order; `copyout` writes at most a beginning of the range and nothing else, and what it has
written `copyin` reads back.  `copyinstr` succeeds if and only if there is a string of less than `m` bytes, of which it
writes the bytes and the NUL, and it never writes more than `m` bytes. -/
theorem user_copies (s : Space) (h : Separate s.pt) :
    (∀ dstva src, ∃ ok s' m, copyout64 dstva src s = .ok (ok, s') ∧ m ≤ src.length ∧
      (ok = true ↔ ∀ k, k < src.length → UserPage s.pt ((dstva.toNat + k) / PGSIZE)) ∧ (ok = true → m = src.length) ∧
      s'.pt = s.pt ∧
      (∀ a, s'.user a = if dstva.toNat ≤ a ∧ a < dstva.toNat + m then src[a - dstva.toNat]? else s.user a) ∧
      (∀ f, (∀ v, walkaddr s.pt v ≠ some f) → s'.mem.data f = s.mem.data f) ∧
      (ok = true → copyin64 dstva src.length s' = .ok ((true, src), s'))) ∧
    (∀ srcva len, ∃ ok out, copyin64 srcva len s = .ok ((ok, out), s) ∧
      (ok = true ↔ ∀ k, k < len → UserPage s.pt ((srcva.toNat + k) / PGSIZE)) ∧
      (ok = true → out.length = len ∧ ∀ k, k < len → out[k]? = s.user (srcva.toNat + k))) ∧
    ∀ srcva m, ∃ ok out, copyinstr64 srcva m s = .ok ((ok, out), s) ∧ out.length ≤ m ∧
      (ok = true ↔ ∃ k, k < m ∧ StringAt s srcva.toNat k) ∧
      (ok = true → ∃ k, k < m ∧ StringAt s srcva.toNat k ∧ out.length = k + 1 ∧
        ∀ j, j < k + 1 → out[j]? = s.user (srcva.toNat + j)) := by
  have hpage (t : Space) (ht : t.pt = s.pt) (a : Nat) : t.user a = none ↔ ¬ UserPage s.pt (a / PGSIZE) := by
    rw [← walkaddr_isSome h.shape, ← ht, ← isSome_user, Option.not_isSome_iff_eq_none]
  refine ⟨fun dstva src => ?_, fun srcva len => ?_, fun srcva m => ?_⟩
  · obtain ⟨ok, s', hrun, m, hm, hst, hok, hbad⟩ := (copyout_stores h).returns
    have hall (e : ok = true) (k : Nat) (hk : k < src.length) : UserPage s.pt ((dstva.toNat + k) / PGSIZE) := by
      refine (walkaddr_isSome h.shape).mp (hst.pages k ?_)
      rw [length_take, hok e, Nat.min_self]
      exact hk
    have huser (a : Nat) : s'.user a =
        if dstva.toNat ≤ a ∧ a < dstva.toNat + m then src[a - dstva.toNat]? else s.user a := by
      rw [hst.user, length_take, Nat.min_eq_left hm]
      split
      · exact getElem?_take_of_lt (by omega)
      · rfl
    refine ⟨ok, s', m, by rw [copyout64_eq]; exact hrun, hm, ⟨hall, fun hpages => ?_⟩, hok, hst.pt, huser, hst.other,
      fun e => ?_⟩
    · cases e : ok with
      | true => rfl
      | false =>
        obtain ⟨k, hk, hnone⟩ := hbad e
        have := (walkaddr_isSome h.shape).mpr (hpages k hk)
        rw [hnone] at this
        cases this
    · obtain ⟨⟨ok', out⟩, s₂, hrun', rfl, -, hfetched, hok', hbad'⟩ :=
        (copyin_fetches (s := s') dstva src.length).returns
      cases e' : ok' with
      | false =>
        obtain ⟨k, hk, hnone⟩ := hbad' e'
        exact absurd (hall e k hk) ((hpage s₂ hst.pt _).mp hnone)
      | true =>
        have hlen : out.length = src.length := hok' e'
        have hout : out = src := by
          refine ext_getElem? fun k => ?_
          by_cases hk : k < out.length
          · rw [hfetched k hk, huser, if_pos (by rw [hok e]; omega), Nat.add_sub_cancel_left]
          · rw [List.getElem?_eq_none (Nat.not_lt.mp hk), List.getElem?_eq_none (by omega)]
        rw [hrun', hout, e']
  · obtain ⟨⟨ok, out⟩, s', hrun, rfl, -, hfetched, hok, hbad⟩ := (copyin_fetches (s := s) srcva len).returns
    refine ⟨ok, out, hrun, ⟨fun e k hk => ?_, fun hall => ?_⟩, fun e => ⟨hok e, fun k hk => ?_⟩⟩
    · by_contra hno
      have := hfetched k (by rw [hok e]; exact hk)
      rw [(hpage s' rfl _).mpr hno, List.getElem?_eq_none_iff, hok e] at this
      omega
    · cases e : ok with
      | true => rfl
      | false =>
        obtain ⟨k, hk, hnone⟩ := hbad e
        exact absurd (hall k hk) ((hpage s' rfl _).mp hnone)
    · exact hfetched k (by rw [hok e]; exact hk)
  · obtain ⟨⟨ok, out⟩, s', hrun, rfl, hle, hfetched, hcase⟩ := (copyinstr_fetches (s := s) srcva m).returns
    refine ⟨ok, out, hrun, hle, ⟨fun e => ?_, fun ⟨k, hk, hstr⟩ => ?_⟩, fun e => ?_⟩
    · rcases hcase with ⟨-, k, hk, hstr, -⟩ | ⟨hno, -⟩
      · exact ⟨k, hk, hstr⟩
      · rw [e] at hno
        cases hno
    · rcases hcase with ⟨hok, -⟩ | ⟨-, hno⟩
      · exact hok
      · exact absurd hstr (hno k hk)
    · rcases hcase with ⟨-, k, hk, hstr, hlen⟩ | ⟨hno, -⟩
      · exact ⟨k, hk, hstr, hlen, fun j hj => hfetched j (hlen ▸ hj)⟩
      · rw [e] at hno
        cases hno

end

/-! ### One page -/

/-- A page table with one page of the user's. -/
def onePage : Space where
  mem := ⟨[], fun _ _ => 0, fun _ => true, 0⟩
  pt := {
    root := some 0
    dirs := fun i => if i = 0 then some 1 else none
    tabs := fun i => if i = 0 then some 2 else none
    ptes := fun v => if v = 0 then some ⟨3, ⟨true, true, false, true⟩⟩ else none }

lemma onePage_separate : Separate onePage.pt := by
  have hzero {v : Nat} {x : Frame} (h : walkaddr onePage.pt v = some x) : v = 0 := by
    by_contra hv
    have hnone : onePage.pt.ptes v = none := if_neg hv
    rw [walkaddr, hnone] at h
    split at h
    · cases h
    · split at h
      · cases h
      · cases h
  refine ⟨⟨fun v hv => ?_, fun i hi => ?_, fun i hi => ?_⟩, fun u v x hu hv => (hzero hu).trans (hzero hv).symm⟩
  · have : v = 0 := by
      by_contra h
      exact hv (if_neg h)
    subst this
    exact fun e => (by cases e)
  · have : i = 0 := by
      by_contra h
      exact hi (if_neg h)
    subst this
    exact fun e => (by cases e)
  · have : i = 0 := by
      by_contra h
      exact hi (if_neg h)
    subst this
    decide

/-- Two bytes are written, and read back; two bytes at the end of the page are not all the user's. -/
theorem user_copies_page : (∃ s', copyout64 8 [1, 2] onePage = .ok (true, s') ∧
    copyin64 8 2 s' = .ok ((true, [1, 2]), s')) ∧ ∃ s', copyout64 4095 [1, 2] onePage = .ok (false, s') := by
  have hpage : UserPage onePage.pt 0 := ⟨by decide, _, rfl, rfl⟩
  refine ⟨?_, ?_⟩
  · obtain ⟨ok, s', m, hrun, -, hok, -, -, -, -, hback⟩ := (user_copies onePage onePage_separate).1 8 [1, 2]
    obtain rfl : ok = true := hok.mpr fun k hk => by
      have : ((8 : UInt64).toNat + k) / PGSIZE = 0 := Nat.div_eq_of_lt (by
        have h8 : (8 : UInt64).toNat = 8 := rfl
        simp only [PGSIZE, length_cons, length_nil] at hk ⊢
        omega)
      rw [this]
      exact hpage
    exact ⟨s', hrun, hback rfl⟩
  · obtain ⟨ok, s', m, hrun, -, hok, -⟩ := (user_copies onePage onePage_separate).1 4095 [1, 2]
    cases e : ok with
    | false => exact ⟨s', e ▸ hrun⟩
    | true =>
      obtain ⟨-, pte, hpte, -⟩ := hok.mp e 1 (by decide)
      cases hpte

end FypOs.Vm
