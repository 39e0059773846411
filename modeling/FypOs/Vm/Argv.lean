import FypOs.Vm.Copy
import FypOs.Vm.Runs

/-!
# Vm — the arguments of a program

`exec` puts the strings of `argv` into the stack page from its top down, each at a multiple of 16, and the array of the
pointers to them below.

* `args_survive`: what the program finds, and that only a want of room makes `exec` fail here.
-/

namespace FypOs.Vm

open Lib Prog List

/-- The stack pointer below the strings. -/
def strTop : Nat → List (List UInt8) → Nat
  | sp, [] => sp
  | sp, arg :: args => strTop (align16 (sp - (arg.length + 1))) args

/-- Where the array goes in an image of `sz` bytes. -/
def argvSp (sz : Nat) (args : List (List UInt8)) : Nat := align16 (strTop sz args - (args.length + 1) * 8)

/-- The strings and the pointers to them; returns `argc` and the stack pointer. -/
def execArgs (sz1 : Nat) (args : List (List UInt8)) : Prog Space (Option (Nat × Nat)) := do
  match ← pushArgs (sz1 - PGSIZE) args 0 sz1 [] with
  | none => pure none
  | some (sp, ustack) =>
    let sp := align16 (sp - (ustack.length + 1) * 8)
    if sp < sz1 - PGSIZE then pure none
    else do
      if ← copyout sp ((ustack ++ [0]).flatMap le64) then pure (some (ustack.length, sp)) else pure none

/-- What is left of `exec` after that. -/
def execEnd (sz1 : Nat) : Option (Nat × Nat) → Prog Space (Option Nat)
  | none => execBad sz1
  | some _ => pure (some sz1)

lemma execStack_eq (sz1 : Nat) (args : List (List UInt8)) :
    execStack sz1 args = uvmclear (sz1 / PGSIZE - 2) >>= fun _ => execArgs sz1 args >>= execEnd sz1 := by
  rw [execStack]
  refine congrArg (Prog.bind _) (funext fun _ => ?_)
  rw [execArgs, Prog.bind_assoc]
  refine congrArg (Prog.bind _) (funext fun r => ?_)
  cases r with
  | none => rfl
  | some r =>
    obtain ⟨sp, ustack⟩ := r
    dsimp only
    rw [pushPointers]
    split
    · rfl
    · rw [Prog.bind_assoc]
      refine congrArg (Prog.bind _) (funext fun ok => ?_)
      cases ok <;> rfl

variable {O : Frame → Prop} {s s' : Space} {tr tf : Frame} {g n base top sz : Nat} {args : List (List UInt8)}
  {arg : List UInt8} {ptrs : List Nat}

/-! ### The layout -/

lemma align16_le (a : Nat) : align16 a ≤ a := Nat.sub_le ..

lemma align16_mod (a : Nat) : align16 a % 16 = 0 := by
  unfold align16
  omega

lemma strTop_le (sp : Nat) (args : List (List UInt8)) : strTop sp args ≤ sp := by
  induction args generalizing sp with
  | nil => exact Nat.le_refl sp
  | cons arg args ih => exact (ih _).trans ((align16_le _).trans (Nat.sub_le ..))

/-- The strings are in memory, with their zero bytes, one below the other from `top` down to `base`. -/
structure Strings (s : Space) (base top : Nat) (args : List (List UInt8)) (ptrs : List Nat) : Prop where
  length : ptrs.length = args.length
  placed : ∀ (k : Nat) (arg : List UInt8) (p q : Nat), args[k]? = some arg → ptrs[k]? = some p →
    (top :: ptrs)[k]? = some q → base ≤ p ∧ p % 16 = 0 ∧ p + (arg.length + 1) ≤ q ∧
      ∀ j, j < arg.length + 1 → s.user (p + j) = (arg ++ [0])[j]?

lemma Strings.cons {p : Nat} (hp : base ≤ p) (hmod : p % 16 = 0) (hle : p + (arg.length + 1) ≤ top)
    (hmem : ∀ j, j < arg.length + 1 → s.user (p + j) = (arg ++ [0])[j]?) (h : Strings s base p args ptrs) :
    Strings s base top (arg :: args) (p :: ptrs) := by
  refine ⟨congrArg (· + 1) h.length, fun k arg' p' q ha hp' hq => ?_⟩
  cases k with
  | zero =>
    cases ha
    cases hp'
    cases hq
    exact ⟨hp, hmod, hle, hmem⟩
  | succ k => exact h.placed k arg' p' q ha hp' hq

lemma Strings.congr {base' : Nat} (h : Strings s base top args ptrs) (hle : base' ≤ base)
    (hsame : ∀ a, base ≤ a → s'.user a = s.user a) : Strings s' base' top args ptrs := by
  refine ⟨h.length, fun k arg p q ha hp hq => ?_⟩
  obtain ⟨hb, hmod, hend, hmem⟩ := h.placed k arg p q ha hp hq
  refine ⟨hle.trans hb, hmod, hend, fun j hj => ?_⟩
  rw [hsame _ (hb.trans (Nat.le_add_right p j)), hmem j hj]

/-- The strings of `argv`, and at `sp` the pointers to them with a zero behind, in the last page below `sz`. -/
def Argv (s : Space) (sz : Nat) (args : List (List UInt8)) (sp : Nat) : Prop :=
  sz - PGSIZE ≤ sp ∧ sp % 16 = 0 ∧ ∃ ptrs, Strings s (sp + (args.length + 1) * 8) sz args ptrs ∧
    ∀ j, j < (args.length + 1) * 8 → s.user (sp + j) = ((ptrs ++ [0]).flatMap le64)[j]?

/-! ### Writing it -/

lemma copyout_page {a : Nat} {src : List UInt8} (h : Separate s.pt) (hpage : PGSIZE ∣ base)
    (hstack : (walkaddr s.pt (base / PGSIZE)).isSome) (hlow : base ≤ a) (htop : a + src.length ≤ base + PGSIZE) :
    wp (copyout a src) (fun ok s' => ok = true ∧ Stored s s' a src) Never s := by
  refine (copyout_stores h).post fun ok s' hs => ?_
  obtain ⟨m, -, hst, hyes, hno⟩ := hs
  cases ok with
  | true => exact ⟨rfl, by rwa [hyes rfl, take_length] at hst⟩
  | false =>
    obtain ⟨k, hk, hnone⟩ := hno rfl
    have hdiv : (a + k) / PGSIZE = base / PGSIZE := by
      unfold PGSIZE at *
      omega
    rw [hdiv] at hnone
    rw [hnone] at hstack
    cases hstack

lemma pushArgs_stores {argc sp : Nat} {ustack : List Nat} (h : Separate s.pt) (hpage : PGSIZE ∣ base) (hpos : 0 < base)
    (hstack : (walkaddr s.pt (base / PGSIZE)).isSome) (hsp : base ≤ sp) (htop : sp ≤ base + PGSIZE)
    (hmax : argc + args.length ≤ MAXARG) : wp (pushArgs base args argc sp ustack) (fun r s' => s'.pt = s.pt ∧
      (∀ a, sp ≤ a → s'.user a = s.user a) ∧
      ((r = none ∧ strTop sp args < base) ∨ base ≤ strTop sp args ∧ ∃ ptrs,
        r = some (strTop sp args, ustack ++ ptrs) ∧ Strings s' (strTop sp args) sp args ptrs)) Never s := by
  induction args generalizing argc sp ustack s with
  | nil =>
    exact ⟨rfl, fun _ _ => rfl, .inr ⟨hsp, [], by rw [append_nil]; rfl, rfl, fun k arg p q ha => (by cases ha)⟩⟩
  | cons arg args ih =>
    rw [length_cons] at hmax
    rw [pushArgs, if_neg (by omega), strTop]
    dsimp only
    generalize hp : align16 (sp - (arg.length + 1)) = p
    have hle := align16_le (sp - (arg.length + 1))
    have htp := strTop_le p args
    refine wp_ite (fun hlow => ⟨rfl, fun _ _ => rfl, .inl ⟨rfl, htp.trans_lt hlow⟩⟩) fun hlow => ?_
    have hend : p + (arg.length + 1) ≤ sp := by omega
    have hlen : (arg ++ [0]).length = arg.length + 1 := length_append
    rw [wp_bind]
    refine (copyout_page h hpage hstack (not_lt.mp hlow) (by rw [hlen]; omega)).post fun ok s1 hs1 => ?_
    obtain ⟨rfl, hst⟩ := hs1
    have huser := hst.user
    rw [hlen] at huser
    rw [if_pos rfl]
    refine (ih (hst.pt ▸ h) (hst.pt ▸ hstack) (not_lt.mp hlow) (by omega) (by omega)).post fun r s2 hs2 => ?_
    obtain ⟨hpt, hsame, hr⟩ := hs2
    refine ⟨hpt.trans hst.pt, fun a ha => ?_, ?_⟩
    · rw [hsame a (by omega), huser, if_neg (by omega)]
    · rcases hr with hr | ⟨hb, ptrs, hr, hstr⟩
      · exact .inl hr
      · refine .inr ⟨hb, p :: ptrs, ?_, hstr.cons htp (hp ▸ align16_mod _) hend fun j hj => ?_⟩
        · rw [hr, append_assoc]
          rfl
        · rw [hsame _ (Nat.le_add_right p j), huser, if_pos (by omega), Nat.add_sub_cancel_left]

lemma length_pointers (l : List Nat) : (l.flatMap le64).length = l.length * 8 := by
  induction l with
  | nil => rfl
  | cons a l ih =>
    rw [flatMap_cons, length_append, ih, length_cons, le64, length_map, length_range]
    omega

/-- **The array is written** below the strings, if there is room for both. -/
lemma execArgs_lays (h : Separate s.pt) (hpage : PGSIZE ∣ sz) (htwo : 2 ≤ sz / PGSIZE)
    (hstack : (walkaddr s.pt (sz / PGSIZE - 1)).isSome) (hmax : args.length ≤ MAXARG) :
    wp (execArgs sz args) (fun r s' => (r = none ∧ argvSp sz args < sz - PGSIZE) ∨
      sz - PGSIZE ≤ argvSp sz args ∧ r = some (args.length, argvSp sz args) ∧ Argv s' sz args (argvSp sz args))
      Never s := by
  have hbase : PGSIZE ∣ sz - PGSIZE ∧ 0 < sz - PGSIZE ∧ (sz - PGSIZE) / PGSIZE = sz / PGSIZE - 1 ∧
      sz ≤ sz - PGSIZE + PGSIZE := by
    unfold PGSIZE at *
    omega
  rw [execArgs, wp_bind]
  have hle := Nat.sub_le sz PGSIZE
  generalize hb : sz - PGSIZE = base at *
  refine (pushArgs_stores h hbase.1 hbase.2.1 (by rw [hbase.2.2.1]; exact hstack) hle
    hbase.2.2.2 (by omega)).post fun r s1 hs1 => ?_
  obtain ⟨hpt, -, ⟨rfl, hlow⟩ | ⟨-, ptrs, rfl, hstr⟩⟩ := hs1
  · exact .inl ⟨rfl, ((align16_le _).trans (Nat.sub_le ..)).trans_lt hlow⟩
  · have hlen : (ptrs ++ [0]).length = args.length + 1 := by rw [length_append, hstr.length]; rfl
    have hsp : align16 (strTop sz args - (([] ++ ptrs).length + 1) * 8) = argvSp sz args := by
      rw [nil_append, hstr.length, argvSp]
    dsimp only
    rw [hsp, nil_append]
    refine wp_ite (fun hlow => .inl ⟨rfl, hlow⟩) fun hlow => ?_
    have hal := align16_le (strTop sz args - (args.length + 1) * 8)
    have htop := strTop_le sz args
    have hfit : argvSp sz args + (args.length + 1) * 8 ≤ strTop sz args := by
      unfold argvSp at hlow ⊢
      omega
    have hwords := length_pointers (ptrs ++ [0])
    rw [hlen] at hwords
    rw [wp_bind]
    refine (copyout_page (hpt ▸ h) hbase.1 (by rw [hpt, hbase.2.2.1]; exact hstack) (not_lt.mp hlow)
      (by rw [hwords]; omega)).post fun ok s2 hs2 => ?_
    obtain ⟨rfl, hst⟩ := hs2
    have huser := hst.user
    rw [hwords] at huser
    rw [if_pos rfl]
    refine .inr ⟨not_lt.mp hlow, by rw [hstr.length], hb ▸ not_lt.mp hlow, align16_mod _, ptrs,
      hstr.congr hfit fun a ha => ?_, fun j hj => ?_⟩
    · rw [huser, if_neg (by omega)]
    · rw [huser, if_pos (by omega), Nat.add_sub_cancel_left]

/-! ### `exec` -/

lemma Spans.separate (h : Good O s) (hs : Spans tr tf g n s.pt) : Separate s.pt := by
  refine ⟨h.shape, fun u v x hu hv => ?_⟩
  have hlt := hs.lt h
  have hheld {v} (hv : walkaddr s.pt v = some x) : s.pt.held (.leaf v) = some x := by
    obtain ⟨hvn, pte, hpte, rfl⟩ := hs.of_walkaddr hv
    rw [Table.held, if_pos (hvn.trans hlt), hpte]
    rfl
  exact Place.leaf.inj (h.ledger.inj _ _ _ (hheld hu) (hheld hv))

/-- The stack of `exec`, once there is memory for it. -/
lemma execStack_lays (h : Good O s) (hs : Spans tr tf MAXPAGE (pages sz) s.pt) (hpage : PGSIZE ∣ sz)
    (htwo : 2 ≤ sz / PGSIZE) (hmax : args.length ≤ MAXARG) :
    wp (execStack sz args) (fun r s' => (r = none ↔ argvSp sz args < sz - PGSIZE) ∧ ∀ sz', r = some sz' → sz' = sz ∧
      ∃ s1 sp, execArgs sz args s1 = .ok (some (args.length, sp), s') ∧ Argv s' sz args sp) (fun _ => True) s := by
  have hpages : pages sz = sz / PGSIZE := by
    unfold pages PGSIZE at *
    omega
  obtain ⟨u, s1, hclear, h1, -, hs1⟩ := (wp_uvmclear h hs (v := sz / PGSIZE - 2) (by omega)).returns
  have hstack : (walkaddr s1.pt (sz / PGSIZE - 1)).isSome := by
    obtain ⟨pte, -, hw⟩ := hs1.walkaddr_eq h1 (v := sz / PGSIZE - 1) (by omega) (by omega)
    rw [hw]
    rfl
  obtain ⟨r, s2, hrun, hr⟩ := (execArgs_lays (hs1.separate h1) hpage htwo hstack hmax).returns
  rw [execStack_eq, wp_bind, wp, hclear]
  show wp (execArgs sz args >>= execEnd sz) _ _ s1
  rw [wp_bind, wp, hrun]
  show wp (execEnd sz r) _ _ s2
  rcases hr with ⟨rfl, hlow⟩ | ⟨hge, rfl, hargv⟩
  · exact wp_bind.mpr ((wp_any _ _).post fun _ _ _ =>
      wp_pure.mpr ⟨⟨fun _ => hlow, fun _ => rfl⟩, fun _ e => (by cases e)⟩)
  · refine wp_pure.mpr ⟨⟨fun e => (by cases e), fun hlow => absurd hge (not_le.mpr hlow)⟩, fun sz' e => ?_⟩
    cases e
    exact ⟨rfl, s1, _, hrun, hargv⟩

/-- **Arguments survive `exec`.**  If it succeeds, `argc` is the number of the strings, and the strings and the array
are in the stack page; and once the file is loaded and the stack allocated, it fails just if they do not fit. -/
theorem args_survive (s : Space) (image : Image) (args : List (List UInt8)) (h : Good O s) (hpt : s.pt = Table.empty)
    (hmax : args.length < MAXARG) : (∀ sz s', execMem tr tf image args s = .ok (some sz, s') →
      ∃ s₁ sp, execArgs sz args s₁ = .ok (some (args.length, sp), s') ∧ Argv s' sz args sp) ∧
    ∀ sz s₁, Good O s₁ → Spans tr tf MAXPAGE (pages sz) s₁.pt → PGSIZE ∣ sz → 2 ≤ sz / PGSIZE →
      ∃ r s', execStack sz args s₁ = .ok (r, s') ∧ (r = none ↔ argvSp sz args < sz - PGSIZE) := by
  have hstack (sz s₁) (h₁ : Good O s₁) (hs : Spans tr tf MAXPAGE (pages sz) s₁.pt) (hpage : PGSIZE ∣ sz)
      (htwo : 2 ≤ sz / PGSIZE) := (wp_execStack h₁ (fun _ _ => rfl) hs htwo).and
        (execStack_lays h₁ hs hpage htwo hmax.le)
  refine ⟨fun sz s' hrun => ?_, fun sz s₁ h₁ hs hpage htwo => ?_⟩
  · have hwp : wp (execMem tr tf image args) (fun r s' => ∀ sz, r = some sz →
        ∃ s₁ sp, execArgs sz args s₁ = .ok (some (args.length, sp), s') ∧ Argv s' sz args sp) Never s :=
      wp_execMem_of h hpt (fun _ _ _ e => (by cases e)) fun sz1 s₁ h₁ _ hs hpage htwo =>
        (hstack sz1 s₁ h₁ hs hpage htwo).post fun r s' hr sz e => (by
          obtain ⟨rfl, hargv⟩ := hr.2.2 sz e
          exact hargv)
    exact hwp.ok hrun sz rfl
  · obtain ⟨r, s', hrun, -, hr, -⟩ := (hstack sz s₁ h₁ hs hpage htwo).returns
    exact ⟨r, s', hrun, hr⟩

/-- A program without segments gets the arguments `a` and `bc`. -/
theorem args_survive_two : ∃ s' s₁ sp, execMem 0 1 ⟨true, []⟩ [[97], [98, 99]] ⟨someMem, .empty⟩ = .ok (some 8192, s') ∧
    execArgs 8192 [[97], [98, 99]] s₁ = .ok (some (2, sp), s') ∧ Argv s' 8192 [[97], [98, 99]] sp := by
  obtain ⟨s', hrun⟩ : ∃ s', execMem 0 1 ⟨true, []⟩ [[97], [98, 99]] ⟨someMem, .empty⟩ = .ok (some 8192, s') :=
    Outcome.returns_of_test (by decide +kernel)
  have hgood : Good (fun x => x ∉ someMem.free) ⟨someMem, .empty⟩ :=
    ⟨⟨by decide +kernel, by simp [held_empty], by simp [held_empty], by simp, by simp [held_empty],
      fun x hx hno => absurd hx hno⟩, by simp [Table.empty], by simp [Table.empty], by simp [Table.empty]⟩
  obtain ⟨s₁, sp, hargs⟩ := (args_survive _ ⟨true, []⟩ [[97], [98, 99]] hgood rfl (by decide)).1 8192 s' hrun
  exact ⟨s', s₁, sp, hrun, hargs⟩

end FypOs.Vm
