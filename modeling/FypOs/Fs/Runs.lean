import FypOs.Fs.Boot
import FypOs.Fs.Forest
import FypOs.Fs.Perform

/-!
# Fs — runs of system calls

Processes make system calls, one after the other.  As long as no call adds an entry to a directory
without links, renames `..` or makes a link count overflow, the directories stay a tree and the link
counts exact.

* `Ordered`: the invariant of these runs, and `Ordered.step`.
* `directories_well_formed`, `link_counts_exact`, `no_inode_leaked`, `link_counter`.
-/

namespace FypOs.Fs

open Lib Prog List Fs.Tree TreeOp UInt8

/-! ### The tree of a state -/

lemma tree_bounded (s : State) : s.tree.Bounded s.sb.ninodes := by
  intro n hn
  rw [State.tree] at hn
  split at hn
  · rename_i hl
    exact ⟨hl.1, hl.2.1⟩
  · exact absurd rfl hn

lemma Tree.Bounded.frees {T T' : Tree} {N : Nat} (h : T.Bounded N) (hf : T.Frees T') : T'.Bounded N := by
  intro n hn
  exact h n (hf.eq_of_type hn ▸ hn)

section

variable {T T' : Tree} {N n m : Nat} {op : TreeOp}

/-- An inode that is in use stays what it is. -/
lemma apply_type (hop : op.Enabled T) (hm : (T m).type ≠ 0) : (op.apply T m).type = (T m).type := by
  have hset {T : Tree} {a : Nat} {nd : Node} (h : m = a → nd.type = (T a).type) :
      (T.set a nd m).type = (T m).type := by
    by_cases e : m = a
    · subst e
      rw [set_self, h rfl]
    · rw [T.set_of_ne _ e]
  have hslot {T : Tree} {a k : Nat} {x : Dirent} : (T.setSlot a k x m).type = (T m).type := hset fun _ => rfl
  have hnlink {T : Tree} {a : Nat} {k : Int16} : (T.setNlink a k m).type = (T m).type := hset fun _ => rfl
  have hfree {a : Nat} (h : T a = .free) : m ≠ a := by
    rintro rfl
    rw [h] at hm
    exact hm rfl
  cases op with
  | idle => rfl
  | spare a nd => exact hset fun e => absurd e (hfree hop.1)
  | create d k a x type =>
    simp only [apply]
    split
    · rw [hnlink, hslot]
      exact hset fun e => absurd e (hfree hop.1)
    · rw [hslot]
      exact hset fun e => absurd e (hfree hop.1)
  | link d k a x => exact hslot.trans hnlink
  | unlink d k a x =>
    simp only [apply]
    split
    · rw [hnlink, hnlink, hslot]
    · rw [hnlink, hslot]
  | rename d k k' a old new => exact hslot.trans hslot

/-- A count that goes up from a positive one is not 0. -/
lemma add_one_ne_zero {a : Int16} (h : 1 ≤ a) (hmax : a < 32767) : a + 1 ≠ 0 := by
  intro e
  have hup := toInt_add_one hmax
  have hpos := one_le_iff_toInt.mp h
  rw [e] at hup
  exact absurd hup (by rw [show (0 : Int16).toInt = 0 from rfl]; omega)

/-- An inode without links has lost them by the change, or had none before. -/
lemma apply_nlink (h : T.WellFormed N) (hN : T.Bounded N) (hop : op.Enabled T) (hs : op.Sane T)
    (hz : (op.apply T m).nlink = 0) : op.dropped = some m ∨ op.apply T m = T m := by
  cases op with
  | idle => exact .inr rfl
  | spare a nd =>
    by_cases e : m = a
    · exact .inl (congrArg some e.symm)
    · exact .inr (T.set_of_ne _ e)
  | create d k a x type =>
    obtain ⟨hfree, -, -, hroom⟩ := hop
    have hne : a ≠ d := by
      rintro rfl
      have := hroom.dir
      rw [hfree] at this
      exact absurd this (by decide)
    by_cases e : m = a
    · subst e
      by_cases ht : type = T_DIR <;>
        simp [apply, Tree.setSlot, Tree.setNlink, Tree.set, ht, hne] at hz
    · by_cases e' : m = d
      · subst e'
        by_cases ht : type = T_DIR
        · simp [apply, Tree.setSlot, Tree.setNlink, Tree.set, ht, hne.symm] at hz
          exact absurd hz (add_one_ne_zero hs.1 (hs.2 ht))
        · simp [apply, Tree.setSlot, Tree.set, ht, hne.symm] at hz
          exact absurd hs.1 (by rw [hz]; decide)
      · right
        by_cases ht : type = T_DIR <;>
          simp [apply, Tree.setSlot, Tree.setNlink, Tree.set, ht, e, e']
  | link d k a x =>
    obtain ⟨htype, hdir, hroom⟩ := hop
    have hne : a ≠ d := fun e => hdir (e ▸ hroom.dir)
    by_cases e : m = a
    · subst e
      simp [apply, Tree.setSlot, Tree.setNlink, Tree.set, hne] at hz
      have hup := toInt_add_one hs.2
      rw [hz] at hup
      have hex := h.exact m
      exact absurd hup (by rw [show (0 : Int16).toInt = 0 from rfl]; omega)
    · by_cases e' : m = d
      · subst e'
        simp [apply, Tree.setSlot, Tree.setNlink, Tree.set, hne.symm] at hz
        exact absurd hs.1 (by rw [hz]; decide)
      · right
        simp [apply, Tree.setSlot, Tree.setNlink, Tree.set, e, e']
  | unlink d k a x =>
    obtain ⟨hnames, hne, hdot, hdotdot, hpos, hempty⟩ := hop
    by_cases e : m = a
    · exact .inl (congrArg some e.symm)
    · have hu : Used (T d).slots k a x := ⟨hnames.entry, (hN a hnames.node).1.ne'⟩
      have hd : (T d).Dir := h.dir_of_used hnames.dir hu (.inl hne) hdotdot
      by_cases e' : m = d
      · subst e'
        by_cases ht : (T a).type = T_DIR
        · simp [apply, Tree.setSlot, Tree.setNlink, Tree.set, ht, e] at hz
          have htwo := h.two_le_of_empty ⟨hd, hu⟩ ⟨hdot, hdotdot⟩ ⟨ht, hpos⟩ (hempty ht)
          have hsub := toInt_sub_one hd.2
          rw [hz] at hsub
          have hex := h.exact m
          exact absurd hsub (by rw [show (0 : Int16).toInt = 0 from rfl]; omega)
        · simp [apply, Tree.setSlot, Tree.setNlink, Tree.set, ht, e] at hz
          exact absurd hz hd.nlink_ne
      · right
        by_cases ht : (T a).type = T_DIR <;>
          simp [apply, Tree.setSlot, Tree.setNlink, Tree.set, ht, e, e']
  | rename d k k' a old new =>
    obtain ⟨hroom, hnames, hne⟩ := hop
    by_cases e : m = d
    · subst e
      have hu : Used (T m).slots k' a old := ⟨hnames.entry, (hN a hnames.node).1.ne'⟩
      have hd : (T m).Dir := h.dir_of_used hnames.dir hu (.inl hne) hs
      simp [apply, Tree.setSlot, Tree.set] at hz
      exact absurd hz hd.nlink_ne
    · right
      simp [apply, Tree.setSlot, Tree.set, e]

end

/-! ### Between the calls -/

section

variable {P : Type} [DecidableEq P] [Fintype P] {p q : P} {a : Hold} {t t' : Sys P} {N : Nat}
  {e : P × SysCall P}

lemma hold_add_task (t : Sys P) (p : P) :
    t.hold p + (t.tasks p).hold = ∑ f, (t.ftable f).hold + ∑ q, (t.tasks q).hold := by
  rw [Sys.hold, add_assoc, Finset.sum_erase_add _ _ (Finset.mem_univ p)]

/-- What is held in all does not depend on who is running. -/
lemma Good.of_task (h : Good p (t.tasks p).hold t) (q : P) : Good q (t.tasks q).hold t where
  covers := by
    rw [hold_add_task, ← hold_add_task t p]
    exact h.covers
  idle := h.idle
  files := h.files

lemma Good.switch (h : Good p a t) (q : P) : Good p a (t.switch q) where
  covers := ⟨h.covers.sound.sched _, h.covers.ref⟩
  idle := h.idle
  files f hf := ⟨(h.files f hf).held, (h.files f hf).file⟩

/-- A process makes a call. -/
def callStep (t : Sys P) (e : P × SysCall P) : Outcome (Sys P) :=
  (e.2.perform e.1 (t.switch e.1)).map Prod.snd

/-- The process is in use, what the call learns is so, and what it may do to the tree is sane. -/
structure Careful (t : Sys P) (e : P × SysCall P) : Prop where
  used : (t.tasks e.1).used = true
  fits : e.2.Fits t
  sane : ∀ op T, e.2.request.Allows t.fs.tree (t.fs.itable (t.tasks e.1).proc.cwd).inum op →
    t.fs.tree.Frees T → op.Enabled T → op.Sane T

/-- The system between two calls. -/
structure Ordered (N : Nat) (t : Sys P) : Prop where
  sound : Sound t.fs
  good : ∀ p, Good p (t.tasks p).hold t
  ninodes : t.fs.sb.ninodes = N
  small : N ≤ 2 ^ 16
  shape : t.fs.tree.WellFormed N

/-- Inodes without links are in the table. -/
def Moored (s : State) : Prop := ∀ n, (s.tree n).nlink = 0 → Anchored s n

section

variable (h : Ordered N t)

include h

lemma Ordered.served (he : Careful t e)
    (hs : callStep t e = .ok t') : Served e.1 (t.switch e.1) t' e.2.request := by
  obtain ⟨p, c⟩ := e
  obtain ⟨x, hx, rfl⟩ := Outcome.map_eq_ok hs
  have hfits : c.Fits (t.switch p) := by
    have := he.fits
    cases c <;> exact this
  exact (perform_good c hfits rfl he.used ((h.good p).switch p)).ok hx

/-- What a careful call has done to the tree. -/
lemma Ordered.performed (he : Careful t e) (hs : callStep t e = .ok t') : ∃ op T,
      e.2.request.Allows t.fs.tree (t.fs.itable (t.tasks e.1).proc.cwd).inum op ∧ t.fs.tree.Frees T ∧
      T.WellFormed N ∧ T.Bounded N ∧ op.Enabled T ∧ op.Sane T ∧ (op.apply T).Frees t'.fs.tree ∧
      (op.apply T).WellFormed N ∧
      ∀ n, op.dropped = some n → (t'.fs.tree n).nlink = 0 → Anchored t'.fs n := by
  have hserved := h.served he hs
  obtain ⟨op, hallows, ⟨T, hT, hen, hfrees⟩, hanch⟩ :=
    hserved.serves.meets (h.ninodes.le.trans h.small)
  have hsane := he.sane op T hallows hT hen
  have hbound : t.fs.tree.Bounded N := h.ninodes ▸ tree_bounded t.fs
  have hbound' : t'.fs.tree.Bounded N := by
    have := tree_bounded t'.fs
    rw [hserved.sb] at this
    exact h.ninodes ▸ this
  have hwf := h.shape.frees hT
  refine ⟨op, T, hallows, hT, hwf, hbound.frees hT, hen, hsane, hfrees, ?_, hanch⟩
  refine hwf.apply (hbound.frees hT) hen hsane ?_
  rintro d k n x type rfl
  obtain ⟨hfree, -, htype, hroom⟩ := hen
  have hne : n ≠ d := by
    rintro rfl
    have := hroom.dir
    rw [hfree] at this
    exact absurd this (by decide)
  -- the new inode has a link, so that it is still there
  have hn : apply T (.create d k n x type) n = ⟨type, 1, firstSlots type d n⟩ := by
    by_cases ht : type = T_DIR <;>
      simp [apply, Tree.setSlot, Tree.setNlink, Tree.set, ht, hne]
  have heq := hfrees.eq_of_nlink (n := n) (by rw [hn]; exact (by decide : (1 : Int16) ≠ 0))
  exact (hbound' n (by rw [heq, hn]; exact htype)).2

/-- **A careful call** leaves the system in order. -/
lemma Ordered.step (he : Careful t e) (hs : callStep t e = .ok t') : Ordered N t' := by
  have hserved := h.served he hs
  obtain ⟨op, T, -, -, -, -, -, -, hfrees, hwf, -⟩ := h.performed he hs
  have hsb := congrArg Superblock.ninodes hserved.sb
  exact ⟨hserved.good.covers.sound, fun q => hserved.good.of_task q, hsb.trans h.ninodes, h.small,
    hwf.frees hfrees⟩

/-- **A careful call** leaves no inode behind. -/
lemma Ordered.moored (hm : Moored t.fs) (he : Careful t e) (hs : callStep t e = .ok t') : Moored t'.fs := by
  have hserved := h.served he hs
  obtain ⟨op, T, -, hT, hwf, hbound, hen, hsane, hfrees, -, hanch⟩ := h.performed he hs
  intro n hz
  rcases hfrees n with heq | ⟨-, hfree⟩
  · rcases apply_nlink hwf hbound hen hsane (heq ▸ hz) with hdrop | hsame
    · exact hanch n hdrop hz
    · rw [hsame] at heq
      rcases hT n with hTn | ⟨-, hTn⟩
      · rw [heq, hTn] at hz
        rcases hm n hz with hfree | hin
        · exact .inl (by rw [heq, hTn, hfree])
        · exact hserved.serves.moored n hin (by rw [heq, hTn, hz])
      · exact .inl (heq.trans hTn)
  · exact .inl hfree

lemma Ordered.run (hr : Reach callStep Careful t t') : Ordered N t' :=
  hr.invariant h fun hi he hs => hi.step he hs

end

end

/-! ### A small system -/

lemma boot_dir (d : Nat) : (bootFs.tree d).Dir ↔ d = 1 := by
  rw [boot_tree]
  split
  · exact iff_of_true ⟨rfl, Int16.le_refl 1⟩ ‹_›
  · exact iff_of_false (not_dir_of_nlink rfl) ‹_›

lemma boot_lists (d k n : Nat) (x : List UInt8) : bootFs.tree.Lists d k n x ↔
    d = 1 ∧ n = 1 ∧ (k = 0 ∧ x = nameStr dot ∨ k = 1 ∧ x = nameStr dotdot) := by
  rw [Tree.Lists, boot_dir]
  by_cases hd : d = 1
  · subst hd
    rw [boot_tree, if_pos rfl, Used]
    rcases k with _ | _ | k
    · simp; grind
    · simp; grind
    · simp
  · simp [hd]

lemma boot_wellFormed : bootFs.tree.WellFormed 8 := by
  refine ⟨fun n hn => ?_, ?_, fun n => ?_, fun d ht hz => ?_⟩
  · rw [boot_tree, if_neg (by omega)]
    rfl
  · have hproper {d k n x} (h : bootFs.tree.Lists d k n x) : ¬ conventions.Proper x := by
      obtain ⟨-, -, ⟨-, rfl⟩ | ⟨-, rfl⟩⟩ := (boot_lists ..).mp h
      · exact fun hx => hx.1 rfl
      · exact fun hx => hx.2 rfl
    refine ⟨fun h => h.1, fun h1 h2 => ?_, fun h1 h2 => ?_, (boot_dir 1).mpr rfl,
      (boot_lists ..).mpr ⟨rfl, rfl, .inr ⟨rfl, rfl⟩⟩, fun hd => ?_, fun hd hne => ?_,
      fun h hx => absurd hx (hproper h), fun h hx => absurd hx (hproper h),
      ⟨fun _ => 0, fun d p h hne => ?_⟩⟩
    · obtain ⟨-, rfl, h1⟩ := (boot_lists ..).mp h1
      obtain ⟨-, rfl, h2⟩ := (boot_lists ..).mp h2
      grind
    · obtain ⟨-, -, h1⟩ := (boot_lists ..).mp h1
      obtain ⟨-, -, h2⟩ := (boot_lists ..).mp h2
      have : nameStr dot ≠ nameStr dotdot := by decide
      grind
    · obtain rfl := (boot_dir _).mp hd
      exact (boot_lists ..).mpr ⟨rfl, rfl, .inl ⟨rfl, rfl⟩⟩
    · exact absurd ((boot_dir _).mp hd) hne
    · exact absurd ((boot_lists ..).mp h).1 hne
  · by_cases hn : n = 1
    · subst hn
      decide +kernel
    · have hzero : bootFs.tree.links 8 n = 0 := by
        refine Finset.sum_eq_zero fun d _ => ?_
        by_cases hd : (bootFs.tree d).Dir
        · rw [refers_of_dir hd]
          refine refersIn_eq_zero fun k x hu => absurd ((boot_lists d k n x).mp ⟨hd, hu⟩).2.1 hn
        · exact refers_of_not_dir hd n
      rw [hzero, boot_tree, if_neg hn]
      rfl
  · rw [boot_tree] at ht hz
    split at ht
    · rw [if_pos ‹_›] at hz
      exact absurd hz (by decide)
    · exact absurd ht (by decide)

lemma boot_ordered : Ordered 8 boot := by
  refine ⟨boot_sound, fun p => ⟨⟨boot_sound, ?_⟩, fun _ _ => rfl, fun f hf => ?_⟩, rfl, by decide,
    boot_wellFormed⟩
  · rw [hold_add_task]
    decide +kernel
  · exact absurd hf.1 (lt_irrefl (0 : Int))

lemma boot_careful : Careful boot (0, .mkdir (some [97])) := by
  refine ⟨rfl, trivial, fun op T hallows hT hen => ?_⟩
  have hreq : (SysCall.mkdir (P := Fin 2) (some [97])).request = .make [97] T_DIR := by rfl
  rw [hreq] at hallows
  cases op with
  | idle | spare => trivial
  | create d k n x type =>
    obtain ⟨-, nm, hwalk, -⟩ := hallows
    have hroot : (bootFs.tree.walk 1 [97] true).map Prod.fst = some 1 := by decide +kernel
    change bootFs.tree.walk 1 [97] true = some (d, nm) at hwalk
    rw [hwalk] at hroot
    obtain rfl : d = 1 := Option.some.inj hroot
    have hone : (bootFs.tree 1).nlink = 1 := by rw [boot_tree, if_pos rfl]
    have hTone : T 1 = bootFs.tree 1 :=
      hT.eq_of_nlink (by rw [show boot.fs = bootFs from rfl, hone]; decide)
    rw [TreeOp.Sane, hTone, hone]
    exact ⟨by decide, fun _ => by decide⟩
  | link | unlink | rename => exact hallows.elim

lemma boot_mkdir : ∃ t', callStep boot (0, .mkdir (some [97])) = .ok t' ∧ (t'.fs.tree 2).Dir := by
  have htest : (callStep boot (0, .mkdir (some [97]))).test (fun t' => (t'.fs.tree 2).Dir) = true := by
    decide +kernel
  obtain ⟨t', hs, hd⟩ := Outcome.of_test htest
  exact ⟨t', hs, of_decide_eq_true hd⟩

/-! ### Directories -/

variable {P : Type} [DecidableEq P] [Fintype P] {p q : P} {a : Hold} {t t' : Sys P} {N : Nat}
  {path : Option (List UInt8)}

omit [DecidableEq P] [Fintype P] in
lemma careful_unlink (hused : (t.tasks p).used = true) : Careful t (p, .unlink path) := by
  refine ⟨hused, trivial, fun op T hallows _ _ => ?_⟩
  simp only [SysCall.request] at hallows
  cases harg : argstr path MAXPATH with
  | none =>
    rw [harg] at hallows
    cases op with
    | idle => trivial
    | _ => exact hallows.elim
  | some path =>
    rw [harg] at hallows
    cases op with
    | idle | unlink => trivial
    | _ => exact hallows.elim

/-- A directory that loses its last link by `unlink` was empty. -/
lemma Ordered.unlinked {n : Nat} (h : Ordered N t)
    (hused : (t.tasks p).used = true) (hs : callStep t (p, .unlink path) = .ok t') (hn : (t.fs.tree n).Dir)
    (hn' : ¬ (t'.fs.tree n).Dir) : EmptyDir (t.fs.tree n).slots := by
  obtain ⟨op, T, hallows, hT, hwf, hbound, hen, hsane, hfrees, hwf', -⟩ :=
    h.performed (careful_unlink hused) hs
  have hTn : T n = t.fs.tree n := hT.eq_of_nlink hn.nlink_ne
  have htype : (op.apply T n).type = T_DIR := by
    rw [apply_type hen (by rw [hTn, hn.1]; decide), hTn, hn.1]
  have hz : (op.apply T n).nlink = 0 := by
    by_contra hne
    rw [hfrees.eq_of_nlink hne] at hn'
    exact hn' ⟨htype, hwf'.pos_of_ne_zero hne⟩
  rcases apply_nlink hwf hbound hen hsane hz with hdrop | hsame
  · cases op with
    | unlink d k a x =>
      obtain rfl := Option.some.inj hdrop
      rw [← hTn]
      exact hen.2.2.2.2.2 (by rw [hTn, hn.1])
    | spare a nd =>
      simp only [SysCall.request] at hallows
      cases harg : argstr path MAXPATH with
      | none | some path => rw [harg] at hallows; exact hallows.elim
    | _ => cases hdrop
  · rw [hsame, hTn] at hz
    exact absurd hz hn.nlink_ne

/-- **Directories stay well formed.**  Whatever careful calls do: a directory that has links, other than
the root, has `.` as its first entry and `..` as its second one, which leads to the directory that it is
named in; no name occurs twice in a directory; and `unlink` removes a directory only if there is nothing
else in it. -/
theorem directories_well_formed {t₀ : Sys P} (h₀ : Ordered N t₀) (hr : Reach callStep Careful t₀ t) :
    (∀ d, (t.fs.tree d).Dir → d ≠ ROOTINO → Used (t.fs.tree d).slots 0 d (nameStr dot) ∧
      ∃ d' k x, Used (t.fs.tree d).slots 1 d' (nameStr dotdot) ∧ t.fs.tree.Lists d' k d x ∧
        x ≠ nameStr dot ∧ x ≠ nameStr dotdot) ∧
    (∀ d k k' n n' x, t.fs.tree.Lists d k n x → t.fs.tree.Lists d k' n' x → k = k') ∧
    (∀ p path t', (t.tasks p).used = true → callStep t (p, .unlink path) = .ok t' →
      ∀ n, (t.fs.tree n).Dir → ¬ (t'.fs.tree n).Dir → ∀ k m x, Used (t.fs.tree n).slots k m x →
        x = nameStr dot ∨ x = nameStr dotdot) := by
  have h := h₀.run hr
  refine ⟨fun d hd hroot => ?_, fun d k k' n n' x h₁ h₂ => h.shape.forest.distinct h₁ h₂,
    fun p path t' hused hs n hn hn' k m x hu => ?_⟩
  · obtain ⟨d', k, x, hup, hl, hx⟩ := h.shape.forest.parent hd hroot
    exact ⟨(h.shape.forest.dot hd).2, d', k, x, hup.2, hl, hx⟩
  · have hproper := h.shape.not_proper_of_empty (h.unlinked hused hs hn hn') ⟨hn, hu⟩
    by_contra hno
    exact hproper (not_or.mp hno)

theorem directories_well_formed_mkdir : ∃ t', Reach callStep Careful boot t' ∧ (t'.fs.tree 2).Dir ∧
    Used (t'.fs.tree 2).slots 0 2 (nameStr dot) := by
  obtain ⟨t', hs, hd⟩ := boot_mkdir
  have hr := Reach.tail .refl boot_careful hs
  exact ⟨t', hr, hd, ((directories_well_formed boot_ordered hr).1 2 hd (by decide)).1⟩

/-- The second entry of a directory gets another name. -/
theorem rename_dotdot : ∃ t', performAll [(0, .mkdir (some [97])),
      (0, .rename (some [97, 47, 46, 46]) (some [120]))] boot = .ok ([0, 0], t') ∧
    (t'.fs.tree 2).Dir ∧ ∀ d, ¬ Used (t'.fs.tree 2).slots 1 d (nameStr dotdot) := by
  obtain ⟨t', hrun, hd, hslot⟩ : ∃ t', performAll [(0, .mkdir (some [97])),
      (0, .rename (some [97, 47, 46, 46]) (some [120]))] boot = .ok ([0, 0], t') ∧
      (t'.fs.tree 2).Dir ∧ (t'.fs.tree 2).slots[1]?.map Prod.fst = some 0 := Outcome.ok_of_test (by decide +kernel)
  refine ⟨t', hrun, hd, fun d hu => hu.2 ?_⟩
  rw [hu.1] at hslot
  exact Option.some.inj hslot

/-! ### Links -/

/-- What an entry names has links, so that `unlink` finds no inode without links. -/
lemma Tree.WellFormed.not_stray {T : Tree} (h : T.WellFormed N) (hN : T.Bounded N) : ¬ Stray T := by
  rintro ⟨T1, d, k, n, x, hT, hnames, hdot, hdotdot, hlt⟩
  have h1 := h.frees hT
  have hu : Used (T1 d).slots k n x := ⟨hnames.entry, (hN.frees hT n hnames.node).1.ne'⟩
  have hd := h1.dir_of_used hnames.dir hu (.inr hdot) hdotdot
  exact absurd (h1.nlink_pos ⟨hd, hu⟩) (Int16.not_le.mpr hlt)

lemma Tree.WellFormed.listed {T : Tree} {n : Nat} (h : T.WellFormed N) (hn : (T n).nlink ≠ 0) :
    ∃ d k x, T.Lists d k n x := by
  have hpos := one_le_iff_toInt.mp (h.pos_of_ne_zero hn)
  rw [h.exact n] at hpos
  obtain ⟨d, -, hd⟩ : ∃ d ∈ Finset.range N, (T d).refers n ≠ 0 := by
    by_contra hno
    have hzero : T.links N n = 0 := Finset.sum_eq_zero fun d hd => by
      by_contra hne
      exact hno ⟨d, hd, hne⟩
    omega
  have hdir : (T d).Dir := by
    by_contra hno
    exact hd (refers_of_not_dir hno n)
  rw [refers_of_dir hdir] at hd
  by_contra hno
  refine hd (refersIn_eq_zero fun k x hu => ?_)
  exact absurd ⟨d, k, x, hdir, hu⟩ hno

lemma iput_frees_iff {s s' : State} {i : Fin NINODE} (h : Consistent s) (hr : 0 < (s.itable i).ref)
    (hl : Live s.sb (s.itable i).inum (s.dinode (s.itable i).inum)) (hs : iput i s = .ok ((), s')) :
    ¬ Live s'.sb (s.itable i).inum (s'.dinode (s.itable i).inum) ↔
      (s.itable i).ref = 1 ∧ (s.itable i).valid = true ∧ (s.itable i).d.nlink = 0 := by
  have hput : Put s s' i := (iput_spec (E := fun _ => True) h hr trivial).ok hs
  have hfreed := hput.freed
  constructor
  · intro hno
    by_contra hc
    rw [if_neg hc] at hfreed
    refine hno ?_
    rw [hput.sb, dinode_congr hput.sb hfreed]
    exact hl
  · intro hc
    rwa [if_pos hc] at hfreed

/-- **Link counts are exact.**  From a system in order, every careful call leads to one in order, in which
the link count of each inode is the number of entries that refer to it; and `iput` frees an inode if it has
no links, and this was its last reference, and only then. -/
theorem link_counts_exact {e : P × SysCall P} (h : Ordered N t) (he : Careful t e) (hs : callStep t e = .ok t') :
    Ordered N t' ∧ (∀ n, (t'.fs.tree n).nlink.toInt = t'.fs.tree.links N n) ∧
    ∀ i s', 0 < (t'.fs.itable i).ref → Live t'.fs.sb (t'.fs.itable i).inum (t'.fs.dinode (t'.fs.itable i).inum) →
      iput i t'.fs = .ok ((), s') →
      (¬ Live s'.sb (t'.fs.itable i).inum (s'.dinode (t'.fs.itable i).inum) ↔
        (t'.fs.itable i).ref = 1 ∧ (t'.fs.itable i).valid = true ∧ (t'.fs.itable i).d.nlink = 0) := by
  have h' := h.step he hs
  exact ⟨h', h'.shape.exact, fun i s' hr hl hput =>
    iput_frees_iff h'.sound.consistent hr hl hput⟩

/-- A directory has been made. -/
theorem link_counts_exact_mkdir : ∃ t', callStep boot (0, .mkdir (some [97])) = .ok t' ∧
    (t'.fs.tree 2).Dir ∧ (t'.fs.tree 2).nlink.toInt = t'.fs.tree.links 8 2 := by
  obtain ⟨t', hs, hd⟩ := boot_mkdir
  exact ⟨t', hs, hd, (link_counts_exact boot_ordered boot_careful hs).2.1 2⟩

/-- Two directories `a` and `b` in the root, and `..` in `a` is `b`. -/
def crooked : Sys (Fin 2) where
  fs := { bootFs with
    blocks := fun b =>
      if b = 2 then putDinode (putDinode (putDinode (fun _ => 0)
        1 { bootRoot with nlink := 2, size := 64 })
        2 { bootRoot with addrs := fun k => if k = 0 then 5 else 0 })
        3 { bootRoot with nlink := 2, addrs := fun k => if k = 0 then 6 else 0 }
      else if b = 3 then putLE 1 0 127 fun _ => 0
      else if b = 4 then fun j =>
        if j < 16 then mkDirent dot 1 j else if j < 32 then mkDirent dotdot 1 (j - 16)
        else if j < 48 then mkDirent (cstr [97]) 2 (j - 32) else mkDirent (cstr [98]) 3 (j - 48)
      else if b = 5 then fun j => if j < 16 then mkDirent dot 2 j else mkDirent dotdot 3 (j - 16)
      else if b = 6 then fun j => if j < 16 then mkDirent dot 3 j else mkDirent dotdot 1 (j - 16)
      else fun _ => 0
    itable := fun i => if i = 0 then ⟨ROOTDEV, 1, 2, none, true, { bootRoot with nlink := 2, size := 64 }⟩
      else ⟨0, 0, 0, none, false, .blank 0⟩ }
  ftable := boot.ftable
  tasks := boot.tasks

/-- The link counts are exact, but `unlink` takes the link of the wrong directory. -/
theorem crooked_unlink : (∀ n, (crooked.fs.tree n).type ≠ 0 →
      (crooked.fs.tree n).nlink.toInt = crooked.fs.tree.links 8 n) ∧
    ∃ t', performAll [(0, .unlink (some [97]))] crooked = .ok ([0], t') ∧
      (t'.fs.tree 1).type ≠ 0 ∧ (t'.fs.tree 1).nlink.toInt ≠ t'.fs.tree.links 8 1 := by
  have hexact : ∀ n < 8, (crooked.fs.tree n).type ≠ 0 →
      (crooked.fs.tree n).nlink.toInt = crooked.fs.tree.links 8 n := by decide +kernel
  exact ⟨fun n hn => hexact n (tree_bounded crooked.fs n hn).2 hn, Outcome.ok_of_test (by decide +kernel)⟩

lemma nlink_of_tree {s : State} {n : Nat} (h : (s.tree n).nlink ≠ 0) :
    (s.dinode n).nlink = (s.tree n).nlink := by
  rw [State.tree] at h ⊢
  split at h
  · rename_i hl
    rw [if_pos hl]
  · exact absurd rfl h

/-- **The link counter.**  After careful calls, the link count of each inode is the number of entries
that refer to it; `iput` does not free what an entry names; and `unlink` does not find an entry of an
inode without links. -/
theorem link_counter {t₀ : Sys P} (h₀ : Ordered N t₀) (hr : Reach callStep Careful t₀ t) :
    (∀ n, (t.fs.tree n).nlink.toInt = t.fs.tree.links N n) ∧
    (∀ i s', 0 < (t.fs.itable i).ref → iput i t.fs = .ok ((), s') →
      ∀ d k n x, t.fs.tree.Lists d k n x → Unchanged t.fs s' n) ∧
    (∀ p path, (t.tasks p).used = true → (SysCall.unlink path).perform p (t.switch p) ≠ .panic noLinks) := by
  have h := h₀.run hr
  refine ⟨h.shape.exact, fun i s' href hs d k n x hl => ?_, fun p path hused hp => ?_⟩
  · have hne : (t.fs.tree n).nlink ≠ 0 := fun e => absurd (e ▸ h.shape.nlink_pos hl) (by decide)
    have hlt : n < t.fs.sb.ninodes := by
      by_contra hge
      exact hne (h.shape.bound n (h.ninodes ▸ not_lt.mp hge))
    have hput : Put t.fs s' i :=
      (iput_spec (E := fun _ => True) h.sound.consistent href trivial).ok hs
    refine (hput.files n hlt).resolve_right fun hfreed => hne ?_
    rw [← nlink_of_tree hne, hfreed.2.1]
  · have hgood := (h.good p).switch p
    have hwp : wp ((SysCall.unlink path).perform p) (fun _ _ => True) (fun e => e ≠ .panic noLinks)
        (t.switch p) := by
      rw [SysCall.perform, run_sysUnlink]
      cases argstr path MAXPATH with
      | none => exact trivial
      | some path =>
        change wp (transact p (sysUnlink path)) _ _ _
        rw [transact, closing]
        simp only [setTask, wp_bind, wp_modify, onFs, wp_zoom, wp_pure]
        have hstray : Stray (t.switch p).fs.tree → Stop.panic noLinks ≠ .panic noLinks := fun hst =>
          absurd hst (h.shape.not_stray (h.ninodes ▸ tree_bounded t.fs))
        exact (sysUnlink_does (E := fun e => e ≠ .panic noLinks)
          (fun e he => he noLinks (mem_cons_self ..)) hstray (hgood.cwd rfl hused) path
          hgood.covers_zero).post fun _ _ _ => trivial
    rw [wp, hp] at hwp
    exact hwp rfl

/-- A directory has been made. -/
theorem link_counter_mkdir : ∃ t', Reach callStep Careful boot t' ∧ (t'.fs.tree 2).Dir ∧
    (t'.fs.tree 2).nlink.toInt = t'.fs.tree.links 8 2 := by
  obtain ⟨t', hs, hd⟩ := boot_mkdir
  have hr := Reach.tail .refl boot_careful hs
  exact ⟨t', hr, hd, (link_counter boot_ordered hr).1 2⟩

/-- Entry `k` of a directory `n` in the root, with names for inode 2. -/
def manyEntry (n k : Nat) : Block :=
  if k = 0 then mkDirent dot n
  else if k = 1 then mkDirent dotdot 1
  else mkDirent (cstr [ofNat (128 + k % 128), ofNat (1 + k / 128)]) 2

/-- Where a directory of 16385 entries has its blocks, and the addresses of all but the first twelve. -/
structure BigDir where
  base : Nat
  ind : Nat

def BigDir.dinode (b : BigDir) : Dinode :=
  { Dinode.blank T_DIR with
    nlink := 1, size := 262160
    addrs := fun k => UInt32.ofNat (if k.val < 12 then b.base + k.val else b.ind) }

def manyRoot : Dinode := { bootRoot with nlink := 3, size := 80 }

/-- Inode 2 has the name `a` in the root, and 16383 names in each of the directories `b` and `c`. -/
def many : Sys (Fin 2) where
  fs :=
    { sb := { bootSb with size := 530, nblocks := 526 }
      blocks := fun b =>
        if b = 2 then putDinode (putDinode (putDinode (putDinode (fun _ => 0) 1 manyRoot)
          2 { Dinode.blank T_FILE with nlink := 32767 }) 3 (BigDir.dinode ⟨16, 14⟩)) 4 (BigDir.dinode ⟨273, 15⟩)
        else if b = 3 then fun _ => 255
        else if b = 4 then fun j =>
          if j < 16 then mkDirent dot 1 j else if j < 32 then mkDirent dotdot 1 (j - 16)
          else if j < 48 then mkDirent (cstr [97]) 2 (j - 32)
          else if j < 64 then mkDirent (cstr [98]) 3 (j - 48) else mkDirent (cstr [99]) 4 (j - 64)
        else if b = 14 then fun j => ofNat ((28 + j / 4) / 256 ^ (j % 4))
        else if b = 15 then fun j => ofNat ((285 + j / 4) / 256 ^ (j % 4))
        else if b < 273 then fun j => manyEntry 3 (64 * (b - 16) + j / 16) (j % 16)
        else fun j => manyEntry 4 (64 * (b - 273) + j / 16) (j % 16)
      writes := []
      itable := fun i => if i = 0 then ⟨ROOTDEV, 1, 2, none, true, manyRoot⟩
        else ⟨0, 0, 0, none, false, .blank 0⟩
      me := ⟨1, 0⟩ }
  ftable := boot.ftable
  tasks := boot.tasks

lemma many_dinode : ∀ n < 5, 3 ≤ n → Live many.fs.sb n (many.fs.dinode n) ∧
    (many.fs.dinode n).type = T_DIR ∧ (many.fs.dinode n).nlink = 1 ∧
    (many.fs.dinode n).size.toNat / DIRENTSZ = 16385 := by decide +kernel

lemma many_fileBlock : ∀ bn < 257, fileBlock many.fs.disk 3 bn = 16 + bn ∧
    fileBlock many.fs.disk 4 bn = 273 + bn := by decide +kernel

lemma many_slots {n base : Nat} (hn : n = 3 ∧ base = 16 ∨ n = 4 ∧ base = 273) :
    many.fs.slots n = (List.range 16385).map fun k => direntOf (manyEntry n k) := by
  rw [State.slots, (many_dinode n (by omega) (by omega)).2.2.2]
  refine map_congr_left fun k hk => direntOf_congr fun j hj => ?_
  have hk := mem_range.mp hk
  have hj : j < 16 := hj
  rw [entry_apply _ _ _ hj, State.byte, fileByte]
  change (if fileBlock many.fs.disk n ((k * 16 + j) / 1024) = 0 then 0
    else many.fs.blocks (fileBlock many.fs.disk n ((k * 16 + j) / 1024)) ((k * 16 + j) % 1024)) = _
  have hblock := many_fileBlock ((k * 16 + j) / 1024) (by omega)
  have hentry : 64 * ((k * 16 + j) / 1024) + (k * 16 + j) % 1024 / 16 = k := by omega
  have hbyte : (k * 16 + j) % 1024 % 16 = j := by omega
  rcases hn with ⟨rfl, rfl⟩ | ⟨rfl, rfl⟩
  · rw [hblock.1, if_neg (by omega)]
    simp only [many]
    rw [if_neg (by omega), if_neg (by omega), if_neg (by omega), if_neg (by omega), if_neg (by omega),
      if_pos (by omega), Nat.add_sub_cancel_left, hentry, hbyte]
  · rw [hblock.2, if_neg (by omega)]
    simp only [many]
    rw [if_neg (by omega), if_neg (by omega), if_neg (by omega), if_neg (by omega), if_neg (by omega),
      if_neg (by omega), Nat.add_sub_cancel_left, hentry, hbyte]

lemma many_name (n k : Nat) : direntOf (manyEntry n (k + 2)) =
      (2, nameStr (cstr [ofNat (128 + (k + 2) % 128), ofNat (1 + (k + 2) / 128)])) := by
  rw [manyEntry, if_neg (by omega), if_neg (by omega), direntOf, direntInum_mkDirent, nameStr_mkDirent]
  rfl

lemma many_name_ne (k : Nat) :
    nameStr (cstr [ofNat (128 + (k + 2) % 128), ofNat (1 + (k + 2) / 128)]) ≠ nameStr dot := by
  have hfirst : (ofNat (128 + (k + 2) % 128)).toNat = 128 + (k + 2) % 128 :=
    toNat_ofNat_of_lt' (by rw [size]; omega)
  have hdot : (nameStr dot).head? = some 46 := by decide
  intro h
  rw [← h, nameStr, DIRSIZ, strOf] at hdot
  split at hdot
  · cases hdot
  · have h46 := congrArg toNat (Option.some.inj hdot)
    change (ofNat (128 + (k + 2) % 128)).toNat = 46 at h46
    omega

lemma many_tree {n : Nat} (hn : n = 3 ∨ n = 4) : many.fs.tree n = ⟨T_DIR, 1, many.fs.slots n⟩ := by
  obtain ⟨hl, htype, hnlink, -⟩ := many_dinode n (by omega) (by omega)
  rw [State.tree, if_pos hl, htype, hnlink, if_pos rfl]

lemma many_refers {n : Nat} (hn : n = 3 ∨ n = 4) (m : Nat) :
    (many.fs.tree n).refers m = (if m = 1 then 1 else 0) + if m = 2 then 16383 else 0 := by
  have hslots : many.fs.slots n = (List.range (16383 + 1 + 1)).map fun k => direntOf (manyEntry n k) := by
    rcases hn with rfl | rfl
    · exact many_slots (.inl ⟨rfl, rfl⟩)
    · exact many_slots (.inr ⟨rfl, rfl⟩)
  have hfirst : direntOf (manyEntry n 0) = (n, nameStr dot) := by
    rw [manyEntry, if_pos rfl, direntOf, direntInum_mkDirent, nameStr_mkDirent]
    rcases hn with rfl | rfl <;> rfl
  have hsecond : direntOf (manyEntry n 1) = (1, nameStr dotdot) := by
    rw [manyEntry, if_neg (by decide), if_pos rfl, direntOf, direntInum_mkDirent, nameStr_mkDirent]
    rfl
  rw [many_tree hn, refers_of_dir ⟨rfl, Int16.le_refl 1⟩, refersIn, hslots, range_succ_eq_map, range_succ_eq_map]
  simp only [map_cons, map_map, countP_cons, countP_map]
  have htail : ((fun e => decide (Refers m e)) ∘ (fun k => direntOf (manyEntry n k)) ∘
      Nat.succ ∘ Nat.succ) = fun _ => decide (m = 2) := by
    funext k
    change decide (Refers m (direntOf (manyEntry n (k + 2)))) = _
    rw [many_name]
    refine decide_eq_decide.mpr ⟨fun h => h.1.symm, fun e => ⟨e.symm, by omega, many_name_ne k⟩⟩
  have hdot : ¬ Refers m (n, nameStr dot) := fun h => h.2.2 rfl
  have hdotdot : Refers m (1, nameStr dotdot) ↔ m = 1 :=
    ⟨fun h => h.1.symm, fun e => ⟨e.symm, by omega, by decide⟩⟩
  rw [htail]
  simp only [Nat.succ_eq_add_one, Nat.zero_add, hfirst, hsecond, hdot, hdotdot]
  by_cases h2 : m = 2
  · subst h2
    simp
  · simp [h2]

lemma many_exact (n : Nat) (hn : (many.fs.tree n).type ≠ 0) :
    (many.fs.tree n).nlink.toInt = many.fs.tree.links 8 n := by
  have hlt : n < 8 := (tree_bounded many.fs n hn).2
  have hall : (∀ m < 8, m ≠ 3 → m ≠ 4 → ∀ n < 8, (many.fs.tree m).refers n =
        if m = 1 then (if n = 1 ∨ n = 2 ∨ n = 3 ∨ n = 4 then 1 else 0) else 0) ∧
      ∀ n < 8, (many.fs.tree n).type ≠ 0 → (n = 1 ∨ n = 2 ∨ n = 3 ∨ n = 4) ∧
        (many.fs.tree n).nlink.toInt = if n = 1 then 3 else if n = 2 then 32767 else 1 := by
    decide +kernel
  obtain ⟨hsmall, hnlink⟩ := hall
  obtain ⟨hn, hval⟩ := hnlink n hlt hn
  have hlinks : many.fs.tree.links 8 n = 1 + 2 * ((if n = 1 then 1 else 0) + if n = 2 then 16383 else 0) := by
    simp only [links, Finset.sum_range_succ, Finset.sum_range_zero,
      hsmall 0 (by decide) (by decide) (by decide) n hlt, hsmall 1 (by decide) (by decide) (by decide) n hlt,
      hsmall 2 (by decide) (by decide) (by decide) n hlt, hsmall 5 (by decide) (by decide) (by decide) n hlt,
      hsmall 6 (by decide) (by decide) (by decide) n hlt, hsmall 7 (by decide) (by decide) (by decide) n hlt,
      many_refers (.inl rfl), many_refers (.inr rfl), if_pos hn]
    rcases hn with rfl | rfl | rfl | rfl <;> rfl
  rw [hval, hlinks]
  rcases hn with rfl | rfl | rfl | rfl <;> rfl

/-- The counter wraps: the link succeeds, and the link count is negative. -/
theorem many_link : (∀ n, (many.fs.tree n).type ≠ 0 → (many.fs.tree n).nlink.toInt = many.fs.tree.links 8 n) ∧
    ∃ t', performAll [(0, .link (some [97]) (some [100]))] many = .ok ([0], t') ∧
      (t'.fs.tree 2).nlink = -32768 ∧ (t'.fs.tree 2).nlink.toInt ≠ t'.fs.tree.links 8 2 := by
  refine ⟨many_exact, ?_⟩
  obtain ⟨t', hrun, hx⟩ : ∃ t', performAll [(0, .link (some [97]) (some [100]))] many = .ok ([0], t') ∧
      (t'.fs.tree 2).nlink = -32768 := Outcome.ok_of_test (by decide +kernel)
  refine ⟨t', hrun, hx, fun h => ?_⟩
  rw [hx] at h
  have hneg : (-32768 : Int16).toInt < 0 := by decide
  omega

end FypOs.Fs
