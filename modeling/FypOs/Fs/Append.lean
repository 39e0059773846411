import FypOs.Fs.Writers

/-!
# Fs — several descriptors of one file

`sys_open` sets the offset to the size of the file, once.  A descriptor that somebody else overtakes writes over
what they have written.

* `sysOpen_placed`: where `sys_open` leaves a file that can be written.
* `appends_keep`: opens and writes in such an order that nobody is overtaken.
-/

namespace FypOs.Fs

open Lib Prog Code Function

/-! ### Where a file is opened -/

section

variable {P : Type} [DecidableEq P] {p : P} {omode : UInt32} {t : Sys P} {f : Fin NFILE} {ip : Fin NINODE}

/-- A file that can be written is at the end, unless it has been truncated. -/
def Placed (omode : UInt32) (t : Sys P) (f : Fin NFILE) : Prop :=
  (t.ftable f).type = .inode → omode &&& O_TRUNC = 0 → (t.ftable f).writable = true →
    (t.ftable f).off = (t.fs.itable (t.ftable f).ip).d.size

lemma openFill_placed : wp ((Op.openFill f ip omode).run (den p)) (fun _ t' => Placed omode t' f ∧ t'.tasks = t.tasks)
    (fun _ => True) t := by
  have hunlock {s : State} : wp (iunlock ip) (fun _ s' => (s'.itable ip).d = (s.itable ip).d) (fun _ => True) s := by
    rw [iunlock, wp_bind, wp_inode, wp_bind, wp_reads]
    refine wp_ite (fun _ => trivial) fun _ => ?_
    rw [releasesleep, wp_setInode, setInode_itable_self]
  simp only [Op.openFill, run_bind, run_fields, run_iunlock, onFs, wp_bind, wp_zoom, wp_inode]
  rw [run_ite]
  refine wp_ite (fun _ => ?_) fun _ => ?_
  · simp only [run_setFile, setFile, wp_modify, wp_zoom]
    refine (wp_any _ _).post fun _ s' _ => ⟨fun e => ?_, rfl⟩
    change (update t.ftable f _ f).type = _ at e
    rw [update_self] at e
    cases e
  · simp only [run_bind, run_openOffset, openOffset, run_setFile, setFile, onFs, wp_bind, wp_zoom, wp_modify, wp_inode]
    refine (wp_any _ _).post fun _ s₁ _ => wp_ite (fun h => ?_) fun h => ?_
    · rw [wp_bind, wp_inode, wp_pure]
      refine hunlock.post fun _ s₂ hd => ⟨fun _ _ _ => ?_, rfl⟩
      change (update t.ftable f _ f).off = (s₂.itable (update t.ftable f _ f).ip).d.size
      rw [update_self]
      exact (congrArg Dinode.size hd).symm
    · refine hunlock.post fun _ s₂ _ => ⟨fun _ ht hw => ?_, rfl⟩
      change (update t.ftable f _ f).writable = true at hw
      rw [update_self] at hw
      exact absurd ⟨ht, hw⟩ h

lemma fdalloc_takes : wp (fdalloc p f) (fun r t' => ∀ fd, r = some fd → (t'.tasks p).ofile fd = some f)
    (fun _ => True) t := by
  rw [fdalloc, wp_bind, getTask, wp_reads]
  split
  · next fd hfd =>
    simp only [setTask, wp_bind, wp_modify, wp_pure, Sys.setTask_self]
    intro fd' e
    cases e
    exact update_self ..
  · exact nofun

/-- The file that an open has returned as descriptor `r`. -/
def Sys.opened (t : Sys P) (p : P) (r : Int) : Option (Fin NFILE) :=
  ((List.finRange NOFILE).find? fun fd => r = fd.val).bind (t.tasks p).ofile

/-- **Where `sys_open` leaves the file.** -/
lemma sysOpen_placed (path : Option (List UInt8)) (omode : UInt32) : wp ((Op.sysOpen path omode).run (den p))
    (fun r t' => ∀ f, t'.opened p r = some f → Placed omode t' f) (fun _ => True) t := by
  have hnone {t' : Sys P} : ∀ f, t'.opened p (-1) = some f → Placed omode t' f := by
    intro f hf
    obtain ⟨fd, hfd, -⟩ := Option.bind_eq_some_iff.mp hf
    have := List.find?_some hfd
    simp only [decide_eq_true_eq] at this
    omega
  have hfail {ip : Fin NINODE} {t : Sys P} : wp ((Op.openFail ip).run (den p))
      (fun r t' => ∀ f, t'.opened p r = some f → Placed omode t' f) (fun _ => True) t := by
    simp only [Op.openFail, run_bind, run_fail, closing_pure, setTask, wp_bind]
    exact (wp_any _ _).post fun _ _ _ => hnone
  rw [Op.sysOpen]
  cases argstr path MAXPATH with
  | none => exact hnone
  | some path =>
    rw [run_bind, wp_bind]
    refine (wp_any _ _).post fun _ t₁ _ => ?_
    rw [run_bind, wp_bind]
    refine (wp_any _ _).post fun r t₂ _ => ?_
    cases r with
    | none =>
      simp only [run_fail, closing_pure, setTask, wp_bind, wp_modify, wp_pure]
      exact hnone
    | some ip =>
      simp only [Op.openFile, run_bind, wp_bind]
      refine (wp_any _ _).post fun q t₃ _ => ?_
      rw [run_ite]
      refine wp_ite (fun _ => hfail) fun _ => ?_
      rw [run_bind, wp_bind]
      refine (wp_any _ _).post fun r t₄ _ => ?_
      cases r with
      | none => exact hfail
      | some f =>
        rw [run_bind, wp_bind, run_fdalloc]
        refine fdalloc_takes.post fun r t₅ h5 => ?_
        cases r with
        | none =>
          rw [run_bind, wp_bind]
          exact (wp_any _ _).post fun _ _ _ => hfail
        | some fd =>
          simp only [run_bind, wp_bind, run_endOp, setTask]
          refine openFill_placed.post fun _ t₆ h6 => ?_
          change ∀ g, Sys.opened (t₆.setTask p _) p (fd.val : Int) = some g → Placed omode (t₆.setTask p _) g
          intro g hg
          obtain ⟨fd', hfd', hofile⟩ := Option.bind_eq_some_iff.mp hg
          have e := List.find?_some hfd'
          simp only [decide_eq_true_eq] at e
          obtain rfl : fd = fd' := Fin.ext (by omega)
          rw [Sys.setTask_self, h6.2] at hofile
          cases (h5 fd rfl).symm.trans hofile
          exact h6.1

end

/-! ### Appending -/

/-- A process opens a file, or calls `filewrite`, or a call does a round or returns. -/
inductive Move (P C : Type) where
  | open (p : P) (path : Option (List UInt8)) (omode : UInt32)
  | call (c : C) (p : P) (f : Fin NFILE) (src : Nat → Option UInt8) (k : Int)
  | round (c : C)

/-- The calls in progress, and the file that has been opened last. -/
structure Turns (P C : Type) where
  traffic : Traffic P C
  last : Option (Fin NFILE)

section

variable {P C : Type} [DecidableEq P] [Fintype P] [DecidableEq C] {t₀ : Sys P} {S S' : Turns P C} {n : Nat}

namespace Turns

def step (S : Turns P C) : Move P C → Outcome (Turns P C)
  | .open p path omode =>
    if (S.traffic.sys.tasks p).used = true then
      ((SysCall.open path omode).perform p (S.traffic.sys.switch p)).map fun x =>
        ⟨{ S.traffic with sys := x.2 }, x.2.opened p x.1⟩
    else .blocked
  | .call c p f src k => (S.traffic.step (.call c p f src k)).map (⟨·, S.last⟩)
  | .round c => (S.traffic.step (.round c)).map (⟨·, S.last⟩)

/-- Nobody truncates, and what is written to inode `n` is written through the file that has been opened last. -/
def InTurn (n : Nat) (S : Turns P C) : Move P C → Prop
  | .open _ _ omode => omode &&& O_TRUNC = 0
  | .call .. => True
  | .round c => ∀ job ∈ S.traffic.calls c, (job.i : Int) < job.n → S.last = some job.file ∧
      S.traffic.sys.inumOf job.file = n ∧ (S.traffic.sys.ftable job.file).type = .inode ∧
      (S.traffic.sys.ftable job.file).writable = true

instance (n : Nat) (S : Turns P C) (e : Move P C) : Decidable (S.InTurn n e) := by
  cases e <;> rw [InTurn] <;> infer_instance

/-- Everything written has been added to inode `n`, and the file opened last is at its end. -/
structure Appended (n : Nat) (t₀ : Sys P) (S : Turns P C) : Prop where
  good : ∀ p, Good p (S.traffic.sys.tasks p).hold S.traffic.sys
  linked : Linked S.traffic.sys.fs n
  contents : S.traffic.sys.fs.contents n = t₀.fs.contents n ++ S.traffic.data
  place : ∀ f, S.last = some f → S.traffic.sys.inumOf f = n → (S.traffic.sys.ftable f).type = .inode →
    (S.traffic.sys.ftable f).writable = true → (S.traffic.sys.ftable f).off = (S.traffic.sys.fs.dinode n).size

omit [DecidableEq C] in
lemma Appended.open (h : Appended n t₀ S) {p : P} {path : Option (List UInt8)} {omode : UInt32} {r : Int} {t : Sys P}
    (hused : (S.traffic.sys.tasks p).used = true) (htrunc : omode &&& O_TRUNC = 0)
    (hrun : (SysCall.open path omode).perform p (S.traffic.sys.switch p) = .ok (r, t)) :
    Appended n t₀ ⟨{ S.traffic with sys := t }, t.opened p r⟩ := by
  let t₁ := S.traffic.sys.switch p
  have hgood : Good p (t₁.tasks p).hold t₁ := (h.good p).switch p
  have hfree : Good p 0 t₁ := Good.weaken (c := (t₁.tasks p).hold) (by rwa [add_zero])
  obtain ⟨hk, -⟩ := (holds_sysOpen (X := fun _ => False) path omode (hgood.cwd rfl hused) (.inl htrunc) hfree).ok hrun
  have hgood' := ((perform_good (t := t₁) (.open path omode) trivial rfl hused hgood).ok hrun).good
  have hlinked : Linked t₁.fs n := ⟨h.linked.live, h.linked.type, h.linked.nlink⟩
  have hu := hk.keeps.files n id hlinked
  refine ⟨hgood'.of_task, hlinked.unchanged hk.keeps.sb hu, hu.contents.trans h.contents, fun f hf hinum htype hw => ?_⟩
  have hactive : 0 < (t.ftable f).ref := by
    by_contra hno
    cases (hgood'.idle f hno).symm.trans htype
  have hheld := (hgood'.files f ⟨hactive, .inl htype⟩).held
  have hsync := congrArg Dinode.size (hgood'.covers.sound.consistent.synced _ hheld).2
  rw [← hinum]
  exact ((sysOpen_placed path omode).ok hrun f hf htype htrunc hw).trans hsync

omit [DecidableEq C] in
lemma Appended.write (h : Appended n t₀ S) {c : C} {job : Job P} {r : Int} {t : Sys P} {calls : C → Option (Job P)}
    (hlast : S.last = some job.file) (hinum : S.traffic.sys.inumOf job.file = n)
    (htype : (S.traffic.sys.ftable job.file).type = .inode) (hw : (S.traffic.sys.ftable job.file).writable = true)
    (hround : job.round S.traffic.sys = .ok (r, t)) :
    Appended n t₀ ⟨⟨t, calls, S.traffic.log ++ [(c, job.bytes job.i r.toNat)]⟩, S.last⟩ := by
  let t₁ := S.traffic.sys.switch job.proc
  have hgood : Good job.proc (t₁.tasks job.proc).hold t₁ := (h.good _).switch _
  have hactive : 0 < (t₁.ftable job.file).ref := by
    by_contra hno
    cases (hgood.idle _ hno).symm.trans htype
  have hwrites : (t₁.ftable job.file).Writes := ⟨⟨hactive, .inl htype⟩, htype, hw⟩
  have hserved := (served_of_calm hgood ((holds_filewriteRound job.src job.i job.n1 hwrites fun _ => trivial).post
    fun _ _ _ hs => hs.1)).ok hround
  have hsound : Sound S.traffic.sys.fs := (h.good job.proc).covers.sound
  have hr := Job.rounded hsound.consistent (hsound.range _) hround
  have hoff := h.place _ hlast hinum htype hw
  obtain ⟨hcontents, hmoved, -⟩ := hr.spliced (Nat.lt_of_le_of_lt Job.n1_le (by decide)) (.inr (by rw [hinum]; exact hoff))
  rw [hinum, hoff, ← length_contents, splice_length] at hcontents
  refine ⟨hserved.good.of_task, ?_, ?_, fun f hf _ _ _ => ?_⟩
  · obtain ⟨fs, hwrote, rfl⟩ := hr
    subst hinum
    rcases hwrote.result with ⟨-, hu, -⟩ | ⟨-, tot, q, -, -, ⟨a, size, hd, -⟩, -⟩
    · exact h.linked.unchanged hwrote.sb hu
    · have hd : fs.dinode (S.traffic.sys.inumOf job.file) = _ := hd
      refine ⟨?_, ?_, ?_⟩
      · exact hd.symm ▸ hwrote.sb.symm ▸ h.linked.live
      · exact hd.symm ▸ h.linked.type
      · exact hd.symm ▸ h.linked.nlink
  · rw [Traffic.data_append]
    refine hcontents.trans ?_
    rw [h.contents, List.append_assoc]
    rfl
  · cases hlast.symm.trans hf
    have hlen := congrArg List.length hcontents
    rw [length_contents, List.length_append, length_contents] at hlen
    refine UInt32.toNat_inj.mp (hmoved.trans ?_)
    rw [hoff]
    exact hlen.symm

/-- **A step** adds to the end of the file what it writes. -/
lemma Appended.step {e : Move P C} (h : Appended n t₀ S) (he : S.InTurn n e) (hs : S.step e = .ok S') :
    Appended n t₀ S' := by
  cases e with
  | «open» p path omode =>
    rw [Turns.step] at hs
    split at hs
    · obtain ⟨x, hx, rfl⟩ := Outcome.map_eq_ok hs
      exact h.open ‹_› he hx
    · cases hs
  | call c p f src k =>
    obtain ⟨T, hT, rfl⟩ := Outcome.map_eq_ok hs
    cases Traffic.moved_of_step hT with
    | call => exact ⟨h.good, h.linked, h.contents, h.place⟩
  | round c =>
    obtain ⟨T, hT, rfl⟩ := Outcome.map_eq_ok hs
    cases Traffic.moved_of_step hT with
    | round hc _ hlt hround =>
      obtain ⟨hlast, hinum, htype, hw⟩ := he _ hc hlt
      exact h.write hlast hinum htype hw hround
    | ret => exact ⟨h.good, h.linked, h.contents, h.place⟩

end Turns

end

end FypOs.Fs
