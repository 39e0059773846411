import FypOs.Fs.Paths
import FypOs.Fs.Run

/-!
# Fs — rounds of filewrite

A round of `filewrite` locks the inode, writes a chunk at the offset of the file, moves the offset and
unlocks the inode.

* `Traffic`: processes that call `filewrite`, a round at a time, with what they have written so far.
-/

namespace FypOs.Fs

open Lib Prog Code List

/-- Entry `i` has been locked, `writei` has returned `r`, and the entry has been unlocked. -/
structure Wrote (s s' : State) (i : Fin NINODE) (src : Nat → Option UInt8) (off n : UInt32) (r : Int) :
    Prop where
  sb : s'.sb = s.sb
  consistent : Consistent s'
  sound : Sound s → (s.dinode (s.itable i).inum).type ≠ T_DIR → Sound s'
  table : ∀ j, (s'.itable j).ref = (s.itable j).ref ∧ (s'.itable j).inum = (s.itable j).inum ∧
    (s'.itable j).lock = (s.itable j).lock ∧
    ((s.itable j).valid = true → (s'.itable j).valid = true)
  others : ∀ m, m < s.sb.ninodes → m ≠ (s.itable i).inum → Unchanged s s' m
  result : r = -1 ∧ Unchanged s s' (s.itable i).inum ∧
      ¬ Accepted (s.dinode (s.itable i).inum).size off n ∨
    Accepted (s.dinode (s.itable i).inum).size off n ∧ ∃ tot p : Nat, r = tot ∧ tot + p ≤ n.toNat ∧
      (∃ a size, s'.dinode (s.itable i).inum =
          { s.dinode (s.itable i).inum with size := size, addrs := a } ∧
        size.toNat = max (s.dinode (s.itable i).inum).size.toNat (off.toNat + tot)) ∧
      (∀ k, s'.byte (s.itable i).inum k = if off.toNat ≤ k ∧ k < off.toNat + tot + p
        then (src (k - off.toNat)).getD 0 else s.byte (s.itable i).inum k) ∧
      (tot = n.toNat ∨ tot + p < n.toNat ∧ src (tot + p) = none ∨ p = 0 ∧ s'.Full)

section

variable {s s₁ s₂ s' : State} {i : Fin NINODE} {src : Nat → Option UInt8} {off n : UInt32} {r : Int}
  {E : Stop → Prop}

/-- An entry that is valid and not locked can be locked. -/
lemma ilock_free (h : Consistent s) (hi : Held s i) (hfree : (s.itable i).lock = none) :
    wp (ilock i) (fun _ s' => Locked s s' i) E s :=
  have hlive := h.liveAt hi
  ilock_locks h (fun _ => ⟨hlive.1, hlive.2.1⟩) (.inl hi.1) (.inr (.inl hi.2)) (.inl hfree)

/-- Before and after an entry is locked, its inode is the same on disk. -/
lemma Locked.dinode (h : Locked s s₁ i) :
    s₁.dinode = s.dinode ∧ (s₁.itable i).d = s.dinode (s.itable i).inum := by
  have hd := dinode_congr h.sb h.blocks
  refine ⟨hd, ?_⟩
  rw [(h.consistent.synced i h.held).2, h.inum, hd]

section

variable (hl : Locked s s₁ i) (hw : (r = -1 ∧ s₂ = s₁ ∧ ¬ Accepted (s₁.itable i).d.size off n) ∨
  (Accepted (s₁.itable i).d.size off n ∧ ∃ tot p : Nat, r = tot ∧ Written s₁ s₂ i src off.toNat n.toNat tot p))

include hl hw

lemma Wrote.of_writei : Wrote s (s₂.setInode i fun ip => { ip with lock := none }) i src off n r := by
  obtain ⟨hdin, hd⟩ := hl.dinode
  have hu (m) : Unchanged s s₁ m := .of_blocks hl.sb hl.blocks m
  obtain ⟨d, hentry⟩ := hl.entry
  rw [hd] at hw
  have hframe : s₂.sb = s₁.sb ∧ Consistent s₂ ∧ (∀ j, j ≠ i → s₂.itable j = s₁.itable j) ∧
      (∃ d, s₂.itable i = { s₁.itable i with d := d }) ∧
      ∀ m, m < s.sb.ninodes → m ≠ (s.itable i).inum → Unchanged s₁ s₂ m := by
    rcases hw with ⟨-, rfl, -⟩ | ⟨-, tot, p, -, hw⟩
    · exact ⟨rfl, hl.consistent, fun _ _ => rfl, ⟨_, rfl⟩, fun m _ _ => .refl _ m⟩
    · refine ⟨hw.frame.sb, hw.consistent, hw.frame.others, hw.frame.entry, fun m hm hne => ?_⟩
      exact hw.frame.files m (by rw [hl.sb]; exact hm) (by rw [hl.inum]; exact hne)
  obtain ⟨hsb, hc, hothers, ⟨d', hentry'⟩, hfiles⟩ := hframe
  refine ⟨hsb.trans hl.sb, hc.setInode rfl rfl rfl rfl id, fun h htype => ?_, fun j => ?_,
    fun m hm hne => (hu m).trans ((hfiles m hm hne).trans (.setInode ..)), ?_⟩
  · refine Sound.setInode ?_ rfl rfl rfl rfl id
    have hs1 := hl.sound h
    rcases hw with ⟨-, rfl, -⟩ | ⟨hacc, tot, p, -, hw⟩
    · exact hs1
    · rw [← hd] at hacc htype
      exact hw.sound hs1 hl.held hacc.1 hacc.2 htype
  · by_cases hj : j = i
    · subst hj
      rw [setInode_itable_self, hentry', hentry]
      exact ⟨rfl, rfl, hl.free.symm, fun _ => rfl⟩
    · rw [setInode_itable_of_ne hj, hothers j hj, hl.others j hj]
      exact ⟨rfl, rfl, rfl, id⟩
  · rcases hw with ⟨hr, rfl, hno⟩ | ⟨hacc, tot, p, hr, hw⟩
    · exact .inl ⟨hr, (hu _).trans (.setInode ..), hno⟩
    · refine .inr ⟨hacc, tot, p, hr, hw.le, ?_, fun k => ?_, ?_⟩
      · obtain ⟨a, size, hd2, hsize⟩ := hw.inode
        refine ⟨a, size, ?_, by rw [hsize, hd]⟩
        change s₂.dinode (s.itable i).inum = _
        rw [← hl.inum, hw.frame.dinode hl.held hw.consistent, hd2, hd, hl.inum]
      · change s₂.byte (s.itable i).inum k = _
        rw [← hl.inum, hw.byte k, (hu _).byte]
      · rcases hw.reason with h | h | ⟨hp, hfull, -⟩
        · exact .inl h
        · exact .inr (.inl h)
        · exact .inr (.inr ⟨hp, hfull⟩)

/-- The process that has locked the entry can unlock it after `writei`. -/
lemma wrote_iunlock : wp (iunlock i) (fun _ s' => Wrote s s' i src off n r) E s₂ := by
  obtain ⟨d, hentry⟩ := hl.entry
  have hmine : (s₂.itable i).lock = some s₂.me.pid ∧ 0 < (s₂.itable i).ref := by
    rcases hw with ⟨-, rfl, -⟩ | ⟨-, tot, p, -, hw⟩
    · rw [hentry, hl.me]
      exact ⟨rfl, hl.ref_pos⟩
    · obtain ⟨d', e⟩ := hw.frame.entry
      rw [e, hentry, hw.frame.me, hl.me]
      exact ⟨rfl, hl.ref_pos⟩
  rw [iunlock, wp_bind, wp_inode, wp_bind, wp_reads]
  refine wp_ite (fun hno => ?_) fun _ => .of_writei hl hw
  rcases hno with hno | hno
  · exact absurd hmine.1 hno
  · omega

end

end

section

variable {P : Type} [DecidableEq P] {p : P} {t t' : Sys P} {f : Fin NFILE}
  {src : Nat → Option UInt8} {i n1 : Nat} {r : Int} {E : Stop → Prop}

/-- The offset of a file after a round. -/
def File.moved (fl : File) (r : Int) : File :=
  if r > 0 then { fl with off := fl.off + UInt32.ofNat r.toNat } else fl

/-- A round of `filewrite` has returned `r`. -/
def Rounded (t t' : Sys P) (f : Fin NFILE) (src : Nat → Option UInt8) (i n1 : Nat) (r : Int) : Prop :=
  ∃ fs, Wrote t.fs fs (t.ftable f).ip (fun j => src (i + j)) (t.ftable f).off (.ofNat n1) r ∧
    t' = (t.setFs fs).setFile f (·.moved r)

/-- **Rounds.**  What a round does, from where it can lock the inode. -/
lemma round_spec (hlock : wp (ilock (t.ftable f).ip) (fun _ s₁ => Locked t.fs s₁ (t.ftable f).ip) E t.fs) :
    wp ((Op.filewriteRound f src i n1).run (den p)) (fun r t' => Rounded t t' f src i n1 r) E t := by
  simp only [Op.filewriteRound, run_bind, run_beginOp, run_file, run_ilock, run_writei, run_iunlock,
    run_endOp, run_ite, run_setFile, run_pure, setTask, getFile, setFile, onFs, wp_bind, wp_modify,
    wp_reads, wp_zoom]
  refine hlock.post fun _ s₁ hl => ?_
  refine (writei_spec hl.consistent hl.held _ _ _).post fun r s₂ hw => ?_
  have hend {t1 : Sys P} (ht : t1.fs = s₂)
      (ht' : ∀ fs, (t1.setFs fs).setTask p (fun task => { task with ops := task.ops - 1 }) =
        (t.setFs fs).setFile f (·.moved r)) : wp (iunlock (t.ftable f).ip) (fun _ s' =>
          Rounded t ((t1.setFs s').setTask p fun task => { task with ops := task.ops - 1 })
            f src i n1 r) E t1.fs := by
    rw [ht]
    exact (wrote_iunlock hl hw).post fun _ s' h => ⟨s', h, ht' s'⟩
  refine wp_ite (fun hr => ?_) fun hr => ?_
  all_goals
    simp only [wp_bind, wp_modify, wp_zoom, wp_pure]
    refine hend rfl fun fs => ?_
    simp [Sys.setFs, Sys.setTask, Sys.setFile, File.moved, hr]

end

/-! ### Contents -/

/-- The bytes of inode `n`. -/
def State.contents (s : State) (n : Nat) : List UInt8 := s.bytes n 0 (s.dinode n).size.toNat

lemma length_contents (s : State) (n : Nat) : (s.contents n).length = (s.dinode n).size.toNat := by
  simp [State.contents, State.bytes]

lemma getElem_contents (s : State) (n : Nat) {k : Nat} (h : k < (s.contents n).length) :
    (s.contents n)[k] = s.byte n k := by
  simp [State.contents, State.bytes]

lemma Unchanged.contents {s s' : State} {n : Nat} (h : Unchanged s s' n) : s'.contents n = s.contents n := by
  rw [State.contents, State.contents, State.bytes, State.bytes, h.dinode, funext h.byte]

/-- What has been written replaces what was there; what a copy that failed has left behind does not
matter, if it is behind the end of the file. -/
lemma contents_splice {s s' : State} {m off tot p : Nat} {src : Nat → Option UInt8}
    (hsize : (s'.dinode m).size.toNat = max (s.dinode m).size.toNat (off + tot))
    (hbyte : ∀ k, s'.byte m k = if off ≤ k ∧ k < off + tot + p then (src (k - off)).getD 0 else s.byte m k)
    (hoff : off ≤ (s.dinode m).size.toNat) (hp : p = 0 ∨ (s.dinode m).size.toNat ≤ off + tot) :
    s'.contents m = splice (s.contents m) off ((List.range tot).map fun j => (src j).getD 0) := by
  have hlen := length_contents s m
  refine ext_getElem ?_ fun k h1 h2 => ?_
  · rw [length_splice (hlen ▸ hoff), hlen, length_contents, hsize, length_map, length_range]
  · rw [length_splice (hlen ▸ hoff), hlen, length_map, length_range] at h2
    rw [getElem_contents, hbyte]
    simp only [splice, getElem_append, length_append, length_take, hlen,
      Nat.min_eq_left hoff, length_map, length_range, getElem_take, getElem_drop,
      getElem_map, getElem_range, getElem_contents]
    split_ifs
    · omega
    · rfl
    · omega
    · rfl
    · omega
    · congr 1
      omega

/-! ### Calls of filewrite -/

/-- A call of `filewrite` on an inode: `i` of the `n` bytes of `src` have been written. -/
structure Job (P : Type) where
  proc : P
  file : Fin NFILE
  src : Nat → Option UInt8
  n : Int
  i : Nat
  /-- What the call has returned. -/
  ret : Option Int

namespace Job

variable {P : Type}

/-- The length of the next chunk. -/
def n1 (job : Job P) : Nat := min (job.n.toNat - job.i) filewriteMax

/-- The `len` bytes of the source from `lo` on. -/
def bytes (job : Job P) (lo len : Nat) : List UInt8 :=
  (List.range len).map fun k => (job.src (lo + k)).getD 0

/-- The next round, by the process that has made the call. -/
def round [DecidableEq P] (job : Job P) (t : Sys P) : Outcome (Int × Sys P) :=
  (Op.filewriteRound job.file job.src job.i job.n1).run (den job.proc) (t.switch job.proc)

/-- The call after a round in which `writei` has returned `r`. -/
def next (job : Job P) (r : Int) : Job P :=
  if r ≠ job.n1 then { job with ret := some (-1) } else { job with i := job.i + job.n1 }

variable {job : Job P}

lemma n1_le : job.n1 ≤ filewriteMax := Nat.min_le_right ..

lemma bytes_append (job : Job P) (lo a b : Nat) :
    job.bytes lo a ++ job.bytes (lo + a) b = job.bytes lo (a + b) := by
  simp [bytes, range_add, Nat.add_assoc]

end Job

/-- A system in which processes call `filewrite`.  The calls have names, and there is a log of what
has been written, oldest first. -/
structure Traffic (P C : Type) where
  sys : Sys P
  calls : C → Option (Job P)
  log : List (C × List UInt8)

namespace Traffic

variable {P C : Type} [DecidableEq P] [DecidableEq C]

/-- No call has been made yet. -/
def start (t : Sys P) : Traffic P C := ⟨t, fun _ => none, []⟩

inductive Event (P C : Type) where
  /-- A process calls `filewrite`. -/
  | call (c : C) (p : P) (f : Fin NFILE) (src : Nat → Option UInt8) (n : Int)
  /-- A call does a round, or returns. -/
  | round (c : C)
  /-- Something else happens. -/
  | other (t : Sys P)

def setCall (T : Traffic P C) (c : C) (job : Job P) : Traffic P C :=
  { T with calls := Function.update T.calls c (some job) }

/-- A round of the call `c`, or its end. -/
def advance (T : Traffic P C) (c : C) (job : Job P) : Outcome (Traffic P C) :=
  if (job.i : Int) < job.n then
    (job.round T.sys).map fun x =>
      { sys := x.2
        calls := Function.update T.calls c (some (job.next x.1))
        log := T.log ++ [(c, job.bytes job.i x.1.toNat)] }
  else .ok (T.setCall c { job with ret := some (if job.i = job.n then job.n else -1) })

def step (T : Traffic P C) : Event P C → Outcome (Traffic P C)
  | .call c p f src n =>
    if (T.calls c).isNone ∧ (T.sys.ftable f).writable = true ∧ (T.sys.ftable f).type = .inode then
      .ok (T.setCall c ⟨p, f, src, n, 0, none⟩)
    else .blocked
  | .round c =>
    match T.calls c with
    | none => .blocked
    | some job => if job.ret.isSome then .blocked else T.advance c job
  | .other t => .ok { T with sys := t }

/-- What a step has done. -/
inductive Moved (T : Traffic P C) : Event P C → Traffic P C → Prop where
  | call {c : C} {p : P} {f : Fin NFILE} {src : Nat → Option UInt8} {n : Int}
      (hc : T.calls c = none) (hw : (T.sys.ftable f).writable = true)
      (ht : (T.sys.ftable f).type = .inode) :
      Moved T (.call c p f src n) (T.setCall c ⟨p, f, src, n, 0, none⟩)
  | round {c : C} {job : Job P} {r : Int} {t' : Sys P} (hc : T.calls c = some job)
      (hret : job.ret = none) (hlt : (job.i : Int) < job.n) (hr : job.round T.sys = .ok (r, t')) :
      Moved T (.round c) ⟨t', Function.update T.calls c (some (job.next r)),
        T.log ++ [(c, job.bytes job.i r.toNat)]⟩
  | ret {c : C} {job : Job P} (hc : T.calls c = some job) (hret : job.ret = none)
      (hle : job.n ≤ job.i) :
      Moved T (.round c)
        (T.setCall c { job with ret := some (if job.i = job.n then job.n else -1) })
  | other {t : Sys P} : Moved T (.other t) { T with sys := t }

lemma moved_of_step {T T' : Traffic P C} {e : Event P C} (h : T.step e = .ok T') : T.Moved e T' := by
  cases e with
  | call c p f src n =>
    simp only [step] at h
    split at h
    case isTrue hc =>
      cases h
      exact .call (Option.isNone_iff_eq_none.mp hc.1) hc.2.1 hc.2.2
    case isFalse => cases h
  | round c =>
    simp only [step] at h
    split at h
    case h_1 => cases h
    case h_2 job hc =>
      split at h
      · cases h
      · have hret : job.ret = none := Option.not_isSome_iff_eq_none.mp ‹_›
        rw [advance] at h
        split at h
        · obtain ⟨x, hx, rfl⟩ := Outcome.map_eq_ok h
          exact .round hc hret ‹_› hx
        · cases h
          exact .ret hc hret (Int.not_lt.mp ‹_›)
  | other t =>
    cases h
    exact .other

/-- Everything written, in the order of the locks. -/
def data (T : Traffic P C) : List UInt8 := T.log.flatMap Prod.snd

/-- What one call has written. -/
def dataOf (T : Traffic P C) (c : C) : List UInt8 := (T.log.filter fun x => x.1 = c).flatMap Prod.snd

end Traffic

section

variable {P C : Type} [DecidableEq C]

namespace Traffic

omit [DecidableEq C] in
lemma data_append (T : Traffic P C) (t : Sys P) (calls : C → Option (Job P)) (c : C)
    (new : List UInt8) : data ⟨t, calls, T.log ++ [(c, new)]⟩ = T.data ++ new := by
  simp [data]

lemma dataOf_append_self (T : Traffic P C) (t : Sys P) (calls : C → Option (Job P)) (c : C)
    (new : List UInt8) : dataOf ⟨t, calls, T.log ++ [(c, new)]⟩ c = T.dataOf c ++ new := by
  simp [dataOf]

lemma dataOf_append_of_ne (T : Traffic P C) (t : Sys P) (calls : C → Option (Job P)) {c c' : C}
    (h : c' ≠ c) (new : List UInt8) :
    dataOf ⟨t, calls, T.log ++ [(c, new)]⟩ c' = T.dataOf c' := by
  simp [dataOf, h.symm]

end Traffic

end

section

variable {P : Type} [DecidableEq P] {t t' : Sys P} {job : Job P} {r : Int}

lemma Wrote.of_sched {s s' : State} {me : Proc} {i : Fin NINODE} {src : Nat → Option UInt8}
    {off n : UInt32} (h : Wrote { s with me := me } s' i src off n r) :
    Wrote s s' i src off n r :=
  have hu {m} : Unchanged s { s with me := me } m := ⟨rfl, fun _ => rfl, fun _ => rfl⟩
  { h with
    sound := fun hs => h.sound (hs.sched me)
    others := fun m hm hne => hu.trans (h.others m hm hne)
    result := h.result.imp_left fun ⟨hr, hm, hno⟩ => ⟨hr, hu.trans hm, hno⟩ }

lemma Job.rounded (hc : Consistent t.fs) (hr : InRange t.fs (t.ftable job.file).ip)
    (h : job.round t = .ok (r, t')) : Rounded t t' job.file job.src job.i job.n1 r := by
  have hlock : wp (ilock ((t.switch job.proc).ftable job.file).ip) (fun _ s₁ =>
      Locked (t.switch job.proc).fs s₁ (t.ftable job.file).ip) (fun _ => True) (t.switch job.proc).fs :=
    ilock_spec (hc.sched _) hr trivial trivial trivial
  obtain ⟨fs, hw, rfl⟩ := (round_spec hlock).ok h
  exact ⟨fs, hw.of_sched, rfl⟩

end

end FypOs.Fs
