import FypOs.Ipc.Files

/-!
# Ipc — what the table of open files says between calls

* `Counted`: counts of references and the ends of pipes, when no call is in progress.
-/

namespace FypOs.Ipc.Files

set_option linter.unusedSectionVars false

open Lib Function List Files.State

section Counting

variable {P G : Type} [Fintype P] [DecidableEq P] [DecidableEq G] {s₀ s s' : State P G} {p : P} {f : F}
  {e : Event P G} {g : G}

/-- The file is open, and is one end of the pipe `g`. -/
def File.IsEnd (x : File G) (g : G) (writable : Bool) : Prop :=
  0 < x.ref ∧ x.type = .pipe ∧ x.pipe = some g ∧ x.writable = writable

/-- The table between calls: references are descriptors, and ends of pipes that are open are files. -/
structure Counted (s : State P G) : Prop where
  ref : ∀ f, (s.files f).ref = ∑ p, slots (s.procs p).ofile f
  type : ∀ f, (s.files f).ref = 0 → (s.files f).type = .none
  opened : ∀ p fd f, (s.procs p).ofile fd = some f → (s.files f).ref ≠ 0
  ends : ∀ g e, s.pipes g = some e → ∀ w, e.isOpen w = true ↔ ∃ f, (s.files f).IsEnd g w
  pages : ∀ g, s.pipes g ≠ none ↔ ∃ f w, (s.files f).IsEnd g w

section
omit [DecidableEq P]

lemma Inv.isEnd_pos (hi : Inv s) {w : Bool} : 0 < (s.files f).isEnd g w ↔ (s.files f).IsEnd g w := by
  by_cases h : (s.files f).type = .pipe ∧ (s.files f).pipe = some g ∧ (s.files f).writable = w
  · refine ⟨fun _ => ⟨Nat.pos_of_ne_zero fun h0 => ?_, h⟩, fun _ => by simp [File.isEnd, h]⟩
    rw [hi.type f h0] at h
    cases h.1
  · simp [File.isEnd, File.IsEnd, h]

lemma Inv.freed (hi : Inv s) (hg : s.pipes g = none) (f : F) (w : Bool) : ¬ (s.files f).IsEnd g w := by
  intro h
  have h1 := hi.isEnd_pos.mpr h
  have h2 := hi.ends g w
  have h3 := le_tally (fun x : File G => x.isEnd g w) s.files f
  simp only [openEnds, hg, Option.elim, Bool.toNat_false] at h2
  omega

lemma Inv.isOpen_iff (hi : Inv s) (hquiet : ∀ p, (s.procs p).todo = []) {e : Ends} (hg : s.pipes g = some e)
    (w : Bool) : e.isOpen w = true ↔ ∃ f, (s.files f).IsEnd g w := by
  have hends := hi.ends g w
  rw [Finset.sum_eq_zero (fun p _ => pending_idle (hquiet p) g w)] at hends
  simp only [openEnds, hg, Option.elim, Nat.add_zero] at hends
  constructor
  · intro h
    rw [h, Bool.toNat_true] at hends
    obtain ⟨f, -, hf⟩ := Finset.exists_ne_zero_of_sum_ne_zero (hends.trans_ne Nat.one_ne_zero)
    exact ⟨f, hi.isEnd_pos.mp (Nat.pos_of_ne_zero hf)⟩
  · rintro ⟨f, hf⟩
    have h1 := hi.isEnd_pos.mpr hf
    have h2 := le_tally (fun x : File G => x.isEnd g w) s.files f
    cases h : e.isOpen w with
    | true => rfl
    | false =>
      rw [h, Bool.toNat_false] at hends
      omega

lemma Inv.counted (hi : Inv s) (hquiet : ∀ p, (s.procs p).todo = []) : Counted s := by
  have href (f : F) : (s.files f).ref = ∑ p, slots (s.procs p).ofile f := by
    rw [hi.ref f]
    exact Finset.sum_congr rfl fun p _ => held_idle (hquiet p) f
  refine ⟨href, hi.type, fun p fd f h => ?_, fun g e hg => hi.isOpen_iff hquiet hg, fun g => ⟨fun h => ?_, ?_⟩⟩
  · have h1 := slots_pos h
    have h2 := hi.held_le p f
    rw [held_idle (hquiet p)] at h2
    omega
  · obtain ⟨e, he⟩ := Option.ne_none_iff_exists'.mp h
    rcases hi.alive g e he with h | h
    · obtain ⟨f, hf⟩ := (hi.isOpen_iff hquiet he false).mp h
      exact ⟨f, false, hf⟩
    · obtain ⟨f, hf⟩ := (hi.isOpen_iff hquiet he true).mp h
      exact ⟨f, true, hf⟩
  · rintro ⟨f, w, h⟩ hg
    exact hi.freed hg f w h

end

/-! ### Calls that fail -/

/-- The calls of `p` that open files. -/
def Event.Opens (p : P) : Event P G → Prop
  | .open q _ _ _ | .pipe q | .dup q _ => q = p
  | .close _ _ | .fork _ _ | .exit _ | .task _ _ _ => False

/-- A section of the call of `p`. -/
def Event.isTask (p : P) : Event P G → Bool
  | .task q _ _ => q = p
  | .open _ _ _ _ | .pipe _ | .dup _ _ | .close _ _ | .fork _ _ | .exit _ => false

/-- Only `p` runs, inside its call. -/
def Alone (p : P) (s : State P G) (e : Event P G) : Prop := Allowed s e ∧ e.isTask p = true

instance decidableAllowed (s : State P G) : (e : Event P G) → Decidable (Allowed s e)
  | .task _ (some g) _ => inferInstanceAs (Decidable (s.pipes g = none))
  | .task _ none _ | .open _ _ _ _ | .pipe _ | .dup _ _ | .close _ _ | .fork _ _ | .exit _ => .isTrue trivial

instance (p : P) (s : State P G) (e : Event P G) : Decidable (Alone p s e) := inferInstanceAs (Decidable (_ ∧ _))

/-- The task closes a file that is free in `files`. -/
def Task.Within (files : F → File G) : Task P G → Prop
  | .close f => (files f).ref = 0
  | .pipeclose _ _ => True
  | .alloc _ | .page _ _ | .copy _ _ _ => False

/-- What a call that opens files has still to do, when the files of the call are free in `files`. -/
inductive Stage (files : F → File G) : List (Task P G) → Prop where
  | alloc {rf : F} (h : (files rf).ref = 0) : Stage files [.alloc rf]
  | page {rf wf : F} (h : (files rf).ref = 0) (h' : (files wf).ref = 0) : Stage files [.page rf wf]
  | closing {ts : List (Task P G)} (h : ∀ t ∈ ts, t.Within files) : Stage files ts

/-- The call that `p` has made in `s₀` has succeeded, or has changed only files that were free then. -/
structure Opening (s₀ : State P G) (p : P) (s : State P G) : Prop where
  others : ∀ q, q ≠ p → s.procs q = s₀.procs q
  live : (s.procs p).state = .running ∧ (s.procs p).exiting = none
  call : ((s.procs p).failed = false ∧ (s.procs p).todo = []) ∨
    ((s.procs p).ofile = (s₀.procs p).ofile ∧ Stage s₀.files (s.procs p).todo ∧
      ∀ f, (s₀.files f).ref ≠ 0 → s.files f = s₀.files f)

lemma Opening.of_update (hothers : ∀ q, q ≠ p → s.procs q = s₀.procs q) {files : F → File G} {pipes : G → Option Ends}
    {x : Proc P G} (hlive : x.state = .running ∧ x.exiting = none)
    (hcall : (x.failed = false ∧ x.todo = []) ∨ (x.ofile = (s₀.procs p).ofile ∧ Stage s₀.files x.todo ∧
      ∀ f, (s₀.files f).ref ≠ 0 → files f = s₀.files f)) :
    Opening s₀ p ⟨files, pipes, update s.procs p x⟩ := by
  refine ⟨fun q hq => ?_, ?_, ?_⟩
  · rw [← hothers q hq]
    exact update_of_ne hq ..
  · simpa using hlive
  · simpa using hcall

lemma kept_update {files : F → File G} (h : ∀ f, (s₀.files f).ref ≠ 0 → files f = s₀.files f) (hf : (s₀.files f).ref = 0)
    (y : File G) : ∀ f', (s₀.files f').ref ≠ 0 → update files f y f' = s₀.files f' := by
  intro f' hf'
  rw [update_of_ne (fun e : f' = f => hf' (e ▸ hf))]
  exact h f' hf'

lemma filealloc_kept (h : ∀ f, (s₀.files f).ref ≠ 0 → s.files f = s₀.files f) (hf : filealloc s.files = some f) :
    (s₀.files f).ref = 0 := by
  by_contra hne
  have := filealloc_some hf
  rw [h f hne] at this
  exact hne this

lemma Opening.of_call (he : e.Opens p) (hs : step s₀ e = .ok s) : s₀.Idle p ∧ Opening s₀ p s := by
  have hsame : ∀ f, (s₀.files f).ref ≠ 0 → s₀.files f = s₀.files f := fun _ _ => rfl
  have hfail (hidle : s₀.Idle p) : Opening s₀ p (s₀.setProc p { s₀.procs p with failed := true }) := by
    refine .of_update (fun _ _ => rfl) ⟨hidle.1, hidle.2.2⟩ (.inr ⟨rfl, ?_, hsame⟩)
    simp only [hidle.todo_eq]
    exact .closing fun t ht => by cases ht
  cases e with
  | «open» q device readable writable =>
    cases he
    simp only [step] at hs
    split at hs
    case isFalse => cases hs
    case isTrue hidle =>
      cases hs
      refine ⟨hidle, ?_⟩
      cases hf : filealloc s₀.files with
      | none =>
        simp only [sysOpen, hf]
        exact hfail hidle
      | some f =>
        cases hfd : fdalloc (s₀.procs p).ofile with
        | none =>
          simp only [sysOpen, hf, hfd]
          refine .of_update (fun _ _ => rfl) ⟨hidle.1, hidle.2.2⟩
            (.inr ⟨rfl, .closing fun t ht => ?_, kept_update hsame (filealloc_some hf) _⟩)
          rw [mem_singleton.mp ht]
          exact filealloc_some hf
        | some fd =>
          simp only [sysOpen, hf, hfd]
          exact .of_update (fun _ _ => rfl) ⟨hidle.1, hidle.2.2⟩ (.inl ⟨rfl, hidle.todo_eq⟩)
  | pipe q =>
    cases he
    simp only [step] at hs
    split at hs
    case isFalse => cases hs
    case isTrue hidle =>
      cases hs
      refine ⟨hidle, ?_⟩
      cases hf : filealloc s₀.files with
      | none =>
        simp only [sysPipe, hf]
        exact hfail hidle
      | some f =>
        simp only [sysPipe, hf]
        exact .of_update (fun _ _ => rfl) ⟨hidle.1, hidle.2.2⟩
          (.inr ⟨rfl, .alloc (filealloc_some hf), kept_update hsame (filealloc_some hf) _⟩)
  | dup q fd =>
    cases he
    simp only [step] at hs
    split at hs
    case isFalse => cases hs
    case isTrue hidle =>
      refine ⟨hidle, ?_⟩
      cases hf : (s₀.procs p).ofile fd with
      | none =>
        simp only [sysDup, hf] at hs
        cases hs
        exact hfail hidle
      | some f =>
        cases hfd : fdalloc (s₀.procs p).ofile with
        | none =>
          simp only [sysDup, hf, hfd] at hs
          cases hs
          exact hfail hidle
        | some fd' =>
          simp only [sysDup, hf, hfd] at hs
          split at hs
          · cases hs
          · cases hs
            exact .of_update (fun _ _ => rfl) ⟨hidle.1, hidle.2.2⟩ (.inl ⟨rfl, hidle.todo_eq⟩)
  | close | fork | exit | task => cases he

lemma Opening.task (h : Opening s₀ p s) {page : Option G} {copied : Bool}
    (hs : step s (.task p page copied) = .ok s') : Opening s₀ p s' := by
  simp only [step, runTask] at hs
  rcases h.call with ⟨-, hnil⟩ | ⟨hofile, hstage, hkept⟩
  · simp only [hnil, h.live.2] at hs
    cases hs
  generalize htodo : (s.procs p).todo = todo at hs hstage
  cases hstage with
  | alloc hrf =>
    cases hs
    cases hf : filealloc s.files with
    | none =>
      simp only [allocSecond, hf]
      refine .of_update h.others h.live (.inr ⟨hofile, .closing fun t ht => ?_, hkept⟩)
      rw [mem_singleton.mp ht]
      exact hrf
    | some wf =>
      have hwf := filealloc_kept hkept hf
      simp only [allocSecond, hf]
      exact .of_update h.others h.live (.inr ⟨hofile, .page hrf hwf, kept_update hkept hwf _⟩)
  | @page rf wf hrf hwf =>
    cases hs
    have hclose : Stage s₀.files [.close rf, .close wf] := .closing (P := P) fun t ht => by
      rcases mem_cons.mp ht with e | ht
      · rw [e]
        exact hrf
      · rw [mem_singleton.mp ht]
        exact hwf
    cases page with
    | none => exact .of_update h.others h.live (.inr ⟨hofile, hclose, hkept⟩)
    | some g =>
      have hfiles := fun y y' => kept_update (kept_update hkept hrf y) hwf y'
      rcases pipeFds_spec (s.procs p).ofile rf wf copied with hfd | ⟨hok, -⟩
      · simp only [finishPipe, hfd]
        exact .of_update h.others h.live (.inr ⟨hofile, hclose, hfiles _ _⟩)
      · obtain ⟨ofile, hfd⟩ : ∃ ofile, pipeFds (s.procs p).ofile rf wf copied = (ofile, true) := ⟨_, Prod.ext rfl hok⟩
        simp only [finishPipe, hfd]
        exact .of_update h.others h.live (.inl ⟨rfl, rfl⟩)
  | closing hwithin =>
    cases todo with
    | nil =>
      simp only [h.live.2] at hs
      cases hs
    | cons t rest =>
      obtain ⟨ht, hrest⟩ := forall_mem_cons.mp hwithin
      cases t with
      | close f =>
        have hkept' := kept_update hkept (f := f) ht
        simp only [fileclose] at hs
        split at hs
        · cases hs
        · split at hs
          · cases hs
            exact .of_update h.others h.live (.inr ⟨hofile, .closing hrest, hkept' _⟩)
          · split at hs
            · split at hs
              · cases hs
              · cases hs
                exact .of_update h.others h.live
                  (.inr ⟨hofile, .closing (forall_mem_cons.mpr ⟨trivial, hrest⟩), hkept' _⟩)
            · cases hs
              exact .of_update h.others h.live (.inr ⟨hofile, .closing hrest, hkept' _⟩)
      | pipeclose g w =>
        simp only [pipeclose] at hs
        split at hs
        · cases hs
        · cases hs
          exact .of_update h.others h.live (.inr ⟨hofile, .closing hrest, hkept⟩)
      | alloc | page | copy => exact ht.elim

lemma Opening.alone (h : Opening s₀ p s) (hd : Alone p s e) (hs : step s e = .ok s') : Opening s₀ p s' := by
  obtain ⟨-, he⟩ := hd
  cases e with
  | task q page copied =>
    obtain rfl : q = p := of_decide_eq_true he
    exact h.task hs
  | «open» | pipe | dup | close | fork | exit => cases he

/-- The call has failed: all counts are as before. -/
lemma Opening.failed (h : Opening s₀ p s) (hi0 : Inv s₀) (hi : Inv s) (hidle : s₀.Idle p)
    (htodo : (s.procs p).todo = []) (hfailed : (s.procs p).failed = true) :
    (∀ q, (s.procs q).ofile = (s₀.procs q).ofile) ∧
      ∀ f, (s.files f).ref = (s₀.files f).ref ∧ (s.files f).type = (s₀.files f).type ∧
        ((s₀.files f).ref ≠ 0 → s.files f = s₀.files f) := by
  obtain ⟨hofile, -, hkept⟩ : (s.procs p).ofile = (s₀.procs p).ofile ∧ Stage s₀.files (s.procs p).todo ∧
      ∀ f, (s₀.files f).ref ≠ 0 → s.files f = s₀.files f := by
    rcases h.call with hc | hc
    · rw [hfailed] at hc
      cases hc.1
    · exact hc
  have href (f : F) : (s.files f).ref = (s₀.files f).ref := by
    rw [hi.ref f, hi0.ref f]
    refine Finset.sum_congr rfl fun q _ => ?_
    by_cases e : q = p
    · rw [e, held_idle htodo, held_idle hidle.todo_eq, hofile]
    · rw [h.others q e]
  refine ⟨fun q => ?_, fun f => ⟨href f, ?_, hkept f⟩⟩
  · by_cases e : q = p
    · rw [e]
      exact hofile
    · rw [h.others q e]
  · by_cases h0 : (s₀.files f).ref = 0
    · rw [hi0.type f h0, hi.type f ((href f).trans h0)]
    · rw [hkept f h0]

/-! ### Calls among others -/

/-- The event is not the start of a call of `p`. -/
def Event.Others (p : P) : Event P G → Prop
  | .open q _ _ _ | .pipe q | .dup q _ | .close q _ | .fork q _ | .exit q => q ≠ p
  | .task _ _ _ => True

/-- While `p` is in its call, the other processes do as they like. -/
def During (p : P) (s : State P G) (e : Event P G) : Prop := Allowed s e ∧ e.Others p

lemma setProc_of_ne {q : P} (h : q ≠ p) (x : Proc P G) : (s.setProc q x).procs p = s.procs p :=
  update_of_ne h.symm ..

/-- **Processes are apart**: what another one does leaves the descriptors and the call of `p` alone. -/
lemma step_apart (hs : step s e = .ok s') (he : e.Others p) (hrun : (s.procs p).state = .running)
    (htask : ∀ page copied, e ≠ .task p page copied) : s'.procs p = s.procs p := by
  cases e with
  | «open» q device readable writable =>
    simp only [step, sysOpen] at hs
    grind [setProc_of_ne, setFile, Event.Others]
  | pipe q =>
    simp only [step, sysPipe] at hs
    grind [setProc_of_ne, setFile, Event.Others]
  | dup q fd =>
    simp only [step, sysDup] at hs
    grind [setProc_of_ne, setFile, Event.Others]
  | close q fd =>
    simp only [step, sysClose] at hs
    grind [setProc_of_ne, setFile, Event.Others]
  | fork q r | exit q =>
    simp only [step] at hs
    grind [setProc_of_ne, setFile, Event.Others]
  | task q page copied =>
    have hne : q ≠ p := fun e => htask page copied (by rw [e])
    simp only [step, runTask] at hs
    split at hs
    · simp only [dropNext] at hs
      grind [setProc_of_ne, setFile]
    · simp only [fileclose] at hs
      grind [setProc_of_ne, setFile]
    · simp only [pipeclose] at hs
      grind [setProc_of_ne, setFile]
    · simp only [allocSecond] at hs
      grind [setProc_of_ne, setFile]
    · simp only [finishPipe] at hs
      grind [setProc_of_ne, setFile, pipeFiles]
    · simp only [copyNext] at hs
      grind [setProc_of_ne, setFile]

lemma Stage.mono {files files' : F → File G} {ts : List (Task P G)} (h : Stage files ts)
    (hfree : ∀ f, (files f).ref = 0 → (files' f).ref = 0) : Stage files' ts := by
  cases h with
  | alloc h => exact .alloc (hfree _ h)
  | page h h' => exact .page (hfree _ h) (hfree _ h')
  | closing h =>
    refine .closing fun t ht => ?_
    have := h t ht
    cases t with
    | close f => exact hfree f this
    | pipeclose g w => trivial
    | alloc | page | copy => exact this.elim

/-- The call as it is when it had started with the other processes as they are now, and with no file open. -/
lemma Opening.rebase (h : Opening s₀ p s) (hp : s'.procs p = s.procs p) :
    Opening ⟨fun _ => ⟨0, .none, false, false, none⟩, s₀.pipes, update s'.procs p (s₀.procs p)⟩ p s' := by
  refine ⟨fun q hq => (update_of_ne hq ..).symm, hp ▸ h.live, ?_⟩
  rw [hp]
  rcases h.call with hc | ⟨h1, h2, -⟩
  · exact .inl hc
  · refine .inr ⟨?_, h2.mono fun _ _ => rfl, fun f hf => absurd rfl hf⟩
    rw [h1]
    simp

/-- **A call that opens files** and fails leaves the descriptors of its process as they were, whatever the others do. -/
lemma Opening.ofile_eq (h : Opening s₀ p s) (hrun : Reach step (During p) s s')
    (hfailed : (s'.procs p).failed = true) : (s'.procs p).ofile = (s₀.procs p).ofile := by
  obtain ⟨s1, h1, heq⟩ : ∃ s1, Opening s1 p s' ∧ (s1.procs p).ofile = (s₀.procs p).ofile := by
    refine hrun.invariant (I := fun s => ∃ s1, Opening s1 p s ∧ (s1.procs p).ofile = (s₀.procs p).ofile) ⟨s₀, h, rfl⟩
      fun {s e s'} hI hd hs => ?_
    obtain ⟨s1, h1, heq⟩ := hI
    by_cases htask : ∃ page copied, e = .task p page copied
    · obtain ⟨page, copied, rfl⟩ := htask
      exact ⟨s1, h1.task hs, heq⟩
    · have hp := step_apart hs hd.2 h1.live.1 fun page copied e => htask ⟨page, copied, e⟩
      refine ⟨_, h1.rebase hp, ?_⟩
      simpa using heq
  rcases h1.call with hc | hc
  · rw [hfailed] at hc
    cases hc.1
  · exact hc.1.trans heq

/-! ### Runs -/

/-- **Open files are counted** in every run, from the start and with any failures: no step stops with a panic, so that
no reference is dropped twice and no page is freed twice; between calls the table is `Counted`; a page that is freed
has no file; and a call that fails leaves the descriptors of its process as they were, whatever others do meanwhile,
and when they do nothing it leaves the files that are open as they were, and the others free. -/
theorem files_counted (live : P → Bool) (h : Reach step Allowed (start live : State P G) s) :
    (∀ e, Allowed s e → step s e = .blocked ∨ ∃ s', step s e = .ok s') ∧
    ((∀ p, (s.procs p).todo = []) → Counted s) ∧
    (∀ e s' g, Allowed s e → step s e = .ok s' → s.pipes g ≠ none → s'.pipes g = none →
      ∀ f w, ¬ (s'.files f).IsEnd g w) ∧
    (∀ p e s₁ s', Allowed s e → e.Opens p → step s e = .ok s₁ → Reach step (During p) s₁ s' →
      (s'.procs p).todo = [] → (s'.procs p).failed = true → (s'.procs p).ofile = (s.procs p).ofile) ∧
    ∀ p e s₁ s', Allowed s e → e.Opens p → step s e = .ok s₁ → Reach step (Alone p) s₁ s' →
      (s'.procs p).todo = [] → (s'.procs p).failed = true →
      (∀ q, (s'.procs q).ofile = (s.procs q).ofile) ∧
        ∀ f, (s'.files f).ref = (s.files f).ref ∧ (s'.files f).type = (s.files f).type ∧
          ((s.files f).ref ≠ 0 → s'.files f = s.files f) := by
  have hi := Inv.of_reach h
  refine ⟨fun e hd => ?_, hi.counted, fun e s' g hd hs _ hg => (Inv.of_reach (h.tail hd hs)).freed hg,
    fun p e s₁ s' _ he hs hrun _ => (Opening.of_call he hs).2.ofile_eq hrun, fun p e s₁ s' hd he hs hrun htodo hfailed => ?_⟩
  · rcases hi.does hd with hb | ⟨s', hs, -⟩
    · exact .inl hb
    · exact .inr ⟨s', hs⟩
  · obtain ⟨hidle, ho⟩ := Opening.of_call he hs
    have ho' : Opening s p s' := by
      refine hrun.invariant (I := Opening s p) ho fun ho hd hs => ?_
      exact ho.alone hd hs
    have hreach := (h.tail hd hs).trans (hrun.mono fun s e h => h.1)
    exact ho'.failed hi (Inv.of_reach hreach) hidle htodo hfailed

end Counting

lemma nfile_pos : 0 < NFILE := by decide

/-- The first file of the table, and a descriptor. -/
def file₀ : F := ⟨0, nfile_pos⟩

def fd₉ : Fin NOFILE := ⟨9, by decide⟩

/-- A process opens a file, forks and makes a pipe. -/
def sampleRun : List (Event (Fin 2) Unit) :=
  [.open 0 false true true, .fork 0 1] ++ List.replicate 17 (.task 0 none true) ++
    [.pipe 0, .task 0 none true, .task 0 (some ()) true]

/-- Two processes share a file, there is a pipe, and `dup` of a descriptor that is not open fails. -/
theorem files_counted_sample : ∃ s s₁ : State (Fin 2) Unit,
    Reach step Allowed (start fun p => p = 0) s ∧ Counted s ∧ (s.files file₀).ref = 2 ∧ s.pipes () ≠ none ∧
      step s (.dup 0 fd₉) = .ok s₁ ∧ ∀ q, (s₁.procs q).ofile = (s.procs q).ofile := by
  obtain ⟨s, h, hC⟩ := Reach.of_runTest (show runTest step Allowed (start fun p => p = 0) sampleRun (fun s =>
    (List.finRange 2).all (fun p => (s.procs p).todo.isEmpty) && (s.files file₀).ref == 2 && (s.pipes ()).isSome &&
      (step s (.dup 0 fd₉)).test fun s₁ => (s₁.procs 0).todo.isEmpty && (s₁.procs 0).failed) = true by decide +kernel)
  simp only [Bool.and_eq_true, beq_iff_eq, all_eq_true, List.isEmpty_iff] at hC
  obtain ⟨⟨⟨hquiet, href⟩, hpipe⟩, htest⟩ := hC
  obtain ⟨s₁, hs, h₁⟩ := Outcome.of_test htest
  simp only [Bool.and_eq_true, List.isEmpty_iff] at h₁
  obtain ⟨-, hcounted, -, -, hfail⟩ := files_counted _ h
  exact ⟨s, s₁, h, hcounted fun p => hquiet p (mem_finRange p), href, Option.isSome_iff_ne_none.mp hpipe, hs,
    (hfail 0 (.dup 0 fd₉) s₁ s₁ trivial rfl hs .refl h₁.1 h₁.2).1⟩

/-- `sys_pipe` whose `copyout` fails: its two entries of the table are free again, but keep what `pipealloc` has
written. -/
theorem failed_pipe_writes : ∃ s₁ s' : State (Fin 2) Unit,
    step (start fun _ => true) (.pipe 0) = .ok s₁ ∧ Reach step (Alone 0) s₁ s' ∧
      (s'.procs 0).todo = [] ∧ (s'.procs 0).failed = true ∧
      s'.files ≠ (start fun _ => true : State (Fin 2) Unit).files := by
  obtain ⟨s', h, hC⟩ := Reach.of_runTest (show runTest step (Alone 0)
    (sysPipe (start fun _ => true : State (Fin 2) Unit) 0)
    [.task 0 none true, .task 0 (some ()) false, .task 0 none true, .task 0 none true, .task 0 none true,
      .task 0 none true]
    (fun s => (s.procs 0).todo.isEmpty && (s.procs 0).failed && (s.files file₀).readable) = true by decide +kernel)
  simp only [Bool.and_eq_true, List.isEmpty_iff] at hC
  refine ⟨_, s', rfl, h, hC.1.1, hC.1.2, fun e => ?_⟩
  have hread := hC.2
  rw [e] at hread
  cases hread

end FypOs.Ipc.Files
