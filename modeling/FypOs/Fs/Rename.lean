import FypOs.Fs.Balance

/-!
# Fs — rename

`rename` has five ends.  Two of them, success and a path without a parent, give back what the call has
got; the other three keep a reference to the directory, or the reference and the lock of the inode.
-/

namespace FypOs.Fs

open Lib Prog

section

variable {α β : Type} {a x : Load} {m m₁ m₂ : FsM α} {f : α → FsM β} {b y : α → Load}
  {L : α → Load → Prop} {M : β → Load → Prop} {s s' : State} {dp : Fin NINODE}

/-- From any state, the program changes the load by `l - a`, for some `l` that goes with what it
returns. -/
def Ends (a : Load) (m : FsM α) (L : α → Load → Prop) : Prop :=
  ∀ s, wp m (fun r s' => s'.me = s.me ∧ ∃ l, s'.load + a = s.load + l ∧ L r l) (fun _ => True) s

lemma Ends.bind (hm : Costs x m y) (hf : ∀ r, Ends (a - x + y r) (f r) M) : Ends a (m >>= f) M := by
  intro s
  rw [wp_bind]
  refine (hm s).post fun r s1 h1 => (hf r s1).post fun t s' h2 => ?_
  obtain ⟨hme, l, hl, hM⟩ := h2
  refine ⟨hme.trans h1.1, l, ?_, hM⟩
  linear_combination hl + h1.2

end

end FypOs.Fs
