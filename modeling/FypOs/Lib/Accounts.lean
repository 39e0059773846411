import FypOs.Lib.Prog
import Mathlib.Tactic.Abel

/-!
# Lib — programs that hold resources

A call gets resources while it runs and gives them back.  What it holds is a value of a monoid `H`;
`Step a b s s'` says that a part of a run that starts by holding `a` and ends by holding `b` may lead
from `s` to `s'`, and `Owns a s` that whoever is about to run from `s` may hold `a`.

* `Does.bind`: a part of a program is run with what it needs, and the rest of what is held stands
  by.
-/

namespace FypOs.Lib
open Prog

/-- An account of what the parts of a run hold. -/
structure Accounts (σ H : Type) [AddCommMonoid H] where
  Owns : H → σ → Prop
  Step : H → H → σ → σ → Prop
  refl {a : H} {s : σ} : Owns a s → Step a a s s
  trans {a b c : H} {s s₁ s' : σ} : Step a b s s₁ → Step b c s₁ s' → Step a c s s'
  /-- What is not used stands by. -/
  frame {a b : H} {s s' : σ} (c : H) : Step a b s s' → Step (c + a) (c + b) s s'
  weaken {c a : H} {s : σ} : Owns (c + a) s → Owns a s
  next {a b : H} {s s' : σ} : Owns a s → Step a b s s' → Owns b s'

namespace Accounts

variable {σ H α β : Type} [AddCommMonoid H] (A : Accounts σ H)

/-- From `s`, `m` takes a caller that holds `a` to one that holds `b r`. -/
def Does (a : H) (m : Prog σ α) (b : α → H) (Q : α → σ → Prop) (E : Prog.Stop → Prop) (s : σ) :
    Prop :=
  A.Owns a s → wp m (fun r s' => A.Step a (b r) s s' ∧ Q r s') E s

variable {A} {a : H} {m m₁ m₂ : Prog σ α} {f : α → Prog σ β} {b : α → H} {d : β → H}
  {Q Q' : α → σ → Prop} {R : β → σ → Prop} {E : Prog.Stop → Prop} {s : σ} {y : α → H} {c x : H}

lemma Does.post (h : A.Does a m b Q E s) (hQ : ∀ r s', A.Step a (b r) s s' → Q r s' → Q' r s') :
    A.Does a m b Q' E s :=
  fun ha => (h ha).post fun r s' hs => ⟨hs.1, hQ r s' hs.1 hs.2⟩

lemma Does.stops {E' : Prog.Stop → Prop} (h : A.Does a m b Q E s) (hE : ∀ e, E e → E' e) :
    A.Does a m b Q E' s :=
  fun ha => wp_mono (h ha) (fun _ _ hs => hs) hE

lemma Does.pure {r : α} (hb : a = b r) (hQ : Q r s) : A.Does a (pure r) b Q E s :=
  fun ha => ⟨hb ▸ A.refl ha, hQ⟩

/-- **Sequencing.**  The first part uses `x` of what is held, and `c` stands by. -/
lemma Does.bind (hm : A.Does x m y Q E s) (ha : a = c + x)
    (hf : ∀ r s1, A.Step x (y r) s s1 → Q r s1 → A.Does (c + y r) (f r) d R E s1) :
    A.Does a (m >>= f) d R E s := by
  subst ha
  intro howns
  rw [wp_bind]
  refine (hm (A.weaken howns)).post fun r s1 hr => ?_
  have hstep := A.frame c hr.1
  refine (hf r s1 hr.1 hr.2 (A.next howns hstep)).post fun t s' ht => ?_
  exact ⟨A.trans hstep ht.1, ht.2⟩

lemma Does.frame (hm : A.Does x m y Q E s) (ha : a = c + x) (hb : ∀ r, b r = c + y r) : A.Does a m b Q E s := by
  subst ha
  intro howns
  refine (hm (A.weaken howns)).post fun r s' hr => ⟨?_, hr.2⟩
  rw [hb]
  exact A.frame c hr.1

lemma does_reads {g : σ → α} (h : A.Does a (f (g s)) d R E s) : A.Does a (reads g >>= f) d R E s :=
  fun ha => by
    rw [wp_bind, wp_reads]
    exact h ha

lemma does_panic {msg : String} (h : E (.panic msg)) : A.Does a (panic msg) b Q E s :=
  fun _ => h

lemma does_ite {c : Prop} [Decidable c] (h1 : c → A.Does a m₁ b Q E s)
    (h2 : ¬ c → A.Does a m₂ b Q E s) : A.Does a (if c then m₁ else m₂) b Q E s :=
  fun ha => wp_ite (fun hc => h1 hc ha) fun hc => h2 hc ha

end Accounts

/-! ### Loads

What is held may also be read off the state, as an element of a group: `Pays keep load a m b` says of
the program `m`, from any state, that it changes the load by `b r - a`, and leaves `keep` of the state
as it was. -/

section

variable {σ τ υ H α β γ : Type} [AddCommGroup H] {A : Accounts σ H} {keep : σ → υ} {load : σ → H}
  {a x : H} {m m₁ m₂ : Prog σ α} {f : α → Prog σ β} {b y : α → H} {d : β → H} {Q : α → σ → Prop}
  {R : β → σ → Prop} {E : Prog.Stop → Prop} {s : σ}

/-- Sequencing, where what stands by is what is left. -/
lemma Accounts.Does.next (hm : A.Does x m y Q E s)
    (hf : ∀ r s1, A.Step x (y r) s s1 → Q r s1 → A.Does (a - x + y r) (f r) d R E s1) :
    A.Does a (m >>= f) d R E s :=
  hm.bind (sub_add_cancel a x).symm hf

lemma Accounts.Does.last (hm : A.Does x m y Q E s) (hb : ∀ r, b r = a - x + y r) : A.Does a m b Q E s :=
  hm.frame (sub_add_cancel a x).symm hb

def Pays (keep : σ → υ) (load : σ → H) (a : H) (m : Prog σ α) (b : α → H) : Prop :=
  ∀ s, wp m (fun r s' => keep s' = keep s ∧ load s' + a = load s + b r) (fun _ => True) s

lemma Pays.bind (hm : Pays keep load x m y) (hf : ∀ r, Pays keep load (a - x + y r) (f r) d) :
    Pays keep load a (m >>= f) d := by
  intro s
  rw [wp_bind]
  refine (hm s).post fun r s1 h1 => (hf r s1).post fun t s' h2 => ⟨h2.1.trans h1.1, ?_⟩
  calc load s' + a
      = load s' + (a - x + y r) + x - y r := by abel
    _ = load s1 + x + d t - y r := by rw [h2.2]; abel
    _ = load s + d t := by rw [h1.2]; abel

lemma pays_pure {r : α} (h : a = b r) : Pays keep load a (pure r) b :=
  fun _ => ⟨rfl, by rw [h]⟩

lemma Pays.last (h : Pays keep load x m y) (hb : ∀ r, b r = a - x + y r) : Pays keep load a m b := by
  refine fun s => (h s).post fun r s' e => ⟨e.1, ?_⟩
  calc load s' + a
      = load s' + x + (a - x) := by abel
    _ = load s + (a - x + y r) := by rw [e.2]; abel
    _ = load s + b r := by rw [hb]

lemma pays_reads {h : σ → α} (hf : ∀ r, Pays keep load a (f r) d) :
    Pays keep load a (reads h >>= f) d := fun s => by
  rw [wp_bind, wp_reads]
  exact hf (h s) s

lemma pays_panic {msg : String} : Pays keep load a (panic msg) b := fun _ => trivial

lemma pays_ite {c : Prop} [Decidable c] (h1 : c → Pays keep load a m₁ b)
    (h2 : ¬ c → Pays keep load a m₂ b) : Pays keep load a (if c then m₁ else m₂) b :=
  fun s => wp_ite (fun h => h1 h s) fun h => h2 h s

lemma pays_search {body : β → Prog σ (Option γ)} {b : Option γ → H}
    (h : ∀ x, Pays keep load (b none) (body x) b) (xs : List β) :
    Pays keep load (b none) (search body xs) b := by
  induction xs with
  | nil => exact pays_pure rfl
  | cons x xs ih =>
    refine (h x).bind fun r => ?_
    rw [sub_self, zero_add]
    cases r with
    | some c => exact pays_pure rfl
    | none => exact ih

lemma pays_of_fixes {g : σ → τ} (h : Prog.Fixes g m)
    (hg : ∀ s s', g s' = g s → keep s' = keep s ∧ load s' = load s) :
    Pays keep load a m fun _ => a :=
  fun s => (h s).post fun _ s' e => ⟨(hg s s' e).1, by rw [(hg s s' e).2]⟩

end

end FypOs.Lib
