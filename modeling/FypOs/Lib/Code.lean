import FypOs.Lib.Prog

/-!
# Lib — programs as sequences of actions

A program of type `Code A R α` performs actions of type `A`, one after the other, and returns an `α`;
an action `a` answers with an `R a`, on which the rest of the program depends.  What the actions do
is given apart, by a function `den` to programs over a state.

* `Code.run den c`: the program run without interruption; `run_bind` says that it runs its parts one
  after the other.
-/

namespace FypOs.Lib

/-- Programs over the actions `A` with answers in `R`. -/
inductive Code (A : Type) (R : A → Type) (α : Type) : Type where
  | ret (a : α)
  | act (a : A) (k : R a → Code A R α)

namespace Code

variable {A : Type} {R : A → Type} {σ τ α β γ : Type}

/-- Run `c`, then `f` on what it returned. -/
def bind : Code A R α → (α → Code A R β) → Code A R β
  | ret a, f => f a
  | act a k, f => act a fun r => (k r).bind f

instance : Monad (Code A R) where
  pure := ret
  bind := bind

/-- A single action. -/
def one (a : A) : Code A R (R a) := act a ret

/-- Run the body for each element in turn, until it returns a result. -/
def search (body : β → Code A R (Option γ)) : List β → Code A R (Option γ)
  | [] => pure none
  | x :: xs => do
    match ← body x with
    | some c => pure (some c)
    | none => search body xs

/-- Run the body for each element in turn. -/
def forEach (body : β → Code A R Unit) : List β → Code A R Unit
  | [] => pure ()
  | x :: xs => do
    body x
    forEach body xs

lemma act_bind (a : A) (k : R a → Code A R α) (f : α → Code A R β) :
    act a k >>= f = act a fun r => k r >>= f := rfl

/-! ### Running without interruption -/

variable (den : (a : A) → Prog σ (R a))

def run : Code A R α → Prog σ α
  | ret a => pure a
  | act a k => do
    let r ← den a
    run (k r)

@[simp] lemma run_pure (a : α) : run den (pure a : Code A R α) = pure a := rfl

@[simp] lemma run_one (a : A) : run den (one a) = den a := Prog.bind_pure (den a)

@[simp] lemma run_bind (c : Code A R α) (f : α → Code A R β) :
    run den (c >>= f) = run den c >>= fun a => run den (f a) := by
  induction c with
  | ret a => rfl
  | act a k ih =>
    rw [act_bind, run, run, Prog.bind_assoc]
    exact bind_congr ih

@[simp] lemma run_ite {c : Prop} [Decidable c] (x y : Code A R α) :
    run den (if c then x else y) = if c then run den x else run den y := by
  split <;> rfl

lemma run_search (body : β → Code A R (Option γ)) (xs : List β) :
    run den (search body xs) = Prog.search (fun x => run den (body x)) xs := by
  induction xs with
  | nil => rfl
  | cons x xs ih =>
    rw [search, run_bind, Prog.search]
    refine bind_congr fun r => ?_
    cases r with
    | none => exact ih
    | some c => rfl

end Code

end FypOs.Lib
