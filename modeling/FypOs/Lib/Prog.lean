import FypOs.Lib.Runs

/-!
# Lib — programs that can stop

A program of type `Prog σ α` runs from a state and returns a value with a next state, stops with a
message, or waits for ever.  `wp m Q E s` says of the run of `m` from `s` that what it returns meets
`Q`, and that if it returns nothing the reason meets `E`; with an `E` that nothing meets, it says
that the run returns.
-/

namespace FypOs.Lib

/-- A program over the state `σ` that returns an `α`. -/
def Prog (σ α : Type) : Type := σ → Outcome (α × σ)

namespace Prog

variable {σ τ α β γ : Type}

/-- Run `m`, then `f` on what it returned, from the state it left. -/
def bind (m : Prog σ α) (f : α → Prog σ β) : Prog σ β := fun s =>
  match m s with
  | .ok (a, s') => f a s'
  | .panic msg => .panic msg
  | .blocked => .blocked

instance : Monad (Prog σ) where
  pure a := fun s => .ok (a, s)
  bind := Prog.bind

lemma bind_pure (m : Prog σ α) : m >>= pure = m := by
  funext s
  change Prog.bind m pure s = m s
  rw [Prog.bind]
  split <;> simp only [*] <;> rfl

lemma bind_assoc (m : Prog σ α) (f : α → Prog σ β) (g : β → Prog σ γ) :
    m >>= f >>= g = m >>= fun a => f a >>= g := by
  funext s
  change Prog.bind (Prog.bind m f) g s = Prog.bind m (fun a => Prog.bind (f a) g) s
  simp only [Prog.bind]
  cases m s with
  | ok r => rfl
  | panic msg => rfl
  | blocked => rfl

/-- Read something off the state. -/
def reads (f : σ → α) : Prog σ α := fun s => .ok (f s, s)

/-- Change the state. -/
def modify (f : σ → σ) : Prog σ Unit := fun s => .ok ((), f s)

/-- Stop with a message. -/
def panic (msg : String) : Prog σ α := fun _ => .panic msg

/-- Wait for ever. -/
def block : Prog σ α := fun _ => .blocked

/-- Run the body for each element in turn. -/
def forEach (body : β → Prog σ Unit) : List β → Prog σ Unit
  | [] => pure ()
  | x :: xs => do
    body x
    forEach body xs

/-- Run the body for each element in turn, until it returns a result. -/
def search (body : β → Prog σ (Option γ)) : List β → Prog σ (Option γ)
  | [] => pure none
  | x :: xs => do
    match ← body x with
    | some c => pure (some c)
    | none => search body xs

/-- The same program on a part of a larger state. -/
def zoom (get : τ → σ) (set : σ → τ → τ) (m : Prog σ α) : Prog τ α := fun t =>
  match m (get t) with
  | .ok (a, s') => .ok (a, set s' t)
  | .panic msg => .panic msg
  | .blocked => .blocked

/-- Why a run returns nothing. -/
inductive Stop where
  | panic (msg : String)
  | blocked
  deriving DecidableEq

/-- What the run of `m` from `s` returns meets `Q`, or it returns nothing and the reason meets
`E`. -/
def wp (m : Prog σ α) (Q : α → σ → Prop) (E : Stop → Prop) (s : σ) : Prop :=
  match m s with
  | .ok (a, s') => Q a s'
  | .panic msg => E (.panic msg)
  | .blocked => E .blocked

variable {m : Prog σ α} {f : α → Prog σ β} {Q Q' : α → σ → Prop} {R : β → σ → Prop}
  {E E' : Stop → Prop} {s s' : σ} {msg : String} {xs : List β} {a : α}

/-! ### Reading a run off -/

lemma wp.ok (h : wp m Q E s) (hm : m s = .ok (a, s')) : Q a s' := by
  rw [wp, hm] at h
  exact h

lemma wp.panic (h : wp m Q E s) (hm : m s = .panic msg) : E (.panic msg) := by
  rw [wp, hm] at h
  exact h

lemma wp.returns (h : wp m Q (fun _ => False) s) : ∃ a s', m s = .ok (a, s') ∧ Q a s' := by
  rw [wp] at h
  split at h
  · exact ⟨_, _, ‹_›, h⟩
  · exact h.elim
  · exact h.elim

/-! ### Rules -/

lemma wp_mono (h : wp m Q E s) (hQ : ∀ a s', Q a s' → Q' a s') (hE : ∀ e, E e → E' e) : wp m Q' E' s := by
  rw [wp] at h ⊢
  split at h
  · exact hQ _ _ h
  · exact hE _ h
  · exact hE _ h

lemma wp.post (h : wp m Q E s) (hQ : ∀ a s', Q a s' → Q' a s') : wp m Q' E s :=
  wp_mono h hQ fun _ hE => hE

lemma wp.and (h : wp m Q E s) (h' : wp m Q' E' s) : wp m (fun a s' => Q a s' ∧ Q' a s') E s := by
  rw [wp] at h h' ⊢
  cases e : m s with
  | ok r =>
    rw [e] at h h'
    exact ⟨h, h'⟩
  | panic msg | blocked =>
    rw [e] at h
    exact h

lemma wp_any (m : Prog σ α) (s : σ) : wp m (fun _ _ => True) (fun _ => True) s := by
  rw [wp]
  split <;> trivial

@[simp] lemma wp_pure : wp (pure a) Q E s ↔ Q a s := Iff.rfl

@[simp] lemma wp_bind : wp (m >>= f) R E s ↔ wp m (fun a => wp (f a) R E) E s := by
  change wp (Prog.bind m f) R E s ↔ _
  simp only [wp, Prog.bind]
  cases m s with
  | ok r => rfl
  | panic msg => rfl
  | blocked => rfl

@[simp] lemma wp_reads {g : σ → α} : wp (reads g) Q E s ↔ Q (g s) s := Iff.rfl

@[simp] lemma wp_modify {g : σ → σ} {Q : Unit → σ → Prop} : wp (modify g) Q E s ↔ Q () (g s) := Iff.rfl

@[simp] lemma wp_panic : wp (panic msg : Prog σ α) Q E s ↔ E (.panic msg) := Iff.rfl

@[simp] lemma wp_block : wp (block : Prog σ α) Q E s ↔ E .blocked := Iff.rfl

lemma wp_ite {c : Prop} [Decidable c] {m1 m2 : Prog σ α} (h1 : c → wp m1 Q E s)
    (h2 : ¬ c → wp m2 Q E s) : wp (if c then m1 else m2) Q E s := by
  split
  · exact h1 ‹_›
  · exact h2 ‹_›

@[simp] lemma wp_zoom {get : τ → σ} {set : σ → τ → τ} {Q : α → τ → Prop} {t : τ} :
    wp (zoom get set m) Q E t ↔ wp m (fun a s' => Q a (set s' t)) E (get t) := by
  simp only [wp, zoom]
  cases m (get t) with
  | ok r => rfl
  | panic msg => rfl
  | blocked => rfl

/-! ### Loops -/

/-- **Loops.**  `I xs` holds when `xs` is what is left to do. -/
lemma wp_forEach {body : β → Prog σ Unit} {Q : Unit → σ → Prop} (I : List β → σ → Prop) (h0 : I xs s)
    (hbody : ∀ x xs s, I (x :: xs) s → wp (body x) (fun _ => I xs) E s)
    (hend : ∀ s, I [] s → Q () s) : wp (forEach body xs) Q E s := by
  induction xs generalizing s with
  | nil => exact hend s h0
  | cons x xs ih =>
    rw [forEach, wp_bind]
    exact (hbody x xs s h0).post fun _ _ h => ih h

/-- **Loops with an early exit.**  As `wp_forEach`; a result the body returns ends the loop. -/
lemma wp_search {body : β → Prog σ (Option γ)} {Q : Option γ → σ → Prop} (I : List β → σ → Prop) (h0 : I xs s)
    (hbody : ∀ x xs s, I (x :: xs) s → wp (body x) (fun r s' => match r with
        | some c => Q (some c) s'
        | none => I xs s') E s)
    (hend : ∀ s, I [] s → Q none s) : wp (search body xs) Q E s := by
  induction xs generalizing s with
  | nil => exact hend s h0
  | cons x xs ih =>
    rw [search, wp_bind]
    refine (hbody x xs s h0).post fun r s' h => ?_
    cases r with
    | some c => exact h
    | none => exact ih h

/-! ### Parts of the state that a program leaves alone -/

/-- Every run of `m` that returns leaves `g` of the state as it was. -/
def Fixes (g : σ → τ) (m : Prog σ α) : Prop :=
  ∀ s, wp m (fun _ s' => g s' = g s) (fun _ => True) s

section

variable {g : σ → τ}

lemma fixes_pure {a : α} : Fixes g (pure a) := fun _ => rfl

lemma fixes_reads {h : σ → α} : Fixes g (reads h) := fun _ => rfl

lemma fixes_panic {msg : String} : Fixes g (panic msg : Prog σ α) := fun _ => trivial

lemma fixes_modify {h : σ → σ} (hg : ∀ s, g (h s) = g s) : Fixes g (modify h) := hg

lemma Fixes.bind (hm : Fixes g m) (hf : ∀ a, Fixes g (f a)) : Fixes g (m >>= f) := by
  intro s
  rw [wp_bind]
  exact (hm s).post fun a s1 h1 => (hf a s1).post fun _ _ h2 => h2.trans h1

lemma fixes_ite {c : Prop} [Decidable c] {m1 m2 : Prog σ α} (h1 : Fixes g m1)
    (h2 : Fixes g m2) : Fixes g (if c then m1 else m2) := by
  split
  · exact h1
  · exact h2

lemma fixes_search {body : β → Prog σ (Option γ)} (h : ∀ x, Fixes g (body x)) (xs : List β) :
    Fixes g (search body xs) := by
  induction xs with
  | nil => exact fixes_pure
  | cons x xs ih =>
    refine (h x).bind fun r => ?_
    cases r with
    | some c => exact fixes_pure
    | none => exact ih

lemma fixes_forEach {body : β → Prog σ Unit} (h : ∀ x, Fixes g (body x)) (xs : List β) :
    Fixes g (forEach body xs) := by
  induction xs with
  | nil => exact fixes_pure
  | cons x xs ih => exact (h x).bind fun _ => ih

end

end Prog

end FypOs.Lib
