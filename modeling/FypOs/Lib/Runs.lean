import Mathlib.Init

/-!
# Lib — runs of a machine

A machine is a function `step` from states and events to outcomes.  `Reach step D s₀ s` says that
some sequence of events leads from `s₀` to `s`, each allowed, by `D`, in the state it is taken in.
-/

namespace FypOs.Lib

/-- Sample runs number their processes with literals of `Fin 2`. -/
scoped instance (priority := 2000) neZeroTwo : @NeZero Nat Zero.ofOfNat0 2 := ⟨by decide⟩

/-- Sample runs number their processes with literals of `Fin 3`. -/
scoped instance (priority := 2000) neZeroThree : @NeZero Nat Zero.ofOfNat0 3 := ⟨by decide⟩

/-- What a step comes to: a next state, a stop with a message, or nothing, when the step has to
wait or is not one the state allows. -/
inductive Outcome (σ : Type) where
  | ok (s : σ)
  | panic (msg : String)
  | blocked

/-- Continue from the next state, if there is one. -/
def Outcome.map {σ τ : Type} (f : σ → τ) : Outcome σ → Outcome τ
  | .ok s => .ok (f s)
  | .panic msg => .panic msg
  | .blocked => .blocked

lemma Outcome.map_eq_ok {σ τ : Type} {f : σ → τ} {o : Outcome σ} {t : τ}
    (h : o.map f = .ok t) : ∃ s, o = .ok s ∧ t = f s := by
  cases o with
  | ok s => cases h; exact ⟨s, rfl, rfl⟩
  | panic msg => cases h
  | blocked => cases h

lemma Outcome.map_eq_panic {σ τ : Type} {f : σ → τ} {o : Outcome σ} {msg : String}
    (h : o.map f = .panic msg) : o = .panic msg := by
  cases o with
  | ok s => cases h
  | panic msg => cases h; rfl
  | blocked => cases h

variable {σ ε : Type} {step : σ → ε → Outcome σ} {D : σ → ε → Prop} {s₀ s s' : σ}

/-- The states allowed runs from `s₀` lead to. -/
inductive Reach (step : σ → ε → Outcome σ) (D : σ → ε → Prop) (s₀ : σ) : σ → Prop where
  | refl : Reach step D s₀ s₀
  | tail {s s' : σ} {e : ε} (h : Reach step D s₀ s) (hd : D s e) (hs : step s e = .ok s') :
      Reach step D s₀ s'

namespace Reach

/-- **Invariants.**  What allowed steps keep, whole runs keep. -/
lemma invariant {I : σ → Prop} (h : Reach step D s₀ s) (h0 : I s₀)
    (hstep : ∀ {s e s'}, I s → D s e → step s e = .ok s' → I s') : I s := by
  induction h with
  | refl => exact h0
  | tail _ hd hs ih => exact hstep ih hd hs

lemma mono {D' : σ → ε → Prop} (h : Reach step D s₀ s) (hD : ∀ s e, D s e → D' s e) : Reach step D' s₀ s := by
  induction h with
  | refl => exact .refl
  | tail _ hd hs ih => exact .tail ih (hD _ _ hd) hs

lemma trans (h1 : Reach step D s₀ s) (h2 : Reach step D s s') : Reach step D s₀ s' := by
  induction h2 with
  | refl => exact h1
  | tail _ hd hs ih => exact .tail ih hd hs

end Reach

/-- Execute a sequence of events; one that is not allowed blocks. -/
def run (step : σ → ε → Outcome σ) (D : σ → ε → Prop) [∀ s e, Decidable (D s e)] :
    σ → List ε → Outcome σ
  | s, [] => .ok s
  | s, e :: es =>
    if D s e then
      match step s e with
      | .ok s' => run step D s' es
      | .panic msg => .panic msg
      | .blocked => .blocked
    else .blocked

lemma Reach.of_run [∀ s e, Decidable (D s e)] {es : List ε}
    (h : run step D s es = .ok s') : Reach step D s s' := by
  induction es generalizing s with
  | nil => cases h; exact .refl
  | cons e es ih =>
    simp only [run] at h
    split at h
    case isTrue hd =>
      cases hs : step s e with
      | ok s1 =>
        rw [hs] at h
        exact (Reach.tail .refl hd hs).trans (ih h)
      | panic msg => rw [hs] at h; cases h
      | blocked => rw [hs] at h; cases h
    case isFalse => cases h

/-- `run` reaches its end, in a state that passes the test `C`. -/
def runTest (step : σ → ε → Outcome σ) (D : σ → ε → Prop) [∀ s e, Decidable (D s e)] (s : σ)
    (es : List ε) (C : σ → Bool) : Bool :=
  match run step D s es with
  | .ok s' => C s'
  | _ => false

lemma Reach.of_runTest [∀ s e, Decidable (D s e)] {es : List ε} {C : σ → Bool}
    (h : runTest step D s es C = true) : ∃ s', Reach step D s s' ∧ C s' = true := by
  simp only [runTest] at h
  split at h
  · exact ⟨_, .of_run ‹_›, h⟩
  · cases h

/-- There is a next state, and it passes the test `C`. -/
def Outcome.test (o : Outcome σ) (C : σ → Bool) : Bool :=
  match o with
  | .ok s => C s
  | _ => false

lemma Outcome.of_test {o : Outcome σ} {C : σ → Bool} (h : o.test C = true) : ∃ s, o = .ok s ∧ C s = true := by
  cases o with
  | ok s => exact ⟨s, rfl, h⟩
  | panic msg => cases h
  | blocked => cases h

/-- What a computation returns, and a test of the state it ends in. -/
lemma Outcome.ok_of_test {α : Type} [DecidableEq α] {o : Outcome (α × σ)} {r : α} {Q : σ → Prop} [DecidablePred Q]
    (h : o.test (fun x => x.1 = r ∧ Q x.2) = true) : ∃ s, o = .ok (r, s) ∧ Q s := by
  obtain ⟨⟨r', s⟩, rfl, hx⟩ := of_test h
  obtain ⟨rfl, hq⟩ := of_decide_eq_true hx
  exact ⟨s, rfl, hq⟩

lemma Outcome.returns_of_test {α : Type} [DecidableEq α] {o : Outcome (α × σ)} {r : α}
    (h : o.test (fun x => x.1 = r) = true) : ∃ s, o = .ok (r, s) := by
  obtain ⟨⟨r', s⟩, rfl, hx⟩ := of_test h
  obtain rfl := of_decide_eq_true hx
  exact ⟨s, rfl⟩

/-- The step stops with the message `msg`. -/
def Outcome.stops (o : Outcome σ) (msg : String) : Bool :=
  match o with
  | .panic m => m == msg
  | _ => false

lemma Outcome.eq_panic_of_stops {o : Outcome σ} {msg : String} (h : o.stops msg = true) : o = .panic msg := by
  cases o with
  | panic m => simp only [stops, beq_iff_eq] at h; rw [h]
  | ok s => cases h
  | blocked => cases h

end FypOs.Lib
