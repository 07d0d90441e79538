import L4Server.Library.Automaton
import Mathlib.Algebra.BigOperators.Ring.List
import Mathlib.Algebra.Ring.Nat

/-!
Simulation of one machine by another. A step of the first is seen as events of
the second, none or several, and what is seen of a run of the first is a run of
the second. Runs of the second are then bounded by potentials on its states.
-/
namespace Automaton

variable {σ ε η τ α ζ : Type}

/-- What is seen of a run, step by step. -/
def seen (M : Machine σ ε η) (see : σ → ε → σ → List α) : List ε → σ → List α
  | [], _ => []
  | e :: es, s =>
      match M.step s e with
      | .ok t => see s e t ++ seen M see es t
      | .error _ => []

/-- Related states stay related when `N` does what is seen of a step of `M`. -/
structure Simulates (M : Machine σ ε η) (N : Machine τ α ζ) (see : σ → ε → σ → List α)
    (R : σ → τ → Prop) : Prop where
  start : ∀ s, M.start s → ∃ a, N.start a ∧ R s a
  step : ∀ s t a e, R s a → M.step s e = .ok t → ∃ b, run N (see s e t) a = .ok b ∧ R t b

variable {M : Machine σ ε η} {N : Machine τ α ζ} {see : σ → ε → σ → List α} {R : σ → τ → Prop}

theorem run_append {as : List α} {a b : τ} (h : run N as a = .ok b) (bs : List α) :
    run N (as ++ bs) a = run N bs b := by
  induction as generalizing a with
  | nil =>
      cases h
      rfl
  | cons e as ih =>
      cases hstep : N.step a e with
      | error r => simp [run, hstep] at h
      | ok c =>
          simp only [run, hstep] at h
          simpa only [List.cons_append, run, hstep] using ih h

/-- What is seen of a run is a run. -/
theorem Simulates.run_seen (h : Simulates M N see R) {es : List ε} {s t : σ} {a : τ}
    (hR : R s a) (hr : run M es s = .ok t) :
    ∃ b, run N (seen M see es s) a = .ok b ∧ R t b := by
  induction es generalizing s a with
  | nil =>
      cases hr
      exact ⟨a, rfl, hR⟩
  | cons e es ih =>
      cases hstep : M.step s e with
      | error r => simp [run, hstep] at hr
      | ok u =>
          simp only [run, hstep] at hr
          obtain ⟨b, hb, hu⟩ := h.step s u a e hR hstep
          obtain ⟨c, hc, ht⟩ := ih hu hr
          refine ⟨c, ?_, ht⟩
          simp only [seen, hstep]
          rw [run_append hb, hc]

/-- A run that is seen as its events. -/
theorem seen_events {es : List ε} {s t : σ} (h : run M es s = .ok t) :
    seen M (fun _ e _ => [e]) es s = es := by
  induction es generalizing s with
  | nil => rfl
  | cons e es ih =>
      cases hstep : M.step s e with
      | error r => simp [run, hstep] at h
      | ok u =>
          simp only [run, hstep] at h
          simp only [seen, hstep, ih h, List.singleton_append]

/-- Every state that is reached by guarded steps is related to one that is reached so,
when what is seen of a guarded step is guarded. -/
theorem Simulates.reached_guarded (h : Simulates M N see R) {guard : σ → ε → Prop}
    {guard' : τ → α → Prop}
    (hguard : ∀ s t a e, R s a → guard s e → M.step s e = .ok t → Guarded N guard' (see s e t) a)
    {s : σ} (hs : Reach M guard s) : ∃ a, Reach N guard' a ∧ R s a := by
  induction hs with
  | start h0 =>
      obtain ⟨a, ha, hR⟩ := h.start _ h0
      exact ⟨a, .start ha, hR⟩
  | step _ hg ht ih =>
      obtain ⟨a, ha, hR⟩ := ih
      obtain ⟨b, hb, hR'⟩ := h.step _ _ a _ hR ht
      exact ⟨b, reach_of_run ha (hguard _ _ a _ hR hg ht) hb, hR'⟩

/-- Every state that is reached is related to one that is. -/
theorem Simulates.reached (h : Simulates M N see R) {s : σ} (hs : Reachable M s) :
    ∃ a, Reachable N a ∧ R s a :=
  h.reached_guarded (fun _ _ a _ _ _ _ => guarded_of_forall (fun _ _ _ => trivial) a) hs

/-- Amortised cost: where each step pays from its gain and the potential, so does a run. -/
theorem run_amortized (cost gain : α → Nat) (φ : τ → Nat)
    (hstep : ∀ a e b, N.step a e = .ok b → cost e + φ b ≤ φ a + gain e) {as : List α} {a b : τ}
    (h : run N as a = .ok b) : (as.map cost).sum + φ b ≤ φ a + (as.map gain).sum := by
  induction as generalizing a with
  | nil =>
      cases h
      simp
  | cons e as ih =>
      cases hs : N.step a e with
      | error r => simp [run, hs] at h
      | ok c =>
          simp only [run, hs] at h
          have hfirst := hstep a e c hs
          have hrest := ih h
          simp only [List.map_cons, List.sum_cons]
          omega

end Automaton
