import L4Server.Library.Automaton
import Mathlib.Order.Basic
import Mathlib.Data.Nat.Init

/-!
Runs without end, and what must happen in them. A phase that cannot last for
ever comes to the event that ends it; ranks that go down from phase to phase
come to the goal.
-/
namespace Automaton

variable {σ ε η : Type} {M : Machine σ ε η}

/-- A run without end, from any state. -/
structure Endless (M : Machine σ ε η) where
  state : Nat → σ
  event : Nat → ε
  step : ∀ n, M.step (state n) (event n) = .ok (state (n + 1))

namespace Endless
variable (r : Endless M)

theorem reach {guard : σ → ε → Prop} (hstart : M.start (r.state 0))
    (hguard : ∀ n, guard (r.state n) (r.event n)) (n : Nat) : Reach M guard (r.state n) := by
  induction n with
  | zero => exact .start hstart
  | succ n ih => exact .step ih (hguard n) (r.step n)

/-- What is kept until an event, and not for ever, comes to the event. -/
theorem until_event (P : σ → Prop) (act : Nat → Prop)
    (hkeep : ∀ n, P (r.state n) → act n ∨ P (r.state (n + 1)))
    (hends : ∀ n, (∀ m, n ≤ m → P (r.state m) ∧ ¬ act m) → False) {n : Nat}
    (h : P (r.state n)) : ∃ m, n ≤ m ∧ act m ∧ P (r.state m) := by
  by_contra hnot
  refine hends n fun m hm => ?_
  induction m, hm using Nat.le_induction with
  | base => exact ⟨h, fun hact => hnot ⟨n, Nat.le_refl n, hact, h⟩⟩
  | succ m hm ih =>
      have hnext := (hkeep m ih.1).resolve_left ih.2
      exact ⟨hnext, fun hact => hnot ⟨m + 1, Nat.le_succ_of_le hm, hact, hnext⟩⟩

/-- A measure that each other event lowers brings the event about. -/
theorem measure_event (P : σ → Prop) (act : Nat → Prop) (μ : σ → Nat)
    (hlower : ∀ n, P (r.state n) → act n ∨
      P (r.state (n + 1)) ∧ μ (r.state (n + 1)) < μ (r.state n)) {n : Nat}
    (h : P (r.state n)) : ∃ m, n ≤ m ∧ act m ∧ P (r.state m) := by
  refine r.until_event P act (fun m hm => (hlower m hm).imp_right And.left) ?_ h
  intro n hlasts
  have hsum (d : Nat) : μ (r.state (n + d)) + d ≤ μ (r.state n) := by
    induction d with
    | zero => exact Nat.le_refl _
    | succ d ih =>
        obtain ⟨hP, hact⟩ := hlasts (n + d) (Nat.le_add_right n d)
        have hlt := ((hlower (n + d) hP).resolve_left hact).2
        rw [Nat.add_assoc] at hlt
        omega
  have hlast := hsum (μ (r.state n) + 1)
  omega

/-- Phases of lower and lower rank come to the goal. -/
theorem ranked (P : Nat → σ → Prop) (goal : σ → Prop)
    (hlower : ∀ k n, P k (r.state n) →
      ∃ m, n ≤ m ∧ (goal (r.state m) ∨ ∃ j < k, P j (r.state m))) {k n : Nat}
    (h : P k (r.state n)) : ∃ m, n ≤ m ∧ goal (r.state m) := by
  induction k using Nat.strongRecOn generalizing n with
  | ind k ih =>
      obtain ⟨m, hnm, hgoal | ⟨j, hj, hP⟩⟩ := hlower k n h
      · exact ⟨m, hnm, hgoal⟩
      · obtain ⟨l, hml, hgoal⟩ := ih j hj hP
        exact ⟨l, Nat.le_trans hnm hml, hgoal⟩

/-- The run with one more step in front. -/
def cons (s : σ) (e : ε) (h : M.step s e = .ok (r.state 0)) : Endless M where
  state := fun n => n.casesOn s r.state
  event := fun n => n.casesOn e r.event
  step := fun n => n.casesOn h r.step

end Endless

/-- A guarded run in front of an endless one. -/
theorem exists_endless {guard : σ → ε → Prop} {P : Endless M → Prop}
    (hcons : ∀ (r : Endless M) s e (h : M.step s e = .ok (r.state 0)), guard s e → P r →
      P (r.cons s e h))
    {es : List ε} {s t : σ} (hg : Guarded M guard es s) (hr : run M es s = .ok t) {r : Endless M}
    (h0 : r.state 0 = t) (hP : P r) : ∃ r' : Endless M, r'.state 0 = s ∧ P r' := by
  induction es generalizing s with
  | nil =>
      cases hr
      exact ⟨r, h0, hP⟩
  | cons e es ih =>
      cases hstep : M.step s e with
      | error f => simp [run, hstep] at hr
      | ok u =>
          simp only [run, hstep] at hr
          simp only [Guarded, hstep] at hg
          obtain ⟨r', hu, hP'⟩ := ih hg.2 hr
          have h : M.step s e = .ok (r'.state 0) := hstep.trans (congrArg Except.ok hu.symm)
          exact ⟨r'.cons s e h, rfl, hcons r' s e h hg.1 hP'⟩

end Automaton
