import Mathlib.Tactic.Common

/-!
Machines driven by events. A step yields the next state or a reason why there
is none; a guard on steps singles out the runs a conditional result is about.
-/
namespace Automaton

structure Machine (σ ε η : Type) where
  start : σ → Prop
  step : σ → ε → Except η σ

variable {σ ε η : Type} (M : Machine σ ε η)

/-- States at the end of a run all of whose steps meet the guard. -/
inductive Reach (guard : σ → ε → Prop) : σ → Prop
  | start {s : σ} : M.start s → Reach guard s
  | step {s t : σ} {e : ε} : Reach guard s → guard s e → M.step s e = .ok t → Reach guard t

/-- States at the end of any run. -/
abbrev Reachable : σ → Prop := Reach M fun _ _ => True

variable {M}

theorem Reach.mono {guard guard' : σ → ε → Prop} (h : ∀ s e, guard s e → guard' s e)
    {s : σ} (hs : Reach M guard s) : Reach M guard' s := by
  induction hs with
  | start h0 => exact .start h0
  | step _ hg ht ih => exact .step ih (h _ _ hg) ht

theorem Reach.reachable {guard : σ → ε → Prop} {s : σ} (hs : Reach M guard s) :
    Reachable M s :=
  hs.mono fun _ _ _ => trivial

/-- What holds at the start and survives each guarded step holds throughout. -/
theorem Reach.invariant {guard : σ → ε → Prop} {P : σ → Prop}
    (hstart : ∀ s, M.start s → P s)
    (hstep : ∀ s e t, P s → guard s e → M.step s e = .ok t → P t)
    {s : σ} (hs : Reach M guard s) : P s := by
  induction hs with
  | start h0 => exact hstart _ h0
  | step _ hg ht ih => exact hstep _ _ _ ih hg ht

/-- The state after a list of events. -/
def run (M : Machine σ ε η) : List ε → σ → Except η σ
  | [], s => .ok s
  | e :: es, s =>
      match M.step s e with
      | .ok t => run M es t
      | .error r => .error r

/-- Every step of the run meets the guard. -/
def Guarded (M : Machine σ ε η) (guard : σ → ε → Prop) : List ε → σ → Prop
  | [], _ => True
  | e :: es, s =>
      guard s e ∧
        match M.step s e with
        | .ok t => Guarded M guard es t
        | .error _ => True

instance Guarded.decidable {guard : σ → ε → Prop} [∀ s e, Decidable (guard s e)] :
    (es : List ε) → (s : σ) → Decidable (Guarded M guard es s)
  | [], _ => .isTrue trivial
  | e :: es, s =>
      have : Decidable (match M.step s e with
          | .ok t => Guarded M guard es t
          | .error _ => True) :=
        match M.step s e with
        | .ok t => Guarded.decidable es t
        | .error _ => .isTrue trivial
      inferInstanceAs (Decidable (_ ∧ _))

theorem reach_of_run {guard : σ → ε → Prop} {es : List ε} {s t : σ}
    (hs : Reach M guard s) (hg : Guarded M guard es s) (hr : run M es s = .ok t) :
    Reach M guard t := by
  induction es generalizing s with
  | nil =>
      cases hr
      exact hs
  | cons e es ih =>
      cases hstep : M.step s e with
      | error r => simp [run, hstep] at hr
      | ok u =>
          simp only [run, hstep] at hr
          simp only [Guarded, hstep] at hg
          exact ih (.step hs hg.1 hstep) hg.2 hr

theorem guarded_of_forall {guard : σ → ε → Prop} {es : List ε}
    (h : ∀ e ∈ es, ∀ s, guard s e) (s : σ) : Guarded M guard es s := by
  induction es generalizing s with
  | nil => trivial
  | cons e es ih =>
      refine ⟨h e (by simp) s, ?_⟩
      split
      · exact ih (fun e he => h e (by simp [he])) _
      · trivial

theorem reachable_of_run {es : List ε} {s t : σ} (hs : M.start s)
    (hr : run M es s = .ok t) : Reachable M t :=
  reach_of_run (.start hs) (guarded_of_forall (fun _ _ _ => trivial) s) hr

end Automaton
