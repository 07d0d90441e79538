import Mathlib.Tactic.Common

/-!
Computations that append to a queue of bounded depth and fail when it is full.
Such a computation is described by what it appends and by its result as a
function of the queue, so that descriptions compose along a bind.
-/
namespace BoundedQueue

variable {α β γ η : Type}

/-- From a queue with room for them `F` appends `pushed` and ends in `g`; from
one without, it fails as `full`. -/
structure Appends (depth : Nat) (full : η) (F : List α → Except η β) (pushed : List α)
    (g : List α → β) : Prop where
  room : ∀ xs, xs.length + pushed.length ≤ depth → F xs = .ok (g (xs ++ pushed))
  full : ∀ xs, xs.length ≤ depth → depth < xs.length + pushed.length → F xs = .error full

variable {depth : Nat} {full : η} {F : List α → Except η β} {g : List α → β}
  {pushed pushed' : List α}

theorem Appends.nil (depth : Nat) (full : η) (g : List α → β) :
    Appends depth full (fun xs => .ok (g xs)) [] g where
  room xs _ := by rw [List.append_nil]
  full xs hle hlt := by
    rw [List.length_nil, Nat.add_zero] at hlt
    omega

theorem Appends.singleton {a : α}
    (hroom : ∀ xs, xs.length < depth → F xs = .ok (g (xs ++ [a])))
    (hfull : ∀ xs, ¬ xs.length < depth → F xs = .error full) :
    Appends depth full F [a] g where
  room xs h := hroom xs h
  full xs _ h := hfull xs (Nat.not_lt.mpr (Nat.lt_succ_iff.mp h))

theorem Appends.bind {G : β → Except η γ} {h : List α → γ}
    (hF : Appends depth full F pushed g)
    (hG : Appends depth full (fun xs => G (g xs)) pushed' h) :
    Appends depth full (fun xs => F xs >>= G) (pushed ++ pushed') h where
  room xs hle := by
    rw [List.length_append] at hle
    rw [hF.room xs (by omega), ← List.append_assoc, ← hG.room (xs ++ pushed)]
    · rfl
    · rw [List.length_append]
      omega
  full xs hle hlt := by
    rw [List.length_append] at hlt
    by_cases hroom : xs.length + pushed.length ≤ depth
    · rw [hF.room xs hroom, ← hG.full (xs ++ pushed)]
      · rfl
      · rwa [List.length_append]
      · rw [List.length_append]
        omega
    · rw [hF.full xs hle (by omega)]
      rfl

theorem Appends.map (f : β → γ) (hF : Appends depth full F pushed g) :
    Appends depth full (fun xs => F xs >>= fun a => .ok (f a)) pushed (fun xs => f (g xs)) := by
  simpa using hF.bind (G := fun a => .ok (f a)) (.nil depth full fun xs => f (g xs))

/-- A result is reached with room only. -/
theorem Appends.of_ok (hF : Appends depth full F pushed g) {xs : List α} {b : β}
    (hle : xs.length ≤ depth) (h : F xs = .ok b) :
    xs.length + pushed.length ≤ depth ∧ b = g (xs ++ pushed) := by
  by_cases hroom : xs.length + pushed.length ≤ depth
  · rw [hF.room xs hroom] at h
    exact ⟨hroom, (Except.ok.inj h).symm⟩
  · rw [hF.full xs hle (by omega)] at h
    cases h

/-- `F` appends `n` entries, or fails whatever the queue is. -/
def Asks (depth : Nat) (full : η) (F : List α → Except η β) (queue : β → List α) (n : Nat) :
    Prop :=
  (n = 0 ∧ ∃ e, ∀ xs, F xs = .error e) ∨
    ∃ pushed g, Appends depth full F pushed g ∧ pushed.length = n ∧ ∀ xs, queue (g xs) = xs

variable {queue : β → List α} {n : Nat}

theorem Asks.map (h : Asks depth full F queue n) (queue' : γ → List α) (f : β → γ)
    (hf : ∀ b, queue' (f b) = queue b) :
    Asks depth full (fun xs => F xs >>= fun b => .ok (f b)) queue' n := by
  rcases h with ⟨hn, e, he⟩ | ⟨pushed, g, hF, hlength, hg⟩
  · exact .inl ⟨hn, e, fun xs => by simp only [he, bind, Except.bind]⟩
  · exact .inr ⟨pushed, fun xs => f (g xs), hF.map f, hlength, fun xs => (hf _).trans (hg xs)⟩

/-- How many entries `F` appends, counted from an empty queue. -/
def appended (F : List α → Except η β) (queue : β → List α) : Nat :=
  match F [] with
  | .ok b => (queue b).length
  | .error _ => 0

theorem Asks.appended_eq (h : Asks depth full F queue n) (hn : n ≤ depth) :
    appended F queue = n := by
  unfold appended
  rcases h with ⟨rfl, e, he⟩ | ⟨pushed, g, hF, rfl, hg⟩
  · rw [he]
  · rw [hF.room [] (by simpa using hn)]
    simp only [hg, List.nil_append]

theorem Asks.length_eq (h : Asks depth full F queue n) {xs : List α} {b : β}
    (hle : xs.length ≤ depth) (hb : F xs = .ok b) :
    (queue b).length = xs.length + n ∧ (queue b).length ≤ depth := by
  rcases h with ⟨-, e, he⟩ | ⟨pushed, g, hF, rfl, hg⟩
  · rw [he] at hb
    cases hb
  · obtain ⟨hroom, rfl⟩ := hF.of_ok hle hb
    rw [hg, List.length_append]
    exact ⟨rfl, hroom⟩

/-- With room for what `F` appends, the entries in front make no difference. -/
theorem Asks.same (h : Asks depth full F queue n) {xs : List α} (hroom : xs.length + n ≤ depth) :
    (∃ e, F [] = .error e ∧ F xs = .error e) ∨
      ∃ b b', F [] = .ok b ∧ F xs = .ok b' ∧ queue b' = xs ++ queue b := by
  rcases h with ⟨-, e, he⟩ | ⟨pushed, g, hF, rfl, hg⟩
  · exact .inl ⟨e, he [], he xs⟩
  · refine .inr ⟨_, _, hF.room [] (by simpa using by omega), hF.room xs hroom, ?_⟩
    rw [hg, hg, List.nil_append]

end BoundedQueue
