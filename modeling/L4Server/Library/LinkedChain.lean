import Mathlib.Data.List.Nodup
import Mathlib.Logic.Function.Basic
import Mathlib.Tactic.Common

/-!
Doubly linked chains in a heap of cells. A cell holds the address of the next
one, and as its back link the place where its own address is kept: the `next`
field of the cell in front, or a place outside the cells for the first.
-/
namespace LinkedChain

variable {α β ρ : Type}

/-- The links of a cell; `field a` is the `next` field of the cell at `a`. -/
structure Links (α β ρ : Type) where
  next : β → Option α
  back : β → ρ
  setBack : β → ρ → β
  field : α → ρ
  next_setBack : ∀ b r, next (setBack b r) = next b
  back_setBack : ∀ b r, back (setBack b r) = r

/-- From the address `p`, kept at `place`, the links lead through the cells at
`xs` to the end, and the back links lead the same way back. -/
inductive Chain (L : Links α β ρ) (heap : α → Option β) : ρ → Option α → List α → Prop
  | nil {place : ρ} : Chain L heap place none []
  | cons {place : ρ} {a : α} {b : β} {xs : List α} : heap a = some b → L.back b = place →
      Chain L heap (L.field a) (L.next b) xs → Chain L heap place (some a) (a :: xs)

variable {L : Links α β ρ} {heap heap' : α → Option β} {place place' : ρ} {p : Option α}
  {xs ys : List α} {a : α}

theorem Chain.live (h : Chain L heap place p xs) (ha : a ∈ xs) : ∃ b, heap a = some b := by
  induction h with
  | nil => simp at ha
  | cons hcell _ _ ih =>
      rcases List.mem_cons.mp ha with rfl | ha
      · exact ⟨_, hcell⟩
      · exact ih ha

theorem Chain.head_mem (h : Chain L heap place (some a) xs) : a ∈ xs := by
  cases h
  simp

/-- A chain is determined by where it starts. -/
theorem Chain.unique (h : Chain L heap place p xs) (h' : Chain L heap place' p ys) : xs = ys := by
  induction h generalizing place' ys with
  | nil =>
      cases h'
      rfl
  | cons hcell _ _ ih =>
      cases h' with
      | cons hcell' _ hrest =>
          obtain rfl := Option.some.inj (hcell.symm.trans hcell')
          rw [ih hrest]

/-- What follows a cell of a chain is a chain, and no longer. -/
theorem Chain.suffix (h : Chain L heap place p xs) (ha : a ∈ xs) :
    ∃ place' ys, Chain L heap place' (some a) (a :: ys) ∧ ys.length < xs.length := by
  induction h with
  | nil => simp at ha
  | @cons place c b xs hcell hback hrest ih =>
      rcases List.mem_cons.mp ha with rfl | ha
      · exact ⟨place, xs, .cons hcell hback hrest, by simp⟩
      · obtain ⟨place', ys, hys, hlt⟩ := ih ha
        exact ⟨place', ys, hys, by simp only [List.length_cons]; omega⟩

/-- A chain that ends meets no cell twice. -/
theorem Chain.nodup (h : Chain L heap place p xs) : xs.Nodup := by
  induction h with
  | nil => exact List.nodup_nil
  | @cons place a b xs hcell hback hrest ih =>
      refine List.nodup_cons.mpr ⟨fun ha => ?_, ih⟩
      obtain ⟨place', ys, hys, hlt⟩ := hrest.suffix ha
      have hsame := congrArg List.length ((Chain.cons hcell hback hrest).unique hys)
      simp only [List.length_cons] at hsame
      omega

/-- A chain depends on its own cells. -/
theorem Chain.congr (h : Chain L heap place p xs) (hsame : ∀ a ∈ xs, heap' a = heap a) :
    Chain L heap' place p xs := by
  induction h with
  | nil => exact .nil
  | @cons place a b xs hcell hback _ ih =>
      exact .cons ((hsame a (by simp)).trans hcell) hback
        (ih fun c hc => hsame c (List.mem_cons_of_mem _ hc))

/-- The back link of a cell leads to the `next` field of the cell in front of it. -/
theorem Chain.back_eq (h : Chain L heap place p xs) {front rest : List α}
    (hxs : xs = front ++ a :: rest) :
    ∃ b, heap a = some b ∧ L.back b = (front.getLast?.map L.field).getD place := by
  induction h generalizing front with
  | nil => simp at hxs
  | @cons place c b xs hcell hback _ ih =>
      cases front with
      | nil =>
          obtain ⟨rfl, -⟩ := List.cons.inj hxs
          exact ⟨b, hcell, hback⟩
      | cons d front =>
          obtain ⟨rfl, hrest⟩ := List.cons.inj hxs
          obtain ⟨b', hcell', hback'⟩ := ih hrest
          refine ⟨b', hcell', hback'.trans ?_⟩
          cases front with
          | nil => rfl
          | cons e front =>
              rw [List.getLast?_cons_cons, List.getLast?_eq_some_getLast (by simp)]
              rfl

/-- What is kept at the place a back link leads to is the cell itself. -/
theorem Chain.deref_back (h : Chain L heap place p xs) (deref : ρ → Option α)
    (hplace : deref place = p) (hfield : ∀ a b, heap a = some b → deref (L.field a) = L.next b)
    (ha : a ∈ xs) : ∃ b, heap a = some b ∧ deref (L.back b) = some a := by
  induction h with
  | nil => simp at ha
  | cons hcell hback _ ih =>
      rcases List.mem_cons.mp ha with rfl | ha
      · exact ⟨_, hcell, hback ▸ hplace⟩
      · exact ih (hfield _ _ hcell) ha

/-! A cell in front of a chain. -/

variable [DecidableEq α]

/-- The back link of the cell at `p`, if there is one, set to `place`. -/
def Links.rebase (L : Links α β ρ) (heap : α → Option β) (place : ρ) :
    Option α → α → Option β
  | none => heap
  | some a => Function.update heap a ((heap a).map (L.setBack · place))

/-- The cell `b` at `a`, in front of what begins at `p`. -/
def Links.pushFront (L : Links α β ρ) (heap : α → Option β) (p : Option α) (a : α) (b : β) :
    α → Option β :=
  Function.update (L.rebase heap (L.field a) p) a (some b)

@[simp] theorem Links.pushFront_self (L : Links α β ρ) (heap : α → Option β) (p : Option α)
    (a : α) (b : β) : L.pushFront heap p a b a = some b :=
  Function.update_self ..

/-- Other cells keep all but their back link. -/
theorem Links.map_pushFront (L : Links α β ρ) {γ : Type} {f : β → γ}
    (hf : ∀ b r, f (L.setBack b r) = f b) (heap : α → Option β) (p : Option α) (b : β) {a c : α}
    (hc : c ≠ a) : (L.pushFront heap p a b c).map f = (heap c).map f := by
  rw [Links.pushFront, Function.update_of_ne hc]
  cases p with
  | none => rfl
  | some d =>
      by_cases hd : c = d
      · subst hd
        simp [Links.rebase, Function.comp_def, hf]
      · simp [Links.rebase, Function.update_of_ne hd]

/-- Cells that are neither the new one nor the one behind it stay as they are. -/
theorem Links.pushFront_other (L : Links α β ρ) (heap : α → Option β) {p : Option α} {a c : α}
    (b : β) (hc : c ≠ a) (hp : p ≠ some c) : L.pushFront heap p a b c = heap c := by
  rw [Links.pushFront, Function.update_of_ne hc]
  cases p with
  | none => rfl
  | some d => exact Function.update_of_ne (fun h => hp (congrArg some h.symm)) _ _

/-- Setting the back link of another cell. -/
theorem Links.rebase_update (L : Links α β ρ) (heap : α → Option β) (place : ρ) {p : Option α}
    {a : α} (x : Option β) (hp : p ≠ some a) :
    L.rebase (Function.update heap a x) place p = Function.update (L.rebase heap place p) a x := by
  cases p with
  | none => rfl
  | some d =>
      have hd : d ≠ a := fun h => hp (congrArg some h)
      rw [Links.rebase, Links.rebase, Function.update_of_ne hd, Function.update_comm hd]

theorem Chain.rebase (h : Chain L heap place p xs) (place' : ρ) :
    Chain L (L.rebase heap place' p) place' p xs := by
  cases h with
  | nil => exact .nil
  | @cons _ a b xs hcell hback hrest =>
      have hnodup := (Chain.cons hcell hback hrest).nodup
      refine .cons (b := L.setBack b place') ?_ (L.back_setBack b place') ?_
      · simp [Links.rebase, hcell]
      · rw [L.next_setBack]
        refine hrest.congr fun c hc => Function.update_of_ne ?_ _ _
        rintro rfl
        exact (List.nodup_cons.mp hnodup).1 hc

/-- The chain with the new cell. -/
theorem Chain.pushFront {b : β} (h : Chain L heap place p xs) (ha : a ∉ xs)
    (hnext : L.next b = p) (hback : L.back b = place') :
    Chain L (L.pushFront heap p a b) place' (some a) (a :: xs) := by
  refine .cons (Function.update_self ..) hback ?_
  rw [hnext]
  refine (h.rebase (L.field a)).congr fun c hc => Function.update_of_ne ?_ _ _
  rintro rfl
  exact ha hc

/-- A chain apart from both is not touched. -/
theorem Chain.pushFront_apart {b : β} (h : Chain L heap place p xs) {p' : Option α}
    (ha : a ∉ xs) (hp : ∀ c, p' = some c → c ∉ xs) :
    Chain L (L.pushFront heap p' a b) place p xs :=
  h.congr fun c hc => L.pushFront_other heap b (fun h => ha (h ▸ hc)) fun h => hp c h hc

/-- What is behind the first cell does not need it. -/
theorem Chain.erase {b : β} (h : Chain L heap place (some a) (a :: xs)) (hcell : heap a = some b) :
    Chain L (Function.update heap a none) (L.field a) (L.next b) xs := by
  have hnodup := h.nodup
  cases h with
  | cons hcell' _ hrest =>
      obtain rfl := Option.some.inj (hcell.symm.trans hcell')
      refine hrest.congr fun c hc => Function.update_of_ne ?_ _ _
      rintro rfl
      exact (List.nodup_cons.mp hnodup).1 hc

end LinkedChain
