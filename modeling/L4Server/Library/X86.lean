import Mathlib.Algebra.Order.Ring.Int
import Mathlib.Data.List.Pairwise
import Mathlib.Logic.Function.Basic
import Mathlib.Tactic.Common

/-!
Straight-line x86-64 code over byte-addressed memory: moves between a register
and a slot at a fixed distance from another, `lea`, and an indirect jump.
Addresses wrap; all facts about memory are stated through the distance of an
address from a base, which is below 2^64.
-/
namespace X86

abbrev Word := BitVec 64

abbrev Memory := Word → BitVec 8

inductive Reg
  | rax | rbx | rcx | rdx | rsi | rdi | rbp | rsp
  | r8 | r9 | r10 | r11 | r12 | r13 | r14 | r15
  deriving DecidableEq, Repr

/-! Addresses. -/

/-- How far `x` lies behind `a`. -/
def off (a x : Word) : Nat := (x - a).toNat

/-- The address `i` bytes behind `a`. -/
def slot (a : Word) (i : Nat) : Word := a + BitVec.ofNat 64 i

@[simp] theorem slot_zero (a : Word) : slot a 0 = a := BitVec.add_zero a

theorem off_slot_self {i : Nat} (a : Word) (h : i < 2 ^ 64) : off a (slot a i) = i := by
  have ha := a.isLt
  simp only [off, slot, BitVec.toNat_sub, BitVec.toNat_add, BitVec.toNat_ofNat]
  omega

/-- The bytes of a stretch, by their distance from a base in front of it. -/
theorem off_slot_lt_iff {i n : Nat} (a x : Word) (h : i + n ≤ 2 ^ 64) :
    off (slot a i) x < n ↔ i ≤ off a x ∧ off a x < i + n := by
  have ha := a.isLt
  have hx := x.isLt
  simp only [off, slot, BitVec.toNat_sub, BitVec.toNat_add, BitVec.toNat_ofNat]
  omega

/-- Rounding down to a power of two. -/
theorem toNat_and_not_mask {n : Nat} (x : Word) (h : n ≤ 64) :
    (x &&& ~~~BitVec.ofNat 64 (2 ^ n - 1)).toNat = x.toNat - x.toNat % 2 ^ n := by
  let mask := BitVec.ofNat 64 (2 ^ n - 1)
  have hapart : (x &&& mask) &&& (x &&& ~~~mask) = 0 := by
    ext i
    cases hx : mask[i] <;> simp [hx]
  have hsplit : (x &&& mask) + (x &&& ~~~mask) = x := by
    rw [BitVec.add_eq_or_of_and_eq_zero _ _ hapart]
    ext i
    cases hx : mask[i] <;> simp [hx]
  have hsum := BitVec.toNat_add_of_and_eq_zero hapart
  have hlow : (x &&& mask).toNat = x.toNat % 2 ^ n := by
    have hle := Nat.pow_le_pow_right (n := 2) (by omega) h
    have hpos := Nat.two_pow_pos n
    rw [BitVec.toNat_and, BitVec.toNat_ofNat, Nat.mod_eq_of_lt (by omega),
      Nat.and_two_pow_sub_one_eq_mod]
  rw [hsplit, hlow] at hsum
  change (x &&& ~~~mask).toNat = _
  omega

/-! Words in memory. -/

def read64 (m : Memory) (a : Word) : Word :=
  BitVec.ofNat 64 ((m a).toNat + (m (slot a 1)).toNat * 2 ^ 8 + (m (slot a 2)).toNat * 2 ^ 16 +
    (m (slot a 3)).toNat * 2 ^ 24 + (m (slot a 4)).toNat * 2 ^ 32 + (m (slot a 5)).toNat * 2 ^ 40 +
    (m (slot a 6)).toNat * 2 ^ 48 + (m (slot a 7)).toNat * 2 ^ 56)

def write64 (m : Memory) (a v : Word) : Memory := fun x =>
  if off a x < 8 then BitVec.ofNat 8 (v.toNat / 256 ^ off a x) else m x

def write32 (m : Memory) (a : Word) (v : BitVec 32) : Memory := fun x =>
  if off a x < 4 then BitVec.ofNat 8 (v.toNat / 256 ^ off a x) else m x

/-- `memset`. -/
def fill (m : Memory) (a : Word) (n : Nat) (b : BitVec 8) : Memory := fun x =>
  if off a x < n then b else m x

theorem write32_outside (m : Memory) {a x : Word} (v : BitVec 32) (h : 4 ≤ off a x) :
    write32 m a v x = m x :=
  if_neg (Nat.not_lt.mpr h)

theorem fill_outside (m : Memory) {a x : Word} {n : Nat} (b : BitVec 8) (h : n ≤ off a x) :
    fill m a n b x = m x :=
  if_neg (Nat.not_lt.mpr h)

theorem write64_outside (m : Memory) {a x : Word} (v : Word) (h : 8 ≤ off a x) :
    write64 m a v x = m x :=
  if_neg (Nat.not_lt.mpr h)

theorem write64_slot {i : Nat} (m : Memory) (a v : Word) (h : i < 8) :
    write64 m a v (slot a i) = BitVec.ofNat 8 (v.toNat / 256 ^ i) := by
  unfold write64
  rw [off_slot_self a (by omega), if_pos h]

/-- A word depends on its own bytes. -/
theorem read64_congr {m m' : Memory} {a : Word} (h : ∀ x, off a x < 8 → m' x = m x) :
    read64 m' a = read64 m a := by
  have hslot {i : Nat} (hi : i < 8) : m' (slot a i) = m (slot a i) :=
    h _ (by rw [off_slot_self a (by omega)]; exact hi)
  have h0 : m' a = m a := by simpa using hslot (i := 0) (by omega)
  simp only [read64, h0, hslot (i := 1) (by omega), hslot (i := 2) (by omega),
    hslot (i := 3) (by omega), hslot (i := 4) (by omega), hslot (i := 5) (by omega),
    hslot (i := 6) (by omega), hslot (i := 7) (by omega)]

/-- Within a stretch that agrees, words agree. -/
theorem read64_slot_congr {m m' : Memory} {a : Word} {n i : Nat} (hn : n ≤ 2 ^ 64)
    (h : ∀ x, off a x < n → m' x = m x) (hi : i + 8 ≤ n) :
    read64 m' (slot a i) = read64 m (slot a i) := by
  refine read64_congr fun x hx => h x ?_
  rw [off_slot_lt_iff a x (Nat.le_trans hi hn)] at hx
  omega

theorem read64_write64 (m : Memory) (a v : Word) : read64 (write64 m a v) a = v := by
  have h0 : write64 m a v a = BitVec.ofNat 8 (v.toNat / 256 ^ 0) := by
    simpa using write64_slot (i := 0) m a v (by omega)
  have hv := v.isLt
  refine BitVec.eq_of_toNat_eq ?_
  simp only [read64, h0, write64_slot (i := 1) m a v (by omega),
    write64_slot (i := 2) m a v (by omega), write64_slot (i := 3) m a v (by omega),
    write64_slot (i := 4) m a v (by omega), write64_slot (i := 5) m a v (by omega),
    write64_slot (i := 6) m a v (by omega), write64_slot (i := 7) m a v (by omega),
    BitVec.toNat_ofNat]
  omega

theorem read64_write64_slot {i j : Nat} (m : Memory) (a v : Word) (hi : i + 8 ≤ 2 ^ 64)
    (hj : j + 8 ≤ 2 ^ 64) (h : i + 8 ≤ j ∨ j + 8 ≤ i) :
    read64 (write64 m (slot a i) v) (slot a j) = read64 m (slot a j) := by
  refine read64_congr fun x hx => write64_outside m v ?_
  rw [off_slot_lt_iff a x hj] at hx
  refine Nat.not_lt.mp fun hlt => ?_
  rw [off_slot_lt_iff a x hi] at hlt
  omega

/-! Several words behind one base. -/

/-- Words written to slots of a base, one after the other. -/
def writeSlots (a : Word) (vs : List (Nat × Word)) (m : Memory) : Memory :=
  vs.foldl (fun m p => write64 m (slot a p.1) p.2) m

theorem writeSlots_append (a : Word) (vs ws : List (Nat × Word)) (m : Memory) :
    writeSlots a (vs ++ ws) m = writeSlots a ws (writeSlots a vs m) :=
  List.foldl_append

/-- The slots lie within the first `n` bytes. -/
def Inside (n : Nat) (vs : List (Nat × Word)) : Prop := ∀ p ∈ vs, p.1 + 8 ≤ n

theorem writeSlots_outside {a x : Word} {n : Nat} {vs : List (Nat × Word)} (hn : n ≤ 2 ^ 64)
    (h : Inside n vs) (hx : n ≤ off a x) (m : Memory) : writeSlots a vs m x = m x := by
  induction vs generalizing m with
  | nil => rfl
  | cons p vs ih =>
      have hp := h p (by simp)
      have hout : 8 ≤ off (slot a p.1) x := by
        refine Nat.not_lt.mp fun hlt => ?_
        rw [off_slot_lt_iff a x (by omega)] at hlt
        omega
      exact (ih (fun q hq => h q (by simp [hq])) _).trans (write64_outside m p.2 hout)

theorem read64_writeSlots_other {a : Word} {n j : Nat} {vs : List (Nat × Word)} (hn : n ≤ 2 ^ 64)
    (h : Inside n vs) (hj : j + 8 ≤ n) (hapart : ∀ p ∈ vs, p.1 + 8 ≤ j ∨ j + 8 ≤ p.1)
    (m : Memory) : read64 (writeSlots a vs m) (slot a j) = read64 m (slot a j) := by
  induction vs generalizing m with
  | nil => rfl
  | cons p vs ih =>
      have hp := h p (by simp)
      refine (ih (fun q hq => h q (by simp [hq])) (fun q hq => hapart q (by simp [hq])) _).trans ?_
      exact read64_write64_slot m a p.2 (by omega) (by omega) (hapart p (by simp))

/-- Slots that do not overlap are read back. -/
theorem read64_writeSlots {a v : Word} {n i : Nat} {vs : List (Nat × Word)} (hn : n ≤ 2 ^ 64)
    (h : Inside n vs) (hapart : vs.Pairwise fun p q => p.1 + 8 ≤ q.1 ∨ q.1 + 8 ≤ p.1)
    (hmem : (i, v) ∈ vs) (m : Memory) : read64 (writeSlots a vs m) (slot a i) = v := by
  induction vs generalizing m with
  | nil => cases hmem
  | cons p vs ih =>
      obtain ⟨hhead, htail⟩ := List.pairwise_cons.mp hapart
      have hinside : Inside n vs := fun q hq => h q (by simp [hq])
      rcases List.mem_cons.mp hmem with rfl | hrest
      · have hi := h (i, v) (by simp)
        refine (read64_writeSlots_other hn hinside hi (fun q hq => (hhead q hq).symm) _).trans ?_
        exact read64_write64 m (slot a i) v
      · exact ih hinside htail hrest _

/-! Code. -/

structure Cpu where
  regs : Reg → Word
  rip : Word
  mem : Memory

/-- `movq src, disp(base)`; `movq disp(base), dst`; `leaq disp(base), dst`;
`jmpq *target`. -/
inductive Instr
  | store (src : Reg) (disp : Nat) (base : Reg)
  | load (disp : Nat) (base dst : Reg)
  | lea (disp : Nat) (base dst : Reg)
  | jmp (target : Reg)
  deriving DecidableEq, Repr

/-- `rip` is where execution goes on once the code has been left by its jump. -/
def exec (c : Cpu) : Instr → Cpu
  | .store src disp base =>
      { c with mem := write64 c.mem (slot (c.regs base) disp) (c.regs src) }
  | .load disp base dst =>
      { c with regs := Function.update c.regs dst (read64 c.mem (slot (c.regs base) disp)) }
  | .lea disp base dst => { c with regs := Function.update c.regs dst (slot (c.regs base) disp) }
  | .jmp target => { c with rip := c.regs target }

def run (code : List Instr) (c : Cpu) : Cpu := code.foldl exec c

theorem run_append (code code' : List Instr) (c : Cpu) :
    run (code ++ code') c = run code' (run code c) :=
  List.foldl_append

/-- Registers stored to slots of one base. -/
def stores (base : Reg) (ss : List (Reg × Nat)) : List Instr :=
  ss.map fun s => .store s.1 s.2 base

theorem run_stores (base : Reg) (ss : List (Reg × Nat)) (c : Cpu) :
    run (stores base ss) c =
      { c with mem := writeSlots (c.regs base) (ss.map fun s => (s.2, c.regs s.1)) c.mem } := by
  induction ss generalizing c with
  | nil => rfl
  | cons s ss ih =>
      have hrest := ih (exec c (.store s.1 s.2 base))
      exact hrest

/-- Registers loaded from slots of one base. -/
def loads (base : Reg) (ls : List (Nat × Reg)) : List Instr :=
  ls.map fun l => .load l.1 base l.2

/-- What loads leave: the other registers, and in each loaded one its slot. -/
structure Loaded (base : Reg) (ls : List (Nat × Reg)) (c d : Cpu) : Prop where
  mem : d.mem = c.mem
  rip : d.rip = c.rip
  loaded : ∀ l ∈ ls, d.regs l.2 = read64 c.mem (slot (c.regs base) l.1)
  kept : ∀ r, r ∉ ls.map Prod.snd → d.regs r = c.regs r

theorem run_loads {base : Reg} {ls : List (Nat × Reg)} (hbase : base ∉ ls.map Prod.snd)
    (hdistinct : (ls.map Prod.snd).Nodup) (c : Cpu) : Loaded base ls c (run (loads base ls) c) := by
  induction ls generalizing c with
  | nil => exact ⟨rfl, rfl, nofun, fun _ _ => rfl⟩
  | cons l ls ih =>
      rw [List.map_cons, List.mem_cons, not_or] at hbase
      rw [List.map_cons, List.nodup_cons] at hdistinct
      have hrest := ih hbase.2 hdistinct.2 (exec c (.load l.1 base l.2))
      have hkeep : (exec c (.load l.1 base l.2)).regs base = c.regs base :=
        Function.update_of_ne hbase.1 _ _
      constructor
      · exact hrest.mem
      · exact hrest.rip
      · intro q hq
        rcases List.mem_cons.mp hq with rfl | hq
        · exact (hrest.kept q.2 hdistinct.1).trans (Function.update_self _ _ _)
        · exact (hrest.loaded q hq).trans (by rw [hkeep]; rfl)
      · intro r hr
        rw [List.map_cons, List.mem_cons, not_or] at hr
        exact (hrest.kept r hr.2).trans (Function.update_of_ne hr.1 _ _)

end X86
