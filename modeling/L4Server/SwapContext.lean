import L4Server.Library.X86

/-!
`swap_context`, instruction by instruction. It stores fourteen words of the
caller in the context `rdi` points at and loads those of the context `rsi` points
at; both base registers are loaded on the way, `rsi` last.
-/
namespace L4Server
open X86

def swapContext : List Instr :=
  [.store .rbx 0 .rdi, .store .rbp 8 .rdi, .store .r12 16 .rdi, .store .r13 24 .rdi,
   .store .r14 32 .rdi, .store .r15 40 .rdi, .store .rdi 48 .rdi, .store .rsi 56 .rdi,
   .store .rdx 64 .rdi, .store .rcx 72 .rdi, .store .r8 80 .rdi, .store .r9 88 .rdi,
   .load 0 .rsp .rcx, .store .rcx 96 .rdi, .lea 8 .rsp .rcx, .store .rcx 104 .rdi,
   .load 104 .rsi .rsp, .load 0 .rsi .rbx, .load 8 .rsi .rbp, .load 16 .rsi .r12,
   .load 24 .rsi .r13, .load 32 .rsi .r14, .load 40 .rsi .r15, .load 48 .rsi .rdi,
   .load 64 .rsi .rdx, .load 72 .rsi .rcx, .load 80 .rsi .r8, .load 88 .rsi .r9,
   .load 96 .rsi .r10, .load 56 .rsi .rsi, .jmp .r10]

/-- `sizeof(co_context)`. -/
def contextSize : Nat := 14 * 8

/-- What a party finds again when it is switched back to: the return address of
its call of `swap_context`, the stack pointer behind it, and the registers a
function has to keep. -/
structure Frame where
  ret : Word
  rsp : Word
  rbx : Word
  rbp : Word
  r12 : Word
  r13 : Word
  r14 : Word
  r15 : Word

/-- The frame of a call, at the entry of the function called. -/
def frameOf (c : Cpu) : Frame where
  ret := read64 c.mem (c.regs .rsp)
  rsp := slot (c.regs .rsp) 8
  rbx := c.regs .rbx
  rbp := c.regs .rbp
  r12 := c.regs .r12
  r13 := c.regs .r13
  r14 := c.regs .r14
  r15 := c.regs .r15

/-- A context holds the frame. -/
structure Frame.SavedAt (f : Frame) (m : Memory) (context : Word) : Prop where
  ret : read64 m (slot context 96) = f.ret
  rsp : read64 m (slot context 104) = f.rsp
  rbx : read64 m (slot context 0) = f.rbx
  rbp : read64 m (slot context 8) = f.rbp
  r12 : read64 m (slot context 16) = f.r12
  r13 : read64 m (slot context 24) = f.r13
  r14 : read64 m (slot context 32) = f.r14
  r15 : read64 m (slot context 40) = f.r15

/-- Execution goes on with the frame. -/
structure Frame.Restored (f : Frame) (c : Cpu) : Prop where
  ret : c.rip = f.ret
  rsp : c.regs .rsp = f.rsp
  rbx : c.regs .rbx = f.rbx
  rbp : c.regs .rbp = f.rbp
  r12 : c.regs .r12 = f.r12
  r13 : c.regs .r13 = f.r13
  r14 : c.regs .r14 = f.r14
  r15 : c.regs .r15 = f.r15

/-- The registers that are stored as they are. -/
def savedRegs : List (Reg × Nat) :=
  [(.rbx, 0), (.rbp, 8), (.r12, 16), (.r13, 24), (.r14, 32), (.r15, 40), (.rdi, 48), (.rsi, 56),
   (.rdx, 64), (.rcx, 72), (.r8, 80), (.r9, 88)]

/-- The registers that are loaded before `rsi`. -/
def loadedRegs : List (Nat × Reg) :=
  [(104, .rsp), (0, .rbx), (8, .rbp), (16, .r12), (24, .r13), (32, .r14), (40, .r15), (48, .rdi),
   (64, .rdx), (72, .rcx), (80, .r8), (88, .r9), (96, .r10)]

def storedSlots (c : Cpu) : List (Nat × Word) := savedRegs.map fun s => (s.2, c.regs s.1)

/-- The words stored for a call. -/
def savedSlots (c : Cpu) : List (Nat × Word) :=
  storedSlots c ++ [(96, (frameOf c).ret), (104, (frameOf c).rsp)]

theorem savedSlots_inside (c : Cpu) : Inside contextSize (savedSlots c) := by
  simp [Inside, contextSize, savedSlots, storedSlots, savedRegs]

theorem savedSlots_apart (c : Cpu) :
    (savedSlots c).Pairwise fun p q => p.1 + 8 ≤ q.1 ∨ q.1 + 8 ≤ p.1 := by
  simp [savedSlots, storedSlots, savedRegs]

/-- The stretches of `n` bytes at `a` and of `k` bytes at `b` do not overlap. -/
def Apart (a : Word) (n : Nat) (b : Word) (k : Nat) : Prop :=
  ∀ x, off a x < n → k ≤ off b x

theorem Apart.symm {a b : Word} {n k : Nat} (h : Apart a n b k) : Apart b k a n := by
  intro x hx
  refine Nat.not_lt.mp fun hlt => ?_
  exact absurd (h x hlt) (by omega)

/-- What `swap_context` leaves. -/
structure Swapped (c d : Cpu) : Prop where
  mem : d.mem = writeSlots (c.regs .rdi) (savedSlots c) c.mem
  rip : d.rip = read64 c.mem (slot (c.regs .rsi) 96)
  rsi : d.regs .rsi = read64 c.mem (slot (c.regs .rsi) 56)
  loaded : ∀ l ∈ loadedRegs, d.regs l.2 = read64 c.mem (slot (c.regs .rsi) l.1)

/-- The four instructions behind the stores save the return address and the stack
pointer behind it. -/
def saveReturn : List Instr :=
  [.load 0 .rsp .rcx, .store .rcx 96 .rdi, .lea 8 .rsp .rcx, .store .rcx 104 .rdi]

theorem run_saveReturn (c : Cpu) :
    (run saveReturn c).mem =
        writeSlots (c.regs .rdi) [(96, (frameOf c).ret), (104, (frameOf c).rsp)] c.mem ∧
      (run saveReturn c).regs .rsi = c.regs .rsi := by
  constructor
  · simp [run, saveReturn, exec, writeSlots, frameOf]
  · rfl

/-- `rsi` is loaded last, through itself. -/
def jumpBack : List Instr := [.load 56 .rsi .rsi, .jmp .r10]

theorem run_jumpBack (c : Cpu) :
    run jumpBack c =
      { regs := Function.update c.regs .rsi (read64 c.mem (slot (c.regs .rsi) 56)),
        rip := c.regs .r10, mem := c.mem } := by
  simp [run, jumpBack, exec]

theorem swapContext_eq :
    swapContext = stores .rdi savedRegs ++
      (saveReturn ++ (loads .rsi loadedRegs ++ jumpBack)) := rfl

/-- The old context is apart from the slot of the return address and from the
new context. -/
theorem swapContext_swapped {c : Cpu} (hstack : Apart (c.regs .rsp) 8 (c.regs .rdi) contextSize)
    (hnew : Apart (c.regs .rsi) contextSize (c.regs .rdi) contextSize) :
    Swapped c (run swapContext c) := by
  have hsize : contextSize ≤ 2 ^ 64 := by decide
  have hinside : Inside contextSize (storedSlots c) :=
    fun p hp => savedSlots_inside c p (List.mem_append_left _ hp)
  rw [swapContext_eq, run_append, run_append, run_append]
  have hstores := run_stores .rdi savedRegs c
  generalize run (stores .rdi savedRegs) c = stored at hstores ⊢
  have hregs : stored.regs = c.regs := by rw [hstores]
  have hstored : stored.mem = writeSlots (c.regs .rdi) (storedSlots c) c.mem := by
    rw [hstores, storedSlots]
  -- the return address is read behind the stores to the old context
  have hframe : (frameOf stored).ret = (frameOf c).ret := by
    unfold frameOf
    rw [hregs, hstored]
    exact read64_congr fun x hx => writeSlots_outside hsize hinside (hstack x hx) _
  obtain ⟨hsavedMem, hsavedRsi⟩ := run_saveReturn stored
  generalize run saveReturn stored = saved at hsavedMem hsavedRsi ⊢
  have hmem : saved.mem = writeSlots (c.regs .rdi) (savedSlots c) c.mem := by
    rw [hsavedMem, savedSlots, writeSlots_append, hregs, hframe, hstored]
    simp only [frameOf, hregs]
  rw [hregs] at hsavedRsi
  have hkept {disp : Nat} (hdisp : disp + 8 ≤ contextSize) :
      read64 saved.mem (slot (saved.regs .rsi) disp) =
        read64 c.mem (slot (c.regs .rsi) disp) := by
    rw [hsavedRsi, hmem]
    refine read64_congr fun x hx => ?_
    rw [off_slot_lt_iff _ _ (by omega)] at hx
    exact writeSlots_outside hsize (savedSlots_inside c) (hnew x (by omega)) _
  have hdisps : ∀ l ∈ loadedRegs, l.1 + 8 ≤ contextSize := by decide
  have hloads := @run_loads .rsi loadedRegs (by decide) (by decide) saved
  generalize run (loads .rsi loadedRegs) saved = loaded at hloads ⊢
  have hrsi : loaded.regs .rsi = saved.regs .rsi := hloads.kept .rsi (by decide)
  have hloaded : ∀ l ∈ loadedRegs, loaded.regs l.2 = read64 c.mem (slot (c.regs .rsi) l.1) :=
    fun l hl => (hloads.loaded l hl).trans (hkept (hdisps l hl))
  rw [run_jumpBack]
  constructor
  · exact hloads.mem.trans hmem
  · exact hloaded (96, .r10) (by decide)
  · have hrsi56 : read64 loaded.mem (slot (loaded.regs .rsi) 56) =
        read64 c.mem (slot (c.regs .rsi) 56) := by
      rw [hloads.mem, hrsi]
      exact hkept (by decide)
    exact (Function.update_self Reg.rsi _ loaded.regs).trans hrsi56
  · intro l hl
    have hne : l.2 ≠ .rsi := by
      revert l
      decide
    exact (Function.update_of_ne hne _ _).trans (hloaded l hl)

section
variable {c d : Cpu} (h : Swapped c d)
include h

/-- The caller's frame is in the old context. -/
theorem Swapped.saved : (frameOf c).SavedAt d.mem (c.regs .rdi) := by
  have hread {i : Nat} {v : Word} (hv : (i, v) ∈ savedSlots c) :
      read64 d.mem (slot (c.regs .rdi) i) = v := by
    rw [h.mem]
    exact read64_writeSlots (by decide) (savedSlots_inside c) (savedSlots_apart c) hv c.mem
  constructor
  all_goals
    refine hread ?_
    simp [savedSlots, storedSlots, savedRegs, frameOf]

theorem Swapped.outside {x : Word} (hx : contextSize ≤ off (c.regs .rdi) x) :
    d.mem x = c.mem x := by
  rw [h.mem]
  exact writeSlots_outside (by decide) (savedSlots_inside c) hx c.mem

/-- The frame in the new context goes on. -/
theorem Swapped.restores {f : Frame} (hf : f.SavedAt c.mem (c.regs .rsi)) : f.Restored d := by
  constructor
  · exact h.rip.trans hf.ret
  · exact (h.loaded (104, .rsp) (by decide)).trans hf.rsp
  · exact (h.loaded (0, .rbx) (by decide)).trans hf.rbx
  · exact (h.loaded (8, .rbp) (by decide)).trans hf.rbp
  · exact (h.loaded (16, .r12) (by decide)).trans hf.r12
  · exact (h.loaded (24, .r13) (by decide)).trans hf.r13
  · exact (h.loaded (32, .r14) (by decide)).trans hf.r14
  · exact (h.loaded (40, .r15) (by decide)).trans hf.r15

end

/-- A context depends on its own bytes. -/
theorem Frame.SavedAt.congr {f : Frame} {m m' : Memory} {a : Word} (hf : f.SavedAt m a)
    (hm : ∀ x, off a x < contextSize → m' x = m x) : f.SavedAt m' a := by
  have hread {i : Nat} (hi : i + 8 ≤ contextSize) : read64 m' (slot a i) = read64 m (slot a i) :=
    read64_slot_congr (by decide) hm hi
  constructor
  · exact (hread (by decide)).trans hf.ret
  · exact (hread (by decide)).trans hf.rsp
  · exact (hread (by decide)).trans hf.rbx
  · exact (hread (by decide)).trans hf.rbp
  · exact (hread (by decide)).trans hf.r12
  · exact (hread (by decide)).trans hf.r13
  · exact (hread (by decide)).trans hf.r14
  · exact (hread (by decide)).trans hf.r15

end L4Server
