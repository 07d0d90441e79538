import L4Server.SwapContext
import L4Server.Library.Automaton

/-!
The coroutines of `coro.c` over one memory. Between the calls of its functions
any code may run; each function is one event, up to the switch its call of
`swap_context` makes. The ghost record says in which state each coroutine is,
who has resumed whom, and what each party's last call of `swap_context` was.
-/
namespace L4Server.Coro
open X86

/-! The fields of a `coroutine`, its `context` first. -/

def callerAt : Nat := contextSize

def yieldedAt : Nat := 2 * contextSize

def statusAt : Nat := yieldedAt + 8

def paddingAt : Nat := statusAt + 8

def stackAt : Nat := paddingAt + 8

/-- `STACK_SZ`. -/
def stackSize : Nat := 2 ^ 15

/-- `sizeof(coroutine)`. -/
def coroutineSize : Nat := stackAt + stackSize

/-- `CO_STATUS_CREATED`, `CO_STATUS_STARTED`, `CO_STATUS_STOPPED`. -/
inductive CoStatus
  | created
  | started
  | stopped
  deriving DecidableEq, Repr

def CoStatus.value : CoStatus → BitVec 32
  | .created => 0
  | .started => 1
  | .stopped => 2

def setStatus (co : Word) (status : CoStatus) (m : Memory) : Memory :=
  write32 m (slot co statusAt) status.value

def setYielded (co value : Word) (m : Memory) : Memory := write64 m (slot co yieldedAt) value

/-- `co->yielded`. -/
def yielded (m : Memory) (co : Word) : Word := read64 m (slot co yieldedAt)

/-- `co_new` behind its allocation. -/
def coNew (entryPoint co func data : Word) (m : Memory) : Memory :=
  let created := setStatus co .created (fill m co coroutineSize 0)
  let rsp := slot co (stackAt + stackSize)
  writeSlots co
    [(6 * 8, co), (7 * 8, func), (8 * 8, data), (12 * 8, entryPoint),
      (13 * 8, (rsp &&& ~~~0xF#64) - 0x08#64)] created

/-- The call of `swap_context` pushes its return address. -/
def callSwapContext (old new ret : Word) (c : Cpu) : Cpu where
  regs := Function.update (Function.update (Function.update c.regs
    .rsp (c.regs .rsp - 8)) .rdi old) .rsi new
  rip := c.rip
  mem := write64 c.mem (c.regs .rsp - 8) ret

/-- Made and never resumed; behind a `co_yield`; resumed and not yet back; past
the return of its function. -/
inductive CoPhase
  | created (func data : Word)
  | suspended
  | active
  | stopped

/-- The functions that call `swap_context`. -/
inductive CoFunc
  | coResume
  | coResumeValue
  | coYield

/-- A call of `swap_context` on behalf of a coroutine. -/
structure CoCall where
  func : CoFunc
  co : Word
  frame : Frame

/-- What the function returns behind its call: `return co->yielded`, or nothing. -/
def CoCall.result (call : CoCall) (m : Memory) : Option Word :=
  match call.func with
  | .coResume | .coResumeValue => some (yielded m call.co)
  | .coYield => none

/-- A party is a coroutine, or `none`, the thread itself. `running` has the
coroutines that have been resumed and are not back, the innermost first; its head
is the party that executes. `calls` keeps the last call of each party. -/
structure Coroutines where
  cpu : Cpu
  phase : Word → Option CoPhase
  running : List Word
  calls : Option Word → Option CoCall

/-- Code between the calls; `co_new`, which has been given memory; `co_resume`;
`co_resume_value`; `co_yield`; `entry_point` in front of its call of `func`, and
behind it. `ret` is the address behind the call of `swap_context`. -/
inductive CoEvent
  | code (regs : Reg → Word) (rip : Word) (mem : Memory)
  | new (co func data : Word)
  | resume (co ret : Word)
  | resumeValue (co value ret : Word)
  | yield (co value ret : Word)
  | entered (co : Word)
  | returned (co ret : Word)

def Coroutines.setMem (s : Coroutines) (m : Memory) : Coroutines :=
  { s with cpu := { s.cpu with mem := m } }

def Coroutines.setPhase (s : Coroutines) (co : Word) (phase : CoPhase) : Coroutines :=
  { s with phase := Function.update s.phase co (some phase) }

/-- The party that executes calls `swap_context` from `func`. -/
def Coroutines.swap (s : Coroutines) (func : CoFunc) (co old new ret : Word) : Coroutines :=
  let c := callSwapContext old new ret s.cpu
  { s with
    cpu := run swapContext c
    calls := Function.update s.calls s.running.head? (some ⟨func, co, frameOf c⟩) }

/-- What the function that the executing party is in returns behind its switch. -/
def Coroutines.result (s : Coroutines) : Option Word :=
  (s.calls s.running.head?).bind (·.result s.cpu.mem)

/-- `co` executes. -/
def Coroutines.enter (s : Coroutines) (co : Word) : Coroutines :=
  { s.setPhase co .active with running := co :: s.running }

/-- The party that resumed `co` executes. -/
def Coroutines.leave (s : Coroutines) (co : Word) (phase : CoPhase) : Coroutines :=
  { s.setPhase co phase with running := s.running.tail }

/-- `LOG_ERROR("stack overflowed!!!\n")` and `exit(-1)` where `padding` is not zero. -/
def Coroutines.checkPadding (s : Coroutines) (co : Word) : Except Int Unit :=
  if read64 s.cpu.mem (slot co paddingAt) ≠ 0 then .error (-1) else .ok ()

def coResume (s : Coroutines) (co ret : Word) : Except Int Coroutines := do
  s.checkPadding co
  return (s.swap .coResume co (slot co callerAt) co ret).enter co

def coResumeValue (s : Coroutines) (co value ret : Word) : Except Int Coroutines := do
  s.checkPadding co
  let s := s.setMem (setYielded co value s.cpu.mem)
  return (s.swap .coResumeValue co (slot co callerAt) co ret).enter co

def coYield (s : Coroutines) (co value ret : Word) (phase : CoPhase) :
    Except Int Coroutines := do
  s.checkPadding co
  let s := s.setMem (setYielded co value s.cpu.mem)
  return (s.swap .coYield co co (slot co callerAt) ret).leave co phase

/-- `entry_point` sets the status and calls `func`; behind it, it sets the status
again and yields -1. -/
def coStep (entryPoint : Word) (s : Coroutines) : CoEvent → Except Int Coroutines
  | .code regs rip mem => .ok { s with cpu := ⟨regs, rip, mem⟩ }
  | .new co func data =>
      .ok ((s.setMem (coNew entryPoint co func data s.cpu.mem)).setPhase co (.created func data))
  | .resume co ret => coResume s co ret
  | .resumeValue co value ret => coResumeValue s co value ret
  | .yield co value ret => coYield s co value ret .suspended
  | .entered co => .ok (s.setMem (setStatus co .started s.cpu.mem))
  | .returned co ret => coYield (s.setMem (setStatus co .stopped s.cpu.mem)) co (-1) ret .stopped

def coroutines (entryPoint : Word) : Automaton.Machine Coroutines CoEvent Int where
  start := fun s => s.running = [] ∧ ∀ c, s.phase c = none
  step := coStep entryPoint

/-! The use of the functions. -/

/-- The context of `co` that the next switch on its behalf will load. -/
def Coroutines.context (s : Coroutines) (co : Word) : Option Word :=
  match s.phase co with
  | some (.created _ _) | some .suspended => some co
  | some .active => some (slot co callerAt)
  | some .stopped | none => none

def Coroutines.Live (s : Coroutines) (co : Word) : Prop := (s.context co).isSome

/-- The byte belongs to a saved context. -/
def Coroutines.Saved (s : Coroutines) (x : Word) : Prop :=
  ∃ co, ∃ a ∈ s.context co, off a x < contextSize

/-- The return address of the next call goes neither into a context nor into the
field behind them. -/
def Coroutines.StackApart (s : Coroutines) : Prop :=
  ∀ co, s.Live co → Apart (s.cpu.regs .rsp - 8) 8 co statusAt

/-- Suspended and not stopped. -/
def Coroutines.Resumable (s : Coroutines) (co : Word) : Prop :=
  (∃ func data, s.phase co = some (.created func data)) ∨ s.phase co = some .suspended

/-- Code leaves the saved contexts alone; `posix_memalign` gives aligned memory
apart from the coroutines there are; a coroutine is resumed only while suspended
and not stopped, and it is the executing one that yields or returns. -/
def Proper (s : Coroutines) : CoEvent → Prop
  | .code _ _ mem => ∀ x, s.Saved x → mem x = s.cpu.mem x
  | .new co _ _ =>
      co.toNat % 64 = 0 ∧ ∀ c, s.Live c → Apart c coroutineSize co coroutineSize
  | .resume co _ | .resumeValue co _ _ => s.Resumable co ∧ s.StackApart
  | .entered co => s.running.head? = some co
  | .yield co _ _ | .returned co _ => s.running.head? = some co ∧ s.StackApart

/-- The `padding` that the function of the event looks at is zero. -/
def Coroutines.PaddingZero (s : Coroutines) : CoEvent → Prop
  | .resume co _ | .resumeValue co _ _ | .yield co _ _ | .returned co _ =>
      read64 s.cpu.mem (slot co paddingAt) = 0
  | .code _ _ _ | .new _ _ _ | .entered _ => True

/-- The frame of a call is the caller's state in front of it. -/
theorem frameOf_callSwapContext (old new ret : Word) (c : Cpu) :
    frameOf (callSwapContext old new ret c) =
      { ret := ret, rsp := c.regs .rsp, rbx := c.regs .rbx, rbp := c.regs .rbp,
        r12 := c.regs .r12, r13 := c.regs .r13, r14 := c.regs .r14, r15 := c.regs .r15 } := by
  have hret : read64 (callSwapContext old new ret c).mem (c.regs .rsp - 8) = ret :=
    read64_write64 _ _ _
  have hrsp : slot (c.regs .rsp - 8) 8 = c.regs .rsp := BitVec.sub_add_cancel _ _
  exact congrArg₂ (fun ret rsp => Frame.mk ret rsp (c.regs .rbx) (c.regs .rbp) (c.regs .r12)
    (c.regs .r13) (c.regs .r14) (c.regs .r15)) hret hrsp

/-! A coroutine's bytes. -/

/-- Both contexts lie in front of `yielded`. -/
theorem off_lt_yieldedAt {s : Coroutines} {co a x : Word} (ha : a ∈ s.context co)
    (hx : off a x < contextSize) : off co x < yieldedAt := by
  unfold Coroutines.context at ha
  have hcaller : off (slot co callerAt) x < contextSize → off co x < yieldedAt := fun h => by
    rw [off_slot_lt_iff co x (by decide)] at h
    exact h.2
  split at ha
  · cases ha
    exact Nat.lt_of_lt_of_le hx (by decide)
  · cases ha
    exact Nat.lt_of_lt_of_le hx (by decide)
  · cases ha
    exact hcaller hx
  · cases ha
  · cases ha

theorem toNat_slot_mod {co : Word} {k : Nat} (h : co.toNat % 64 = 0) :
    (slot co k).toNat % 16 = k % 16 := by
  simp only [slot, BitVec.toNat_add, BitVec.toNat_ofNat]
  omega

/-- The first stack pointer. -/
theorem stackTop {co : Word} (h : co.toNat % 64 = 0) :
    (slot co (stackAt + stackSize) &&& ~~~0xF#64) - 0x08#64 =
      slot co (stackAt + stackSize - 16) := by
  have hround : (slot co (stackAt + stackSize) &&& ~~~0xF#64).toNat =
      (slot co (stackAt + stackSize)).toNat - (slot co (stackAt + stackSize)).toNat % 2 ^ 4 :=
    toNat_and_not_mask (n := 4) _ (by omega)
  have hmod : (slot co (stackAt + stackSize)).toNat % 2 ^ 4 = 8 := toNat_slot_mod h
  refine BitVec.eq_of_toNat_eq ?_
  rw [BitVec.toNat_sub, hround, hmod]
  simp only [slot, BitVec.toNat_add, BitVec.toNat_ofNat, stackAt, stackSize, paddingAt, statusAt,
    yieldedAt, contextSize]
  omega

/-! The first context. -/

/-- What `co_new` leaves in the context. -/
structure FirstContext (entryPoint co func data : Word) (m : Memory) : Prop where
  aligned : co.toNat % 64 = 0
  rdi : read64 m (slot co 48) = co
  rsi : read64 m (slot co 56) = func
  rdx : read64 m (slot co 64) = data
  rip : read64 m (slot co 96) = entryPoint
  rsp : read64 m (slot co 104) = slot co (stackAt + stackSize - 16)

/-- Execution is at `entry_point(co, func, data)`, as behind a call from the top
of the coroutine's stack. -/
structure Entered (entryPoint co func data : Word) (c : Cpu) : Prop where
  rip : c.rip = entryPoint
  rdi : c.regs .rdi = co
  rsi : c.regs .rsi = func
  rdx : c.regs .rdx = data
  inside : stackAt ≤ off co (c.regs .rsp) ∧ off co (c.regs .rsp) < coroutineSize
  aligned : (c.regs .rsp).toNat % 16 = 8

section
variable {entryPoint co func data : Word} {m : Memory}

theorem coNew_firstContext (h : co.toNat % 64 = 0) (m : Memory) :
    FirstContext entryPoint co func data (coNew entryPoint co func data m) := by
  have hread {i : Nat} {v : Word} (hv : (i, v) ∈ [(6 * 8, co), (7 * 8, func), (8 * 8, data),
      (12 * 8, entryPoint), (13 * 8, slot co (stackAt + stackSize - 16))]) :
      read64 (coNew entryPoint co func data m) (slot co i) = v := by
    simp only [coNew, stackTop h]
    exact read64_writeSlots (n := contextSize) (by decide) (by simp [Inside, contextSize])
      (by simp) hv _
  exact ⟨h, hread (by simp), hread (by simp), hread (by simp), hread (by simp), hread (by simp)⟩

theorem FirstContext.congr {m' : Memory} (h : FirstContext entryPoint co func data m)
    (hm : ∀ x, off co x < contextSize → m' x = m x) :
    FirstContext entryPoint co func data m' := by
  have hread {i : Nat} (hi : i + 8 ≤ contextSize) :
      read64 m' (slot co i) = read64 m (slot co i) := read64_slot_congr (by decide) hm hi
  constructor
  · exact h.aligned
  · exact (hread (by decide)).trans h.rdi
  · exact (hread (by decide)).trans h.rsi
  · exact (hread (by decide)).trans h.rdx
  · exact (hread (by decide)).trans h.rip
  · exact (hread (by decide)).trans h.rsp

theorem FirstContext.entered {c d : Cpu} (h : FirstContext entryPoint co func data c.mem)
    (hswap : Swapped c d) (hnew : c.regs .rsi = co) : Entered entryPoint co func data d := by
  have hloaded {l : Nat × Reg} (hl : l ∈ loadedRegs) :
      d.regs l.2 = read64 c.mem (slot co l.1) := by
    rw [hswap.loaded l hl, hnew]
  have hrsp : d.regs .rsp = slot co (stackAt + stackSize - 16) :=
    (hloaded (l := (104, .rsp)) (by decide)).trans h.rsp
  have hoff : off co (d.regs .rsp) = stackAt + stackSize - 16 := by
    rw [hrsp, off_slot_self co (by decide)]
  constructor
  · rw [hswap.rip, hnew, h.rip]
  · exact (hloaded (l := (48, .rdi)) (by decide)).trans h.rdi
  · rw [hswap.rsi, hnew, h.rsi]
  · exact (hloaded (l := (64, .rdx)) (by decide)).trans h.rdx
  · rw [hoff]
    decide
  · rw [hrsp]
    exact toNat_slot_mod h.aligned

end

end L4Server.Coro
