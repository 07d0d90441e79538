import L4Server.Coro

/-!
Coroutines over whole runs. Each party that does not execute has its frame in the
context its next switch will load: a suspended coroutine in its own, a party that
has resumed a coroutine in that coroutine's `caller`.
-/
namespace L4Server.Coro
open X86

/-- The context the function has `swap_context` store to. -/
def CoFunc.stores (co : Word) : CoFunc → Word
  | .coResume | .coResumeValue => slot co callerAt
  | .coYield => co

/-- The call is on behalf of `co` and stores to the context. -/
def CoCall.Stores (call : CoCall) (co context : Word) : Prop :=
  call.co = co ∧ call.func.stores co = context

/-- The last call of the party is on behalf of `co`, and its frame is in the context. -/
def Waits (s : Coroutines) (party : Option Word) (co context : Word) : Prop :=
  ∃ call, s.calls party = some call ∧ call.Stores co context ∧
    call.frame.SavedAt s.cpu.mem context

structure Kept (entryPoint : Word) (s : Coroutines) : Prop where
  apart : ∀ c d, s.Live c → s.Live d → c ≠ d → Apart c coroutineSize d coroutineSize
  running : ∀ c, c ∈ s.running ↔ s.phase c = some .active
  nodup : s.running.Nodup
  created : ∀ c func data, s.phase c = some (.created func data) →
    FirstContext entryPoint c func data s.cpu.mem
  suspended : ∀ c, s.phase c = some .suspended → Waits s (some c) c c
  resumed : ∀ front c rest, s.running = front ++ c :: rest →
    Waits s rest.head? c (slot c callerAt)

/-- The party goes on behind its last call, which was on behalf of `co`. -/
def Continues (s : Coroutines) (party : Option Word) (co : Word) (c : Cpu) : Prop :=
  ∃ call, s.calls party = some call ∧ call.co = co ∧ call.frame.Restored c

/-- The switch into `co`: the first one, or a later one. -/
def SwitchedInto (entryPoint : Word) (s : Coroutines) (co : Word) (c : Cpu) : Prop :=
  match s.phase co with
  | some (.created func data) => Entered entryPoint co func data c
  | _ => Continues s (some co) co c

/-- What an event does to the parties: the one that is switched to goes on, the
value that is passed is in `yielded`, and the resume that a yield ends returns it. -/
def Switches (entryPoint : Word) (s t : Coroutines) : CoEvent → Prop
  | .resume co _ => SwitchedInto entryPoint s co t.cpu
  | .resumeValue co value _ =>
      SwitchedInto entryPoint s co t.cpu ∧ yielded t.cpu.mem co = value
  | .yield co value _ =>
      Continues s s.running.tail.head? co t.cpu ∧ yielded t.cpu.mem co = value ∧
        t.result = some value
  | .returned co _ =>
      Continues s s.running.tail.head? co t.cpu ∧ yielded t.cpu.mem co = -1 ∧
        t.result = some (-1)
  | .code _ _ _ | .new _ _ _ | .entered _ => True

/-! Contexts. -/

section
variable {s : Coroutines} {co : Word}

theorem context_created {func data : Word} (h : s.phase co = some (.created func data)) :
    s.context co = some co := by
  simp [Coroutines.context, h]

theorem context_suspended (h : s.phase co = some .suspended) : s.context co = some co := by
  simp [Coroutines.context, h]

theorem context_active (h : s.phase co = some .active) :
    s.context co = some (slot co callerAt) := by
  simp [Coroutines.context, h]

theorem Coroutines.Resumable.context (h : s.Resumable co) : s.context co = some co := by
  rcases h with ⟨func, data, h⟩ | h
  · exact context_created h
  · exact context_suspended h

theorem live_of_context {a : Word} (h : s.context co = some a) : s.Live co := by
  simp [Coroutines.Live, h]

theorem saved_of_context {a x : Word} (h : s.context co = some a) (hx : off a x < contextSize) :
    s.Saved x :=
  ⟨co, a, h, hx⟩

/-- A saved byte is in front of `yielded` in a coroutine, or outside it. -/
theorem Kept.off_of_saved {entryPoint x : Word} (h : Kept entryPoint s) (hco : s.Live co)
    (hx : s.Saved x) : off co x < yieldedAt ∨ coroutineSize ≤ off co x := by
  obtain ⟨c, a, ha, hoff⟩ := hx
  have hfront := off_lt_yieldedAt ha hoff
  by_cases hc : c = co
  · subst hc
    exact .inl hfront
  · exact .inr (h.apart c co (live_of_context ha) hco hc x
      (Nat.lt_trans hfront (by decide)))

end

theorem Waits.congr {s t : Coroutines} {party : Option Word} {co a : Word}
    (h : Waits s party co a) (hcalls : t.calls party = s.calls party)
    (hmem : ∀ x, off a x < contextSize → t.cpu.mem x = s.cpu.mem x) : Waits t party co a := by
  obtain ⟨call, hcall, hstores, hsaved⟩ := h
  exact ⟨call, hcalls.trans hcall, hstores, hsaved.congr hmem⟩

theorem Waits.continues {s : Coroutines} {party : Option Word} {co a : Word} {c : Cpu}
    (h : Waits s party co a)
    (hrestores : ∀ f : Frame, f.SavedAt s.cpu.mem a → f.Restored c) : Continues s party co c := by
  obtain ⟨call, hcall, hstores, hsaved⟩ := h
  exact ⟨call, hcall, hstores.1, hrestores _ hsaved⟩

/-- The call of a resume reads `yielded` behind it. -/
theorem CoCall.Stores.result {call : CoCall} {co : Word} (h : call.Stores co (slot co callerAt))
    (m : Memory) : call.result m = some (yielded m co) := by
  obtain ⟨func, _, frame⟩ := call
  obtain ⟨rfl, hstores⟩ := h
  cases func with
  | coResume | coResumeValue => rfl
  | coYield =>
      have hzero : BitVec.ofNat 64 callerAt = 0#64 := BitVec.self_eq_add_right.mp hstores
      exact absurd hzero (by decide)

/-- The resume that is left returns what is in `yielded`. -/
theorem Waits.result {s : Coroutines} {co : Word} (phase : CoPhase)
    (h : Waits s s.running.tail.head? co (slot co callerAt)) :
    (s.leave co phase).result = some (yielded s.cpu.mem co) := by
  obtain ⟨call, hcall, hstores, -⟩ := h
  change (s.calls s.running.tail.head?).bind (·.result s.cpu.mem) = _
  rw [hcall]
  exact hstores.result _

section
variable {entryPoint : Word} {s : Coroutines}

/-! Steps without a switch. -/

theorem Kept.active_of_mem (h : Kept entryPoint s) {front rest : List Word} {c : Word}
    (hrun : s.running = front ++ c :: rest) : s.phase c = some .active :=
  (h.running c).mp (by simp [hrun])

theorem Kept.withCpu (h : Kept entryPoint s) {cpu : Cpu}
    (hmem : ∀ x, s.Saved x → cpu.mem x = s.cpu.mem x) : Kept entryPoint { s with cpu := cpu } where
  apart := h.apart
  running := h.running
  nodup := h.nodup
  created c func data hc :=
    (h.created c func data hc).congr fun x hx => hmem x (saved_of_context (context_created hc) hx)
  suspended c hc :=
    (h.suspended c hc).congr rfl fun x hx => hmem x (saved_of_context (context_suspended hc) hx)
  resumed front c rest hrun :=
    (h.resumed front c rest hrun).congr rfl fun x hx =>
      hmem x (saved_of_context (context_active (h.active_of_mem hrun)) hx)

theorem Kept.setMem (h : Kept entryPoint s) {m : Memory}
    (hmem : ∀ x, s.Saved x → m x = s.cpu.mem x) : Kept entryPoint (s.setMem m) :=
  h.withCpu hmem

/-- The fields behind the contexts hold no saved byte. -/
theorem Kept.setYielded_saved (h : Kept entryPoint s) {co : Word} (hco : s.Live co) (value : Word)
    {x : Word} (hx : s.Saved x) : setYielded co value s.cpu.mem x = s.cpu.mem x := by
  refine write64_outside _ _ (Nat.not_lt.mp fun hlt => ?_)
  rw [off_slot_lt_iff co x (by decide)] at hlt
  have hsize : yieldedAt + 8 ≤ coroutineSize := by decide
  have hoff := h.off_of_saved hco hx
  omega

theorem Kept.setStatus_saved (h : Kept entryPoint s) {co : Word} (hco : s.Live co)
    (status : CoStatus) {x : Word} (hx : s.Saved x) :
    setStatus co status s.cpu.mem x = s.cpu.mem x := by
  refine write32_outside _ _ (Nat.not_lt.mp fun hlt => ?_)
  rw [off_slot_lt_iff co x (by decide)] at hlt
  have hsize : statusAt + 4 ≤ coroutineSize := by decide
  have hfront : yieldedAt ≤ statusAt := by decide
  have hoff := h.off_of_saved hco hx
  omega

theorem coNew_outside {co func data x : Word} {m : Memory} (hx : coroutineSize ≤ off co x) :
    coNew entryPoint co func data m x = m x := by
  have hsize : contextSize ≤ coroutineSize := by decide
  have hstatus : 4 ≤ off (slot co statusAt) x := by
    refine Nat.not_lt.mp fun hlt => ?_
    rw [off_slot_lt_iff co x (by decide)] at hlt
    have hbehind : statusAt + 4 ≤ coroutineSize := by decide
    omega
  unfold coNew
  rw [writeSlots_outside (n := contextSize) (by decide) (by simp [Inside, contextSize])
    (Nat.le_trans hsize hx), setStatus, write32_outside _ _ hstatus, fill_outside _ _ hx]

theorem setPhase_phase (s : Coroutines) (co : Word) (phase : CoPhase) (c : Word) :
    (s.setPhase co phase).phase c = if c = co then some phase else s.phase c :=
  Function.update_apply _ _ _ _

theorem context_setPhase_of_ne {c co : Word} (phase : CoPhase) (hc : c ≠ co) :
    (s.setPhase co phase).context c = s.context c := by
  simp [Coroutines.context, setPhase_phase, hc]

/-- A coroutine joins the others. -/
theorem Kept.join (h : Kept entryPoint s) {co func data : Word}
    (hfirst : FirstContext entryPoint co func data s.cpu.mem)
    (hapart : ∀ c, s.Live c → Apart c coroutineSize co coroutineSize) :
    Kept entryPoint (s.setPhase co (.created func data)) := by
  have hdead : ¬ s.Live co := fun hlive => by
    have hself := hapart co hlive co
    simp [off, coroutineSize, stackAt, stackSize] at hself
  have hidle : co ∉ s.running := fun hmem =>
    hdead (live_of_context (context_active ((h.running co).mp hmem)))
  have hlive {c : Word} (hc : c ≠ co) (hl : (s.setPhase co (.created func data)).Live c) :
      s.Live c := by
    unfold Coroutines.Live at hl
    rwa [context_setPhase_of_ne _ hc] at hl
  constructor
  · intro c d hc hd hne
    by_cases hcco : c = co
    · subst hcco
      exact (hapart d (hlive (Ne.symm hne) hd)).symm
    · by_cases hdco : d = co
      · subst hdco
        exact hapart c (hlive hcco hc)
      · exact h.apart c d (hlive hcco hc) (hlive hdco hd) hne
  · intro c
    rw [setPhase_phase]
    split
    · next heq =>
        subst heq
        exact iff_of_false hidle fun hphase => by cases hphase
    · exact h.running c
  · exact h.nodup
  · intro c func' data' hc
    rw [setPhase_phase] at hc
    split at hc
    · next heq =>
        subst heq
        cases hc
        exact hfirst
    · exact h.created c func' data' hc
  · intro c hc
    rw [setPhase_phase] at hc
    split at hc
    · cases hc
    · exact h.suspended c hc
  · exact h.resumed

theorem coNew_saved {co func data x : Word}
    (hapart : ∀ c, s.Live c → Apart c coroutineSize co coroutineSize) (hx : s.Saved x) :
    coNew entryPoint co func data s.cpu.mem x = s.cpu.mem x := by
  obtain ⟨c, a, ha, hoff⟩ := hx
  exact coNew_outside (hapart c (live_of_context ha) x
    (Nat.lt_trans (off_lt_yieldedAt ha hoff) (by decide)))

theorem Kept.new (h : Kept entryPoint s) {co func data : Word}
    (hproper : Proper s (.new co func data)) :
    Kept entryPoint
      ((s.setMem (coNew entryPoint co func data s.cpu.mem)).setPhase co (.created func data)) := by
  obtain ⟨haligned, hapart⟩ := hproper
  have hmem : Kept entryPoint (s.setMem (coNew entryPoint co func data s.cpu.mem)) :=
    h.setMem fun x hx => coNew_saved hapart hx
  exact hmem.join (coNew_firstContext haligned _) hapart

/-! A switch. -/

/-- The two contexts of a coroutine, the one a switch stores to first. -/
inductive Sides (co : Word) : Word → Word → Prop
  | into : Sides co (slot co callerAt) co
  | outOf : Sides co co (slot co callerAt)

theorem Sides.old_lt {co old new x : Word} (h : Sides co old new)
    (hx : off old x < contextSize) : off co x < yieldedAt := by
  cases h with
  | into =>
      rw [off_slot_lt_iff co x (by decide)] at hx
      exact hx.2
  | outOf => exact Nat.lt_of_lt_of_le hx (by decide)

theorem Sides.apart {co old new : Word} (h : Sides co old new) :
    Apart new contextSize old contextSize := by
  have hcaller : Apart co contextSize (slot co callerAt) contextSize := fun x hx => by
    refine Nat.not_lt.mp fun hlt => ?_
    rw [off_slot_lt_iff co x (by decide)] at hlt
    exact absurd hlt.1 (Nat.not_le.mpr hx)
  cases h with
  | into => exact hcaller
  | outOf => exact hcaller.symm

/-- What a call of `swap_context` for `co` does. -/
structure SwapDone (entryPoint : Word) (s t : Coroutines) (co old new : Word) : Prop where
  saved : ∀ x, s.Saved x → t.cpu.mem x = s.cpu.mem x
  yielded : yielded t.cpu.mem co = yielded s.cpu.mem co
  frame : ∃ call : CoCall, t.calls = Function.update s.calls s.running.head? (some call) ∧
    call.Stores co old ∧ call.frame.SavedAt t.cpu.mem old
  restores : ∀ f : Frame, f.SavedAt s.cpu.mem new → f.Restored t.cpu
  enters : new = co → ∀ func data, FirstContext entryPoint co func data s.cpu.mem →
    Entered entryPoint co func data t.cpu

theorem Kept.swap (h : Kept entryPoint s) {func : CoFunc} {co old new : Word}
    (hnew : s.context co = some new) (hold : func.stores co = old)
    (hsides : Sides co old new) (hstack : s.StackApart) (ret : Word) :
    SwapDone entryPoint s (s.swap func co old new ret) co old new := by
  have hlive : s.Live co := live_of_context hnew
  have hfields : yieldedAt + 8 = statusAt := rfl
  have hcpu : (s.swap func co old new ret).cpu =
      run swapContext (callSwapContext old new ret s.cpu) := rfl
  have hcalls : (s.swap func co old new ret).calls = Function.update s.calls s.running.head?
      (some ⟨func, co, frameOf (callSwapContext old new ret s.cpu)⟩) := rfl
  have hrsp : (callSwapContext old new ret s.cpu).regs .rsp = s.cpu.regs .rsp - 8 := rfl
  have hrdi : (callSwapContext old new ret s.cpu).regs .rdi = old := rfl
  have hrsi : (callSwapContext old new ret s.cpu).regs .rsi = new := rfl
  -- the return address is pushed in front of what is looked at
  have hpush {c x : Word} (hc : s.Live c) (hx : off c x < statusAt) :
      (callSwapContext old new ret s.cpu).mem x = s.cpu.mem x :=
    write64_outside _ _ (Nat.not_lt.mp fun hlt => absurd (hstack c hc x hlt) (by omega))
  have hpushSaved {x : Word} (hx : s.Saved x) :
      (callSwapContext old new ret s.cpu).mem x = s.cpu.mem x := by
    obtain ⟨c, a, ha, hoff⟩ := hx
    exact hpush (live_of_context ha) (Nat.lt_trans (off_lt_yieldedAt ha hoff) (by decide))
  have hswapped : Swapped (callSwapContext old new ret s.cpu)
      (run swapContext (callSwapContext old new ret s.cpu)) := by
    refine swapContext_swapped ?_ ?_
    · rw [hrsp, hrdi]
      intro x hx
      have hbehind := hstack co hlive x hx
      refine Nat.not_lt.mp fun hlt => ?_
      have hfront := hsides.old_lt hlt
      omega
    · rw [hrsi, hrdi]
      exact hsides.apart
  generalize callSwapContext old new ret s.cpu = c at *
  generalize run swapContext c = d at *
  have hnewMem : ∀ x, off new x < contextSize → c.mem x = s.cpu.mem x := fun x hx =>
    hpushSaved (saved_of_context hnew hx)
  constructor
  · intro x hx
    have houtside : contextSize ≤ off (c.regs .rdi) x := by
      rw [hrdi]
      refine Nat.not_lt.mp fun hlt => ?_
      have hfront := hsides.old_lt hlt
      obtain ⟨c', a, ha, hoff⟩ := hx
      by_cases hc : c' = co
      · subst hc
        cases hnew.symm.trans ha
        exact absurd (hsides.apart x hoff) (by omega)
      · have hout := h.apart c' co (live_of_context ha) hlive hc x
          (Nat.lt_trans (off_lt_yieldedAt ha hoff) (by decide))
        exact absurd (Nat.lt_of_lt_of_le hfront (by decide)) (Nat.not_lt.mpr hout)
    rw [hcpu, hswapped.outside houtside, hpushSaved hx]
  · refine read64_congr fun x hx => ?_
    rw [off_slot_lt_iff co x (by decide)] at hx
    have houtside : contextSize ≤ off (c.regs .rdi) x := by
      rw [hrdi]
      refine Nat.not_lt.mp fun hlt => ?_
      have hfront := hsides.old_lt hlt
      omega
    rw [hcpu, hswapped.outside houtside, hpush hlive (by omega)]
  · refine ⟨_, hcalls, ⟨rfl, hold⟩, ?_⟩
    rw [hcpu, ← hrdi]
    exact hswapped.saved
  · intro f hf
    rw [hcpu]
    exact hswapped.restores (by rw [hrsi]; exact hf.congr hnewMem)
  · intro heq func data hfirst
    subst heq
    rw [hcpu]
    exact (hfirst.congr hnewMem).entered hswapped hrsi

/-! The parties behind a switch. -/

/-- No party behind the innermost is the one that executes. -/
theorem head?_behind_ne {front rest : List Word} {c : Word} (h : (front ++ c :: rest).Nodup) :
    rest.head? ≠ (front ++ c :: rest).head? := by
  cases rest with
  | nil => cases front <;> simp
  | cons y rest =>
      cases front with
      | nil =>
          intro heq
          cases heq
          simp at h
      | cons z front =>
          intro heq
          cases heq
          simp at h

theorem Kept.suspended_ne (h : Kept entryPoint s) {c : Word}
    (hc : s.phase c = some .suspended) : some c ≠ s.running.head? := by
  intro heq
  have hactive := (h.running c).mp (List.mem_of_mem_head? heq.symm)
  rw [hc] at hactive
  cases hactive

theorem Coroutines.Resumable.idle {co : Word} (hco : s.Resumable co) (h : Kept entryPoint s) :
    co ∉ s.running := by
  intro hmem
  have hactive := (h.running co).mp hmem
  rcases hco with ⟨func, data, hphase⟩ | hphase
  all_goals
    rw [hphase] at hactive
    cases hactive

section
variable {t : Coroutines} {co : Word}

theorem Kept.apart_of_phase (h : Kept entryPoint s) (hlive : s.Live co)
    (hphase : ∀ c, c ≠ co → t.phase c = s.phase c) (c d : Word) (hc : t.Live c) (hd : t.Live d)
    (hne : c ≠ d) : Apart c coroutineSize d coroutineSize := by
  have hback {c : Word} (hc : t.Live c) : s.Live c := by
    by_cases heq : c = co
    · rwa [heq]
    · simpa only [Coroutines.Live, Coroutines.context, hphase c heq] using hc
  exact h.apart c d (hback hc) (hback hd) hne

/-- Another party goes on waiting. -/
theorem SwapDone.waits {old new c a : Word} {party : Option Word}
    (h : SwapDone entryPoint s t co old new) (hwaits : Waits s party c a)
    (hne : party ≠ s.running.head?) (ha : s.context c = some a) : Waits t party c a := by
  obtain ⟨call, hcalls, -, -⟩ := h.frame
  refine hwaits.congr ?_ fun x hx => h.saved x (saved_of_context ha hx)
  rw [hcalls, Function.update_of_ne hne]

/-- The party that called waits. -/
theorem SwapDone.caller_waits {old new : Word} (h : SwapDone entryPoint s t co old new) :
    Waits t s.running.head? co old := by
  obtain ⟨call, hcalls, hstores, hsaved⟩ := h.frame
  exact ⟨call, by rw [hcalls, Function.update_self], hstores, hsaved⟩

/-- `co` has been resumed. -/
theorem Kept.enter (h : Kept entryPoint s) (hco : s.Resumable co) (hphase : t.phase = s.phase)
    (hrunning : t.running = s.running)
    (hdone : SwapDone entryPoint s t co (slot co callerAt) co) :
    Kept entryPoint (t.enter co) := by
  have hidle := hco.idle h
  have hphases (c : Word) : (t.enter co).phase c = if c = co then some .active else s.phase c := by
    rw [← hphase]
    exact setPhase_phase t co .active c
  have hrunnings : (t.enter co).running = co :: s.running := congrArg (co :: ·) hrunning
  constructor
  · refine h.apart_of_phase (live_of_context hco.context) fun c hc => ?_
    rw [hphases, if_neg hc]
  · intro c
    rw [hrunnings, hphases, List.mem_cons]
    split
    · next heq => simp [heq]
    · next hne => simp [hne, h.running c]
  · rw [hrunnings]
    exact List.nodup_cons.mpr ⟨hidle, h.nodup⟩
  · intro c func data hc
    rw [hphases] at hc
    split at hc
    · cases hc
    · exact (h.created c func data hc).congr fun x hx =>
        hdone.saved x (saved_of_context (context_created hc) hx)
  · intro c hc
    rw [hphases] at hc
    split at hc
    · cases hc
    · exact hdone.waits (h.suspended c hc) (h.suspended_ne hc) (context_suspended hc)
  · intro front c rest hrun
    rw [hrunnings] at hrun
    cases front with
    | nil =>
        cases hrun
        exact hdone.caller_waits
    | cons z front =>
        have htail : s.running = front ++ c :: rest := List.tail_eq_of_cons_eq hrun
        have hne : rest.head? ≠ s.running.head? := by
          rw [htail]
          exact head?_behind_ne (htail ▸ h.nodup)
        exact hdone.waits (h.resumed front c rest htail) hne
          (context_active (h.active_of_mem htail))

/-- `co` has yielded, for the last time or not. -/
theorem Kept.leave (h : Kept entryPoint s) {rest : List Word} {phase : CoPhase}
    (hrun : s.running = co :: rest) (hphase : t.phase = s.phase)
    (hrunning : t.running = s.running)
    (hdone : SwapDone entryPoint s t co co (slot co callerAt))
    (hnext : phase = .suspended ∨ phase = .stopped) : Kept entryPoint (t.leave co phase) := by
  have hactive : s.phase co = some .active := (h.running co).mp (by simp [hrun])
  obtain ⟨hidle, hnodup⟩ := List.nodup_cons.mp (hrun ▸ h.nodup)
  have hphases (c : Word) : (t.leave co phase).phase c = if c = co then some phase else s.phase c := by
    rw [← hphase]
    exact setPhase_phase t co phase c
  have hrunnings : (t.leave co phase).running = rest := by
    change t.running.tail = rest
    rw [hrunning, hrun, List.tail_cons]
  constructor
  · refine h.apart_of_phase (live_of_context (context_active hactive)) fun c hc => ?_
    rw [hphases, if_neg hc]
  · intro c
    have hmem := h.running c
    rw [hrun, List.mem_cons] at hmem
    rw [hrunnings, hphases]
    split
    · next heq =>
        subst heq
        exact iff_of_false hidle (by rcases hnext with rfl | rfl <;> nofun)
    · next hne => rw [← hmem, or_iff_right hne]
  · rwa [hrunnings]
  · intro c func data hc
    rw [hphases] at hc
    split at hc
    · rcases hnext with rfl | rfl <;> cases hc
    · exact (h.created c func data hc).congr fun x hx =>
        hdone.saved x (saved_of_context (context_created hc) hx)
  · intro c hc
    rw [hphases] at hc
    split at hc
    · next heq =>
        subst heq
        have hcaller := hdone.caller_waits
        rw [hrun] at hcaller
        exact hcaller
    · exact hdone.waits (h.suspended c hc) (h.suspended_ne hc) (context_suspended hc)
  · intro front c behind hrest
    rw [hrunnings] at hrest
    have hwhole : s.running = (co :: front) ++ c :: behind := by rw [hrun, hrest]; rfl
    have hne : behind.head? ≠ s.running.head? := by
      rw [hwhole]
      exact head?_behind_ne (hwhole ▸ h.nodup)
    exact hdone.waits (h.resumed _ c behind hwhole) hne (context_active (h.active_of_mem hwhole))

end

/-! Every step. -/

/-- A call that does not exit does what is behind its check. -/
theorem checkPadding_then {co : Word} {t u : Coroutines}
    (h : (do s.checkPadding co; return u) = Except.ok t) : t = u := by
  cases hcheck : s.checkPadding co with
  | error code =>
      rw [hcheck] at h
      cases h
  | ok _ =>
      rw [hcheck] at h
      exact (Except.ok.inj h).symm

theorem checkPadding_of_ok {co : Word} (h : s.checkPadding co = .ok ()) (u : Coroutines) :
    (do s.checkPadding co; return u) = Except.ok u := by
  rw [h]
  rfl

theorem checkPadding_ok_iff {co : Word} :
    s.checkPadding co = .ok () ↔ read64 s.cpu.mem (slot co paddingAt) = 0 := by
  unfold Coroutines.checkPadding
  split
  · next hset => exact iff_of_false (fun h => by cases h) hset
  · next hzero => exact iff_of_true rfl (not_not.mp hzero)

theorem checkPadding_then_iff {co : Word} {u : Coroutines} :
    (∃ t, (do s.checkPadding co; return u) = Except.ok t) ↔
      read64 s.cpu.mem (slot co paddingAt) = 0 := by
  rw [← checkPadding_ok_iff]
  constructor
  · rintro ⟨t, h⟩
    cases hcheck : s.checkPadding co with
    | error code =>
        rw [hcheck] at h
        cases h
    | ok _ => rfl
  · exact fun h => ⟨u, checkPadding_of_ok h u⟩

/-- The status lies in front of the padding. -/
theorem padding_setStatus (co : Word) (status : CoStatus) (m : Memory) :
    read64 (setStatus co status m) (slot co paddingAt) = read64 m (slot co paddingAt) := by
  refine read64_congr fun x hx => write32_outside _ _ (Nat.not_lt.mp fun hlt => ?_)
  rw [off_slot_lt_iff co x (by decide)] at hx hlt
  have hbehind : statusAt + 4 ≤ paddingAt := by decide
  omega

/-- A function goes on to its switch unless the padding is set. -/
theorem coStep_ok_iff (e : CoEvent) : (∃ t, coStep entryPoint s e = .ok t) ↔ s.PaddingZero e := by
  cases e with
  | code _ _ _ | new _ _ _ | entered _ => exact iff_of_true ⟨_, rfl⟩ trivial
  | resume co ret | resumeValue co value ret | yield co value ret => exact checkPadding_then_iff
  | returned co ret =>
      refine checkPadding_then_iff.trans ?_
      change read64 (setStatus co .stopped s.cpu.mem) _ = 0 ↔ _
      rw [padding_setStatus]
      rfl

theorem yielded_setYielded (co value : Word) (m : Memory) :
    yielded (setYielded co value m) co = value :=
  read64_write64 _ _ _

/-- What holds behind a step. -/
structure StepKept (entryPoint : Word) (s t : Coroutines) (e : CoEvent) : Prop where
  kept : Kept entryPoint t
  saved : ∀ x, s.Saved x → t.cpu.mem x = s.cpu.mem x
  switches : Switches entryPoint s t e

/-- A resume; the value is in `yielded` already. -/
theorem Kept.resume (h : Kept entryPoint s) (func : CoFunc) {co : Word} (hco : s.Resumable co)
    (hfunc : func.stores co = slot co callerAt) (hstack : s.StackApart) (ret : Word) :
    let t := (s.swap func co (slot co callerAt) co ret).enter co
    Kept entryPoint t ∧ (∀ x, s.Saved x → t.cpu.mem x = s.cpu.mem x) ∧
      SwitchedInto entryPoint s co t.cpu ∧ yielded t.cpu.mem co = yielded s.cpu.mem co := by
  have hdone := h.swap hco.context hfunc .into hstack ret
  refine ⟨h.enter hco rfl rfl hdone, hdone.saved, ?_, hdone.yielded⟩
  unfold SwitchedInto
  rcases hco with ⟨func, data, hphase⟩ | hphase
  · rw [hphase]
    exact hdone.enters rfl func data (h.created co func data hphase)
  · rw [hphase]
    exact (h.suspended co hphase).continues hdone.restores

theorem Kept.yield (h : Kept entryPoint s) {co : Word} {phase : CoPhase}
    (hco : s.running.head? = some co) (hstack : s.StackApart) (ret : Word)
    (hnext : phase = .suspended ∨ phase = .stopped) :
    let t := (s.swap .coYield co co (slot co callerAt) ret).leave co phase
    Kept entryPoint t ∧ (∀ x, s.Saved x → t.cpu.mem x = s.cpu.mem x) ∧
      Continues s s.running.tail.head? co t.cpu ∧
        yielded t.cpu.mem co = yielded s.cpu.mem co ∧ t.result = some (yielded s.cpu.mem co) := by
  obtain ⟨rest, hrun⟩ := List.head?_eq_some_iff.mp hco
  have hactive : s.phase co = some .active := (h.running co).mp (by simp [hrun])
  have hdone : SwapDone entryPoint s (s.swap .coYield co co (slot co callerAt) ret) co co
      (slot co callerAt) := h.swap (context_active hactive) rfl .outOf hstack ret
  have hwaits : Waits s rest.head? co (slot co callerAt) := h.resumed [] co rest hrun
  have hne : rest.head? ≠ s.running.head? := by
    rw [hrun]
    exact @head?_behind_ne [] rest co (hrun ▸ h.nodup)
  have hbehind := hdone.waits hwaits hne (context_active hactive)
  have htail : s.running.tail = rest := by rw [hrun, List.tail_cons]
  rw [← htail] at hwaits hbehind
  exact ⟨h.leave hrun rfl rfl hdone hnext, hdone.saved, hwaits.continues hdone.restores,
    hdone.yielded, (hbehind.result phase).trans (congrArg some hdone.yielded)⟩

theorem Kept.live_of_head? (h : Kept entryPoint s) {co : Word}
    (hco : s.running.head? = some co) : s.Live co :=
  live_of_context (context_active ((h.running co).mp (List.mem_of_mem_head? hco)))

theorem Kept.step (h : Kept entryPoint s) {e : CoEvent} {t : Coroutines} (hproper : Proper s e)
    (hstep : coStep entryPoint s e = .ok t) : StepKept entryPoint s t e := by
  cases e with
  | code regs rip mem =>
      cases hstep
      exact ⟨h.withCpu hproper, hproper, trivial⟩
  | new co func data =>
      cases hstep
      exact ⟨h.new hproper, fun x hx => coNew_saved hproper.2 hx, trivial⟩
  | entered co =>
      cases hstep
      have hsaved := fun x => h.setStatus_saved (x := x) (h.live_of_head? hproper) .started
      exact ⟨h.setMem hsaved, hsaved, trivial⟩
  | resume co ret =>
      obtain ⟨hco, hstack⟩ := hproper
      obtain ⟨hkept, hsaved, hinto, -⟩ := h.resume .coResume hco rfl hstack ret
      rw [checkPadding_then hstep]
      exact ⟨hkept, hsaved, hinto⟩
  | resumeValue co value ret =>
      obtain ⟨hco, hstack⟩ := hproper
      have hfield := fun x =>
        h.setYielded_saved (x := x) (live_of_context hco.context) value
      obtain ⟨hkept, hsaved, hinto, hvalue⟩ :=
        (h.setMem hfield).resume .coResumeValue hco rfl hstack ret
      rw [checkPadding_then hstep]
      exact ⟨hkept, fun x hx => (hsaved x hx).trans (hfield x hx), hinto,
        hvalue.trans (yielded_setYielded co value s.cpu.mem)⟩
  | yield co value ret =>
      obtain ⟨hco, hstack⟩ := hproper
      have hfield := fun x => h.setYielded_saved (x := x) (h.live_of_head? hco) value
      obtain ⟨hkept, hsaved, hback, hvalue, hresult⟩ :=
        (h.setMem hfield).yield hco hstack ret (.inl rfl)
      have hset := yielded_setYielded co value s.cpu.mem
      rw [checkPadding_then hstep]
      exact ⟨hkept, fun x hx => (hsaved x hx).trans (hfield x hx), hback, hvalue.trans hset,
        hresult.trans (congrArg some hset)⟩
  | returned co ret =>
      obtain ⟨hco, hstack⟩ := hproper
      have hstatus := fun x => h.setStatus_saved (x := x) (h.live_of_head? hco) .stopped
      have hset : Kept entryPoint (s.setMem (setStatus co .stopped s.cpu.mem)) :=
        h.setMem hstatus
      have hfield := fun x => hset.setYielded_saved (x := x) (hset.live_of_head? hco) (-1)
      obtain ⟨hkept, hsaved, hback, hvalue, hresult⟩ :=
        (hset.setMem hfield).yield hco hstack ret (.inr rfl)
      have hlast := yielded_setYielded co (-1) (setStatus co .stopped s.cpu.mem)
      rw [checkPadding_then hstep]
      exact ⟨hkept, fun x hx => ((hsaved x hx).trans (hfield x hx)).trans (hstatus x hx), hback,
        hvalue.trans hlast, hresult.trans (congrArg some hlast)⟩

theorem Kept.start (h : (coroutines entryPoint).start s) : Kept entryPoint s := by
  obtain ⟨hrun, hphase⟩ := h
  have hdead (c : Word) : ¬ s.Live c := by simp [Coroutines.Live, Coroutines.context, hphase]
  constructor
  · exact fun c _ hc => absurd hc (hdead c)
  · simp [hrun, hphase]
  · simp [hrun]
  · simp [hphase]
  · simp [hphase]
  · simp [hrun]

theorem Kept.reach (h : Automaton.Reach (coroutines entryPoint) Proper s) : Kept entryPoint s :=
  h.invariant (fun _ hs => .start hs) fun _ _ _ hs he ht => (hs.step he ht).kept

/-- In every run that uses the functions as they are meant, a function goes on to
its switch unless the padding is set; the switch lets the party it goes to continue,
and no saved context is changed. -/
theorem coroutines_switch {e : CoEvent}
    (hs : Automaton.Reach (coroutines entryPoint) Proper s) (he : Proper s e) :
    ((∃ t, (coroutines entryPoint).step s e = .ok t) ↔ s.PaddingZero e) ∧
      ∀ t, (coroutines entryPoint).step s e = .ok t →
        (∀ x, s.Saved x → t.cpu.mem x = s.cpu.mem x) ∧ Switches entryPoint s t e := by
  refine ⟨coStep_ok_iff e, fun t ht => ?_⟩
  have hkept := (Kept.reach hs).step he ht
  exact ⟨hkept.saved, hkept.switches⟩

end

/-! A coroutine that is resumed with 5 from one stack and yields 7 from its own. -/

/-- Code that clears what is behind the contexts of `co` and moves to a stack. -/
def clear (s : Coroutines) (co rsp : Word) : CoEvent :=
  .code (fun _ => rsp) 0 fun x => if off co x < yieldedAt then s.cpu.mem x else 0

theorem proper_clear {s : Coroutines} {co : Word} (honly : ∀ c, s.Live c → c = co) (rsp : Word) :
    Proper s (clear s co rsp) := by
  rintro x ⟨c, a, ha, hx⟩
  obtain rfl := honly c (live_of_context ha)
  exact if_pos (off_lt_yieldedAt ha hx)

theorem live_only {s : Coroutines} {co : Word} {phase : CoPhase}
    (h : s.phase = Function.update (fun _ => none) co (some phase)) (c : Word) (hc : s.Live c) :
    c = co := by
  by_contra hne
  have hnone : s.phase c = none := by rw [h, Function.update_of_ne hne]
  simp [Coroutines.Live, Coroutines.context, hnone] at hc

/-- The next function for `co` can be called. -/
theorem reach_clear {entryPoint co rsp : Word} {phase : CoPhase} {s : Coroutines}
    (hs : Automaton.Reach (coroutines entryPoint) Proper s)
    (hphase : s.phase = Function.update (fun _ => none) co (some phase))
    (hbehind : co.toNat + statusAt ≤ (rsp - 8).toNat) (hend : (rsp - 8).toNat + 8 ≤ 2 ^ 64) :
    ∃ t : Coroutines, Automaton.Reach (coroutines entryPoint) Proper t ∧ t.phase = s.phase ∧
      t.running = s.running ∧ t.calls = s.calls ∧ t.checkPadding co = .ok () ∧ t.StackApart := by
  have honly := live_only hphase
  refine ⟨_, hs.step (proper_clear honly rsp) rfl, rfl, rfl, rfl, ?_, ?_⟩
  · refine if_neg (not_not_intro ?_)
    have hzero : read64 (fun _ => 0) (slot co paddingAt) = 0 := by simp [read64]
    refine (read64_congr fun x hx => if_neg ?_).trans hzero
    rw [off_slot_lt_iff co x (by decide)] at hx
    exact Nat.not_lt.mpr (Nat.le_trans (by decide) hx.1)
  · intro c hc x hx
    obtain rfl := honly c hc
    have hlt := x.isLt
    change off (rsp - 8) x < 8 at hx
    simp only [off, BitVec.toNat_sub] at hx hbehind hend ⊢
    omega

/-- The resume with 5 returns 7. -/
theorem coroutines_switch_back :
    ∃ s t : Coroutines, Automaton.Reach (coroutines 0x401000) Proper s ∧
      (coroutines 0x401000).step s (.yield 0x10000 7 0x403000) = .ok t ∧
      t.cpu.rip = 0x402000 ∧ yielded t.cpu.mem 0x10000 = 7 ∧ t.result = some 7 := by
  have hstart : Automaton.Reach (coroutines 0x401000) Proper
      ⟨⟨fun _ => 0, 0, fun _ => 0⟩, fun _ => none, [], fun _ => none⟩ :=
    .start ⟨rfl, fun _ => rfl⟩
  have hmade := hstart.step (show Proper _ (.new 0x10000 0x404000 0) from ⟨by decide, nofun⟩) rfl
  obtain ⟨s, hs, hphase, hrunning, -, hpadding, hstack⟩ :=
    @reach_clear _ _ 0x8000000 _ _ hmade rfl (by decide) (by decide)
  have hresumable : s.Resumable 0x10000 := .inl ⟨0x404000, 0, by rw [hphase]; rfl⟩
  have hresumed := hs.step (show Proper _ (.resumeValue 0x10000 5 0x402000) from
    ⟨hresumable, hstack⟩) (checkPadding_of_ok hpadding _)
  obtain ⟨t, ht, hphase', hrunning', hcalls, hpadding', hstack'⟩ :=
    @reach_clear _ 0x10000 0x18000 .active _ hresumed (by
      change Function.update s.phase 0x10000 (some .active) = _
      rw [hphase]
      exact Function.update_idem _ _ _) (by decide) (by decide)
  have hhead : t.running.head? = some 0x10000 := by rw [hrunning']; rfl
  have hproper : Proper t (.yield 0x10000 7 0x403000) := ⟨hhead, hstack'⟩
  obtain ⟨hgoes, hswitches⟩ := coroutines_switch ht hproper
  obtain ⟨u, hyield⟩ := hgoes.mpr (checkPadding_ok_iff.mp hpadding')
  obtain ⟨-, ⟨call, hcall, -, hframe⟩, hvalue, hresult⟩ := hswitches u hyield
  refine ⟨t, u, ht, hyield, ?_, hvalue, hresult⟩
  have hret : call.frame.ret = 0x402000 := by
    rw [hrunning', hcalls] at hcall
    change Function.update s.calls s.running.head? _ s.running.head? = _ at hcall
    rw [Function.update_self] at hcall
    cases hcall
    rw [frameOf_callSwapContext]
  rw [hframe.ret, hret]

end L4Server.Coro
