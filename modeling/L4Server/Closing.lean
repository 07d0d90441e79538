import L4Server.Lifecycle
import L4Server.Library.EndlessRun

/-!
Every connection is closed in the end. The loop runs for ever and cannot keep a
completion to itself: a pass hands out what the kernel has posted, and the kernel
posts no more than it has been given. So if the kernel completes what is in
flight for a descriptor, its life moves on to its end.
-/
namespace L4Server
open CMemory Automaton

variable {cfg : Config} {s t : Server} {slot : Nat}

/-! What a step does to the queues. -/

theorem acceptAgain_waiting (h : acceptAgain cfg s = .ok t) : t.waiting = s.waiting := by
  obtain ⟨c, -, ht⟩ := bind_eq_ok.mp h
  cases ht
  rfl

theorem handleAccept_waiting {out : Outcomes} {ret : Int} (h : handleAccept cfg out s ret = .ok t) :
    t.waiting = s.waiting := by
  cases handleAccept_turn h with
  | again _ hagain | entered _ _ _ _ hagain | refused _ _ _ hagain =>
      exact (acceptAgain_waiting hagain).trans rfl

/-- Handling takes one completion and queues entries behind the others. -/
structure HandleFrame (s t : Server) : Prop where
  before : s.waiting = false
  after : t.waiting = false
  inflight : t.inflight = s.inflight
  cq : ∃ cqe, s.cq = cqe :: t.cq
  sq : ∃ pushed, t.sq = s.sq ++ pushed

theorem step_handle_frame {out : Outcomes} (h : step cfg s (.handle out) = .ok t) :
    HandleFrame s t := by
  have hwaiting := (step_handle_eq_ok h).1
  obtain ⟨cqe, cq, hcq, ⟨-, h⟩ | ⟨-, r, hr, rfl⟩⟩ := step_handle_cases h
  · obtain ⟨hpushed, hinflight, htcq⟩ := handleAccept_pushed h
    refine ⟨hwaiting, (handleAccept_waiting h).trans hwaiting, hinflight, ⟨cqe, htcq ▸ hcq⟩, ?_⟩
    cases hpushed with
    | again _ _ _ hsq | entered _ _ _ _ _ hsq | refused _ _ _ hsq => exact ⟨_, hsq⟩
  · obtain ⟨pushed, hsq, -⟩ := (coResumeValue_resumed hr).pushed
    exact ⟨hwaiting, hwaiting, rfl, ⟨cqe, hcq⟩, pushed, hsq⟩

/-- A completion moves an entry from those in flight to the completed ones. -/
structure CompleteFrame (s t : Server) (index : Nat) (res : Int) : Prop where
  waiting : t.waiting = s.waiting
  inflight : t.inflight = s.inflight.eraseIdx index
  cq : ∃ sqe, s.inflight[index]? = some sqe ∧ t.cq = s.cq ++ [⟨sqe, res⟩]
  sq : t.sq = s.sq

theorem step_complete_frame {index : Nat} {res : Int} {data : List UInt8}
    (h : step cfg s (.complete index res data) = .ok t) : CompleteFrame s t index res := by
  obtain ⟨sqe, hget, -, rfl⟩ := complete_eq_ok h
  exact ⟨s.perform_waiting sqe res data, rfl, ⟨sqe, hget, rfl⟩, s.perform_sq sqe res data⟩

/-! Passes end. -/

/-- How long a pass can go on with what the kernel has been given. -/
def Server.passLeft (s : Server) : Nat := 2 * s.inflight.length + s.cq.length

def Event.EndsPhase : Event → Prop
  | .submit | .drained => True
  | .complete .. | .handle _ => False

theorem passLeft_step {e : Event} (h : step cfg s e = .ok t) :
    e.EndsPhase ∨ t.waiting = s.waiting ∧ t.passLeft < s.passLeft := by
  cases e with
  | submit | drained => exact .inl trivial
  | complete index res data =>
      obtain ⟨hwaiting, hinflight, ⟨sqe, hget, hcq⟩, -⟩ := step_complete_frame h
      have hlt := (List.getElem?_eq_some_iff.mp hget).1
      refine .inr ⟨hwaiting, ?_⟩
      simp only [Server.passLeft, hinflight, hcq, List.length_eraseIdx_of_lt hlt,
        List.length_append, List.length_singleton]
      omega
  | handle out =>
      obtain ⟨hbefore, hafter, hinflight, ⟨cqe, hcq⟩, -⟩ := step_handle_frame h
      refine .inr ⟨hafter.trans hbefore.symm, ?_⟩
      simp only [Server.passLeft, hinflight, hcq, List.length_cons]
      omega

variable {r : Endless (listenLoop cfg)}

theorem phase_ends (r : Endless (listenLoop cfg)) (n : Nat) : ∃ m, n ≤ m ∧
    (r.event m).EndsPhase ∧ (r.state m).waiting = (r.state n).waiting :=
  r.measure_event (fun s => s.waiting = (r.state n).waiting) (fun m => (r.event m).EndsPhase)
    Server.passLeft
    (fun k hk => (passLeft_step (r.step k)).imp_right fun h => ⟨h.1.trans hk, h.2⟩) rfl

/-- A submission ends the phase in which the loop waits, an empty completion
queue the other one. -/
theorem endsPhase_cases {e : Event} (h : step cfg s e = .ok t) (hends : e.EndsPhase) :
    s.waiting = true ∧ e = .submit ∧ t.waiting = false ∨
      s.waiting = false ∧ e = .drained ∧ t.waiting = true := by
  cases e with
  | submit =>
      obtain ⟨hwaiting, rfl⟩ := step_submit_eq_ok h
      exact .inl ⟨hwaiting, rfl, rfl⟩
  | drained =>
      obtain ⟨hwaiting, -, rfl⟩ := step_drained_eq_ok h
      exact .inr ⟨hwaiting, rfl, rfl⟩
  | complete | handle => exact hends.elim

/-- The loop comes to the end of either phase again and again. -/
theorem submits_drains (r : Endless (listenLoop cfg)) (n : Nat) :
    (∃ m, n ≤ m ∧ r.event m = .submit) ∧ ∃ m, n ≤ m ∧ r.event m = .drained := by
  obtain ⟨m, hnm, hends, -⟩ := phase_ends r n
  obtain ⟨l, hml, hends', hsame⟩ := phase_ends r (m + 1)
  rcases endsPhase_cases (r.step m) hends with ⟨-, he, hafter⟩ | ⟨-, he, hafter⟩ <;>
    rcases endsPhase_cases (r.step l) hends' with ⟨hbefore, he', -⟩ | ⟨hbefore, he', -⟩
  · simp [hsame, hafter] at hbefore
  · exact ⟨⟨m, hnm, he⟩, l, by omega, he'⟩
  · exact ⟨⟨l, by omega, he'⟩, m, hnm, he⟩
  · simp [hsame, hafter] at hbefore

/-! What is due for a slot. -/

/-- The completion is one of the slot, or that of the accept which has returned it. -/
def Cqe.Concerns (cfg : Config) (slot : Nat) (cqe : Cqe) : Prop :=
  cqe.sqe.userData = slot ∨
    cqe.sqe.userData = cfg.listenFd ∧ 0 ≤ cqe.res ∧ cqe.res.toNat = slot

def Server.Due (cfg : Config) (slot : Nat) (s : Server) : Prop :=
  ∃ cqe ∈ s.cq, cqe.Concerns cfg slot

/-- The step handles a completion that concerns the slot. -/
def Server.Handles (cfg : Config) (slot : Nat) (s : Server) : Event → Prop
  | .handle _ => ∃ cqe, s.cq.head? = some cqe ∧ cqe.Concerns cfg slot
  | _ => False

/-- The kernel completes an operation that is in flight for the slot. -/
def Server.Completes (slot : Nat) (s : Server) : Event → Prop
  | .complete index _ _ => ∃ sqe, s.inflight[index]? = some sqe ∧ sqe.userData = slot
  | _ => False

theorem due_step {e : Event} (h : step cfg s e = .ok t) (hdue : s.Due cfg slot) :
    s.Handles cfg slot e ∨ t.Due cfg slot := by
  obtain ⟨cqe, hmem, hconcerns⟩ := hdue
  cases e with
  | submit =>
      obtain ⟨-, rfl⟩ := step_submit_eq_ok h
      exact .inr ⟨cqe, hmem, hconcerns⟩
  | drained =>
      obtain ⟨-, -, rfl⟩ := step_drained_eq_ok h
      exact .inr ⟨cqe, hmem, hconcerns⟩
  | complete index res data =>
      obtain ⟨sqe, -, hcq⟩ := (step_complete_frame h).cq
      exact .inr ⟨cqe, hcq ▸ List.mem_append_left _ hmem, hconcerns⟩
  | handle out =>
      obtain ⟨first, hcq⟩ := (step_handle_frame h).cq
      rw [hcq] at hmem
      rcases List.mem_cons.mp hmem with rfl | hmem
      · exact .inl ⟨cqe, by rw [hcq]; rfl, hconcerns⟩
      · exact .inr ⟨cqe, hmem, hconcerns⟩

theorem due_of_completes {e : Event} (h : step cfg s e = .ok t) (hc : s.Completes slot e) :
    t.Due cfg slot := by
  cases e with
  | complete index res data =>
      obtain ⟨sqe, hget, huser⟩ := hc
      obtain ⟨sqe', hget', hcq⟩ := (step_complete_frame h).cq
      obtain rfl : sqe = sqe' := Option.some.inj (hget.symm.trans hget')
      exact ⟨⟨sqe, res⟩, by rw [hcq]; simp, .inl huser⟩
  | _ => exact hc.elim

/-- An entry stays queued until the next submission. -/
theorem queued_step {e : Event} (h : step cfg s e = .ok t) {sqe : Sqe} (hmem : sqe ∈ s.sq) :
    e = .submit ∧ sqe ∈ t.inflight ∨ sqe ∈ t.sq := by
  cases e with
  | submit =>
      obtain ⟨-, rfl⟩ := step_submit_eq_ok h
      exact .inl ⟨rfl, List.mem_append_right _ hmem⟩
  | drained =>
      obtain ⟨-, -, rfl⟩ := step_drained_eq_ok h
      exact .inr hmem
  | complete index res data => exact .inr ((step_complete_frame h).sq ▸ hmem)
  | handle out =>
      obtain ⟨pushed, hsq⟩ := (step_handle_frame h).sq
      exact .inr (hsq ▸ List.mem_append_left _ hmem)

/-- Queued entries are submitted. -/
theorem submitted (r : Endless (listenLoop cfg)) {n : Nat} {sqe : Sqe}
    (hmem : sqe ∈ (r.state n).sq) : ∃ m, n ≤ m ∧ sqe ∈ (r.state m).inflight := by
  have hends (k : Nat) (hlasts : ∀ m, k ≤ m → sqe ∈ (r.state m).sq ∧
      ¬ (r.event m = .submit ∧ sqe ∈ (r.state (m + 1)).inflight)) : False := by
    obtain ⟨m, hkm, hsubmit⟩ := (submits_drains r k).1
    obtain ⟨hqueued, hnot⟩ := hlasts m hkm
    have hstep : step cfg (r.state m) (r.event m) = .ok (r.state (m + 1)) := r.step m
    rw [hsubmit] at hstep
    refine hnot ⟨hsubmit, ?_⟩
    rw [(step_submit_eq_ok hstep).2]
    exact List.mem_append_right _ hqueued
  obtain ⟨m, hnm, ⟨-, hin⟩, -⟩ := r.until_event (fun s => sqe ∈ s.sq)
    (fun m => r.event m = .submit ∧ sqe ∈ (r.state (m + 1)).inflight)
    (fun m hm => queued_step (r.step m) hm) hends hmem
  exact ⟨m + 1, by omega, hin⟩

/-- What is due is handled: the pass does not end before. -/
theorem due_handled (r : Endless (listenLoop cfg)) {n : Nat} (hdue : (r.state n).Due cfg slot) :
    ∃ m, n ≤ m ∧ (r.state m).Handles cfg slot (r.event m) := by
  have hends (k : Nat) (hlasts : ∀ m, k ≤ m → (r.state m).Due cfg slot ∧
      ¬ (r.state m).Handles cfg slot (r.event m)) : False := by
    obtain ⟨m, hkm, hdrained⟩ := (submits_drains r k).2
    obtain ⟨⟨cqe, hmem, -⟩, -⟩ := hlasts m hkm
    have hstep : step cfg (r.state m) (r.event m) = .ok (r.state (m + 1)) := r.step m
    rw [hdrained] at hstep
    rw [(step_drained_eq_ok hstep).2.1] at hmem
    cases hmem
  obtain ⟨m, hnm, hhandles, -⟩ := r.until_event (Server.Due cfg slot)
    (fun m => (r.state m).Handles cfg slot (r.event m))
    (fun m hm => due_step (r.step m) hm) hends hdue
  exact ⟨m, hnm, hhandles⟩

/-! The stages one after the other. -/

theorem happenings_unhandled {e : Event} (hnot : ¬ s.Handles cfg slot e) :
    happenings cfg slot s e t = [] ∨ happenings cfg slot s e t = [.accepted] := by
  cases e with
  | submit | drained => exact .inl rfl
  | complete index res data =>
      simp only [happenings]
      split
      · split
        · exact .inr rfl
        · exact .inl rfl
      · exact .inl rfl
  | handle out =>
      simp only [happenings]
      split
      · next cqe cq hcq =>
        have hother : ¬ cqe.Concerns cfg slot := fun h => hnot ⟨cqe, by rw [hcq]; rfl, h⟩
        simp only [Cqe.Concerns, not_or] at hother
        unfold handledAs
        split
        · next huser => exact .inl (if_neg fun h => hother.2 ⟨huser, h⟩)
        · exact .inl (if_neg hother.1)
      · exact .inl rfl

theorem happenings_handled {e : Event} (hne : slot ≠ cfg.listenFd)
    (h : s.Handles cfg slot e) : ∃ x, happenings cfg slot s e t = [x] ∧ x ≠ .accepted := by
  cases e with
  | handle out =>
      obtain ⟨cqe, hhead, hconcerns⟩ := h
      obtain ⟨cq, hcq⟩ := List.head?_eq_some_iff.mp hhead
      simp only [happenings, hcq]
      unfold handledAs
      rcases hconcerns with huser | ⟨huser, hreturned⟩
      · rw [if_neg (huser ▸ hne), if_pos huser]
        split
        · split
          · split <;> exact ⟨_, rfl, by simp⟩
          · exact ⟨_, rfl, by simp⟩
        · exact ⟨_, rfl, by split <;> simp⟩
      · rw [if_pos huser, if_pos hreturned]
        exact ⟨_, rfl, by split <;> simp⟩
  | _ => exact h.elim

/-- How many completions are ahead of a descriptor, that of its accept included. -/
def LifeStage.rank (longest : Nat) : LifeStage → Nat
  | .arriving => longest + 2
  | .receiving => longest + 1
  | .answering left => left
  | .closed | .stranded => 0

theorem LifeStage.Moves.rank_lt {longest : Nat} {a b : LifeStage} {x : Happening}
    (h : a.Moves longest x b) (hx : x ≠ .accepted) : b.rank longest < a.rank longest := by
  cases h with
  | accepted => exact absurd rfl hx
  | answered _ hle => exact Nat.lt_succ_of_le hle
  | refused | entered | hungUp | broken | transferred | finished => simp [LifeStage.rank]

variable {stage : LifeStage}

/-- Until one of its completions is handled an open descriptor stays where it is;
then it moves on. -/
theorem stage_step (hb : Books True cfg s) (hne : slot ≠ cfg.listenFd)
    (hshows : s.Shows cfg slot stage) (hopen : stage.isOpen = true) {e : Event}
    (h : step cfg s e = .ok t) :
    (s.Handles cfg slot e ∧ ∃ stage', t.Shows cfg slot stage' ∧
      stage'.rank cfg.longestReply < stage.rank cfg.longestReply) ∨
    (¬ s.Handles cfg slot e ∧ t.Shows cfg slot stage) := by
  obtain ⟨stage', hrun, -, ht⟩ := (lifecycle_simulates cfg hne).step s t stage e ⟨hb, hshows⟩ h
  by_cases hhandles : s.Handles cfg slot e
  · obtain ⟨x, hx, hne'⟩ := happenings_handled (t := t) hne hhandles
    rw [hx] at hrun
    exact .inl ⟨hhandles, stage', ht, (lifecycle_moves hrun).rank_lt hne'⟩
  · refine .inr ⟨hhandles, ?_⟩
    rcases happenings_unhandled (t := t) hhandles with hx | hx <;> rw [hx] at hrun
    · cases hrun
      exact ht
    · cases lifecycle_moves hrun
      cases hopen

/-- Where no step leaves a connection behind, an open one has something due, in
flight or queued. -/
theorem Server.Shows.waits (hb : Books False cfg s) (hne : slot ≠ cfg.listenFd)
    (hshows : s.Shows cfg slot stage) (hopen : stage.isOpen = true) :
    s.Due cfg slot ∨ (∃ sqe ∈ s.inflight, sqe.userData = slot) ∨
      ∃ sqe ∈ s.sq, sqe.userData = slot := by
  have hops (sqe : Sqe) (hmem : sqe ∈ s.ops slot) : s.Due cfg slot ∨
      (∃ sqe ∈ s.inflight, sqe.userData = slot) ∨ ∃ sqe ∈ s.sq, sqe.userData = slot := by
    obtain ⟨hmem, huser⟩ := Server.mem_ops.mp hmem
    simp only [Server.outstanding, List.mem_append, List.mem_map] at hmem
    rcases hmem with (hsq | hinflight) | ⟨cqe, hcq, rfl⟩
    · exact .inr (.inr ⟨sqe, hsq, huser⟩)
    · exact .inr (.inl ⟨sqe, hinflight, huser⟩)
    · exact .inl ⟨cqe, hcq, .inl huser⟩
  cases hshows with
  | closed => cases hopen
  | arriving _ _ harr =>
      obtain ⟨cqe, hmem, hreturned⟩ := harr
      exact .inl ⟨cqe, hmem, .inr hreturned⟩
  | @receiving sqe _ hone _ => exact hops sqe (by simp [hone])
  | answering _ hlen hleft _ =>
      obtain ⟨sqe, hmem⟩ := List.exists_mem_of_length_pos (by omega : 0 < (s.ops slot).length)
      exact hops sqe hmem
  | stranded ho hnil hnot =>
      cases hb.slots slot hne with
      | closed hclosed _ _ => simp [ho] at hclosed
      | arriving _ harr _ _ => exact absurd harr hnot
      | receiving _ _ hone _ _ _ _ _ _ => simp [hnil] at hone
      | sending _ _ hne' _ _ _ _ _ => exact absurd hnil hne'
      | stranded hfalse _ _ _ _ => exact hfalse.elim

/-! Endless runs. -/

/-- Whenever something is in flight for the descriptor, the kernel completes one
of its operations at some time. -/
def KernelCompletes (fd : Nat) (r : Endless (listenLoop cfg)) : Prop :=
  ∀ n, (∃ sqe ∈ (r.state n).inflight, sqe.userData = fd) →
    ∃ m, n ≤ m ∧ (r.state m).Completes fd (r.event m)

theorem KernelCompletes.due {r : Endless (listenLoop cfg)} (hkernel : KernelCompletes slot r)
    {n : Nat} (hin : ∃ sqe ∈ (r.state n).inflight, sqe.userData = slot) :
    ∃ m, n ≤ m ∧ (r.state m).Due cfg slot := by
  obtain ⟨m, hnm, hcompletes⟩ := hkernel n hin
  exact ⟨m + 1, by omega, due_of_completes (r.step m) hcompletes⟩

/-- An open descriptor comes to the handling of one of its completions. -/
theorem stage_moves {r : Endless (listenLoop cfg)} (hb : ∀ n, Books True cfg (r.state n))
    (hb' : ∀ n, Books False cfg (r.state n)) (hkernel : KernelCompletes slot r)
    (hne : slot ≠ cfg.listenFd) (hopen : stage.isOpen = true) {n : Nat}
    (hshows : (r.state n).Shows cfg slot stage) :
    ∃ m, n ≤ m ∧ (r.state m).Handles cfg slot (r.event m) ∧
      (r.state m).Shows cfg slot stage := by
  refine r.until_event (fun s => s.Shows cfg slot stage)
    (fun m => (r.state m).Handles cfg slot (r.event m)) (fun m hm => ?_) (fun k hlasts => ?_) hshows
  · exact (stage_step (hb m) hne hm hopen (r.step m)).imp And.left And.right
  · -- what it waits for is submitted, completed and handled
    have hin {k l : Nat} (hkl : k ≤ l) (hin : ∃ sqe ∈ (r.state l).inflight, sqe.userData = slot) :
        ∃ m, k ≤ m ∧ (r.state m).Due cfg slot := by
      obtain ⟨m, hlm, hdue⟩ := hkernel.due hin
      exact ⟨m, hkl.trans hlm, hdue⟩
    obtain ⟨m, hkm, hdue⟩ : ∃ m, k ≤ m ∧ (r.state m).Due cfg slot := by
      rcases (hlasts k (Nat.le_refl k)).1.waits (hb' k) hne hopen with
        hdue | hflight | ⟨sqe, hmem, huser⟩
      · exact ⟨k, Nat.le_refl k, hdue⟩
      · exact hin (Nat.le_refl k) hflight
      · obtain ⟨l, hkl, hmem⟩ := submitted r hmem
        exact hin hkl ⟨sqe, hmem, huser⟩
    obtain ⟨l, hml, hhandles⟩ := due_handled r hdue
    exact (hlasts l (hkm.trans hml)).2 hhandles

/-- In a run without end in which every step answers and the kernel completes what
is in flight for a descriptor, the descriptor is closed whenever it has been open. -/
theorem listenLoop_closes_eventually (cfg : Config) (r : Endless (listenLoop cfg))
    (hstart : r.state 0 = Server.initial cfg) (hanswers : ∀ n, Answers (r.state n) (r.event n))
    (fd : Nat) (hne : fd ≠ cfg.listenFd) (hkernel : KernelCompletes fd r) (n : Nat)
    (hopen : (r.state n).isOpen fd = true) : ∃ m, n ≤ m ∧ (r.state m).isOpen fd = false := by
  have hreach (k : Nat) : Reach (listenLoop cfg) Answers (r.state k) := r.reach hstart hanswers k
  have hb (k : Nat) : Books True cfg (r.state k) := books_reachable (hreach k).reachable
  have hb' (k : Nat) : Books False cfg (r.state k) :=
    books_reach (fun _ _ hg => .inr hg) (hreach k)
  obtain ⟨stage, hshows⟩ : ∃ stage, (r.state n).Shows cfg fd stage :=
    ((lifecycle_simulates cfg hne).reached (hreach n).reachable).imp fun _ h => h.2.2
  refine r.ranked (fun k s => ∃ stage, s.Shows cfg fd stage ∧ stage.isOpen = true ∧
    stage.rank cfg.longestReply = k) (fun s => s.isOpen fd = false) ?_
    ⟨stage, hshows, hshows.isOpen_eq.symm.trans hopen, rfl⟩
  rintro k l ⟨stage, hshows, hopen, rfl⟩
  obtain ⟨m, hlm, hhandles, hshows⟩ := stage_moves hb hb' hkernel hne hopen hshows
  obtain ⟨-, stage', hshows', hlt⟩ :=
    (stage_step (hb m) hne hshows hopen (r.step m)).resolve_right fun h => h.1 hhandles
  refine ⟨m + 1, by omega, ?_⟩
  cases hopen' : stage'.isOpen with
  | false => exact .inl (hshows'.isOpen_eq.trans hopen')
  | true => exact .inr ⟨_, hlt, stage', hshows', hopen', rfl⟩

/-! One client, and then none. -/

/-- The loop with nothing to do. -/
def idleLoop (s : Server) (hcq : s.cq = []) (hsq : s.sq = []) : Endless (listenLoop cfg) where
  state := fun n => { s with waiting := n % 2 == 1 }
  event := fun n => if n % 2 = 0 then .drained else .submit
  step := by
    intro n
    rcases Nat.mod_two_eq_zero_or_one n with h | h
    · simp [listenLoop, step, h, hcq, Nat.add_mod]
    · simp [listenLoop, step, h, hsq, Nat.add_mod]

/-- A step that answers, and completes what is in flight for descriptor 7. -/
def calm (s : Server) : Event → Bool
  | .handle out => !(s.inflight.any fun sqe => sqe.userData == 7) &&
      (s.cq.head?.all fun cqe => 0 ≤ cqe.res) && out.resStr == (true, true) &&
      out.fresStr == (true, true)
  | .complete index _ _ => !(s.inflight.any fun sqe => sqe.userData == 7) ||
      s.inflight[index]?.any fun sqe => sqe.userData == 7
  | .submit | .drained => !(s.inflight.any fun sqe => sqe.userData == 7)

abbrev Calm (s : Server) (e : Event) : Prop := calm s e = true

theorem Calm.answers {e : Event} (h : Calm s e) : Answers s e := by
  cases e with
  | handle out =>
      intro cqe cq hcq _
      simp only [Calm, calm, hcq, List.head?_cons, Option.all_some, Bool.and_eq_true,
        decide_eq_true_eq, beq_iff_eq] at h
      exact ⟨h.1.1.2, fun _ => ⟨h.1.2, h.2⟩⟩
  | _ => trivial

theorem Calm.completes {e : Event} (h : Calm s e)
    (hin : ∃ sqe ∈ s.inflight, sqe.userData = 7) : s.Completes 7 e := by
  have hany : (s.inflight.any fun sqe => sqe.userData == 7) = true := by simpa using hin
  cases e with
  | complete index res data =>
      simp only [Calm, calm, hany, Bool.not_true, Bool.false_or, Option.any_eq_true,
        beq_iff_eq] at h
      obtain ⟨sqe, hget, huser⟩ := h
      exact ⟨sqe, hget, huser⟩
  | _ => simp [Calm, calm, hany] at h

/-- An endless run that is calm. -/
structure CalmRun (r : Endless (listenLoop cfg)) : Prop where
  answers : ∀ n, Answers (r.state n) (r.event n)
  kernel : KernelCompletes 7 r

theorem CalmRun.cons {r : Endless (listenLoop cfg)} {e : Event} (hr : CalmRun r)
    (h : (listenLoop cfg).step s e = .ok (r.state 0)) (hcalm : Calm s e) :
    CalmRun (r.cons s e h) where
  answers := fun n => n.casesOn hcalm.answers hr.answers
  kernel := by
    intro n hin
    cases n with
    | zero => exact ⟨0, Nat.le_refl 0, hcalm.completes hin⟩
    | succ n =>
        obtain ⟨m, hnm, hcompletes⟩ := hr.kernel n hin
        exact ⟨m + 1, by omega, hcompletes⟩

theorem idleLoop_calm {hcq : s.cq = []} {hsq : s.sq = []}
    (hin : (s.inflight.any fun sqe => sqe.userData == 7) = false) :
    CalmRun (idleLoop s hcq hsq : Endless (listenLoop bareConfig)) where
  answers := by
    intro n
    simp only [idleLoop]
    split <;> trivial
  kernel := by
    intro n h
    have hany : (s.inflight.any fun sqe => sqe.userData == 7) = true := by
      simpa [idleLoop] using h
    rw [hany] at hin
    cases hin

theorem idleLoop_zero (hwaiting : s.waiting = false) (hcq : s.cq = []) (hsq : s.sq = []) :
    (idleLoop s hcq hsq : Endless (listenLoop cfg)).state 0 = s := by
  cases s
  simp only at hwaiting
  subst hwaiting
  rfl

/-- What happens to the client from its accept on. -/
def clientLife : List Event :=
  [.handle .granted, .drained, .submit, .complete 0 1 (ascii "x"), .handle .granted, .drained,
   .submit, .complete 1 26 [], .handle .granted]

def untilAccepted : List Event := [.submit, .complete 0 7 []]

/-- Nothing queued, and nothing under way for descriptor 7. -/
def Server.quiet (s : Server) : Bool :=
  !s.waiting && s.cq.isEmpty && s.sq.isEmpty && !(s.inflight.any fun sqe => sqe.userData == 7)

theorem clientLife_view :
    ((run (listenLoop bareConfig) untilAccepted (Server.initial bareConfig)).toOption.map fun s =>
      (s.isOpen 7 && decide (Guarded (listenLoop bareConfig) Calm clientLife s),
        (run (listenLoop bareConfig) clientLife s).toOption.map Server.quiet)) =
      some (true, some true) := by
  decide +kernel

theorem exists_calmRun :
    ∃ r : Endless (listenLoop bareConfig), r.state 0 = Server.initial bareConfig ∧
      CalmRun r ∧ ∃ n, (r.state n).isOpen 7 = true := by
  obtain ⟨s, hs, hview⟩ := exists_run _ _ clientLife_view
  simp only [Prod.mk.injEq, Bool.and_eq_true, decide_eq_true_eq] at hview
  obtain ⟨⟨hopen, hcalm⟩, hnext⟩ := hview
  obtain ⟨t, ht, hquiet⟩ := exists_of_map_toOption hnext
  simp only [Server.quiet, Bool.and_eq_true, Bool.not_eq_true', List.isEmpty_iff] at hquiet
  obtain ⟨⟨⟨hwaiting, hcq⟩, hsq⟩, hin⟩ := hquiet
  obtain ⟨r, hr0, hr⟩ := exists_endless (P := CalmRun) (fun r s e h hg hr => hr.cons h hg) hcalm ht
    (idleLoop_zero hwaiting hcq hsq) (idleLoop_calm hin)
  have hfirst : Guarded (listenLoop bareConfig) Calm untilAccepted
      (Server.initial bareConfig) := by
    decide +kernel
  refine exists_endless (P := fun r => CalmRun r ∧ ∃ n, (r.state n).isOpen 7 = true)
    (fun r s e h hg hr => ⟨hr.1.cons h hg, ?_⟩) hfirst hs hr0 ⟨hr, 0, by rw [hr0, hopen]⟩
  obtain ⟨n, hn⟩ := hr.2
  exact ⟨n + 1, hn⟩

theorem listenLoop_closes_eventually_client :
    ∃ (r : Endless (listenLoop bareConfig)) (n m : Nat), (r.state n).isOpen 7 = true ∧
      n ≤ m ∧ (r.state m).isOpen 7 = false := by
  obtain ⟨r, hstart, hcalm, n, hopen⟩ := exists_calmRun
  obtain ⟨m, hnm, hclosed⟩ := listenLoop_closes_eventually bareConfig r hstart hcalm.answers 7
    (by decide) hcalm.kernel n hopen
  exact ⟨r, n, m, hopen, hnm, hclosed⟩

end L4Server
