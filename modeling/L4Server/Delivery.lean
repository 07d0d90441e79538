import L4Server.SlotRuns

/-!
How much of a response the kernel has taken when its connection is closed, in
the build without `WATCH_STATIC_FILES`. A reply is one send there, and the
handler takes the completion of it, with whatever count, for the end.
-/
namespace L4Server
open CMemory

/-- All that was queued in the session has been taken. -/
def Session.Whole (session : Session) : Prop := session.taken = session.pushed

instance (session : Session) : Decidable session.Whole :=
  inferInstanceAs (Decidable (session.taken = session.pushed))

/-- How far a session has come, by what is pending and done for its slot. -/
inductive Progress (session : Session) : List Sqe → List Cqe → Prop
  | idle : Progress session [] []
  | receiving {sqe : Sqe} : sqe.op.isRecv = true → session.pushed = [] → session.taken = [] →
      Progress session [sqe] []
  | received {cqe : Cqe} : cqe.sqe.op.isRecv = true → session.pushed = [] →
      session.taken = [] → Progress session [] [cqe]
  | sending {sqe : Sqe} {fd : Nat} {text : List UInt8} {more : Bool} :
      sqe.op = .send fd text more → session.pushed = text → session.taken = [] →
      Progress session [sqe] []
  | sent {cqe : Cqe} {fd : Nat} {text : List UInt8} {more : Bool} :
      cqe.sqe.op = .send fd text more → cqe.res ≤ text.length → session.pushed = text →
      session.taken = text.take cqe.res.toNat → Progress session [] [cqe]

variable {cfg : Config} {s t : Server} {slot : Nat} {session : Session} {pending : List Sqe}
  {done : List Cqe}

theorem Progress.perm (h : Progress session pending done) {pending' : List Sqe}
    (hperm : pending'.Perm pending) : Progress session pending' done := by
  cases h with
  | idle =>
      obtain rfl := hperm.eq_nil
      exact .idle
  | receiving hop hpushed htaken =>
      obtain rfl := hperm.eq_singleton
      exact .receiving hop hpushed htaken
  | received hop hpushed htaken =>
      obtain rfl := hperm.eq_nil
      exact .received hop hpushed htaken
  | sending hop hpushed htaken =>
      obtain rfl := hperm.eq_singleton
      exact .sending hop hpushed htaken
  | sent hop hres hpushed htaken =>
      obtain rfl := hperm.eq_nil
      exact .sent hop hres hpushed htaken

/-- The kernel completes the one entry that is pending. -/
theorem Progress.complete {conn : ServerConnection}
    (h : Progress conn.session pending done) {sqe : Sqe} {rest : List Sqe}
    (hpending : pending.Perm (sqe :: rest)) {isOpen : Nat → Bool} {res : Int}
    {data : List UInt8} (hallows : sqe.op.allows isOpen res data = true) :
    Progress (conn.perform res data sqe.op).session rest (done ++ [⟨sqe, res⟩]) := by
  cases h with
  | idle => cases hpending.symm.eq_nil
  | received _ _ _ => cases hpending.symm.eq_nil
  | sent _ _ _ _ => cases hpending.symm.eq_nil
  | receiving hop hpushed htaken =>
      obtain ⟨rfl, rfl⟩ := List.cons.inj hpending.symm.eq_singleton
      cases hsqe : sqe.op with
      | recv fd len => exact .received hop hpushed htaken
      | _ => simp [hsqe, Op.isRecv] at hop
  | @sending _ fd text more hop hpushed htaken =>
      obtain ⟨rfl, rfl⟩ := List.cons.inj hpending.symm.eq_singleton
      rw [hop] at hallows ⊢
      refine .sent hop ?_ hpushed ?_
      · exact of_decide_eq_true (Bool.and_eq_true_iff.mp hallows).2
      · simp [ServerConnection.perform, htaken]

theorem prepareConnection_session (out : Outcomes) (fd : Nat) (conn : ServerConnection) :
    (prepareConnection out fd conn).2.session = conn.session := by
  unfold prepareConnection
  split
  · simp only
    split <;> rfl
  · rfl

theorem Entry.session_eq {conn conn' : ServerConnection} (h : Entry slot conn conn') :
    conn'.session = ⟨conn.session.number + 1, [], []⟩ := by
  cases h with
  | reused _ => rfl
  | @prepared out _ _ hprep =>
      have hsession := prepareConnection_session out slot conn.enter
      rwa [hprep] at hsession

/-- A reply is one send of its text. -/
theorem replySqes_send (hwatch : cfg.watch = false) (out : Outcomes) (l : Locals) (c : Ctx)
    (reply : Reply) : replySqes cfg out l c reply =
      [⟨.send c.conn.fd (reply.bytes out l) false, c.slot, false, c.conn.session.number⟩] := by
  simp [replySqes, hwatch]

theorem Progress.recv {c : Ctx} (hwatch : cfg.watch = false)
    (hpushed : c.conn.session.pushed = []) (htaken : c.conn.session.taken = [])
    {out : Outcomes} {value : Int} {r : Resumed} (hr : RecvTurn cfg out value c r)
    {pushed : List Sqe} (hsq : r.ctx.sq = c.sq ++ pushed) :
    Progress r.ctx.conn.session pushed [] := by
  cases hr with
  | stopped _ _ =>
      obtain rfl : pushed = [] := by simpa using hsq
      exact .idle
  | silent _ _ =>
      obtain rfl : pushed = [] := by simpa using hsq
      exact .idle
  | reset _ _ =>
      obtain rfl : pushed = [] := by simpa using hsq
      exact .idle
  | served _ _ hserved =>
      obtain ⟨str, str', reply, -, -, hq⟩ := hserved.queued
      have heq := hq.sq.symm.trans (by simpa using hsq)
      obtain rfl := List.append_cancel_left heq
      have hpayload := hq.payload
      rw [replySqes_send hwatch] at hpayload ⊢
      exact .sending rfl (by simpa [hpushed, suspend, Op.payload] using hpayload) (hq.taken.trans htaken)

/-- What a slot's view says of the session it is in. -/
def SlotView.Progresses (v : SlotView) : Prop := Progress v.conn.session v.pending v.done

theorem progress_step (hwatch : cfg.watch = false) (hne : slot ≠ cfg.listenFd)
    (hb : Books True cfg s) (hp : (s.view slot).Progresses) {e : Event} {v : SlotView}
    (h : SlotStep cfg s slot e v) : v.Progresses := by
  unfold SlotView.Progresses at *
  cases h with
  | same hconn _ hpending hdone =>
      rw [hconn, hdone]
      exact hp.perm hpending
  | accepted hconn _ _ hpending hdone =>
      rw [hconn, hdone]
      exact hp.perm hpending
  | completed hallows hpending hdone hconn _ =>
      rw [hconn, hdone]
      exact hp.complete hpending hallows
  | refused _ _ _ _ _ _ _ hpending hdone =>
      rw [hpending, hdone]
      exact .idle
  | entered _ _ hentry _ hpush hconn _ hpending hdone =>
      rw [hpending, hdone, hconn, Ctx.push_eq_ok hpush]
      exact .receiving rfl (by simp [hentry.session_eq, Op.payload]) (by simp [hentry.session_eq])
  | @resumed out v cqe cq r pushed hcq huser hr hsq _ hconn _ hpending hdone =>
      have hmem : cqe.sqe ∈ s.ops slot := huser ▸ Server.mem_ops_of_cq (by simp [hcq])
      have hphase := hb.slots slot hne
      have hsession : (s.view slot).conn.session = (s.conns slot).session := rfl
      rw [hconn]
      rw [hdone, hsession] at hp
      generalize (s.view slot).pending = pending at hp hpending
      generalize v.done = rest at hp
      cases hp with
      | received hop hpushed htaken =>
          have haction := (hphase.of_recv hmem hop).2.1
          exact (Progress.recv hwatch hpushed htaken (coResumeValue_recv haction hr) hsq).perm
            (by simpa using hpending)
      | sent hop _ _ _ =>
          obtain ⟨-, haction, ⟨l, hcoro⟩, -⟩ := hphase.of_transfer hmem (by rw [hop]; rfl)
          have hr := coResumeValue_transfer haction hcoro hr
          obtain rfl : pushed = [] := by simpa [hr] using hsq
          obtain h := (by simpa using hpending : v.pending = [])
          rw [h]
          exact .idle

theorem progress_reachable (hwatch : cfg.watch = false) (hne : slot ≠ cfg.listenFd)
    (hs : Automaton.Reachable (listenLoop cfg) s) : (s.view slot).Progresses :=
  slot_reach hne .idle (fun _ _ _ hb _ hp h => progress_step hwatch hne hb hp h) hs

/-- Where a completion that is no error has the descriptor closed, the session's
bytes are whole if and only if the completion is not that of a short send. -/
theorem listenLoop_delivers_iff (cfg : Config) (hwatch : cfg.watch = false) (s t : Server)
    (hs : Automaton.Reachable (listenLoop cfg) s) (out : Outcomes) (cqe : Cqe) (cq : List Cqe)
    (hcq : s.cq = cqe :: cq) (hres : 0 ≤ cqe.res) (h : step cfg s (.handle out) = .ok t)
    (slot : Nat) (hopen : s.isOpen slot = true) (hclosed : t.isOpen slot = false) :
    (t.conns slot).session.Whole ↔
      ∀ fd text more, cqe.sqe.op = .send fd text more → cqe.res = text.length := by
  have hb := books_reachable hs
  have hne : slot ≠ cfg.listenFd := by
    rintro rfl
    rw [(books_step hb (.inl trivial) h).isOpen] at hclosed
    cases hclosed
  have hp := progress_reachable hwatch hne hs
  have hview : (t.view slot).conn = t.conns slot := rfl
  have hstays {P : Prop} (h : (t.view slot).isOpen = s.isOpen slot) : P := by
    rw [show (t.view slot).isOpen = false from hclosed, hopen] at h
    cases h
  rw [← hview]
  cases slot_step hb hne h with
  | same _ hisOpen _ _ => exact hstays hisOpen
  | accepted _ hshut _ _ _ => simp [hopen] at hshut
  | @entered _ _ _ _ _ _ _ _ _ _ _ hisOpen _ _ => exact hstays hisOpen
  | refused hcq' huser _ _ _ hprep _ _ _ =>
      obtain ⟨rfl, -⟩ := List.cons.inj (hcq.symm.trans hcq')
      have hmem := Server.mem_ops_of_cq (s := s) (show cqe ∈ s.cq by simp [hcq])
      have hop := hb.op_of_listening hmem huser
      have hsession : (t.view slot).conn.session = (s.conns slot).enter.session := by
        simpa only [hprep] using prepareConnection_session out slot (s.conns slot).enter
      simp [Session.Whole, hsession, hop, ServerConnection.enter]
  | @resumed _ _ _ _ r pushed hcq' huser hr hsq _ hconn hisOpen hpending hdone =>
      obtain ⟨rfl, -⟩ := List.cons.inj (hcq.symm.trans hcq')
      have hmem : cqe.sqe ∈ s.ops slot := huser ▸ Server.mem_ops_of_cq (by simp [hcq])
      have hphase := hb.slots slot hne
      have hreset : r.closed = true := by
        by_contra hnot
        rw [if_neg hnot] at hisOpen
        exact hstays hisOpen
      unfold SlotView.Progresses at hp
      rw [hdone, show (s.view slot).conn = s.conns slot from rfl] at hp
      rw [hconn]
      generalize (s.view slot).pending = pending at hp
      generalize (t.view slot).done = rest at hp
      cases hp with
      | received hop hpushed htaken =>
          have hnot : ∀ fd text more, cqe.sqe.op ≠ .send fd text more := by
            rintro fd text more heq
            simp [heq, Op.isRecv] at hop
          cases coResumeValue_recv (hphase.of_recv hmem hop).2.1 hr with
          | stopped _ _ => cases hreset
          | silent _ _ => cases hreset
          | served _ _ _ => cases hreset
          | reset _ _ =>
              simp [Session.Whole, suspend, ServerConnection.reset, hpushed, htaken, hnot]
      | @sent _ fd text more hop hle hpushed htaken =>
          obtain ⟨-, haction, ⟨l, hcoro⟩, -⟩ := hphase.of_transfer hmem (by rw [hop]; rfl)
          have hsession : r.ctx.conn.session = (s.conns slot).session := by
            rw [coResumeValue_transfer haction hcoro hr]
            split <;> rfl
          rw [Session.Whole, hsession, hpushed, htaken, hop]
          constructor
          · rintro htake _ _ _ ⟨⟩
            have hlen := congrArg List.length htake
            rw [List.length_take] at hlen
            omega
          · intro hall
            have hlen := hall fd text more rfl
            exact List.take_of_length_le (by omega)

/-- A request that cannot be parsed, and its completed reply. -/
def replyEvents (count : Int) : List Event :=
  clientEvents 1 (ascii "x") ++
    [.handle .granted, .drained, .submit, .complete 1 count []]

/-- The state in front of the reply's completion, and the step that closes. -/
theorem exists_reply (count : Int) (hcount : count = 26 ∨ count = 10) :
    ∃ s t, Automaton.Reachable (listenLoop bareConfig) s ∧
      s.cq = [⟨⟨.send 7 (ascii response400) false, 7, false, 1⟩, count⟩] ∧
      step bareConfig s (.handle .granted) = .ok t ∧ s.isOpen 7 = true ∧ t.isOpen 7 = false ∧
      (t.conns 7).session =
        ⟨1, ascii response400, (ascii response400).take count.toNat⟩ := by
  have hrun : ((Automaton.run (listenLoop bareConfig) (replyEvents count)
      (Server.initial bareConfig)).toOption.map fun s =>
        (s.cq, s.isOpen 7, (step bareConfig s (.handle .granted)).toOption.map fun t =>
          (t.isOpen 7, (t.conns 7).session))) =
      some ([⟨⟨.send 7 (ascii response400) false, 7, false, 1⟩, count⟩], true,
        some (false, ⟨1, ascii response400, (ascii response400).take count.toNat⟩)) := by
    rcases hcount with rfl | rfl <;> decide +kernel
  obtain ⟨s, hs, hview⟩ := exists_run _ _ hrun
  simp only [Prod.mk.injEq] at hview
  obtain ⟨hcq, hopen, hnext⟩ := hview
  obtain ⟨t, ht, hview⟩ := exists_of_map_toOption hnext
  obtain ⟨hclosed, hsession⟩ := Prod.mk.inj hview
  exact ⟨s, t, Automaton.reachable_of_run rfl hs, hcq, ht, hopen, hclosed, hsession⟩

theorem listenLoop_delivers_whole :
    ∃ s t, step bareConfig s (.handle .granted) = .ok t ∧ s.isOpen 7 = true ∧
      t.isOpen 7 = false ∧ (t.conns 7).session.Whole := by
  obtain ⟨s, t, hs, hcq, ht, hopen, hclosed, -⟩ := exists_reply 26 (.inl rfl)
  refine ⟨s, t, ht, hopen, hclosed, ?_⟩
  refine (listenLoop_delivers_iff bareConfig rfl s t hs .granted _ _ hcq (by decide) ht 7 hopen
    hclosed).mpr ?_
  rintro fd text more ⟨⟩
  decide

/-- The kernel takes 10 of the reply's 26 bytes, and the handler closes. -/
theorem listenLoop_not_delivers :
    ∃ s t cqe, Automaton.Reachable (listenLoop bareConfig) s ∧ s.cq = [cqe] ∧ 0 < cqe.res ∧
      step bareConfig s (.handle .granted) = .ok t ∧ s.isOpen 7 = true ∧ t.isOpen 7 = false ∧
      ¬ (t.conns 7).session.Whole := by
  obtain ⟨s, t, hs, hcq, ht, hopen, hclosed, hsession⟩ := exists_reply 10 (.inr rfl)
  refine ⟨s, t, _, hs, hcq, by decide, ht, hopen, hclosed, ?_⟩
  rw [hsession]
  decide +kernel

end L4Server
