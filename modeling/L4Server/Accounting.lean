import L4Server.Books

/-!
The books over a run of the loop, and what follows from them: one accept is
always outstanding, the counters tell how much of a reply is, and no completion
reaches another session than its own. A connection can be left open with
nothing outstanding only by a failed `recv` or a failed allocation.
-/
namespace L4Server
open CMemory

variable {allow : Prop} {cfg : Config} {s t : Server}

/-! The loop's steps on a completed accept. -/

/-- The books while no accept is outstanding. -/
structure Unlisted (allow : Prop) (cfg : Config) (s : Server) : Prop where
  nil : s.ops cfg.listenFd = []
  isOpen : s.isOpen cfg.listenFd = true
  slots : ∀ slot, slot ≠ cfg.listenFd →
    Phase allow False slot (s.conns slot) (s.isOpen slot) (s.ops slot)

theorem acceptAgain_eq (h : acceptAgain cfg s = .ok t) :
    t.conns = Function.update s.conns cfg.listenFd (t.conns cfg.listenFd) ∧
      (t.conns cfg.listenFd).action = .accept ∧ t.isOpen = s.isOpen ∧ t.inflight = s.inflight ∧
      t.cq = s.cq ∧ ∃ number, t.sq = s.sq ++
        [⟨.accept cfg.listenFd, cfg.listenFd, false, number⟩] := by
  obtain ⟨c, hc, ht⟩ := bind_eq_ok.mp h
  cases ht
  obtain rfl := Ctx.push_eq_ok hc
  simp [Server.setConn]

theorem Unlisted.acceptAgain (hs : Unlisted allow cfg s) (h : acceptAgain cfg s = .ok t) :
    Books allow cfg t := by
  obtain ⟨hconns, haction, hopen, hinflight, hcq, number, hsq⟩ := acceptAgain_eq h
  have hops (slot : Nat) := Server.ops_push hsq hinflight hcq slot
  have hlisten := hops cfg.listenFd
  rw [hs.nil] at hlisten
  simp only [beq_self_eq_true, List.filter_cons_of_pos, List.filter_nil, List.nil_append] at hlisten
  have hnone : ∀ cqe ∈ t.cq, cqe.sqe.userData ≠ cfg.listenFd := by
    intro cqe hmem heq
    have hmem' := Server.mem_ops_of_cq (hcq ▸ hmem)
    rw [heq, hs.nil] at hmem'
    simp at hmem'
  refine ⟨⟨_, hlisten.eq_singleton, rfl⟩, haction, hopen ▸ hs.isOpen, ?_, ?_⟩
  · intro cqe hmem huser
    exact absurd huser (hnone cqe hmem)
  · intro slot hne
    have hslot := hops slot
    rw [List.filter_cons_of_neg (by simpa using Ne.symm hne), List.filter_nil,
      List.append_nil] at hslot
    rw [hconns, Function.update_of_ne hne, hopen]
    exact (hs.slots slot hne).perm hslot False.elim

/-- What is left of the books when the completed accept is taken off the queue. -/
theorem Books.popAccept (hs : Books allow cfg s) {cqe : Cqe} {cq : List Cqe}
    (hcq : s.cq = cqe :: cq) (huser : cqe.sqe.userData = cfg.listenFd) :
    ({ s with cq := cq } : Server).ops cfg.listenFd = [] ∧
      ∀ slot, slot ≠ cfg.listenFd →
        Phase allow (0 ≤ cqe.res ∧ cqe.res.toNat = slot) slot (s.conns slot) (s.isOpen slot)
          (({ s with cq := cq } : Server).ops slot) := by
  have hnil : ({ s with cq := cq } : Server).ops cfg.listenFd = [] := by
    obtain ⟨sqe, hops, -⟩ := hs.accept
    have hlen := (Server.ops_pop hcq cfg.listenFd).length_eq
    rw [hops] at hlen
    simpa [huser] using hlen
  refine ⟨hnil, fun slot hne => ?_⟩
  have hpop := Server.ops_pop hcq slot
  rw [List.filter_cons_of_neg (by simpa [huser] using Ne.symm hne), List.filter_nil,
    List.nil_append] at hpop
  refine (hs.slots slot hne).perm hpop.symm ?_
  rintro ⟨cqe', hmem, huser', hres, hslot⟩
  rw [hcq] at hmem
  rcases List.mem_cons.mp hmem with rfl | htail
  · exact ⟨hres, hslot⟩
  · have hmem' := Server.mem_ops_of_cq (s := { s with cq := cq }) htail
    rw [huser', hnil] at hmem'
    simp at hmem'

theorem prepareConnection_cases {out : Outcomes} {fd : Nat} {conn conn' : ServerConnection}
    {ready : Bool} (hidle : conn.Idle fd) (h : prepareConnection out fd conn = (ready, conn')) :
    conn'.Idle fd ∧ (ready = true → conn'.coro.isSome = true) := by
  unfold prepareConnection at h
  split at h
  · simp only at h
    split at h
    · next hstr =>
      cases h
      have hnone : conn.str = none := by
        cases hc : conn.str with
        | none => rfl
        | some str => simp [hc] at hstr
      exact ⟨⟨hidle.curSteps, hidle.totalSteps, by simp, by simp [hnone], hidle.action⟩, nofun⟩
    · cases h
      exact ⟨⟨hidle.curSteps, hidle.totalSteps, by simp, fun _ _ => rfl, by simp⟩, fun _ => rfl⟩
  · cases h
    exact ⟨hidle, nofun⟩

/-- A slot in a new phase, with the entries queued for it. -/
theorem Unlisted.replace (pushed : List Sqe) (hnil : s.ops cfg.listenFd = [])
    (hlisten : s.isOpen cfg.listenFd = true)
    {fd : Nat} (hne : fd ≠ cfg.listenFd)
    (hs : ∀ slot, slot ≠ cfg.listenFd → slot ≠ fd →
      Phase allow False slot (s.conns slot) (s.isOpen slot) (s.ops slot))
    (hpushed : ∀ sqe ∈ pushed, sqe.userData = fd)
    (hconns : ∀ slot, slot ≠ fd → t.conns slot = s.conns slot)
    (hopen : ∀ slot, slot ≠ fd → t.isOpen slot = s.isOpen slot)
    (hsq : t.sq = s.sq ++ pushed) (hinflight : t.inflight = s.inflight) (hcq : t.cq = s.cq)
    (hphase : Phase allow False fd (t.conns fd) (t.isOpen fd) (t.ops fd)) :
    Unlisted allow cfg t := by
  have hother (slot : Nat) (h : slot ≠ fd) : (t.ops slot).Perm (s.ops slot) := by
    have hslot := Server.ops_push hsq hinflight hcq slot
    rw [List.filter_eq_nil_iff.mpr, List.append_nil] at hslot
    · exact hslot
    · intro sqe hmem
      simpa [hpushed sqe hmem] using Ne.symm h
  refine ⟨?_, ?_, fun slot hslot => ?_⟩
  · have h := hother _ (Ne.symm hne)
    rw [hnil] at h
    exact h.eq_nil
  · rw [hopen _ (Ne.symm hne), hlisten]
  · by_cases h : slot = fd
    · subst h
      exact hphase
    · rw [hconns _ h, hopen _ h]
      exact (hs slot hslot h).perm (hother slot h) id

theorem ServerConnection.Idle.enter {slot : Nat} {conn : ServerConnection}
    (h : conn.Idle slot) : conn.enter.Idle slot :=
  ⟨h.curSteps, h.totalSteps, h.alive, h.fd, h.action⟩

theorem Entry.idle {fd : Nat} {conn conn' : ServerConnection} (h : Entry fd conn conn')
    (hidle : conn.Idle fd) : conn'.Idle fd ∧ conn'.coro.isSome = true := by
  cases h with
  | reused hsome => exact ⟨hidle.enter, hsome⟩
  | prepared _ hprep =>
      obtain ⟨hidle', hsome⟩ := prepareConnection_cases hidle.enter hprep
      exact ⟨hidle', hsome rfl⟩

/-- The push of a `recv` for an entered connection. -/
theorem pushRecv_phase (allow : Prop) {fd len : Nat} {conn : ServerConnection} {sq : List Sqe}
    {c : Ctx} (hidle : conn.Idle fd) (hcoro : conn.coro.isSome = true)
    (hstr : conn.str.isSome = true) (h : ioUringPushRecv ⟨conn, fd, sq⟩ fd len false = .ok c) :
    ∃ sqe, sqe.userData = fd ∧ c.sq = sq ++ [sqe] ∧ Phase allow False fd c.conn true [sqe] := by
  obtain rfl := Ctx.push_eq_ok h
  refine ⟨_, rfl, rfl, .receiving _ rfl rfl rfl rfl ?_ rfl hcoro hstr⟩
  exact ⟨hidle.curSteps, hidle.totalSteps, hidle.alive, hidle.fd, by simp⟩

theorem books_handleAccept (hs : Books allow cfg s) {cqe : Cqe} {cq : List Cqe}
    (hcq : s.cq = cqe :: cq) (huser : cqe.sqe.userData = cfg.listenFd) {out : Outcomes}
    (h : handleAccept cfg out { s with cq := cq } cqe.res = .ok t) : Books allow cfg t := by
  obtain ⟨hnil, hslots⟩ := hs.popAccept hcq huser
  have harrival (hres : 0 ≤ cqe.res) := hs.arrival cqe (by simp [hcq]) huser hres
  have hothers : ∀ slot, slot ≠ cfg.listenFd → slot ≠ cqe.res.toNat →
      Phase allow False slot (s.conns slot) (s.isOpen slot)
        (({ s with cq := cq } : Server).ops slot) := fun slot h₁ h₂ =>
    (hslots slot h₁).perm (List.Perm.refl _) fun ⟨_, h⟩ => h₂ h.symm
  have hnone (hres : 0 ≤ cqe.res) : ({ s with cq := cq } : Server).ops cqe.res.toNat = [] := by
    have h := Server.ops_pop hcq cqe.res.toNat
    rw [(harrival hres).2.2.1] at h
    exact (List.append_eq_nil_iff.mp h.symm.eq_nil).2
  cases handleAccept_turn h with
  | again hneg h =>
      refine Unlisted.acceptAgain ⟨hnil, hs.isOpen, fun slot hne => ?_⟩ h
      exact (hslots slot hne).perm (List.Perm.refl _) fun ⟨hres, _⟩ => absurd hneg (by omega)
  | @entered conn str c hres hentry hstr hc h =>
      obtain ⟨hne, hopen, -, hidle⟩ := harrival hres
      obtain ⟨hidle', hcoro⟩ := hentry.idle hidle
      obtain ⟨sqe, huser', hsq, hphase⟩ := pushRecv_phase allow hidle' hcoro (by simp [hstr]) hc
      refine Unlisted.acceptAgain ?_ h
      refine Unlisted.replace (s := { s with cq := cq }) [sqe] hnil hs.isOpen hne hothers
        (by simp [huser']) ?_ (fun _ _ => rfl) hsq rfl rfl ?_
      · intro slot hslot
        simp [Server.setConn, Function.update_of_ne hslot]
      · have hpush := Server.ops_push (s := { s with cq := cq })
          (t := { ({ s with cq := cq } : Server).setConn cqe.res.toNat c.conn with sq := c.sq })
          hsq rfl rfl cqe.res.toNat
        rw [hnone hres, List.filter_cons_of_pos (by simpa using huser'), List.filter_nil,
          List.nil_append] at hpush
        simp only [Server.setConn, Function.update_self, hopen]
        exact hphase.perm hpush id
  | @refused conn hres hcoro hprep h =>
      obtain ⟨hne, -, -, hidle⟩ := harrival hres
      have hidle' := prepareConnection_cases hidle.enter hprep
      refine Unlisted.acceptAgain ?_ h
      refine Unlisted.replace (s := { s with cq := cq }) [] hnil hs.isOpen hne hothers
        (by simp) ?_ ?_ (List.append_nil _).symm rfl rfl ?_
      · intro slot hslot
        simp [Server.setConn, Server.setOpen, Function.update_of_ne hslot]
      · intro slot hslot
        simp [Server.setConn, Server.setOpen, Function.update_of_ne hslot]
      · refine .closed (by simp [Server.setOpen]) (hnone hres) ?_
        simpa [Server.setConn, Server.setOpen] using hidle'.1

/-! The loop's steps on a completion of a connection. -/

/-- A slot that handles one of its completions; the others keep theirs. -/
theorem Books.resume (hs : Books allow cfg s) {cqe : Cqe} {cq : List Cqe}
    (hcq : s.cq = cqe :: cq) {slot : Nat} (hslot : cqe.sqe.userData = slot)
    (hne : slot ≠ cfg.listenFd) (pushed : List Sqe)
    (hpushed : ∀ sqe ∈ pushed, sqe.userData = slot)
    (hconns : ∀ other, other ≠ slot → t.conns other = s.conns other)
    (hopen : ∀ other, other ≠ slot → t.isOpen other = s.isOpen other)
    (hsq : t.sq = s.sq ++ pushed) (hinflight : t.inflight = s.inflight) (htcq : t.cq = cq)
    (hphase : ∀ ops', (s.ops slot).Perm (cqe.sqe :: ops') →
      (t.ops slot).Perm (ops' ++ pushed) →
      Phase allow False slot (t.conns slot) (t.isOpen slot) (t.ops slot)) :
    Books allow cfg t := by
  have hpush := Server.ops_push (s := { s with cq := cq }) hsq hinflight htcq
  have hother (other : Nat) (h : other ≠ slot) : (t.ops other).Perm (s.ops other) := by
    have hpop := Server.ops_pop hcq other
    rw [List.filter_cons_of_neg (by simpa [hslot] using Ne.symm h), List.filter_nil,
      List.nil_append] at hpop
    refine List.Perm.trans ?_ hpop.symm
    have hnone : pushed.filter (fun sqe => sqe.userData == other) = [] := by
      refine List.filter_eq_nil_iff.mpr fun sqe hmem => ?_
      simpa [hpushed sqe hmem] using Ne.symm h
    simpa [hnone] using hpush other
  refine ⟨?_, ?_, ?_, ?_, fun other hlisten => ?_⟩
  · obtain ⟨sqe, hops, hop⟩ := hs.accept
    have h := hother _ (Ne.symm hne)
    rw [hops] at h
    exact ⟨sqe, h.eq_singleton, hop⟩
  · rw [hconns _ (Ne.symm hne), hs.listening]
  · rw [hopen _ (Ne.symm hne), hs.isOpen]
  · intro cqe' hmem huser hres
    have hmem' : cqe' ∈ s.cq := by
      rw [hcq]
      exact List.mem_cons_of_mem _ (htcq ▸ hmem)
    obtain ⟨hne', ho, hops, hidle⟩ := hs.arrival cqe' hmem' huser hres
    have hdiff : cqe'.res.toNat ≠ slot := by
      rintro rfl
      have := Server.mem_ops_of_cq (s := s) (show cqe ∈ s.cq by simp [hcq])
      rw [hslot, hops] at this
      simp at this
    have h := hother _ hdiff
    rw [hops] at h
    exact ⟨hne', hopen _ hdiff ▸ ho, h.eq_nil, hconns _ hdiff ▸ hidle⟩
  · by_cases h : other = slot
    · subst h
      have hpop := Server.ops_pop hcq other
      have hall : pushed.filter (fun sqe => sqe.userData == other) = pushed :=
        List.filter_eq_self.mpr fun sqe hmem => by simpa using hpushed sqe hmem
      have hpush' := hpush other
      rw [hall] at hpush'
      rw [List.filter_cons_of_pos (by simpa using hslot), List.filter_nil] at hpop
      exact (hphase _ hpop hpush').perm (List.Perm.refl _) False.elim
    · rw [hconns _ h, hopen _ h]
      refine (hs.slots other hlisten).perm (hother other h) ?_
      rintro ⟨cqe', hmem, huser, hrest⟩
      rw [hcq] at hmem
      rcases List.mem_cons.mp hmem with rfl | htail
      · exact absurd (hslot.symm.trans huser) hne
      · exact ⟨cqe', htcq ▸ htail, huser, hrest⟩

/-- The step answers what it is given: the completion of a `recv` is no error,
and a coroutine that begins gets its two strings. -/
def Answers (s : Server) : Event → Prop
  | .handle out => ∀ cqe cq, s.cq = cqe :: cq → cqe.sqe.op.isRecv = true → 0 ≤ cqe.res ∧
      ((s.conns cqe.sqe.userData).coro = some .created →
        out.resStr = (true, true) ∧ out.fresStr = (true, true))
  | _ => True

theorem httpHandlerInit_isSome {out : Outcomes} (hres : out.resStr = (true, true))
    (hfres : out.fresStr = (true, true)) : httpHandlerInit out ≠ none := by
  simp [httpHandlerInit, hres, hfres, stringInit]

theorem Enters.isSome {out : Outcomes} {coro : Option Coroutine} {l : Locals}
    (h : Enters out coro l) : coro.isSome = true := by
  cases h <;> rfl

/-- Where a turn on a received completion leaves the slot. -/
theorem RecvTurn.phase (allow : Prop) {c : Ctx} {out : Outcomes} {value : Int} {r : Resumed}
    (hidle : c.conn.Idle c.slot) (hstr : c.conn.str.isSome = true)
    (hg : allow ∨ 0 ≤ value ∧ (c.conn.coro = some .created → httpHandlerInit out ≠ none))
    (h : RecvTurn cfg out value c r) :
    ∃ pushed, (∀ sqe ∈ pushed, sqe.userData = c.slot) ∧ r.ctx.sq = c.sq ++ pushed ∧
      r.ctx.conn.fd = c.slot ∧
      Phase allow False c.slot r.ctx.conn (!r.closed) pushed := by
  have hfd (hcoro : c.conn.coro.isSome = true) : c.conn.fd = c.slot := hidle.fd hcoro hstr
  cases h with
  | stopped hcoro hinit =>
      have hallow : allow := hg.resolve_right fun h => h.2 hcoro hinit
      exact ⟨[], by simp, by simp, hfd (by simp [hcoro]),
        .stranded hallow rfl rfl hidle.curSteps hidle.totalSteps⟩
  | silent hneg henters =>
      have hallow : allow := hg.resolve_right fun h => absurd h.1 (by omega)
      exact ⟨[], by simp, by simp [suspend], hfd henters.isSome,
        .stranded hallow rfl rfl hidle.curSteps hidle.totalSteps⟩
  | reset _ henters =>
      refine ⟨[], by simp, by simp [suspend], hfd henters.isSome, .closed rfl rfl ?_⟩
      exact ⟨rfl, rfl, by simp [suspend], fun _ _ => hfd henters.isSome, hidle.action⟩
  | @served l l' d _ henters hserved =>
      obtain ⟨str, str', reply, -, -, hq⟩ := hserved.queued
      refine ⟨_, fun sqe hmem => (hq.transfers sqe hmem).2.1, hq.sq,
        hq.fd.trans (hfd henters.isSome), .sending l' rfl (replySqes_ne_nil _ _ _ _ _) ?_ ?_
        hq.action rfl (hq.fd.trans (hfd henters.isSome))⟩
      · intro sqe hmem
        obtain ⟨htransfer, -, hsession⟩ := hq.transfers sqe hmem
        exact ⟨htransfer, hsession.trans hq.number.symm⟩
      · have hcur : d.conn.curSteps = 0 := hq.curSteps.trans hidle.curSteps
        have htotal : c.conn.totalSteps = 0 := hidle.totalSteps
        have hall := hq.totalSteps
        simp only [suspend] at *
        omega

/-- A resumed coroutine keeps its slot's descriptor. -/
theorem Books.resumed_fd (hs : Books allow cfg s) {slot : Nat} (hne : slot ≠ cfg.listenFd)
    {sqe : Sqe} (hmem : sqe ∈ s.ops slot) {out : Outcomes} {value : Int} {sq : List Sqe}
    {r : Resumed} (hr : coResumeValue cfg out value ⟨s.conns slot, slot, sq⟩ = .ok r) :
    r.ctx.conn.fd = slot :=
  (coResumeValue_resumed hr).fd.trans (Phase.of_mem (hs.slots _ hne) hmem).2.2.2.2.2

theorem Server.resumed_other {slot other : Nat} {cq : List Cqe} {r : Resumed}
    (hfd : r.ctx.conn.fd = slot) (h : other ≠ slot) :
    (s.resumed slot cq r).conns other = s.conns other ∧
      (s.resumed slot cq r).isOpen other = s.isOpen other := by
  refine ⟨Function.update_of_ne h _ _, ?_⟩
  unfold Server.resumed
  simp only
  split
  · exact Function.update_of_ne (hfd ▸ h) _ _
  · rfl

theorem Server.resumed_isOpen {slot : Nat} {cq : List Cqe} {r : Resumed}
    (hfd : r.ctx.conn.fd = slot) :
    (s.resumed slot cq r).isOpen slot = if r.closed then false else s.isOpen slot := by
  unfold Server.resumed
  simp only
  split
  · rw [hfd, Function.update_self]
  · rfl

theorem Server.resumed_isOpen_of_open {slot : Nat} {cq : List Cqe} {r : Resumed}
    (hfd : r.ctx.conn.fd = slot) (hopen : s.isOpen slot = true) :
    (s.resumed slot cq r).isOpen slot = !r.closed := by
  rw [Server.resumed_isOpen hfd, hopen]
  cases r.closed <;> rfl

/-- Where a turn on a completed transfer leaves the slot. -/
theorem transfer_phase (allow : Prop) {c : Ctx} {l : Locals} {ops : List Sqe}
    (hcount : c.conn.curSteps + (ops.length + 1) = c.conn.totalSteps)
    (hall : ∀ sqe ∈ ops, sqe.op.isTransfer = true ∧ sqe.session = c.conn.session.number)
    (haction : c.conn.action = .send ∨ c.conn.action = .splice) (hfd : c.conn.fd = c.slot)
    {r : Resumed}
    (hr : r = suspend (if c.conn.curSteps + 1 = c.conn.totalSteps then .reset else .yield) l
      { c with conn := { c.conn with curSteps := c.conn.curSteps + 1 } }) :
    Phase allow False c.slot r.ctx.conn (!r.closed) ops := by
  subst hr
  split
  · next hlast =>
    refine .closed rfl (List.length_eq_zero_iff.mp (by omega))
      ⟨rfl, rfl, by simp [suspend], fun _ _ => hfd, ?_⟩
    rcases haction with h | h <;> simp [suspend, ServerConnection.reset, h]
  · next hlast =>
    refine .sending l rfl (fun hnil => hlast ?_) hall ?_ haction rfl hfd
    · rw [hnil, List.length_nil] at hcount
      omega
    · simp only [suspend]
      omega

/-- Handling a completion of a connection. -/
theorem books_resume (hs : Books allow cfg s) {cqe : Cqe} {cq : List Cqe}
    (hcq : s.cq = cqe :: cq) {slot : Nat} (hslot : cqe.sqe.userData = slot)
    (hne : slot ≠ cfg.listenFd) {out : Outcomes} (hg : allow ∨ Answers s (.handle out))
    {r : Resumed} (hr : coResumeValue cfg out cqe.res ⟨s.conns slot, slot, s.sq⟩ = .ok r) :
    Books allow cfg (s.resumed slot cq r) := by
  have hmem : cqe.sqe ∈ s.ops slot := hslot ▸ Server.mem_ops_of_cq (by simp [hcq])
  have hconn : (s.resumed slot cq r).conns slot = r.ctx.conn := Function.update_self _ _ _
  cases hs.slots slot hne with
  | closed _ hops _ => simp [hops] at hmem
  | arriving _ _ hops _ => simp [hops] at hmem
  | stranded _ _ hops _ _ => simp [hops] at hmem
  | receiving sqe hopen hops hrecv _ hidle haction hcoro hstr =>
      obtain rfl : cqe.sqe = sqe := by simpa [hops] using hmem
      have hturn := coResumeValue_recv haction hr
      obtain ⟨pushed, hpushed, hsq, hfd, hphase⟩ := hturn.phase allow hidle hstr (by
        refine hg.imp_right fun h => ?_
        obtain ⟨hres, halloc⟩ := h cqe cq hcq hrecv
        refine ⟨hres, fun hcreated => ?_⟩
        obtain ⟨h₁, h₂⟩ := halloc (by rw [hslot]; exact hcreated)
        exact httpHandlerInit_isSome h₁ h₂)
      refine hs.resume hcq hslot hne pushed hpushed
        (fun other h => (Server.resumed_other hfd h).1)
        (fun other h => (Server.resumed_other hfd h).2) hsq rfl rfl ?_
      intro ops' hbefore hafter
      rw [hops] at hbefore
      obtain rfl : ops' = [] := by
        have := hbefore.length_eq
        simpa using this
      rw [hconn, Server.resumed_isOpen_of_open hfd hopen]
      exact hphase.perm hafter id
  | sending l hopen hops hall hcount haction hcoro hfd =>
      have hturn := coResumeValue_transfer haction hcoro hr
      have hrfd : r.ctx.conn.fd = slot := by
        rw [hturn, suspend_fd]
        exact hfd
      refine hs.resume hcq hslot hne [] (by simp)
        (fun other h => (Server.resumed_other hrfd h).1)
        (fun other h => (Server.resumed_other hrfd h).2) ?_ rfl rfl ?_
      · rw [List.append_nil, Server.resumed, hturn, suspend_sq]
      · intro ops' hbefore hafter
        rw [List.append_nil] at hafter
        have hlen := hbefore.length_eq
        rw [List.length_cons] at hlen
        have hphase := transfer_phase allow (c := ⟨s.conns slot, slot, s.sq⟩)
          (hlen ▸ hcount) (fun sqe hsqe => hall sqe
            (hbefore.symm.mem_iff.mp (List.mem_cons_of_mem _ hsqe))) haction hfd hturn
        rw [hconn, Server.resumed_isOpen_of_open hrfd hopen]
        exact hphase.perm hafter id

/-- The first completion is that of the accept, or one of a connection. -/
theorem Books.handle_cases (hs : Books allow cfg s) {out : Outcomes}
    (h : step cfg s (.handle out) = .ok t) :
    ∃ cqe cq, s.cq = cqe :: cq ∧
      ((cqe.sqe.userData = cfg.listenFd ∧
          handleAccept cfg out { s with cq := cq } cqe.res = .ok t) ∨
        (cqe.sqe.userData ≠ cfg.listenFd ∧
          ∃ r, coResumeValue cfg out cqe.res
              ⟨s.conns cqe.sqe.userData, cqe.sqe.userData, s.sq⟩ = .ok r ∧
            t = s.resumed cqe.sqe.userData cq r)) := by
  obtain ⟨cqe, cq, hcq, hturn⟩ := step_handle_cases h
  have hmem := Server.mem_ops_of_cq (s := s) (show cqe ∈ s.cq by simp [hcq])
  refine ⟨cqe, cq, hcq, ?_⟩
  by_cases huser : cqe.sqe.userData = cfg.listenFd
  · refine .inl ⟨huser, ?_⟩
    rcases hturn with ⟨-, h⟩ | ⟨hnot, -⟩
    · exact h
    · rw [huser] at hnot
      exact absurd hs.listening hnot
  · refine .inr ⟨huser, ?_⟩
    rcases hturn with ⟨haction, -⟩ | ⟨-, h⟩
    · exact absurd haction (Phase.of_mem (hs.slots _ huser) hmem).2.1
    · exact h

theorem books_handle (hs : Books allow cfg s) {out : Outcomes}
    (hg : allow ∨ Answers s (.handle out)) (h : step cfg s (.handle out) = .ok t) :
    Books allow cfg t := by
  obtain ⟨cqe, cq, hcq, ⟨huser, h⟩ | ⟨huser, r, hr, rfl⟩⟩ := hs.handle_cases h
  · exact books_handleAccept hs hcq huser h
  · exact books_resume hs hcq rfl huser hg hr

theorem books_step (hs : Books allow cfg s) {e : Event} (hg : allow ∨ Answers s e)
    (h : step cfg s e = .ok t) : Books allow cfg t := by
  cases e with
  | submit => exact books_submit hs h
  | complete index res data => exact books_complete hs h
  | handle out => exact books_handle hs hg h
  | drained => exact books_drained hs h

theorem books_initial (allow : Prop) (cfg : Config) : Books allow cfg (Server.initial cfg) where
  accept := ⟨⟨.accept cfg.listenFd, cfg.listenFd, false, 0⟩,
    by simp [Server.ops, Server.outstanding, Server.initial], rfl⟩
  listening := by simp [Server.initial]
  isOpen := by simp [Server.initial]
  arrival := by simp [Server.initial]
  slots := by
    intro slot hne
    have hops : (Server.initial cfg).ops slot = [] := by
      simp [Server.ops, Server.outstanding, Server.initial, Ne.symm hne]
    refine .closed (by simpa [Server.initial] using hne) hops ?_
    simp only [Server.initial, Function.update_of_ne hne]
    exact ⟨rfl, rfl, by simp [ServerConnection.zero], by simp [ServerConnection.zero],
      by simp [ServerConnection.zero]⟩

/-- The books are in order throughout a run whose steps may leave a connection
stranded or answer. -/
theorem books_reach {guard : Server → Event → Prop}
    (hg : ∀ s e, guard s e → allow ∨ Answers s e)
    (hs : Automaton.Reach (listenLoop cfg) guard s) : Books allow cfg s := by
  refine hs.invariant (P := Books allow cfg) ?_ ?_
  · rintro s rfl
    exact books_initial allow cfg
  · intro s e t hb hguard h
    exact books_step hb (hg s e hguard) h

theorem books_reachable (hs : Automaton.Reachable (listenLoop cfg) s) : Books True cfg s :=
  books_reach (fun _ _ _ => .inl trivial) hs

/-! What the books say. -/

def Op.isAccept : Op → Bool
  | .accept _ => true
  | _ => false

/-- What a connection's counters say of its outstanding operations. -/
def Balanced (conn : ServerConnection) (ops : List Sqe) : Prop :=
  (∃ sqe, ops = [sqe] ∧ sqe.op.isRecv = true ∧ conn.curSteps = 0 ∧ conn.totalSteps = 0) ∨
    (ops ≠ [] ∧ (∀ sqe ∈ ops, sqe.op.isTransfer = true) ∧
      ops.length = conn.totalSteps - conn.curSteps) ∨
    ops = []

theorem Phase.balanced {arriving : Prop} {slot : Nat} {conn : ServerConnection} {isOpen : Bool}
    {ops : List Sqe} (h : Phase allow arriving slot conn isOpen ops) : Balanced conn ops := by
  cases h with
  | closed _ hops _ => exact .inr (.inr hops)
  | arriving _ _ hops _ => exact .inr (.inr hops)
  | receiving sqe _ hops hrecv _ hidle _ _ _ =>
      exact .inl ⟨sqe, hops, hrecv, hidle.curSteps, hidle.totalSteps⟩
  | sending _ _ hops hall hcount _ _ _ =>
      exact .inr (.inl ⟨hops, fun sqe hmem => (hall sqe hmem).1, by omega⟩)
  | stranded _ _ hops _ _ => exact .inr (.inr hops)

/-- The accepts outstanding are the operations of the listening slot. -/
theorem Books.accepts (hs : Books allow cfg s) :
    s.outstanding.filter (fun sqe => sqe.op.isAccept) = s.ops cfg.listenFd := by
  refine List.filter_congr fun sqe hmem => ?_
  have hmem' : sqe ∈ s.ops sqe.userData := Server.mem_ops.mpr ⟨hmem, rfl⟩
  by_cases huser : sqe.userData = cfg.listenFd
  · simp [hs.op_of_listening hmem' huser, Op.isAccept, huser]
  · have hkind := (Phase.of_mem (hs.slots _ huser) hmem').1
    have hfalse : sqe.op.isAccept = false := by
      cases hop : sqe.op <;> simp_all [Op.isAccept, Op.isRecv, Op.isTransfer]
    simp [hfalse, huser]

/-- A descriptor that is closed has nothing outstanding. -/
theorem Books.ops_of_closed (hs : Books allow cfg s) {fd : Nat} (h : s.isOpen fd = false) :
    s.ops fd = [] := by
  by_cases hne : fd = cfg.listenFd
  · rw [hne, hs.isOpen] at h
    cases h
  · exact ((hs.slots fd hne).of_closed h).1

/-- One accept is outstanding; the counters of each connection balance with its
operations; a descriptor is closed only with nothing outstanding for it; and a
completion in the queue belongs to the current session of its slot and to a
coroutine that has not stopped. -/
structure Accounted (cfg : Config) (s : Server) : Prop where
  accept : ∃ sqe, s.outstanding.filter (fun sqe => sqe.op.isAccept) = [sqe]
  balanced : ∀ fd, fd ≠ cfg.listenFd → Balanced (s.conns fd) (s.ops fd)
  closes : ∀ e t, step cfg s e = .ok t → ∀ fd, s.isOpen fd = true → t.isOpen fd = false →
    t.ops fd = []
  delivered : ∀ cqe ∈ s.cq, cqe.sqe.userData ≠ cfg.listenFd →
    cqe.sqe.session = (s.conns cqe.sqe.userData).session.number ∧
      (s.conns cqe.sqe.userData).coro.isSome = true ∧
      (s.conns cqe.sqe.userData).coro ≠ some .stopped

theorem listenLoop_accounts (cfg : Config) (s : Server)
    (hs : Automaton.Reachable (listenLoop cfg) s) : Accounted cfg s := by
  have hb := books_reachable hs
  constructor
  · obtain ⟨sqe, hops, -⟩ := hb.accept
    exact ⟨sqe, hb.accepts.trans hops⟩
  · intro fd hne
    exact (hb.slots fd hne).balanced
  · intro e t ht fd _ hclosed
    exact (books_step hb (.inl trivial) ht).ops_of_closed hclosed
  · intro cqe hmem hne
    obtain ⟨-, -, hsession, hsome, halive, -⟩ :=
      Phase.of_mem (hb.slots _ hne) (Server.mem_ops_of_cq hmem)
    exact ⟨hsession, hsome, halive⟩

/-- Open, accepted descriptors wait for something: an operation of theirs, or a
completion, that of their accept included. -/
def Attended (cfg : Config) (s : Server) (fd : Nat) : Prop :=
  s.ops fd ≠ [] ∨ s.Arriving cfg fd

/-- Where every step answers, no connection is left stranded. -/
theorem listenLoop_attends (cfg : Config) (s : Server)
    (hs : Automaton.Reach (listenLoop cfg) Answers s) (fd : Nat) (hne : fd ≠ cfg.listenFd)
    (hopen : s.isOpen fd = true) : Attended cfg s fd := by
  have hb : Books False cfg s := books_reach (fun _ _ h => .inr h) hs
  cases hb.slots fd hne with
  | closed hclosed _ _ =>
      rw [hclosed] at hopen
      cases hopen
  | arriving _ harr _ _ => exact .inr harr
  | receiving sqe _ hops _ _ _ _ _ _ => exact .inl (by simp [hops])
  | sending _ _ hops _ _ _ _ _ => exact .inl hops
  | stranded hfalse _ _ _ _ => exact hfalse.elim

/-! Runs. -/

/-- Everything the program asks for is granted. -/
def Outcomes.granted : Outcomes where
  coNew := true
  connStr := (true, true)
  resStr := (true, true)
  fresStr := (true, true)
  ops := []
  ret := 0
  grow := fun _ => none
  behind := []

/-- A server without routes that listens on descriptor 3. -/
def bareConfig : Config where
  watch := false
  listenFd := 3
  routers := []
  pipefds := (4, 5)

/-- A client connects as descriptor 7, and its `recv` completes with `res`. -/
def clientEvents (res : Int) (data : List UInt8) : List Event :=
  [.submit, .complete 0 7 [], .handle .granted, .drained, .submit, .complete 0 res data]

theorem exists_run (cfg : Config) (es : List Event) {β : Type} {f : Server → β} {b : β}
    (h : ((Automaton.run (listenLoop cfg) es (Server.initial cfg)).toOption.map f) = some b) :
    ∃ t, Automaton.run (listenLoop cfg) es (Server.initial cfg) = .ok t ∧ f t = b :=
  exists_of_map_toOption h

theorem listenLoop_accounts_client :
    ∃ s, s.isOpen 7 = true ∧ s.cq.map (·.res) = [1] ∧ Accounted bareConfig s := by
  obtain ⟨s, hs, hview⟩ := exists_run bareConfig (clientEvents 1 (ascii "x"))
    (f := fun s => (s.isOpen 7, s.cq.map (·.res))) (b := (true, [1])) (by decide +kernel)
  obtain ⟨hopen, hcq⟩ := Prod.mk.inj hview
  exact ⟨s, hopen, hcq, listenLoop_accounts bareConfig s (Automaton.reachable_of_run rfl hs)⟩

instance : (coro : Option Coroutine) → Decidable (coro = some .created)
  | some .created => .isTrue rfl
  | some (.started _) | some .stopped | none => .isFalse (by simp)

instance (s : Server) : (e : Event) → Decidable (Answers s e)
  | .handle out =>
      decidable_of_iff (∀ cqe ∈ s.cq.head?, cqe.sqe.op.isRecv = true → 0 ≤ cqe.res ∧
          ((s.conns cqe.sqe.userData).coro = some .created →
            out.resStr = (true, true) ∧ out.fresStr = (true, true)))
        ⟨fun h cqe cq hcq => h cqe (by rw [hcq]; rfl), fun h cqe hhead => by
          obtain ⟨cq, hcq⟩ := List.head?_eq_some_iff.mp hhead
          exact h cqe cq hcq⟩
  | .submit | .complete _ _ _ | .drained => .isTrue trivial

/-- The accept and the `recv` of a client have been handled, and its reply is queued. -/
theorem listenLoop_attends_client :
    ∃ s, s.isOpen 7 = true ∧ (s.ops 7).map (·.op) = [.send 7 (ascii response400) false] ∧
      Attended bareConfig s 7 := by
  obtain ⟨s, hs, hview⟩ := exists_run bareConfig
    (clientEvents 1 (ascii "x") ++ [.handle .granted])
    (f := fun s => (s.isOpen 7, (s.ops 7).map (·.op)))
    (b := (true, [.send 7 (ascii response400) false])) (by decide +kernel)
  obtain ⟨hopen, hops⟩ := Prod.mk.inj hview
  have hguard : Automaton.Guarded (listenLoop bareConfig) Answers
      (clientEvents 1 (ascii "x") ++ [.handle .granted]) (Server.initial bareConfig) := by
    decide +kernel
  exact ⟨s, hopen, hops, listenLoop_attends bareConfig s
    (Automaton.reach_of_run (.start rfl) hguard hs) 7 (by decide) hopen⟩

/-- The client resets the connection instead of sending a request. -/
theorem listenLoop_strands :
    ∃ s, Automaton.Reachable (listenLoop bareConfig) s ∧ s.isOpen 7 = true ∧
      ¬ Attended bareConfig s 7 := by
  obtain ⟨s, hs, hview⟩ := exists_run bareConfig (clientEvents (-104) [] ++ [.handle .granted])
    (f := fun s => (s.isOpen 7, s.ops 7, s.cq)) (b := (true, [], [])) (by decide +kernel)
  simp only [Prod.mk.injEq] at hview
  obtain ⟨hopen, hops, hcq⟩ := hview
  refine ⟨s, Automaton.reachable_of_run rfl hs, hopen, ?_⟩
  rintro (h | ⟨cqe, hmem, -⟩)
  · exact h hops
  · simp [hcq] at hmem

end L4Server
