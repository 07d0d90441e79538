import L4Server.ListenThreads

/-!
What one statement of a thread does to the server that the threads share. What a
completion is of can be told from its slot, so that the accept is queued again
exactly when it is the accept that has completed; and no statement undoes what
the other threads rely on.
-/
namespace L4Server
open CMemory

variable {cfg : Config}

/-! One thread's statements on the shared server. -/

/-- No slot but the listening one is marked for an accept, and a prepared one has
its own descriptor. -/
structure ServerConnection.Steady (slot : Nat) (conn : ServerConnection) : Prop where
  action : conn.action ≠ .accept
  fd : conn.coro.isSome = true → conn.str.isSome = true → conn.fd = slot

/-- An entry for the listening slot is an accept; one for another slot is none,
and the slot is prepared. -/
inductive Sqe.Fits (cfg : Config) (conns : Nat → ServerConnection) (sqe : Sqe) : Prop
  | accept : sqe.op.isAccept = true → sqe.userData = cfg.listenFd → Sqe.Fits cfg conns sqe
  | other : sqe.op.isAccept = false → sqe.userData ≠ cfg.listenFd →
      (conns sqe.userData).coro.isSome = true → (conns sqe.userData).str.isSome = true →
      Sqe.Fits cfg conns sqe

/-- What a statement of any thread leaves to the others. -/
structure Follows (cfg : Config) (s t : Server) : Prop where
  isOpen : s.isOpen cfg.listenFd = true → t.isOpen cfg.listenFd = true
  listening : (s.conns cfg.listenFd).action = .accept → (t.conns cfg.listenFd).action = .accept
  steady : ∀ slot, slot ≠ cfg.listenFd → (s.conns slot).Steady slot → (t.conns slot).Steady slot
  coro : ∀ slot, slot ≠ cfg.listenFd → (s.conns slot).coro.isSome = true →
    (t.conns slot).coro.isSome = true
  str : ∀ slot, slot ≠ cfg.listenFd → (s.conns slot).str.isSome = true →
    (t.conns slot).str.isSome = true

theorem Follows.fits {s t : Server} (h : Follows cfg s t) {sqe : Sqe}
    (hfits : sqe.Fits cfg s.conns) : sqe.Fits cfg t.conns := by
  cases hfits with
  | accept hop huser => exact .accept hop huser
  | other hop huser hcoro hstr =>
      exact .other hop huser (h.coro _ huser hcoro) (h.str _ huser hstr)

theorem Follows.trans {s t u : Server} (h : Follows cfg s t) (k : Follows cfg t u) :
    Follows cfg s u where
  isOpen := k.isOpen ∘ h.isOpen
  listening := k.listening ∘ h.listening
  steady slot hne := k.steady slot hne ∘ h.steady slot hne
  coro slot hne := k.coro slot hne ∘ h.coro slot hne
  str slot hne := k.str slot hne ∘ h.str slot hne

/-- Only one slot has changed. -/
theorem Follows.of_slot {s t : Server} {slot : Nat} (hne : slot ≠ cfg.listenFd)
    (hopen : s.isOpen cfg.listenFd = true → t.isOpen cfg.listenFd = true)
    (hother : ∀ other, other ≠ slot → t.conns other = s.conns other)
    (hsteady : (s.conns slot).Steady slot → (t.conns slot).Steady slot)
    (hcoro : (s.conns slot).coro.isSome = true → (t.conns slot).coro.isSome = true)
    (hstr : (s.conns slot).str.isSome = true → (t.conns slot).str.isSome = true) :
    Follows cfg s t := by
  constructor
  · exact hopen
  · rw [hother _ (Ne.symm hne)]
    exact id
  · intro other _
    by_cases h : other = slot
    · rw [h]
      exact hsteady
    · rw [hother _ h]
      exact id
  · intro other _
    by_cases h : other = slot
    · rw [h]
      exact hcoro
    · rw [hother _ h]
      exact id
  · intro other _
    by_cases h : other = slot
    · rw [h]
      exact hstr
    · rw [hother _ h]
      exact id

theorem acceptAgain_follows {s t : Server} (h : acceptAgain cfg s = .ok t) :
    Follows cfg s t := by
  obtain ⟨hconns, haction, hopen, -⟩ := acceptAgain_eq h
  have hother (slot : Nat) (hne : slot ≠ cfg.listenFd) : t.conns slot = s.conns slot := by
    rw [hconns, Function.update_of_ne hne]
  constructor
  · rw [hopen]
    exact id
  · exact fun _ => haction
  all_goals
    intro slot hne
    rw [hother slot hne]
    exact id

/-! The kernel. -/

theorem perform_follows (s : Server) (sqe : Sqe) (res : Int) (data : List UInt8) :
    Follows cfg s (s.perform sqe res data) := by
  have hsame (slot : Nat) := perform_same (s := s) sqe res data slot
  constructor
  · intro hopen
    unfold Server.perform
    split
    · split
      · exact hopen
      · by_cases heq : cfg.listenFd = res.toNat
        · simp [Server.setOpen, heq]
        · simpa [Server.setOpen, Function.update_of_ne heq] using hopen
    · exact hopen
  · rw [(hsame _).action]
    exact id
  · intro slot _ hsteady
    refine ⟨by rw [(hsame slot).action]; exact hsteady.action, ?_⟩
    rw [(hsame slot).coro, (hsame slot).str, (hsame slot).fd]
    exact hsteady.fd
  · intro slot _
    rw [(hsame slot).coro]
    exact id
  · intro slot _
    rw [(hsame slot).str]
    exact id

/-- An accept returns a descriptor that is not open. -/
theorem Op.allows_accept {op : Op} {isOpen : Nat → Bool} {res : Int} {data : List UInt8} {fd : Nat}
    (h : op.allows isOpen res data = true) (hop : op.isAccept = true) (hres : 0 ≤ res)
    (hopen : isOpen fd = true) : res.toNat ≠ fd := by
  rintro rfl
  cases op with
  | accept => simp [Op.allows, hopen, Int.not_lt.mpr hres] at h
  | _ => cases hop

/-! Handling a completion. -/

/-- What a handled completion leaves: the accept is queued again if it was its. -/
structure Turned (cfg : Config) (s : Server) (cqe : Cqe) (t : Server) : Prop where
  follows : Follows cfg s t
  inflight : t.inflight = s.inflight
  cq : t.cq = s.cq
  pushed : ∃ pushed, t.sq = s.sq ++ pushed ∧ (∀ sqe ∈ pushed, sqe.Fits cfg t.conns) ∧
    (pushed.filter fun sqe => sqe.op.isAccept).length = if cqe.sqe.op.isAccept then 1 else 0

/-- A transfer is no accept. -/
theorem Op.isAccept_of_transfer {op : Op} (h : op.isTransfer = true) : op.isAccept = false := by
  cases op with
  | send | splice => rfl
  | accept | recv => cases h

theorem resumed_turned {s : Server} {cqe : Cqe} {out : Outcomes} {t : Server}
    (hne : cqe.sqe.userData ≠ cfg.listenFd) (hop : cqe.sqe.op.isAccept = false)
    (hcoro : (s.conns cqe.sqe.userData).coro.isSome = true)
    (hstr : (s.conns cqe.sqe.userData).str.isSome = true)
    (hsteady : (s.conns cqe.sqe.userData).Steady cqe.sqe.userData)
    (h : handleCqe cfg out s cqe = .ok t) : Turned cfg s cqe t := by
  rw [handleCqe_resume hsteady.action] at h
  obtain ⟨r, hr, ht⟩ := bind_eq_ok.mp h
  cases ht
  have hslot := coResumeValue_resumed hr
  obtain ⟨pushed, hsq, hpushed⟩ := hslot.pushed
  have hfd : r.ctx.conn.fd = cqe.sqe.userData := hslot.fd.trans (hsteady.fd hcoro hstr)
  have hself : (s.resumed cqe.sqe.userData s.cq r).conns cqe.sqe.userData = r.ctx.conn :=
    Function.update_self _ _ _
  have hfollows : Follows cfg s (s.resumed cqe.sqe.userData s.cq r) := by
    refine .of_slot hne (fun hopen => ?_) (fun other hother => ?_) (fun _ => ?_) (fun _ => ?_)
      fun _ => ?_
    · rw [(Server.resumed_other hfd (Ne.symm hne)).2, hopen]
    · exact (Server.resumed_other hfd hother).1
    · rw [hself]
      exact ⟨hslot.action hsteady.action, fun _ _ => hfd⟩
    · rw [hself]
      exact hslot.coro
    · rw [hself]
      exact hslot.str hstr
  have htransfer (sqe : Sqe) (hmem : sqe ∈ pushed) : sqe.op.isAccept = false :=
    Op.isAccept_of_transfer (hpushed sqe hmem).1
  refine ⟨hfollows, rfl, rfl, pushed, hsq, fun sqe hmem => ?_, ?_⟩
  · have huser : sqe.userData = cqe.sqe.userData := (hpushed sqe hmem).2
    refine .other (htransfer sqe hmem) (by rwa [huser]) ?_ ?_
    · rw [huser]
      exact hfollows.coro _ hne hcoro
    · rw [huser]
      exact hfollows.str _ hne hstr
  · rw [hop, List.filter_eq_nil_iff.mpr fun sqe hmem => by simp [htransfer sqe hmem]]
    rfl

/-- A connection that is prepared, or not. -/
structure Prepared (fd : Nat) (conn conn' : ServerConnection) : Prop where
  steady : conn.Steady fd → conn'.Steady fd
  coro : conn.coro.isSome = true → conn'.coro.isSome = true
  str : conn.str.isSome = true → conn'.str.isSome = true

theorem prepareConnection_prepared {out : Outcomes} {fd : Nat} {conn conn' : ServerConnection}
    {ready : Bool} (h : prepareConnection out fd conn = (ready, conn')) :
    Prepared fd conn conn' ∧ (ready = true → conn'.coro.isSome = true) := by
  unfold prepareConnection at h
  split at h
  · simp only at h
    split at h
    · next hstr =>
      cases h
      have hnone : conn.str = none := by
        cases hc : conn.str with
        | none => rfl
        | some str => simp [hc] at hstr
      exact ⟨⟨fun hs => ⟨hs.action, by simp [hnone]⟩, fun _ => rfl, id⟩, nofun⟩
    · cases h
      exact ⟨⟨fun _ => ⟨by simp, fun _ _ => rfl⟩, fun _ => rfl, fun _ => rfl⟩, fun _ => rfl⟩
  · cases h
    exact ⟨⟨id, id, id⟩, nofun⟩

theorem Entry.prepared_of {fd : Nat} {conn conn' : ServerConnection} (h : Entry fd conn conn') :
    Prepared fd conn conn' ∧ conn'.coro.isSome = true := by
  have henter : Prepared fd conn conn.enter := ⟨fun hs => ⟨hs.action, hs.fd⟩, id, id⟩
  cases h with
  | reused hsome => exact ⟨henter, hsome⟩
  | prepared _ hprep =>
      obtain ⟨hp, hsome⟩ := prepareConnection_prepared hprep
      exact ⟨⟨hp.steady ∘ henter.steady, hp.coro, hp.str⟩, hsome rfl⟩

/-- The accept is queued again behind what else has been queued. -/
theorem acceptAgain_turned {s u t : Server} {cqe : Cqe} (h : acceptAgain cfg u = .ok t)
    (hop : cqe.sqe.op.isAccept = true) (hfollows : Follows cfg s u) (hinflight : u.inflight = s.inflight) (hcq : u.cq = s.cq)
    {pushed : List Sqe} (hsq : u.sq = s.sq ++ pushed)
    (hpushed : ∀ sqe ∈ pushed, sqe.op.isAccept = false ∧ sqe.Fits cfg u.conns) :
    Turned cfg s cqe t := by
  have hagain := acceptAgain_follows h
  obtain ⟨-, -, -, hinflight', hcq', number, hsq'⟩ := acceptAgain_eq h
  refine ⟨hfollows.trans hagain, hinflight'.trans hinflight, hcq'.trans hcq,
    pushed ++ [⟨.accept cfg.listenFd, cfg.listenFd, false, number⟩],
    by rw [hsq', hsq, List.append_assoc], fun sqe hmem => ?_, ?_⟩
  · rcases List.mem_append.mp hmem with hmem | hmem
    · exact hagain.fits (hpushed sqe hmem).2
    · obtain rfl := List.mem_singleton.mp hmem
      exact .accept rfl rfl
  · rw [List.filter_append,
      List.filter_eq_nil_iff.mpr fun sqe hmem => by simp [(hpushed sqe hmem).1], hop]
    rfl

theorem accept_turned {s t : Server} {cqe : Cqe} {out : Outcomes}
    (huser : cqe.sqe.userData = cfg.listenFd) (hop : cqe.sqe.op.isAccept = true)
    (hlisten : (s.conns cfg.listenFd).action = .accept)
    (harrival : 0 ≤ cqe.res → cqe.res.toNat ≠ cfg.listenFd)
    (h : handleCqe cfg out s cqe = .ok t) : Turned cfg s cqe t := by
  have haccept : handleAccept cfg out s cqe.res = .ok t := by
    rw [← h, handleCqe, huser, if_pos hlisten]
  cases handleAccept_turn haccept with
  | again _ hagain =>
      exact acceptAgain_turned hagain hop
        ⟨id, id, fun _ _ => id, fun _ _ => id, fun _ _ => id⟩ rfl rfl (List.append_nil _).symm nofun
  | @entered conn str c hres hentry hstr hpush hagain =>
      obtain ⟨hprepared, hcoro⟩ := hentry.prepared_of
      obtain rfl := Ctx.push_eq_ok hpush
      have hne := harrival hres
      refine acceptAgain_turned hagain hop (.of_slot hne id (fun other hother => ?_) ?_ ?_ ?_)
        rfl rfl rfl ?_
      · exact Function.update_of_ne hother _ _
      · intro hsteady
        simp only [Server.setConn, Function.update_self]
        exact ⟨by simp, (hprepared.steady hsteady).fd⟩
      · intro _
        simpa only [Server.setConn, Function.update_self] using hcoro
      · intro _
        simp only [Server.setConn, Function.update_self, hstr, Option.isSome_some]
      · intro sqe hmem
        obtain rfl := List.mem_singleton.mp hmem
        refine ⟨rfl, .other rfl hne ?_ ?_⟩
        · simpa only [Server.setConn, Function.update_self] using hcoro
        · simp only [Server.setConn, Function.update_self, hstr, Option.isSome_some]
  | @refused conn hres _ hprep hagain =>
      obtain ⟨hprepared, -⟩ := prepareConnection_prepared hprep
      have hne := harrival hres
      refine acceptAgain_turned hagain hop (.of_slot hne (fun hopen => ?_)
        (fun other hother => ?_) ?_ ?_ ?_) rfl rfl (List.append_nil _).symm nofun
      · simpa only [Server.setConn, Server.setOpen, Function.update_of_ne (Ne.symm hne)] using hopen
      · exact Function.update_of_ne hother _ _
      · intro hsteady
        simp only [Server.setConn, Server.setOpen, Function.update_self]
        exact hprepared.steady ⟨hsteady.action, hsteady.fd⟩
      · intro hcoro
        simp only [Server.setConn, Server.setOpen, Function.update_self]
        exact hprepared.coro hcoro
      · intro hstr
        simp only [Server.setConn, Server.setOpen, Function.update_self]
        exact hprepared.str hstr

/-- A completion that fits is handled as what it is. -/
theorem handleCqe_turned {s t : Server} {cqe : Cqe} {out : Outcomes}
    (hfits : cqe.sqe.Fits cfg s.conns)
    (hlisten : (s.conns cfg.listenFd).action = .accept)
    (hslots : ∀ slot, slot ≠ cfg.listenFd → (s.conns slot).Steady slot)
    (harrival : cqe.sqe.op.isAccept = true → 0 ≤ cqe.res → cqe.res.toNat ≠ cfg.listenFd)
    (h : handleCqe cfg out s cqe = .ok t) : Turned cfg s cqe t := by
  cases hfits with
  | accept hop huser => exact accept_turned huser hop hlisten (harrival hop) h
  | other hop huser hcoro hstr =>
      exact resumed_turned huser hop hcoro hstr (hslots _ huser) h

end L4Server
