import L4Server.Service
import L4Server.WatchedFiles

/-!
A file from end to end, in the build that watches its files. What a client has
written comes to the route of a file, and from its socket the client reads the
response with the file as the body, whatever else goes on in the loop, as long as no
file enters a pipe that still holds bytes and its own transfers are whole.
-/
namespace L4Server
open CMemory Automaton

/-! A reply on its way. -/

/-- The transfers of a slot are carried out whole. -/
def Piped.Whole (slot : Nat) (s : Piped) : Event → Prop
  | .complete index res _ => ∀ sqe ∈ s.server.inflight[index]?, sqe.op.isTransfer = true →
      sqe.userData = slot → res = sqe.op.asked
  | _ => True

instance (slot : Nat) (s : Piped) : (e : Event) → Decidable (s.Whole slot e)
  | .complete index _ _ =>
      inferInstanceAs (Decidable (∀ sqe ∈ s.server.inflight[index]?, _ → _ → _))
  | .submit | .handle _ | .drained => .isTrue trivial

/-- What the file of a slot needs to come through. -/
structure Piped.Clear (cfg : Config) (slot : Nat) (s : Piped) (e : Event) : Prop where
  fills : s.FillsEmpty cfg e
  whole : s.Whole slot e
  fit : AppendsFit s.server e

instance (cfg : Config) (slot : Nat) (s : Piped) (e : Event) : Decidable (s.Clear cfg slot e) :=
  decidable_of_iff (s.FillsEmpty cfg e ∧ s.Whole slot e ∧ AppendsFit s.server e)
    ⟨fun h => ⟨h.1, h.2.1, h.2.2⟩, fun h => ⟨h.fills, h.whole, h.fit⟩⟩

variable {cfg : Config} {files : Int → List UInt8} {s : Server} {slot : Nat} {w v : Piped}
  {p : PipeState} {out : Outcomes}

/-- A composed reply with the size of its file, with what is left of its chain. -/
structure LastReply.Told (cfg : Config) (files : Int → List UInt8) (x : LastReply)
    (chain : List Sqe) : Prop where
  cut : x.cut = false
  serving : Serving cfg files x.answer.c.conn.fd (files x.answer.l.res.fileFd) chain x.given
  written : x.written ++ unsent chain = x.answer.reply.bytes x.out x.answer.l ++ x.given

def Piped.Told (cfg : Config) (files : Int → List UInt8) (slot : Nat) (w : Piped) : Prop :=
  ∀ x, w.last slot = some x → x.answer.reply = .composed →
    x.answer.l.res.fileSz = (files x.answer.l.res.fileFd).length →
      x.Told cfg files (w.server.chain slot)

theorem Server.Replied.told (hwatch : cfg.watch = true) {t : Server} {a : Answer}
    (h : s.Replied cfg out t a) (hoff : s.OffPipe cfg) (client : Nat)
    (hcomposed : a.reply = .composed)
    (hsize : a.l.res.fileSz = (files a.l.res.fileFd).length) :
    LastReply.Told cfg files ⟨client, out, a, false, [], []⟩ (t.chain a.c.slot) := by
  obtain ⟨d, hpush, hchain⟩ := h.pushed
  have hfd := hoff _ h.ne h.isOpen
  rw [← h.fd] at hfd
  rw [hcomposed] at hpush
  rw [hchain]
  refine ⟨rfl, pushReply_serving hwatch hfd hsize hpush, ?_⟩
  rw [(pushReply_queued hpush).sq, List.drop_left, replySqes, if_pos ⟨hwatch, rfl⟩, hcomposed]
  simp [unsent]

/-- The next entry of the chain is carried out whole. -/
theorem LastReply.Told.carried {x : LastReply} {sqe : Sqe} {rest : List Sqe}
    (h : x.Told cfg files (sqe :: rest)) (hinv : PipeInv cfg files p)
    (hget : p.clients[x.client]? = some (x.asClient files (sqe :: rest)))
    {pipe bytes : List UInt8}
    (htransfer : sqe.op.transfer cfg files p.pipe sqe.op.asked = some (pipe, bytes)) :
    LastReply.Told cfg files { x with
      cut := sqe.link && sqe.op.asked != sqe.op.asked
      given := x.given ++ bytes
      written := x.written ++ sqe.op.written cfg p.pipe sqe.op.asked } rest where
  cut := by simp
  serving := by
    have hclient : (x.asClient files (sqe :: rest)).chain = sqe :: rest := by
      simp [LastReply.asClient, h.cut]
    have hserving := hinv.serving hget hclient (by rw [hclient]; exact h.serving) htransfer
    rwa [chainAfter_asked] at hserving
  written := by
    rw [List.append_assoc, h.serving.written htransfer, ← List.append_assoc, h.written,
      List.append_assoc]

theorem Piped.Told.same (h : w.Told cfg files slot) {t : Server}
    (hchain : t.chain slot = w.server.chain slot) {x : LastReply} (hlast : w.last slot = some x)
    (hcomposed : x.answer.reply = .composed)
    (hsize : x.answer.l.res.fileSz = (files x.answer.l.res.fileFd).length) :
    x.Told cfg files (t.chain slot) := by
  rw [hchain]
  exact h x hlast hcomposed hsize

theorem Piped.Told.step (h : w.Told cfg files slot) (hwatch : cfg.watch = true)
    (hmirrors : Mirrors cfg files w p) (hinv : PipeInv cfg files p) {e : Event}
    (hwhole : w.Whole slot e) (ht : pipedStep cfg files w e = .ok v) : v.Told cfg files slot := by
  obtain ⟨-, hturn⟩ := pipedStep_turn hmirrors.wired.books hmirrors.wired.aimed ht
  generalize w.pipeEvents cfg e v = as at hturn
  generalize v.server = t at hturn
  cases hturn with
  | kept hchain =>
      intro x hlast hcomposed hsize
      exact h.same (hchain slot x hlast (h x hlast hcomposed hsize).cut) hlast hcomposed hsize
  | @replied out a hanswered hreplied =>
      intro x hlast hcomposed hsize
      simp only [Piped.reply, Piped.setLast, Function.update_apply] at hlast
      split at hlast
      · next hslot =>
        cases hlast
        rw [hslot]
        exact hreplied.told hwatch hmirrors.wired.offPipe _ hcomposed hsize
      · next hslot => exact h.same (hreplied.others slot hslot) hlast hcomposed hsize
  | @failed index res data sqe y hget htransfer hneg hlast' hcut hchain hothers =>
      intro x hlast hcomposed hsize
      simp only [Piped.setLast, Function.update_apply] at hlast
      split at hlast
      · next hslot =>
        have hasked := hwhole sqe hget htransfer hslot.symm
        omega
      · next hslot => exact h.same (hothers slot hslot) hlast hcomposed hsize
  | @carried index res data sqe y pipe bytes hget htransfer hnonneg hlast' hcut hchain hothers hle
      hmoved =>
      intro x hlast hcomposed hsize
      simp only [Piped.setLast, Function.update_apply] at hlast
      split at hlast
      · next hslot =>
        cases hlast
        obtain rfl : res = sqe.op.asked := hwhole sqe hget htransfer hslot.symm
        subst hslot
        have htold := h y hlast' hcomposed hsize
        have hclient := hmirrors.client _ _ hlast'
        rw [hchain] at htold hclient
        rw [Int.toNat_natCast, ← hmirrors.pipe] at hmoved
        simp only [Int.toNat_natCast, ← hmirrors.pipe]
        exact htold.carried hinv hclient hmoved
      · next hslot => exact h.same (hothers slot hslot) hlast hcomposed hsize

theorem told_reach (hwatch : cfg.watch = true)
    (hw : Reach (pipedLoop cfg files) (Piped.Clear cfg slot) w) : w.Told cfg files slot := by
  induction hw with
  | start h0 =>
      obtain rfl : _ = Piped.initial cfg := h0
      exact fun x hlast => nomatch hlast
  | step hw hclear ht ih =>
      obtain ⟨p, hmirrors, hinv⟩ := pipedLoop_pipeInv (hw.mono fun _ _ h => h.fills)
      exact ih.step hwatch hmirrors hinv hclear.whole ht

/-! The request. -/

/-- A request is served as on a fresh connection. -/
structure Answer.Serves (cfg : Config) (out : Outcomes) (a : Answer) : Prop where
  pos : 0 < a.request.length
  le : a.request.length ≤ 2 ^ 21
  served : ∃ str, serveRequest cfg out a.request.length .fresh (received a.request) =
    .ok (a.reply, a.l, str)

theorem Server.answered_serves (hs : Reach (listenLoop cfg) AppendsFit s) {a : Answer}
    (h : s.answered cfg out = some a) : a.Serves cfg out := by
  unfold Server.answered at h
  split at h
  · cases h
  next cqe cq hcq =>
  simp only at h
  split at h
  case isFalse => cases h
  next hrecv =>
  obtain ⟨haction, hpos⟩ := hrecv
  obtain ⟨l, henters, h⟩ := Option.bind_eq_some_iff.mp h
  obtain ⟨str, hstr, h⟩ := Option.bind_eq_some_iff.mp h
  have hmem : cqe ∈ s.cq := hcq ▸ List.mem_cons_self
  have hb := books_reachable hs.reachable
  have hne : cqe.sqe.userData ≠ cfg.listenFd := by
    intro huser
    rw [huser, hb.listening] at haction
    cases haction
  have hop : cqe.sqe.op.isRecv = true := by
    have hphase := hb.slots _ hne
    refine (hphase.of_mem (Server.mem_ops_of_cq hmem)).1.resolve_right fun htransfer => ?_
    obtain ⟨-, hother, -⟩ := hphase.of_transfer (Server.mem_ops_of_cq hmem) htransfer
    rw [haction] at hother
    rcases hother with hother | hother <;> cases hother
  obtain ⟨data, coro, hlength, hle, hbegins, hconn⟩ := recv_first hs hmem hop
  have hstr' : str = received data := by
    rw [hconn] at hstr
    exact (Option.some.inj hstr).symm
  have hl : l = .fresh := by
    rw [hconn] at henters
    rcases hbegins with rfl | rfl
    · exact httpHandlerInit_eq_some henters
    · exact (Option.some.inj henters).symm
  subst hstr' hl
  split at h
  · next reply l' after hserve =>
    cases h
    have hrequest : (received data).buf.take cqe.res.toNat = data := by
      rw [← hlength]
      exact received_take hle
    rw [← hlength] at hserve
    simp only [hrequest]
    exact ⟨by simp only; omega, hle, after, hserve⟩
  · cases h

theorem pipedLoop_reach (hw : Reach (pipedLoop cfg files) (Piped.Clear cfg slot) w) :
    Reach (listenLoop cfg) AppendsFit w.server := by
  have hguard (w v : Piped) (s : Server) (e : Event)
      (hR : s = w.server ∧ Books True cfg s ∧ s.Aimed cfg)
      (hclear : w.Clear cfg slot e) (_ : pipedStep cfg files w e = .ok v) :
      Guarded (listenLoop cfg) AppendsFit [e] s := by
    obtain ⟨rfl, -⟩ := hR
    refine ⟨hclear.fit, ?_⟩
    split <;> trivial
  obtain ⟨s, hs, rfl, -⟩ := (pipedLoop_loops cfg files).reached_guarded hguard hw
  exact hs

/-- A reply of the next state is one of this state, or the answer that is pushed. -/
theorem PipedTurn.last_cases {t : Server} {e : Event} {as : List PipeEvent}
    (h : PipedTurn cfg files w t e as v) {slot : Nat} {x : LastReply}
    (hlast : v.last slot = some x) :
    (∃ y, w.last slot = some y ∧ x.answer = y.answer ∧ x.out = y.out) ∨
      e = .handle x.out ∧ w.server.answered cfg x.out = some x.answer := by
  have hset {y z : LastReply} {other : Nat}
      (hlast : Function.update w.last other (some z) slot = some x)
      (hy : w.last other = some y) (hanswer : z.answer = y.answer) (hout : z.out = y.out) :
      ∃ y, w.last slot = some y ∧ x.answer = y.answer ∧ x.out = y.out := by
    rw [Function.update_apply] at hlast
    split at hlast
    · next heq =>
      cases hlast
      exact ⟨y, heq ▸ hy, hanswer, hout⟩
    · exact ⟨x, hlast, rfl, rfl⟩
  cases h with
  | kept => exact .inl ⟨x, hlast, rfl, rfl⟩
  | failed _ _ _ hy => exact .inl (hset hlast hy rfl rfl)
  | carried _ _ _ hy => exact .inl (hset hlast hy rfl rfl)
  | replied hanswered _ =>
      simp only [Piped.reply, Piped.setLast, Function.update_apply] at hlast
      split at hlast
      · cases hlast
        exact .inr ⟨rfl, hanswered⟩
      · exact .inl ⟨x, hlast, rfl, rfl⟩

theorem answer_reach (hw : Reach (pipedLoop cfg files) (Piped.Clear cfg slot) w) {other : Nat}
    {x : LastReply} (hlast : w.last other = some x) : x.answer.Serves cfg x.out := by
  induction hw generalizing x with
  | start h0 =>
      obtain rfl : _ = Piped.initial cfg := h0
      cases hlast
  | step hw hclear ht ih =>
      have hs := pipedLoop_reach hw
      obtain ⟨-, hturn⟩ := pipedStep_turn (books_reachable hs.reachable)
        (aimed_reachable hs.reachable) ht
      rcases hturn.last_cases hlast with ⟨y, hy, hanswer, hout⟩ | ⟨-, hanswered⟩
      · rw [hanswer, hout]
        exact ih hy
      · exact Server.answered_serves hs hanswered

/-! The answer. -/

variable {π : Type} {site : StaticFiles π} {filepath : π} {l : RequestLine} {fields : List Header}
  {body : List UInt8}

/-- What the route of a file answers with: the head is composed, and the file is left
to be spliced. -/
structure StaticFiles.Answered (site : StaticFiles π) (filepath : π) (protocol : List UInt8)
    (reply : Reply) (l : Locals) : Prop where
  composed : reply = .composed
  fd : l.res.fileFd = site.fd filepath
  size : l.res.fileSz = (site.contents filepath).length
  head : ∀ out, reply.bytes out l =
    headText protocol 200 (site.headers filepath) (site.contents filepath).length

theorem routeRequest_file {mem : List UInt8} {req : HttpRequest} (hread : l.ReadAs fields mem req)
    (hroute : (findRouter cfg.routers l.path l.mask).isSome = true)
    (hfits : site.Fits filepath l.protocol) (out : Outcomes) :
    ∃ reply locals, routeRequest cfg ((site.calls filepath).outcomes out) mem
        { Locals.fresh with req := req } = .ok (reply, locals) ∧
      site.Answered filepath l.protocol reply locals := by
  obtain ⟨path, hpath, htext⟩ := Option.map_eq_some_iff.mp hread.path
  obtain ⟨router, hrouter⟩ := Option.isSome_iff_exists.mp hroute
  have happly := (StaticCalls.outcomes_globalStaticRouter (site.calls filepath) out
    ⟨0, contentType⟩ none Locals.fresh.res).2
  obtain ⟨fresstr, hcompose, hsent⟩ := httpComposeResponse_announces
    (hfits.announced ⟨0, contentType⟩ none (.empty (2 ^ 21)) hread.protocol)
    ((site.calls filepath).outcomes out).grow
  have hheaders : (site.headers filepath).take 20 = site.headers filepath := rfl
  rw [hheaders] at hsent
  refine ⟨.composed, ⟨req, site.watched filepath ⟨0, contentType⟩ none (.empty (2 ^ 21)), fresstr⟩,
    ?_, rfl, rfl, rfl, fun out => hsent out.behind⟩
  simp only [routeRequest, hpath, htext, hread.method, hrouter]
  rw [happly]
  refine bind_eq_ok.mpr ⟨_, rfl, ?_⟩
  have hret : ((site.calls filepath).outcomes out).ret = handlerErrSuccess := rfl
  rw [hret, if_neg (by decide), if_neg (by decide)]
  exact bind_eq_ok.mpr ⟨_, congrArg liftFault hcompose, rfl⟩

/-- A request that has been written out comes to the route. -/
theorem serveRequest_file {data : List UInt8} (hdata : data = requestText l fields body)
    (hpos : 0 < data.length) (hlt : data.length < 2 ^ 21) (hmethod : l.mask ≠ methodConnect)
    (hroute : (findRouter cfg.routers l.path l.mask).isSome = true)
    (hfits : site.Fits filepath l.protocol) (out : Outcomes) :
    ∃ reply locals str, serveRequest cfg ((site.calls filepath).outcomes out) data.length .fresh
        (received data) = .ok (reply, locals, str) ∧
      site.Answered filepath l.protocol reply locals := by
  have hbytes : (receivedBuf data hpos hlt).bytes = requestText l fields body :=
    (receivedBuf_bytes data hpos hlt).trans hdata
  obtain ⟨t, ht, hread⟩ := httpParseRequest_requestText _ hbytes hmethod
  obtain ⟨reply, locals, hserve, hfile⟩ := routeRequest_file hread hroute hfits out
  unfold serveRequest
  rw [if_neg (show data.length ≠ (received data).capacity from Nat.ne_of_lt hlt)]
  rw [show httpParseRequest ⟨(received data).buf, [], Locals.fresh.req, 0⟩ data.length =
    .ok (1, t) from ht]
  simp only [liftFault, bind, Except.bind, hserve]
  exact ⟨reply, locals, _, rfl, hfile⟩

/-- The client that has written a request for a file is written the head, which announces
the length of the file, and of the file what an `unsigned int` counts. It reads the
response with the file as its body if the file is shorter than 4 GiB, and else none,
since the body is not as long as announced. -/
theorem pipedLoop_serves {π : Type} (cfg : Config) (files : Int → List UInt8)
    (hwatch : cfg.watch = true) (slot : Nat) (w : Piped)
    (hw : Reach (pipedLoop cfg files) (Piped.Clear cfg slot) w) (x : LastReply)
    (hlast : w.last slot = some x) (hdone : w.server.chain slot = [])
    (l : RequestLine) (fields : List Header) (body : List UInt8)
    (hrequest : x.answer.request = requestText l fields body)
    (hlt : (requestText l fields body).length < 2 ^ 21) (hmethod : l.mask ≠ methodConnect)
    (hroute : (findRouter cfg.routers l.path l.mask).isSome = true)
    (site : StaticFiles π) (filepath : π) (out : Outcomes)
    (hout : x.out = (site.calls filepath).outcomes out)
    (hfile : files (site.fd filepath) = site.contents filepath)
    (hfits : site.Fits filepath l.protocol)
    (hread : Readable l.protocol (site.headers filepath)) :
    x.written = headText l.protocol 200 (site.headers filepath)
          (site.contents filepath).length ++
        (site.contents filepath).take ((site.contents filepath).length % 2 ^ 32) ∧
      readResponse x.written =
        if (site.contents filepath).length < 2 ^ 32 then
          some ⟨200, (site.headers filepath).map headerPair, site.contents filepath⟩
        else none := by
  obtain ⟨hpos, -, str, hserved⟩ := answer_reach hw hlast
  obtain ⟨reply, locals, str', hserve, hanswers⟩ :=
    serveRequest_file hrequest hpos (hrequest ▸ hlt) hmethod hroute hfits out
  rw [hout, hserve] at hserved
  obtain ⟨hreply, hlocals, -⟩ : reply = x.answer.reply ∧ locals = x.answer.l ∧ str' = str := by
    simpa using hserved
  rw [hreply, hlocals] at hanswers
  have hcontents : files x.answer.l.res.fileFd = site.contents filepath := by
    rw [hanswers.fd, hfile]
  have htold := told_reach hwatch hw x hlast hanswers.composed (by rw [hanswers.size, hcontents])
  obtain ⟨-, hserving, hwritten⟩ := hdone ▸ htold
  rw [hserving.over, hcontents, hanswers.head, unsent, List.append_nil, spliced] at hwritten
  refine ⟨hwritten, ?_⟩
  rw [hwritten, readResponse_headText hread, List.length_take]
  split
  · next hwhole =>
    have hsmall : (site.contents filepath).length < 2 ^ 32 := by omega
    rw [if_pos hsmall, Nat.mod_eq_of_lt hsmall, List.take_length]
  · next hshort =>
    have hlarge : ¬ (site.contents filepath).length < 2 ^ 32 := by
      intro hsmall
      rw [Nat.mod_eq_of_lt hsmall, Nat.min_self] at hshort
      exact hshort rfl
    rw [if_neg hlarge]

/-! The second of two clients, whose file goes through the pipe behind the first one's. -/

deriving instance DecidableEq for ResponseOp

theorem pipedLoop_serves_second :
    ∃ (w : Piped) (x : LastReply), w.last 8 = some x ∧ x.client = 1 ∧
      readResponse x.written =
        some ⟨200, [(ascii "Content-Type", ascii "text/csv")], ascii "BB"⟩ := by
  obtain ⟨w, hw, hview⟩ := exists_pipedRun rootRequest 2
    (f := fun w => (w.last 8).map fun x : LastReply => decide (w.server.chain 8 = [] ∧
      x.client = 1 ∧ x.answer.request = rootRequest ∧
      x.out.ops = ((pipeSite.calls 11).outcomes .granted).ops ∧ x.out.ret = handlerErrSuccess))
    (b := some true) (by decide +kernel)
  obtain ⟨x, hlast, hx⟩ := Option.map_eq_some_iff.mp hview
  obtain ⟨hdone, hclient, hrequest, hops, hret⟩ := of_decide_eq_true hx
  have hout : x.out = (pipeSite.calls 11).outcomes x.out := by
    cases hx : x.out
    rw [hx] at hops hret
    simp only at hops hret
    rw [hops, hret]
    rfl
  refine ⟨w, x, hlast, hclient, (pipedLoop_serves fileConfig.watching pipeFiles rfl 8 w
    (reach_of_run (.start rfl) (by decide +kernel) hw) x hlast hdone rootLine [hostHeader] []
    hrequest (by decide +kernel) (by decide) (by decide +kernel) pipeSite 11 x.out hout rfl
    ⟨by decide +kernel, by decide +kernel, by decide, by decide⟩
    ⟨by decide, by decide +kernel, by decide +kernel, by decide +kernel⟩).2⟩

end L4Server
