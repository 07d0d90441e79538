import L4Server.Closing
import L4Server.FileDescriptors
import L4Server.Library.Simulation
import L4Server.Service
import Mathlib.Data.Nat.Fib.Basic

/-!
The route `/fib` of the program in `tests/socket.c`. Its function counts on in two
static variables, whoever asks: the requests are answered with the Fibonacci numbers
in the order in which the loop handles them, up to the last one that a `long` holds.
-/
namespace L4Server
open CMemory PrintedText Automaton

/-! The route. -/

/-- `ROUTER(GET, /fib)`. -/
def fibRouter : Router := ⟨ascii "/fib", methodGet⟩

/-- Its `static long a` and `b`. -/
structure FibStatics where
  a : Int
  b : Int
  deriving DecidableEq, Repr

/-- Why there is no next state: a signed overflow, which is undefined, or what stops
the loop. -/
inductive FibHalt
  | overflow
  | halt (h : Halt)
  deriving DecidableEq, Repr

def liftHalt {α : Type} : Except Halt α → Except FibHalt α
  | .ok a => .ok a
  | .error h => .error (.halt h)

theorem liftHalt_eq_ok {α : Type} {x : Except Halt α} {a : α} :
    liftHalt x = .ok a ↔ x = .ok a := by
  cases x <;> simp [liftHalt]

theorem textPlain_free : 0 ∉ ascii "text/plain" := by decide

def textPlain : CText := ⟨ascii "text/plain", textPlain_free⟩

/-- The function of the route: what it does to its response, what it returns and what
it leaves. `content` is what its array holds at first. -/
def fibRoute (content : Fin 100 → UInt8) (realloc : Option (List UInt8)) (f : FibStatics) :
    Except FibHalt (List ResponseOp × Int × FibStatics) :=
  let res := f.a + f.b
  if -2 ^ 63 ≤ res ∧ res < 2 ^ 63 then do
    let content ← liftHalt (liftFault (sprintf (List.ofFn content) (decimal res ++ [lf])))
    return ([.body content (cString content 0).length realloc, .header contentType textPlain,
      .status 200], 0, ⟨f.b, res⟩)
  else .error .overflow

/-! The program. -/

/-- The server with the variables of the route and the numbers it has given so far. -/
structure FibServer where
  server : Server
  statics : FibStatics
  given : List Int

/-- An event of the loop, with what a call of the route finds. -/
structure FibEvent where
  event : Event
  content : Fin 100 → UInt8
  realloc : Option (List UInt8)

/-- Whether the completion that is handled leads to the route. -/
def Server.callsFib (cfg : Config) (out : Outcomes) (s : Server) : Bool :=
  s.cq.head?.any fun cqe => (s.route cfg out cqe).any fun rt =>
    rt.path == fibRouter.path && rt.method == fibRouter.method

/-- Of the outcomes of a call, those of the routed function are the route's. -/
def fibStep (cfg : Config) (s : FibServer) (e : FibEvent) : Except FibHalt FibServer :=
  match e.event with
  | .handle out =>
      if s.server.callsFib cfg out then do
        let (ops, ret, statics) ← fibRoute e.content e.realloc s.statics
        let server ← liftHalt (step cfg s.server (.handle { out with ops := ops, ret := ret }))
        return ⟨server, statics, s.given ++ [statics.b]⟩
      else do
        let server ← liftHalt (step cfg s.server (.handle out))
        return { s with server := server }
  | event => do
      let server ← liftHalt (step cfg s.server event)
      return { s with server := server }

def FibServer.initial (cfg : Config) : FibServer := ⟨.initial cfg, ⟨0, 1⟩, []⟩

def fibLoop (cfg : Config) : Machine FibServer FibEvent FibHalt where
  start := fun s => s = .initial cfg
  step := fibStep cfg

/-! The numbers. -/

/-- The `k`-th number that is given. -/
def fibNumber (k : Nat) : Nat := Nat.fib (k + 2)

/-- A `long` holds the first 91 numbers. -/
theorem fibNumber_lt_iff (k : Nat) : fibNumber k < 2 ^ 63 ↔ k < 91 := by
  have hlast : Nat.fib 92 < 2 ^ 63 := by decide +kernel
  have hnext : 2 ^ 63 ≤ Nat.fib 93 := by decide +kernel
  constructor
  · intro h
    by_contra hge
    have hmono : Nat.fib 93 ≤ fibNumber k := Nat.fib_mono (by omega)
    omega
  · intro h
    have hmono : fibNumber k ≤ Nat.fib 92 := Nat.fib_mono (by omega)
    omega

/-- The variables after `k` calls. -/
def FibStatics.after (k : Nat) : FibStatics := ⟨Nat.fib k, Nat.fib (k + 1)⟩

def fibText (k : Nat) : List UInt8 := decimal (fibNumber k) ++ [lf]

/-- What the route does to its response when it gives its `k`-th number. -/
def fibOps (content : Fin 100 → UInt8) (realloc : Option (List UInt8)) (k : Nat) :
    List ResponseOp :=
  [.body (fibText k ++ 0 :: (List.ofFn content).drop ((fibText k).length + 1)) (fibText k).length
    realloc, .header contentType textPlain, .status 200]

variable {content : Fin 100 → UInt8} {realloc : Option (List UInt8)} {k : Nat}

theorem fibText_length (h : k < 91) : (fibText k).length ≤ 21 := by
  have hlt := (fibNumber_lt_iff k).mpr h
  have hle := decimal_length_le (i := fibNumber k) (by omega)
  simp only [fibText, List.length_append, List.length_singleton]
  omega

theorem zero_notMem_fibText (k : Nat) : 0 ∉ fibText k := by
  have hdecimal : (0 : UInt8) ∉ decimal (fibNumber k) :=
    notMem_decimal (by decide) (.inl (by decide)) _
  simp only [fibText, List.mem_append, hdecimal, false_or]
  decide

/-- The route gives its next number as long as a `long` holds it. -/
theorem fibRoute_after (content : Fin 100 → UInt8) (realloc : Option (List UInt8)) (k : Nat) :
    fibRoute content realloc (.after k) =
      if k < 91 then .ok (fibOps content realloc k, 0, .after (k + 1)) else .error .overflow := by
  have hres : (FibStatics.after k).a + (FibStatics.after k).b = fibNumber k := by
    simp only [FibStatics.after, fibNumber, Nat.fib_add_two]
    omega
  have hfits := fibNumber_lt_iff k
  unfold fibRoute
  simp only [hres]
  by_cases hk : k < 91
  · have hlength := fibText_length hk
    have hprint : sprintf (List.ofFn content) (fibText k) =
        .ok (fibText k ++ 0 :: (List.ofFn content).drop ((fibText k).length + 1)) :=
      sprintf_of_fits (by rw [List.length_ofFn]; omega)
    have htext : cString (fibText k ++ 0 :: (List.ofFn content).drop ((fibText k).length + 1)) 0 =
        fibText k :=
      cString_eq [] _ rfl rfl (zero_notMem_fibText k)
    rw [if_pos hk, if_pos (by omega)]
    refine bind_eq_ok.mpr ⟨_, by rw [← fibText, hprint]; rfl, ?_⟩
    rw [htext]
    rfl
  · rw [if_neg hk, if_neg (by omega)]

/-! Runs. -/

variable {cfg : Config} {out : Outcomes} {w v : FibServer}

/-- The numbers have been given in order. -/
structure FibServer.Counts (w : FibServer) : Prop where
  statics : w.statics = .after w.given.length
  given : w.given = (List.range w.given.length).map fun k => (fibNumber k : Int)
  le : w.given.length ≤ 91

/-- A step keeps the variables, or calls the route. -/
theorem fibStep_cases {e : FibEvent} (h : fibStep cfg w e = .ok v) :
    (v.statics = w.statics ∧ v.given = w.given) ∨
      ∃ ops ret, fibRoute e.content e.realloc w.statics = .ok (ops, ret, v.statics) ∧
        v.given = w.given ++ [v.statics.b] := by
  unfold fibStep at h
  split at h
  · split at h
    · obtain ⟨⟨ops, ret, statics⟩, hroute, h⟩ := bind_eq_ok.mp h
      obtain ⟨server, -, h⟩ := bind_eq_ok.mp h
      cases h
      exact .inr ⟨ops, ret, hroute, rfl⟩
    · obtain ⟨server, -, h⟩ := bind_eq_ok.mp h
      cases h
      exact .inl ⟨rfl, rfl⟩
  · obtain ⟨server, -, h⟩ := bind_eq_ok.mp h
    cases h
    exact .inl ⟨rfl, rfl⟩

theorem FibServer.Counts.step (hw : w.Counts) {e : FibEvent} (h : fibStep cfg w e = .ok v) :
    v.Counts := by
  rcases fibStep_cases h with ⟨hstatics, hgiven⟩ | ⟨ops, ret, hroute, hgiven⟩
  · exact ⟨by rw [hstatics, hgiven, hw.statics], by rw [hgiven]; exact hw.given, hgiven ▸ hw.le⟩
  · rw [hw.statics, fibRoute_after] at hroute
    split at hroute
    case isFalse => cases hroute
    next hk =>
    obtain ⟨-, -, hstatics⟩ : _ ∧ _ ∧ FibStatics.after (w.given.length + 1) = v.statics := by
      simpa using hroute
    have hlength : v.given.length = w.given.length + 1 := by
      rw [hgiven, List.length_append, List.length_singleton]
    refine ⟨by rw [hlength, hstatics], ?_, by omega⟩
    rw [hlength, List.range_succ, List.map_append, ← hw.given, hgiven, ← hstatics]
    rfl

theorem counts_reach (hw : Reachable (fibLoop cfg) w) : w.Counts := by
  refine hw.invariant (P := FibServer.Counts) ?_ fun _ _ _ h _ ht => h.step ht
  rintro w rfl
  exact ⟨rfl, rfl, Nat.zero_le _⟩

/-! The loop behind it. -/

/-- The event with what the route does among its outcomes. -/
def FibServer.loopEvent (cfg : Config) (w : FibServer) (e : FibEvent) : Event :=
  match e.event with
  | .handle out =>
      if w.server.callsFib cfg out then
        match fibRoute e.content e.realloc w.statics with
        | .ok (ops, ret, _) => .handle { out with ops := ops, ret := ret }
        | .error _ => .handle out
      else .handle out
  | event => event

theorem fibStep_loop {e : FibEvent} (h : fibStep cfg w e = .ok v) :
    step cfg w.server (w.loopEvent cfg e) = .ok v.server := by
  obtain ⟨event, content, realloc⟩ := e
  simp only [fibStep] at h
  cases event with
  | handle out =>
      simp only at h
      split at h
      · next hcalls =>
        obtain ⟨⟨ops, ret, statics⟩, hroute, h⟩ := bind_eq_ok.mp h
        obtain ⟨server, hserver, h⟩ := bind_eq_ok.mp h
        cases h
        simp only [FibServer.loopEvent, if_pos hcalls, hroute]
        exact liftHalt_eq_ok.mp hserver
      · next hcalls =>
        obtain ⟨server, hserver, h⟩ := bind_eq_ok.mp h
        cases h
        simp only [FibServer.loopEvent, if_neg hcalls]
        exact liftHalt_eq_ok.mp hserver
  | submit | complete | drained =>
      obtain ⟨server, hserver, h⟩ := bind_eq_ok.mp h
      cases h
      exact liftHalt_eq_ok.mp hserver

/-- Without the variables it is the loop. -/
theorem fibLoop_loops (cfg : Config) :
    Simulates (fibLoop cfg) (listenLoop cfg) (fun w e _ => [w.loopEvent cfg e])
      fun w s => s = w.server where
  start := by
    rintro w rfl
    exact ⟨_, rfl, rfl⟩
  step := by
    rintro w v s e rfl h
    refine ⟨v.server, ?_, rfl⟩
    simp only [run, listenLoop, fibStep_loop h]

/-- The request that is served makes no append grow its string. -/
def FibServer.AppendsFit (cfg : Config) (w : FibServer) (e : FibEvent) : Prop :=
  L4Server.AppendsFit w.server (w.loopEvent cfg e)

instance (cfg : Config) (w : FibServer) (e : FibEvent) : Decidable (w.AppendsFit cfg e) :=
  inferInstanceAs (Decidable (L4Server.AppendsFit _ _))

theorem fibLoop_reach (hw : Reach (fibLoop cfg) (FibServer.AppendsFit cfg) w) :
    Reach (listenLoop cfg) L4Server.AppendsFit w.server := by
  have hguard (w v : FibServer) (s : Server) (e : FibEvent) (hR : s = w.server)
      (hfit : w.AppendsFit cfg e) (_ : fibStep cfg w e = .ok v) :
      Guarded (listenLoop cfg) L4Server.AppendsFit [w.loopEvent cfg e] s := by
    subst hR
    refine ⟨hfit, ?_⟩
    split <;> trivial
  obtain ⟨s, hs, rfl⟩ := (fibLoop_loops cfg).reached_guarded hguard hw
  exact hs

/-! Answers. -/

/-- The response with the `k`-th number. -/
def fibDraft (k : Nat) : Draft := ⟨200, [⟨contentType, textPlain⟩], fibText k⟩

theorem draft_fibOps (content : Fin 100 → UInt8) (realloc : Option (List UInt8)) (k : Nat) :
    draft (fibOps content realloc k) = fibDraft k := by
  unfold fibOps
  generalize (List.ofFn content).drop ((fibText k).length + 1) = rest
  simp [draft, Draft.apply, fibDraft]

theorem fibDraft_fits {protocol : List UInt8} (h : k < 91)
    (hstatus : (statusLine protocol 200).length < 1024) : (fibDraft k).Fits protocol where
  status := hstatus
  headers := by
    intro p hp
    obtain rfl := List.mem_singleton.mp hp
    decide
  room := by
    have hbody := fibText_length h
    have htext : (fibDraft k).text protocol = statusLine protocol 200 ++
        ([⟨contentType, textPlain⟩] : List (KvPair CText)).flatMap headerLine ++
          contentLength (fibText k).length ++ [lf] ++ fibText k :=
      @responseText_eq { HttpResponse.cleared (.empty 64) with status := 200 } _ _ (fibText k)
        (by omega)
    have hlength := contentLength_length (fibText k).length
    have hheader : (headerLine ⟨contentType, textPlain⟩).length < 1024 := by decide
    rw [htext]
    simp only [List.flatMap_cons, List.flatMap_nil, List.length_append, List.length_nil,
      List.length_singleton]
    omega

theorem fibOps_responds {protocol : List UInt8} (h : k < 91)
    (hstatus : (statusLine protocol 200).length < 1024) (out : Outcomes) :
    ({ out with ops := fibOps content realloc k, ret := 0 } : Outcomes).Responds protocol where
  writes := by
    intro op hop
    simp only [fibOps, List.mem_cons, List.not_mem_nil, or_false] at hop
    rcases hop with rfl | rfl | rfl
    · refine ⟨?_, ?_⟩
      · rw [List.length_append]
        omega
      · rw [List.take_left]
        exact zero_notMem_fibText k
    · trivial
    · trivial
  body := by
    have hbody := fibText_length h
    show (draft (fibOps content realloc k)).body.length < 2 ^ 21
    rw [draft_fibOps]
    simp only [fibDraft]
    omega
  fits := fun _ _ => by
    show (draft (fibOps content realloc k)).Fits protocol
    rw [draft_fibOps]
    exact fibDraft_fits h hstatus

variable {s : Server} {slot : Nat} {l : RequestLine} {fields : List Header} {body : List UInt8}

/-- A request for which the route is found leads to it. -/
theorem Server.Received.callsFib (h : s.Received cfg slot (requestText l fields body))
    (hlt : (requestText l fields body).length < 2 ^ 21) (hmethod : l.mask ≠ methodConnect)
    (hroute : findRouter cfg.routers l.path l.mask = some fibRouter) (hgranted : out.Granted) :
    s.callsFib cfg out = true := by
  obtain ⟨cqe, cq, coro, hcq, rfl, -, hres, hpos, -, hbegins, hconn⟩ := h.conn
  obtain ⟨t, ht, hread⟩ := httpParseRequest_requestText (receivedBuf _ hpos hlt)
    (receivedBuf_bytes _ hpos hlt) hmethod
  obtain ⟨p, hp, htext⟩ := Option.map_eq_some_iff.mp hread.path
  have hrouted : routeOf cfg cqe.res.toNat .fresh (received (requestText l fields body)) =
      some fibRouter := by
    rw [hres, Int.toNat_natCast, routeOf]
    rw [if_neg (show (requestText l fields body).length ≠ (received _).capacity from
      Nat.ne_of_lt hlt)]
    rw [show httpParseRequest ⟨(received (requestText l fields body)).buf, [], Locals.fresh.req, 0⟩
      (requestText l fields body).length = .ok (1, t) from ht]
    simp only [hp, Option.bind_some, htext, hread.method, hroute]
    exact if_neg (by decide)
  have henters : Coroutine.enters out (some coro) = some .fresh := by
    rcases hbegins with rfl | rfl
    · exact httpHandlerInit_granted hgranted.1 hgranted.2
    · rfl
  have haction : (s.conns cqe.sqe.userData).action = .recv :=
    congrArg ServerConnection.action hconn
  have hcoro : (s.conns cqe.sqe.userData).coro = some coro := congrArg ServerConnection.coro hconn
  have hstr : (s.conns cqe.sqe.userData).str = some (received (requestText l fields body)) :=
    congrArg ServerConnection.str hconn
  have hcalled : s.route cfg out cqe = some fibRouter := by
    simp only [Server.route, hcoro, hstr, henters, Option.bind_some]
    rw [if_pos ⟨haction, by omega⟩]
    exact hrouted
  simp [Server.callsFib, hcq, hcalled]

/-- A client whose request leads to the route reads the next number; the addition
behind the last one overflows. -/
theorem FibServer.Counts.serves (hcounts : w.Counts)
    (h : w.server.Received cfg slot (requestText l fields body))
    (hlt : (requestText l fields body).length < 2 ^ 21) (hmethod : l.mask ≠ methodConnect)
    (hroute : findRouter cfg.routers l.path l.mask = some fibRouter)
    (hstatus : (statusLine l.protocol 200).length < 1024) (hread : lf ∉ l.protocol)
    (hgranted : out.Granted) (content : Fin 100 → UInt8) (realloc : Option (List UInt8)) :
    (w.given.length < 91 → ∃ v text, fibStep cfg w ⟨.handle out, content, realloc⟩ = .ok v ∧
      v.given = (List.range (w.given.length + 1)).map (fun k => (fibNumber k : Int)) ∧
      w.server.Sends v.server slot text ∧
      readResponse text = some ⟨200, [(ascii "Content-Type", ascii "text/plain")],
        decimal (fibNumber w.given.length) ++ [lf]⟩) ∧
    (w.given.length = 91 → fibStep cfg w ⟨.handle out, content, realloc⟩ = .error .overflow) := by
  have hcalls := h.callsFib hlt hmethod hroute hgranted
  have hnext := fibRoute_after content realloc w.given.length
  rw [← hcounts.statics] at hnext
  constructor
  · intro hk
    rw [if_pos hk] at hnext
    obtain ⟨-, -, -, -, -, -, -, hpos, hle, -⟩ := h.conn
    obtain ⟨reply, locals, str, hserve, hreply⟩ :=
      serveRequest_answers cfg rfl hpos hle (fibOps_responds hk hstatus out)
    have hgranted' : ({ out with
        ops := fibOps content realloc w.given.length, ret := 0 } : Outcomes).Granted := hgranted
    obtain ⟨t, ht, hsends⟩ := h.replies hgranted' hserve
    have hstep : fibStep cfg w ⟨.handle out, content, realloc⟩ =
        .ok ⟨t, .after (w.given.length + 1), w.given ++ [(fibNumber w.given.length : Int)]⟩ := by
      simp only [fibStep, hcalls, if_true]
      refine bind_eq_ok.mpr ⟨_, hnext, bind_eq_ok.mpr ⟨t, ?_, rfl⟩⟩
      simp only [ht]
      rfl
    refine ⟨_, _, hstep, ?_, hsends, ?_⟩
    · rw [List.range_succ, List.map_append, ← hcounts.given]
      rfl
    · have hanswer : answerTo cfg { out with ops := fibOps content realloc w.given.length, ret := 0 }
          l (requestText l fields body).length = (fibDraft w.given.length).text l.protocol := by
        simp only [answerTo, answer, if_neg (Nat.ne_of_lt hlt), if_neg hmethod, hroute, draft_fibOps]
        rfl
      have hreadable : Readable l.protocol [⟨contentType, textPlain⟩] :=
        ⟨hread, by decide, by decide, by decide⟩
      rw [hreply, hanswer]
      exact readResponse_responseText hreadable 200 (fibText w.given.length)
  · intro hk
    rw [if_neg (by omega)] at hnext
    simp only [fibStep, hcalls, if_true, hnext]
    rfl

/-- At most 91 numbers are given, in order, whoever asks; and each client that asks
reads the next one. -/
theorem fibLoop_serves (cfg : Config) (w : FibServer) (hw : Reachable (fibLoop cfg) w) :
    (w.given.length ≤ 91 ∧
      w.given = (List.range w.given.length).map fun k => (fibNumber k : Int)) ∧
    ∀ (slot : Nat) (l : RequestLine) (fields : List Header) (body : List UInt8),
      w.server.Received cfg slot (requestText l fields body) →
      (requestText l fields body).length < 2 ^ 21 → l.mask ≠ methodConnect →
      findRouter cfg.routers l.path l.mask = some fibRouter →
      (statusLine l.protocol 200).length < 1024 → lf ∉ l.protocol →
      ∀ out : Outcomes, out.Granted →
      ∀ (content : Fin 100 → UInt8) (realloc : Option (List UInt8)),
        (w.given.length < 91 → ∃ v text, fibStep cfg w ⟨.handle out, content, realloc⟩ = .ok v ∧
          v.given = (List.range (w.given.length + 1)).map (fun k => (fibNumber k : Int)) ∧
          w.server.Sends v.server slot text ∧
          readResponse text = some ⟨200, [(ascii "Content-Type", ascii "text/plain")],
            decimal (fibNumber w.given.length) ++ [lf]⟩) ∧
        (w.given.length = 91 →
          fibStep cfg w ⟨.handle out, content, realloc⟩ = .error .overflow) := by
  have hcounts := counts_reach hw
  refine ⟨⟨hcounts.le, hcounts.given⟩, ?_⟩
  intro slot l fields body h hlt hmethod hroute hstatus hread out hgranted content realloc
  exact hcounts.serves h hlt hmethod hroute hstatus hread hgranted content realloc

theorem bodyLengths_fibOps (content : Fin 100 → UInt8) (realloc : Option (List UInt8)) (k : Nat) :
    bodyLengths (fibOps content realloc k) = (fibText k).length := by
  unfold fibOps
  generalize (List.ofFn content).drop ((fibText k).length + 1) = rest
  simp [bodyLengths, ResponseOp.bodyLength]

theorem FibServer.Counts.loopEvent (hw : w.Counts) (hk : w.given.length < 91)
    (hcalls : w.server.callsFib cfg out = true) (content : Fin 100 → UInt8)
    (realloc : Option (List UInt8)) :
    w.loopEvent cfg ⟨.handle out, content, realloc⟩ =
      .handle { out with ops := fibOps content realloc w.given.length, ret := 0 } := by
  have hroute := fibRoute_after content realloc w.given.length
  rw [← hw.statics, if_pos hk] at hroute
  simp only [FibServer.loopEvent, if_pos hcalls, hroute]

/-- No append grows its string for the route. -/
theorem fibOps_appendsFit (hk : k < 91) {data : List UInt8} (h : s.Received cfg slot data)
    (hstatus : (statusLine (protocolText data) 200).length < 1024) (out : Outcomes) :
    AppendsFit s (.handle { out with ops := fibOps content realloc k, ret := 0 }) := by
  intro cqe cq str hcq hrecv hstr
  obtain ⟨cqe', cq', hcq', rfl, -, -, hdata⟩ := h.first
  obtain ⟨rfl, rfl⟩ := List.cons.inj (hcq.symm.trans hcq')
  obtain rfl : str.buf.take cqe.res.toNat = data := by simpa [hstr] using hdata
  refine (fibOps_responds hk hstatus out).fits_received ?_
  have hlength := fibText_length hk
  simp only [bodyLengths_fibOps]
  omega

/-- The request behind the one that is answered is the first one then. -/
theorem Server.Received.behind {t : Server} {cqe next : Cqe} {cq : List Cqe}
    {data data' text : List UInt8} (h : s.Received cfg slot data) (hcq : s.cq = cqe :: next :: cq)
    (hne : next.sqe.userData ≠ slot) (hrecv : next.sqe.op.isRecv = true) (hpos : 0 < next.res)
    (hdata : (s.conns next.sqe.userData).str.map (fun str => str.buf.take next.res.toNat) =
      some data') (hroom : s.sq.length + 1 < queueDepth) (hfit : AppendsFit s (.handle out))
    (ht : step cfg s (.handle out) = .ok t) (hsends : s.Sends t slot text) :
    t.Received cfg next.sqe.userData data' := by
  obtain ⟨-, hwaiting, -, ⟨cqe', hcq'⟩, -⟩ := step_handle_frame ht
  have htail : t.cq = next :: cq := (List.cons.inj (hcq'.symm.trans hcq)).2
  refine ⟨.step h.reach hfit ht, h.watch, hwaiting, ⟨next, cq, htail, rfl, hrecv, hpos, ?_⟩, ?_⟩
  · rw [hsends.others _ hne]
    exact hdata
  · rw [hsends.sq, List.length_append, List.length_singleton]
    exact hroom

/-! Two requests for the path, on two connections. -/

def fibLine : RequestLine where
  method := ⟨0, rootLine.method.isLt⟩
  spaces := 0
  path := fibRouter.path
  query := []
  protocol := rootLine.protocol
  path_slash := by decide +kernel
  path_free := by decide +kernel
  key_free := rootLine.key_free
  value_free := rootLine.value_free
  protocol_http := rootLine.protocol_http
  protocol_length := rootLine.protocol_length
  protocol_free := rootLine.protocol_free

def fibConfig : Config := { bareConfig with routers := [fibRouter] }

def fibRequest : List UInt8 := requestText fibLine [hostHeader] []

/-- Two clients have connected and asked. -/
def fibEvents : List FibEvent :=
  [Event.submit, .complete 0 7 [], .handle .granted, .drained, .submit, .complete 1 8 [],
    .handle .granted, .drained, .submit, .complete 0 fibRequest.length fibRequest,
    .complete 0 fibRequest.length fibRequest].map fun event => ⟨event, fun _ => 0, none⟩

def fibCqe (slot : Nat) : Cqe := ⟨⟨.recv slot (2 ^ 21), slot, false, 1⟩, 30⟩

theorem exists_fibRun : ∃ w : FibServer,
    Reach (fibLoop fibConfig) (FibServer.AppendsFit fibConfig) w ∧ w.given = [] ∧
      w.server.waiting = false ∧ w.server.sq = [] ∧ w.server.cq = [fibCqe 7, fibCqe 8] ∧
        ∀ slot ∈ [7, 8],
          (w.server.conns slot).str.map (fun str => str.buf.take 30) = some fibRequest := by
  obtain ⟨w, hw, hview⟩ := exists_of_map_toOption
    (x := run (fibLoop fibConfig) fibEvents (.initial fibConfig))
    (f := fun w => (decide (w.given = [] ∧ w.server.waiting = false ∧ w.server.sq = []),
      w.server.cq,
      [7, 8].map fun slot => (w.server.conns slot).str.map fun str => str.buf.take 30))
    (b := (true, [fibCqe 7, fibCqe 8], [some fibRequest, some fibRequest])) (by decide +kernel)
  simp only [Prod.mk.injEq, decide_eq_true_eq] at hview
  obtain ⟨⟨hgiven, hwaiting, hsq⟩, hcq, hdata⟩ := hview
  refine ⟨w, reach_of_run (.start rfl) (by decide +kernel) hw, hgiven, hwaiting, hsq, hcq, ?_⟩
  simpa using hdata

theorem findRouter_fibLine :
    findRouter fibConfig.routers fibLine.path fibLine.mask = some fibRouter :=
  List.find?_cons_of_pos (by decide +kernel)

theorem fibLoop_serves_both :
    ∃ (w v : FibServer) (first second : List UInt8), v.given = [1, 2] ∧
      readResponse first =
        some ⟨200, [(ascii "Content-Type", ascii "text/plain")], ascii "1\n"⟩ ∧
      w.server.Sends v.server 8 second ∧
      readResponse second =
        some ⟨200, [(ascii "Content-Type", ascii "text/plain")], ascii "2\n"⟩ := by
  obtain ⟨w, hw, hgiven, hwaiting, hsq, hcq, hdata⟩ := exists_fibRun
  have hanswer (w : FibServer) (hw : Reachable (fibLoop fibConfig) w) (slot : Nat)
      (h : w.server.Received fibConfig slot fibRequest) :=
    ((fibLoop_serves fibConfig w hw).2 slot fibLine [hostHeader] [] h (by decide +kernel)
      (by decide) findRouter_fibLine (by decide +kernel) (by decide) .granted ⟨rfl, rfl⟩
      (fun _ => 0) none).1
  have hreceived : w.server.Received fibConfig 7 fibRequest := ⟨fibLoop_reach hw, rfl, hwaiting,
    ⟨_, _, hcq, rfl, rfl, by decide, hdata 7 (by decide)⟩, by rw [hsq]; decide⟩
  obtain ⟨u, first, hstep, hfirst, hsends, hread⟩ := hanswer w hw.reachable 7 hreceived
    (by rw [hgiven]; decide)
  have hcounts := counts_reach hw.reachable
  have hcalls : w.server.callsFib fibConfig .granted = true :=
    hreceived.callsFib (by decide +kernel) (by decide) findRouter_fibLine ⟨rfl, rfl⟩
  have hloop := fibStep_loop hstep
  rw [hcounts.loopEvent (by rw [hgiven]; decide) hcalls] at hloop
  have hbehind : u.server.Received fibConfig 8 fibRequest :=
    hreceived.behind hcq (by decide) rfl (by decide) (hdata 8 (by decide)) (by rw [hsq]; decide)
      (fibOps_appendsFit (by rw [hgiven]; decide) hreceived (by decide +kernel) .granted) hloop
      hsends
  have hu : Reachable (fibLoop fibConfig) u :=
    .step (e := ⟨.handle .granted, fun _ => 0, none⟩) hw.reachable trivial hstep
  obtain ⟨v, second, -, hsecond, hsends', hread'⟩ := hanswer u hu 8 hbehind
    (by rw [hfirst, hgiven]; decide)
  refine ⟨u, v, first, second, ?_, ?_, hsends', ?_⟩
  · rw [hsecond, hfirst, hgiven]
    decide
  · rw [hread, hgiven]
    decide +kernel
  · rw [hread', hfirst, hgiven]
    decide +kernel

end L4Server
