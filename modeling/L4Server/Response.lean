import L4Server.AcceptedRequest
import L4Server.StrBuf

/-!
`http_compose_response` and the bound of its line buffer. Every line of a
response is printed into `tmp[1024]`; the status line is the one whose length
the client decides, through the protocol text of its request.
-/
namespace L4Server
open CMemory

/-- `struct http_response`; the string it owns is always there. -/
structure HttpResponse where
  status : Int
  file : Option (List UInt8)
  fileFd : Int
  fileSz : Nat
  str : StringT
  headers : Kv CText

/-- The locals of `http_compose_response`, and how many appends it has made:
`grow` is asked for the outcome of a reallocation by that number. -/
structure Compose where
  final : StringT
  tmp : List UInt8
  appends : Nat

/-- `string_append(final, buf, buflen)`, its result ignored. -/
def Compose.append (grow : Nat → Option (List UInt8)) (c : Compose) (buf : List UInt8)
    (buflen : Nat) : Except Fault Compose := do
  let (_, final) ← stringAppend (grow c.appends) c.final buf buflen
  return { c with final := final, appends := c.appends + 1 }

/-- `sprintf(tmp, ..)` and `string_append(final, tmp, strlen(tmp))`. -/
def Compose.line (grow : Nat → Option (List UInt8)) (c : Compose) (text : List UInt8) :
    Except Fault Compose := do
  let tmp ← sprintf c.tmp text
  Compose.append grow { c with tmp := tmp } tmp (cString tmp 0).length

/-- `size_t` printed as `%ld`. -/
def signedLong (n : Nat) : Int := (n : Int).bmod (2 ^ 64)

def contentLength (n : Nat) : List UInt8 :=
  ascii "Content-Length: " ++ decimal (signedLong n) ++ ['\n'.toUInt8]

def statusLine (protocol : List UInt8) (status : Int) : List UInt8 :=
  protocol ++ ' '.toUInt8 :: (decimal (if status ≠ 0 then status else 200) ++ ascii " OK\n")

def headerLine (p : KvPair CText) : List UInt8 :=
  p.key.bytes ++ ascii ": " ++ p.value.bytes ++ ['\n'.toUInt8]

def composeHeaders (grow : Nat → Option (List UInt8)) :
    List (Option (KvPair CText)) → Compose → Except Fault Compose
  | [], c => .ok c
  | none :: _, _ => .error .null
  | some p :: ps, c => do
      let c ← c.line grow (headerLine p)
      composeHeaders grow ps c

def composeBody (grow : Nat → Option (List UInt8)) (res : HttpResponse) (c : Compose) :
    Except Fault Compose :=
  match res.file with
  | some file => do
      let c ← c.line grow (contentLength res.fileSz)
      let c ← c.append grow (ascii "\n" ++ [0]) 1
      c.append grow file res.fileSz
  | none =>
      if res.fileFd ≠ 0 then do
        let c ← c.line grow (contentLength res.fileSz)
        c.append grow (ascii "\n" ++ [0]) 1
      else do
        let c ← c.line grow (contentLength res.str.len)
        let c ← c.append grow (ascii "\n" ++ [0]) 1
        c.append grow res.str.buf res.str.len

/-- `http_compose_response(req, res, final)`; `mem` is the block the request
points into. -/
def httpComposeResponse (grow : Nat → Option (List UInt8)) (mem : List UInt8)
    (req : HttpRequest) (res : HttpResponse) (final : StringT) :
    Except Fault (Bool × StringT) :=
  match req.protocol with
  | none => .ok (false, final)
  | some protocol => do
      let c ← Compose.line grow ⟨final, List.replicate 1024 0, 0⟩
        (statusLine (cString mem protocol) res.status)
      let c ← composeHeaders grow res.headers.stored c
      let c ← composeBody grow res c
      return (true, c.final)

/-! No print but the status line's can overrun `tmp`. -/

/-- The header lines a handler has set fit the line buffer. -/
def HttpResponse.HeadersFit (res : HttpResponse) : Prop :=
  ∀ p, some p ∈ res.headers.stored → (headerLine p).length < 1024

variable {grow : Nat → Option (List UInt8)}

theorem Compose.append_noFormat (c : Compose) (buf : List UInt8) (buflen : Nat) :
    NoFormat (c.append grow buf buflen) :=
  (stringAppend_noFormat _ _ _ _).bind fun _ _ => noFormat_ok _

theorem Compose.append_tmp {c d : Compose} {buf : List UInt8} {buflen : Nat}
    (h : c.append grow buf buflen = .ok d) : d.tmp = c.tmp := by
  obtain ⟨r, -, hd⟩ := bind_eq_ok.mp h
  cases hd
  rfl

theorem Compose.line_noFormat {c : Compose} {text : List UInt8}
    (h : text.length < c.tmp.length) : NoFormat (c.line grow text) := by
  unfold Compose.line
  rw [sprintf_of_fits h]
  exact Compose.append_noFormat _ _ _

theorem Compose.line_tmp {c d : Compose} {text : List UInt8} (h : c.line grow text = .ok d) :
    d.tmp.length = c.tmp.length := by
  obtain ⟨tmp, htmp, hd⟩ := bind_eq_ok.mp h
  rw [Compose.append_tmp hd]
  exact sprintf_length htmp

theorem contentLength_length (n : Nat) : (contentLength n).length < 1024 := by
  have hlo := Int.le_bmod (x := n) (m := 2 ^ 64) (by omega)
  have hhi := Int.bmod_lt (x := n) (m := 2 ^ 64) (by omega)
  have h := decimal_length_le (i := signedLong n) (by unfold signedLong; omega)
  have hname : (ascii "Content-Length: ").length = 16 := by decide
  simp only [contentLength, List.length_append, List.length_singleton]
  omega

theorem composeHeaders_noFormat (ps : List (Option (KvPair CText))) {c : Compose}
    (hc : c.tmp.length = 1024) (h : ∀ p, some p ∈ ps → (headerLine p).length < 1024) :
    NoFormat (composeHeaders grow ps c) := by
  induction ps generalizing c with
  | nil => exact noFormat_ok _
  | cons p ps ih =>
      cases p with
      | none => nofun
      | some p =>
          refine (Compose.line_noFormat (by rw [hc]; exact h p (by simp))).bind fun d hd => ?_
          exact ih ((Compose.line_tmp hd).trans hc) fun q hq => h q (by simp [hq])

theorem composeHeaders_tmp {ps : List (Option (KvPair CText))} {c d : Compose}
    (h : composeHeaders grow ps c = .ok d) : d.tmp.length = c.tmp.length := by
  induction ps generalizing c with
  | nil =>
      cases h
      rfl
  | cons p ps ih =>
      cases p with
      | none => cases h
      | some p =>
          obtain ⟨e, he, hd⟩ := bind_eq_ok.mp h
          exact (ih hd).trans (Compose.line_tmp he)

theorem composeBody_noFormat (res : HttpResponse) {c : Compose} (hc : c.tmp.length = 1024) :
    NoFormat (composeBody grow res c) := by
  have hline (n : Nat) : NoFormat (c.line grow (contentLength n)) :=
    Compose.line_noFormat (by rw [hc]; exact contentLength_length n)
  unfold composeBody
  split
  · exact (hline _).bind fun _ _ => (Compose.append_noFormat _ _ _).bind fun _ _ =>
      Compose.append_noFormat _ _ _
  · split
    · exact (hline _).bind fun _ _ => Compose.append_noFormat _ _ _
    · exact (hline _).bind fun _ _ => (Compose.append_noFormat _ _ _).bind fun _ _ =>
        Compose.append_noFormat _ _ _

theorem httpComposeResponse_overrun {mem : List UInt8} {req : HttpRequest}
    {res : HttpResponse} {final : StringT} {protocol : Nat} (hreq : req.protocol = some protocol)
    (hlong : 1024 ≤ (statusLine (cString mem protocol) res.status).length) :
    httpComposeResponse grow mem req res final =
      .error (.format ((statusLine (cString mem protocol) res.status).length + 1) 1024) := by
  have hover := sprintf_of_overrun (List.replicate 1024 0)
    (statusLine (cString mem protocol) res.status)
    (by rw [List.length_replicate]; exact hlong)
  unfold httpComposeResponse
  simp only [hreq, Compose.line, hover, bind, Except.bind, List.length_replicate]

theorem httpComposeResponse_noFormat_iff {mem : List UInt8} {req : HttpRequest}
    {res : HttpResponse} {final : StringT} {protocol : Nat} (hreq : req.protocol = some protocol)
    (hres : res.HeadersFit) :
    NoFormat (httpComposeResponse grow mem req res final) ↔
      (statusLine (cString mem protocol) res.status).length < 1024 := by
  constructor
  · intro h
    refine Nat.lt_of_not_le fun hle => ?_
    exact h _ _ (httpComposeResponse_overrun hreq hle)
  · intro h
    unfold httpComposeResponse
    simp only [hreq]
    refine (Compose.line_noFormat (by rw [List.length_replicate]; exact h)).bind fun c hc => ?_
    have hc' : c.tmp.length = 1024 := (Compose.line_tmp hc).trans List.length_replicate
    refine (composeHeaders_noFormat _ hc' hres).bind fun d hd => ?_
    exact (composeBody_noFormat res ((composeHeaders_tmp hd).trans hc')).bind
      fun _ _ => noFormat_ok _

/-! The protocol text in the received bytes. -/

/-- The length the table gives for the method the bytes start with. -/
def methodLength (bytes : List UInt8) : Nat :=
  match strToInt32 bytes 0 with
  | .ok reqstrn => ((methods.find? fun method => method.strn == reqstrn).map (·.length)).getD 0
  | .error _ => 0

/-- What stands between the space behind the target and the next CR. -/
def protocolText (bytes : List UInt8) : List UInt8 :=
  let target := (bytes.drop (methodLength bytes)).dropWhile (· == ' '.toUInt8)
  ((target.dropWhile (· != ' '.toUInt8)).drop 1).takeWhile (· != '\r'.toUInt8)

theorem LineLayout.protocolText_eq {b : RecvBuf} {t : Parse} (l : LineLayout b.mem t) :
    protocolText b.bytes = l.protocol := by
  obtain ⟨hpp, hbytes⟩ := l.bytes_eq
  obtain ⟨target, htarget⟩ : ∃ target, l.target = '/'.toUInt8 :: target := by
    have h := l.target_slash
    cases hl : l.target with
    | nil => simp [hl] at h
    | cons c target => exact ⟨target, by simpa [hl] using h⟩
  have hrow := method_length_le l.row_mem
  have hprotocol := congrArg List.length l.protocol_http
  have hfour : 3 < b.received := by
    have hlength := l.ppbuf
    have : (ascii "HTTP").length = 4 := by decide
    rw [List.length_take] at hprotocol
    omega
  have hmethod : methodLength b.bytes = l.name.length := by
    unfold methodLength
    rw [RecvBuf.bytes, strToInt32_take (by omega), l.word]
    simp [find_row l.row_mem, l.name_length]
  have hspaces : ∀ c ∈ List.replicate l.spaces ' '.toUInt8, (c == ' '.toUInt8) = true := by
    intro c hc
    simpa using (List.mem_replicate.mp hc).2
  have htargetFree : ∀ c ∈ '/'.toUInt8 :: target, (c != ' '.toUInt8) = true := by
    intro c hc
    rw [← htarget] at hc
    simpa using fun h : c = ' '.toUInt8 => l.target_space (h ▸ hc)
  have hprotocolFree : ∀ c ∈ l.protocol, (c != '\r'.toUInt8) = true := by
    intro c hc
    simpa using fun h : c = '\r'.toUInt8 => l.protocol_cr (h ▸ hc)
  unfold protocolText
  rw [hmethod, hbytes, List.drop_left, htarget, List.dropWhile_append_of_pos hspaces,
    List.cons_append, List.dropWhile_cons_of_neg (by decide), ← List.cons_append]
  simp only
  rw [List.dropWhile_append_of_pos htargetFree, List.dropWhile_cons_of_neg (by simp),
    List.drop_succ_cons, List.drop_zero, List.takeWhile_append_of_pos hprotocolFree,
    List.takeWhile_cons_of_neg (by simp), List.append_nil]

theorem httpParseRequest_protocol {b : RecvBuf} {t : Parse}
    (h : httpParseRequest (Parse.start b.mem) b.received = .ok (1, t)) :
    ∃ protocol, t.req.protocol = some protocol ∧ cString t.mem protocol = protocolText b.bytes := by
  obtain ⟨s, r, hs, hheaders⟩ := httpParseRequest_accepted h
  obtain ⟨l⟩ := httpParseRequestLine_layout b.getLast hs
  obtain ⟨-, -, hprotocol, -⟩ := l.texts hheaders
  obtain ⟨protocol, hreq, htext⟩ := Option.map_eq_some_iff.mp hprotocol
  exact ⟨protocol, hreq, htext.trans l.protocolText_eq.symm⟩

/-- Composing the response to an accepted request overruns the line buffer
exactly when the protocol text and the status take more than 1018 bytes. -/
theorem httpComposeResponse_fits_iff (b : RecvBuf) (t : Parse)
    (h : httpParseRequest (Parse.start b.mem) b.received = .ok (1, t)) (res : HttpResponse)
    (hres : res.HeadersFit) (final : StringT) (grow : Nat → Option (List UInt8)) :
    NoFormat (httpComposeResponse grow t.mem t.req res final) ↔
      (protocolText b.bytes).length +
        (decimal (if res.status ≠ 0 then res.status else 200)).length ≤ 1018 := by
  obtain ⟨protocol, hreq, htext⟩ := httpParseRequest_protocol h
  have hok : (ascii " OK\n").length = 4 := by decide
  rw [httpComposeResponse_noFormat_iff hreq hres, htext]
  simp only [statusLine, List.length_append, List.length_cons, hok]
  omega

/-- A response as a fresh coroutine holds it. -/
def HttpResponse.cleared (str : StringT) : HttpResponse where
  status := 0
  file := none
  fileFd := 0
  fileSz := 0
  str := str
  headers := kvInitWithBuf (List.replicate 20 none)

/-- A request whose protocol text is `HTTP` and `n` further bytes. -/
def protocolExample (n : Nat) (hn : n ≤ 2000) : RecvBuf :=
  .ofBytes (ascii "GET / HTTP" ++ (List.replicate n 'a'.toUInt8 ++ ascii "\r\n\r\n")) 2048
    (by simp [ascii]) (by simp [ascii]; omega) (by decide) (by decide)

def responseExample : HttpResponse := .cleared ⟨64, 0, List.replicate 64 0, rfl⟩

theorem responseExample_fits : responseExample.HeadersFit := by
  intro p hp
  simp [responseExample, HttpResponse.cleared] at hp

theorem exists_protocolExample (n : Nat) (hn : n ≤ 2000)
    (h : (httpParseRequest (Parse.start (protocolExample n hn).mem)
      (protocolExample n hn).received).toOption.map (fun r => r.1) = some 1) :
    ∃ t, httpParseRequest (Parse.start (protocolExample n hn).mem) (protocolExample n hn).received =
      .ok (1, t) := by
  obtain ⟨⟨ret, t⟩, ht, rfl⟩ := exists_of_map_toOption h
  exact ⟨t, ht⟩

theorem httpComposeResponse_fits_short :
    ∃ t, httpParseRequest (Parse.start (protocolExample 4 (by decide)).mem)
        (protocolExample 4 (by decide)).received = .ok (1, t) ∧
      (NoFormat (httpComposeResponse (fun _ => none) t.mem t.req responseExample
          responseExample.str) ↔
        (protocolText (protocolExample 4 (by decide)).bytes).length +
          (decimal (if responseExample.status ≠ 0 then responseExample.status else 200)).length ≤
            1018) := by
  obtain ⟨t, ht⟩ := exists_protocolExample 4 (by decide) (by decide +kernel)
  exact ⟨t, ht, httpComposeResponse_fits_iff _ t ht _ responseExample_fits _ _⟩

theorem httpComposeResponse_overruns :
    ∃ t, httpParseRequest (Parse.start (protocolExample 1012 (by decide)).mem)
        (protocolExample 1012 (by decide)).received = .ok (1, t) ∧
      responseExample.HeadersFit ∧
      httpComposeResponse (fun _ => none) t.mem t.req responseExample responseExample.str =
        .error (.format 1025 1024) := by
  obtain ⟨⟨ret, t⟩, ht, hview⟩ := exists_of_map_toOption
    (x := httpParseRequest (Parse.start (protocolExample 1012 (by decide)).mem)
      (protocolExample 1012 (by decide)).received)
    (f := fun r => (r.1, r.2.req.protocol.map fun p => (statusLine (cString r.2.mem p) 0).length))
    (b := (1, some 1024)) (by decide +kernel)
  obtain ⟨rfl, hprotocol⟩ := Prod.mk.inj hview
  obtain ⟨protocol, hreq, hlength⟩ := Option.map_eq_some_iff.mp hprotocol
  have hoverrun : httpComposeResponse (fun _ => none) t.mem t.req responseExample
      responseExample.str = _ := httpComposeResponse_overrun hreq (Nat.le_of_eq hlength.symm)
  refine ⟨t, ht, responseExample_fits, hoverrun.trans ?_⟩
  exact congrArg (fun n => Except.error (Fault.format (n + 1) 1024)) hlength

end L4Server
