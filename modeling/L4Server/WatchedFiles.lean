import L4Server.PipedLoop
import L4Server.ResponseRoundTrip

/-!
Responses whose body is a file that goes through the pipe. Only the head is
composed, with the length of the file in it. The client reads the file as the body
of its response where the splices bring it whole.
-/
namespace L4Server
open CMemory PrintedText Automaton

/-! The head. -/

/-- The lines of a response up to the empty one, which announce `n` bytes. -/
def headText (protocol : List UInt8) (status : Int) (ps : List (KvPair CText)) (n : Nat) :
    List UInt8 :=
  (responseLines protocol status ps n).flatMap (· ++ [lf]) ++ [lf]

variable {mem : List UInt8} {req : HttpRequest} {res : HttpResponse} {final : StringT}
  {protocol : List UInt8} {ps : List (KvPair CText)}

theorem headText_eq (protocol : List UInt8) (ps : List (KvPair CText)) (res : HttpResponse)
    (h : res.fileSz < 2 ^ 63) :
    headText protocol res.shown ps res.fileSz =
      statusLine protocol res.status ++ ps.flatMap headerLine ++ contentLength res.fileSz ++
        [lf] := by
  have hheaders : (ps.map headerText).flatMap (· ++ [lf]) = ps.flatMap headerLine := by
    rw [List.flatMap_map]
    rfl
  simp [headText, responseLines, statusLine_eq, contentLength_eq h, hheaders]

theorem headText_append (protocol : List UInt8) (status : Int) (ps : List (KvPair CText))
    (body : List UInt8) :
    headText protocol status ps body.length ++ body = responseText protocol status ps body := by
  simp [headText, responseText]

/-- A head and a body behind it are read as a response if the body is as long as
announced, and else not. -/
theorem readResponse_headText (h : Readable protocol ps) (status : Int) (n : Nat)
    (body : List UInt8) :
    readResponse (headText protocol status ps n ++ body) =
      if body.length = n then some ⟨status, ps.map headerPair, body⟩ else none := by
  split
  · next hlength =>
    rw [← hlength, headText_append]
    exact readResponse_responseText h status body
  · next hlength =>
    have hsplit := splitHead_lines (h.lines status n) body
    have hbytes : headText protocol status ps n ++ body =
        (responseLines protocol status ps n).flatMap (· ++ [lf]) ++ lf :: body := by
      simp [headText]
    have hname : ascii "Content-Length: " = ascii "Content-Length" ++ ascii ": " := by decide
    have hlast : readHeader (lengthText n) = (ascii "Content-Length", decimal n) := by
      rw [lengthText, hname]
      exact readHeader_append (by decide)
    have hannounced : readFields ((ps.map headerText ++ [lengthText n]).map readHeader) body =
        none := by
      have hne : ¬ (n : Int) = body.length := by omega
      simp [readFields, List.getLast?_append, hlast, readInt_decimal, hne]
    unfold readResponse
    rw [hbytes, hsplit]
    simp only [responseLines, readStatus_statusText, hannounced]
    rfl

/-! What the composer makes of it. -/

/-- What a head is composed from: as for a whole response, but for the body, which is
an open file. -/
structure Announced (mem : List UInt8) (req : HttpRequest) (res : HttpResponse) (final : StringT)
    (protocol : List UInt8) (ps : List (KvPair CText)) : Prop where
  parsed : req.protocol.map (cString mem) = some protocol
  status_fits : (statusLine protocol res.status).length < 1024
  headers : ∃ realloc buf, buf.length = 20 ∧ res.headers = kvSetAll realloc (kvInitWithBuf buf) ps
  headers_fit : ∀ p ∈ ps, (headerLine p).length < 1024
  unmapped : res.file = none
  opened : res.fileFd ≠ 0
  measured : res.fileSz < 2 ^ 63
  empty : final = .empty final.capacity
  object : final.capacity < 2 ^ 63
  room : (headText protocol res.shown (ps.take 20) res.fileSz).length < final.capacity

theorem Announced.stored (h : Announced mem req res final protocol ps) :
    res.headers.stored = (ps.take 20).map some := by
  obtain ⟨realloc, buf, hlength, hheaders⟩ := h.headers
  rw [hheaders, kvSetAll_stored hlength]

/-- What a send reads of the string. -/
theorem Compose.Printed.readBlock_eq {c : Compose} {capacity : Nat} {text : List UInt8}
    (h : c.Printed capacity text) (behind : List UInt8) :
    readBlock c.final.buf behind c.final.len = text := by
  obtain ⟨rest, hholds⟩ := h.holds
  rw [readBlock, hholds.buf, h.len, List.append_assoc, List.append_assoc, List.take_left]

/-- The string in which it is composed is empty at first. -/
theorem Announced.start (h : Announced mem req res final protocol ps) :
    Compose.Printed ⟨final, List.replicate 1024 0, 0⟩ final.capacity [] := by
  have hpos : 0 < final.capacity := Nat.zero_lt_of_lt h.room
  rw [h.empty]
  exact ⟨⟨_, StringT.empty_holds hpos⟩, rfl, rfl, List.length_replicate⟩

theorem Announced.zero_notMem (h : Announced mem req res final protocol ps) :
    0 ∉ statusLine protocol res.status := by
  obtain ⟨p, -, hprotocol⟩ := Option.map_eq_some_iff.mp h.parsed
  have hdecimal : (0 : UInt8) ∉ decimal (if res.status ≠ 0 then res.status else 200) :=
    notMem_decimal (by decide) (.inl (by decide)) _
  rw [← hprotocol]
  simp only [statusLine, List.mem_append, List.mem_cons, zero_notMem_cString, hdecimal, false_or]
  decide

/-- The head is composed, and sent as composed. -/
theorem httpComposeResponse_announces (h : Announced mem req res final protocol ps)
    (grow : Nat → Option (List UInt8)) :
    ∃ fresstr, httpComposeResponse grow mem req res final = .ok (true, fresstr) ∧
      ∀ behind, readBlock fresstr.buf behind fresstr.len =
        headText protocol res.shown (ps.take 20) res.fileSz := by
  obtain ⟨p, hreq, hprotocol⟩ := Option.map_eq_some_iff.mp h.parsed
  have hcapacity : final.capacity ≤ 2 ^ 64 := by have := h.object; omega
  have hroom := h.room
  rw [headText_eq _ _ _ h.measured] at hroom ⊢
  have hlengths := hroom
  simp only [List.length_append] at hlengths
  obtain ⟨c₁, h₁, hp₁⟩ := h.start.line grow hcapacity h.zero_notMem h.status_fits (by
    rw [List.nil_append]
    omega)
  have hfit : ∀ q ∈ ps.take 20, (headerLine q).length < 1024 :=
    fun q hq => h.headers_fit q (List.mem_of_mem_take hq)
  obtain ⟨c₂, h₂, hp₂⟩ := composeHeaders_printed grow hp₁ hcapacity hfit (by
    simp only [List.nil_append, List.length_append]
    omega)
  obtain ⟨c₃, h₃, hp₃⟩ := hp₂.line grow hcapacity (zero_notMem_contentLength res.fileSz)
    (contentLength_length res.fileSz) (by
      simp only [List.nil_append, List.length_append]
      omega)
  have hlf : (0 : UInt8) ∉ [lf] := by decide
  obtain ⟨c₄, h₄, hp₄⟩ := hp₃.append grow hcapacity [0] hlf (by
    simpa only [List.nil_append] using hroom)
  have hbody : composeBody grow res c₂ = .ok c₄ := by
    unfold composeBody
    rw [h.unmapped]
    simp only [if_pos h.opened]
    exact bind_eq_ok.mpr ⟨c₃, h₃, h₄⟩
  refine ⟨c₄.final, ?_, fun behind => ?_⟩
  · unfold httpComposeResponse
    rw [hreq]
    simp only [hprotocol, h.stored]
    exact bind_eq_ok.mpr ⟨c₁, h₁, bind_eq_ok.mpr ⟨c₂, h₂, bind_eq_ok.mpr ⟨c₄, hbody, rfl⟩⟩⟩
  · rw [hp₄.readBlock_eq, List.nil_append]

/-- The response of a static route in the build that watches its files. -/
def StaticFiles.watched {π : Type} (files : StaticFiles π) (filepath : π) (junk : Uninitialised)
    (data : Option (List UInt8)) (str : StringT) : HttpResponse :=
  (globalStaticRouter true (files.calls filepath) junk data (.cleared str)).2.1

/-- The one header of a static route. -/
def StaticFiles.headers {π : Type} (files : StaticFiles π) (filepath : π) : List (KvPair CText) :=
  [⟨contentType, files.mime (files.contents filepath)⟩]

/-- A file whose head fits where it is composed, behind a descriptor that is not taken
for none. -/
structure StaticFiles.Fits {π : Type} (files : StaticFiles π) (filepath : π)
    (protocol : List UInt8) : Prop where
  status : (statusLine protocol 200).length < 1024
  mime : ∀ p ∈ files.headers filepath, (headerLine p).length < 1024
  opened : files.fd filepath ≠ 0
  measured : (files.contents filepath).length < 2 ^ 63

variable {π : Type} {files : StaticFiles π} {filepath : π}

theorem StaticFiles.Fits.room (h : files.Fits filepath protocol) :
    (headText protocol 200 (files.headers filepath) (files.contents filepath).length).length <
      2 ^ 20 := by
  have hmime := h.mime _ List.mem_cons_self
  have hstatus := h.status
  have hlength := contentLength_length (files.contents filepath).length
  have htext : headText protocol 200 (files.headers filepath) (files.contents filepath).length =
      statusLine protocol 200 ++ (files.headers filepath).flatMap headerLine ++
        contentLength (files.contents filepath).length ++ [lf] :=
    headText_eq _ _ (files.watched filepath ⟨0, contentType⟩ none (.empty 64)) h.measured
  rw [htext]
  simp only [StaticFiles.headers, List.flatMap_cons, List.flatMap_nil, List.length_append,
    List.length_nil, List.length_singleton]
  omega

/-- The head of a file is composed in the final string of a fresh connection. -/
theorem StaticFiles.Fits.announced (h : files.Fits filepath protocol) (junk : Uninitialised)
    (data : Option (List UInt8)) (str : StringT)
    (hparsed : req.protocol.map (cString mem) = some protocol) :
    Announced mem req (files.watched filepath junk data str) (.empty (2 ^ 20)) protocol
      (files.headers filepath) where
  parsed := hparsed
  status_fits := h.status
  headers := ⟨true, _, List.length_replicate, rfl⟩
  headers_fit := h.mime
  unmapped := rfl
  opened := h.opened
  measured := h.measured
  empty := rfl
  object := (by decide : 2 ^ 20 < 2 ^ 63)
  room := h.room

/-! What the sockets are given. -/

/-- The text that a chain has yet to send. -/
def unsent : List Sqe → List UInt8
  | [] => []
  | sqe :: _ =>
      match sqe.op with
      | .send _ data _ => data
      | _ => []

variable {cfg : Config} {files : Int → List UInt8} {s t : PipeState}

/-- What an entry writes and what its client is given, when it is carried out whole. -/
theorem Serving.written {fd : Nat} {file delivered pipe pipe' bytes : List UInt8} {sqe : Sqe}
    {rest : List Sqe} (h : Serving cfg files fd file (sqe :: rest) delivered)
    (htransfer : sqe.op.transfer cfg files pipe sqe.op.asked = some (pipe', bytes)) :
    sqe.op.written cfg pipe sqe.op.asked ++ unsent rest = unsent (sqe :: rest) ++ bytes := by
  cases h with
  | head hsend hfill _ =>
      obtain ⟨fd, text, more, hop⟩ := hsend
      obtain ⟨fdIn, hfill, -, -⟩ := hfill
      rw [hop] at htransfer
      cases htransfer
      simp [hop, hfill, Op.written, Op.asked, unsent]
  | filling hfill hdrain =>
      obtain ⟨fdIn, hop, -, -⟩ := hfill
      simp only [hop, Op.transfer, if_true] at htransfer
      split at htransfer
      · cases htransfer
        simp [hop, hdrain.1, Op.written, unsent]
      · cases htransfer
  | draining hdrain =>
      obtain ⟨hop, hne⟩ := hdrain
      simp only [hop, Op.transfer, if_neg hne, if_true] at htransfer
      split at htransfer
      · cases htransfer
        simp [hop, hne, Op.written, Op.asked, unsent]
      · cases htransfer

end L4Server
