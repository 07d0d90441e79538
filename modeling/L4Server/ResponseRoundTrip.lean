import L4Server.Response
import L4Server.StringRuns
import L4Server.Library.PrintedText

/-!
Responses written out and read back. A response without NULs that fits its
string is composed of lines, of which the first empty one stands in front of the
body, so that a reader of lines recovers it.
-/
namespace L4Server
open CMemory PrintedText

/-! Texts. -/

/-- The first `len` bytes of a string. -/
def StringT.text (str : StringT) : List UInt8 := str.buf.take str.len

def lf : UInt8 := '\n'.toUInt8

/-- The status line without its LF, for the status it shows. -/
def statusText (protocol : List UInt8) (status : Int) : List UInt8 :=
  protocol ++ ' '.toUInt8 :: (decimal status ++ ascii " OK")

/-- The status a response shows. -/
def HttpResponse.shown (res : HttpResponse) : Int := if res.status ≠ 0 then res.status else 200

def headerText (p : KvPair CText) : List UInt8 := p.key.bytes ++ ascii ": " ++ p.value.bytes

def lengthText (n : Nat) : List UInt8 := ascii "Content-Length: " ++ decimal n

/-- The lines in front of the empty one. -/
def responseLines (protocol : List UInt8) (status : Int) (ps : List (KvPair CText)) (n : Nat) :
    List (List UInt8) :=
  statusText protocol status :: (ps.map headerText ++ [lengthText n])

def responseText (protocol : List UInt8) (status : Int) (ps : List (KvPair CText))
    (body : List UInt8) : List UInt8 :=
  (responseLines protocol status ps body.length).flatMap (· ++ [lf]) ++ lf :: body

theorem statusLine_eq (protocol : List UInt8) (res : HttpResponse) :
    statusLine protocol res.status = statusText protocol res.shown ++ [lf] := by
  have hok : ascii " OK\n" = ascii " OK" ++ [lf] := by decide
  simp [statusLine, statusText, HttpResponse.shown, hok]

theorem contentLength_eq {n : Nat} (h : n < 2 ^ 63) : contentLength n = lengthText n ++ [lf] := by
  have hlong : signedLong n = n := by
    unfold signedLong
    exact Int.bmod_eq_of_le (by omega) (by omega)
  simp only [contentLength, lengthText, hlong]
  rfl

/-! What the composer appends. -/

/-- The final string holds `text` in a block of `capacity` bytes. -/
structure Compose.Printed (c : Compose) (capacity : Nat) (text : List UInt8) : Prop where
  holds : ∃ rest, c.final.Holds text rest
  capacity : c.final.capacity = capacity
  len : c.final.len = text.length
  tmp : c.tmp.length = 1024

variable (grow : Nat → Option (List UInt8)) {c : Compose} {capacity : Nat} {text : List UInt8}

theorem Compose.Printed.append (h : c.Printed capacity text) (hcapacity : capacity ≤ 2 ^ 64)
    {slice : List UInt8} (behind : List UInt8) (hzero : 0 ∉ slice)
    (hroom : (text ++ slice).length < capacity) :
    ∃ d, c.append grow (slice ++ behind) slice.length = .ok d ∧
      d.Printed capacity (text ++ slice) := by
  obtain ⟨rest, hholds⟩ := h.holds
  have htake : ((slice ++ behind).take slice.length).takeWhile (· != 0) = slice := by
    rw [List.take_left, List.takeWhile_eq_self_iff]
    intro b hb
    simpa using fun h0 : b = 0 => hzero (h0 ▸ hb)
  rw [List.length_append] at hroom
  obtain ⟨t, ht, hkeep, hlen, hprinted⟩ := hholds.append_kept (grow c.appends)
    (by rw [h.capacity]; exact hcapacity)
    (show c.final.len + slice.length < _ by rw [h.capacity, h.len]; exact hroom)
    (show slice.length ≤ (slice ++ behind).length by simp)
  rw [htake] at hprinted
  refine ⟨_, bind_eq_ok.mpr ⟨_, ht, rfl⟩, ⟨_, hprinted⟩, hkeep.trans h.capacity, ?_, h.tmp⟩
  rw [hlen, h.len, List.length_append]

theorem Compose.Printed.line (h : c.Printed capacity text) (hcapacity : capacity ≤ 2 ^ 64)
    {line : List UInt8} (hzero : 0 ∉ line) (hline : line.length < 1024)
    (hroom : (text ++ line).length < capacity) :
    ∃ d, c.line grow line = .ok d ∧ d.Printed capacity (text ++ line) := by
  have hfits : sprintf c.tmp line = .ok (line ++ 0 :: c.tmp.drop (line.length + 1)) :=
    sprintf_of_fits (by rw [h.tmp]; exact hline)
  have htmp := (sprintf_length hfits).trans h.tmp
  have htext := cString_eq [] (c.tmp.drop (line.length + 1)) (p := 0) rfl rfl hzero
  have hstart : Compose.Printed { c with tmp := line ++ 0 :: c.tmp.drop (line.length + 1) }
      capacity text := ⟨h.holds, h.capacity, h.len, htmp⟩
  obtain ⟨d, hd, hprinted⟩ := hstart.append grow hcapacity _ hzero hroom
  refine ⟨d, ?_, hprinted⟩
  unfold Compose.line
  rw [hfits]
  simp only [bind, Except.bind]
  rw [List.nil_append] at htext
  rw [htext]
  exact hd

theorem composeHeaders_printed {ps : List (KvPair CText)} (h : c.Printed capacity text)
    (hcapacity : capacity ≤ 2 ^ 64) (hlines : ∀ p ∈ ps, (headerLine p).length < 1024)
    (hroom : (text ++ ps.flatMap headerLine).length < capacity) :
    ∃ d, composeHeaders grow (ps.map some) c = .ok d ∧
      d.Printed capacity (text ++ ps.flatMap headerLine) := by
  induction ps generalizing c text with
  | nil => exact ⟨c, rfl, by simpa using h⟩
  | cons p ps ih =>
      have hzero : 0 ∉ headerLine p := by
        simp [headerLine, p.key.zero_notMem, p.value.zero_notMem]
        decide
      rw [List.flatMap_cons, ← List.append_assoc] at hroom ⊢
      obtain ⟨d, hd, hprinted⟩ := h.line grow hcapacity hzero (hlines p (by simp))
        (by rw [List.length_append] at hroom; omega)
      obtain ⟨e, he, hrest⟩ := ih hprinted (fun q hq => hlines q (by simp [hq])) hroom
      exact ⟨e, bind_eq_ok.mpr ⟨d, hd, he⟩, hrest⟩

/-- Where a response holds its body: in a file that has been mapped, or in its
string. -/
inductive HttpResponse.Body (res : HttpResponse) (body : List UInt8) : Prop
  | file {behind : List UInt8} : res.file = some (body ++ behind) → res.fileSz = body.length →
      res.Body body
  | str {behind : List UInt8} : res.file = none → res.fileFd = 0 → res.str.buf = body ++ behind →
      res.str.len = body.length → res.Body body

theorem composeBody_eq {res : HttpResponse} {body : List UInt8} (h : res.Body body) :
    ∃ behind, composeBody grow res c = (do
      let c ← c.line grow (contentLength body.length)
      let c ← c.append grow (ascii "\n" ++ [0]) 1
      c.append grow (body ++ behind) body.length) := by
  unfold composeBody
  cases h with
  | @file behind hfile hsz => exact ⟨behind, by rw [hfile, ← hsz]⟩
  | @str behind hfile hfd hbuf hlen =>
      refine ⟨behind, ?_⟩
      rw [hfile]
      simp only [hfd, hbuf, hlen, ne_eq, not_true_eq_false, if_false]

theorem zero_notMem_contentLength (n : Nat) : 0 ∉ contentLength n := by
  have hdecimal : (0 : UInt8) ∉ decimal (signedLong n) :=
    notMem_decimal (by decide) (.inl (by decide)) _
  simp only [contentLength, List.mem_append, hdecimal, or_false, not_or]
  decide

theorem composeBody_printed {res : HttpResponse} {body : List UInt8} (h : c.Printed capacity text)
    (hcapacity : capacity ≤ 2 ^ 64) (hbody : res.Body body) (hzero : 0 ∉ body)
    (hroom : (text ++ contentLength body.length ++ [lf] ++ body).length < capacity) :
    ∃ d, composeBody grow res c = .ok d ∧
      d.Printed capacity (text ++ contentLength body.length ++ [lf] ++ body) := by
  obtain ⟨behind, heq⟩ := @composeBody_eq grow c res body hbody
  have hshorter : (text ++ contentLength body.length ++ [lf]).length < capacity := by
    rw [List.length_append] at hroom
    omega
  obtain ⟨c₁, h₁, hp₁⟩ := h.line grow hcapacity (zero_notMem_contentLength _)
    (contentLength_length body.length) (by rw [List.length_append] at hshorter; omega)
  obtain ⟨c₂, h₂, hp₂⟩ := hp₁.append grow hcapacity [0] (by decide) hshorter
  obtain ⟨c₃, h₃, hp₃⟩ := hp₂.append grow hcapacity behind hzero hroom
  exact ⟨c₃, heq.trans (bind_eq_ok.mpr ⟨c₁, h₁, bind_eq_ok.mpr ⟨c₂, h₂, h₃⟩⟩), hp₃⟩

/-- What a response is composed from: a protocol text whose line fits the line
buffer, headers set one after the other on a fresh list of 20, a body without
NULs, and an empty string with room for all of it. No object is larger than
2^63 - 1 bytes. -/
structure Composed (mem : List UInt8) (req : HttpRequest) (res : HttpResponse) (final : StringT)
    (protocol : List UInt8) (ps : List (KvPair CText)) (body : List UInt8) : Prop where
  parsed : req.protocol.map (cString mem) = some protocol
  status_fits : (statusLine protocol res.status).length < 1024
  headers : ∃ realloc buf, buf.length = 20 ∧ res.headers = kvSetAll realloc (kvInitWithBuf buf) ps
  headers_fit : ∀ p ∈ ps, (headerLine p).length < 1024
  held : res.Body body
  body_zero : 0 ∉ body
  empty : final = .empty final.capacity
  object : final.capacity < 2 ^ 63
  room : (responseText protocol res.shown (ps.take 20) body).length < final.capacity

variable {mem : List UInt8} {req : HttpRequest} {res : HttpResponse} {final : StringT}
  {protocol : List UInt8} {ps : List (KvPair CText)} {body : List UInt8}

/-- An array of 20 pairs keeps the first 20 that are set. -/
theorem kvSetAll_stored {realloc : Bool} {buf : List (Option (KvPair CText))}
    (hlength : buf.length = 20) :
    (kvSetAll realloc (kvInitWithBuf buf) ps).stored = (ps.take 20).map some := by
  rw [(kvSetAll_provided realloc ps (kvInitWithBuf buf) rfl).1, kvInitWithBuf_stored,
    List.nil_append, show (kvInitWithBuf buf).capacity = 20 from hlength, List.map_take]

theorem Composed.stored (h : Composed mem req res final protocol ps body) :
    res.headers.stored = (ps.take 20).map some := by
  obtain ⟨realloc, buf, hlength, hheaders⟩ := h.headers
  rw [hheaders, kvSetAll_stored hlength]

theorem responseText_eq (h : body.length < 2 ^ 63) :
    responseText protocol res.shown ps body =
      statusLine protocol res.status ++ ps.flatMap headerLine ++ contentLength body.length ++ [lf] ++
        body := by
  have hheaders : (ps.map headerText).flatMap (· ++ [lf]) = ps.flatMap headerLine := by
    rw [List.flatMap_map]
    rfl
  simp [responseText, responseLines, statusLine_eq, contentLength_eq h, hheaders]

theorem httpComposeResponse_printed (h : Composed mem req res final protocol ps body) :
    ∃ final', httpComposeResponse grow mem req res final = .ok (true, final') ∧
      final'.text = responseText protocol res.shown (ps.take 20) body := by
  obtain ⟨p, hreq, hprotocol⟩ := Option.map_eq_some_iff.mp h.parsed
  have hcapacity : final.capacity ≤ 2 ^ 64 := by have := h.object; omega
  have hroom := h.room
  have hbody : body.length < 2 ^ 63 := by
    have hle : body.length ≤ (responseText protocol res.shown (ps.take 20) body).length := by
      simp [responseText]
      omega
    have := h.object
    omega
  rw [responseText_eq hbody] at hroom ⊢
  have hstart : Compose.Printed ⟨final, List.replicate 1024 0, 0⟩ final.capacity [] := by
    refine ⟨⟨List.replicate (final.capacity - 1) 0, ?_⟩, rfl, ?_, List.length_replicate⟩
    · rw [h.empty]
      exact StringT.empty_holds (by omega)
    · rw [h.empty]
      rfl
  have hzero : 0 ∉ statusLine protocol res.status := by
    have hdecimal : (0 : UInt8) ∉ decimal (if res.status ≠ 0 then res.status else 200) :=
      notMem_decimal (by decide) (.inl (by decide)) _
    rw [← hprotocol]
    simp only [statusLine, List.mem_append, List.mem_cons, zero_notMem_cString, hdecimal, false_or]
    decide
  have hshorter : (statusLine protocol res.status ++ (ps.take 20).flatMap headerLine).length <
      final.capacity := by
    simp only [List.length_append] at hroom ⊢
    omega
  obtain ⟨c₁, h₁, hp₁⟩ := hstart.line grow hcapacity hzero h.status_fits (by
    simp only [List.length_append, List.length_nil] at hshorter ⊢
    omega)
  obtain ⟨c₂, h₂, hp₂⟩ := composeHeaders_printed grow hp₁ hcapacity
    (fun q hq => h.headers_fit q (List.mem_of_mem_take hq)) hshorter
  obtain ⟨c₃, h₃, hp₃⟩ := composeBody_printed grow hp₂ hcapacity h.held h.body_zero hroom
  refine ⟨c₃.final, ?_, ?_⟩
  · unfold httpComposeResponse
    rw [hreq]
    simp only [hprotocol, h.stored]
    exact bind_eq_ok.mpr ⟨c₁, h₁, bind_eq_ok.mpr ⟨c₂, h₂, bind_eq_ok.mpr ⟨c₃, h₃, rfl⟩⟩⟩
  · obtain ⟨rest, hholds⟩ := hp₃.holds
    rw [StringT.text, hholds.buf, hp₃.len, List.take_left]
    rfl

/-! Reading. -/

/-- What a client makes of a response. -/
structure Message where
  status : Int
  headers : List TextPair
  body : List UInt8
  deriving DecidableEq

/-- The number between the last space in front of `OK` and it. -/
def readStatus (line : List UInt8) : Option Int :=
  if ascii " OK" <:+ line then
    readInt ((line.reverse.drop (ascii " OK").length).takeWhile (· != ' '.toUInt8)).reverse
  else none

/-- What stands before the first colon, and behind it and a space. -/
def readHeader (line : List UInt8) : TextPair :=
  (line.takeWhile (· != ':'.toUInt8), (line.dropWhile (· != ':'.toUInt8)).drop 2)

/-- The last header announces the length of the body. -/
def readFields (fields : List TextPair) (body : List UInt8) : Option (List TextPair) :=
  match fields.getLast? with
  | none => none
  | some (name, value) =>
      if name = ascii "Content-Length" ∧ readInt value = some (body.length : Int) then
        some fields.dropLast
      else none

/-- A reader that splits at LF up to the first empty line. -/
def readResponse (bytes : List UInt8) : Option Message :=
  match splitHead lf [] bytes with
  | some (line :: lines, body) => do
      let status ← readStatus line
      let headers ← readFields (lines.map readHeader) body
      return ⟨status, headers, body⟩
  | _ => none

theorem readStatus_statusText (protocol : List UInt8) (status : Int) :
    readStatus (statusText protocol status) = some status := by
  have hspace : ∀ b ∈ (decimal status).reverse, (b != ' '.toUInt8) = true := by
    intro b hb
    simpa using fun heq : b = ' '.toUInt8 =>
      notMem_decimal (by decide) (.inl (by decide)) status (heq ▸ List.mem_reverse.mp hb)
  have hsplit : statusText protocol status =
      (protocol ++ ' '.toUInt8 :: decimal status) ++ ascii " OK" := by
    simp [statusText]
  have hreverse : (statusText protocol status).reverse =
      (ascii " OK").reverse ++ ((decimal status).reverse ++ ' '.toUInt8 :: protocol.reverse) := by
    simp [hsplit]
  have hdrop : (statusText protocol status).reverse.drop (ascii " OK").length =
      (decimal status).reverse ++ ' '.toUInt8 :: protocol.reverse := by
    rw [hreverse, ← List.length_reverse, List.drop_left]
  unfold readStatus
  rw [if_pos ⟨_, hsplit.symm⟩, hdrop, List.takeWhile_append_of_pos hspace,
    List.takeWhile_cons_of_neg (by simp), List.append_nil, List.reverse_reverse, readInt_decimal]

theorem readHeader_append {key value : List UInt8} (h : ':'.toUInt8 ∉ key) :
    readHeader (key ++ ascii ": " ++ value) = (key, value) := by
  have hkey : ∀ b ∈ key, (b != ':'.toUInt8) = true := by
    intro b hb
    simpa using fun heq : b = ':'.toUInt8 => h (heq ▸ hb)
  have hcolon : ascii ": " = [':'.toUInt8, ' '.toUInt8] := by decide
  simp only [readHeader, hcolon, List.append_assoc, List.takeWhile_append_of_pos hkey,
    List.dropWhile_append_of_pos hkey]
  simp

/-- The key and the value of a pair. -/
def headerPair (p : KvPair CText) : TextPair := (p.key.bytes, p.value.bytes)

theorem readFields_responseLines (hkeys : ∀ p ∈ ps, ':'.toUInt8 ∉ p.key.bytes) :
    readFields ((ps.map headerText ++ [lengthText body.length]).map readHeader) body =
      some (ps.map headerPair) := by
  have hheaders : (ps.map headerText).map readHeader = ps.map headerPair := by
    rw [List.map_map]
    exact List.map_congr_left fun p hp => readHeader_append (hkeys p hp)
  have hname : ascii "Content-Length: " = ascii "Content-Length" ++ ascii ": " := by decide
  have hlength : readHeader (lengthText body.length) =
      (ascii "Content-Length", decimal body.length) := by
    rw [lengthText, hname]
    exact readHeader_append (by decide)
  rw [List.map_append, hheaders, List.map_singleton, hlength]
  simp only [readFields, List.getLast?_concat, readInt_decimal, and_self, if_true,
    List.dropLast_concat]

/-- No LF but those at the ends of the lines, and no colon in a key. -/
structure Readable (protocol : List UInt8) (ps : List (KvPair CText)) : Prop where
  protocol_lf : lf ∉ protocol
  key_colon : ∀ p ∈ ps, ':'.toUInt8 ∉ p.key.bytes
  key_lf : ∀ p ∈ ps, lf ∉ p.key.bytes
  value_lf : ∀ p ∈ ps, lf ∉ p.value.bytes

theorem lf_notMem_decimal (i : Int) : lf ∉ decimal i :=
  notMem_decimal (by decide) (.inl (by decide)) i

theorem Readable.lines (h : Readable protocol ps) (status : Int) (n : Nat) :
    ∀ line ∈ responseLines protocol status ps n, line ≠ [] ∧ lf ∉ line := by
  have hok : lf ∉ ascii " OK" := by decide
  have hcolon : lf ∉ ascii ": " := by decide
  have hname : lf ∉ ascii "Content-Length: " := by decide
  have hspace : lf ≠ ' '.toUInt8 := by decide
  intro line hline
  simp only [responseLines, List.mem_cons, List.mem_append, List.not_mem_nil, or_false] at hline
  rcases hline with rfl | hheader | rfl
  · refine ⟨by simp [statusText], ?_⟩
    simp [statusText, h.protocol_lf, hspace, lf_notMem_decimal, hok]
  · obtain ⟨p, hp, rfl⟩ := List.mem_map.mp hheader
    refine ⟨by simp [headerText, ascii], ?_⟩
    simp [headerText, h.key_lf p hp, h.value_lf p hp, hcolon]
  · refine ⟨by simp [lengthText, ascii], ?_⟩
    simp [lengthText, lf_notMem_decimal, hname]

theorem readResponse_responseText (h : Readable protocol ps) (status : Int) (body : List UInt8) :
    readResponse (responseText protocol status ps body) =
      some ⟨status, ps.map headerPair, body⟩ := by
  have hsplit := splitHead_lines (h.lines status body.length) body
  unfold readResponse responseText
  rw [hsplit]
  simp only [responseLines, readStatus_statusText, readFields_responseLines h.key_colon]
  rfl

theorem Readable.take (h : Readable protocol ps) (n : Nat) : Readable protocol (ps.take n) where
  protocol_lf := h.protocol_lf
  key_colon := fun p hp => h.key_colon p (List.mem_of_mem_take hp)
  key_lf := fun p hp => h.key_lf p (List.mem_of_mem_take hp)
  value_lf := fun p hp => h.value_lf p (List.mem_of_mem_take hp)

/-- A response is composed as written, and read back. -/
theorem httpComposeResponse_reads_back (grow : Nat → Option (List UInt8)) (mem : List UInt8)
    (req : HttpRequest) (res : HttpResponse) (final : StringT) (protocol : List UInt8)
    (ps : List (KvPair CText)) (body : List UInt8)
    (h : Composed mem req res final protocol ps body) (hr : Readable protocol ps) :
    ∃ final', httpComposeResponse grow mem req res final = .ok (true, final') ∧
      final'.text = responseText protocol res.shown (ps.take 20) body ∧
      readResponse final'.text = some ⟨res.shown, (ps.take 20).map headerPair, body⟩ := by
  obtain ⟨final', hcompose, htext⟩ := httpComposeResponse_printed grow h
  refine ⟨final', hcompose, htext, ?_⟩
  rw [htext]
  exact readResponse_responseText (hr.take 20) res.shown body

def greetingHeaders : List (KvPair CText) :=
  [⟨⟨ascii "Server", by decide⟩, ⟨ascii "l4", by decide⟩⟩]

/-- A response of one header and the body `hi`. -/
def greeting : HttpResponse :=
  { HttpResponse.cleared ⟨64, 2, ascii "hi" ++ List.replicate 62 0, by decide⟩ with
    headers := kvSetAll true (kvInitWithBuf (List.replicate 20 none)) greetingHeaders }

def greetingRequest : HttpRequest := { HttpRequest.cleared with protocol := some 0 }

theorem greeting_composed :
    Composed (ascii "HTTP/1.1" ++ [0]) greetingRequest greeting (.empty 1024) (ascii "HTTP/1.1")
      greetingHeaders (ascii "hi") where
  parsed := by decide +kernel
  status_fits := by decide +kernel
  headers := ⟨true, List.replicate 20 none, rfl, rfl⟩
  headers_fit := by decide +kernel
  held := @HttpResponse.Body.str greeting (ascii "hi") (List.replicate 62 0) rfl rfl rfl (by decide)
  body_zero := by decide
  empty := rfl
  object := by decide +kernel
  room := by decide +kernel

theorem httpComposeResponse_reads_greeting :
    ∃ final', httpComposeResponse (fun _ => none) (ascii "HTTP/1.1" ++ [0]) greetingRequest greeting
        (.empty 1024) = .ok (true, final') ∧
      final'.text = responseText (ascii "HTTP/1.1") greeting.shown (greetingHeaders.take 20)
        (ascii "hi") ∧
      readResponse final'.text =
        some ⟨greeting.shown, (greetingHeaders.take 20).map headerPair, ascii "hi"⟩ :=
  httpComposeResponse_reads_back _ _ _ _ _ _ _ _ greeting_composed
    ⟨by decide, by decide, by decide, by decide⟩

end L4Server
