import L4Server.RequestRoundTrip

/-!
What the parser asks of a request. Of the method it compares four bytes and
passes over as many as the table says, it takes any number of spaces, and it
does not look at the byte behind the CR; the rest of the grammar is enforced.
-/
namespace L4Server
open CMemory

theorem TargetView.path_eq {t t' path : List UInt8} {ps : List TextPair}
    (h : TargetView t t' path ps) : path = t.takeWhile (· != '?'.toUInt8) := by
  have hfree {bytes : List UInt8} (h : '?'.toUInt8 ∉ bytes) :
      ∀ c ∈ bytes, (c != '?'.toUInt8) = true := by
    intro c hc
    simpa using fun heq : c = '?'.toUInt8 => h (heq ▸ hc)
  cases h with
  | plain hnone => exact (List.takeWhile_eq_self_iff.mpr (hfree hnone)).symm
  | query hpath _ =>
      rw [List.takeWhile_append_of_pos (hfree hpath), List.takeWhile_cons_of_neg (by simp),
        List.append_nil]

/-- The target and the protocol of a request line, and what `req->path` is. -/
structure LineParts (t : Parse) (target protocol : List UInt8) : Prop where
  target_slash : target.head? = some '/'.toUInt8
  target_space : ' '.toUInt8 ∉ target
  protocol_http : protocol.take 4 = ascii "HTTP"
  protocol_cr : '\r'.toUInt8 ∉ protocol
  path : t.req.path.map (cString t.mem) = some (target.takeWhile (· != '?'.toUInt8))

/-- A line of the grammar: the complete name of a method, at least one space, and
CR LF behind the protocol. -/
def Grammatical (bytes : List UInt8) (t : Parse) : Prop :=
  ∃ (i : Fin methods.length) (spaces : Nat) (target protocol rest : List UInt8),
    bytes = methodName i ++ (List.replicate (spaces + 1) ' '.toUInt8 ++ (target ++ ' '.toUInt8 ::
      (protocol ++ '\r'.toUInt8 :: '\n'.toUInt8 :: rest))) ∧
    t.req.method = (methods.get i).mask ∧ LineParts t target protocol

/-- A line that the parser recognises. Its first four bytes are those of the name
and a space; except for `CONNECT`, the bytes passed over are as many as the name has. -/
def Recognised (bytes : List UInt8) (t : Parse) : Prop :=
  ∃ (i : Fin methods.length) (spaces : Nat) (name target protocol rest : List UInt8),
    bytes = name ++ (List.replicate spaces ' '.toUInt8 ++ (target ++ ' '.toUInt8 ::
      (protocol ++ '\r'.toUInt8 :: rest))) ∧
    bytes.take 4 = (methodName i ++ [' '.toUInt8]).take 4 ∧
    ((methods.get i).mask ≠ methodConnect → name.length = (methodName i).length) ∧
    t.req.method = (methods.get i).mask ∧ LineParts t target protocol

theorem word_methodName {i : Fin methods.length} {mem : List UInt8}
    (h : strToInt32 mem 0 = .ok (methods.get i).strn) :
    mem.take 4 = (methodName i ++ [' '.toUInt8]).take 4 := by
  obtain ⟨a, b, c, d, tail, hname, hstrn⟩ := name_word i
  rw [show (methods.get i).strn = _ from hstrn.symm] at h
  obtain ⟨rest, hrest⟩ := strToInt32_eq h
  rw [hname, ← List.drop_zero (l := mem), hrest]
  rfl

theorem httpParseRequest_recognised (b : RecvBuf) (t : Parse)
    (h : httpParseRequest (Parse.start b.mem) b.received = .ok (1, t)) :
    Recognised b.bytes t := by
  obtain ⟨s, r, hs, hheaders⟩ := httpParseRequest_accepted h
  obtain ⟨l⟩ := httpParseRequestLine_layout b.getLast hs
  obtain ⟨hmethod, hpath, -, -⟩ := l.texts hheaders
  obtain ⟨hpp, hbytes⟩ := l.bytes_eq
  obtain ⟨i, hi, hrow⟩ := List.getElem_of_mem l.row_mem
  have hword : b.mem.take 4 = (methodName ⟨i, hi⟩ ++ [' '.toUInt8]).take 4 :=
    word_methodName (i := ⟨i, hi⟩) (by rw [List.get_eq_getElem, hrow]; exact l.word)
  have hfour : 4 ≤ b.received := by
    have hlength := l.ppbuf
    have hprotocol := congrArg List.length l.protocol_http
    have : (ascii "HTTP").length = 4 := by decide
    rw [List.length_take] at hprotocol
    omega
  refine ⟨⟨i, hi⟩, l.spaces, l.name, l.target, l.protocol, _, hbytes, ?_, fun hne => ?_,
    hmethod.trans (by rw [← hrow]; rfl), ?_⟩
  · rw [RecvBuf.bytes, List.take_take, Nat.min_eq_left hfour, hword]
  · rw [l.name_length, ← method_length_eq ⟨i, hi⟩ hne, Fin.getElem_fin, hrow]
  · exact ⟨l.target_slash, l.target_space, l.protocol_http, l.protocol_cr,
      hpath.trans (congrArg some l.view.path_eq)⟩

/-- Parsing accepts what the block holds, and stores the mask. -/
theorem exists_accepted (b : RecvBuf) (mask : Nat)
    (h : (httpParseRequest (Parse.start b.mem) b.received).toOption.map
      (fun r => (r.1, r.2.req.method)) = some (1, mask)) :
    ∃ t, httpParseRequest (Parse.start b.mem) b.received = .ok (1, t) ∧ t.req.method = mask := by
  obtain ⟨⟨ret, t⟩, ht, hview⟩ := exists_of_map_toOption h
  obtain ⟨rfl, hmask⟩ := Prod.mk.inj hview
  exact ⟨t, ht, hmask⟩

theorem httpParseRequest_recognised_get :
    ∃ t, httpParseRequest (Parse.start (requestExample ⟨0, by decide⟩).mem)
        (requestExample ⟨0, by decide⟩).received = .ok (1, t) ∧
      Recognised (requestExample ⟨0, by decide⟩).bytes t := by
  obtain ⟨t, ht, -⟩ := exists_accepted (requestExample ⟨0, by decide⟩) methodGet
    (by decide +kernel)
  exact ⟨t, ht, httpParseRequest_recognised _ t ht⟩

/-- The buffer is accepted without being in the grammar. -/
def Misread (b : RecvBuf) : Prop :=
  ∃ t, httpParseRequest (Parse.start b.mem) b.received = .ok (1, t) ∧ ¬ Grammatical b.bytes t

/-- The method's name and a space do not stand at the front. -/
theorem misread_of_front {b : RecvBuf} {mask : Nat}
    (h : ∀ i : Fin methods.length, (methods.get i).mask = mask →
      b.bytes.take (methodName i ++ [' '.toUInt8]).length ≠ methodName i ++ [' '.toUInt8])
    (haccepted : (httpParseRequest (Parse.start b.mem) b.received).toOption.map
      (fun r => (r.1, r.2.req.method)) = some (1, mask)) : Misread b := by
  obtain ⟨t, ht, hmask⟩ := exists_accepted b mask haccepted
  refine ⟨t, ht, ?_⟩
  rintro ⟨i, spaces, target, protocol, rest, hbytes, hmethod, -⟩
  refine h i (hmethod.symm.trans hmask) ?_
  have hfront : b.bytes = (methodName i ++ [' '.toUInt8]) ++ (List.replicate spaces ' '.toUInt8 ++
      (target ++ ' '.toUInt8 :: (protocol ++ '\r'.toUInt8 :: '\n'.toUInt8 :: rest))) := by
    simp [hbytes, List.replicate_succ]
  rw [hfront, List.take_left]

def wrongTail : RecvBuf := textExample "DELEXX / HTTP/1.1\r\n\r\n" (by decide) (by decide)

def noSpace : RecvBuf := textExample "POST/ HTTP/1.1\r\n\r\n" (by decide) (by decide)

def noLineFeed : RecvBuf := textExample "GET / HTTP/1.1\rX\r\r" (by decide) (by decide)

theorem httpParseRequest_not_grammatical :
    Misread wrongTail ∧ Misread noSpace ∧ Misread noLineFeed := by
  have htail : ∀ i : Fin methods.length, (methods.get i).mask = methodDelete →
      wrongTail.bytes.take (methodName i ++ [' '.toUInt8]).length ≠
        methodName i ++ [' '.toUInt8] := by decide +kernel
  have hspace : ∀ i : Fin methods.length, (methods.get i).mask = methodPost →
      noSpace.bytes.take (methodName i ++ [' '.toUInt8]).length ≠
        methodName i ++ [' '.toUInt8] := by decide +kernel
  refine ⟨misread_of_front htail (by decide +kernel), misread_of_front hspace (by decide +kernel), ?_⟩
  obtain ⟨t, ht, -⟩ := exists_accepted noLineFeed methodGet (by decide +kernel)
  refine ⟨t, ht, ?_⟩
  rintro ⟨i, spaces, target, protocol, rest, hbytes, -⟩
  have hlf : '\n'.toUInt8 ∉ noLineFeed.bytes := by decide +kernel
  refine hlf ?_
  rw [hbytes]
  simp

end L4Server
