import L4Server.HeaderRoundTrip

/-!
Request lines written out and read back. The table gives `CONNECT` a length of
six; the byte left over stands where the path is expected. Every other method
comes back with its path, protocol and the first 20 pairs of its query.
-/
namespace L4Server
open CMemory

/-- The names of the rows of `methods`, in their order. -/
def methodNames : List String :=
  ["GET", "POST", "PUT", "DELETE", "PATCH", "HEAD", "OPTIONS", "TRACE", "CONNECT"]

def methodName (i : Fin methods.length) : List UInt8 := ascii (methodNames.getD i "")

/-- What a client may put on a request line. -/
structure RequestLine where
  method : Fin methods.length
  /-- spaces behind the method, beyond the first -/
  spaces : Nat
  path : List UInt8
  query : List TextPair
  protocol : List UInt8
  path_slash : path.head? = some '/'.toUInt8
  path_free : ∀ c ∈ [' '.toUInt8, '?'.toUInt8, '\r'.toUInt8, 0], c ∉ path
  key_free : ∀ kv ∈ query,
    ∀ c ∈ ['='.toUInt8, '&'.toUInt8, ' '.toUInt8, '\r'.toUInt8, 0], c ∉ kv.1
  value_free : ∀ kv ∈ query, ∀ c ∈ ['&'.toUInt8, ' '.toUInt8, '\r'.toUInt8, 0], c ∉ kv.2
  protocol_http : protocol.take 4 = ascii "HTTP"
  protocol_length : 8 ≤ protocol.length
  protocol_free : ∀ c ∈ ['\r'.toUInt8, 0], c ∉ protocol

/-- `k=v` pairs with `&` between them. -/
def queryText : List TextPair → List UInt8
  | [] => []
  | [(k, v)] => k ++ '='.toUInt8 :: v
  | (k, v) :: ps => k ++ '='.toUInt8 :: (v ++ '&'.toUInt8 :: queryText ps)

def RequestLine.target (l : RequestLine) : List UInt8 :=
  l.path ++ if l.query = [] then [] else '?'.toUInt8 :: queryText l.query

def RequestLine.text (l : RequestLine) : List UInt8 :=
  methodName l.method ++ (List.replicate (l.spaces + 1) ' '.toUInt8 ++
    (l.target ++ ' '.toUInt8 :: (l.protocol ++ ['\r'.toUInt8, '\n'.toUInt8])))

/-! The views of what is written out. -/

theorem queryText_view (ps : List TextPair) (hne : ps ≠ [])
    (hk : ∀ kv ∈ ps, '='.toUInt8 ∉ kv.1) (hv : ∀ kv ∈ ps, '&'.toUInt8 ∉ kv.2) :
    ∃ q', QueryView (queryText ps) q' ps := by
  induction ps with
  | nil => exact absurd rfl hne
  | cons p ps ih =>
      obtain ⟨k, v⟩ := p
      have hk₁ := hk (k, v) (by simp)
      have hv₁ := hv (k, v) (by simp)
      cases ps with
      | nil => exact ⟨_, .last hk₁ hv₁⟩
      | cons p ps =>
          obtain ⟨q', hq⟩ := ih (by simp) (fun kv h => hk kv (by simp [h]))
            (fun kv h => hv kv (by simp [h]))
          exact ⟨_, .more hk₁ hv₁ hq⟩

/-- A byte that is no delimiter of a query and in none of its parts is not in
its text. -/
theorem notMem_queryText {c : UInt8} (he : c ≠ '='.toUInt8) (ha : c ≠ '&'.toUInt8)
    (ps : List TextPair) (h : ∀ kv ∈ ps, c ∉ kv.1 ∧ c ∉ kv.2) : c ∉ queryText ps := by
  induction ps with
  | nil => simp [queryText]
  | cons p ps ih =>
      obtain ⟨k, v⟩ := p
      have hkv := h (k, v) (by simp)
      cases ps with
      | nil => simp [queryText, he, hkv.1, hkv.2]
      | cons p ps =>
          have hrest := ih fun kv hm => h kv (by simp [hm])
          simp [queryText, he, ha, hkv.1, hkv.2, hrest]

theorem RequestLine.target_view (l : RequestLine) :
    ∃ marked, TargetView l.target marked l.path l.query := by
  have hq : '?'.toUInt8 ∉ l.path := l.path_free _ (by simp)
  by_cases hnil : l.query = []
  · refine ⟨l.path, ?_⟩
    rw [RequestLine.target, if_pos hnil, List.append_nil, hnil]
    exact .plain hq
  · obtain ⟨q', hview⟩ := queryText_view l.query hnil
      (fun kv h => l.key_free kv h _ (by simp)) (fun kv h => l.value_free kv h _ (by simp))
    refine ⟨l.path ++ 0 :: q', ?_⟩
    rw [RequestLine.target, if_neg hnil]
    exact .query hq hview

theorem RequestLine.notMem_target (l : RequestLine) {c : UInt8}
    (hp : c ∉ l.path) (hq : c ≠ '?'.toUInt8) (he : c ≠ '='.toUInt8) (ha : c ≠ '&'.toUInt8)
    (h : ∀ kv ∈ l.query, c ∉ kv.1 ∧ c ∉ kv.2) : c ∉ l.target := by
  have htext := notMem_queryText he ha l.query h
  unfold RequestLine.target
  split
  · simpa using hp
  · simp [hp, hq, htext]

theorem RequestLine.target_zero (l : RequestLine) : 0 ∉ l.target :=
  l.notMem_target (l.path_free _ (by simp)) (by decide) (by decide) (by decide)
    fun kv h => ⟨l.key_free kv h _ (by simp), l.value_free kv h _ (by simp)⟩

theorem RequestLine.target_space (l : RequestLine) : ' '.toUInt8 ∉ l.target :=
  l.notMem_target (l.path_free _ (by simp)) (by decide) (by decide) (by decide)
    fun kv h => ⟨l.key_free kv h _ (by simp), l.value_free kv h _ (by simp)⟩

theorem RequestLine.target_slash (l : RequestLine) :
    l.target.head? = some '/'.toUInt8 := by
  have h := l.path_slash
  unfold RequestLine.target
  cases hp : l.path with
  | nil => simp [hp] at h
  | cons b path =>
      rw [hp] at h
      simpa using h

/-! The method stage on a name of the table. -/

theorem name_word (i : Fin methods.length) :
    ∃ a b c d tail, methodName i ++ [' '.toUInt8] = a :: b :: c :: d :: tail ∧
      a.toNat + b.toNat * 2 ^ 8 + c.toNat * 2 ^ 16 + d.toNat * 2 ^ 24 = methods[i].strn := by
  have h : ∀ i : Fin methods.length,
      let n := methodName i ++ [' '.toUInt8]
      n = n.getD 0 0 :: n.getD 1 0 :: n.getD 2 0 :: n.getD 3 0 :: n.drop 4 ∧
        (n.getD 0 0).toNat + (n.getD 1 0).toNat * 2 ^ 8 + (n.getD 2 0).toNat * 2 ^ 16 +
          (n.getD 3 0).toNat * 2 ^ 24 = methods[i].strn := by decide +kernel
  exact ⟨_, _, _, _, _, h i⟩

theorem methodName_word (i : Fin methods.length) {mem rest : List UInt8}
    (hmem : mem = methodName i ++ ' '.toUInt8 :: rest) :
    strToInt32 mem 0 = .ok methods[i].strn := by
  obtain ⟨a, b, c, d, tail, hname, hstrn⟩ := name_word i
  have hmem' : mem = [] ++ a :: b :: c :: d :: (tail ++ rest) := by
    rw [hmem, List.append_cons, hname]
    rfl
  rw [strToInt32_found [] _ (p := 0) hmem' rfl, hstrn]

theorem httpParseMethod_view (i : Fin methods.length) {s : Parse} {rest : List UInt8}
    (hmem : s.mem = methodName i ++ ' '.toUInt8 :: rest) (hpp : s.ppbuf = 0) (bufend : Nat)
    (hn : 4 ≤ bufend) :
    ∃ r, httpParseMethod s bufend = .ok (r,
      { s with
        req := { s.req with method := methods[i].mask }
        ppbuf := methods[i].length }) := by
  have hword := methodName_word i hmem
  have hfind := find_row (List.getElem_mem i.isLt)
  generalize methods[i] = row at *
  refine ⟨row.length, ?_⟩
  unfold httpParseMethod
  rw [if_neg (by omega)]
  simp only [hpp, hword, bind, Except.bind, hfind]
  simp

/-- All names but `CONNECT` are as long as the table says. -/
theorem method_length_eq (i : Fin methods.length) (h : methods[i].mask ≠ methodConnect) :
    methods[i].length = (methodName i).length := by
  revert i
  decide +kernel

theorem method_mask_pos (i : Fin methods.length) : methods[i].mask ≠ 0 := by
  revert i
  decide +kernel

/-- The row of `CONNECT` ends before the last byte of the name. -/
theorem connect_row (i : Fin methods.length) (h : methods[i].mask = methodConnect) :
    methods[i].length = 6 ∧ methodName i = ascii "CONNEC" ++ ['T'.toUInt8] := by
  revert i
  decide +kernel

theorem httpParsePath_no_slash {s : Parse} {b : UInt8} (hb : s.mem[s.ppbuf]? = some b)
    (hslash : b ≠ '/'.toUInt8) (bufend : Nat) : httpParsePath s bufend = .ok (0, s) := by
  unfold httpParsePath
  simp only
  split
  · rfl
  · simp [load, hb, hslash, bind, Except.bind, pure, Except.pure]

/-! The whole request. -/

/-- Parsing succeeds and the request is the one written on the line. -/
def RequestRead (b : RecvBuf) (l : RequestLine) : Prop :=
  ∃ t, httpParseRequest (Parse.start b.mem) b.received = .ok (1, t) ∧
    t.req.method = methods[l.method].mask ∧
    t.req.path.map (cString t.mem) = some l.path ∧
    t.req.protocol.map (cString t.mem) = some l.protocol ∧
    t.req.query.stored.map (Option.map (textsAt t.mem)) = (l.query.take 20).map some

theorem RequestLine.target_cons (l : RequestLine) : ∃ t, l.target = '/'.toUInt8 :: t := by
  have h := l.target_slash
  cases htarget : l.target with
  | nil => simp [htarget] at h
  | cons c t => exact ⟨t, by simpa [htarget] using h⟩

theorem RequestLine.length_text (l : RequestLine) :
    l.text.length = (methodName l.method).length + (l.spaces + 1) + l.target.length + 1 +
      l.protocol.length + 2 := by
  simp [RequestLine.text]
  omega

/-- The stages in front of the headers on a line of another method than `CONNECT`,
with something behind it. -/
theorem httpParseRequestLine_text (b : RecvBuf) (l : RequestLine) {rest : List UInt8}
    (hb : b.bytes = l.text ++ rest) (hne : rest ≠ [])
    (hmethod : methods[l.method].mask ≠ methodConnect) :
    ∃ t, httpParseRequestLine (Parse.start b.mem) b.received = .ok (true, t) ∧
      t.ppbuf = l.text.length ∧
      ∃ layout : LineLayout b.mem t, layout.row = methods[l.method] ∧ layout.path = l.path ∧
        layout.pairs = l.query ∧ layout.protocol = l.protocol := by
  obtain ⟨marked, hview⟩ := l.target_view
  obtain ⟨target, htarget⟩ := l.target_cons
  have hlength := b.length_bytes
  have hmax := b.capacity_lt
  have hlt := b.received_lt
  have htext := l.length_text
  have hslash := congrArg List.length htarget
  have hprotocol := l.protocol_length
  have hrest := List.length_pos_of_ne_nil hne
  rw [hb] at hlength
  simp only [List.length_append, List.length_cons] at hlength hslash
  have hzero : 0 ∈ '\n'.toUInt8 :: rest ++ b.mem.drop b.received := by
    refine List.mem_append_right _ (List.mem_of_getElem? (i := 0) ?_)
    rw [List.getElem?_drop]
    exact b.zero_tail _ (by omega) (by omega)
  generalize htail : '\n'.toUInt8 :: rest ++ b.mem.drop b.received = tail at hzero
  have hmem : b.mem = methodName l.method ++ (List.replicate (l.spaces + 1) ' '.toUInt8 ++
      (l.target ++ ' '.toUInt8 :: (l.protocol ++ '\r'.toUInt8 :: tail))) := by
    refine b.mem_eq.trans ?_
    rw [hb, ← htail]
    simp [RequestLine.text]
  have hfirst : b.mem = methodName l.method ++ ' '.toUInt8 ::
      (List.replicate l.spaces ' '.toUInt8 ++
        (l.target ++ ' '.toUInt8 :: (l.protocol ++ '\r'.toUInt8 :: tail))) := by
    rw [hmem, List.replicate_succ]
    rfl
  obtain ⟨t, ht, layout, hrow, hname, hspaces, hlayoutTarget, -, hpath, hpairs, hlayoutProtocol, -⟩ :=
    httpParseRequestLine_view (List.getElem_mem l.method.isLt) b.received
      (methodName_word l.method hfirst)
      (method_length_eq l.method hmethod).symm hmem hview l.target_slash l.target_space
      l.target_zero l.protocol_http (l.protocol_free _ (by simp)) (l.protocol_free 0 (by simp))
      hzero (by omega) (by omega)
      (by
        rw [sizeSub_of_le (by omega) (by omega), show sizeofLit "/ HTTP/0.0\r\n" = 13 by decide]
        omega)
      (by
        rw [sizeSub_of_le (by omega) (by omega), show sizeofLit "HTTP/0.0\r\n" = 11 by decide]
        omega)
  refine ⟨t, ht, ?_, layout, hrow, hpath, hpairs, hlayoutProtocol⟩
  rw [layout.ppbuf, hname, hspaces, hlayoutTarget, hlayoutProtocol, htext]

theorem httpParseRequestLine_reads (b : RecvBuf) (l : RequestLine) {headers : List UInt8}
    (hb : b.bytes = l.text ++ (headers ++ ['\r'.toUInt8, '\n'.toUInt8]))
    (hmethod : methods[l.method].mask ≠ methodConnect) :
    ∃ t, httpParseRequestLine (Parse.start b.mem) b.received = .ok (true, t) ∧
      ∃ layout : LineLayout b.mem t, layout.row = methods[l.method] ∧ layout.path = l.path ∧
        layout.pairs = l.query ∧ layout.protocol = l.protocol := by
  obtain ⟨t, ht, -, hlayout⟩ := httpParseRequestLine_text b l hb (by simp) hmethod
  exact ⟨t, ht, hlayout⟩

/-- Any other method: the request comes back as it was written. -/
theorem httpParseRequest_reads_line (b : RecvBuf) (l : RequestLine) {headers : List UInt8}
    (hb : b.bytes = l.text ++ (headers ++ ['\r'.toUInt8, '\n'.toUInt8]))
    (hmethod : methods[l.method].mask ≠ methodConnect) : RequestRead b l := by
  obtain ⟨s, hs, layout, hrow, hpath, hpairs, hprotocol⟩ := httpParseRequestLine_reads b l hb hmethod
  obtain ⟨ret, t, ht, -⟩ := httpParseRequest_memory_safe b
  obtain ⟨r, u, hu, rfl, rfl⟩ := httpParseRequest_line ht hs
  obtain ⟨hm, hp, hv, hq⟩ := layout.texts hu
  exact ⟨u, ht, by rw [hm, hrow], by rw [hp, hpath], by rw [hv, hprotocol], by rw [hq, hpairs]⟩

/-- `CONNECT` is refused: the cursor stops at the last letter of the name. -/
theorem httpParseRequest_refuses_connect (b : RecvBuf) (l : RequestLine) {tail : List UInt8}
    (hb : b.bytes = l.text ++ tail)
    (hmethod : methods[l.method].mask = methodConnect) :
    ∃ t, httpParseRequest (Parse.start b.mem) b.received = .ok (0, t) := by
  obtain ⟨hlen, hname⟩ := connect_row l.method hmethod
  have hlength := b.length_bytes
  have htext := l.length_text
  rw [hb] at hlength
  rw [List.length_append] at hlength
  have hseven : (methodName l.method).length = 7 := by rw [hname]; rfl
  obtain ⟨rest, hmem⟩ : ∃ rest, b.mem = methodName l.method ++ ' '.toUInt8 :: rest :=
    ⟨_, b.mem_eq.trans (by rw [hb, RequestLine.text, List.replicate_succ]; simp; rfl)⟩
  obtain ⟨r, h₁⟩ := httpParseMethod_view l.method (s := Parse.start b.mem) hmem rfl
    b.received (by omega)
  have hmask := method_mask_pos l.method
  generalize methods[l.method] = row at *
  have hT : b.mem = ascii "CONNEC" ++ (List.replicate 0 ' '.toUInt8 ++
      'T'.toUInt8 :: ' '.toUInt8 :: rest) := by simp [hmem, hname]
  have hsix : (ascii "CONNEC").length = 6 := by decide
  have hbyte : b.mem[row.length]? = some 'T'.toUInt8 := by
    rw [hT, List.getElem?_append_right (by omega), hlen, hsix]
    rfl
  generalize hs : ({ Parse.start b.mem with
    req := { (Parse.start b.mem).req with method := row.mask }
    ppbuf := row.length } : Parse) = s at h₁
  have h₂ : trimSpaces s b.received = .ok s := by
    subst hs
    exact trimSpaces_view _ _ _ (k := 0) hT (by decide) (hlen.trans hsix.symm) (by simp only; omega)
  have h₃ : httpParsePath s b.received = .ok (0, s) := by
    subst hs
    exact httpParsePath_no_slash hbyte (by decide) _
  refine ⟨s, ?_⟩
  unfold httpParseRequest httpParseRequestLine
  simp only [h₁, h₂, h₃, bind, Except.bind]
  subst hs
  rw [if_neg hmask]
  rfl

/-- A request written out is read back exactly when its method is not `CONNECT`. -/
theorem httpParseRequest_reads_line_iff (b : RecvBuf) (l : RequestLine) (headers : List UInt8)
    (hb : b.bytes = l.text ++ (headers ++ ['\r'.toUInt8, '\n'.toUInt8])) :
    RequestRead b l ↔ methods[l.method].mask ≠ methodConnect := by
  refine ⟨fun ⟨t, ht, _⟩ hmethod => ?_, httpParseRequest_reads_line b l hb⟩
  obtain ⟨u, hu⟩ := httpParseRequest_refuses_connect b l hb hmethod
  exact absurd (Prod.mk.inj (Except.ok.inj (ht.symm.trans hu))).1 (by decide)

/-- `M /a?k=v HTTP/1.1` for a method `M` of the table. -/
def lineExample (i : Fin methods.length) : RequestLine where
  method := i
  spaces := 0
  path := ascii "/a"
  query := [(ascii "k", ascii "v")]
  protocol := ascii "HTTP/1.1"
  path_slash := by decide +kernel
  path_free := by decide +kernel
  key_free := by decide +kernel
  value_free := by decide +kernel
  protocol_http := by decide +kernel
  protocol_length := by decide +kernel
  protocol_free := by decide +kernel

theorem root_slash : (ascii "/").head? = some '/'.toUInt8 := by decide +kernel

/-- `GET / HTTP/1.1`. -/
def rootLine : RequestLine where
  method := ⟨0, by decide⟩
  spaces := 0
  path := ascii "/"
  query := []
  protocol := ascii "HTTP/1.1"
  path_slash := root_slash
  path_free := by decide +kernel
  key_free := by decide +kernel
  value_free := by decide +kernel
  protocol_http := by decide +kernel
  protocol_length := by decide +kernel
  protocol_free := by decide +kernel

def requestBytes (i : Fin methods.length) : List UInt8 :=
  (lineExample i).text ++ (ascii "Host: a\r\n" ++ ascii "\r\n")

theorem requestBytes_pos (i : Fin methods.length) : 0 < (requestBytes i).length := by
  revert i
  decide +kernel

theorem requestBytes_lt (i : Fin methods.length) : (requestBytes i).length < 128 := by
  revert i
  decide +kernel

/-- The line and one header, in a block of 128 bytes. -/
def requestExample (i : Fin methods.length) : RecvBuf :=
  .ofBytes (requestBytes i) 128 (requestBytes_pos i) (requestBytes_lt i) (by decide) (by decide)

theorem httpParseRequest_reads_get :
    RequestRead (requestExample ⟨0, by decide⟩) (lineExample ⟨0, by decide⟩) ↔
      methods[(lineExample ⟨0, by decide⟩).method].mask ≠ methodConnect :=
  httpParseRequest_reads_line_iff _ _ (ascii "Host: a\r\n") (by decide +kernel)

theorem httpParseRequest_loses_connect :
    (requestExample ⟨8, by decide⟩).bytes =
        (lineExample ⟨8, by decide⟩).text ++ (ascii "Host: a\r\n" ++ ascii "\r\n") ∧
      ¬ RequestRead (requestExample ⟨8, by decide⟩) (lineExample ⟨8, by decide⟩) := by
  refine ⟨by decide +kernel, ?_⟩
  rintro ⟨t, ht, -⟩
  obtain ⟨⟨ret, u⟩, hu, hret⟩ := exists_of_map_toOption
    (x := httpParseRequest (Parse.start (requestExample ⟨8, by decide⟩).mem)
      (requestExample ⟨8, by decide⟩).received)
    (f := fun r => r.1) (b := 0) (by decide +kernel)
  obtain ⟨rfl, -⟩ := Prod.mk.inj (Except.ok.inj (ht.symm.trans hu))
  exact absurd hret Int.one_ne_zero

end L4Server
