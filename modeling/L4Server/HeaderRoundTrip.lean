import L4Server.HeaderFields

/-!
Headers written out and read back. The loop takes a line of fewer than
`sizeof("H: V")` bytes for the end of the section, one byte more than the
shortest header it was meant to admit, so a header of three or four bytes ends
the section early.
-/
namespace L4Server
open CMemory

/-! Headers as text. -/

/-- A header a client may write: the name is not empty and holds no `:`, and no
part holds a CR or a NUL. -/
structure Header where
  name : List UInt8
  value : List UInt8
  name_ne_nil : name ≠ []
  name_colon : ':'.toUInt8 ∉ name
  name_cr : '\r'.toUInt8 ∉ name
  name_zero : 0 ∉ name
  value_cr : '\r'.toUInt8 ∉ value
  value_zero : 0 ∉ value

def Header.text (h : Header) : List UInt8 :=
  h.name ++ ':'.toUInt8 :: ' '.toUInt8 :: (h.value ++ ['\r'.toUInt8, '\n'.toUInt8])

def headersText (hs : List Header) : List UInt8 := hs.flatMap Header.text

/-- The line is long enough for the loop not to take it for the empty line. -/
def Header.Long (h : Header) : Prop := 3 ≤ h.name.length + h.value.length

instance (h : Header) : Decidable h.Long := inferInstanceAs (Decidable (3 ≤ _))

def headerOffsets : Nat → List Header → List (KvPair Nat)
  | _, [] => []
  | off, h :: hs => ⟨off, off + h.name.length + 2⟩ :: headerOffsets (off + h.text.length) hs

theorem Header.length_text (h : Header) : h.text.length = h.name.length + h.value.length + 4 := by
  simp [Header.text]
  omega

/-- The line of a header after its two delimiters have been overwritten. -/
def Header.marked (h : Header) : List UInt8 :=
  h.name ++ 0 :: ' '.toUInt8 :: (h.value ++ [0, '\n'.toUInt8])

theorem Header.length_marked (h : Header) : h.marked.length = h.text.length := by
  simp [Header.text, Header.marked]

/-- The line of a header without its CR and LF. -/
def Header.line (h : Header) : List UInt8 := h.name ++ ':'.toUInt8 :: ' '.toUInt8 :: h.value

theorem Header.length_line (h : Header) : h.line.length + 2 = h.text.length := by
  simp [Header.line, Header.text]
  omega

theorem Header.text_append (h : Header) (rest : List UInt8) :
    h.text ++ rest = h.line ++ '\r'.toUInt8 :: '\n'.toUInt8 :: rest := by
  simp [Header.line, Header.text]

theorem Header.line_cr (h : Header) : '\r'.toUInt8 ∉ h.line := by
  simp only [Header.line, List.mem_append, List.mem_cons, not_or]
  exact ⟨h.name_cr, by decide, by decide, h.value_cr⟩

theorem Header.line_zero (h : Header) : 0 ∉ h.line := by
  simp only [Header.line, List.mem_append, List.mem_cons, not_or]
  exact ⟨h.name_zero, by decide, by decide, h.value_zero⟩

theorem Header.longLine_iff (h : Header) : LongLine h.line ↔ h.Long := by
  have hlen := h.length_line
  have htext := h.length_text
  rw [LongLine, Header.Long, show sizeofLit "H: V" = 5 by decide]
  omega

/-- One turn of the loop on a long header records it and goes on behind it. -/
theorem parseHeadersLoop_long (h : Header) (hlong : h.Long) {front rest : List UInt8} {s : Parse}
    (hmem : s.mem = front ++ (h.text ++ rest)) (bufend fuel : Nat) {start : Nat}
    (hstart : start = front.length) (hend : start + h.text.length < bufend)
    (hn : bufend < 2 ^ 64) :
    ∃ t, t.mem = front ++ (h.marked ++ rest) ∧
      t.req = { s.req with
        headers := (kvSetKeyValue true s.req.headers start (start + h.name.length + 2)).2 } ∧
      parseHeadersLoop bufend (fuel + 1) start s =
        parseHeadersLoop bufend fuel (start + h.text.length) t := by
  have hlen := h.length_line
  obtain ⟨t, htmem, htreq, hloop⟩ := parseHeadersLoop_field bufend fuel h.name_colon h.line_cr
    h.line_zero (h.longLine_iff.mpr hlong) (hmem.trans (congrArg _ (h.text_append rest))) hstart
    (by omega) (show start + h.line.length < 2 ^ 64 by omega)
  refine ⟨t, by rw [htmem]; simp [Header.marked], htreq, hloop.trans ?_⟩
  rw [← hlen, ← Nat.add_assoc]
  rfl

/-- A short header ends the loop. -/
theorem parseHeadersLoop_short (h : Header) (hshort : ¬ h.Long) {front rest : List UInt8}
    {s : Parse} (hmem : s.mem = front ++ (h.text ++ rest)) (fuel : Nat) {start bufend : Nat}
    (hstart : start = front.length) (hend : start + h.text.length < bufend)
    (hn : bufend < 2 ^ 64) :
    ∃ q, parseHeadersLoop bufend (fuel + 1) start s = .ok (q, s) := by
  have hlen := h.length_line
  exact ⟨_, parseHeadersLoop_shortLine bufend fuel h.line_cr h.line_zero
    (fun hlong => hshort (h.longLine_iff.mp hlong)) (hmem.trans (congrArg _ (h.text_append rest)))
    hstart (by omega) (by omega)⟩

/-- The whole section: the long headers up to the first short one are recorded. -/
theorem parseHeadersLoop_headers (hs : List Header) (front : List UInt8) {rest : List UInt8}
    {s : Parse} (hmem : s.mem = front ++ (headersText hs ++ '\r'.toUInt8 :: rest))
    (start bufend fuel : Nat)
    (hstart : start = front.length) (hend : start + (headersText hs).length < bufend)
    (hn : bufend < 2 ^ 64) (hf : hs.length < fuel) :
    ∃ q t, parseHeadersLoop bufend fuel start s = .ok (q, t) ∧
      t.req.headers = kvSetAll true s.req.headers
        (headerOffsets start (hs.takeWhile fun h => decide h.Long)) ∧
      (headerOffsets start (hs.takeWhile fun h => decide h.Long)).map (textsAt t.mem) =
        (hs.takeWhile fun h => decide h.Long).map fun h => (h.name, h.value) := by
  induction hs generalizing front s start fuel with
  | nil =>
      obtain ⟨fuel, rfl⟩ : ∃ f, fuel = f + 1 := ⟨fuel - 1, by simp at hf; omega⟩
      simp only [headersText, List.flatMap_nil, List.length_nil, Nat.add_zero] at hend hmem
      exact ⟨_, s, parseHeadersLoop_shortLine bufend fuel (by simp) (by simp)
        (by decide) hmem hstart hend (by simp only [List.length_nil]; omega), rfl, rfl⟩
  | cons h hs ih =>
      obtain ⟨fuel, rfl⟩ : ∃ f, fuel = f + 1 := ⟨fuel - 1, by omega⟩
      have hsplit : headersText (h :: hs) = h.text ++ headersText hs := rfl
      rw [hsplit, List.append_assoc] at hmem
      rw [hsplit, List.length_append] at hend
      by_cases hlong : h.Long
      · obtain ⟨u, humem, hureq, hloop⟩ := parseHeadersLoop_long h hlong hmem bufend fuel
          hstart (by omega) hn
        obtain ⟨q, t, ht, hheaders, htexts⟩ := ih (front ++ h.marked) (s := u)
          (by simp [humem]) (start + h.text.length) fuel
          (by simp [hstart, h.length_marked]) (by omega)
          (by simpa using hf)
        have hkept : t.mem.take (start + h.text.length) = front ++ h.marked := by
          rw [(parseHeadersLoop_same ht (Nat.le_refl _)).mem, humem, ← List.append_assoc]
          exact List.take_left' (by simp [hstart, h.length_marked])
        have hfinal : t.mem = front ++ (h.marked ++ t.mem.drop (start + h.text.length)) := by
          rw [← List.append_assoc, ← hkept, List.take_append_drop]
        have hname : cString t.mem start = h.name :=
          cString_eq front (' '.toUInt8 :: (h.value ++ 0 :: '\n'.toUInt8 ::
            t.mem.drop (start + h.text.length))) (hfinal.trans (by simp [Header.marked]))
            hstart h.name_zero
        have hvalue : cString t.mem (start + h.name.length + 2) = h.value :=
          cString_eq (front ++ (h.name ++ [0, ' '.toUInt8]))
            ('\n'.toUInt8 :: t.mem.drop (start + h.text.length))
            (hfinal.trans (by simp [Header.marked])) (by simp [hstart]; omega) h.value_zero
        refine ⟨q, t, hloop.trans ht, ?_, ?_⟩
        · rw [hheaders, hureq]
          simp [hlong, headerOffsets, kvSetAll]
        · simp only [List.takeWhile_cons, hlong, decide_true, if_true, headerOffsets, List.map_cons,
            htexts]
          simp [textsAt, hname, hvalue]
      · obtain ⟨q, hq⟩ := parseHeadersLoop_short h hlong hmem fuel hstart (by omega) hn
        exact ⟨q, s, hq, by simp [hlong, headerOffsets, kvSetAll],
          by simp [hlong, headerOffsets]⟩

/-! The request as a whole. -/

/-- The request line at the front of the buffer is `line`, and is accepted. -/
def RecvBuf.Accepts (b : RecvBuf) (line : List UInt8) : Prop :=
  ∃ s, httpParseRequestLine (Parse.start b.mem) b.received = .ok (true, s) ∧
    s.ppbuf = line.length

theorem RecvBuf.accepts_of_eval {b : RecvBuf} {line : List UInt8}
    (h : (httpParseRequestLine (Parse.start b.mem) b.received).toOption.map
      (fun r => (r.1, r.2.ppbuf)) = some (true, line.length)) : b.Accepts line := by
  obtain ⟨⟨accepted, s⟩, hs, hview⟩ := exists_of_map_toOption h
  obtain ⟨rfl, hpp⟩ := Prod.mk.inj hview
  exact ⟨s, hs, hpp⟩

/-- Parsing succeeds, and the request holds the first 20 of the headers. -/
def HeadersRead (b : RecvBuf) (hs : List Header) : Prop :=
  ∃ t, httpParseRequest (Parse.start b.mem) b.received = .ok (1, t) ∧
    t.req.headers.stored.map (Option.map (textsAt t.mem)) =
      (hs.take 20).map fun h => some (h.name, h.value)

/-- What the request holds after the headers `hs`. -/
theorem httpParseRequest_headers (b : RecvBuf) {line body : List UInt8} {hs : List Header}
    (hline : b.Accepts line)
    (hb : b.bytes = line ++ (headersText hs ++ '\r'.toUInt8 :: '\n'.toUInt8 :: body)) :
    ∃ t, httpParseRequest (Parse.start b.mem) b.received = .ok (1, t) ∧
      t.req.headers.stored.map (Option.map (textsAt t.mem)) =
        ((hs.take 20).takeWhile fun h => decide h.Long).map fun h => some (h.name, h.value) := by
  obtain ⟨s, hs₁, hpp⟩ := hline
  obtain ⟨l⟩ := httpParseRequestLine_layout b.getLast hs₁
  have hlength := b.length_bytes
  have hmax := b.capacity_lt
  have hlt := b.received_lt
  rw [hb] at hlength
  simp only [List.length_append, List.length_cons] at hlength
  have hdrop : s.mem.drop s.ppbuf = headersText hs ++ '\r'.toUInt8 ::
      ('\n'.toUInt8 :: body ++ b.mem.drop b.received) := by
    rw [l.drop_eq, hpp]
    refine (congrArg (List.drop line.length) b.mem_eq).trans ?_
    rw [hb, List.append_assoc, List.drop_left]
    simp
  have hmem : s.mem = s.mem.take s.ppbuf ++ (headersText hs ++ '\r'.toUInt8 ::
      ('\n'.toUInt8 :: body ++ b.mem.drop b.received)) := by
    rw [← hdrop, List.take_append_drop]
  have hfront : (s.mem.take s.ppbuf).length = s.ppbuf := by
    have := congrArg List.length hdrop
    simp only [List.length_drop, List.length_append, List.length_cons] at this
    rw [List.length_take]
    omega
  have hcount : hs.length ≤ (headersText hs).length := by
    clear hb hdrop hmem hlength
    induction hs with
    | nil => simp
    | cons h hs ih =>
        have := h.length_text
        simp only [headersText, List.flatMap_cons, List.length_append, List.length_cons] at ih ⊢
        omega
  obtain ⟨q, t, ht, hheaders, htexts⟩ := parseHeadersLoop_headers hs
    (s.mem.take s.ppbuf) hmem s.ppbuf b.received (b.received + 1) hfront.symm (by omega) (by omega) (by omega)
  refine ⟨{ t with ppbuf := q }, ?_, ?_⟩
  · simp [httpParseRequest, httpParseHeaders, hs₁, ht, bind, Except.bind, pure, Except.pure]
  · have hcleared : s.req.headers = HttpRequest.cleared.headers := by rw [l.req]
    obtain ⟨hstored, -, -⟩ := kvSetAll_provided true
      (headerOffsets s.ppbuf (hs.takeWhile fun h => decide h.Long)) s.req.headers
      (by rw [hcleared]; rfl)
    rw [hheaders, hstored, hcleared]
    rw [show HttpRequest.cleared.headers.stored = [] from rfl,
      show HttpRequest.cleared.headers.capacity = 20 from rfl, List.nil_append,
      ← List.map_take, List.map_map, ← List.take_takeWhile]
    have hpairs := congrArg (List.map some) (congrArg (List.take 20) htexts)
    simpa [← List.map_take, Function.comp_def] using hpairs

/-- Headers written as `Name: Value` lines behind an accepted request line are
read back exactly when none of the first 20 is a short one. -/
theorem httpParseRequest_reads_headers_iff (b : RecvBuf) (line body : List UInt8)
    (hs : List Header) (hline : b.Accepts line)
    (hb : b.bytes = line ++ (headersText hs ++ '\r'.toUInt8 :: '\n'.toUInt8 :: body)) :
    HeadersRead b hs ↔ ∀ h ∈ hs.take 20, 3 ≤ h.name.length + h.value.length := by
  obtain ⟨t, ht, hread⟩ := httpParseRequest_headers b hline hb
  constructor
  · rintro ⟨u, hu, hall⟩
    obtain rfl : u = t := (Prod.mk.inj (Except.ok.inj (hu.symm.trans ht))).2
    have hlen := congrArg List.length (hread.symm.trans hall)
    simp only [List.length_map] at hlen
    have hself := (List.takeWhile_prefix (l := hs.take 20) fun h => decide h.Long).eq_of_length
      hlen
    intro h hmem
    exact of_decide_eq_true (List.takeWhile_eq_self_iff.mp hself h hmem)
  · intro hlong
    have hself : ((hs.take 20).takeWhile fun h => decide h.Long) = hs.take 20 :=
      List.takeWhile_eq_self_iff.mpr fun h hmem => decide_eq_true (hlong h hmem)
    exact ⟨t, ht, by rw [hread, hself]⟩

theorem headerExample_length (h : String) :
    (ascii "GET / HTTP/1.1\r\n" ++ ascii h).length = 16 + (ascii h).length :=
  List.length_append

theorem headerExample_pos (h : String) : 0 < (ascii "GET / HTTP/1.1\r\n" ++ ascii h).length := by
  rw [headerExample_length]
  omega

theorem headerExample_lt (h : String) (hlen : (ascii h).length < 60) :
    (ascii "GET / HTTP/1.1\r\n" ++ ascii h).length < 100 := by
  rw [headerExample_length]
  omega

/-- A request of one header in a small block. -/
def headerExample (h : String) (hlen : (ascii h).length < 60) : RecvBuf :=
  .ofBytes (ascii "GET / HTTP/1.1\r\n" ++ ascii h) 100 (headerExample_pos h)
    (headerExample_lt h hlen) exampleCapacity_ge exampleCapacity_lt

def hostHeader : Header where
  name := ascii "Host"
  value := ascii "a"
  name_ne_nil := by decide +kernel
  name_colon := by decide +kernel
  name_cr := by decide +kernel
  name_zero := by decide +kernel
  value_cr := by decide +kernel
  value_zero := by decide +kernel

def shortHeader : Header where
  name := ascii "H"
  value := ascii "V"
  name_ne_nil := by decide +kernel
  name_colon := by decide +kernel
  name_cr := by decide +kernel
  name_zero := by decide +kernel
  value_cr := by decide +kernel
  value_zero := by decide +kernel

theorem httpParseRequest_reads_host :
    HeadersRead (headerExample "Host: a\r\n\r\n" (by decide)) [hostHeader] ↔
      ∀ h ∈ [hostHeader].take 20, 3 ≤ h.name.length + h.value.length := by
  exact httpParseRequest_reads_headers_iff _ (ascii "GET / HTTP/1.1\r\n") [] _
    (RecvBuf.accepts_of_eval (by decide +kernel)) (by decide +kernel)

/-- The header `H: V` itself, which gives the threshold, is taken for the end of
the section. -/
theorem httpParseRequest_drops_short_header :
    (headerExample "H: V\r\n\r\n" (by decide)).Accepts (ascii "GET / HTTP/1.1\r\n") ∧
      (headerExample "H: V\r\n\r\n" (by decide)).bytes =
        ascii "GET / HTTP/1.1\r\n" ++ (headersText [shortHeader] ++ ascii "\r\n") ∧
      ¬ HeadersRead (headerExample "H: V\r\n\r\n" (by decide)) [shortHeader] := by
  refine ⟨RecvBuf.accepts_of_eval (by decide +kernel), by decide +kernel, ?_⟩
  rintro ⟨t, ht, hread⟩
  obtain ⟨⟨ret, u⟩, hu, hsize⟩ := exists_of_map_toOption
    (x := httpParseRequest (Parse.start (headerExample "H: V\r\n\r\n" (by decide)).mem)
      (headerExample "H: V\r\n\r\n" (by decide)).received)
    (f := fun r => r.2.req.headers.size) (b := 0) (by decide +kernel)
  obtain rfl : t = u := (Prod.mk.inj (Except.ok.inj (ht.symm.trans hu))).2
  have hlen := congrArg List.length hread
  rw [List.length_map, Kv.stored_length, hsize] at hlen
  simp at hlen

end L4Server
