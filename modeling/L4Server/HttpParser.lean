import L4Server.Kv
import L4Server.Library.CMemory

/-!
The request parser of `http_parser.c`, as it works on the receive buffer. The
cursor and all recorded pointers are offsets into the buffer; `stores` lists
the indices written so far. The loops carry a bound on their iterations and
fault when it is used up. Debug prints are not part of the model.
-/
namespace L4Server
open CMemory

def methodGet : Nat := 1 <<< 0
def methodHead : Nat := 1 <<< 1
def methodPost : Nat := 1 <<< 2
def methodPut : Nat := 1 <<< 3
def methodDelete : Nat := 1 <<< 4
def methodConnect : Nat := 1 <<< 5
def methodOptions : Nat := 1 <<< 6
def methodTrace : Nat := 1 <<< 7
def methodPatch : Nat := 1 <<< 8

/-- `STR_TO_INT32` of four characters. -/
def strToInt32Lit (a b c d : Char) : Nat :=
  a.toNat ||| (b.toNat <<< 8) ||| (c.toNat <<< 16) ||| (d.toNat <<< 24)

/-- A row of the `methods` table. -/
structure HttpMethod where
  strn : Nat
  mask : Nat
  length : Nat
  deriving DecidableEq, Repr

def methods : List HttpMethod :=
  [⟨strToInt32Lit 'G' 'E' 'T' ' ', methodGet, 3⟩,
   ⟨strToInt32Lit 'P' 'O' 'S' 'T', methodPost, 4⟩,
   ⟨strToInt32Lit 'P' 'U' 'T' ' ', methodPut, 3⟩,
   ⟨strToInt32Lit 'D' 'E' 'L' 'E', methodDelete, 6⟩,
   ⟨strToInt32Lit 'P' 'A' 'T' 'C', methodPatch, 5⟩,
   ⟨strToInt32Lit 'H' 'E' 'A' 'D', methodHead, 4⟩,
   ⟨strToInt32Lit 'O' 'P' 'T' 'I', methodOptions, 7⟩,
   ⟨strToInt32Lit 'T' 'R' 'A' 'C', methodTrace, 5⟩,
   ⟨strToInt32Lit 'C' 'O' 'N' 'N', methodConnect, 6⟩]

/-- `struct http_request`; a NULL pointer is `none`. -/
structure HttpRequest where
  method : Nat
  path : Option Nat
  protocol : Option Nat
  query : Kv Nat
  headers : Kv Nat

/-- The state of one parse: the receive buffer, the request being filled in,
and the caller's cursor `*ppbuf`. -/
structure Parse where
  mem : List UInt8
  stores : List Nat
  req : HttpRequest
  ppbuf : Nat

def Parse.store (s : Parse) (p : Nat) (b : UInt8) : Except Fault Parse := do
  let mem ← CMemory.store s.mem p b
  return { s with mem := mem, stores := p :: s.stores }

/-- `memcpy` of four bytes into an `int`, little-endian. -/
def strToInt32 (mem : List UInt8) (p : Nat) : Except Fault Nat := do
  let a ← load mem p
  let b ← load mem (p + 1)
  let c ← load mem (p + 2)
  let d ← load mem (p + 3)
  return a.toNat + b.toNat * 2 ^ 8 + c.toNat * 2 ^ 16 + d.toNat * 2 ^ 24

def trimSpacesLoop (mem : List UInt8) (bufend : Nat) : Nat → Nat → Except Fault Nat
  | 0, _ => .error .fuel
  | fuel + 1, p =>
      if p < bufend then do
        let b ← load mem p
        if b = ' '.toUInt8 then trimSpacesLoop mem bufend fuel (p + 1) else .ok p
      else .ok p

def trimSpaces (s : Parse) (bufend : Nat) : Except Fault Parse := do
  let p ← trimSpacesLoop s.mem bufend (bufend + 1) s.ppbuf
  return { s with ppbuf := p }

def httpParseMethod (s : Parse) (bufend : Nat) : Except Fault (Int × Parse) :=
  if (bufend : Int) - s.ppbuf < 4 then .ok (0, s)
  else do
    let reqstrn ← strToInt32 s.mem s.ppbuf
    match methods.find? (fun method => method.strn == reqstrn) with
    | some method =>
        .ok (method.length,
          { s with
            req := { s.req with method := method.mask }
            ppbuf := s.ppbuf + method.length })
    | none => .ok (0, s)

/-- `kv_set_key_value(&req->query, ..)`; the list never reallocates. -/
def Parse.setQuery (s : Parse) (key value : Nat) : Parse :=
  { s with req := { s.req with query := (kvSetKeyValue true s.req.query key value).2 } }

def Parse.setHeader (s : Parse) (key value : Nat) : Parse :=
  { s with req := { s.req with headers := (kvSetKeyValue true s.req.headers key value).2 } }

/-- The loop of `http_parse_path` over the query string. -/
def parseQueryLoop (endOfPath : Nat) : Nat → Nat → Parse → Except Fault Parse
  | 0, _, _ => .error .fuel
  | fuel + 1, query, s =>
      if query < endOfPath then do
        match ← strchr s.mem query '='.toUInt8 with
        | none => .ok s
        | some qkvSeperator =>
            if qkvSeperator ≥ endOfPath then .ok s
            else do
              let s ← s.store qkvSeperator 0
              let s := s.setQuery query (qkvSeperator + 1)
              match ← strchr s.mem (qkvSeperator + 1) '&'.toUInt8 with
              | none => .ok s
              | some qkvEnd =>
                  if qkvEnd ≥ endOfPath then .ok s
                  else do
                    let s ← s.store qkvEnd 0
                    parseQueryLoop endOfPath fuel (qkvEnd + 1) s
      else .ok s

/-- The query half of `http_parse_path`: `query` is the first `?` found. -/
def parseQuery (s : Parse) (endOfPath : Nat) : Option Nat → Except Fault Parse
  | none => .ok s
  | some query =>
      if query < endOfPath then do
        let s ← s.store query 0
        parseQueryLoop endOfPath (endOfPath + 1) (query + 1) s
      else .ok s

def httpParsePath (s : Parse) (bufend : Nat) : Except Fault (Int × Parse) :=
  let start := s.ppbuf
  if sizeSub bufend start < sizeofLit "/ HTTP/0.0\r\n" then .ok (0, s)
  else do
    let b ← load s.mem start
    if b ≠ '/'.toUInt8 then return (0, s)
    else
      match ← strchr s.mem start ' '.toUInt8 with
      | none => return (0, s)
      | some endOfPath => do
          let query ← strchr s.mem start '?'.toUInt8
          let s ← parseQuery s endOfPath query
          let s ← s.store endOfPath 0
          let s := { s with req := { s.req with path := some start }, ppbuf := endOfPath + 1 }
          return (toInt (s.ppbuf - start), s)

def httpParseProtocol (s : Parse) (bufend : Nat) : Except Fault (Int × Parse) :=
  let start := s.ppbuf
  if sizeSub bufend start < sizeofLit "HTTP/0.0\r\n" then .ok (0, s)
  else do
    match ← strchr s.mem start '\r'.toUInt8 with
    | none => return (0, s)
    | some endOfLine => do
        let word ← strToInt32 s.mem start
        if word ≠ strToInt32Lit 'H' 'T' 'T' 'P' then return (0, s)
        else
          let s := { s with req := { s.req with protocol := some start } }
          let s ← s.store endOfLine 0
          let s := { s with ppbuf := endOfLine + 2 }
          return (toInt (s.ppbuf - start), s)

/-- The body of the header loop between its two searches and the next line. -/
def recordHeader (s : Parse) (start endOfHeaderLine : Nat) : Option Nat → Except Fault Parse
  | none => .ok s
  | some headerSeperator =>
      if headerSeperator < endOfHeaderLine then do
        let s ← s.store headerSeperator 0
        let s ← s.store endOfHeaderLine 0
        return s.setHeader start (headerSeperator + 2)
      else .ok s

def parseHeadersLoop (bufend : Nat) : Nat → Nat → Parse → Except Fault (Nat × Parse)
  | 0, _, _ => .error .fuel
  | fuel + 1, start, s =>
      if start < bufend then do
        match ← strchr s.mem start '\r'.toUInt8 with
        | none => .ok (start, s)
        | some endOfHeaderLine =>
            if sizeSub endOfHeaderLine start < sizeofLit "H: V" then .ok (endOfHeaderLine, s)
            else do
              let headerSeperator ← strchr s.mem start ':'.toUInt8
              let s ← recordHeader s start endOfHeaderLine headerSeperator
              parseHeadersLoop bufend fuel (endOfHeaderLine + 2) s
      else .ok (start, s)

def httpParseHeaders (s : Parse) (bufend : Nat) : Except Fault (Int × Parse) := do
  let (start, t) ← parseHeadersLoop bufend (bufend + 1) s.ppbuf s
  return (toInt (start - s.ppbuf), { t with ppbuf := start })

/-- The part of `http_parse_request` in front of the headers; the flag is false
where the source jumps to `BAD_REQ`. -/
def httpParseRequestLine (s : Parse) (bufend : Nat) : Except Fault (Bool × Parse) := do
  let (_, s) ← httpParseMethod s bufend
  if s.req.method = 0 then return (false, s)
  else
    let s ← trimSpaces s bufend
    let (_, s) ← httpParsePath s bufend
    if s.req.path = none then return (false, s)
    else
      let (_, s) ← httpParseProtocol s bufend
      if s.req.protocol = none then return (false, s)
      else return (true, s)

/-- `http_parse_request(req, buf, buflen)` with `buf` at offset 0. -/
def httpParseRequest (s : Parse) (buflen : Nat) : Except Fault (Int × Parse) := do
  let (accepted, s) ← httpParseRequestLine s buflen
  if accepted then
    let (_, s) ← httpParseHeaders s buflen
    return (1, s)
  else return (0, s)

/-- A request as `RESET` leaves it, over buffers of 20 entries. -/
def HttpRequest.cleared : HttpRequest where
  method := 0
  path := none
  protocol := none
  query := kvInitWithBuf (List.replicate 20 none)
  headers := kvInitWithBuf (List.replicate 20 none)

/-- The receive buffer when the handler passes it to the parser: `received`
bytes of a block that is zero behind them. The block is one `string_init` made,
and the check for a full buffer has been passed. -/
structure RecvBuf where
  mem : List UInt8
  received : Nat
  capacity_ge : 64 ≤ mem.length
  capacity_lt : mem.length < 2 ^ 63
  received_pos : 0 < received
  received_lt : received < mem.length
  zero_tail : ∀ i, received ≤ i → i < mem.length → mem[i]? = some 0

/-- The bytes the client sent. -/
def RecvBuf.bytes (b : RecvBuf) : List UInt8 := b.mem.take b.received

theorem zeroed_length {bytes : List UInt8} {capacity : Nat} (h : bytes.length < capacity) :
    (bytes ++ List.replicate (capacity - bytes.length) (0 : UInt8)).length = capacity := by
  rw [List.length_append, List.length_replicate]
  omega

theorem zeroed_tail (bytes : List UInt8) (n i : Nat) (hi : bytes.length ≤ i)
    (hlt : i < (bytes ++ List.replicate n (0 : UInt8)).length) :
    (bytes ++ List.replicate n (0 : UInt8))[i]? = some 0 := by
  rw [List.length_append, List.length_replicate] at hlt
  rw [List.getElem?_append_right hi]
  exact List.getElem?_replicate_of_lt (by omega)

/-- A zeroed block of the given capacity after a `recv` has written `bytes`. -/
def RecvBuf.ofBytes (bytes : List UInt8) (capacity : Nat) (hpos : 0 < bytes.length)
    (hlt : bytes.length < capacity) (hmin : 64 ≤ capacity) (hmax : capacity < 2 ^ 63) :
    RecvBuf where
  mem := bytes ++ List.replicate (capacity - bytes.length) 0
  received := bytes.length
  capacity_ge := hmin.trans_eq (zeroed_length hlt).symm
  capacity_lt := (zeroed_length hlt).trans_lt hmax
  received_pos := hpos
  received_lt := hlt.trans_eq (zeroed_length hlt).symm
  zero_tail := zeroed_tail bytes (capacity - bytes.length)

theorem exampleCapacity_ge : 64 ≤ 100 := by decide

theorem exampleCapacity_lt : 100 < 2 ^ 63 := by decide

/-- A text as it is received into a block of 100 bytes. -/
def textExample (text : String) (hpos : 0 < (ascii text).length)
    (hlt : (ascii text).length < 100) : RecvBuf :=
  .ofBytes (ascii text) 100 hpos hlt exampleCapacity_ge exampleCapacity_lt

theorem RecvBuf.mem_eq (b : RecvBuf) : b.mem = b.bytes ++ b.mem.drop b.received :=
  (List.take_append_drop b.received b.mem).symm

theorem RecvBuf.length_bytes (b : RecvBuf) : b.bytes.length = b.received :=
  List.length_take_of_le (Nat.le_of_lt b.received_lt)

theorem RecvBuf.tail_zero (b : RecvBuf) {c : UInt8} (h : c ∈ b.mem.drop b.received) : c = 0 := by
  obtain ⟨i, hi, rfl⟩ := List.getElem_of_mem h
  rw [List.length_drop] at hi
  have hzero := b.zero_tail (b.received + i) (by omega) (by omega)
  rw [← List.getElem?_drop] at hzero
  exact (List.getElem_eq_iff _).mpr hzero

def Parse.start (mem : List UInt8) : Parse := ⟨mem, [], HttpRequest.cleared, 0⟩

end L4Server
