import L4Server.HttpParser

/-!
Memory safety of the request parser on every received buffer. `Safe n C s` says
that the block keeps its size and its zero tail behind the `n` received bytes,
that all writes so far hit received bytes, and that no recorded pointer lies
behind offset `n`. Every stage keeps it; a stage whose cursor is past the
received bytes meets the zero tail and gives up.
-/
namespace L4Server
open CMemory

def Kv.pointers (kvmap : Kv Nat) : List Nat :=
  (kvmap.stored.filterMap id).flatMap fun p => [p.key, p.value]

theorem Kv.mem_pointers {kvmap : Kv Nat} {p : Nat} :
    p ∈ kvmap.pointers ↔ ∃ q, some q ∈ kvmap.stored ∧ (p = q.key ∨ p = q.value) := by
  simp [Kv.pointers]

/-- All pointers into the receive buffer that a request holds. -/
def HttpRequest.pointers (req : HttpRequest) : List Nat :=
  req.path.toList ++ req.protocol.toList ++ req.query.pointers ++ req.headers.pointers

structure Safe (n C : Nat) (s : Parse) : Prop where
  length : s.mem.length = C
  received : n < C
  tail : ∀ i, n ≤ i → i < C → s.mem[i]? = some 0
  stores : ∀ i ∈ s.stores, i < n
  pointers : ∀ p ∈ s.req.pointers, p ≤ n

theorem kvSetKeyValue_pointers (realloc : Bool) (kvmap : Kv Nat) (key value p : Nat)
    (hflag : kvmap.flag = kvFlagProvided)
    (h : p ∈ (kvSetKeyValue realloc kvmap key value).2.pointers) :
    p ∈ kvmap.pointers ∨ p = key ∨ p = value := by
  obtain ⟨hs, -, -⟩ := kvSetKeyValue_provided realloc kvmap key value hflag
  obtain ⟨q, hq, hp⟩ := Kv.mem_pointers.mp h
  rw [hs] at hq
  rcases List.mem_append.mp (List.mem_of_mem_take hq) with hold | hnew
  · exact .inl (Kv.mem_pointers.mpr ⟨q, hold, hp⟩)
  · obtain rfl : q = ⟨key, value⟩ := by simpa using hnew
    exact .inr hp

/-- Both request lists live in the handler's fixed buffers. -/
structure HttpRequest.Provided (req : HttpRequest) : Prop where
  query : req.query.Provided
  headers : req.headers.Provided

theorem HttpRequest.cleared_provided : HttpRequest.cleared.Provided :=
  ⟨⟨rfl, rfl⟩, ⟨rfl, rfl⟩⟩

variable {n C : Nat} {s : Parse}

theorem Safe.store (hs : Safe n C s) {i : Nat} (hi : i < n) :
    ∃ t, s.store i 0 = .ok t ∧ Safe n C t ∧ t.req = s.req ∧ t.ppbuf = s.ppbuf := by
  have hlen : i < s.mem.length := by rw [hs.length]; exact Nat.lt_trans hi hs.received
  refine ⟨{ s with mem := s.mem.set i 0, stores := i :: s.stores }, ?_, ?_, rfl, rfl⟩
  · simp [Parse.store, store_eq_ok 0 hlen, bind, Except.bind, pure, Except.pure]
  · refine ⟨by simpa using hs.length, hs.received, ?_, ?_, hs.pointers⟩
    · intro j hj hjC
      rw [List.getElem?_set_ne (by omega)]
      exact hs.tail j hj hjC
    · intro j hj
      rcases List.mem_cons.mp hj with rfl | hj
      · exact hi
      · exact hs.stores j hj

/-- A search from a cursor at or before the end of the received bytes stops at
the zero tail, and what it finds is a received byte. -/
theorem Safe.strchr (hs : Safe n C s) {p : Nat} (hp : p ≤ n) {c : UInt8} (hc : c ≠ 0) :
    ∃ r, strchr s.mem p c = .ok r ∧ ∀ i, r = some i → p ≤ i ∧ i < n := by
  obtain ⟨r, hr⟩ := strchr_total c (hs.tail n (Nat.le_refl n) hs.received) hp
  refine ⟨r, hr, ?_⟩
  rintro i rfl
  obtain ⟨hpi, hget⟩ := strchr_some_bounds hr
  refine ⟨hpi, Nat.lt_of_not_le fun hni => ?_⟩
  have hiC : i < C := by
    rw [← hs.length]
    exact (List.getElem?_eq_some_iff.mp hget).1
  rw [hs.tail i hni hiC] at hget
  exact hc (Option.some.inj hget).symm

theorem Safe.load (hs : Safe n C s) {p : Nat} (hp : p < C) :
    ∃ b, load s.mem p = .ok b ∧ (n ≤ p → b = 0) := by
  have hlen : p < s.mem.length := by rw [hs.length]; exact hp
  refine ⟨s.mem[p], load_eq_ok hlen, fun hn => ?_⟩
  have htail := hs.tail p hn hp
  rw [List.getElem?_eq_getElem hlen] at htail
  exact Option.some.inj htail

theorem Safe.strToInt32 (hs : Safe n C s) {p : Nat} (hp : p + 3 < C) :
    ∃ v, strToInt32 s.mem p = .ok v := by
  obtain ⟨a, ha, -⟩ := hs.load (p := p) (by omega)
  obtain ⟨b, hb, -⟩ := hs.load (p := p + 1) (by omega)
  obtain ⟨c, hc, -⟩ := hs.load (p := p + 2) (by omega)
  obtain ⟨d, hd, -⟩ := hs.load (p := p + 3) hp
  simp [L4Server.strToInt32, ha, hb, hc, hd, bind, Except.bind, pure, Except.pure]

/-! The stages. -/

theorem method_length_le {m : HttpMethod} (h : m ∈ methods) : m.length ≤ 7 := by
  revert m
  decide

theorem httpParseMethod_safe (hs : Safe n C s) (h0 : s.ppbuf = 0) :
    ∃ r t, httpParseMethod s n = .ok (r, t) ∧ Safe n C t ∧ t.ppbuf ≤ 7 ∧
      t.req.path = s.req.path ∧ (s.req.Provided → t.req.Provided) := by
  unfold httpParseMethod
  split
  · exact ⟨0, s, rfl, hs, by omega, rfl, id⟩
  · next hlen =>
    obtain ⟨v, hv⟩ := hs.strToInt32 (p := s.ppbuf) (by have := hs.received; omega)
    simp only [hv, bind, Except.bind]
    split
    · next m hm =>
      have hmem := List.mem_of_find?_eq_some hm
      refine ⟨_, _, rfl, ⟨hs.length, hs.received, hs.tail, hs.stores, hs.pointers⟩, ?_, rfl,
        fun h => ⟨h.query, h.headers⟩⟩
      have := method_length_le hmem
      simp only
      omega
    · exact ⟨0, s, rfl, hs, by omega, rfl, id⟩

theorem trimSpacesLoop_safe (hs : Safe n C s) (fuel p : Nat) (hf : n - p < fuel) :
    ∃ q, trimSpacesLoop s.mem n fuel p = .ok q ∧ p ≤ q ∧ (q ≤ n ∨ q = p) := by
  induction fuel generalizing p with
  | zero => omega
  | succ fuel ih =>
      unfold trimSpacesLoop
      split
      · next hp =>
        obtain ⟨b, hb, -⟩ := hs.load (p := p) (Nat.lt_trans hp hs.received)
        simp only [hb, bind, Except.bind]
        split
        · obtain ⟨q, hq, hle, hor⟩ := ih (p + 1) (by omega)
          exact ⟨q, hq, by omega, by omega⟩
        · exact ⟨p, rfl, Nat.le_refl p, .inr rfl⟩
      · exact ⟨p, rfl, Nat.le_refl p, .inr rfl⟩

theorem trimSpaces_safe (hs : Safe n C s) :
    ∃ t, trimSpaces s n = .ok t ∧ Safe n C t ∧ t.req = s.req ∧
      (t.ppbuf ≤ n ∨ t.ppbuf = s.ppbuf) := by
  obtain ⟨q, hq, -, hor⟩ := trimSpacesLoop_safe hs (n + 1) s.ppbuf (by omega)
  refine ⟨{ s with ppbuf := q }, by simp [trimSpaces, hq, bind, Except.bind, pure, Except.pure],
    ⟨hs.length, hs.received, hs.tail, hs.stores, hs.pointers⟩, rfl, hor⟩

theorem Safe.setQuery (hs : Safe n C s) (hp : s.req.Provided) (key value : Nat)
    (hk : key ≤ n) (hv : value ≤ n) :
    Safe n C (s.setQuery key value) ∧ (s.setQuery key value).req.Provided := by
  refine ⟨⟨hs.length, hs.received, hs.tail, hs.stores, ?_⟩,
    ⟨hp.query.set true key value, hp.headers⟩⟩
  intro p hmem
  simp only [HttpRequest.pointers, Parse.setQuery, List.mem_append] at hmem
  have hold := hs.pointers
  simp only [HttpRequest.pointers, List.mem_append] at hold
  rcases hmem with (h | h) | h
  · exact hold p (.inl (.inl h))
  · rcases kvSetKeyValue_pointers true _ key value p hp.query.flag h with h | rfl | rfl
    · exact hold p (.inl (.inr h))
    · exact hk
    · exact hv
  · exact hold p (.inr h)

theorem Safe.setHeader (hs : Safe n C s) (hp : s.req.Provided) (key value : Nat)
    (hk : key ≤ n) (hv : value ≤ n) :
    Safe n C (s.setHeader key value) ∧ (s.setHeader key value).req.Provided := by
  refine ⟨⟨hs.length, hs.received, hs.tail, hs.stores, ?_⟩,
    ⟨hp.query, hp.headers.set true key value⟩⟩
  intro p hmem
  simp only [HttpRequest.pointers, Parse.setHeader, List.mem_append] at hmem
  have hold := hs.pointers
  simp only [HttpRequest.pointers, List.mem_append] at hold
  rcases hmem with h | h
  · exact hold p (.inl h)
  · rcases kvSetKeyValue_pointers true _ key value p hp.headers.flag h with h | rfl | rfl
    · exact hold p (.inr h)
    · exact hk
    · exact hv

theorem parseQueryLoop_safe {endOfPath : Nat} (he : endOfPath < n) (fuel query : Nat)
    (hf : endOfPath - query < fuel) {s : Parse} (hs : Safe n C s) (hp : s.req.Provided) :
    ∃ t, parseQueryLoop endOfPath fuel query s = .ok t ∧ Safe n C t ∧ t.req.Provided := by
  induction fuel generalizing query s with
  | zero => omega
  | succ fuel ih =>
      unfold parseQueryLoop
      split
      · next hq =>
        obtain ⟨r, hr, hr'⟩ := hs.strchr (p := query) (c := '='.toUInt8) (by omega) (by decide)
        simp only [hr, bind, Except.bind]
        cases r with
        | none => exact ⟨s, rfl, hs, hp⟩
        | some sep =>
            obtain ⟨hle, hlt⟩ := hr' sep rfl
            simp only
            split
            · exact ⟨s, rfl, hs, hp⟩
            · obtain ⟨t, ht, hts, htr, -⟩ := hs.store hlt
              rw [ht]
              obtain ⟨hus, hup⟩ := hts.setQuery (htr ▸ hp) query (sep + 1)
                (by omega) (by omega)
              obtain ⟨r2, hr2, hr2'⟩ := hus.strchr (p := sep + 1) (c := '&'.toUInt8)
                (by omega) (by decide)
              simp only [hr2]
              cases r2 with
              | none => exact ⟨_, rfl, hus, hup⟩
              | some qend =>
                  obtain ⟨hle2, hlt2⟩ := hr2' qend rfl
                  simp only
                  split
                  · exact ⟨_, rfl, hus, hup⟩
                  · obtain ⟨v, hv, hvs, hvr, -⟩ := hus.store hlt2
                    rw [hv]
                    exact ih (qend + 1) (by omega) hvs (hvr ▸ hup)
      · exact ⟨s, rfl, hs, hp⟩

theorem parseQuery_safe {endOfPath : Nat} (he : endOfPath < n) (hs : Safe n C s)
    (hp : s.req.Provided) (query : Option Nat) (hq : ∀ i, query = some i → i < n) :
    ∃ t, parseQuery s endOfPath query = .ok t ∧ Safe n C t ∧ t.req.Provided := by
  cases query with
  | none => exact ⟨s, rfl, hs, hp⟩
  | some i =>
      unfold parseQuery
      simp only
      split
      · obtain ⟨t, ht, hts, htr, -⟩ := hs.store (hq i rfl)
        simp only [ht, bind, Except.bind]
        exact parseQueryLoop_safe he _ _ (by omega) hts (htr ▸ hp)
      · exact ⟨s, rfl, hs, hp⟩

/-- A cursor behind the received bytes meets a zero byte instead of `/`. -/
theorem httpParsePath_safe (hs : Safe n C s) (hp : s.req.Provided) (hb : s.ppbuf < C) :
    ∃ r t, httpParsePath s n = .ok (r, t) ∧ Safe n C t ∧ t.req.Provided ∧
      (t = s ∨ t.ppbuf ≤ n) := by
  unfold httpParsePath
  simp only
  split
  · exact ⟨0, s, rfl, hs, hp, .inl rfl⟩
  · obtain ⟨b, hload, hzero⟩ := hs.load hb
    simp only [hload, bind, Except.bind]
    split
    · exact ⟨0, s, rfl, hs, hp, .inl rfl⟩
    · next hslash =>
      have hlt : s.ppbuf < n := Nat.lt_of_not_le fun h => hslash (by rw [hzero h]; decide)
      obtain ⟨r, hr, hr'⟩ := hs.strchr (p := s.ppbuf) (c := ' '.toUInt8) (by omega) (by decide)
      simp only [hr]
      cases r with
      | none => exact ⟨0, s, rfl, hs, hp, .inl rfl⟩
      | some e =>
          obtain ⟨-, he⟩ := hr' e rfl
          obtain ⟨q, hq, hq'⟩ := hs.strchr (p := s.ppbuf) (c := '?'.toUInt8) (by omega)
            (by decide)
          obtain ⟨t, ht, hts, htp⟩ := parseQuery_safe he hs hp q fun i hi => (hq' i hi).2
          obtain ⟨u, hu, hus, hur, -⟩ := hts.store he
          simp only [hq, ht, hu]
          refine ⟨_, _, rfl, ⟨hus.length, hus.received, hus.tail, hus.stores, ?_⟩,
            ⟨hur ▸ htp.query, hur ▸ htp.headers⟩, .inr he⟩
          intro p hmem
          have hold := hus.pointers
          simp only [HttpRequest.pointers, List.mem_append, Option.mem_toList] at hmem hold
          rcases hmem with ((h | h) | h) | h
          · obtain rfl := Option.some.inj h
            omega
          · exact hold p (.inl (.inl (.inr h)))
          · exact hold p (.inl (.inr h))
          · exact hold p (.inr h)

theorem httpParseProtocol_safe (hs : Safe n C s) (hp : s.req.Provided) (hn : n < 2 ^ 64)
    (hb : s.ppbuf ≤ n) :
    ∃ r t, httpParseProtocol s n = .ok (r, t) ∧ Safe n C t ∧ t.req.Provided ∧
      t.ppbuf ≤ n + 1 := by
  unfold httpParseProtocol
  simp only
  split
  · exact ⟨0, s, rfl, hs, hp, by omega⟩
  · next hlen =>
    rw [sizeSub_of_le hb hn, show sizeofLit "HTTP/0.0\r\n" = 11 by decide] at hlen
    obtain ⟨r, hr, hr'⟩ := hs.strchr (p := s.ppbuf) (c := '\r'.toUInt8) hb (by decide)
    simp only [hr, bind, Except.bind]
    cases r with
    | none => exact ⟨0, s, rfl, hs, hp, by omega⟩
    | some e =>
        obtain ⟨-, he⟩ := hr' e rfl
        obtain ⟨v, hv⟩ := hs.strToInt32 (p := s.ppbuf) (by have := hs.received; omega)
        simp only [hv]
        split
        · exact ⟨0, s, rfl, hs, hp, by omega⟩
        · have hs1 : Safe n C { s with req := { s.req with protocol := some s.ppbuf } } := by
            refine ⟨hs.length, hs.received, hs.tail, hs.stores, ?_⟩
            intro p hmem
            have hold := hs.pointers
            simp only [HttpRequest.pointers, List.mem_append, Option.mem_toList] at hmem hold
            rcases hmem with ((h | h) | h) | h
            · exact hold p (.inl (.inl (.inl h)))
            · obtain rfl := Option.some.inj h
              exact hb
            · exact hold p (.inl (.inr h))
            · exact hold p (.inr h)
          obtain ⟨t, ht, hts, htr, -⟩ := hs1.store he
          simp only [ht]
          exact ⟨_, _, rfl, ⟨hts.length, hts.received, hts.tail, hts.stores, hts.pointers⟩,
            ⟨htr ▸ hp.query, htr ▸ hp.headers⟩, by simp only; omega⟩

theorem recordHeader_safe (hs : Safe n C s) (hp : s.req.Provided) (start : Nat) {eol : Nat}
    (hstart : start ≤ n) (he : eol < n) (sep : Option Nat) (hsep : ∀ i, sep = some i → i < n) :
    ∃ t, recordHeader s start eol sep = .ok t ∧ Safe n C t ∧ t.req.Provided := by
  cases sep with
  | none => exact ⟨s, rfl, hs, hp⟩
  | some i =>
      unfold recordHeader
      simp only
      split
      · next hlt =>
        obtain ⟨t, ht, hts, htr, -⟩ := hs.store (hsep i rfl)
        obtain ⟨u, hu, hus, hur, -⟩ := hts.store he
        simp only [ht, hu, bind, Except.bind, pure, Except.pure]
        obtain ⟨hvs, hvp⟩ := hus.setHeader (hur ▸ htr ▸ hp) start (i + 2)
          hstart (by omega)
        exact ⟨_, rfl, hvs, hvp⟩
      · exact ⟨s, rfl, hs, hp⟩

theorem parseHeadersLoop_safe (fuel start : Nat) (hf : n - start < fuel) {s : Parse}
    (hs : Safe n C s) (hp : s.req.Provided) :
    ∃ q t, parseHeadersLoop n fuel start s = .ok (q, t) ∧ Safe n C t ∧ t.req.Provided := by
  induction fuel generalizing start s with
  | zero => omega
  | succ fuel ih =>
      unfold parseHeadersLoop
      split
      · next hlt =>
        obtain ⟨r, hr, hr'⟩ := hs.strchr (p := start) (c := '\r'.toUInt8) (by omega) (by decide)
        simp only [hr, bind, Except.bind]
        cases r with
        | none => exact ⟨start, s, rfl, hs, hp⟩
        | some eol =>
            obtain ⟨hle, he⟩ := hr' eol rfl
            simp only
            split
            · exact ⟨eol, s, rfl, hs, hp⟩
            · obtain ⟨sep, hsep, hsep'⟩ := hs.strchr (p := start) (c := ':'.toUInt8) (by omega)
                (by decide)
              obtain ⟨t, ht, hts, htp⟩ := recordHeader_safe hs hp start (by omega) he
                sep fun i hi => (hsep' i hi).2
              simp only [hsep, ht]
              exact ih (eol + 2) (by omega) hts htp
      · exact ⟨start, s, rfl, hs, hp⟩

theorem httpParseHeaders_safe (hs : Safe n C s) (hp : s.req.Provided) :
    ∃ r t, httpParseHeaders s n = .ok (r, t) ∧ Safe n C t ∧ t.req.Provided := by
  obtain ⟨q, t, ht, hts, htp⟩ := parseHeadersLoop_safe (n + 1) s.ppbuf (by omega) hs hp
  refine ⟨toInt (q - s.ppbuf), { t with ppbuf := q }, ?_,
    ⟨hts.length, hts.received, hts.tail, hts.stores, hts.pointers⟩, htp⟩
  simp [httpParseHeaders, ht, bind, Except.bind, pure, Except.pure]

theorem httpParseRequestLine_safe (hs : Safe n C s) (hp : s.req.Provided) (hC : 64 ≤ C)
    (hn : n < 2 ^ 64) (h0 : s.ppbuf = 0) (hpath : s.req.path = none) :
    ∃ r t, httpParseRequestLine s n = .ok (r, t) ∧ Safe n C t ∧ t.req.Provided := by
  obtain ⟨r1, t1, h1, hs1, hb1, hpath1, hp1⟩ := httpParseMethod_safe hs h0
  obtain ⟨t2, h2, hs2, hr2, hb2⟩ := trimSpaces_safe hs1
  have hp2 : t2.req.Provided := hr2 ▸ hp1 hp
  have hlt : t2.ppbuf < C := by
    rcases hb2 with h | h
    · exact Nat.lt_of_le_of_lt h hs.received
    · omega
  obtain ⟨r3, t3, h3, hs3, hp3, hb3⟩ := httpParsePath_safe hs2 hp2 hlt
  unfold httpParseRequestLine
  simp only [h1, bind, Except.bind]
  split
  · exact ⟨_, _, rfl, hs1, hp1 hp⟩
  · simp only [h2, h3]
    split
    · exact ⟨_, _, rfl, hs3, hp3⟩
    · next hfound =>
      have hb : t3.ppbuf ≤ n := by
        rcases hb3 with rfl | h
        · exact absurd (by rw [hr2, hpath1, hpath]) hfound
        · exact h
      obtain ⟨r4, t4, h4, hs4, hp4, -⟩ := httpParseProtocol_safe hs3 hp3 hn hb
      simp only [h4]
      split
      · exact ⟨_, _, rfl, hs4, hp4⟩
      · exact ⟨_, _, rfl, hs4, hp4⟩

theorem httpParseRequest_keeps_safe (hs : Safe n C s) (hp : s.req.Provided) (hC : 64 ≤ C)
    (hn : n < 2 ^ 64) (h0 : s.ppbuf = 0) (hpath : s.req.path = none) :
    ∃ r t, httpParseRequest s n = .ok (r, t) ∧ Safe n C t ∧ t.req.Provided := by
  obtain ⟨accepted, t, ht, hts, htp⟩ := httpParseRequestLine_safe hs hp hC hn h0 hpath
  unfold httpParseRequest
  simp only [ht, bind, Except.bind]
  cases accepted with
  | false => exact ⟨0, t, rfl, hts, htp⟩
  | true =>
      obtain ⟨r, u, hu, hus, hup⟩ := httpParseHeaders_safe hts htp
      simp only [hu]
      exact ⟨1, u, rfl, hus, hup⟩

theorem Safe.start (b : RecvBuf) : Safe b.received b.mem.length (Parse.start b.mem) where
  length := rfl
  received := b.received_lt
  tail := b.zero_tail
  stores := by simp [Parse.start]
  pointers := by
    simp [Parse.start, HttpRequest.pointers, HttpRequest.cleared, Kv.pointers]

/-- Parsing ends without a fault on every received buffer; it writes received
bytes only, and each pointer it stores is the start of a text that a NUL inside
the block ends. -/
theorem httpParseRequest_memory_safe (b : RecvBuf) :
    ∃ ret t, httpParseRequest (Parse.start b.mem) b.received = .ok (ret, t) ∧
      t.mem.length = b.mem.length ∧
      (∀ i ∈ t.stores, i < b.received) ∧
      ∀ p ∈ t.req.pointers, p ≤ b.received ∧
        ∃ z, p ≤ z ∧ z < b.mem.length ∧ t.mem[z]? = some 0 := by
  have hn : b.received < 2 ^ 64 := by
    have := b.received_lt
    have := b.capacity_lt
    omega
  obtain ⟨ret, t, ht, hts, -⟩ := httpParseRequest_keeps_safe (Safe.start b)
    HttpRequest.cleared_provided b.capacity_ge hn rfl rfl
  refine ⟨ret, t, ht, hts.length, hts.stores, fun p hp => ?_⟩
  have hle := hts.pointers p hp
  exact ⟨hle, b.received, hle, b.received_lt, hts.tail _ (Nat.le_refl _) b.received_lt⟩

end L4Server
