import L4Server.ParserSafety

/-!
What the stages of the parser compute, read off the layout of the buffer. Each
stage meets the buffer as `front ++ (section ++ delimiter :: rest)` with the
cursor behind `front`, and leaves `front` alone. A query string is described by
its view: the marked text the loop leaves and the pairs it records.
-/
namespace L4Server
open CMemory

abbrev TextPair := List UInt8 × List UInt8

/-- `QueryView q q' ps`: the query loop turns the text `q` into `q'` and records
the keys and values `ps`. A key runs to the first `=`, a value to the `&` after. -/
inductive QueryView : List UInt8 → List UInt8 → List TextPair → Prop
  | none {q : List UInt8} : '='.toUInt8 ∉ q → QueryView q q []
  | last {k v : List UInt8} : '='.toUInt8 ∉ k → '&'.toUInt8 ∉ v →
      QueryView (k ++ '='.toUInt8 :: v) (k ++ 0 :: v) [(k, v)]
  | more {k v q q' : List UInt8} {ps : List TextPair} :
      '='.toUInt8 ∉ k → '&'.toUInt8 ∉ v → QueryView q q' ps →
      QueryView (k ++ '='.toUInt8 :: (v ++ '&'.toUInt8 :: q)) (k ++ 0 :: (v ++ 0 :: q'))
        ((k, v) :: ps)

/-- Offsets of pairs laid out one after the other, one delimiter behind each
key and each value. -/
def pairOffsets : Nat → List TextPair → List (KvPair Nat)
  | _, [] => []
  | off, (k, v) :: ps =>
      ⟨off, off + k.length + 1⟩ :: pairOffsets (off + k.length + 1 + v.length + 1) ps

def textsAt (mem : List UInt8) (p : KvPair Nat) : TextPair :=
  (cString mem p.key, cString mem p.value)

theorem QueryView.length {q q' : List UInt8} {ps : List TextPair} (h : QueryView q q' ps) :
    q'.length = q.length := by
  induction h with
  | none _ => rfl
  | last _ _ => simp
  | more _ _ _ ih => simp [ih]

/-- A marked query text in front of a NUL holds the recorded pairs. -/
theorem QueryView.texts {q q' : List UInt8} {ps : List TextPair} (h : QueryView q q' ps)
    (h0 : 0 ∉ q) (front rest : List UInt8) {mem : List UInt8}
    (hmem : mem = front ++ (q' ++ 0 :: rest)) {off : Nat} (hoff : off = front.length) :
    (pairOffsets off ps).map (textsAt mem) = ps := by
  induction h generalizing front off with
  | none _ => rfl
  | @last k v _ _ =>
      have hk : 0 ∉ k := fun h => h0 (by simp [h])
      have hv : 0 ∉ v := fun h => h0 (by simp [h])
      have hkey : cString mem off = k :=
        cString_eq front (v ++ 0 :: rest) (by simp [hmem]) hoff hk
      have hvalue : cString mem (off + k.length + 1) = v :=
        cString_eq (front ++ (k ++ [0])) rest (by simp [hmem])
          (by simp [hoff]; omega) hv
      simp [pairOffsets, textsAt, hkey, hvalue]
  | @more k v q q' ps _ _ _ ih =>
      have hk : 0 ∉ k := fun h => h0 (by simp [h])
      have hv : 0 ∉ v := fun h => h0 (by simp [h])
      have hq : 0 ∉ q := fun h => h0 (by simp [h])
      have hkey : cString mem off = k :=
        cString_eq front (v ++ 0 :: (q' ++ 0 :: rest)) (by simp [hmem])
          hoff hk
      have hvalue : cString mem (off + k.length + 1) = v :=
        cString_eq (front ++ (k ++ [0])) (q' ++ 0 :: rest) (by simp [hmem])
          (by simp [hoff]; omega) hv
      have hoff' : off + k.length + 1 + v.length + 1 = (front ++ (k ++ 0 :: (v ++ [0]))).length := by
        simp [hoff]
        omega
      have hrest := ih hq (front ++ (k ++ 0 :: (v ++ [0]))) (by simp [hmem]) hoff'
      simp [pairOffsets, textsAt, hkey, hvalue, hrest]

/-- Every text has a query view. -/
theorem exists_queryView (q : List UInt8) : ∃ q' ps, QueryView q q' ps := by
  induction hn : q.length using Nat.strong_induction_on generalizing q with
  | _ n ih =>
      by_cases he : '='.toUInt8 ∈ q
      · obtain ⟨k, r, rfl, hk⟩ := List.eq_append_cons_of_mem he
        by_cases ha : '&'.toUInt8 ∈ r
        · obtain ⟨v, u, rfl, hv⟩ := List.eq_append_cons_of_mem ha
          obtain ⟨u', ps, hu⟩ := ih u.length (by simp at hn; omega) u rfl
          exact ⟨_, _, .more hk hv hu⟩
        · exact ⟨_, _, .last hk ha⟩
      · exact ⟨q, [], .none he⟩

/-! The query loop. -/

@[simp] theorem Parse.setQuery_mem (s : Parse) (key value : Nat) :
    (s.setQuery key value).mem = s.mem := rfl

/-- A store at a known place in the layout. -/
theorem Parse.store_found (s : Parse) (front rest : List UInt8) {b : UInt8} {p : Nat}
    (hmem : s.mem = front ++ b :: rest) (hp : p = front.length) (c : UInt8) :
    ∃ t, s.store p c = .ok t ∧ t.mem = front ++ c :: rest ∧ t.req = s.req ∧
      t.ppbuf = s.ppbuf := by
  refine ⟨{ s with mem := front ++ c :: rest, stores := p :: s.stores }, ?_, rfl, rfl, rfl⟩
  simp [Parse.store, CMemory.store_found hmem hp, bind, Except.bind, pure, Except.pure]

/-- One key: the loop marks its `=`, records the pair, and looks for the `&`. -/
theorem parseQueryLoop_key {k : List UInt8} (hk : '='.toUInt8 ∉ k) (hk0 : 0 ∉ k)
    (front tail : List UInt8) (fuel : Nat) {query endOfPath : Nat} {s : Parse}
    (hmem : s.mem = front ++ (k ++ '='.toUInt8 :: tail)) (hq : query = front.length)
    (he : query + k.length < endOfPath) :
    ∃ t : Parse, t.mem = front ++ (k ++ 0 :: tail) ∧ t.ppbuf = s.ppbuf ∧
      t.req = (s.setQuery query (query + k.length + 1)).req ∧
      parseQueryLoop endOfPath (fuel + 1) query s = (do
        match ← strchr t.mem (query + k.length + 1) '&'.toUInt8 with
        | none => .ok t
        | some qkvEnd =>
            if qkvEnd ≥ endOfPath then .ok t
            else do
              let u ← t.store qkvEnd 0
              parseQueryLoop endOfPath fuel (qkvEnd + 1) u) := by
  have hsep : strchr s.mem query '='.toUInt8 = .ok (some (query + k.length)) :=
    strchr_found front k tail hmem hq hk hk0
  obtain ⟨t, ht, htmem, htreq, htpp⟩ := s.store_found (front ++ k) tail (b := '='.toUInt8)
    (p := query + k.length) (by simp [hmem]) (by simp [hq]) 0
  refine ⟨t.setQuery query (query + k.length + 1), by simp [htmem], htpp, ?_, ?_⟩
  · simp [Parse.setQuery, htreq]
  · rw [parseQueryLoop, if_pos (by omega)]
    simp only [hsep, bind, Except.bind]
    rw [if_neg (by omega)]
    exact ht ▸ rfl

theorem parseQueryLoop_view {q q' : List UInt8} {ps : List TextPair} (hv : QueryView q q' ps)
    (h0 : 0 ∉ q) (front : List UInt8) {rest : List UInt8} (hrest : 0 ∈ rest)
    (fuel query endOfPath : Nat)
    (hf : q.length < fuel) {s : Parse} (hmem : s.mem = front ++ (q ++ ' '.toUInt8 :: rest))
    (hq : query = front.length) (he : endOfPath = query + q.length) :
    ∃ t, parseQueryLoop endOfPath fuel query s = .ok t ∧
      t.mem = front ++ (q' ++ ' '.toUInt8 :: rest) ∧ t.ppbuf = s.ppbuf ∧
      t.req = { s.req with query := kvSetAll true s.req.query (pairOffsets query ps) } := by
  have hrest' : (0 : UInt8) ∈ ' '.toUInt8 :: rest := List.mem_cons_of_mem _ hrest
  induction hv generalizing front s fuel query endOfPath with
  | @none q hnone =>
      obtain ⟨fuel, rfl⟩ : ∃ f, fuel = f + 1 := ⟨fuel - 1, by omega⟩
      obtain ⟨r, hr, hr'⟩ := strchr_skip s.mem front hmem hq hnone hrest'
      unfold parseQueryLoop
      split
      · simp only [hr, bind, Except.bind]
        cases r with
        | none => exact ⟨s, rfl, hmem, rfl, rfl⟩
        | some i =>
            simp only
            rw [if_pos (by have := hr' i rfl; omega)]
            exact ⟨s, rfl, hmem, rfl, rfl⟩
      · exact ⟨s, rfl, hmem, rfl, rfl⟩
  | @last k v hk hv =>
      obtain ⟨fuel, rfl⟩ : ∃ f, fuel = f + 1 := ⟨fuel - 1, by omega⟩
      simp only [List.length_append, List.length_cons] at he hf
      have hlt : query + k.length < endOfPath := by omega
      obtain ⟨t, htmem, htpp, htreq, hloop⟩ := parseQueryLoop_key hk (fun h => h0 (by simp [h]))
        front (v ++ ' '.toUInt8 :: rest) fuel (s := s) (by simp [hmem]) hq hlt
      obtain ⟨r, hr, hr'⟩ := strchr_skip t.mem (front ++ (k ++ [0]))
        (p := query + k.length + 1) (by simp [htmem]) (by simp [hq]; omega) hv hrest'
      refine ⟨t, ?_, by simp [htmem], htpp, htreq⟩
      rw [hloop, hr]
      cases r with
      | none => rfl
      | some i =>
          have hout := hr' i rfl
          exact if_pos (by omega)
  | @more k v q q' ps hk hv hview ih =>
      obtain ⟨fuel, rfl⟩ : ∃ f, fuel = f + 1 := ⟨fuel - 1, by omega⟩
      have hv0 : 0 ∉ v := fun h => h0 (by simp [h])
      have hq0 : 0 ∉ q := fun h => h0 (by simp [h])
      simp only [List.length_append, List.length_cons] at he hf
      have hlt : query + k.length < endOfPath := by omega
      obtain ⟨t, htmem, htpp, htreq, hloop⟩ := parseQueryLoop_key hk (fun h => h0 (by simp [h]))
        front (v ++ '&'.toUInt8 :: (q ++ ' '.toUInt8 :: rest)) fuel (s := s) (by simp [hmem]) hq
        hlt
      have hamp : strchr t.mem (query + k.length + 1) '&'.toUInt8 =
          .ok (some (query + k.length + 1 + v.length)) :=
        strchr_found (front ++ (k ++ [0])) v (q ++ ' '.toUInt8 :: rest)
          (by simp [htmem]) (by simp [hq]; omega) hv hv0
      obtain ⟨u, hu, humem, hureq, hupp⟩ := t.store_found (front ++ (k ++ 0 :: v))
        (q ++ ' '.toUInt8 :: rest) (b := '&'.toUInt8) (p := query + k.length + 1 + v.length)
        (by simp [htmem]) (by simp [hq]; omega) 0
      obtain ⟨w, hw, hwmem, hwpp, hwreq⟩ := ih hq0 (front ++ (k ++ 0 :: (v ++ [0])))
        fuel (query + k.length + 1 + v.length + 1) endOfPath
        (by omega) (s := u) (by simp [humem]) (by simp [hq]; omega) (by omega)
      refine ⟨w, ?_, by simp [hwmem], by rw [hwpp, hupp, htpp], ?_⟩
      · rw [hloop, hamp]
        simp only [bind, Except.bind]
        rw [if_neg (by omega)]
        simp only [hu, hw]
      · rw [hwreq, hureq, htreq]
        simp [Parse.setQuery, pairOffsets, kvSetAll]

/-! Paths. -/

/-- `TargetView t t' path ps`: the path stage turns the request target `t` into
`t'`, whose text up to the first NUL is `path`, and records the pairs `ps`. -/
inductive TargetView : List UInt8 → List UInt8 → List UInt8 → List TextPair → Prop
  | plain {t : List UInt8} : '?'.toUInt8 ∉ t → TargetView t t t []
  | query {path q q' : List UInt8} {ps : List TextPair} : '?'.toUInt8 ∉ path →
      QueryView q q' ps →
      TargetView (path ++ '?'.toUInt8 :: q) (path ++ 0 :: q') path ps

theorem exists_targetView (t : List UInt8) : ∃ t' path ps, TargetView t t' path ps := by
  by_cases h : '?'.toUInt8 ∈ t
  · obtain ⟨path, q, rfl, hpath⟩ := List.eq_append_cons_of_mem h
    obtain ⟨q', ps, hq⟩ := exists_queryView q
    exact ⟨_, _, _, .query hpath hq⟩
  · exact ⟨_, _, _, .plain h⟩

theorem TargetView.length {t t' path : List UInt8} {ps : List TextPair}
    (h : TargetView t t' path ps) : t'.length = t.length := by
  cases h with
  | plain _ => rfl
  | query _ hq => simp [hq.length]

/-- The texts of a marked target in front of a NUL. -/
theorem TargetView.texts {t t' path : List UInt8} {ps : List TextPair}
    (h : TargetView t t' path ps) (h0 : 0 ∉ t) (mem front rest : List UInt8)
    (hmem : mem = front ++ (t' ++ 0 :: rest)) (off : Nat) (hoff : off = front.length) :
    cString mem off = path ∧
      (pairOffsets (off + path.length + 1) ps).map (textsAt mem) = ps := by
  cases h with
  | plain _ => exact ⟨cString_eq front rest hmem hoff h0, rfl⟩
  | @query path q q' ps _ hq =>
      have hp0 : 0 ∉ path := fun h => h0 (by simp [h])
      have hq0 : 0 ∉ q := fun h => h0 (by simp [h])
      refine ⟨cString_eq front (q' ++ 0 :: rest) (by simp [hmem]) hoff hp0, ?_⟩
      exact hq.texts hq0 (front ++ (path ++ [0])) rest (by simp [hmem])
        (by simp [hoff]; omega)

theorem parseQuery_view {t t' path : List UInt8} {ps : List TextPair}
    (hv : TargetView t t' path ps) (h0 : 0 ∉ t) {front rest : List UInt8} (hrest : 0 ∈ rest)
    {s : Parse} (hmem : s.mem = front ++ (t ++ ' '.toUInt8 :: rest)) {start : Nat}
    (hstart : start = front.length) :
    ∃ r u, strchr s.mem start '?'.toUInt8 = .ok r ∧
      parseQuery s (start + t.length) r = .ok u ∧
      u.mem = front ++ (t' ++ ' '.toUInt8 :: rest) ∧ u.ppbuf = s.ppbuf ∧
      u.req = { s.req with
        query := kvSetAll true s.req.query (pairOffsets (start + path.length + 1) ps) } := by
  cases hv with
  | plain hnone =>
      obtain ⟨r, hr, hr'⟩ := strchr_skip s.mem front hmem hstart hnone (List.mem_cons_of_mem _ hrest)
      refine ⟨r, s, hr, ?_, hmem, rfl, rfl⟩
      cases r with
      | none => rfl
      | some i =>
          have := hr' i rfl
          simp only [parseQuery]
          rw [if_neg (by omega)]
  | @query path q q' ps hpath hq =>
      have hp0 : 0 ∉ path := fun h => h0 (by simp [h])
      have hq0 : 0 ∉ q := fun h => h0 (by simp [h])
      obtain ⟨u, hu, humem, hureq, hupp⟩ := s.store_found (front ++ path)
        (q ++ ' '.toUInt8 :: rest) (b := '?'.toUInt8) (p := start + path.length)
        (by simp [hmem]) (by simp [hstart]) 0
      obtain ⟨w, hw, hwmem, hwpp, hwreq⟩ := parseQueryLoop_view hq hq0
        (front ++ (path ++ [0])) hrest (start + (path ++ '?'.toUInt8 :: q).length + 1)
        (start + path.length + 1) (start + (path ++ '?'.toUInt8 :: q).length)
        (by simp; omega) (s := u) (by simp [humem]) (by simp [hstart]; omega)
        (by simp; omega)
      refine ⟨some (start + path.length), w, ?_, ?_, by simp [hwmem], hwpp.trans hupp, ?_⟩
      · exact strchr_found front path (q ++ ' '.toUInt8 :: rest) (by simp [hmem]) hstart hpath hp0
      · simp only [parseQuery]
        rw [if_pos (by simp)]
        simp only [hu, bind, Except.bind, hw]
      · rw [hwreq, hureq]

/-- The path stage on a target that starts with `/` and ends at a space. -/
theorem httpParsePath_view {t t' path : List UInt8} {ps : List TextPair}
    (hv : TargetView t t' path ps) (h0 : 0 ∉ t) (hsp : ' '.toUInt8 ∉ t)
    (hslash : t.head? = some '/'.toUInt8) (front : List UInt8) {rest : List UInt8} (hrest : 0 ∈ rest)
    {s : Parse} (hmem : s.mem = front ++ (t ++ ' '.toUInt8 :: rest))
    (hpp : s.ppbuf = front.length) (bufend : Nat)
    (hlen : sizeofLit "/ HTTP/0.0\r\n" ≤ sizeSub bufend s.ppbuf) :
    ∃ r u, httpParsePath s bufend = .ok (r, u) ∧
      u.mem = front ++ (t' ++ 0 :: rest) ∧ u.ppbuf = s.ppbuf + t.length + 1 ∧
      u.req = { s.req with
        path := some s.ppbuf
        query := kvSetAll true s.req.query (pairOffsets (s.ppbuf + path.length + 1) ps) } := by
  obtain ⟨r, u, hr, hu, humem, hupp, hureq⟩ := parseQuery_view hv h0 hrest hmem hpp
  obtain ⟨t₁, rfl⟩ : ∃ t₁, t = '/'.toUInt8 :: t₁ := by
    cases t with
    | nil => simp at hslash
    | cons b t₁ => exact ⟨t₁, by simpa using hslash⟩
  have hload : load s.mem s.ppbuf = .ok '/'.toUInt8 := by simp [load, hmem, hpp]
  have hspace : strchr s.mem s.ppbuf ' '.toUInt8 =
      .ok (some (s.ppbuf + ('/'.toUInt8 :: t₁).length)) := strchr_found front _ rest hmem hpp hsp h0
  obtain ⟨w, hw, hwmem, hwreq, hwpp⟩ := u.store_found (front ++ t') rest
    (b := ' '.toUInt8) (p := s.ppbuf + ('/'.toUInt8 :: t₁).length) (by simp [humem])
    (by simp [hpp, hv.length]) 0
  unfold httpParsePath
  simp only
  rw [if_neg (by omega)]
  simp only [hload, bind, Except.bind, ne_eq, not_true_eq_false, if_false, hspace, hr, hu, hw]
  refine ⟨_, _, rfl, by simp [hwmem], rfl, ?_⟩
  simp [hwreq, hureq]

/-! The first four bytes. -/

theorem strToInt32_found (front rest : List UInt8) {mem : List UInt8} {a b c d : UInt8} {p : Nat}
    (hmem : mem = front ++ a :: b :: c :: d :: rest) (hp : p = front.length) :
    strToInt32 mem p =
      .ok (a.toNat + b.toNat * 2 ^ 8 + c.toNat * 2 ^ 16 + d.toNat * 2 ^ 24) := by
  subst hmem hp
  simp [strToInt32, load, bind, Except.bind, pure, Except.pure]

theorem httpParseProtocol_view {p : List UInt8} (h0 : 0 ∉ p) (hcr : '\r'.toUInt8 ∉ p)
    (hhttp : p.take 4 = ascii "HTTP") (front rest : List UInt8) {s : Parse}
    (hmem : s.mem = front ++ (p ++ '\r'.toUInt8 :: rest)) (hpp : s.ppbuf = front.length)
    (bufend : Nat) (hlen : sizeofLit "HTTP/0.0\r\n" ≤ sizeSub bufend s.ppbuf) :
    ∃ r u, httpParseProtocol s bufend = .ok (r, u) ∧
      u.mem = front ++ (p ++ 0 :: rest) ∧ u.ppbuf = s.ppbuf + p.length + 2 ∧
      u.req = { s.req with protocol := some s.ppbuf } := by
  have hp : p = ascii "HTTP" ++ p.drop 4 := by rw [← hhttp, List.take_append_drop]
  have hword : strToInt32 s.mem s.ppbuf = .ok (strToInt32Lit 'H' 'T' 'T' 'P') := by
    rw [strToInt32_found front (p.drop 4 ++ '\r'.toUInt8 :: rest) (a := 72) (b := 84) (c := 84)
      (d := 80) (by
        rw [hmem]
        conv_lhs => rw [hp]
        rfl) hpp]
    rfl
  have hline : strchr s.mem s.ppbuf '\r'.toUInt8 = .ok (some (s.ppbuf + p.length)) :=
    strchr_found front p rest hmem hpp hcr h0
  obtain ⟨w, hw, hwmem, hwreq, hwpp⟩ :=
    Parse.store_found { s with req := { s.req with protocol := some s.ppbuf } }
      (front ++ p) rest (b := '\r'.toUInt8) (p := s.ppbuf + p.length)
      (by simp [hmem]) (by simp [hpp]) 0
  unfold httpParseProtocol
  simp only
  rw [if_neg (by omega)]
  simp only [hline, hword, bind, Except.bind, ne_eq, not_true_eq_false, if_false, hw]
  exact ⟨_, _, rfl, by simp [hwmem], rfl, by simp [hwreq]⟩

end L4Server
