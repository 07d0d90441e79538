import L4Server.ParserViews

/-!
The layout of an accepted request line. What the stages look at is turned
around here: when the line is accepted, the buffer splits into method, spaces,
target and protocol, and the state behind the line is the one the views give.
-/
namespace L4Server
open CMemory

theorem trimSpacesLoop_eq {mem : List UInt8} {bufend fuel p q : Nat}
    (h : trimSpacesLoop mem bufend fuel p = .ok q) :
    ∃ k, q = p + k ∧ mem.drop p = List.replicate k ' '.toUInt8 ++ mem.drop q := by
  induction fuel generalizing p with
  | zero => cases h
  | succ fuel ih =>
      unfold trimSpacesLoop at h
      split at h
      · obtain ⟨b, hb, h⟩ := bind_eq_ok.mp h
        split at h
        · next hspace =>
          obtain ⟨k, rfl, hk⟩ := ih h
          have hget : mem[p]? = some ' '.toUInt8 := by
            unfold load at hb
            split at hb
            · next c hc =>
              cases hb
              rw [hc, hspace]
            · cases hb
          obtain ⟨hlt, hval⟩ := List.getElem?_eq_some_iff.mp hget
          refine ⟨k + 1, by omega, ?_⟩
          rw [List.drop_eq_getElem_cons hlt, hval, hk, List.replicate_succ, List.cons_append]
        · cases h
          exact ⟨0, rfl, by simp⟩
      · cases h
        exact ⟨0, rfl, by simp⟩

theorem trimSpaces_eq {s t : Parse} {bufend : Nat} (h : trimSpaces s bufend = .ok t) :
    ∃ k, t = { s with ppbuf := s.ppbuf + k } ∧
      s.mem.drop s.ppbuf = List.replicate k ' '.toUInt8 ++ s.mem.drop (s.ppbuf + k) := by
  obtain ⟨q, hq, ht⟩ := bind_eq_ok.mp h
  cases ht
  obtain ⟨k, rfl, hk⟩ := trimSpacesLoop_eq hq
  exact ⟨k, rfl, hk⟩

/-- Spaces up to another byte are skipped. -/
theorem trimSpacesLoop_view (front : List UInt8) {k fuel bufend p : Nat} {mem rest : List UInt8}
    {b : UInt8}
    (hmem : mem = front ++ (List.replicate k ' '.toUInt8 ++ b :: rest)) (hb : b ≠ ' '.toUInt8)
    (hp : p = front.length) (hend : p + k < bufend) (hf : k < fuel) :
    trimSpacesLoop mem bufend fuel p = .ok (p + k) := by
  induction k generalizing front p fuel with
  | zero =>
      obtain ⟨fuel, rfl⟩ : ∃ f, fuel = f + 1 := ⟨fuel - 1, by omega⟩
      have hload : load mem p = .ok b := by simp [load, hmem, hp]
      unfold trimSpacesLoop
      rw [if_pos (by omega)]
      simp [hload, bind, Except.bind, hb]
  | succ k ih =>
      obtain ⟨fuel, rfl⟩ : ∃ f, fuel = f + 1 := ⟨fuel - 1, by omega⟩
      have hload : load mem p = .ok ' '.toUInt8 := by
        simp [load, hmem, hp, List.replicate_succ]
      unfold trimSpacesLoop
      rw [if_pos (by omega)]
      simp only [hload, bind, Except.bind, if_true]
      rw [ih (front ++ [' '.toUInt8]) (by simp [hmem, List.replicate_succ])
        (by simp [hp]) (by omega) (by omega)]
      congr 1
      omega

theorem trimSpaces_view (front rest : List UInt8) (bufend : Nat) {k : Nat} {s : Parse} {b : UInt8}
    (hmem : s.mem = front ++ (List.replicate k ' '.toUInt8 ++ b :: rest)) (hb : b ≠ ' '.toUInt8)
    (hp : s.ppbuf = front.length) (hend : s.ppbuf + k < bufend) :
    trimSpaces s bufend = .ok { s with ppbuf := s.ppbuf + k } := by
  simp [trimSpaces, trimSpacesLoop_view front hmem hb hp hend (show k < bufend + 1 by omega),
    bind, Except.bind, pure, Except.pure]

theorem httpParseMethod_eq {s t : Parse} {bufend : Nat} {r : Int}
    (h : httpParseMethod s bufend = .ok (r, t)) (h0 : s.req.method = 0)
    (hm : t.req.method ≠ 0) :
    ∃ row ∈ methods, strToInt32 s.mem s.ppbuf = .ok row.strn ∧
      4 ≤ (bufend : Int) - s.ppbuf ∧
      t = { s with
        req := { s.req with method := row.mask }
        ppbuf := s.ppbuf + row.length } := by
  unfold httpParseMethod at h
  split at h
  · cases h
    exact absurd h0 hm
  · next hlen =>
    obtain ⟨v, hv, h⟩ := bind_eq_ok.mp h
    split at h
    · next row hrow =>
      cases h
      refine ⟨row, List.mem_of_find?_eq_some hrow, ?_, by omega, rfl⟩
      have hstrn : row.strn = v := by simpa using List.find?_some hrow
      rw [hv, hstrn]
    · cases h
      exact absurd h0 hm

/-- The conditions under which the path stage sets the path. -/
theorem httpParsePath_eq {s t : Parse} {bufend : Nat} {r : Int}
    (h : httpParsePath s bufend = .ok (r, t)) (h0 : s.req.path = none)
    (hpath : t.req.path ≠ none) :
    ∃ target rest, s.mem.drop s.ppbuf = target ++ ' '.toUInt8 :: rest ∧
      ' '.toUInt8 ∉ target ∧ 0 ∉ target ∧ target.head? = some '/'.toUInt8 ∧
      sizeofLit "/ HTTP/0.0\r\n" ≤ sizeSub bufend s.ppbuf := by
  unfold httpParsePath at h
  simp only at h
  split at h
  · cases h
    exact absurd h0 hpath
  · next hlen =>
    obtain ⟨b, hb, h⟩ := bind_eq_ok.mp h
    split at h
    · cases h
      exact absurd h0 hpath
    · next hslash =>
      obtain ⟨e, he, h⟩ := bind_eq_ok.mp h
      cases e with
      | none =>
          cases h
          exact absurd h0 hpath
      | some e =>
          obtain ⟨target, rest, hd, hsp, hz, -⟩ := (strchr_eq_some_iff _ _ _ _).mp he
          refine ⟨target, rest, hd, hsp, hz, ?_, by omega⟩
          have hget : s.mem[s.ppbuf]? = some '/'.toUInt8 := by
            unfold load at hb
            split at hb
            · next c hc =>
              cases hb
              rw [hc, not_not.mp hslash]
            · cases hb
          rw [← List.head?_drop, hd] at hget
          cases target with
          | nil =>
              have hbad : ' '.toUInt8 = '/'.toUInt8 := by simpa using hget
              exact absurd hbad (by decide)
          | cons c target => simpa using hget

theorem word_inj {a b c d a' b' c' d' : UInt8}
    (h : a.toNat + b.toNat * 2 ^ 8 + c.toNat * 2 ^ 16 + d.toNat * 2 ^ 24 =
      a'.toNat + b'.toNat * 2 ^ 8 + c'.toNat * 2 ^ 16 + d'.toNat * 2 ^ 24) :
    a = a' ∧ b = b' ∧ c = c' ∧ d = d' := by
  have := a.toNat_lt; have := b.toNat_lt; have := c.toNat_lt; have := d.toNat_lt
  have := a'.toNat_lt; have := b'.toNat_lt; have := c'.toNat_lt; have := d'.toNat_lt
  simp only [← UInt8.toNat_inj]
  omega

/-- A word read at the cursor spells the four bytes there. -/
theorem strToInt32_eq {mem : List UInt8} {p : Nat} {a b c d : UInt8}
    (h : strToInt32 mem p =
      .ok (a.toNat + b.toNat * 2 ^ 8 + c.toNat * 2 ^ 16 + d.toNat * 2 ^ 24)) :
    ∃ rest, mem.drop p = a :: b :: c :: d :: rest := by
  have hload {q : Nat} {x : UInt8} (hx : load mem q = .ok x) :
      mem.drop q = x :: mem.drop (q + 1) := by
    unfold load at hx
    split at hx
    · next y hy =>
      cases hx
      obtain ⟨hlt, hval⟩ := List.getElem?_eq_some_iff.mp hy
      rw [List.drop_eq_getElem_cons hlt, hval]
    · cases hx
  obtain ⟨a', ha, h⟩ := bind_eq_ok.mp h
  obtain ⟨b', hb, h⟩ := bind_eq_ok.mp h
  obtain ⟨c', hc, h⟩ := bind_eq_ok.mp h
  obtain ⟨d', hd, h⟩ := bind_eq_ok.mp h
  obtain ⟨rfl, rfl, rfl, rfl⟩ := word_inj (Except.ok.inj h)
  exact ⟨mem.drop (p + 4), by rw [hload ha, hload hb, hload hc, hload hd]⟩

theorem strToInt32_take {mem : List UInt8} {n p : Nat} (h : p + 3 < n) :
    strToInt32 (mem.take n) p = strToInt32 mem p := by
  have hload (i : Nat) (hi : i < n) : load (mem.take n) i = load mem i := by
    simp [load, List.getElem?_take_of_lt hi]
  simp only [strToInt32, hload p (by omega), hload (p + 1) (by omega), hload (p + 2) (by omega),
    hload (p + 3) (by omega)]

theorem httpParseProtocol_eq {s t : Parse} {bufend : Nat} {r : Int}
    (h : httpParseProtocol s bufend = .ok (r, t)) (h0 : s.req.protocol = none)
    (hprotocol : t.req.protocol ≠ none) :
    ∃ p rest, s.mem.drop s.ppbuf = p ++ '\r'.toUInt8 :: rest ∧
      '\r'.toUInt8 ∉ p ∧ 0 ∉ p ∧ p.take 4 = ascii "HTTP" ∧
      sizeofLit "HTTP/0.0\r\n" ≤ sizeSub bufend s.ppbuf := by
  unfold httpParseProtocol at h
  simp only at h
  split at h
  · cases h
    exact absurd h0 hprotocol
  · next hlen =>
    obtain ⟨e, he, h⟩ := bind_eq_ok.mp h
    cases e with
    | none =>
        cases h
        exact absurd h0 hprotocol
    | some e =>
        obtain ⟨v, hv, h⟩ := bind_eq_ok.mp h
        split at h
        · cases h
          exact absurd h0 hprotocol
        · next hword =>
          obtain ⟨p, rest, hd, hcr, hz, -⟩ := (strchr_eq_some_iff _ _ _ _).mp he
          refine ⟨p, rest, hd, hcr, hz, ?_, by omega⟩
          obtain ⟨tail, htail⟩ := strToInt32_eq (a := 72) (b := 84) (c := 84) (d := 80)
            (hv.trans (congrArg Except.ok (not_not.mp hword)))
          rw [hd] at htail
          -- none of the four letters is the CR that ends `p`
          match p, htail with
          | [], h => exact absurd (List.cons.inj h).1 (by decide)
          | [_], h =>
              simp only [List.cons_append, List.nil_append, List.cons.injEq] at h
              exact absurd h.2.1 (by decide)
          | [_, _], h =>
              simp only [List.cons_append, List.nil_append, List.cons.injEq] at h
              exact absurd h.2.2.1 (by decide)
          | [_, _, _], h =>
              simp only [List.cons_append, List.nil_append, List.cons.injEq] at h
              exact absurd h.2.2.2.1 (by decide)
          | w :: x :: y :: z :: p, h =>
              simp only [List.cons_append, List.cons.injEq] at h
              obtain ⟨rfl, rfl, rfl, rfl, -⟩ := h
              rfl

/-- The rows of the table differ in their first four characters. -/
theorem find_row {row : HttpMethod} (h : row ∈ methods) :
    methods.find? (fun method => method.strn == row.strn) = some row := by
  revert row
  decide +kernel

/-! The whole line. -/

theorem zero_mem_of_getLast (front : List UInt8) {mem rest : List UInt8} {c : UInt8}
    (h : mem.getLast? = some 0) (hmem : mem = front ++ c :: rest) (hc : c ≠ 0) : 0 ∈ rest := by
  cases rest with
  | nil =>
      rw [hmem, List.getLast?_append] at h
      exact absurd (by simpa using h) hc
  | cons d rest =>
      rw [hmem, List.getLast?_append, List.getLast?_cons_cons] at h
      exact List.mem_of_getLast? (by simpa using h)

theorem RecvBuf.getLast (b : RecvBuf) : b.mem.getLast? = some 0 := by
  have := b.received_lt
  rw [List.getLast?_eq_getElem?]
  exact b.zero_tail _ (by omega) (by omega)

/-- How the block `mem` splits when its request line is accepted, and the state
`t` behind the line. -/
structure LineLayout (mem : List UInt8) (t : Parse) where
  row : HttpMethod
  name : List UInt8
  spaces : Nat
  target : List UInt8
  marked : List UInt8
  path : List UInt8
  pairs : List TextPair
  protocol : List UInt8
  rest : List UInt8
  row_mem : row ∈ methods
  word : strToInt32 mem 0 = .ok row.strn
  name_length : name.length = row.length
  layout : mem = name ++ (List.replicate spaces ' '.toUInt8 ++
    (target ++ ' '.toUInt8 :: (protocol ++ '\r'.toUInt8 :: rest)))
  view : TargetView target marked path pairs
  target_slash : target.head? = some '/'.toUInt8
  target_space : ' '.toUInt8 ∉ target
  target_zero : 0 ∉ target
  protocol_http : protocol.take 4 = ascii "HTTP"
  protocol_cr : '\r'.toUInt8 ∉ protocol
  protocol_zero : 0 ∉ protocol
  result : t.mem = name ++ (List.replicate spaces ' '.toUInt8 ++
    (marked ++ 0 :: (protocol ++ 0 :: rest)))
  ppbuf : t.ppbuf = name.length + spaces + target.length + 1 + protocol.length + 2
  req : t.req = { HttpRequest.cleared with
    method := row.mask
    path := some (name.length + spaces)
    protocol := some (name.length + spaces + target.length + 1)
    query := kvSetAll true HttpRequest.cleared.query
      (pairOffsets (name.length + spaces + path.length + 1) pairs) }

/-- The checks of the remaining length that the stages make. -/
structure LineLayout.Checked {mem : List UInt8} {t : Parse} (l : LineLayout mem t)
    (bufend : Nat) : Prop where
  method : 4 ≤ bufend
  path : sizeofLit "/ HTTP/0.0\r\n" ≤ sizeSub bufend (l.name.length + l.spaces)
  protocol : sizeofLit "HTTP/0.0\r\n" ≤
    sizeSub bufend (l.name.length + l.spaces + l.target.length + 1)

theorem httpParseRequestLine_checked {mem : List UInt8} {bufend : Nat} {t : Parse}
    (hz : mem.getLast? = some 0)
    (h : httpParseRequestLine (Parse.start mem) bufend = .ok (true, t)) :
    ∃ l : LineLayout mem t, l.Checked bufend := by
  obtain ⟨⟨r₁, s₁⟩, h₁, h⟩ := bind_eq_ok.mp h
  simp only at h
  split at h
  · cases h
  next hmethod =>
  obtain ⟨row, hrow, hword, hlen₁, rfl⟩ := httpParseMethod_eq h₁ rfl hmethod
  obtain ⟨s₂, h₂, h⟩ := bind_eq_ok.mp h
  obtain ⟨⟨r₃, s₃⟩, h₃, h⟩ := bind_eq_ok.mp h
  simp only at h
  split at h
  · cases h
  next hpath =>
  obtain ⟨⟨r₄, s₄⟩, h₄, h⟩ := bind_eq_ok.mp h
  simp only at h
  split at h
  · cases h
  next hprotocol =>
  cases h
  -- the stages in turn, each one's layout refined by the next
  obtain ⟨k, rfl, hspaces⟩ := trimSpaces_eq h₂
  obtain ⟨target, rest₃, hd₃, hsp, ht0, hslash, hlen₃⟩ := httpParsePath_eq h₃ rfl hpath
  simp only [Parse.start, Nat.zero_add] at hspaces hd₃ hlen₃ hword hlen₁
  obtain ⟨marked, path, pairs, hview⟩ := exists_targetView target
  have hdrop : mem.drop row.length = List.replicate k ' '.toUInt8 ++
      (target ++ ' '.toUInt8 :: rest₃) := by rw [hspaces, hd₃]
  have hmem : mem = mem.take row.length ++ (List.replicate k ' '.toUInt8 ++
      (target ++ ' '.toUInt8 :: rest₃)) := by rw [← hdrop, List.take_append_drop]
  have hname : (mem.take row.length).length = row.length := by
    have hpos := congrArg List.length hdrop
    simp only [List.length_drop, List.length_append, List.length_cons] at hpos
    rw [List.length_take]
    omega
  have hrest₃ : 0 ∈ rest₃ := zero_mem_of_getLast
    (mem.take row.length ++ (List.replicate k ' '.toUInt8 ++ target)) hz
    (by rw [List.append_assoc, List.append_assoc]; exact hmem) (by decide)
  obtain ⟨r₃', u, hu, humem, hupp, hureq⟩ := httpParsePath_view hview ht0 hsp hslash
    (mem.take row.length ++ List.replicate k ' '.toUInt8) hrest₃
    (s := { Parse.start mem with
      req := { (Parse.start mem).req with method := row.mask }
      ppbuf := row.length + k })
    (by rw [List.append_assoc]; exact hmem) (by simp [hname])
    bufend hlen₃
  obtain ⟨rfl, rfl⟩ := Prod.mk.inj
    (Except.ok.inj (hu.symm.trans (by simpa [Parse.start] using h₃)))
  obtain ⟨p, rest, hd₄, hcr, hp0, hhttp, hlen₄⟩ :=
    httpParseProtocol_eq h₄ (by rw [hureq]; rfl) hprotocol
  obtain rfl : rest₃ = p ++ '\r'.toUInt8 :: rest := by
    rw [← hd₄, show u.mem = (mem.take row.length ++ (List.replicate k ' '.toUInt8 ++
      (marked ++ [0]))) ++ rest₃ by simp [humem]]
    exact (List.drop_left' (by simp only [List.length_append, hname, List.length_replicate,
      hview.length, List.length_singleton, hupp]; omega)).symm
  obtain ⟨r₄', w, hw, hwmem, hwpp, hwreq⟩ := httpParseProtocol_view hp0 hcr hhttp
    (mem.take row.length ++ (List.replicate k ' '.toUInt8 ++ (marked ++ [0]))) rest
    (s := u) (by simp [humem]) (by simp [hupp, hname, hview.length]; omega) bufend hlen₄
  obtain ⟨rfl, rfl⟩ := Prod.mk.inj (Except.ok.inj (hw.symm.trans h₄))
  refine ⟨{
    row := row, name := mem.take row.length, spaces := k, target := target, marked := marked
    path := path, pairs := pairs, protocol := p, rest := rest
    row_mem := hrow, word := hword, name_length := hname, layout := hmem, view := hview
    target_slash := hslash, target_space := hsp, target_zero := ht0
    protocol_http := hhttp, protocol_cr := hcr, protocol_zero := hp0
    result := by rw [hwmem]; simp
    ppbuf := by rw [hwpp, hupp, hname]
    req := by rw [hwreq, hureq, hupp, hname]; rfl }, ⟨by simp at hlen₁; omega, ?_, ?_⟩⟩
  · change _ ≤ sizeSub bufend ((mem.take row.length).length + k)
    rwa [hname]
  · change _ ≤ sizeSub bufend ((mem.take row.length).length + k + target.length + 1)
    rwa [hname, ← hupp]

theorem httpParseRequestLine_layout {mem : List UInt8} {bufend : Nat} {t : Parse}
    (hz : mem.getLast? = some 0)
    (h : httpParseRequestLine (Parse.start mem) bufend = .ok (true, t)) :
    Nonempty (LineLayout mem t) :=
  let ⟨l, _⟩ := httpParseRequestLine_checked hz h
  ⟨l⟩

theorem method_mask_ne {row : HttpMethod} (h : row ∈ methods) : row.mask ≠ 0 := by
  revert row
  decide +kernel

theorem httpParseMethod_found {row : HttpMethod} (hrow : row ∈ methods) {s : Parse} (bufend : Nat)
    (hword : strToInt32 s.mem s.ppbuf = .ok row.strn) (hn : s.ppbuf + 4 ≤ bufend) :
    httpParseMethod s bufend = .ok (row.length,
      { s with
        req := { s.req with method := row.mask }
        ppbuf := s.ppbuf + row.length }) := by
  unfold httpParseMethod
  rw [if_neg (by omega)]
  simp only [hword, bind, Except.bind, find_row hrow]

/-- A block laid out as a line, with enough behind each of its parts, is accepted. -/
theorem httpParseRequestLine_view {row : HttpMethod} (hrow : row ∈ methods)
    {mem name target marked path protocol rest : List UInt8} {pairs : List TextPair}
    {k : Nat} (bufend : Nat) (hword : strToInt32 mem 0 = .ok row.strn) (hname : name.length = row.length)
    (hmem : mem = name ++ (List.replicate k ' '.toUInt8 ++
      (target ++ ' '.toUInt8 :: (protocol ++ '\r'.toUInt8 :: rest))))
    (hview : TargetView target marked path pairs) (hslash : target.head? = some '/'.toUInt8)
    (hsp : ' '.toUInt8 ∉ target) (ht0 : 0 ∉ target) (hhttp : protocol.take 4 = ascii "HTTP")
    (hcr : '\r'.toUInt8 ∉ protocol) (hp0 : 0 ∉ protocol) (hrest : 0 ∈ rest) (hfour : 4 ≤ bufend)
    (hend : name.length + k < bufend)
    (hpath : sizeofLit "/ HTTP/0.0\r\n" ≤ sizeSub bufend (name.length + k))
    (hprotocol : sizeofLit "HTTP/0.0\r\n" ≤
      sizeSub bufend (name.length + k + target.length + 1)) :
    ∃ t, httpParseRequestLine (Parse.start mem) bufend = .ok (true, t) ∧
      ∃ l : LineLayout mem t, l.row = row ∧ l.name = name ∧ l.spaces = k ∧ l.target = target ∧
        l.marked = marked ∧ l.path = path ∧ l.pairs = pairs ∧ l.protocol = protocol ∧
        l.rest = rest := by
  obtain ⟨c, target', htarget⟩ : ∃ c target', target = c :: target' := by
    cases target with
    | nil => simp at hslash
    | cons c target' => exact ⟨c, target', rfl⟩
  have hc : c ≠ ' '.toUInt8 := fun h => hsp (by simp [htarget, h])
  have h₁ := httpParseMethod_found hrow (s := Parse.start mem) bufend hword
    (by simp only [Parse.start]; omega)
  have h₂ := trimSpaces_view name (target' ++ ' '.toUInt8 :: (protocol ++ '\r'.toUInt8 :: rest))
    bufend (k := k) (b := c)
    (s := { Parse.start mem with
      req := { (Parse.start mem).req with method := row.mask }
      ppbuf := (Parse.start mem).ppbuf + row.length })
    (by rw [Parse.start, hmem, htarget]; rfl) hc (by simp [Parse.start, hname])
    (by simp only [Parse.start]; omega)
  obtain ⟨r₃, u, hu, humem, hupp, hureq⟩ := httpParsePath_view hview ht0 hsp hslash
    (name ++ List.replicate k ' '.toUInt8)
    (show 0 ∈ protocol ++ '\r'.toUInt8 :: rest by simp [hrest])
    (s := { Parse.start mem with
      req := { (Parse.start mem).req with method := row.mask }
      ppbuf := (Parse.start mem).ppbuf + row.length + k })
    (by rw [List.append_assoc]; exact hmem) (by simp [Parse.start, hname]) bufend
    (by simpa only [Parse.start, Nat.zero_add, ← hname] using hpath)
  simp only [Parse.start, Nat.zero_add, ← hname] at hupp hureq
  obtain ⟨r₄, w, hw, hwmem, hwpp, hwreq⟩ := httpParseProtocol_view hp0 hcr hhttp
    (name ++ (List.replicate k ' '.toUInt8 ++ (marked ++ [0]))) rest (s := u) (by simp [humem])
    (by simp [hupp, hview.length]; omega) bufend (by rwa [hupp])
  refine ⟨w, ?_, {
    row := row, name := name, spaces := k, target := target, marked := marked, path := path
    pairs := pairs, protocol := protocol, rest := rest
    row_mem := hrow, word := hword, name_length := hname, layout := hmem, view := hview
    target_slash := hslash, target_space := hsp, target_zero := ht0
    protocol_http := hhttp, protocol_cr := hcr, protocol_zero := hp0
    result := by rw [hwmem]; simp
    ppbuf := by rw [hwpp, hupp]
    req := by rw [hwreq, hureq, hupp] }, rfl, rfl, rfl, rfl, rfl, rfl, rfl, rfl, rfl⟩
  unfold httpParseRequestLine
  simp only [h₁, h₂, hu, hw, bind, Except.bind, pure, Except.pure]
  rw [if_neg (method_mask_ne hrow), if_neg (by simp [hureq]), if_neg (by simp [hwreq])]

/-- The CR behind the protocol is a received byte, so what the client sent splits
like the block. -/
theorem LineLayout.bytes_eq {b : RecvBuf} {t : Parse} (l : LineLayout b.mem t) :
    t.ppbuf ≤ b.received + 1 ∧
      b.bytes = l.name ++ (List.replicate l.spaces ' '.toUInt8 ++ (l.target ++ ' '.toUInt8 ::
        (l.protocol ++ '\r'.toUInt8 :: l.rest.take (b.received + 1 - t.ppbuf)))) := by
  generalize hfront : l.name ++ (List.replicate l.spaces ' '.toUInt8 ++
    (l.target ++ ' '.toUInt8 :: l.protocol)) = front
  have hmem : b.mem = front ++ '\r'.toUInt8 :: l.rest := by
    rw [← hfront]
    exact l.layout.trans (by simp)
  have hlength : front.length + 2 = t.ppbuf := by
    rw [l.ppbuf, ← hfront]
    simp only [List.length_append, List.length_replicate, List.length_cons]
    omega
  -- the CR is not in the zero tail
  have hlt : front.length < b.received := by
    refine Nat.lt_of_not_le fun hle => ?_
    have hcr : b.mem[front.length]? = some '\r'.toUInt8 := by rw [hmem]; simp
    have hzero := b.zero_tail front.length hle (by rw [hmem]; simp)
    rw [hcr] at hzero
    exact absurd (Option.some.inj hzero) (by decide)
  refine ⟨by omega, ?_⟩
  have hbytes : b.bytes = front ++ '\r'.toUInt8 :: l.rest.take (b.received + 1 - t.ppbuf) := by
    rw [RecvBuf.bytes]
    nth_rewrite 1 [hmem]
    rw [List.take_append, List.take_of_length_le (by omega),
      show b.received - front.length = (b.received + 1 - t.ppbuf) + 1 by omega,
      List.take_succ_cons]
  rw [hbytes, ← hfront]
  simp

/-- Behind the line the buffer is as it was received. -/
theorem LineLayout.drop_eq {mem : List UInt8} {t : Parse} (l : LineLayout mem t) :
    t.mem.drop t.ppbuf = mem.drop t.ppbuf := by
  have hlen := l.view.length
  have hresult : t.mem = (l.name ++ (List.replicate l.spaces ' '.toUInt8 ++
      (l.marked ++ 0 :: (l.protocol ++ [0])))) ++ l.rest := l.result.trans (by simp)
  have hlayout : mem = (l.name ++ (List.replicate l.spaces ' '.toUInt8 ++
      (l.target ++ ' '.toUInt8 :: (l.protocol ++ ['\r'.toUInt8])))) ++ l.rest :=
    l.layout.trans (by simp)
  have drop_behind {front : List UInt8} (h : front.length + 1 = t.ppbuf) :
      (front ++ l.rest).drop t.ppbuf = l.rest.drop 1 := by
    rw [List.drop_append, List.drop_of_length_le (by omega), List.nil_append]
    congr 1
    omega
  have hpp := l.ppbuf
  exact ((congrArg (List.drop t.ppbuf) hresult).trans (drop_behind (by simp; omega))).trans
    ((congrArg (List.drop t.ppbuf) hlayout).trans (drop_behind (by simp; omega))).symm

theorem LineLayout.received_eq {b : RecvBuf} {t : Parse} (l : LineLayout b.mem t) :
    t.mem.drop t.ppbuf =
      b.bytes.drop t.ppbuf ++ (b.mem.drop b.received).drop (t.ppbuf - b.received) := by
  rw [l.drop_eq]
  refine (congrArg (List.drop t.ppbuf) b.mem_eq).trans ?_
  rw [List.drop_append, b.length_bytes]

theorem LineLayout.length_eq {mem : List UInt8} {t : Parse} (l : LineLayout mem t) :
    t.mem.length = mem.length := by
  have hmarked := l.view.length
  have hresult := congrArg List.length l.result
  have hlayout := congrArg List.length l.layout
  simp only [List.length_append, List.length_cons] at hresult hlayout
  omega

end L4Server
