import L4Server.RequestLine

/-!
What the header stage leaves alone. It writes behind the cursor only, so the
texts of the request line are still there when the request has been parsed.
-/
namespace L4Server
open CMemory

/-- The bytes before `p` and the request line's part of the request agree. -/
structure SameBefore (p : Nat) (s t : Parse) : Prop where
  mem : t.mem.take p = s.mem.take p
  method : t.req.method = s.req.method
  path : t.req.path = s.req.path
  protocol : t.req.protocol = s.req.protocol
  query : t.req.query = s.req.query

theorem SameBefore.refl (p : Nat) (s : Parse) : SameBefore p s s := ⟨rfl, rfl, rfl, rfl, rfl⟩

theorem SameBefore.trans {p : Nat} {s t u : Parse} (h : SameBefore p s t)
    (k : SameBefore p t u) : SameBefore p s u :=
  ⟨k.mem.trans h.mem, k.method.trans h.method, k.path.trans h.path,
    k.protocol.trans h.protocol, k.query.trans h.query⟩

theorem Parse.store_same {s t : Parse} {i p : Nat} {b : UInt8} (h : s.store i b = .ok t)
    (hp : p ≤ i) : SameBefore p s t := by
  obtain ⟨mem, hmem, ht⟩ := bind_eq_ok.mp h
  cases ht
  obtain rfl := CMemory.store_ok hmem
  exact ⟨List.take_set_of_le hp, rfl, rfl, rfl, rfl⟩

theorem recordHeader_same {s t : Parse} {start eol p : Nat} {sep : Option Nat}
    (h : recordHeader s start eol sep = .ok t) (hsep : ∀ i, sep = some i → p ≤ i)
    (heol : p ≤ eol) : SameBefore p s t := by
  cases sep with
  | none =>
      cases h
      exact .refl p s
  | some i =>
      unfold recordHeader at h
      simp only at h
      split at h
      · obtain ⟨u, hu, h⟩ := bind_eq_ok.mp h
        obtain ⟨v, hv, h⟩ := bind_eq_ok.mp h
        cases h
        exact ((Parse.store_same hu (hsep i rfl)).trans (Parse.store_same hv heol)).trans
          ⟨rfl, rfl, rfl, rfl, rfl⟩
      · cases h
        exact .refl p s

theorem parseHeadersLoop_same {bufend fuel start q p : Nat} {s t : Parse}
    (h : parseHeadersLoop bufend fuel start s = .ok (q, t)) (hp : p ≤ start) :
    SameBefore p s t := by
  induction fuel generalizing start s with
  | zero => cases h
  | succ fuel ih =>
      unfold parseHeadersLoop at h
      split at h
      · obtain ⟨r, hr, h⟩ := bind_eq_ok.mp h
        cases r with
        | none =>
            cases h
            exact .refl p _
        | some eol =>
            have heol := (strchr_some_bounds hr).1
            simp only at h
            split at h
            · cases h
              exact .refl p _
            · obtain ⟨sep, hsep, h⟩ := bind_eq_ok.mp h
              obtain ⟨u, hu, h⟩ := bind_eq_ok.mp h
              refine (recordHeader_same hu ?_ (by omega)).trans (ih h (by omega))
              rintro i rfl
              exact Nat.le_trans hp (strchr_some_bounds hsep).1
      · cases h
        exact .refl p _

/-- The texts of a request whose line is accepted, once the headers are parsed. -/
theorem LineLayout.texts {mem : List UInt8} {s t : Parse} {bufend : Nat} {r : Int}
    (l : LineLayout mem s) (h : httpParseHeaders s bufend = .ok (r, t)) :
    t.req.method = l.row.mask ∧ t.req.path.map (cString t.mem) = some l.path ∧
      t.req.protocol.map (cString t.mem) = some l.protocol ∧
      t.req.query.stored.map (Option.map (textsAt t.mem)) = (l.pairs.take 20).map some := by
  obtain ⟨⟨q, v⟩, hloop, hv⟩ := bind_eq_ok.mp h
  cases hv
  have hmarked := l.view.length
  have hsplit : s.mem = (l.name ++ (List.replicate l.spaces ' '.toUInt8 ++
      (l.marked ++ 0 :: (l.protocol ++ [0])))) ++ l.rest := l.result.trans (by simp)
  generalize hfront : l.name ++ (List.replicate l.spaces ' '.toUInt8 ++
    (l.marked ++ 0 :: (l.protocol ++ [0]))) = front at hsplit
  have hlength : front.length + 1 = s.ppbuf := by
    rw [l.ppbuf, ← hfront]
    simp only [List.length_append, List.length_replicate, List.length_cons, List.length_nil]
    omega
  obtain ⟨hbefore, hmethod, hpath, hprotocol, hquery⟩ :=
    parseHeadersLoop_same hloop (p := front.length) (by omega)
  obtain ⟨after, hfinal⟩ : ∃ after, v.mem = front ++ after := by
    rw [hsplit, List.take_left] at hbefore
    refine ⟨v.mem.drop front.length, (List.take_append_drop front.length v.mem).symm.trans ?_⟩
    rw [hbefore]
  subst hfront
  obtain ⟨hpathText, hpairs⟩ := l.view.texts l.target_zero v.mem
    (l.name ++ List.replicate l.spaces ' '.toUInt8) (l.protocol ++ 0 :: after)
    (hfinal.trans (by simp)) (l.name.length + l.spaces) (by simp)
  have hprotocolText : cString v.mem (l.name.length + l.spaces + l.target.length + 1) =
      l.protocol :=
    cString_eq (l.name ++ (List.replicate l.spaces ' '.toUInt8 ++ (l.marked ++ [0]))) after
      (hfinal.trans (by simp)) (by simp [hmarked]; omega) l.protocol_zero
  simp only
  refine ⟨?_, ?_, ?_, ?_⟩
  · rw [hmethod, l.req]
  · rw [hpath, l.req, Option.map_some, hpathText]
  · rw [hprotocol, l.req, Option.map_some, hprotocolText]
  · rw [hquery, l.req]
    obtain ⟨hstored, -, -⟩ := kvSetAll_provided true
      (pairOffsets (l.name.length + l.spaces + l.path.length + 1) l.pairs)
      HttpRequest.cleared.query rfl
    rw [hstored, show HttpRequest.cleared.query.stored = [] from rfl,
      show HttpRequest.cleared.query.capacity = 20 from rfl, List.nil_append, ← List.map_take,
      List.map_map]
    have htexts := congrArg (fun ps => (ps.take 20).map some) hpairs
    simpa [← List.map_take, Function.comp_def] using htexts

/-- Parsing behind an accepted line. -/
theorem httpParseRequest_line {s t u : Parse} {buflen : Nat} {ret : Int}
    (h : httpParseRequest s buflen = .ok (ret, u))
    (hs : httpParseRequestLine s buflen = .ok (true, t)) :
    ∃ r v, httpParseHeaders t buflen = .ok (r, v) ∧ ret = 1 ∧ v = u := by
  obtain ⟨⟨accepted, t'⟩, ht, h⟩ := bind_eq_ok.mp h
  obtain ⟨rfl, rfl⟩ := Prod.mk.inj (Except.ok.inj (ht.symm.trans hs))
  obtain ⟨⟨r, v⟩, hv, hret⟩ := bind_eq_ok.mp h
  cases hret
  exact ⟨r, u, hv, rfl, rfl⟩

/-- A request that parses has an accepted line. -/
theorem httpParseRequest_accepted {s u : Parse} {buflen : Nat}
    (h : httpParseRequest s buflen = .ok (1, u)) :
    ∃ t r, httpParseRequestLine s buflen = .ok (true, t) ∧ httpParseHeaders t buflen = .ok (r, u) := by
  obtain ⟨⟨accepted, t⟩, ht, hrest⟩ := bind_eq_ok.mp h
  cases accepted with
  | false => cases hrest
  | true =>
      obtain ⟨r, v, hv, -, rfl⟩ := httpParseRequest_line h ht
      exact ⟨t, r, ht, hv⟩

end L4Server
