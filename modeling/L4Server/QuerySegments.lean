import L4Server.AcceptedRequest

/-!
The query loop beside the split of the query at its `&`. The loop looks for the
next `=` wherever it is, so a segment without one becomes the front of the key
behind it.
-/
namespace L4Server
open CMemory

/-! The query by its segments. -/

def segments (q : List UInt8) : List (List UInt8) := q.splitOn '&'.toUInt8

/-- A segment with `=`, split at the first one. -/
def fieldOfSegment (seg : List UInt8) : Option TextPair :=
  if '='.toUInt8 ∈ seg then
    some (seg.takeWhile (· != '='.toUInt8), (seg.dropWhile (· != '='.toUInt8)).tail)
  else none

def queryFields (q : List UInt8) : List TextPair := (segments q).filterMap fieldOfSegment

/-- The segments in front of the first one without `=`. -/
def leadingFields (q : List UInt8) : List (List UInt8) :=
  (segments q).takeWhile ('='.toUInt8 ∈ ·)

/-- No segment without `=` stands in front of one with `=`, unless `n` with `=`
come before it. -/
def FieldsFirst (n : Nat) (q : List UInt8) : Prop :=
  n ≤ (leadingFields q).length ∨ ∀ seg ∈ (segments q).drop (leadingFields q).length, '='.toUInt8 ∉ seg

instance (n : Nat) (q : List UInt8) : Decidable (FieldsFirst n q) :=
  inferInstanceAs (Decidable (_ ∨ _))

/-- A text is one segment, or its first segment, `&` and a text. -/
theorem segments_induction {motive : List UInt8 → Prop}
    (one : ∀ seg, '&'.toUInt8 ∉ seg → motive seg)
    (more : ∀ seg q, '&'.toUInt8 ∉ seg → motive q → motive (seg ++ '&'.toUInt8 :: q))
    (q : List UInt8) : motive q := by
  induction hn : q.length using Nat.strong_induction_on generalizing q with
  | _ n ih =>
      by_cases ha : '&'.toUInt8 ∈ q
      · obtain ⟨seg, rest, rfl, hseg⟩ := List.eq_append_cons_of_mem ha
        exact more seg rest hseg (ih rest.length (by simp at hn; omega) rest rfl)
      · exact one q ha

theorem segments_one {seg : List UInt8} (h : '&'.toUInt8 ∉ seg) : segments seg = [seg] :=
  List.splitOn_eq_singleton h

theorem segments_more {seg : List UInt8} (h : '&'.toUInt8 ∉ seg) (q : List UInt8) :
    segments (seg ++ '&'.toUInt8 :: q) = seg :: segments q :=
  List.splitOn_append_cons_self_of_not_mem h q

theorem notMem_segment {q seg : List UInt8} (h : seg ∈ segments q) : '&'.toUInt8 ∉ seg := by
  induction q using segments_induction with
  | one seg' hseg' =>
      rw [segments_one hseg', List.mem_singleton] at h
      exact h ▸ hseg'
  | more seg' q hseg' ih =>
      rw [segments_more hseg', List.mem_cons] at h
      rcases h with rfl | h
      · exact hseg'
      · exact ih h

theorem exists_segment {q : List UInt8} (h : '='.toUInt8 ∈ q) :
    ∃ seg ∈ segments q, '='.toUInt8 ∈ seg := by
  induction q using segments_induction with
  | one seg hseg => exact ⟨seg, by simp [segments_one hseg], h⟩
  | more seg q hseg ih =>
      rw [segments_more hseg]
      rcases List.mem_append.mp h with h | h
      · exact ⟨seg, by simp, h⟩
      · obtain ⟨seg', hseg', he⟩ := ih (List.mem_of_ne_of_mem (by decide) h)
        exact ⟨seg', List.mem_cons_of_mem _ hseg', he⟩

theorem fieldOfSegment_split {k : List UInt8} (hk : '='.toUInt8 ∉ k) (v : List UInt8) :
    fieldOfSegment (k ++ '='.toUInt8 :: v) = some (k, v) := by
  have hall : ∀ b ∈ k, (b != '='.toUInt8) = true := by
    intro b hb
    simpa using fun h : b = '='.toUInt8 => hk (h ▸ hb)
  simp [fieldOfSegment, List.takeWhile_append_of_pos hall, List.dropWhile_append_of_pos hall]

theorem fieldOfSegment_none {seg : List UInt8} (h : '='.toUInt8 ∉ seg) :
    fieldOfSegment seg = none :=
  if_neg h

/-- The keys of the fields hold no `&`. -/
theorem notMem_queryFields {q : List UInt8} {p : TextPair} (h : p ∈ queryFields q) :
    '&'.toUInt8 ∉ p.1 := by
  obtain ⟨seg, hseg, hfield⟩ := List.mem_filterMap.mp h
  unfold fieldOfSegment at hfield
  split at hfield
  · cases hfield
    exact fun ha => notMem_segment hseg ((List.takeWhile_sublist _).subset ha)
  · cases hfield

/-! What the loop records. -/

theorem queryFields_eq_nil {q : List UInt8} (h : '='.toUInt8 ∉ q) : queryFields q = [] := by
  induction q using segments_induction with
  | one seg hseg => simp [queryFields, segments_one hseg, fieldOfSegment_none h]
  | more seg q hseg ih =>
      simp only [List.mem_append, List.mem_cons, not_or] at h
      have hrest := ih h.2.2
      rw [queryFields] at hrest ⊢
      rw [segments_more hseg, List.filterMap_cons, fieldOfSegment_none h.1, hrest]

theorem fieldsFirst_of_notMem {q : List UInt8} (h : '='.toUInt8 ∉ q) (n : Nat) :
    FieldsFirst n q := by
  refine .inr fun seg hseg he => ?_
  have hfield : fieldOfSegment seg ≠ none := by simp [fieldOfSegment, he]
  have hnil := queryFields_eq_nil h
  rw [queryFields, List.filterMap_eq_nil_iff] at hnil
  exact hfield (hnil seg (List.mem_of_mem_drop hseg))

theorem notMem_field {k v : List UInt8} (hka : '&'.toUInt8 ∉ k) (hv : '&'.toUInt8 ∉ v) :
    '&'.toUInt8 ∉ k ++ '='.toUInt8 :: v := by
  have hne : '&'.toUInt8 ≠ '='.toUInt8 := by decide
  simp [hka, hv, hne]

theorem segments_field {k v : List UInt8} (hka : '&'.toUInt8 ∉ k) (hv : '&'.toUInt8 ∉ v)
    (q : List UInt8) :
    segments (k ++ '='.toUInt8 :: (v ++ '&'.toUInt8 :: q)) =
      (k ++ '='.toUInt8 :: v) :: segments q := by
  rw [← segments_more (notMem_field hka hv) q, List.append_assoc, List.cons_append]

/-- A first segment with `=` is a field, and the rest is as it is without it. -/
theorem queryFields_field {k v : List UInt8} (hk : '='.toUInt8 ∉ k) (hka : '&'.toUInt8 ∉ k)
    (hv : '&'.toUInt8 ∉ v) (q : List UInt8) :
    queryFields (k ++ '='.toUInt8 :: (v ++ '&'.toUInt8 :: q)) = (k, v) :: queryFields q := by
  rw [queryFields, segments_field hka hv, List.filterMap_cons, fieldOfSegment_split hk]
  rfl

theorem fieldsFirst_field {k v : List UInt8} (hka : '&'.toUInt8 ∉ k)
    (hv : '&'.toUInt8 ∉ v) (n : Nat) (q : List UInt8) :
    FieldsFirst (n + 1) (k ++ '='.toUInt8 :: (v ++ '&'.toUInt8 :: q)) ↔ FieldsFirst n q := by
  simp [FieldsFirst, leadingFields, segments_field hka hv]

/-- A key that holds a `&` begins with a segment without `=`. -/
theorem not_fieldsFirst {k : List UInt8} (hk : '='.toUInt8 ∉ k) (hka : '&'.toUInt8 ∈ k)
    (n : Nat) (rest : List UInt8) : ¬ FieldsFirst (n + 1) (k ++ '='.toUInt8 :: rest) := by
  obtain ⟨seg, k, rfl, hseg⟩ := List.eq_append_cons_of_mem hka
  have he : '='.toUInt8 ∉ seg := fun h => hk (by simp [h])
  obtain ⟨seg', hmem, he'⟩ := exists_segment (q := k ++ '='.toUInt8 :: rest) (by simp)
  have hsplit := segments_more hseg (k ++ '='.toUInt8 :: rest)
  have hleading : leadingFields (seg ++ '&'.toUInt8 :: (k ++ '='.toUInt8 :: rest)) = [] := by
    simp [leadingFields, hsplit, he]
  rw [List.append_assoc, List.cons_append]
  rintro (h | h)
  · simp [hleading] at h
  · rw [hleading, hsplit] at h
    exact h seg' (by simp [hmem]) he'

/-- Such a key is the key of no field. -/
theorem take_ne_queryFields {k v : List UInt8} (hka : '&'.toUInt8 ∈ k) (ps : List TextPair)
    (n : Nat) (q : List UInt8) :
    ((k, v) :: ps).take (n + 1) ≠ (queryFields q).take (n + 1) := by
  intro h
  have hmem : (k, v) ∈ (queryFields q).take (n + 1) := by simp [← h]
  exact notMem_queryFields (List.mem_of_mem_take hmem) hka

theorem take_eq_iff_of_amp {k v : List UInt8} (hk : '='.toUInt8 ∉ k) (hka : '&'.toUInt8 ∈ k)
    (ps : List TextPair) (n : Nat) (rest : List UInt8) :
    ((k, v) :: ps).take n = (queryFields (k ++ '='.toUInt8 :: rest)).take n ↔
      FieldsFirst n (k ++ '='.toUInt8 :: rest) := by
  cases n with
  | zero => exact iff_of_true (by simp) (.inl (Nat.zero_le _))
  | succ n => exact iff_of_false (take_ne_queryFields hka ps n _) (not_fieldsFirst hk hka n rest)

/-- The first `n` pairs the loop records are the first `n` fields. -/
theorem QueryView.fields_iff {q q' : List UInt8} {ps : List TextPair} (h : QueryView q q' ps)
    (n : Nat) : ps.take n = (queryFields q).take n ↔ FieldsFirst n q := by
  induction h generalizing n with
  | none he =>
      exact iff_of_true (by rw [queryFields_eq_nil he]) (fieldsFirst_of_notMem he n)
  | @last k v hk hv =>
      by_cases hka : '&'.toUInt8 ∈ k
      · exact take_eq_iff_of_amp hk hka [] n v
      · have hsplit := segments_one (notMem_field hka hv)
        refine iff_of_true ?_ (.inr ?_)
        · simp [queryFields, hsplit, fieldOfSegment_split hk]
        · simp [leadingFields, hsplit]
  | @more k v q q' ps hk hv _ ih =>
      by_cases hka : '&'.toUInt8 ∈ k
      · exact take_eq_iff_of_amp hk hka ps n _
      · cases n with
        | zero => exact iff_of_true (by simp) (.inl (Nat.zero_le _))
        | succ n =>
            rw [queryFields_field hk hka hv, fieldsFirst_field hka hv, ← ih n]
            simp

/-! The path stage. -/

/-- The path stage meets a target with a query in a block that is zero from
some place on, with the bytes it asks for behind the cursor and an empty list. -/
structure QueryTarget (s : Parse) (bufend : Nat) where
  front : List UInt8
  path : List UInt8
  query : List UInt8
  rest : List UInt8
  layout : s.mem = front ++ (path ++ '?'.toUInt8 :: query ++ ' '.toUInt8 :: rest)
  ppbuf : s.ppbuf = front.length
  path_mark : '?'.toUInt8 ∉ path
  path_space : ' '.toUInt8 ∉ path
  query_space : ' '.toUInt8 ∉ query
  zero_mem : 0 ∈ rest
  checked : sizeofLit "/ HTTP/0.0\r\n" ≤ sizeSub bufend s.ppbuf
  provided : s.req.query.Provided
  empty : s.req.query.stored = []

/-- The recorded pairs are the first fields of the query, and no key holds `&`. -/
def QueryTarget.Recorded {s : Parse} {bufend : Nat} (l : QueryTarget s bufend) : Prop :=
  ∃ r t, httpParsePath s bufend = .ok (r, t) ∧
    t.req.query.stored.map (Option.map (textsAt t.mem)) =
      ((queryFields l.query).take 20).map some ∧
    ∀ p, some p ∈ t.req.query.stored → '&'.toUInt8 ∉ cString t.mem p.key

variable {s : Parse} {bufend : Nat}

/-- The stage refuses the target: it does not begin with a slash, or has a NUL in it. -/
def QueryTarget.Refused (l : QueryTarget s bufend) : Prop :=
  l.path.head? ≠ some '/'.toUInt8 ∨ 0 ∈ l.path ++ l.query

theorem QueryTarget.load_first (l : QueryTarget s bufend) :
    load s.mem s.ppbuf = .ok (l.path.head?.getD '?'.toUInt8) := by
  cases hpath : l.path <;> simp [load, l.layout, l.ppbuf, hpath]

theorem QueryTarget.refused_of_zero (l : QueryTarget s bufend)
    (hslash : l.path.head? = some '/'.toUInt8) (h : 0 ∈ l.path ++ l.query) :
    httpParsePath s bufend = .ok (0, s) := by
  have hzero : 0 ∈ l.path ++ '?'.toUInt8 :: l.query := by
    rcases List.mem_append.mp h with h | h <;> simp [h]
  obtain ⟨xs, ys, hsplit, hxs⟩ := List.eq_append_cons_of_mem hzero
  have hdrop : s.mem.drop s.ppbuf = xs ++ 0 :: (ys ++ ' '.toUInt8 :: l.rest) := by
    rw [l.layout, l.ppbuf, List.drop_left, ← List.cons_append, ← List.append_assoc, ← hsplit]
  have hspace : ' '.toUInt8 ∉ xs := by
    intro hx
    have hmem : ' '.toUInt8 ∈ l.path ++ '?'.toUInt8 :: l.query := by simp [hsplit, hx]
    rcases List.mem_append.mp hmem with hmem | hmem
    · exact l.path_space hmem
    · exact l.query_space (List.mem_of_ne_of_mem (by decide) hmem)
  have hnone : strchr s.mem s.ppbuf ' '.toUInt8 = .ok none :=
    (strchr_eq_none_iff (by decide) _ _).mpr ⟨xs, _, hdrop, hspace, hxs⟩
  have hload : load s.mem s.ppbuf = .ok '/'.toUInt8 := by
    rw [l.load_first, hslash, Option.getD_some]
  unfold httpParsePath
  simp only
  rw [if_neg (Nat.not_lt.mpr l.checked)]
  simp only [hload, bind, Except.bind, ne_eq, not_true_eq_false, if_false, hnone]
  rfl

theorem QueryTarget.Refused.refused {l : QueryTarget s bufend} (h : l.Refused) :
    httpParsePath s bufend = .ok (0, s) := by
  by_cases hslash : l.path.head? = some '/'.toUInt8
  · exact l.refused_of_zero hslash (h.resolve_left (not_not_intro hslash))
  · have hother : l.path.head?.getD '?'.toUInt8 ≠ '/'.toUInt8 := by
      cases hpath : l.path with
      | nil => decide
      | cons b path => simpa [hpath] using hslash
    unfold httpParsePath
    simp only
    rw [if_neg (Nat.not_lt.mpr l.checked), l.load_first]
    simp only [bind, Except.bind, ne_eq, hother, not_false_eq_true, if_true]
    rfl

theorem QueryTarget.parsed (l : QueryTarget s bufend)
    (hfirst : l.path.head? = some '/'.toUInt8) (h : 0 ∉ l.path ++ l.query) :
    ∃ r t q' ps, httpParsePath s bufend = .ok (r, t) ∧ QueryView l.query q' ps ∧
      t.req.query.stored.map (Option.map (textsAt t.mem)) = (ps.take 20).map some := by
  obtain ⟨q', ps, hq⟩ := exists_queryView l.query
  have hview : TargetView (l.path ++ '?'.toUInt8 :: l.query) (l.path ++ 0 :: q') l.path ps :=
    .query l.path_mark hq
  have h0 : 0 ∉ l.path ++ '?'.toUInt8 :: l.query := by
    have hne : (0 : UInt8) ≠ '?'.toUInt8 := by decide
    simp only [List.mem_append, not_or] at h
    simp [h.1, h.2, hne]
  have hspace : ' '.toUInt8 ∉ l.path ++ '?'.toUInt8 :: l.query := by
    have hne : ' '.toUInt8 ≠ '?'.toUInt8 := by decide
    simp [l.path_space, l.query_space, hne]
  have hslash : (l.path ++ '?'.toUInt8 :: l.query).head? = some '/'.toUInt8 := by
    rw [List.head?_append, hfirst]
    rfl
  obtain ⟨r, t, ht, hmem, -, hreq⟩ := httpParsePath_view hview h0 hspace hslash l.front l.zero_mem
    (s := s) (by simp [l.layout]) l.ppbuf bufend l.checked
  obtain ⟨-, htexts⟩ := hview.texts h0 t.mem l.front l.rest hmem s.ppbuf l.ppbuf
  obtain ⟨hstored, -, -⟩ := kvSetAll_provided true (pairOffsets (s.ppbuf + l.path.length + 1) ps)
    s.req.query l.provided.flag
  refine ⟨r, t, q', ps, ht, hq, ?_⟩
  rw [l.empty, l.provided.capacity, List.nil_append, ← List.map_take] at hstored
  rw [hreq, hstored, List.map_map]
  have htake := congrArg (fun ps => (ps.take 20).map some) htexts
  simpa [← List.map_take, Function.comp_def] using htake

theorem map_some_inj {α : Type} {xs ys : List α} : xs.map some = ys.map some ↔ xs = ys :=
  List.map_inj_right fun _ _ => Option.some.inj

theorem queryFields_eq_nil_iff {q : List UInt8} : queryFields q = [] ↔ '='.toUInt8 ∉ q := by
  refine ⟨fun hnil he => ?_, queryFields_eq_nil⟩
  obtain ⟨seg, hseg, he⟩ := exists_segment he
  rw [queryFields, List.filterMap_eq_nil_iff] at hnil
  have hnone := hnil seg hseg
  simp [fieldOfSegment, he] at hnone

/-- Where the pairs are the fields, no key holds a `&`. -/
theorem notMem_recorded {q : List UInt8} {t : Parse} {n : Nat}
    (h : t.req.query.stored.map (Option.map (textsAt t.mem)) =
      ((queryFields q).take n).map some) {p : KvPair Nat}
    (hp : some p ∈ t.req.query.stored) : '&'.toUInt8 ∉ cString t.mem p.key := by
  have hmem := List.mem_map_of_mem (f := Option.map (textsAt t.mem)) hp
  rw [h] at hmem
  obtain ⟨f, hf, heq⟩ := List.mem_map.mp hmem
  obtain rfl := Option.some.inj heq
  exact notMem_queryFields (List.mem_of_mem_take hf)

theorem QueryTarget.recorded_iff (l : QueryTarget s bufend) {r : Int} {t : Parse}
    (h : httpParsePath s bufend = .ok (r, t)) :
    l.Recorded ↔ t.req.query.stored.map (Option.map (textsAt t.mem)) =
      ((queryFields l.query).take 20).map some := by
  constructor
  · rintro ⟨r', t', h', hfields, -⟩
    obtain ⟨-, rfl⟩ := Prod.mk.inj (Except.ok.inj (h'.symm.trans h))
    exact hfields
  · intro hfields
    exact ⟨r, t, h, hfields, fun _ => notMem_recorded hfields⟩

/-- The pairs come from single segments exactly if no segment without `=` is in
front of one of the first 20 fields, and, where there are fields, the target is
not refused. -/
theorem httpParsePath_fields_iff (l : QueryTarget s bufend) :
    l.Recorded ↔ FieldsFirst 20 l.query ∧ (l.Refused → '='.toUInt8 ∉ l.query) := by
  by_cases hrefused : l.Refused
  · rw [l.recorded_iff hrefused.refused, l.empty, List.map_nil, eq_comm, List.map_eq_nil_iff]
    have hnil : (queryFields l.query).take 20 = [] ↔ '='.toUInt8 ∉ l.query := by
      simp [queryFields_eq_nil_iff]
    rw [hnil]
    exact ⟨fun he => ⟨fieldsFirst_of_notMem he 20, fun _ => he⟩, fun h => h.2 hrefused⟩
  · have hpassed := not_or.mp hrefused
    obtain ⟨r, t, q', ps, ht, hview, hps⟩ := l.parsed (not_not.mp hpassed.1) hpassed.2
    rw [l.recorded_iff ht, hps, map_some_inj, hview.fields_iff]
    exact ⟨fun h => ⟨h, fun h' => absurd h' hrefused⟩, fun h => h.1⟩

/-- The block of a GET of `/` with a query, 24 bytes of request, in front of the path
stage. -/
def queryParse (query : List UInt8) : Parse :=
  { Parse.start (ascii "GET " ++ (ascii "/" ++ '?'.toUInt8 :: query ++ ' '.toUInt8 ::
      (ascii "HTTP/1.1\r\n\r\n" ++ List.replicate 40 0))) with
    req := { HttpRequest.cleared with method := methodGet }
    ppbuf := 4 }

def queryTarget (query : List UInt8) (hspace : ' '.toUInt8 ∉ query) :
    QueryTarget (queryParse query) 24 where
  front := ascii "GET "
  path := ascii "/"
  query := query
  rest := ascii "HTTP/1.1\r\n\r\n" ++ List.replicate 40 0
  layout := rfl
  ppbuf := rfl
  path_mark := by decide +kernel
  path_space := by decide +kernel
  query_space := hspace
  zero_mem := by decide +kernel
  checked := by
    change sizeofLit "/ HTTP/0.0\r\n" ≤ sizeSub 24 4
    decide +kernel
  provided := ⟨rfl, rfl⟩
  empty := rfl

theorem valueless_space : ' '.toUInt8 ∉ ascii "a&b=1" := by decide +kernel

theorem trailing_space : ' '.toUInt8 ∉ ascii "b=1&a" := by decide +kernel

/-- Behind the field `b=1` the segment `a` does no harm. -/
theorem httpParsePath_fields_iff_trailing :
    (queryTarget (ascii "b=1&a") trailing_space).Recorded :=
  (httpParsePath_fields_iff _).mpr ⟨by decide +kernel, by
    rintro (hslash | hzero)
    · exact absurd rfl hslash
    · exact absurd hzero (by decide +kernel)⟩

/-- The segment `a` becomes the front of the key `a&b`. -/
theorem httpParsePath_not_fields :
    ¬ (queryTarget (ascii "a&b=1") valueless_space).Recorded := by
  obtain ⟨⟨r, t⟩, ht, hstored⟩ := exists_of_map_toOption
    (x := httpParsePath (queryParse (ascii "a&b=1")) 24) (b := [some (ascii "a&b", ascii "1")])
    (f := fun rt => rt.2.req.query.stored.map (Option.map (textsAt rt.2.mem))) (by decide +kernel)
  rw [(queryTarget _ valueless_space).recorded_iff ht, hstored]
  decide +kernel

end L4Server
