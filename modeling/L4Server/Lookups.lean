import L4Server.KvRuns
import L4Server.RequestGrammar
import L4Server.Service

/-!
Lookups by pointer. What `kv_find_value` finds in the lists of a parsed request is
what the client has written first under the name. What `find_router` finds in
the section of the routers is what the handler finds in their list.
-/
namespace L4Server
open CMemory CText

/-! Lists of pointers into a block. -/

/-- A pair of offsets in a block that lies at `base`, as the pointers it stands for. -/
def KvPair.addresses (base : UInt64) (p : KvPair Nat) : KvPair UInt64 :=
  ⟨base + UInt64.ofNat p.key, base + UInt64.ofNat p.value⟩

def Kv.addresses (base : UInt64) (kvmap : Kv Nat) : Kv UInt64 where
  size := kvmap.size
  flag := kvmap.flag
  capacity := kvmap.capacity
  pairs := kvmap.pairs.map (Option.map (KvPair.addresses base))
  size_le := kvmap.size_le
  allocated := (List.length_map _).trans kvmap.allocated
  heap_pos := kvmap.heap_pos

theorem Kv.addresses_stored (base : UInt64) (kvmap : Kv Nat) :
    (kvmap.addresses base).stored = kvmap.stored.map (Option.map (KvPair.addresses base)) :=
  (List.map_take ..).symm

/-- A pointer is NULL, or that to a text. -/
inductive PointsTo (mem : TextMemory) : UInt64 → Option (List UInt8) → Prop
  | null : PointsTo mem 0 none
  | text {p : UInt64} {text : List UInt8} : StringAt mem p text → PointsTo mem p (some text)

/-- The value of the first pair with a name. -/
def firstNamed (name : List UInt8) (texts : List TextPair) : Option (List UInt8) :=
  (texts.find? fun p => p.1 == name).map Prod.snd

theorem firstNamed_here (name value : List UInt8) (texts : List TextPair) :
    firstNamed name ((name, value) :: texts) = some value := by
  simp [firstNamed]

theorem firstNamed_later {name : List UInt8} {p : TextPair} (h : p.1 ≠ name)
    (texts : List TextPair) : firstNamed name (p :: texts) = firstNamed name texts := by
  simp [firstNamed, h]

/-- A NUL follows in the block. -/
def Ended (block : List UInt8) (p : Nat) : Prop := ∃ z, p ≤ z ∧ block[z]? = some 0

variable {mem : TextMemory} {base key : UInt64} {block name : List UInt8}

theorem Ended.stringAt {p : Nat} (h : Ended block p) (hmem : BytesAt mem base block) :
    StringAt mem (base + UInt64.ofNat p) (cString block p) := by
  obtain ⟨z, hle, hz⟩ := h
  exact hmem.stringAt hz hle

/-- The pairs a list holds. -/
def Kv.recorded {α : Type} (kvmap : Kv α) : List (KvPair α) := kvmap.stored.filterMap id

theorem eq_map_filterMap_id {α β : Type} {f : α → β} {stored : List (Option α)} {texts : List β}
    (h : stored.map (Option.map f) = texts.map some) :
    stored = (stored.filterMap id).map some := by
  induction stored generalizing texts with
  | nil => rfl
  | cons p stored ih =>
      cases texts with
      | nil => cases h
      | cons text texts =>
          obtain ⟨hp, hrest⟩ := List.cons.inj h
          obtain ⟨q, rfl, -⟩ := Option.map_eq_some_iff.mp hp
          exact congrArg (some q :: ·) (ih hrest)

/-- The first pair of a name in the list is the first of that name among the texts. -/
theorem FirstMatch.pointsTo (hmem : BytesAt mem base block) {pairs : List (KvPair Nat)}
    {value : UInt64} (hended : ∀ q ∈ pairs, Ended block q.key ∧ Ended block q.value)
    (h : FirstMatch mem name (pairs.map (KvPair.addresses base)) value) :
    PointsTo mem value (firstNamed name (pairs.map (textsAt block))) := by
  induction pairs with
  | nil =>
      cases h
      exact .null
  | cons q pairs ih =>
      obtain ⟨hkey, hvalue⟩ := hended q List.mem_cons_self
      cases h with
      | here hsame =>
          obtain rfl := (hkey.stringAt hmem).unique hsame
          rw [List.map_cons, textsAt, firstNamed_here]
          exact .text (hvalue.stringAt hmem)
      | later hother hrest =>
          have hne : cString block q.key ≠ name := fun heq => hother (heq ▸ hkey.stringAt hmem)
          rw [List.map_cons, firstNamed_later (show (textsAt block q).1 ≠ name from hne)]
          exact ih (fun q hq => hended q (List.mem_cons_of_mem _ hq)) hrest

/-- A lookup ends with the value of the first pair of the name. -/
theorem kvFindValue_recorded (hmem : BytesAt mem base block) (hkey : StringAt mem key name)
    {kvmap : Kv Nat} {texts : List TextPair}
    (htexts : kvmap.stored.map (Option.map (textsAt block)) = texts.map some)
    (hended : ∀ p ∈ kvmap.pointers, Ended block p) :
    ∃ value, kvFindValue mem (kvmap.addresses base) key = .ok value ∧
      FirstMatch mem name (kvmap.recorded.map (KvPair.addresses base)) value ∧
        PointsTo mem value (firstNamed name (kvmap.recorded.map (textsAt block))) := by
  have hstored : kvmap.stored = kvmap.recorded.map some := eq_map_filterMap_id htexts
  have hends (q : KvPair Nat) (hq : q ∈ kvmap.recorded) :
      Ended block q.key ∧ Ended block q.value := by
    have hmem : some q ∈ kvmap.stored := by
      rw [hstored]
      exact List.mem_map_of_mem hq
    exact ⟨hended _ (Kv.mem_pointers.mpr ⟨q, hmem, .inl rfl⟩),
      hended _ (Kv.mem_pointers.mpr ⟨q, hmem, .inr rfl⟩)⟩
  have hkeys (p : KvPair UInt64) (hp : p ∈ kvmap.recorded.map (KvPair.addresses base)) :
      ∃ text, StringAt mem p.key text := by
    obtain ⟨q, hq, rfl⟩ := List.mem_map.mp hp
    exact ⟨_, (hends q hq).1.stringAt hmem⟩
  obtain ⟨value, hvalue, hfirst⟩ := kvFindLoop_first hkey hkeys
  refine ⟨value, ?_, hfirst, hfirst.pointsTo hmem hends⟩
  rw [kvFindValue, Kv.addresses_stored, hstored, List.map_map]
  rw [List.map_map] at hvalue
  exact hvalue

/-! Lists of a parsed request. -/

/-- The texts of a list's pairs. -/
def Kv.texts (block : List UInt8) (kvmap : Kv Nat) : List TextPair :=
  kvmap.recorded.map (textsAt block)

theorem Kv.texts_of_written {kvmap : Kv Nat} {block : List UInt8} {pairs : List (KvPair Nat)}
    (h : kvmap.stored = pairs.map some) :
    kvmap.stored.map (Option.map (textsAt block)) = (kvmap.texts block).map some := by
  simp [Kv.texts, Kv.recorded, h, Function.comp_def]

theorem Kv.texts_eq {kvmap : Kv Nat} {block : List UInt8} {texts : List TextPair}
    (h : kvmap.stored.map (Option.map (textsAt block)) = texts.map some) :
    kvmap.texts block = texts := by
  have hsome := congrArg (List.filterMap id) h
  simpa [Kv.texts, Kv.recorded, List.filterMap_map, List.map_filterMap, Function.comp_def]
    using hsome

variable {b : RecvBuf} {ret : Int} {t : Parse}

theorem parsed_ended (ht : httpParseRequest (Parse.start b.mem) b.received = .ok (ret, t)) :
    ∀ p ∈ t.req.pointers, Ended t.mem p := by
  obtain ⟨ret', t', ht', hlength, -, hpointers⟩ := httpParseRequest_memory_safe b
  obtain ⟨rfl, rfl⟩ := Prod.mk.inj (Except.ok.inj (ht.symm.trans ht'))
  intro p hp
  obtain ⟨-, z, hle, -, hz⟩ := hpointers p hp
  exact ⟨z, hle, hz⟩

theorem HttpRequest.query_pointers (req : HttpRequest) {p : Nat} (h : p ∈ req.query.pointers) :
    p ∈ req.pointers := by
  simp [HttpRequest.pointers, h]

theorem HttpRequest.header_pointers (req : HttpRequest) {p : Nat}
    (h : p ∈ req.headers.pointers) : p ∈ req.pointers := by
  simp [HttpRequest.pointers, h]

/-- Every lookup in an accepted request comes to its end, with the value pointer of
the first pair of the name. -/
theorem kvFindValue_accepted (b : RecvBuf) (t : Parse)
    (ht : httpParseRequest (Parse.start b.mem) b.received = .ok (1, t)) (mem : TextMemory)
    (base : UInt64) (hmem : BytesAt mem base t.mem) (key : UInt64) (name : List UInt8)
    (hkey : StringAt mem key name) :
    (∃ value, kvFindValue mem (t.req.headers.addresses base) key = .ok value ∧
      FirstMatch mem name (t.req.headers.recorded.map (KvPair.addresses base)) value ∧
        PointsTo mem value (firstNamed name (t.req.headers.texts t.mem))) ∧
    ∃ value, kvFindValue mem (t.req.query.addresses base) key = .ok value ∧
      FirstMatch mem name (t.req.query.recorded.map (KvPair.addresses base)) value ∧
        PointsTo mem value (firstNamed name (t.req.query.texts t.mem)) := by
  have hended := parsed_ended ht
  obtain ⟨s, r, hline, hheaders⟩ := httpParseRequest_accepted ht
  obtain ⟨l⟩ := httpParseRequestLine_layout b.getLast hline
  obtain ⟨-, -, -, hquery⟩ := l.texts hheaders
  have hstored := (HeadersParsed.mk hline ⟨r, hheaders⟩).stored
  rw [← Function.comp_def, ← List.map_map] at hstored
  exact ⟨kvFindValue_recorded hmem hkey (Kv.texts_of_written hstored)
      fun p hp => hended p (t.req.header_pointers hp),
    kvFindValue_recorded hmem hkey hquery fun p hp => hended p (t.req.query_pointers hp)⟩

/-- A lookup in a request that has been written out finds what was written: of the
headers the first 20, up to a short one, of the query the first 20 pairs. -/
theorem kvFindValue_requestText (b : RecvBuf) (l : RequestLine) (fields : List Header)
    (body : List UInt8) (hb : b.bytes = requestText l fields body)
    (hmethod : l.mask ≠ methodConnect) :
    ∃ t, httpParseRequest (Parse.start b.mem) b.received = .ok (1, t) ∧
      ∀ mem base key name, BytesAt mem base t.mem → StringAt mem key name →
        (∃ value, kvFindValue mem (t.req.headers.addresses base) key = .ok value ∧
          PointsTo mem value (firstNamed name
            (((fields.take 20).takeWhile fun h => decide h.Long).map fun h => (h.name, h.value)))) ∧
        ∃ value, kvFindValue mem (t.req.query.addresses base) key = .ok value ∧
          PointsTo mem value (firstNamed name (l.query.take 20)) := by
  obtain ⟨t, ht, hread⟩ := httpParseRequest_requestText b hb hmethod
  have hended := parsed_ended ht
  have hheaders := hread.headers
  rw [← Function.comp_def, ← List.map_map] at hheaders
  refine ⟨t, ht, fun mem base key name hmem hkey => ⟨?_, ?_⟩⟩
  · obtain ⟨value, hvalue, -, hpoints⟩ := kvFindValue_recorded hmem hkey hheaders
      fun p hp => hended p (t.req.header_pointers hp)
    exact ⟨value, hvalue, Kv.texts_eq hheaders ▸ hpoints⟩
  · obtain ⟨value, hvalue, -, hpoints⟩ := kvFindValue_recorded hmem hkey hread.query
      fun p hp => hended p (t.req.query_pointers hp)
    exact ⟨value, hvalue, Kv.texts_eq hread.query ▸ hpoints⟩

/-! Routers. -/

/-- What `find_router` reads of a `struct router`. -/
structure RouterRecord where
  path : UInt64
  method : UInt16

/-- A record is read where there is none, or a path that is no text. -/
inductive RouterFault
  | record (address : UInt64)
  | text
  | fuel
  deriving DecidableEq, Repr

/-- The turns of `FOREACH_ROUTER` from `iter` on; NULL is 0. -/
def findRouterLoop (records : UInt64 → Option RouterRecord) (mem : TextMemory)
    (routerEnd path : UInt64) (method : Nat) : Nat → UInt64 → Except RouterFault UInt64
  | 0, _ => .error .fuel
  | fuel + 1, iter =>
      if iter < routerEnd then
        match records iter with
        | none => .error (.record iter)
        | some r =>
            if method &&& r.method.toNat ≠ 0 then
              match strcmp mem path r.path with
              | none => .error .text
              | some c =>
                  if c = 0 then .ok iter
                  else findRouterLoop records mem routerEnd path method fuel (iter + 32)
            else findRouterLoop records mem routerEnd path method fuel (iter + 32)
      else .ok 0

/-- `find_router` between `router_start` and `router_end`. -/
def findRouterAt (records : UInt64 → Option RouterRecord) (mem : TextMemory)
    (routerStart routerEnd path : UInt64) (method : Nat) : Except RouterFault UInt64 :=
  findRouterLoop records mem routerEnd path method (2 ^ 64) routerStart

/-- The records of a section, each behind the one before. -/
def RoutersAt (records : UInt64 → Option RouterRecord) (mem : TextMemory) :
    UInt64 → List Router → Prop
  | _, [] => True
  | p, r :: rs =>
      (∃ rec, records p = some rec ∧ StringAt mem rec.path r.path ∧ rec.method.toNat = r.method) ∧
        RoutersAt records mem (p + 32) rs

/-- The router matches. -/
def Router.matches (path : List UInt8) (method : Nat) (iter : Router) : Bool :=
  method &&& iter.method != 0 && path == iter.path

theorem findRouterLoop_eq {records : UInt64 → Option RouterRecord} {mem : TextMemory}
    {path routerEnd : UInt64} {text : List UInt8} (hpath : StringAt mem path text) (method : Nat)
    {fuel : Nat} {p : UInt64} {routers : List Router} (h : RoutersAt records mem p routers)
    (hend : routerEnd = p + UInt64.ofNat (32 * routers.length))
    (hroom : p.toNat + 32 * routers.length < 2 ^ 64) (hfuel : routers.length < fuel) :
    findRouterLoop records mem routerEnd path method fuel p =
      .ok ((routers.findIdx? (Router.matches text method)).elim 0
        fun i => p + UInt64.ofNat (32 * i)) := by
  induction routers generalizing fuel p with
  | nil =>
      obtain ⟨fuel, rfl⟩ := Nat.exists_eq_add_one_of_ne_zero (Nat.ne_of_gt hfuel)
      rw [findRouterLoop, if_neg (by simp [hend])]
      rfl
  | cons r routers ih =>
      obtain ⟨⟨rec, hrecord, htext, hmethod⟩, hrest⟩ := h
      obtain ⟨fuel, rfl⟩ :=
        Nat.exists_eq_add_one_of_ne_zero (Nat.ne_of_gt (Nat.zero_lt_of_lt hfuel))
      rw [List.length_cons] at hend hroom hfuel
      have hbefore : p < routerEnd := by
        rw [hend, UInt64.lt_iff_toNat_lt, UInt64.toNat_add, UInt64.toNat_ofNat']
        omega
      obtain ⟨c, hc, hzero⟩ := strcmp_texts hpath htext
      have hmatches : r.matches text method = true ↔ method &&& r.method ≠ 0 ∧ c = 0 := by
        rw [hzero]
        simp [Router.matches]
      have hturn : findRouterLoop records mem routerEnd path method (fuel + 1) p =
          if r.matches text method = true then .ok p
          else findRouterLoop records mem routerEnd path method fuel (p + 32) := by
        rw [findRouterLoop, if_pos hbefore, hrecord]
        by_cases hmask : method &&& r.method = 0 <;> by_cases hsame : c = 0 <;>
          simp [hmatches, hmethod, hc, hmask, hsame]
      have hplace (i : Nat) : p + 32 + UInt64.ofNat (32 * i) = p + UInt64.ofNat (32 * (i + 1)) := by
        rw [Nat.mul_add, Nat.add_comm, UInt64.ofNat_add, ← UInt64.add_assoc]
        rfl
      rw [hturn, List.findIdx?_cons]
      split
      · simp
      · rw [ih hrest (hend.trans (hplace _).symm) ?_ (by omega)]
        · cases routers.findIdx? (Router.matches text method) with
          | none => rfl
          | some i => exact congrArg Except.ok (hplace i)
        · rw [UInt64.toNat_add]
          simp
          omega

theorem RoutersAt.record {records : UInt64 → Option RouterRecord} {mem : TextMemory} {p : UInt64}
    {routers : List Router} (h : RoutersAt records mem p routers) {i : Nat} {router : Router}
    (hi : routers[i]? = some router) :
    ∃ rec, records (p + UInt64.ofNat (32 * i)) = some rec ∧
      StringAt mem rec.path router.path ∧ rec.method.toNat = router.method := by
  induction routers generalizing p i with
  | nil => cases hi
  | cons r routers ih =>
      cases i with
      | zero =>
          obtain rfl := Option.some.inj hi
          simpa using h.1
      | succ i =>
          have hrest := ih h.2 hi
          rwa [UInt64.add_assoc, show (32 : UInt64) = UInt64.ofNat 32 from rfl,
            ← UInt64.ofNat_add, Nat.add_comm, ← Nat.mul_succ] at hrest

/-- The router of a section at index `i`, the first that matches, and its record. -/
structure FirstRouter (records : UInt64 → Option RouterRecord) (mem : TextMemory)
    (routerStart : UInt64) (routers : List Router) (path : List UInt8) (method i : Nat)
    (router : Router) : Prop where
  at_index : routers[i]? = some router
  meets : router.matches path method = true
  before : ∀ j < i, ∀ r, routers[j]? = some r → r.matches path method = false
  record : ∃ rec, records (routerStart + UInt64.ofNat (32 * i)) = some rec ∧
    StringAt mem rec.path router.path ∧ rec.method.toNat = router.method

/-- A pointer is NULL where no router matches, or that to the record of the first
that does, which is the one that is found in the list. -/
inductive RouterFound (records : UInt64 → Option RouterRecord) (mem : TextMemory)
    (routerStart : UInt64) (routers : List Router) (path : List UInt8) (method : Nat) :
    UInt64 → Prop
  | null : findRouter routers path method = none →
      RouterFound records mem routerStart routers path method 0
  | record {i : Nat} {router : Router} :
      FirstRouter records mem routerStart routers path method i router →
      findRouter routers path method = some router →
      RouterFound records mem routerStart routers path method (routerStart + UInt64.ofNat (32 * i))

/-- A section of routers in memory. -/
structure RouterSection (records : UInt64 → Option RouterRecord) (mem : TextMemory)
    (routerStart routerEnd : UInt64) (routers : List Router) : Prop where
  records : RoutersAt records mem routerStart routers
  stop : routerEnd = routerStart + UInt64.ofNat (32 * routers.length)
  room : routerStart.toNat + 32 * routers.length < 2 ^ 64

theorem RouterSection.findRouterAt_eq {records : UInt64 → Option RouterRecord} {mem : TextMemory}
    {routerStart routerEnd path : UInt64} {routers : List Router} {text : List UInt8}
    (h : RouterSection records mem routerStart routerEnd routers) (hpath : StringAt mem path text)
    (method : Nat) :
    ∃ found, findRouterAt records mem routerStart routerEnd path method = .ok found ∧
      RouterFound records mem routerStart routers text method found := by
  have hroom := h.room
  refine ⟨_, findRouterLoop_eq hpath method h.records h.stop h.room (by omega), ?_⟩
  cases hindex : routers.findIdx? (Router.matches text method) with
  | none =>
      refine .null (List.find?_eq_none.mpr fun r hr => ?_)
      exact Bool.eq_false_iff.mp (List.findIdx?_eq_none_iff.mp hindex r hr)
  | some i =>
      obtain ⟨hlt, hmatch, hbefore⟩ := List.findIdx?_eq_some_iff_getElem.mp hindex
      have hfirst : FirstRouter records mem routerStart routers text method i routers[i] := by
        refine ⟨List.getElem?_eq_getElem hlt, hmatch, fun j hj r hr => ?_,
          h.records.record (List.getElem?_eq_getElem hlt)⟩
        obtain ⟨hjlt, rfl⟩ := List.getElem?_eq_some_iff.mp hr
        exact Bool.eq_false_iff.mpr (hbefore j hj)
      have hfind : routers.find? (Router.matches text method) = some routers[i] :=
        List.find?_eq_some_iff_getElem.mpr ⟨hmatch, i, hlt, rfl, fun j hj => by
          simpa using hbefore j hj⟩
      exact .record hfirst hfind

/-- What the path of an accepted request is like. -/
structure Routable (path : List UInt8) : Prop where
  slash : path.head? = some '/'.toUInt8
  space : ' '.toUInt8 ∉ path
  mark : '?'.toUInt8 ∉ path

theorem LineLayout.routable {mem : List UInt8} {s : Parse} (l : LineLayout mem s) :
    Routable l.path := by
  have hpath := l.view.path_eq
  obtain ⟨rest, htarget⟩ : ∃ rest, l.target = '/'.toUInt8 :: rest :=
    List.head?_eq_some_iff.mp l.target_slash
  refine ⟨?_, fun h => ?_, fun h => ?_⟩
  · rw [hpath, htarget, List.takeWhile_cons_of_pos (by decide)]
    rfl
  · rw [hpath] at h
    exact l.target_space (List.takeWhile_sublist _ |>.subset h)
  · rw [hpath] at h
    simpa using List.mem_takeWhile_imp h

theorem accepted_routable (ht : httpParseRequest (Parse.start b.mem) b.received = .ok (1, t)) :
    ∃ p, t.req.path = some p ∧ Routable (cString t.mem p) := by
  obtain ⟨s, r, hline, hheaders⟩ := httpParseRequest_accepted ht
  obtain ⟨l⟩ := httpParseRequestLine_layout b.getLast hline
  obtain ⟨p, hp, htext⟩ := Option.map_eq_some_iff.mp (l.texts hheaders).2.1
  exact ⟨p, hp, htext ▸ l.routable⟩

/-- On an accepted request `find_router` comes to its end, with the record of the
first router that matches. -/
theorem findRouterAt_accepted (b : RecvBuf) (t : Parse)
    (ht : httpParseRequest (Parse.start b.mem) b.received = .ok (1, t)) (mem : TextMemory)
    (base : UInt64) (hmem : BytesAt mem base t.mem) (records : UInt64 → Option RouterRecord)
    (routerStart routerEnd : UInt64) (routers : List Router)
    (h : RouterSection records mem routerStart routerEnd routers) :
    ∃ p found, t.req.path = some p ∧
      findRouterAt records mem routerStart routerEnd (base + UInt64.ofNat p) t.req.method =
        .ok found ∧
      RouterFound records mem routerStart routers (cString t.mem p) t.req.method found := by
  obtain ⟨p, hp, -⟩ := accepted_routable ht
  have hended : Ended t.mem p := parsed_ended ht p (by simp [HttpRequest.pointers, hp])
  obtain ⟨found, hfound, hrecord⟩ := h.findRouterAt_eq (hended.stringAt hmem) t.req.method
  exact ⟨p, found, hp, hfound, hrecord⟩

/-- A router is found only if its path begins with a slash and has no space and no
question mark in it. -/
theorem findRouter_routable (b : RecvBuf) (t : Parse)
    (ht : httpParseRequest (Parse.start b.mem) b.received = .ok (1, t)) (routers : List Router)
    (router : Router) (p : Nat) (hp : t.req.path = some p)
    (h : findRouter routers (cString t.mem p) t.req.method = some router) :
    Routable router.path := by
  obtain ⟨q, hq, hroutable⟩ := accepted_routable ht
  obtain rfl := Option.some.inj (hp.symm.trans hq)
  have hmatches := List.find?_some h
  simp only [Bool.and_eq_true, beq_iff_eq] at hmatches
  exact hmatches.2 ▸ hroutable

/-! The request for `/`, with one header. -/

theorem rootRequest_pos : 0 < rootRequest.length := by decide +kernel

theorem rootRequest_lt : rootRequest.length < 2 ^ 21 := by decide +kernel

def rootBuf : RecvBuf := receivedBuf rootRequest rootRequest_pos rootRequest_lt

theorem rootBuf_bytes : rootBuf.bytes = requestText rootLine [hostHeader] [] :=
  receivedBuf_bytes ..

/-- A block and a name behind it. -/
theorem exists_named (block name : List UInt8) (hlt : block.length < 2 ^ 63)
    (hshort : name.length < 2 ^ 62) (hnul : 0 ∉ name) :
    ∃ mem key, BytesAt mem 4096 block ∧ StringAt mem key name := by
  have hall : BytesAt (placed 4096 (block ++ (name ++ [0]))) 4096 (block ++ (name ++ [0])) :=
    bytesAt_placed 4096 (by simp; omega)
  have hfront := hall.take block.length
  have hbehind := hall.drop block.length
  rw [List.take_left] at hfront
  rw [List.drop_left] at hbehind
  exact ⟨_, _, hfront, hbehind.stringAt_append hnul⟩

/-- The block parsed, in a memory with a name behind it. -/
theorem exists_rootParsed (name : List UInt8) (hshort : name.length < 2 ^ 62) (hnul : 0 ∉ name) :
    ∃ t mem key, httpParseRequest (Parse.start rootBuf.mem) rootBuf.received = .ok (1, t) ∧
      BytesAt mem 4096 t.mem ∧ StringAt mem key name := by
  obtain ⟨t, ht, -⟩ := httpParseRequest_requestText rootBuf rootBuf_bytes (by decide)
  obtain ⟨_, t', ht', hlength, -⟩ := httpParseRequest_memory_safe rootBuf
  obtain ⟨rfl, rfl⟩ := Prod.mk.inj (Except.ok.inj (ht.symm.trans ht'))
  obtain ⟨mem, key, hmem, hkey⟩ := exists_named t.mem name
    (hlength.trans_lt rootBuf.capacity_lt) hshort hnul
  exact ⟨t, mem, key, ht, hmem, hkey⟩

theorem kvFindValue_accepted_root : ∃ t mem key value,
    httpParseRequest (Parse.start rootBuf.mem) rootBuf.received = .ok (1, t) ∧
      kvFindValue mem (t.req.headers.addresses 4096) key = .ok value ∧
      FirstMatch mem hostHeader.name (t.req.headers.recorded.map (KvPair.addresses 4096)) value ∧
      PointsTo mem value (firstNamed hostHeader.name (t.req.headers.texts t.mem)) := by
  obtain ⟨t, mem, key, ht, hmem, hkey⟩ :=
    exists_rootParsed hostHeader.name (by decide) hostHeader.name_zero
  obtain ⟨⟨value, hvalue, hpoints⟩, -⟩ :=
    kvFindValue_accepted rootBuf t ht mem 4096 hmem key hostHeader.name hkey
  exact ⟨t, mem, key, value, ht, hvalue, hpoints⟩

theorem kvFindValue_requestText_root : ∃ t mem key value,
    httpParseRequest (Parse.start rootBuf.mem) rootBuf.received = .ok (1, t) ∧
      kvFindValue mem (t.req.headers.addresses 4096) key = .ok value ∧
      StringAt mem value hostHeader.value := by
  obtain ⟨t, mem, key, ht, hmem, hkey⟩ :=
    exists_rootParsed hostHeader.name (by decide) hostHeader.name_zero
  obtain ⟨t', ht', hlookups⟩ := kvFindValue_requestText rootBuf rootLine [hostHeader] []
    rootBuf_bytes (by decide)
  obtain ⟨-, rfl⟩ := Prod.mk.inj (Except.ok.inj (ht.symm.trans ht'))
  obtain ⟨⟨value, hvalue, hpoints⟩, -⟩ := hlookups mem 4096 key _ hmem hkey
  refine ⟨t, mem, key, value, ht, hvalue, ?_⟩
  have hnamed : firstNamed hostHeader.name ((([hostHeader].take 20).takeWhile
      fun h => decide h.Long).map fun h => (h.name, h.value)) = some hostHeader.value := by
    decide +kernel
  rw [hnamed] at hpoints
  cases hpoints with
  | text h => exact h

def rootRouter : Router := ⟨ascii "/", methodGet⟩

/-- A path that is registered for POST, and twice for GET. -/
def rootRouters : List Router := [⟨ascii "/", methodPost⟩, rootRouter, rootRouter]

/-- Their section, at address 64. -/
theorem exists_rootSection {mem : TextMemory} {key : UInt64} (h : StringAt mem key (ascii "/")) :
    ∃ records, RouterSection records mem 64 160 rootRouters := by
  refine ⟨fun p => if p = 64 then some ⟨key, 4⟩ else some ⟨key, 1⟩,
    ⟨⟨⟨key, 4⟩, rfl, h, rfl⟩, ⟨⟨key, 1⟩, rfl, h, rfl⟩, ⟨⟨key, 1⟩, rfl, h, rfl⟩, trivial⟩, rfl, ?_⟩
  decide

/-- The second record of the section is found, not the third. -/
theorem findRouterAt_accepted_root : ∃ t mem records p,
    httpParseRequest (Parse.start rootBuf.mem) rootBuf.received = .ok (1, t) ∧
      RouterSection records mem 64 160 rootRouters ∧
      findRouterAt records mem 64 160 (4096 + UInt64.ofNat p) t.req.method = .ok 96 := by
  obtain ⟨t, mem, key, ht, hmem, hkey⟩ := exists_rootParsed (ascii "/") (by decide) (by decide)
  obtain ⟨t', ht', hread⟩ := httpParseRequest_requestText rootBuf rootBuf_bytes (by decide)
  obtain ⟨-, rfl⟩ := Prod.mk.inj (Except.ok.inj (ht.symm.trans ht'))
  obtain ⟨q, hq, htext⟩ := Option.map_eq_some_iff.mp hread.path
  obtain ⟨records, hsection⟩ := exists_rootSection hkey
  obtain ⟨p, found, hp, hfound, hrecord⟩ :=
    findRouterAt_accepted rootBuf t ht mem 4096 hmem records 64 160 rootRouters hsection
  obtain rfl := Option.some.inj (hq.symm.trans hp)
  refine ⟨t, mem, records, q, ht, hsection, hfound.trans (congrArg Except.ok ?_)⟩
  rw [htext, hread.method] at hrecord
  cases hrecord with
  | null hnone => exact absurd hnone (by decide +kernel)
  | @record i router hfirst _ =>
      match i, hfirst with
      | 0, hfirst =>
          obtain rfl := Option.some.inj hfirst.at_index
          exact absurd hfirst.meets (by decide +kernel)
      | 1, _ => rfl
      | i + 2, hfirst => exact absurd (hfirst.before 1 (by omega) rootRouter rfl) (by decide +kernel)

theorem findRouter_routable_root : Routable rootRouter.path := by
  obtain ⟨t, ht, hread⟩ := httpParseRequest_requestText rootBuf rootBuf_bytes (by decide)
  obtain ⟨p, hp, htext⟩ := Option.map_eq_some_iff.mp hread.path
  refine findRouter_routable rootBuf t ht [rootRouter] rootRouter p hp ?_
  rw [htext, hread.method]
  exact List.find?_cons_of_pos (show rootRouter.matches rootLine.path rootLine.mask = true by
    decide +kernel)

end L4Server
