import L4Server.HashChains
import L4Server.HashIndices
import Mathlib.Data.List.Find

/-!
Runs of `hmap_insert` and `hmap_get`. With `hash_64` and two buckets or more a map
behaves as a finite map in which the first value of a key stays. The keys are
words: texts at different addresses are different keys, whatever they say.
-/
namespace L4Server
open CMemory LinkedChain CText

variable {m m' : Hmap} {chains : Nat → List Nat} {key value : UInt64}

/-! Lookups. -/

/-- The value of the first of the elements with the key. -/
def Hmap.lookup (m : Hmap) (xs : List Nat) (key : UInt64) : Option UInt64 :=
  (xs.find? (m.hasKey key)).bind fun a => (m.elements a).map (·.value)

/-- `hmap_get` in a table whose index is in range. -/
theorem Chained.hmapGet_eq (h : Chained m chains) {mem : TextMemory} {index : UInt64}
    {first : Option Nat} (hhash : m.hashFunc mem key m.bits = .ok index)
    (hfirst : m.hl[index.toNat]? = some first) :
    hmapGet mem m key = .ok ((m.lookup (chains index.toNat) key).getD 0) := by
  have hfind := h.hmapFind_eq hhash hfirst
  unfold hmapGet Hmap.lookup
  cases hfound : (chains index.toNat).find? (m.hasKey key) with
  | none =>
      rw [hfound] at hfind
      simp only [hfind, bind, Except.bind, Option.bind_none, Option.getD_none]
  | some a =>
      rw [hfound] at hfind
      obtain ⟨ele, hele⟩ := h.live (List.mem_of_find?_eq_some hfound)
      simp [hfind, Hmap.element, hele, bind, Except.bind, pure, Except.pure]

/-- A lookup whose hash function faults. -/
theorem hmapGet_hash_error {mem : TextMemory} {e : HmapFault}
    (h : m.hashFunc mem key m.bits = .error e) : hmapGet mem m key = .error e := by
  simp only [hmapGet, hmapFind, h, bind, Except.bind]

/-- A lookup whose index is out of range. -/
theorem hmapGet_bucket_error {mem : TextMemory} {index : UInt64}
    (hhash : m.hashFunc mem key m.bits = .ok index) (h : m.hl[index.toNat]? = none) :
    hmapGet mem m key = .error (.bucket index) := by
  simp only [hmapGet, hmapFind, hhash, Hmap.first_eq_error h, bind, Except.bind]

/-- The new element is found under its key alone. -/
theorem Inserted.lookup_cons {a index : Nat} {first : Option Nat} {xs : List Nat}
    (h : Inserted m a key value index first m') (key' : UInt64) :
    m'.lookup (a :: xs) key' = if key' = key then some value else m'.lookup xs key' := by
  have hnew := h.element_new
  unfold Hmap.lookup
  by_cases hkey : key' = key
  · rw [if_pos hkey, List.find?_cons_of_pos (by simp [Hmap.hasKey, hnew, newElement, hkey])]
    simp [hnew, newElement]
  · rw [if_neg hkey,
      List.find?_cons_of_neg (by simp [Hmap.hasKey, hnew, newElement, Ne.symm hkey])]

/-- Among the elements that were there nothing changes. -/
theorem Inserted.lookup_eq {a index : Nat} {first : Option Nat} {xs : List Nat}
    (h : Inserted m a key value index first m') (ha : a ∉ xs) (key' : UInt64) :
    m'.lookup xs key' = m.lookup xs key' := by
  have hne : ∀ c ∈ xs, c ≠ a := by
    rintro c hc rfl
    exact ha hc
  have hkeys : ∀ c ∈ xs, m'.hasKey key' c = m.hasKey key' c := by
    intro c hc
    have hsame := h.map_elements (f := fun ele => ele.key) (fun _ _ => rfl) (hne c hc)
    simpa [Hmap.hasKey, Option.any_map] using congrArg (Option.any (· == key')) hsame
  unfold Hmap.lookup
  rw [List.find?_congr hkeys]
  refine Option.bind_congr fun c hc => ?_
  exact h.map_elements (fun _ _ => rfl) (hne c (List.mem_of_find?_eq_some hc))

/-- What is looked up in the buckets after an insertion. -/
theorem Chained.lookup_inserted (h : Chained m chains) {a index : Nat} {first : Option Nat}
    (hi : Inserted m a key value index first m') (hfresh : m.elements a = none) (i : Nat)
    (key' : UInt64) :
    m'.lookup (Function.update chains index (a :: chains index) i) key' =
      if i = index ∧ key' = key then some value else m.lookup (chains i) key' := by
  have hnew := h.notMem_of_fresh hfresh
  by_cases hindex : i = index
  · subst hindex
    simp only [Function.update_self, hi.lookup_cons, hi.lookup_eq (hnew i), true_and]
  · simp only [Function.update_of_ne hindex, hi.lookup_eq (hnew i), hindex, false_and, if_false]

/-- An insertion leaves the lookups of all other keys as they are, those that fault
as well. -/
theorem Chained.hmapGet_other (h : Chained m chains) {mem : TextMemory} {malloc : Option Nat}
    (hok : hmapInsert mem m key value malloc = .ok m') (mem' : TextMemory) {key' : UInt64}
    (hkey : key' ≠ key) : hmapGet mem' m' key' = hmapGet mem' m key' := by
  cases h.hmapInsert_turn hok with
  | present | noMemory => rfl
  | @inserted a index first _ _ _ hfresh _ hfirst hi =>
      have h' := h.inserted hi hfresh hfirst
      have hsame : m'.hashFunc mem' key' m'.bits = m.hashFunc mem' key' m.bits := by
        rw [hi.hashFunc, hi.bits]
      have hlength : m'.hl.length = m.hl.length := by rw [hi.hl, List.length_set]
      cases hhash : m.hashFunc mem' key' m.bits with
      | error e => rw [hmapGet_hash_error hhash, hmapGet_hash_error (hsame.trans hhash)]
      | ok i =>
          by_cases hlt : i.toNat < m.hl.length
          · rw [h.hmapGet_eq hhash (List.getElem?_eq_getElem hlt),
              h'.hmapGet_eq (hsame.trans hhash) (List.getElem?_eq_getElem (hlength ▸ hlt)),
              h.lookup_inserted hi hfresh, if_neg fun both => hkey both.2]
          · rw [hmapGet_bucket_error hhash (List.getElem?_eq_none (by omega)),
              hmapGet_bucket_error (hsame.trans hhash) (List.getElem?_eq_none (by omega))]

/-! The finite map. -/

/-- What an operation writes under a key, should there be no value yet. -/
def HmapOp.writes (key : UInt64) : HmapOp → Option UInt64
  | .insert _ key' value (some _) => if key = key' then some value else none
  | _ => none

/-- The value of the earliest insertion of the key for which there was memory. -/
def firstInserted (ops : List HmapOp) (key : UInt64) : Option UInt64 :=
  ops.findSome? (HmapOp.writes key)

/-- Every key is hashed to a bucket, and the bucket holds the key's value. -/
structure Represents (m : Hmap) (chains : Nat → List Nat) (f : UInt64 → Option UInt64) : Prop
    extends Chained m chains where
  indexed : ∀ key, ∃ index first, (∀ mem, m.hashFunc mem key m.bits = .ok index) ∧
    m.hl[index.toNat]? = some first ∧ m.lookup (chains index.toNat) key = f key

variable {f : UInt64 → Option UInt64} {mem : TextMemory} {malloc : Option Nat}

theorem represents_new {bits : UInt8} (hbits : 1 ≤ bits.toNat)
    (hnew : hmapNew bits hash64 true = some m) : Represents m (fun _ => []) fun _ => none := by
  refine ⟨chained_new hnew, fun key => ?_⟩
  obtain rfl := Option.some.inj hnew
  refine ⟨hash64Index key bits, none, fun mem => hash64_eq mem key bits, ?_, rfl⟩
  rw [List.getElem?_replicate, if_pos (hash64Index_lt key hbits)]

theorem Represents.hmapGet_eq (h : Represents m chains f) (mem : TextMemory) (key : UInt64) :
    hmapGet mem m key = .ok ((f key).getD 0) := by
  obtain ⟨index, first, hhash, hfirst, hlookup⟩ := h.indexed key
  rw [h.toChained.hmapGet_eq (hhash mem) hfirst, hlookup]

/-- `hmap_find` finds an element for the keys that have a value. -/
theorem Represents.hmapFind_isSome (h : Represents m chains f) {found : Option Nat}
    (hfind : hmapFind mem m key = .ok found) : (f key).isSome = found.isSome := by
  obtain ⟨index, first, hhash, hfirst, hlookup⟩ := h.indexed key
  obtain rfl := Except.ok.inj ((h.toChained.hmapFind_eq (hhash mem) hfirst).symm.trans hfind)
  rw [← hlookup, Hmap.lookup]
  cases hfound : (chains index.toNat).find? (m.hasKey key) with
  | none => rfl
  | some a =>
      obtain ⟨ele, hele⟩ := h.live (List.mem_of_find?_eq_some hfound)
      simp [hele]

/-- An insertion writes its value where there is none. -/
theorem Represents.turn (h : Represents m chains f)
    (ht : InsertTurn mem m key value malloc m') :
    ∃ chains', Represents m' chains' fun k =>
      (f k).or (HmapOp.writes k (.insert mem key value malloc)) := by
  cases ht with
  | present hfind =>
      have hsome := h.hmapFind_isSome hfind
      refine ⟨chains, ?_⟩
      convert h using 2 with k
      by_cases hk : k = key
      · obtain ⟨v, hv⟩ := Option.isSome_iff_exists.mp hsome
        rw [hk, hv, Option.some_or]
      · cases malloc <;> simp [HmapOp.writes, hk]
  | noMemory hfind hnone =>
      refine ⟨chains, ?_⟩
      subst hnone
      simpa only [HmapOp.writes, Option.or_none] using h
  | @inserted a index first _ hfind hmalloc hfresh hhash hfirst hi =>
      have hnone : f key = none := Option.not_isSome_iff_eq_none.mp (by
        simp [h.hmapFind_isSome hfind])
      subst hmalloc
      refine ⟨_, h.toChained.inserted hi hfresh hfirst, fun k => ?_⟩
      obtain ⟨i, first', hhash', hfirst', hlookup⟩ := h.indexed k
      have hlt : i.toNat < m.hl.length := (List.getElem?_eq_some_iff.mp hfirst').1
      refine ⟨i, _, fun mem => ?_, List.getElem?_eq_getElem (by rwa [hi.hl, List.length_set]), ?_⟩
      · rw [hi.hashFunc, hi.bits, hhash']
      · rw [h.toChained.lookup_inserted hi hfresh, hlookup]
        by_cases hk : k = key
        · -- the key goes to its own bucket
          subst hk
          obtain rfl := Except.ok.inj ((hhash' mem).symm.trans hhash)
          rw [if_pos ⟨rfl, rfl⟩, hnone]
          simp [HmapOp.writes]
        · rw [if_neg fun both => hk both.2]
          simp [HmapOp.writes, hk]

theorem Represents.step (h : Represents m chains f) {op : HmapOp}
    (hstep : hmapStep m op = .ok m') :
    ∃ chains', Represents m' chains' fun k => (f k).or (op.writes k) := by
  cases op with
  | insert mem key value malloc => exact h.turn (h.toChained.hmapInsert_turn hstep)
  | get mem key =>
      obtain rfl := hmapStep_get hstep
      exact ⟨chains, by simpa only [HmapOp.writes, Option.or_none] using h⟩

theorem firstInserted_cons (op : HmapOp) (ops : List HmapOp) (key : UInt64) :
    firstInserted (op :: ops) key = (op.writes key).or (firstInserted ops key) := by
  rw [firstInserted, List.findSome?_cons]
  cases op.writes key <;> rfl

/-- A run writes, for each key, its earliest value. -/
theorem Represents.run {bits : UInt8} {hashFunc : HashFunc} {ops : List HmapOp}
    (h : Represents m chains f) (hrun : Automaton.run (hmapRuns bits hashFunc) ops m = .ok m') :
    ∃ chains', Represents m' chains' fun k => (f k).or (firstInserted ops k) := by
  induction ops generalizing m chains f with
  | nil =>
      obtain rfl := Except.ok.inj hrun
      exact ⟨chains, by simpa only [firstInserted, List.findSome?_nil, Option.or_none] using h⟩
  | cons op ops ih =>
      rw [Automaton.run] at hrun
      split at hrun
      · next m₁ hstep =>
          obtain ⟨chains₁, h₁⟩ := h.step hstep
          obtain ⟨chains', h'⟩ := ih h₁ hrun
          exact ⟨chains', by simpa only [firstInserted_cons, Option.or_assoc] using h'⟩
      · cases hrun

/-- With memory that is not in use an insertion does not fault. -/
theorem Represents.hmapInsert_total (h : Represents m chains f) (mem : TextMemory)
    (key value : UInt64) (malloc : Option Nat) (hfresh : ∀ a, malloc = some a → m.elements a = none) :
    ∃ m', hmapInsert mem m key value malloc = .ok m' := by
  obtain ⟨index, first, hhash, hfirst, -⟩ := h.indexed key
  obtain ⟨m', hok, -⟩ := h.toChained.hmapInsert_total (hhash mem) hfirst hfresh
  exact ⟨m', hok⟩

/-- A failed allocation changes nothing. -/
theorem hmapInsert_noMemory (h : Chained m chains)
    (hok : hmapInsert mem m key value none = .ok m') : m' = m := by
  cases h.hmapInsert_turn hok with
  | present | noMemory => rfl
  | inserted _ hmalloc => cases hmalloc

/-- With `hash_64` a map is a finite map in which the first value of a key stays. -/
theorem hmapRuns_firstInserted {bits : UInt8} {m₀ : Hmap} {ops : List HmapOp}
    (hbits : 1 ≤ bits.toNat ∧ bits.toNat ≤ 30) (hnew : hmapNew bits hash64 true = some m₀)
    (hrun : Automaton.run (hmapRuns bits hash64) ops m₀ = .ok m) :
    (∀ mem key, hmapGet mem m key = .ok ((firstInserted ops key).getD 0)) ∧
      (∀ mem key value malloc, (∀ a, malloc = some a → m.elements a = none) →
        ∃ m', hmapInsert mem m key value malloc = .ok m' ∧
          ∀ mem' key', key' ≠ key → hmapGet mem' m' key' = hmapGet mem' m key') ∧
      ∀ mem key value, hmapInsert mem m key value none = .ok m := by
  obtain ⟨chains, h⟩ := (represents_new hbits.1 hnew).run hrun
  refine ⟨fun mem key => ?_, fun mem key value malloc hfresh => ?_, fun mem key value => ?_⟩
  · rw [h.hmapGet_eq, Option.none_or]
  · obtain ⟨m', hok⟩ := h.hmapInsert_total mem key value malloc hfresh
    exact ⟨m', hok, fun mem' key' hkey => h.toChained.hmapGet_other hok mem' hkey⟩
  · obtain ⟨m', hok⟩ := h.hmapInsert_total mem key value none nofun
    rwa [hmapInsert_noMemory h.toChained hok] at hok

/-- A second value for a key, and another key in the same bucket. -/
def collidingOps : List HmapOp :=
  [.insert (fun _ => none) 5 50 (some 1), .insert (fun _ => none) 5 60 (some 2),
    .insert (fun _ => none) 7 70 (some 2)]

theorem hmapRuns_firstInserted_twice : hash64Index 5 1 = hash64Index 7 1 ∧ ∃ m₀ m,
    Automaton.run (hmapRuns 1 hash64) collidingOps m₀ = .ok m ∧
    (∀ mem key, hmapGet mem m key = .ok ((firstInserted collidingOps key).getD 0)) ∧
    (∀ mem key value malloc, (∀ a, malloc = some a → m.elements a = none) →
      ∃ m', hmapInsert mem m key value malloc = .ok m' ∧
        ∀ mem' key', key' ≠ key → hmapGet mem' m' key' = hmapGet mem' m key') ∧
    ∀ mem key value, hmapInsert mem m key value none = .ok m := by
  obtain ⟨m₀, hnew⟩ : ∃ m₀, hmapNew 1 hash64 true = some m₀ := ⟨_, rfl⟩
  have hview : ((hmapNew 1 hash64 true).bind fun m₀ => (Automaton.run (hmapRuns 1 hash64)
      collidingOps m₀).toOption.map (·.allocated)) = some 2 := by
    decide +kernel
  rw [hnew] at hview
  obtain ⟨m, hrun, -⟩ := exists_of_map_toOption hview
  exact ⟨by decide +kernel, m₀, m, hrun, hmapRuns_firstInserted (by decide) hnew hrun⟩

/-! Keys that are texts. -/

/-- `murmurhash_str` reads the byte its key points to. -/
theorem murmurhashStr_unmapped (bits : UInt8) (h : mem key = none) :
    murmurhashStr mem key bits = .error (.read key) := by
  obtain ⟨fuel, hfuel⟩ : ∃ n, 2 ^ 64 = n + 1 := ⟨2 ^ 64 - 1, by omega⟩
  have hread : readByte mem (key + UInt64.ofNat 0) = .error (.read key) := by
    simp [readByte, h]
  have hlength : strlen mem key = .error (.read key) := by
    rw [strlen, hfuel, strlenLoop, hread]
    rfl
  simp only [murmurhashStr, hlength, bind, Except.bind]

/-- In a map of one bucket the lookups that answer are those of NULL. -/
theorem eq_zero_of_hmapFind {found : Option Nat} (hhash : m.hashFunc = hash64)
    (hbits : ¬ 1 ≤ m.bits.toNat) (hfind : hmapFind mem m key = .ok found) : key = 0 := by
  obtain ⟨index, first, hindex, hfirst⟩ := hmapFind_indexed hfind
  have hrange : IndexInRange m mem key := ⟨index, hindex, (List.getElem?_eq_some_iff.mp hfirst).1⟩
  exact ((hash64_inRange_iff hhash mem key).mp hrange).resolve_left hbits

/-- A value inserted under one key is what a lookup of another returns just when the
other key has it already. -/
theorem insert_found_iff {bits : UInt8} {m₀ : Hmap} {ops : List HmapOp}
    (hnew : hmapNew bits hash64 true = some m₀)
    (hrun : Automaton.run (hmapRuns bits hash64) ops m₀ = .ok m) (hchained : Chained m chains)
    (hhash : m.hashFunc = hash64) {p₁ p₂ : UInt64} {a : Nat} (hne : p₁ ≠ p₂)
    (hfresh : m.elements a = none) :
    (∃ m', hmapInsert mem m p₁ value (some a) = .ok m' ∧ hmapGet mem m' p₂ = .ok value) ↔
      1 ≤ m.bits.toNat ∧ (firstInserted ops p₂).getD 0 = value := by
  by_cases hbits : 1 ≤ m.bits.toNat
  · obtain ⟨_, _, rfl, -⟩ := hmapRuns_chained (Automaton.reachable_of_run hnew hrun)
    obtain ⟨chains', h⟩ := (represents_new hbits hnew).run hrun
    have hget : ∀ m', hmapInsert mem m p₁ value (some a) = .ok m' →
        hmapGet mem m' p₂ = .ok ((firstInserted ops p₂).getD 0) := by
      intro m' hok
      rw [hchained.hmapGet_other hok mem hne.symm, h.hmapGet_eq, Option.none_or]
    constructor
    · rintro ⟨m', hok, hvalue⟩
      exact ⟨hbits, Except.ok.inj ((hget m' hok).symm.trans hvalue)⟩
    · rintro ⟨-, rfl⟩
      obtain ⟨m', hok⟩ :=
        h.hmapInsert_total mem p₁ _ (some a) fun c hc => Option.some.inj hc ▸ hfresh
      exact ⟨m', hok, hget m' hok⟩
  · -- one bucket: only the key NULL has an index in range
    refine iff_of_false ?_ fun both => hbits both.1
    rintro ⟨m', hok, hvalue⟩
    rw [hchained.hmapGet_other hok mem hne.symm] at hvalue
    obtain ⟨_, hfind₁, -⟩ := bind_eq_ok.mp hok
    obtain ⟨_, hfind₂, -⟩ := bind_eq_ok.mp hvalue
    exact hne ((eq_zero_of_hmapFind hhash hbits hfind₁).trans
      (eq_zero_of_hmapFind hhash hbits hfind₂).symm)

/-- With `murmurhash_str` lookups and insertions read what the key points to. -/
theorem follows_of_murmurhashStr (hhash : m.hashFunc = murmurhashStr) (hnone : mem key = none) :
    hmapGet mem m key = .error (.read key) ∧
      ∀ value malloc, hmapInsert mem m key value malloc = .error (.read key) := by
  have herror : m.hashFunc mem key m.bits = .error (.read key) := by
    rw [hhash]
    exact murmurhashStr_unmapped m.bits hnone
  refine ⟨hmapGet_hash_error herror, fun value malloc => ?_⟩
  simp only [hmapInsert, hmapFind, herror, bind, Except.bind]

/-- The text "k" twice. -/
def twoTexts : TextMemory := fun p =>
  if p = 16 ∨ p = 32 then some 107 else if p = 17 ∨ p = 33 then some 0 else none

theorem stringAt_twoTexts {p : UInt64} (hp : p = 16 ∨ p = 32) : StringAt twoTexts p [107] := by
  obtain rfl | rfl := hp <;>
    exact stringAt_cons_iff.mpr ⟨by decide, by decide, stringAt_nil (by decide)⟩

/-- A map from `str_hmap_new` finds a text under the address of an equal text just
when the value happens to be what that address has already, or NULL if it has none; it
does not find a text of other content. A map from `int_hmap_new` follows every key. -/
theorem hmapNew_texts_iff {kind : HmapKind} {bits : UInt8} {m₀ : Hmap} {ops : List HmapOp}
    (_ : bits.toNat ≤ 30) (hnew : kind.hmapNew bits true = some m₀)
    (hrun : Automaton.run (hmapRuns bits m₀.hashFunc) ops m₀ = .ok m) :
    (kind = .str →
      (∀ mem p₁ p₂ text value a, p₁ ≠ p₂ → StringAt mem p₁ text → StringAt mem p₂ text →
        m.elements a = none →
        ((∃ m', hmapInsert mem m p₁ value (some a) = .ok m' ∧ hmapGet mem m' p₂ = .ok value) ↔
          1 ≤ bits.toNat ∧ (firstInserted ops p₂).getD 0 = value)) ∧
      ∀ mem p₁ p₂ text₁ text₂ value malloc m', StringAt mem p₁ text₁ → StringAt mem p₂ text₂ →
        text₁ ≠ text₂ → hmapInsert mem m p₁ value malloc = .ok m' →
        hmapGet mem m' p₂ = hmapGet mem m p₂) ∧
    (kind = .int → ∀ mem key, mem key = none → hmapGet mem m key = .error (.read key) ∧
      ∀ value malloc, hmapInsert mem m key value malloc = .error (.read key)) := by
  have hstart : hmapNew bits m₀.hashFunc true = some m₀ := by
    cases kind <;> obtain rfl := Option.some.inj hnew <;> rfl
  have hreach := Automaton.reachable_of_run (M := hmapRuns bits m₀.hashFunc) hstart hrun
  obtain ⟨_, hchained, rfl, hhash⟩ := hmapRuns_chained hreach
  refine ⟨?_, ?_⟩
  · rintro rfl
    have hstr : m₀.hashFunc = hash64 := by
      obtain rfl := Option.some.inj hnew
      rfl
    refine ⟨fun mem p₁ p₂ text value a hne _ _ hfresh => ?_,
      fun mem p₁ p₂ text₁ text₂ value malloc m' h₁ h₂ hne hok => ?_⟩
    · rw [hstr] at hstart hrun
      exact insert_found_iff hstart hrun hchained (hhash.trans hstr) hne hfresh
    · refine hchained.hmapGet_other hok mem ?_
      rintro rfl
      exact hne (h₁.unique h₂)
  · rintro rfl mem key hnone
    have hint : m.hashFunc = murmurhashStr := by
      obtain rfl := Option.some.inj hnew
      exact hhash
    exact follows_of_murmurhashStr hint hnone

/-- The value 7 is given to the second of two equal texts; inserted under the first, 7
is found under the second, and 8 is not. -/
theorem hmapNew_texts_iff_seven : ∃ m₀ m, HmapKind.str.hmapNew 4 true = some m₀ ∧
    Automaton.run (hmapRuns 4 m₀.hashFunc) [.insert twoTexts 32 7 (some 1)] m₀ = .ok m ∧
    (∃ m', hmapInsert twoTexts m 16 7 (some 2) = .ok m' ∧ hmapGet twoTexts m' 32 = .ok 7) ∧
    ¬ ∃ m', hmapInsert twoTexts m 16 8 (some 2) = .ok m' ∧ hmapGet twoTexts m' 32 = .ok 8 := by
  obtain ⟨m₀, hnew⟩ : ∃ m₀, HmapKind.str.hmapNew 4 true = some m₀ := ⟨_, rfl⟩
  have hview : ((HmapKind.str.hmapNew 4 true).bind fun m₀ =>
      (Automaton.run (hmapRuns 4 m₀.hashFunc) [.insert twoTexts 32 7 (some 1)] m₀).toOption.map
        fun m => m.elements 2) = some none := by
    decide +kernel
  rw [hnew] at hview
  obtain ⟨m, hrun, hfresh⟩ := exists_of_map_toOption hview
  have hfound (value : UInt64) := ((hmapNew_texts_iff (by decide) hnew hrun).1 rfl).1
    twoTexts 16 32 [107] value 2 (by decide) (stringAt_twoTexts (.inl rfl))
    (stringAt_twoTexts (.inr rfl)) hfresh
  exact ⟨m₀, m, hnew, hrun, (hfound 7).mpr (by decide), mt (hfound 8).mp (by decide)⟩

/-- A text inserted under one address is not found under the other, and a map with
integer keys follows the key 5. -/
theorem hmapNew_texts_apart :
    (∃ m₀ m', strHmapNew 4 true = some m₀ ∧ StringAt twoTexts 16 [107] ∧
      StringAt twoTexts 32 [107] ∧ hmapInsert twoTexts m₀ 16 7 (some 1) = .ok m' ∧
      hmapGet twoTexts m' 32 = .ok 0) ∧
    ∃ m₀, intHmapNew 4 true = some m₀ ∧ hmapGet twoTexts m₀ 5 = .error (.read 5) := by
  refine ⟨?_, ⟨_, rfl, by rfl⟩⟩
  obtain ⟨m₀, hnew⟩ : ∃ m₀, strHmapNew 4 true = some m₀ := ⟨_, rfl⟩
  have hview : ((strHmapNew 4 true).bind fun m₀ =>
      (hmapInsert twoTexts m₀ 16 7 (some 1)).toOption.map fun m' =>
        (hmapGet twoTexts m' 32).toOption) = some (some 0) := by
    decide +kernel
  rw [hnew] at hview
  obtain ⟨m', hok, hget⟩ := exists_of_map_toOption hview
  refine ⟨m₀, m', hnew, stringAt_twoTexts (.inl rfl), stringAt_twoTexts (.inr rfl), hok, ?_⟩
  cases hcase : hmapGet twoTexts m' 32 with
  | error e => simp [hcase, Except.toOption] at hget
  | ok v => simpa [hcase, Except.toOption] using hget

end L4Server
