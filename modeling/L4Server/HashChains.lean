import L4Server.Hashtable

/-!
The chains of the table. Each bucket's elements form a doubly linked chain,
chains of different buckets share none, and together they hold all elements;
`hmap_insert` keeps this and `hmap_delete` uses it up.
-/
namespace L4Server
open CMemory LinkedChain CText

/-- The links of `struct hlist_node` in an element. -/
def hlist : Links Nat HmapElement (Option Link) where
  next ele := ele.node.next
  back ele := ele.node.pprev
  setBack ele pprev := { ele with node := { ele.node with pprev := pprev } }
  field a := some (.next a)
  next_setBack _ _ := rfl
  back_setBack _ _ := rfl

/-- `chains i` are the elements of bucket `i`, in order. -/
structure Chained (m : Hmap) (chains : Nat → List Nat) : Prop where
  chain : ∀ i first, m.hl[i]? = some first →
    Chain hlist m.elements (some (.first i)) first (chains i)
  outside : ∀ i, m.hl[i]? = none → chains i = []
  disjoint : ∀ i j, i ≠ j → (chains i).Disjoint (chains j)
  covers : ∀ a ele, m.elements a = some ele → ∃ i, a ∈ chains i
  bound : ∀ i, (chains i).length ≤ m.allocated

variable {m m' : Hmap} {chains : Nat → List Nat}

theorem chained_new {bits : UInt8} {hashFunc : HashFunc}
    (h : hmapNew bits hashFunc true = some m) : Chained m fun _ => [] := by
  obtain rfl := Option.some.inj h
  refine ⟨fun i first hfirst => ?_, fun _ _ => rfl, fun _ _ _ => by simp, by simp, by simp⟩
  simp only [List.getElem?_replicate] at hfirst
  split at hfirst
  · obtain rfl := Option.some.inj hfirst
    exact .nil
  · cases hfirst

theorem Chained.live (h : Chained m chains) {i a : Nat} (ha : a ∈ chains i) :
    ∃ ele, m.elements a = some ele := by
  cases hfirst : m.hl[i]? with
  | none =>
      rw [h.outside i hfirst] at ha
      simp at ha
  | some first => exact (h.chain i first hfirst).live ha

/-- An address not in use is in no chain. -/
theorem Chained.notMem_of_fresh (h : Chained m chains) {a : Nat} (hfresh : m.elements a = none)
    (i : Nat) : a ∉ chains i := by
  intro ha
  obtain ⟨ele, hele⟩ := h.live ha
  rw [hfresh] at hele
  cases hele

/-! The lookup. -/

def Hmap.hasKey (m : Hmap) (key : UInt64) (a : Nat) : Bool :=
  (m.elements a).any (·.key == key)

/-- The loop finds the first element of the chain with the key. -/
theorem findLoop_eq {place : Option Link} {p : Option Nat} {xs : List Nat} (key : UInt64)
    (h : Chain hlist m.elements place p xs) {fuel : Nat} (hfuel : xs.length < fuel) :
    m.findLoop key fuel p = .ok (xs.find? (m.hasKey key)) := by
  induction h generalizing fuel with
  | nil =>
      obtain ⟨fuel, rfl⟩ : ∃ f, fuel = f + 1 := ⟨fuel - 1, by omega⟩
      rfl
  | @cons place a ele xs hele _ _ ih =>
      obtain ⟨fuel, rfl⟩ : ∃ f, fuel = f + 1 := ⟨fuel - 1, by omega⟩
      simp only [List.length_cons] at hfuel
      rw [Hmap.findLoop, Hmap.element, hele]
      simp only [bind, Except.bind]
      by_cases hkey : ele.key = key
      · rw [if_pos hkey, List.find?_cons_of_pos (by simp [Hmap.hasKey, hele, hkey])]
      · rw [if_neg hkey, List.find?_cons_of_neg (by simp [Hmap.hasKey, hele, hkey])]
        exact ih (by omega)

theorem Hmap.first_eq_ok {index : UInt64} {first : Option Nat}
    (h : m.hl[index.toNat]? = some first) : m.first index = .ok first := by
  simp [Hmap.first, h]

theorem Hmap.first_eq_error {index : UInt64} (h : m.hl[index.toNat]? = none) :
    m.first index = .error (.bucket index) := by
  simp [Hmap.first, h]

/-- `hmap_find` in a table whose index is in range. -/
theorem Chained.hmapFind_eq (h : Chained m chains) {mem : TextMemory} {key index : UInt64}
    {first : Option Nat} (hhash : m.hashFunc mem key m.bits = .ok index)
    (hfirst : m.hl[index.toNat]? = some first) :
    hmapFind mem m key = .ok ((chains index.toNat).find? (m.hasKey key)) := by
  have hbound := h.bound index.toNat
  simp only [hmapFind, hhash, Hmap.first_eq_ok hfirst, bind, Except.bind]
  exact findLoop_eq key (h.chain _ _ hfirst) (by omega)

/-- A lookup that answers has hashed its key to a bucket. -/
theorem hmapFind_indexed {mem : TextMemory} {key : UInt64} {r : Option Nat}
    (h : hmapFind mem m key = .ok r) :
    ∃ index first, m.hashFunc mem key m.bits = .ok index ∧ m.hl[index.toNat]? = some first := by
  obtain ⟨index, hhash, h⟩ := bind_eq_ok.mp h
  obtain ⟨first, hfirst, -⟩ := bind_eq_ok.mp h
  refine ⟨index, first, hhash, ?_⟩
  unfold Hmap.first at hfirst
  split at hfirst
  · next hget => rw [hget, Except.ok.inj hfirst]
  · cases hfirst

/-! The insertion. -/

/-- The element `hmap_insert` makes of a key and a value, in front of `first`. -/
def newElement (key value : UInt64) (first : Option Nat) (index : Nat) : HmapElement :=
  ⟨key, value, ⟨first, some (.first index)⟩⟩

/-- The table after the new element has been put in front of its bucket. -/
structure Inserted (m : Hmap) (a : Nat) (key value : UInt64) (index : Nat) (first : Option Nat)
    (m' : Hmap) : Prop where
  bits : m'.bits = m.bits
  hashFunc : m'.hashFunc = m.hashFunc
  hl : m'.hl = m.hl.set index (some a)
  elements : m'.elements =
    hlist.pushFront m.elements first a (newElement key value first index)
  allocated : m'.allocated = m.allocated + 1

@[simp] theorem Hmap.setElement_hl (m : Hmap) (a : Nat) (ele : HmapElement) :
    (m.setElement a ele).hl = m.hl := rfl

@[simp] theorem Hmap.setElement_elements (m : Hmap) (a : Nat) (ele : HmapElement) :
    (m.setElement a ele).elements = Function.update m.elements a (some ele) := rfl

theorem Hmap.setNext_eq {a : Nat} {ele : HmapElement} (h : m.elements a = some ele)
    (next : Option Nat) :
    m.setNext a next = .ok (m.setElement a { ele with node := { ele.node with next := next } }) := by
  simp [Hmap.setNext, Hmap.element, h, bind, Except.bind, pure, Except.pure]

theorem Hmap.setPprev_eq {a : Nat} {ele : HmapElement} (h : m.elements a = some ele)
    (pprev : Link) :
    m.setPprev a pprev =
      .ok (m.setElement a { ele with node := { ele.node with pprev := some pprev } }) := by
  simp [Hmap.setPprev, Hmap.element, h, bind, Except.bind, pure, Except.pure]

/-- The update of the back link behind the new element. -/
theorem rebaseFirst_eq {a : Nat} {first : Option Nat}
    (hlive : ∀ old, first = some old → ∃ ele, m.elements old = some ele) :
    ∃ m', m.rebaseFirst a first = .ok m' ∧
      m'.elements = hlist.rebase m.elements (some (.next a)) first ∧ m'.hl = m.hl ∧
      m'.bits = m.bits ∧ m'.hashFunc = m.hashFunc ∧ m'.allocated = m.allocated := by
  cases first with
  | none => exact ⟨m, rfl, rfl, rfl, rfl, rfl, rfl⟩
  | some old =>
      obtain ⟨ele, hele⟩ := hlive old rfl
      refine ⟨_, Hmap.setPprev_eq hele _, ?_, rfl, rfl, rfl, rfl⟩
      simp [Links.rebase, hlist, hele]

/-- The four link updates put the element in front of its bucket. -/
theorem link_inserted {a : Nat} (key value : UInt64) {index : UInt64} {first : Option Nat}
    (hfresh : m.elements a = none) (hfirst : m.hl[index.toNat]? = some first)
    (hlive : ∀ old, first = some old → ∃ ele, m.elements old = some ele) :
    ∃ m₁ m₂, m.mallocElement a key value = .ok m₁ ∧ m₁.hashFunc = m.hashFunc ∧
      m₁.bits = m.bits ∧ m₁.link a index = .ok m₂ ∧
      Inserted m a key value index.toNat first m₂ := by
  have hlt : index.toNat < m.hl.length := (List.getElem?_eq_some_iff.mp hfirst).1
  have hne : first ≠ some a := by
    rintro rfl
    obtain ⟨ele, hele⟩ := hlive a rfl
    rw [hfresh] at hele
    cases hele
  let m₁ : Hmap := { m.setElement a ⟨key, value, ⟨none, none⟩⟩ with allocated := m.allocated + 1 }
  have h₁ : m.mallocElement a key value = .ok m₁ := by simp [Hmap.mallocElement, hfresh, m₁]
  -- new_node->next = h->first
  let m₂ := m₁.setElement a ⟨key, value, ⟨first, none⟩⟩
  have hnew₁ : m₁.elements a = some ⟨key, value, ⟨none, none⟩⟩ := Function.update_self ..
  have h₂ : m₁.setNext a first = .ok m₂ := Hmap.setNext_eq hnew₁ first
  have helements₂ : m₂.elements = Function.update m.elements a (some ⟨key, value, ⟨first, none⟩⟩) := by
    simp [m₂, m₁]
  -- h->first->pprev = &new_node->next
  have hlive₂ : ∀ old, first = some old → ∃ ele, m₂.elements old = some ele := by
    intro old hold
    obtain ⟨ele, hele⟩ := hlive old hold
    refine ⟨ele, ?_⟩
    rw [helements₂, Function.update_of_ne fun h : old = a => hne (h ▸ hold), hele]
  obtain ⟨m₃, h₃, helements₃, hhl₃, hbits₃, hhash₃, hallocated₃⟩ := rebaseFirst_eq (a := a) hlive₂
  rw [helements₂, hlist.rebase_update _ _ _ hne] at helements₃
  -- h->first = new_node
  have hlt₃ : index.toNat < m₃.hl.length := hhl₃ ▸ hlt
  let m₄ : Hmap := { m₃ with
    hl := m₃.hl.set index.toNat (some a)
    length_hl := List.length_set.trans m₃.length_hl }
  have h₄ : m₃.setFirst index (some a) = .ok m₄ := by simp [Hmap.setFirst, hlt₃, m₄]
  -- new_node->pprev = &h->first
  have hnew₄ : m₄.elements a = some ⟨key, value, ⟨first, none⟩⟩ := by
    simp only [m₄, helements₃, Function.update_self]
  have h₅ := Hmap.setPprev_eq hnew₄ (.first index.toNat)
  refine ⟨m₁, m₄.setElement a (newElement key value first index.toNat), h₁, rfl, rfl, ?_,
    ⟨hbits₃, hhash₃, ?_, ?_, hallocated₃⟩⟩
  · simp only [Hmap.link, Hmap.first_eq_ok (m := m₁) hfirst, h₂, h₃, h₄, h₅, bind, Except.bind]
    rfl
  · simp [m₄, hhl₃, m₂, m₁]
  · simp [m₄, helements₃, Links.pushFront, newElement, hlist]

variable {a index : Nat} {key value : UInt64} {first : Option Nat}

/-- Elements that are there stay there, with their keys and values. -/
theorem Inserted.map_elements (h : Inserted m a key value index first m') {γ : Type}
    {f : HmapElement → γ} (hf : ∀ ele pprev, f (hlist.setBack ele pprev) = f ele) {c : Nat}
    (hc : c ≠ a) : (m'.elements c).map f = (m.elements c).map f := by
  rw [h.elements]
  exact hlist.map_pushFront hf _ _ _ hc

theorem Inserted.element_new (h : Inserted m a key value index first m') :
    m'.elements a = some (newElement key value first index) := by
  rw [h.elements, Links.pushFront_self]

theorem mem_update_cons {c i : Nat} :
    c ∈ Function.update chains index (a :: chains index) i ↔
      c ∈ chains i ∨ (i = index ∧ c = a) := by
  by_cases hindex : i = index
  · subst hindex
    rw [Function.update_self, List.mem_cons, or_comm]
    simp only [true_and]
  · simp [hindex]

/-- The chains behind the buckets after an insertion. -/
theorem Chained.chain_inserted (h : Chained m chains)
    (hi : Inserted m a key value index first m') (hfresh : m.elements a = none)
    (hfirst : m.hl[index]? = some first) (i : Nat) (first' : Option Nat)
    (hfirst' : m'.hl[i]? = some first') :
    Chain hlist m'.elements (some (.first i)) first'
      (Function.update chains index (a :: chains index) i) := by
  have hnew := h.notMem_of_fresh hfresh
  rw [hi.hl] at hfirst'
  rw [hi.elements]
  by_cases hindex : i = index
  · subst hindex
    rw [List.getElem?_set_self (List.getElem?_eq_some_iff.mp hfirst).1] at hfirst'
    obtain rfl := Option.some.inj hfirst'
    rw [Function.update_self]
    exact (h.chain i first hfirst).pushFront (hnew i) rfl rfl
  · rw [List.getElem?_set_ne (Ne.symm hindex)] at hfirst'
    rw [Function.update_of_ne hindex]
    refine (h.chain i first' hfirst').pushFront_apart (hnew i) fun old hold hmem => ?_
    exact h.disjoint i index hindex hmem ((hold ▸ h.chain index first hfirst).head_mem)

/-- The new element is in its own bucket's chain and in no other. -/
theorem Chained.disjoint_inserted (h : Chained m chains) (hfresh : m.elements a = none)
    {i j : Nat} (hij : i ≠ j) :
    (Function.update chains index (a :: chains index) i).Disjoint
      (Function.update chains index (a :: chains index) j) := by
  have hnew := h.notMem_of_fresh hfresh
  intro c hci hcj
  obtain hci' | ⟨rfl, rfl⟩ := mem_update_cons.mp hci
  · obtain hcj' | ⟨-, rfl⟩ := mem_update_cons.mp hcj
    · exact h.disjoint i j hij hci' hcj'
    · exact hnew i hci'
  · obtain hcj' | ⟨rfl, -⟩ := mem_update_cons.mp hcj
    · exact hnew j hcj'
    · exact hij rfl

theorem Chained.covers_inserted (h : Chained m chains)
    (hi : Inserted m a key value index first m') {c : Nat} {ele : HmapElement}
    (hele : m'.elements c = some ele) :
    ∃ i, c ∈ Function.update chains index (a :: chains index) i := by
  by_cases hc : c = a
  · exact ⟨index, mem_update_cons.mpr (.inr ⟨rfl, hc⟩)⟩
  · have hsome := hi.map_elements (f := fun _ => ()) (fun _ _ => rfl) hc
    rw [hele, Option.map_some, eq_comm, Option.map_eq_some_iff] at hsome
    obtain ⟨ele', hele', -⟩ := hsome
    obtain ⟨i, hmem⟩ := h.covers c ele' hele'
    exact ⟨i, mem_update_cons.mpr (.inl hmem)⟩

theorem Chained.inserted (h : Chained m chains) (hi : Inserted m a key value index first m')
    (hfresh : m.elements a = none) (hfirst : m.hl[index]? = some first) :
    Chained m' (Function.update chains index (a :: chains index)) := by
  refine ⟨h.chain_inserted hi hfresh hfirst, fun i hnone => ?_,
    fun i j => h.disjoint_inserted hfresh, fun c ele => h.covers_inserted hi, fun i => ?_⟩
  · have hlt : index < m.hl.length := (List.getElem?_eq_some_iff.mp hfirst).1
    rw [hi.hl, List.getElem?_eq_none_iff, List.length_set] at hnone
    rw [Function.update_of_ne (by omega), h.outside i (List.getElem?_eq_none hnone)]
  · have hbound := h.bound i
    rw [hi.allocated]
    by_cases hindex : i = index
    · subst hindex
      simp only [Function.update_self, List.length_cons]
      omega
    · rw [Function.update_of_ne hindex]
      omega

/-! One call. -/

/-- What `hmap_insert` can do: leave the table alone, because the key is there or
there is no memory, or put a new element in front of the key's bucket. -/
inductive InsertTurn (mem : TextMemory) (m : Hmap) (key value : UInt64) (malloc : Option Nat) :
    Hmap → Prop
  | present {a : Nat} : hmapFind mem m key = .ok (some a) → InsertTurn mem m key value malloc m
  | noMemory : hmapFind mem m key = .ok none → malloc = none →
      InsertTurn mem m key value malloc m
  | inserted {a : Nat} {index : UInt64} {first : Option Nat} {m' : Hmap} :
      hmapFind mem m key = .ok none → malloc = some a → m.elements a = none →
      m.hashFunc mem key m.bits = .ok index → m.hl[index.toNat]? = some first →
      Inserted m a key value index.toNat first m' → InsertTurn mem m key value malloc m'

/-- An insertion whose key is hashed to a bucket and whose memory is not in use
ends in one of these. -/
theorem Chained.hmapInsert_total (h : Chained m chains) {mem : TextMemory} {index : UInt64}
    {malloc : Option Nat} (hhash : m.hashFunc mem key m.bits = .ok index)
    (hfirst : m.hl[index.toNat]? = some first)
    (hfresh : ∀ a, malloc = some a → m.elements a = none) :
    ∃ m', hmapInsert mem m key value malloc = .ok m' ∧ InsertTurn mem m key value malloc m' := by
  have hfind := h.hmapFind_eq hhash hfirst
  unfold hmapInsert
  cases hfound : (chains index.toNat).find? (m.hasKey key) with
  | some a =>
      rw [hfound] at hfind
      exact ⟨m, by simp only [hfind, bind, Except.bind], .present hfind⟩
  | none =>
      rw [hfound] at hfind
      cases malloc with
      | none => exact ⟨m, by simp only [hfind, bind, Except.bind], .noMemory hfind rfl⟩
      | some a =>
          have hlive : ∀ old, first = some old → ∃ ele, m.elements old = some ele := by
            intro old hold
            exact h.live ((hold ▸ h.chain _ first hfirst).head_mem)
          obtain ⟨m₁, m₂, h₁, hhash₁, hbits₁, h₂, hinserted⟩ :=
            link_inserted key value (hfresh a rfl) hfirst hlive
          refine ⟨m₂, ?_, .inserted hfind rfl (hfresh a rfl) hhash hfirst hinserted⟩
          simp only [hfind, h₁, hhash₁, hbits₁, hhash, h₂, bind, Except.bind]

/-- Every insertion that comes to an end is one of these turns. -/
theorem Chained.hmapInsert_turn (h : Chained m chains) {mem : TextMemory} {malloc : Option Nat}
    (hok : hmapInsert mem m key value malloc = .ok m') :
    InsertTurn mem m key value malloc m' := by
  have hall := hok
  unfold hmapInsert at hok
  obtain ⟨found, hfind, hok⟩ := bind_eq_ok.mp hok
  obtain ⟨index, first, hhash, hfirst⟩ := hmapFind_indexed hfind
  cases found with
  | some a =>
      obtain rfl := Except.ok.inj hok
      exact .present hfind
  | none =>
      have hfresh : ∀ a, malloc = some a → m.elements a = none := by
        rintro a rfl
        obtain ⟨m₁, h₁, -⟩ := bind_eq_ok.mp hok
        unfold Hmap.mallocElement at h₁
        split at h₁
        · cases h₁
        · assumption
      obtain ⟨m'', hok'', hturn⟩ : ∃ m'', hmapInsert mem m key value malloc = .ok m'' ∧
          InsertTurn mem m key value malloc m'' := h.hmapInsert_total hhash hfirst hfresh
      obtain rfl := Except.ok.inj (hall.symm.trans hok'')
      exact hturn

theorem Chained.turn (h : Chained m chains) {mem : TextMemory} {malloc : Option Nat}
    (ht : InsertTurn mem m key value malloc m') :
    ∃ chains', Chained m' chains' ∧ m'.bits = m.bits ∧ m'.hashFunc = m.hashFunc := by
  cases ht with
  | present | noMemory => exact ⟨chains, h, rfl, rfl⟩
  | inserted _ _ hfresh _ hfirst hi =>
      exact ⟨_, h.inserted hi hfresh hfirst, hi.bits, hi.hashFunc⟩

/-- A lookup leaves the table as it is. -/
theorem hmapStep_get {mem : TextMemory} (h : hmapStep m (.get mem key) = .ok m') : m' = m := by
  obtain ⟨_, _, h⟩ := bind_eq_ok.mp h
  exact (Except.ok.inj h).symm

theorem Chained.step (h : Chained m chains) {op : HmapOp} (hstep : hmapStep m op = .ok m') :
    ∃ chains', Chained m' chains' ∧ m'.bits = m.bits ∧ m'.hashFunc = m.hashFunc := by
  cases op with
  | insert mem key value malloc => exact h.turn (h.hmapInsert_turn hstep)
  | get mem key =>
      obtain rfl := hmapStep_get hstep
      exact ⟨chains, h, rfl, rfl⟩

/-- At any time a map has its chains, and the hash function it was made with. -/
theorem hmapRuns_chained {bits : UInt8} {hashFunc : HashFunc}
    (h : Automaton.Reachable (hmapRuns bits hashFunc) m) :
    ∃ chains, Chained m chains ∧ m.bits = bits ∧ m.hashFunc = hashFunc := by
  refine h.invariant (P := fun m => ∃ chains, Chained m chains ∧ m.bits = bits ∧
    m.hashFunc = hashFunc) (fun m hnew => ?_) ?_
  · have hchained := chained_new hnew
    obtain rfl := Option.some.inj hnew
    exact ⟨_, hchained, rfl, rfl⟩
  · rintro m op m' ⟨chains, hm, hbits, hhash⟩ - hstep
    obtain ⟨chains', hm', hbits', hhash'⟩ := hm.step hstep
    exact ⟨chains', hm', hbits'.trans hbits, hhash'.trans hhash⟩

end L4Server
