import L4Server.HashChains

/-!
The release of a table. `hmap_delete` goes through the chains of all buckets and
frees each element once: it reads no element it has freed, and leaves none.
-/
namespace L4Server
open CMemory LinkedChain

variable {m : Hmap} {chains : Nat → List Nat}

/-- One bucket: its chain is freed, and nothing else. -/
theorem freeLoop_eq {place : Option Link} {p : Option Nat} {xs : List Nat} {r : Release}
    (fuel : Nat) (h : Chain hlist r.elements place p xs) (hfuel : xs.length < fuel) :
    ∃ r', freeLoop fuel p r = .ok r' ∧ r'.freed = r.freed ++ xs ∧
      (∀ a ∈ xs, r'.elements a = none) ∧ ∀ a, a ∉ xs → r'.elements a = r.elements a := by
  induction xs generalizing place p r fuel with
  | nil =>
      obtain ⟨fuel, rfl⟩ : ∃ f, fuel = f + 1 := ⟨fuel - 1, by omega⟩
      cases h
      exact ⟨r, rfl, by simp, by simp, fun _ _ => rfl⟩
  | cons a xs ih =>
      obtain ⟨fuel, rfl⟩ : ∃ f, fuel = f + 1 := ⟨fuel - 1, by omega⟩
      simp only [List.length_cons] at hfuel
      have hnodup := List.nodup_cons.mp h.nodup
      obtain ⟨ele, hele⟩ := h.live (List.mem_cons_self ..)
      obtain rfl : p = some a := by
        cases h
        rfl
      obtain ⟨r', hok, hfreed, hgone, hkept⟩ :=
        ih (r := ⟨Function.update r.elements a none, r.freed ++ [a]⟩) fuel (h.erase hele)
          (by omega)
      refine ⟨r', ?_, by simp [hfreed], fun c hc => ?_, fun c hc => ?_⟩
      · rw [freeLoop, hele]
        exact hok
      · rcases List.mem_cons.mp hc with rfl | hc
        · rw [hkept c hnodup.1]
          exact Function.update_self ..
        · exact hgone c hc
      · rw [hkept c fun h => hc (List.mem_cons_of_mem _ h)]
        refine Function.update_of_ne ?_ _ _
        rintro rfl
        exact hc (List.mem_cons_self ..)

/-- All buckets, each with its chain, where no two share an element. -/
theorem deleteLoop_eq (fuel : Nat) (buckets : List (Option Nat × List Nat)) {r : Release}
    (h : ∀ b ∈ buckets, ∃ place, Chain hlist r.elements place b.1 b.2)
    (hapart : (buckets.map Prod.snd).Pairwise List.Disjoint)
    (hfuel : ∀ b ∈ buckets, b.2.length < fuel) :
    ∃ r', deleteLoop fuel (buckets.map Prod.fst) r = .ok r' ∧
      r'.freed = r.freed ++ (buckets.map Prod.snd).flatten ∧
      (∀ a ∈ (buckets.map Prod.snd).flatten, r'.elements a = none) ∧
      ∀ a, a ∉ (buckets.map Prod.snd).flatten → r'.elements a = r.elements a := by
  induction buckets generalizing r with
  | nil => exact ⟨r, rfl, by simp, by simp, fun _ _ => rfl⟩
  | cons b buckets ih =>
      simp only [List.map_cons, List.pairwise_cons] at hapart
      obtain ⟨place, hchain⟩ := h b (List.mem_cons_self ..)
      obtain ⟨r₁, hok₁, hfreed₁, hgone₁, hkept₁⟩ :=
        freeLoop_eq fuel hchain (hfuel b (List.mem_cons_self ..))
      -- the buckets that follow have lost nothing
      have hleft : ∀ c ∈ buckets, ∃ place, Chain hlist r₁.elements place c.1 c.2 := by
        intro c hc
        obtain ⟨place, hchain⟩ := h c (List.mem_cons_of_mem _ hc)
        refine ⟨place, hchain.congr fun a ha => hkept₁ a fun hb => ?_⟩
        exact hapart.1 c.2 (List.mem_map_of_mem hc) hb ha
      obtain ⟨r₂, hok₂, hfreed₂, hgone₂, hkept₂⟩ :=
        ih hleft hapart.2 fun c hc => hfuel c (List.mem_cons_of_mem _ hc)
      refine ⟨r₂, ?_, ?_, fun a ha => ?_, fun a ha => ?_⟩
      · rw [List.map_cons, deleteLoop, hok₁]
        exact hok₂
      · rw [hfreed₂, hfreed₁, List.map_cons, List.flatten_cons, List.append_assoc]
      · by_cases hrest : a ∈ (buckets.map Prod.snd).flatten
        · exact hgone₂ a hrest
        · rw [List.map_cons, List.flatten_cons, List.mem_append] at ha
          rw [hkept₂ a hrest]
          exact hgone₁ a (ha.resolve_right hrest)
      · rw [List.map_cons, List.flatten_cons, List.mem_append, not_or] at ha
        rw [hkept₂ a ha.2, hkept₁ a ha.1]

/-- The buckets of a table, each with its chain. -/
def Hmap.buckets (m : Hmap) (chains : Nat → List Nat) : List (Option Nat × List Nat) :=
  (List.range m.hl.length).map fun i => (m.hl[i]?.join, chains i)

theorem Hmap.buckets_fst (m : Hmap) (chains : Nat → List Nat) :
    (m.buckets chains).map Prod.fst = m.hl := by
  refine List.ext_getElem (by simp [Hmap.buckets]) fun i _ hi => ?_
  simp [Hmap.buckets, hi]

theorem Hmap.buckets_snd (m : Hmap) (chains : Nat → List Nat) :
    (m.buckets chains).map Prod.snd = (List.range m.hl.length).map chains := by
  simp [Hmap.buckets, Function.comp_def]

theorem Chained.mem_bucket (h : Chained m chains) {i a : Nat} (ha : a ∈ chains i) :
    i < m.hl.length := by
  by_contra hlt
  rw [h.outside i (List.getElem?_eq_none (by omega))] at ha
  simp at ha

/-- `hmap_delete` comes to its end, having freed every element once. -/
theorem Chained.hmapDelete_frees (h : Chained m chains) :
    ∃ r, hmapDelete m = .ok r ∧ r.freed.Nodup ∧
      (∀ a, a ∈ r.freed ↔ ∃ ele, m.elements a = some ele) ∧ ∀ a, r.elements a = none := by
  have hchain : ∀ i < m.hl.length,
      Chain hlist m.elements (some (.first i)) m.hl[i]?.join (chains i) := by
    intro i hi
    refine h.chain i _ ?_
    rw [List.getElem?_eq_getElem hi]
    rfl
  have hapart : ((List.range m.hl.length).map chains).Pairwise List.Disjoint :=
    List.pairwise_map.mpr (List.nodup_range.imp fun {i j} => h.disjoint i j)
  obtain ⟨r, hok, hfreed, hgone, hkept⟩ :=
    deleteLoop_eq (m.allocated + 1) (m.buckets chains) (r := ⟨m.elements, []⟩)
      (fun b hb => by
        obtain ⟨i, hi, rfl⟩ := List.mem_map.mp hb
        exact ⟨_, hchain i (List.mem_range.mp hi)⟩)
      (m.buckets_snd chains ▸ hapart)
      (fun b hb => by
        obtain ⟨i, -, rfl⟩ := List.mem_map.mp hb
        exact Nat.lt_succ_of_le (h.bound i))
  rw [m.buckets_fst] at hok
  rw [m.buckets_snd] at hfreed hgone hkept
  simp only [List.nil_append] at hfreed
  have hmem : ∀ a, a ∈ ((List.range m.hl.length).map chains).flatten ↔
      ∃ ele, m.elements a = some ele := by
    intro a
    simp only [List.mem_flatten, List.mem_map, List.mem_range]
    constructor
    · rintro ⟨_, ⟨i, _, rfl⟩, ha⟩
      exact h.live ha
    · rintro ⟨ele, hele⟩
      obtain ⟨i, hi⟩ := h.covers a ele hele
      exact ⟨_, ⟨i, h.mem_bucket hi, rfl⟩, hi⟩
  refine ⟨r, hok, ?_, fun a => hfreed ▸ hmem a, fun a => ?_⟩
  · rw [hfreed]
    refine List.nodup_flatten.mpr ⟨fun xs hxs => ?_, hapart⟩
    obtain ⟨i, hi, rfl⟩ := List.mem_map.mp hxs
    exact (hchain i (List.mem_range.mp hi)).nodup
  · by_cases ha : a ∈ ((List.range m.hl.length).map chains).flatten
    · exact hgone a ha
    · rw [hkept a ha]
      exact Option.eq_none_iff_forall_ne_some.mpr fun ele hele => ha ((hmem a).mpr ⟨ele, hele⟩)

/-! What can be read off a table. -/

/-- The `next` fields lead from `p` through the elements at the addresses to NULL. -/
def Hmap.Walk (m : Hmap) : Option Nat → List Nat → Prop
  | p, [] => p = none
  | p, a :: rest => p = some a ∧ ∃ ele, m.elements a = some ele ∧ m.Walk ele.node.next rest

/-- The address kept in a link. -/
def Hmap.deref (m : Hmap) : Link → Option Nat
  | .first i => m.hl[i]?.join
  | .next a => (m.elements a).bind (·.node.next)

/-- The link in front of what comes after `front` in bucket `i`. -/
def linkBehind (i : Nat) (front : List Nat) : Link :=
  match front.getLast? with
  | none => .first i
  | some a => .next a

/-- `chains i` are the elements of bucket `i`, in order. -/
structure WellFormed (m : Hmap) (chains : Nat → List Nat) : Prop where
  finite : ∀ i first, m.hl[i]? = some first → m.Walk first (chains i)
  acyclic : ∀ i, (chains i).Nodup
  disjoint : ∀ i j, i ≠ j → (chains i).Disjoint (chains j)
  linked : ∀ i front a rest, chains i = front ++ a :: rest →
    ∃ ele, m.elements a = some ele ∧ ele.node.pprev = some (linkBehind i front) ∧
      m.deref (linkBehind i front) = some a
  covered : ∀ a ele, m.elements a = some ele → ∃! i, a ∈ chains i

theorem walk_of_chain {place : Option Link} {p : Option Nat} {xs : List Nat}
    (h : Chain hlist m.elements place p xs) : m.Walk p xs := by
  induction h with
  | nil => rfl
  | cons hele _ _ ih => exact ⟨rfl, _, hele, ih⟩

theorem Chained.wellFormed (h : Chained m chains) : WellFormed m chains where
  finite i first hfirst := walk_of_chain (h.chain i first hfirst)
  acyclic i := by
    cases hfirst : m.hl[i]? with
    | none => simp [h.outside i hfirst]
    | some first => exact (h.chain i first hfirst).nodup
  disjoint := h.disjoint
  linked i front a rest hi := by
    have ha : a ∈ chains i := by simp [hi]
    have hlt := h.mem_bucket ha
    have hchain := h.chain i _ (List.getElem?_eq_getElem hlt)
    obtain ⟨ele, hele, hback⟩ := hchain.back_eq hi
    have hlink : ele.node.pprev = some (linkBehind i front) := by
      refine Eq.trans hback ?_
      unfold linkBehind
      cases front.getLast? <;> rfl
    obtain ⟨ele', hele', hderef⟩ :=
      hchain.deref_back (fun l => l.bind m.deref)
        (by simp [Hmap.deref, hlt]) (fun c ele hele => by simp [hlist, Hmap.deref, hele]) ha
    obtain rfl := Option.some.inj (hele.symm.trans hele')
    refine ⟨ele, hele, hlink, ?_⟩
    have hback' : hlist.back ele = some (linkBehind i front) := hlink
    rw [hback'] at hderef
    exact hderef
  covered a ele hele := by
    obtain ⟨i, hi⟩ := h.covers a ele hele
    refine ⟨i, hi, fun j hj => ?_⟩
    by_contra hne
    exact h.disjoint j i hne hj hi

/-- Whatever has been inserted, the chains are finite, apart and doubly linked and
hold every element once, an insertion with an index in range does not fault, and
`hmap_delete` frees every element once. -/
theorem hmapRuns_wellFormed {bits : UInt8} {hashFunc : HashFunc}
    (h : Automaton.Reachable (hmapRuns bits hashFunc) m) :
    (∃ chains, WellFormed m chains) ∧
      (∀ mem key value malloc index, hashFunc mem key bits = .ok index →
        index.toNat < 2 ^ bits.toNat → (∀ a, malloc = some a → m.elements a = none) →
        ∃ m', hmapInsert mem m key value malloc = .ok m') ∧
      ∃ r, hmapDelete m = .ok r ∧ r.freed.Nodup ∧
        (∀ a, a ∈ r.freed ↔ ∃ ele, m.elements a = some ele) ∧ ∀ a, r.elements a = none := by
  obtain ⟨chains, hchained, rfl, rfl⟩ := hmapRuns_chained h
  refine ⟨⟨chains, hchained.wellFormed⟩, ?_, hchained.hmapDelete_frees⟩
  intro mem key value malloc index hindex hlt hfresh
  rw [← m.length_hl] at hlt
  obtain ⟨m', hok, -⟩ := hchained.hmapInsert_total hindex (List.getElem?_eq_getElem hlt) hfresh
  exact ⟨m', hok⟩

/-- Three keys in two buckets. -/
theorem hmapRuns_wellFormed_three :
    ∃ m, Automaton.Reachable (hmapRuns 1 hash64) m ∧ m.allocated = 3 ∧
      (∃ chains, WellFormed m chains) ∧
      (∀ mem key value malloc index, hash64 mem key 1 = .ok index →
        index.toNat < 2 ^ (1 : UInt8).toNat → (∀ a, malloc = some a → m.elements a = none) →
        ∃ m', hmapInsert mem m key value malloc = .ok m') ∧
      ∃ r, hmapDelete m = .ok r ∧ r.freed.Nodup ∧
        (∀ a, a ∈ r.freed ↔ ∃ ele, m.elements a = some ele) ∧ ∀ a, r.elements a = none := by
  obtain ⟨m₀, hnew⟩ : ∃ m₀, hmapNew 1 hash64 true = some m₀ := ⟨_, rfl⟩
  have hview : ((hmapNew 1 hash64 true).bind fun m₀ => (Automaton.run (hmapRuns 1 hash64)
      [.insert (fun _ => none) 5 50 (some 1), .insert (fun _ => none) 6 60 (some 2),
        .insert (fun _ => none) 7 70 (some 3)] m₀).toOption.map (·.allocated)) = some 3 := by
    decide +kernel
  rw [hnew] at hview
  obtain ⟨m, hrun, hallocated⟩ := exists_of_map_toOption hview
  have hreach := Automaton.reachable_of_run (M := hmapRuns 1 hash64) hnew hrun
  exact ⟨m, hreach, hallocated, hmapRuns_wellFormed hreach⟩

end L4Server
