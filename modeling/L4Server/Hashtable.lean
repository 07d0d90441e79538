import L4Server.Library.LinkedChain
import L4Server.Library.TextMemory
import L4Server.Library.Automaton
import L4Server.Library.CMemory

/-!
The hash table of `hashtable.c` on an explicit heap of elements, with its two
hash functions. Keys and values are 64-bit words; a key may be the address of a
text, which lies in a memory of its own.
-/
namespace L4Server
open CMemory LinkedChain CText

/-- Accesses outside what is allocated: to a byte, a bucket, an element. A
`malloc` that returned an element in use does not happen. -/
inductive HmapFault
  | read (address : UInt64)
  | bucket (index : UInt64)
  | element (address : Nat)
  | fuel
  | disabled
  deriving DecidableEq, Repr

def readByte (mem : TextMemory) (p : UInt64) : Except HmapFault UInt8 :=
  match mem p with
  | some b => .ok b
  | none => .error (.read p)

def strlenLoop (mem : TextMemory) (p : UInt64) : Nat → Nat → Except HmapFault Nat
  | 0, _ => .error .fuel
  | fuel + 1, n => do
      let b ← readByte mem (p + UInt64.ofNat n)
      if b = 0 then .ok n else strlenLoop mem p fuel (n + 1)

def strlen (mem : TextMemory) (p : UInt64) : Except HmapFault Nat := strlenLoop mem p (2 ^ 64) 0

/-! MurmurHash3_x64_128. -/

def rotl64 (x r : UInt64) : UInt64 := (x <<< r) ||| (x >>> (64 - r))

def fmix64 (k : UInt64) : UInt64 :=
  let k := k ^^^ (k >>> 33)
  let k := k * 0xff51afd7ed558ccd
  let k := k ^^^ (k >>> 33)
  let k := k * 0xc4ceb9fe1a85ec53
  k ^^^ (k >>> 33)

def murmurC1 : UInt64 := 0x87c37b91114253d5
def murmurC2 : UInt64 := 0x4cf5ad432745937f

/-- Bytes `p[n-1]` down to `p[0]`, each brought to its place in a word. -/
def xorBytes (mem : TextMemory) (p : UInt64) : Nat → UInt64 → Except HmapFault UInt64
  | 0, k => .ok k
  | n + 1, k => do
      let b ← readByte mem (p + UInt64.ofNat n)
      xorBytes mem p n (k ^^^ (b.toUInt64 <<< UInt64.ofNat (8 * n)))

/-- `getblock64` on a little-endian machine. -/
def getblock64 (mem : TextMemory) (blocks : UInt64) (i : Nat) : Except HmapFault UInt64 :=
  xorBytes mem (blocks + UInt64.ofNat (8 * i)) 8 0

/-- What the body and the tail do to a word before it goes into `h1`. -/
def mixK1 (k1 : UInt64) : UInt64 := rotl64 (k1 * murmurC1) 31 * murmurC2

def mixK2 (k2 : UInt64) : UInt64 := rotl64 (k2 * murmurC2) 33 * murmurC1

/-- The turns of the body from `i` on, `n` of them. -/
def murmurBody (mem : TextMemory) (data : UInt64) :
    Nat → Nat → UInt64 × UInt64 → Except HmapFault (UInt64 × UInt64)
  | 0, _, h => .ok h
  | n + 1, i, (h1, h2) => do
      let k1 ← getblock64 mem data (i * 2)
      let k2 ← getblock64 mem data (i * 2 + 1)
      let h1 := h1 ^^^ mixK1 k1
      let h1 := (rotl64 h1 27 + h2) * 5 + 0x52dce729
      let h2 := h2 ^^^ mixK2 k2
      let h2 := (rotl64 h2 31 + h1) * 5 + 0x38495ab5
      murmurBody mem data n (i + 1) (h1, h2)

/-- The switch on `len & 15`; the cases fall through. -/
def murmurTail (mem : TextMemory) (tail : UInt64) (n : Nat) (h : UInt64 × UInt64) :
    Except HmapFault (UInt64 × UInt64) := do
  let k2 ← xorBytes mem (tail + 8) (n - 8) 0
  let k1 ← xorBytes mem tail (min n 8) 0
  return (if 0 < n then h.1 ^^^ mixK1 k1 else h.1, if 8 < n then h.2 ^^^ mixK2 k2 else h.2)

def murmurFinal (len : Int) (h : UInt64 × UInt64) : UInt64 × UInt64 :=
  let h1 := h.1 ^^^ UInt64.ofInt len
  let h2 := h.2 ^^^ UInt64.ofInt len
  let h1 := h1 + h2
  let h2 := h2 + h1
  let h1 := fmix64 h1
  let h2 := fmix64 h2
  let h1 := h1 + h2
  (h1, h2 + h1)

/-- `MurmurHash3_x64_128(key, len, seed, out)`; the `int` `len` may be negative,
and then there is no body and the tail lies in front of the key. -/
def murmurHash3X64128 (mem : TextMemory) (key : UInt64) (len : Int) (seed : UInt32) :
    Except HmapFault (UInt64 × UInt64) := do
  let nblocks := len.tdiv 16
  let h ← murmurBody mem key nblocks.toNat 0 (seed.toUInt64, seed.toUInt64)
  let h ← murmurTail mem (key + UInt64.ofInt (nblocks * 16)) (len % 16).toNat h
  return murmurFinal len h

/-! The hash functions. -/

/-- A hash function, with the memory it may read. -/
abbrev HashFunc := TextMemory → UInt64 → UInt8 → Except HmapFault UInt64

def goldenRatio64 : UInt64 := 0x61C8864680B583EB

def seedValue : UInt32 := 0x04b91209

/-- `hash_64`; the shift takes its distance modulo 64, as on x86-64. -/
def hash64 : HashFunc := fun _ key bits =>
  .ok ((key * goldenRatio64) >>> (64 - bits.toUInt64))

def murmurhashStr : HashFunc := fun mem key _ => do
  let len ← strlen mem key
  let hash ← murmurHash3X64128 mem key (toInt len) seedValue
  return hash.2

/-! The table. -/

/-- A `struct hlist_node **`: a bucket's `first`, or an element's `node.next`. -/
inductive Link
  | first (bucket : Nat)
  | next (element : Nat)
  deriving DecidableEq, Repr

/-- `pprev` is `none` until it is set. -/
structure HlistNode where
  next : Option Nat
  pprev : Option Link
  deriving DecidableEq, Repr

structure HmapElement where
  key : UInt64
  value : UInt64
  node : HlistNode
  deriving DecidableEq, Repr

/-- `struct hmap` with the elements on the heap; `allocated` counts them. The
array of heads has the length `hmap_new` gives it. -/
structure Hmap where
  bits : UInt8
  hashFunc : HashFunc
  hl : List (Option Nat)
  elements : Nat → Option HmapElement
  allocated : Nat
  length_hl : hl.length = 2 ^ bits.toNat

/-- `hmap_new`; `malloc` says whether the allocation succeeds. Up to 30 bits the `int`
shift `1 << bits` is the power of two; beyond, the source's shift is undefined. -/
def hmapNew (bits : UInt8) (hashFunc : HashFunc) (malloc : Bool) : Option Hmap :=
  if malloc then
    some {
      bits := bits
      hashFunc := hashFunc
      hl := List.replicate (2 ^ bits.toNat) none
      elements := fun _ => none
      allocated := 0
      length_hl := List.length_replicate }
  else none

def strHmapNew (bits : UInt8) (malloc : Bool) : Option Hmap := hmapNew bits hash64 malloc

def intHmapNew (bits : UInt8) (malloc : Bool) : Option Hmap := hmapNew bits murmurhashStr malloc

/-- `hl[index].first` -/
def Hmap.first (m : Hmap) (index : UInt64) : Except HmapFault (Option Nat) :=
  match m.hl[index.toNat]? with
  | some first => .ok first
  | none => .error (.bucket index)

def Hmap.element (m : Hmap) (a : Nat) : Except HmapFault HmapElement :=
  match m.elements a with
  | some ele => .ok ele
  | none => .error (.element a)

/-- The loop of `hmap_find`. -/
def Hmap.findLoop (m : Hmap) (key : UInt64) : Nat → Option Nat → Except HmapFault (Option Nat)
  | 0, _ => .error .fuel
  | _ + 1, none => .ok none
  | fuel + 1, some pnode => do
      let ele ← m.element pnode
      if ele.key = key then .ok (some pnode) else m.findLoop key fuel ele.node.next

def hmapFind (mem : TextMemory) (m : Hmap) (key : UInt64) : Except HmapFault (Option Nat) := do
  let index ← m.hashFunc mem key m.bits
  let first ← m.first index
  m.findLoop key (m.allocated + 1) first

/-- NULL is 0. -/
def hmapGet (mem : TextMemory) (m : Hmap) (key : UInt64) : Except HmapFault UInt64 := do
  match ← hmapFind mem m key with
  | none => .ok 0
  | some a => do
      let ele ← m.element a
      return ele.value

def Hmap.setElement (m : Hmap) (a : Nat) (ele : HmapElement) : Hmap :=
  { m with elements := Function.update m.elements a (some ele) }

/-- `malloc` of an element, and its key and value. -/
def Hmap.mallocElement (m : Hmap) (a : Nat) (key value : UInt64) : Except HmapFault Hmap :=
  match m.elements a with
  | some _ => .error .disabled
  | none => .ok { m.setElement a ⟨key, value, ⟨none, none⟩⟩ with allocated := m.allocated + 1 }

def Hmap.setNext (m : Hmap) (a : Nat) (next : Option Nat) : Except HmapFault Hmap := do
  let ele ← m.element a
  return m.setElement a { ele with node := { ele.node with next := next } }

def Hmap.setPprev (m : Hmap) (a : Nat) (pprev : Link) : Except HmapFault Hmap := do
  let ele ← m.element a
  return m.setElement a { ele with node := { ele.node with pprev := some pprev } }

def Hmap.setFirst (m : Hmap) (index : UInt64) (first : Option Nat) : Except HmapFault Hmap :=
  if index.toNat < m.hl.length then
    .ok { m with
      hl := m.hl.set index.toNat first
      length_hl := List.length_set.trans m.length_hl }
  else .error (.bucket index)

/-- `if (h->first) h->first->pprev = &new_node->next` -/
def Hmap.rebaseFirst (m : Hmap) (newNode : Nat) : Option Nat → Except HmapFault Hmap
  | some old => m.setPprev old (.next newNode)
  | none => .ok m

/-- The last part of `hmap_insert`: the new element becomes the first of its bucket. -/
def Hmap.link (m : Hmap) (newNode : Nat) (index : UInt64) : Except HmapFault Hmap := do
  let first ← m.first index
  let m ← m.setNext newNode first
  let m ← m.rebaseFirst newNode first
  let m ← m.setFirst index (some newNode)
  m.setPprev newNode (.first index.toNat)

/-- `hmap_insert`; `malloc` is the address of the new element, or `none`. -/
def hmapInsert (mem : TextMemory) (m : Hmap) (key value : UInt64) (malloc : Option Nat) :
    Except HmapFault Hmap := do
  match ← hmapFind mem m key with
  | some _ => .ok m
  | none =>
      match malloc with
      | none => .ok m
      | some ele => do
          let m ← m.mallocElement ele key value
          let index ← m.hashFunc mem key m.bits
          m.link ele index

/-! The release. -/

/-- The elements not freed yet, and those freed, in order. -/
structure Release where
  elements : Nat → Option HmapElement
  freed : List Nat

/-- The inner loop of `hmap_delete`: the next address is read from an element,
then the element is freed. -/
def freeLoop : Nat → Option Nat → Release → Except HmapFault Release
  | 0, _, _ => .error .fuel
  | _ + 1, none, r => .ok r
  | fuel + 1, some n, r =>
      match r.elements n with
      | none => .error (.element n)
      | some ele =>
          freeLoop fuel ele.node.next
            ⟨Function.update r.elements n none, r.freed ++ [n]⟩

/-- The outer loop over the buckets that are left. -/
def deleteLoop (fuel : Nat) : List (Option Nat) → Release → Except HmapFault Release
  | [], r => .ok r
  | h :: hl, r => do
      let r ← freeLoop fuel h r
      deleteLoop fuel hl r

def hmapDelete (m : Hmap) : Except HmapFault Release :=
  deleteLoop (m.allocated + 1) m.hl ⟨m.elements, []⟩

/-! Runs. -/

inductive HmapOp
  | insert (mem : TextMemory) (key value : UInt64) (malloc : Option Nat)
  | get (mem : TextMemory) (key : UInt64)

def hmapStep (m : Hmap) : HmapOp → Except HmapFault Hmap
  | .insert mem key value malloc => hmapInsert mem m key value malloc
  | .get mem key => do
      let _ ← hmapGet mem m key
      return m

/-- Insertions and lookups on a map `hmap_new` has made. -/
def hmapRuns (bits : UInt8) (hashFunc : HashFunc) : Automaton.Machine Hmap HmapOp HmapFault where
  start := fun m => hmapNew bits hashFunc true = some m
  step := hmapStep

end L4Server
