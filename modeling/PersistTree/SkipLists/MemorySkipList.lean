import PersistTree.SkipLists.Position

/-!
# The DRAM skip list

`Memory_SkipList` of `log_batch.h` and `.cc`. It differs from the NVM list in the node, which also
records the size of the key and the height, and in what happens to a key that is already there: the
new key is copied over the node itself instead of over its key buffer. The model follows this down
to the bytes of the node; what the copy overwrites can no longer be followed or compared.
-/
namespace PersistTree

open Library

/-- The fields of a `DramNode` in front of its link slots. `key` is the buffer that `key_` points
to, or `none` when the pointer has been overwritten. -/
structure DramNode where
  key : Option Key
  keySize : ℕ
  height : ℕ
  deriving DecidableEq, Repr

structure MemorySkipList where
  nodes : Arena DramNode
  head : ℕ
  prev : List ℕ
  prevHeight : ℕ
  kMaxHeight : ℕ
  keySize : ℕ
  maxHeight : ℕ

namespace MemorySkipList

/-- The payload of `NewNode(key, height)`; the field `height` has 16 bits. -/
def newNode (key : Key) (height : ℕ) : DramNode := ⟨some key, key.length, height % 2 ^ 16⟩

/-- The constructor. The head holds the key `" "` and `max_height` slots, of which the first
`kMaxHeight_` are set to null. -/
def new (maxHeight keySize : ℕ) : MemorySkipList :=
  let kMaxHeight := maxHeight % 2 ^ 16
  { nodes := [{ payload := newNode [32] maxHeight, slots :=
      List.replicate kMaxHeight (some none) ++ List.replicate (maxHeight - kMaxHeight) none }]
    head := 0
    prev := List.replicate kMaxHeight 0
    prevHeight := 1
    kMaxHeight := kMaxHeight
    keySize := keySize
    maxHeight := 1 }

/-- The key buffer of a node, if its pointer is intact. -/
def keyAt (s : MemorySkipList) (n : ℕ) : Option Key := s.nodes[n]?.bind fun node => node.payload.key

def keyIsAfterNode (s : MemorySkipList) (env : Env) (key : Key) (n : ℕ) : Option Bool :=
  (s.keyAt n).map fun k => decide (strncmp (k ++ env.junk n) key s.keySize < 0)

def compareKeyAndNode (s : MemorySkipList) (env : Env) (key : Key) (n : ℕ) : Except Fault ℤ := do
  let k ← deref (s.keyAt n)
  return strncmp key (k ++ env.junk n) s.keySize

/-- The common part of `FindLessThan` and `FindNextNode`: the descent from `x`. -/
def searchFrom (s : MemorySkipList) (env : Env) (key : Key) (x : ℕ) :
    Except Fault MemorySkipList := do
  let r ← deref (descend s.nodes.next (s.keyIsAfterNode env key) (s.nodes.length + 1) s.maxHeight x
    s.prev)
  return { s with prev := r.1 }

def findLessThan (s : MemorySkipList) (env : Env) (key : Key) : Except Fault MemorySkipList :=
  s.searchFrom env key s.head

def findNextNode (s : MemorySkipList) (env : Env) (key : Key) : Except Fault MemorySkipList := do
  let x ← deref s.prev[s.maxHeight - 1]?
  s.searchFrom env key x

/-- The first half of `Insert`: move the fingers to where the key belongs, and find out whether it
`is_same_node`. -/
def locate (s : MemorySkipList) (env : Env) (key : Key) : Except Fault (MemorySkipList × Bool) := do
  let p ← deref s.prev[0]?
  match ← position (s.compareKeyAndNode env key) (s.nodes.next 0) p with
  | .atEnd | .between => return (s, false)
  | .ahead => return (← s.findNextNode env key, false)
  | .behind => return (← s.findLessThan env key, false)
  | .onNext | .onFinger => return (s, true)

/-- `memcpy(n, key.c_str(), key.size())` over a node, then `n->key_size = key.size()`. In memory a
node is the pointer `key_` (8 bytes), `key_size` (8), `height` (2), padding up to byte 24, and 8
bytes for each link slot; a longer key runs past its end. -/
def overwrite (n : Node DramNode) (key : Key) : Option (Node DramNode) :=
  if 24 + 8 * n.slots.length < key.length then none
  else some {
    payload := {
      key := if key.length = 0 then n.payload.key else none
      keySize := key.length
      height := ((key[16]?.map UInt8.toNat).getD (n.payload.height % 256)) +
        256 * ((key[17]?.map UInt8.toNat).getD (n.payload.height / 256)) }
    slots := n.slots.mapIdx fun i slot => if 24 + 8 * i < key.length then none else slot }

/-- What `Insert` does with a key that is already there. -/
def overwriteFinger (s : MemorySkipList) (key : Key) : Except Fault MemorySkipList := do
  let p ← deref s.prev[0]?
  let n ← deref s.nodes[p]?
  let n' ← deref (overwrite n key)
  return { s with nodes := s.nodes.set p n' }

/-- The second half of `Insert`: raise the list's height if needed, build the node, and link it
level by level. -/
def linkNode (s : MemorySkipList) (key : Key) (height : ℕ) : Except Fault MemorySkipList := do
  let prev := raiseFingers s.head s.maxHeight (height - s.maxHeight) s.prev
  let x := s.nodes.length
  let r ← deref (spliceFrom (fun _ _ _ => ([] : List Unit)) (fun _ => []) x height 0
    (s.nodes.alloc (newNode key height) height) prev [])
  return { s with
    nodes := r.1
    prev := r.2.1
    maxHeight := max s.maxHeight height
    prevHeight := height }

def insert (s : MemorySkipList) (c : Call) : Except Fault MemorySkipList := do
  let (s, isSameNode) ← s.locate c.toEnv c.key
  if isSameNode then s.overwriteFinger c.key else s.linkNode c.key c.height

def insertAll (s : MemorySkipList) (calls : List Call) : Except Fault MemorySkipList :=
  calls.foldlM insert s

def keyOf (s : MemorySkipList) (x : ℕ) : Key := (s.keyAt x).getD []

end MemorySkipList

end PersistTree
