import PersistTree.Library.PersistentMemory
import PersistTree.SkipLists.Position

/-!
# The NVM skip list

`Persistent_SkipList` of `persistent_skip_list.h` and `.cc`, in the `CAL_ACCESS_COUNT` build of
the Makefile. A node is its key buffer, reached through `key_`, and an array of as many link slots
as `NewNode` reserved. Every store to persistent memory and every `pmem_persist` is also recorded
in `ops`, in program order, so that the memory left by a crash can be read off any prefix of it.
The finger array `prev_` lives in the same pool but nothing reads it after a crash; it is kept as
plain state.
-/
namespace PersistTree

open Library

/-- The addresses of the pool: the `key_` word of a node, its link slots, and the bytes of its key
buffer. -/
inductive PmAddr where
  | key (x : ℕ)
  | next (i x : ℕ)
  | byte (x j : ℕ)
  deriving DecidableEq, Repr

/-- The words stored there: a link, a pointer to the key buffer of a node, or a byte. -/
inductive PmWord where
  | link (p : Ptr)
  | buffer (x : ℕ)
  | byte (b : UInt8)
  deriving DecidableEq, Repr

abbrev PmOp := PersistentMemory.Op PmAddr PmWord

structure PersistentSkipList where
  nodes : Arena Key
  head : ℕ
  prev : List ℕ
  prevHeight : ℕ
  kMaxHeight : ℕ
  cntTime : ℕ
  allCnt : ℕ
  headCnt : ℕ
  suitCnt : ℕ
  optNum : ℕ
  opt1gNum : ℕ
  per1gNum : ℕ
  maxHeight : ℕ
  keySize : ℕ
  /-- The stores and persists issued so far. -/
  ops : List PmOp
  /-- The `every 1GB` lines printed so far: the window number and the `cnt_time_` reported. -/
  reports : List (ℕ × ℕ)

namespace PersistentSkipList

/-- `Node::SetNext`: the store is persisted before it returns. -/
def setNextOps (x i : ℕ) (p : Ptr) : List PmOp :=
  [.store (.next i x) (.link p), .persist [.next i x]]

/-- `pmem_persist(prev_[i], sizeof(Node*))`: the first word of a node is its `key_`. -/
def persistNodeOps (x : ℕ) : List PmOp := [.persist [.key x]]

/-- `NewNode`: the key bytes are copied and persisted by `pmem_memcpy_persist`, then the
constructor stores `key_`. -/
def newNodeOps (x : ℕ) (key : Key) : List PmOp :=
  (key.zipIdx.map fun b => .store (.byte x b.2) (.byte b.1)) ++
    [.persist ((List.range key.length).map (.byte x)), .store (.key x) (.buffer x)]

/-- The constructor. The head holds the key `" "` and `max_height` slots, of which the first
`kMaxHeight_` are set to null. -/
def new (maxHeight keySize optNum per1gNum : ℕ) : PersistentSkipList :=
  let kMaxHeight := maxHeight % 2 ^ 16
  { nodes := [{ payload := [32], slots :=
      List.replicate kMaxHeight (some none) ++ List.replicate (maxHeight - kMaxHeight) none }]
    head := 0
    prev := List.replicate kMaxHeight 0
    prevHeight := 1
    kMaxHeight := kMaxHeight
    cntTime := 0
    allCnt := 0
    headCnt := 0
    suitCnt := 0
    optNum := optNum
    opt1gNum := 0
    per1gNum := per1gNum
    maxHeight := 1
    keySize := keySize
    ops := newNodeOps 0 [32] ++ (List.range kMaxHeight).flatMap fun i => setNextOps 0 i none
    reports := [] }

def keyIsAfterNode (s : PersistentSkipList) (env : Env) (key : Key) (n : ℕ) : Option Bool :=
  s.nodes[n]?.map fun node => decide (strncmp (node.payload ++ env.junk n) key s.keySize < 0)

def compareKeyAndNode (s : PersistentSkipList) (env : Env) (key : Key) (n : ℕ) : Except Fault ℤ := do
  let node ← deref s.nodes[n]?
  return strncmp key (node.payload ++ env.junk n) s.keySize

/-- The common part of `FindLessThan` and `FindNextNode`: the descent from `x`, and after it the
window statistics. -/
def searchFrom (s : PersistentSkipList) (env : Env) (key : Key) (x : ℕ) :
    Except Fault PersistentSkipList := do
  let r ← deref (descend s.nodes.next (s.keyIsAfterNode env key) (s.nodes.length + 1) s.maxHeight x
    s.prev)
  if s.per1gNum = 0 then throw .divByZero
  let cntTime := s.cntTime + r.2
  if s.opt1gNum % s.per1gNum = 0 then
    return { s with
      prev := r.1
      reports := s.reports ++ [(s.opt1gNum / s.per1gNum, cntTime)]
      cntTime := 0 }
  else
    return { s with prev := r.1, cntTime := cntTime }

def findLessThan (s : PersistentSkipList) (env : Env) (key : Key) : Except Fault PersistentSkipList :=
  searchFrom { s with allCnt := s.allCnt + 1, headCnt := s.headCnt + 1 } env key s.head

def findNextNode (s : PersistentSkipList) (env : Env) (key : Key) :
    Except Fault PersistentSkipList := do
  let x ← deref s.prev[s.maxHeight - 1]?
  searchFrom { s with allCnt := s.allCnt + 1 } env key x

/-- The first half of `Insert`: move the fingers to where the key belongs. An equal key is reported
on the standard output and then inserted like any other. -/
def locate (s : PersistentSkipList) (env : Env) (key : Key) : Except Fault PersistentSkipList := do
  let s := { s with opt1gNum := s.opt1gNum + 1 }
  let p ← deref s.prev[0]?
  match ← position (s.compareKeyAndNode env key) (s.nodes.next 0) p with
  | .atEnd | .between => return { s with suitCnt := s.suitCnt + 1, cntTime := s.cntTime + 1 }
  | .ahead =>
    let s ← s.findNextNode env key
    return { s with cntTime := s.cntTime + 1 }
  | .onNext => return { s with cntTime := s.cntTime + 1 }
  | .behind => s.findLessThan env key
  | .onFinger => return s

/-- The second half of `Insert`: raise the list's height if needed, build the node, and link it
level by level. -/
def linkNode (s : PersistentSkipList) (key : Key) (height : ℕ) : Except Fault PersistentSkipList := do
  let prev := raiseFingers s.head s.maxHeight (height - s.maxHeight) s.prev
  let x := s.nodes.length
  let r ← deref (spliceFrom setNextOps persistNodeOps x height 0 (s.nodes.alloc key height) prev
    (s.ops ++ newNodeOps x key))
  return { s with
    nodes := r.1
    prev := r.2.1
    ops := r.2.2
    maxHeight := max s.maxHeight height
    prevHeight := height }

def insert (s : PersistentSkipList) (c : Call) : Except Fault PersistentSkipList := do
  let s ← s.locate c.toEnv c.key
  s.linkNode c.key c.height

def insertAll (s : PersistentSkipList) (calls : List Call) : Except Fault PersistentSkipList :=
  calls.foldlM insert s

def keyOf (s : PersistentSkipList) (x : ℕ) : Key := (s.nodes[x]?.map Node.payload).getD []

end PersistentSkipList

end PersistTree
