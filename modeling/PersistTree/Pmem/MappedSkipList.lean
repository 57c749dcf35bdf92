import PersistTree.Pmem.PersistentAllocator
import PersistTree.SkipLists.Position

/-!
# The NVM skip list in its pool

`Persistent_SkipList` once more, this time as it lies in the bytes of the mapping: nodes, link
slots, key buffers and the finger array `prev_` are ranges of bytes at the addresses that
`Allocate` returns, and every `Node*` is an eight-byte word. The members of the object itself are
plain state. The loops have as much fuel as there are addresses below `cur_index_`.
-/
namespace PersistTree

open Library

structure MappedSkipList where
  allocator : PersistentAllocator
  head : ℕ
  prev : ℕ
  prevHeight : ℕ
  kMaxHeight : ℕ
  cntTime : ℕ
  allCnt : ℕ
  headCnt : ℕ
  suitCnt : ℕ
  optNum : ℕ
  opt1gNum : ℕ
  per1gNum : ℕ
  maxHeight : ℕ
  keySize : ℕ
  reports : List (ℕ × ℕ)

namespace MappedSkipList

/-- The loop of the constructor, `n` rounds of it from level `i` on. -/
def initLevels (head prev : ℕ) : ℕ → ℕ → PersistentAllocator → Except Fault PersistentAllocator
  | 0, _, a => return a
  | n + 1, i, a => do
    let a ← a.setNext head i 0
    let a ← a.store (prev + 8 * i) head
    initLevels head prev n (i + 1) a

def new (allocator : PersistentAllocator) (maxHeight keySize optNum per1gNum : ℕ) :
    Except Fault MappedSkipList := do
  let kMaxHeight := maxHeight % 2 ^ 16
  let (head, a) ← allocator.newNode [32] maxHeight
  let (prev, a) := a.allocate (8 * kMaxHeight)
  let a ← initLevels head prev kMaxHeight 0 a
  return {
    allocator := a
    head := head
    prev := prev
    prevHeight := 1
    kMaxHeight := kMaxHeight
    cntTime := 0
    allCnt := 0
    headCnt := 0
    suitCnt := 0
    optNum := optNum
    opt1gNum := 0
    per1gNum := per1gNum
    maxHeight := 1
    keySize := keySize
    reports := [] }

/-- The levels `i - 1, …, 0` of `FindLessThan` and `FindNextNode`: the node reached on a level is
stored in its finger before the search goes down. -/
def searchLevels (prev keySize : ℕ) (key : Key) :
    ℕ → ℕ → PersistentAllocator → Except Fault (PersistentAllocator × ℕ)
  | 0, _, a => return (a, 0)
  | i + 1, x, a => do
    let r ← deref (walk (a.links i) (fun n => (a.keyIsAfterNode keySize key n).toOption)
      (a.curIndex + 1) x)
    let a ← a.store (prev + 8 * i) r.1
    let s ← searchLevels prev keySize key i r.1 a
    return (s.1, r.2 + s.2)

def searchFrom (s : MappedSkipList) (key : Key) (x : ℕ) : Except Fault MappedSkipList := do
  let r ← searchLevels s.prev s.keySize key s.maxHeight x s.allocator
  if s.per1gNum = 0 then throw .divByZero
  let cntTime := s.cntTime + r.2
  if s.opt1gNum % s.per1gNum = 0 then
    return { s with
      allocator := r.1
      reports := s.reports ++ [(s.opt1gNum / s.per1gNum, cntTime)]
      cntTime := 0 }
  else
    return { s with allocator := r.1, cntTime := cntTime }

def findLessThan (s : MappedSkipList) (key : Key) : Except Fault MappedSkipList :=
  searchFrom { s with allCnt := s.allCnt + 1, headCnt := s.headCnt + 1 } key s.head

def findNextNode (s : MappedSkipList) (key : Key) : Except Fault MappedSkipList := do
  let x ← s.allocator.load (s.prev + 8 * (s.maxHeight - 1))
  searchFrom { s with allCnt := s.allCnt + 1 } key x

/-- The first half of `Insert`. -/
def locate (s : MappedSkipList) (key : Key) : Except Fault MappedSkipList := do
  let s := { s with opt1gNum := s.opt1gNum + 1 }
  let p ← s.allocator.load s.prev
  match ← position (s.allocator.compareKeyAndNode s.keySize key) (s.allocator.links 0) p with
  | .atEnd | .between => return { s with suitCnt := s.suitCnt + 1, cntTime := s.cntTime + 1 }
  | .ahead =>
    let s ← s.findNextNode key
    return { s with cntTime := s.cntTime + 1 }
  | .onNext => return { s with cntTime := s.cntTime + 1 }
  | .behind => s.findLessThan key
  | .onFinger => return s

/-- `for (i = lo; i < lo + n; i++) prev_[i] = head_`. -/
def raiseLevels (head prev : ℕ) : ℕ → ℕ → PersistentAllocator → Except Fault PersistentAllocator
  | _, 0, a => return a
  | lo, n + 1, a => do
    let a ← a.store (prev + 8 * lo) head
    raiseLevels head prev (lo + 1) n a

/-- The linking loop of `Insert` for the node at `x`, `n` rounds of it from level `i` on. The
finger is read again after the new node's own slot has been written. -/
def linkLevels (prev x : ℕ) : ℕ → ℕ → PersistentAllocator → Except Fault PersistentAllocator
  | 0, _, a => return a
  | n + 1, i, a => do
    let p ← a.load (prev + 8 * i)
    let succ ← a.next p i
    let a ← a.setNext x i succ
    let p ← a.load (prev + 8 * i)
    let a ← a.setNext p i x
    let a ← a.store (prev + 8 * i) x
    linkLevels prev x n (i + 1) a

/-- The second half of `Insert`. -/
def linkNode (s : MappedSkipList) (key : Key) (height : ℕ) : Except Fault MappedSkipList := do
  let a ← raiseLevels s.head s.prev s.maxHeight (height - s.maxHeight) s.allocator
  let (x, a) ← a.newNode key height
  let a ← linkLevels s.prev x height 0 a
  return { s with
    allocator := a
    maxHeight := max s.maxHeight height
    prevHeight := height }

/-- `Insert(key)` when `RandomHeight` returns `height`. -/
def insert (s : MappedSkipList) (key : Key) (height : ℕ) : Except Fault MappedSkipList := do
  let s ← s.locate key
  s.linkNode key height

def insertAll (s : MappedSkipList) (calls : List (Key × ℕ)) : Except Fault MappedSkipList :=
  calls.foldlM (fun s c => s.insert c.1 c.2) s

end MappedSkipList

end PersistTree
