import Mathlib.Algebra.GroupWithZero.Nat
import Mathlib.Logic.Function.Basic
import Mathlib.Data.Fintype.Basic
import SystemsOS.Library.Except

/-! # The queue module

Generic self-ordering queues: a pool of queue nodes and a pool of queue headers,
both static arrays. A node carries a key, a data pointer and a link. Free nodes
are chained from `freeQnodes`; free headers are themselves queued, in the header
`freeQueues` points to. Loops and NULL checks follow `queue.c`, compiled with
`DEBUG` as the Makefile does.
-/

namespace SystemsOS

/-- `N_PROCS`, `N_QUEUES`, `N_STACKS`, `N_PCBS`. -/
abbrev nProcs : ℕ := 25
abbrev nQueues : ℕ := 10
abbrev nStacks : ℕ := nProcs
abbrev nPcbs : ℕ := nProcs + 1

/-- `N_QNODES`: one per PCB, stack and queue, and a fudge factor. -/
abbrev nQnodes : ℕ := nProcs + nStacks + nQueues + 3

instance : NeZero nQueues := ⟨by decide⟩

-- before the instance for a sum, so that the numerals of PCBs have one form
instance (priority := high) : NeZero nPcbs := ⟨by decide⟩

abbrev NodeId := Fin nQnodes
abbrev QueueId := Fin nQueues

inductive Fault where
  /-- `_kpanic(module, msg)`. -/
  | kpanic (module msg : String)
  /-- A NULL pointer is dereferenced. -/
  | nullDeref
  /-- A pointer to one kind of object is used as a pointer to another. -/
  | badCast
  /-- A loop that never ends. -/
  | hang
  deriving DecidableEq, Repr

/-- What a non-NULL `void *` of a queue item points to: a queue header or a client's object. -/
inductive Ptr (α : Type) where
  | queue (q : QueueId)
  | obj (a : α)
  deriving DecidableEq, Repr

abbrev VoidPtr (α : Type) := Option (Ptr α)

abbrev QueueT := Option QueueId

abbrev Compare := UInt32 → UInt32 → Int

/-- `qnode_t` -/
structure Qnode (α : Type) where
  key : UInt32
  data : VoidPtr α
  next : Option NodeId

structure Queue where
  first : Option NodeId
  last : Option NodeId
  compare : Option Compare
  size : UInt32

structure QueueModule (α : Type) where
  freeQnodes : Option NodeId
  qnodes : NodeId → Qnode α
  freeQueues : QueueT
  queues : QueueId → Queue

def compareTime : Compare := fun k1 k2 => (k1 - k2).toInt32.toInt

def Qnode.zero {α : Type} : Qnode α := ⟨0, none, none⟩

def Queue.zero : Queue := ⟨none, none, none, 0⟩

namespace QueueModule

variable {α : Type}

def zero : QueueModule α := ⟨none, fun _ => Qnode.zero, none, fun _ => Queue.zero⟩

def setNode (m : QueueModule α) (n : NodeId) (v : Qnode α) : QueueModule α :=
  { m with qnodes := Function.update m.qnodes n v }

def setQueue (m : QueueModule α) (q : QueueId) (v : Queue) : QueueModule α :=
  { m with queues := Function.update m.queues q v }

def link (m : QueueModule α) (n : NodeId) : Option NodeId := (m.qnodes n).next

def item (m : QueueModule α) (n : NodeId) : UInt32 × VoidPtr α :=
  ((m.qnodes n).key, (m.qnodes n).data)

end QueueModule

/-- The `DEBUG` check of a queue argument. -/
def nonNull (module msg : String) : QueueT → Except Fault QueueId
  | some q => .ok q
  | none => .error (.kpanic module msg)

/-- Use of a queue argument without a check. -/
def deref : QueueT → Except Fault QueueId
  | some q => .ok q
  | none => .error .nullDeref

section Operations

variable {α : Type}

/-- The argument is never NULL: callers pass an array cell or the head of a non-empty queue. -/
def qnodeDealloc (node : NodeId) (m : QueueModule α) : QueueModule α :=
  { m.setNode node { m.qnodes node with next := m.freeQnodes } with freeQnodes := some node }

def qnodeAlloc (m : QueueModule α) : Option (NodeId × QueueModule α) :=
  match m.freeQnodes with
  | none => none
  | some node =>
    let m := { m with freeQnodes := (m.qnodes node).next }
    some (node, m.setNode node { m.qnodes node with next := none })

def queueInit (queue : QueueT) (compare : Option Compare) (m : QueueModule α) :
    Except Fault (QueueModule α) := do
  let q ← nonNull "_queue_init" "NULL queue" queue
  return m.setQueue q { first := none, last := none, size := 0, compare }

def queueEmpty (queue : QueueT) (m : QueueModule α) : Except Fault Bool := do
  let q ← deref queue
  return (m.queues q).first.isNone

def queueSize (queue : QueueT) (m : QueueModule α) : Except Fault UInt32 := do
  let q ← deref queue
  return (m.queues q).size

def queueKpeek (queue : QueueT) (m : QueueModule α) : Except Fault UInt32 := do
  let q ← nonNull "_queue_kpeek" "NULL queue" queue
  match (m.queues q).first with
  | none => return 0
  | some n => return (m.qnodes n).key

def queueDpeek (queue : QueueT) (m : QueueModule α) : Except Fault (VoidPtr α) := do
  let q ← nonNull "_queue_dpeek" "NULL queue" queue
  match (m.queues q).first with
  | none => return none
  | some n => return (m.qnodes n).data

def queueRemove (queue : QueueT) (m : QueueModule α) :
    Except Fault (VoidPtr α × QueueModule α) := do
  let q ← nonNull "_queue_remove" "NULL queue" queue
  match (m.queues q).first with
  | none => return (none, m)
  | some node =>
    let first := (m.qnodes node).next
    let last := if first.isNone then none else (m.queues q).last
    let m := m.setQueue q { m.queues q with first, last, size := (m.queues q).size - 1 }
    return ((m.qnodes node).data, qnodeDealloc node m)

/--
The search loop of `_queue_insert`: `prev` and `curr` when it stops. A chain has at most
`nQnodes` nodes, so a search that has passed that many has met one twice and never stops.
-/
def insertScan (m : QueueModule α) (compare : Compare) (key : UInt32) :
    ℕ → Option NodeId → Option NodeId → Except Fault (Option NodeId × Option NodeId)
  | _, prev, none => .ok (prev, none)
  | 0, _, some _ => .error .hang
  | fuel + 1, prev, some curr =>
    if 0 ≤ compare key (m.qnodes curr).key then
      insertScan m compare key fuel (some curr) (m.qnodes curr).next
    else .ok (prev, some curr)

/-- The stores that put `node` between `prev` and `curr`. -/
def insertLink (q : QueueId) (node : NodeId) (prev curr : Option NodeId)
    (m : QueueModule α) : QueueModule α :=
  let m := m.setNode node { m.qnodes node with next := curr }
  let m := match prev with
    | none => m.setQueue q { m.queues q with first := some node }
    | some p => m.setNode p { m.qnodes p with next := some node }
  let m := match curr with
    | none => m.setQueue q { m.queues q with last := some node }
    | some _ => m
  m.setQueue q { m.queues q with size := (m.queues q).size + 1 }

/-- The part of `_queue_insert` after the node is filled in. -/
def insertNode (q : QueueId) (node : NodeId) (m : QueueModule α) :
    Except Fault (QueueModule α) := do
  if (m.queues q).first.isNone then
    return m.setQueue q { m.queues q with first := some node, last := some node, size := 1 }
  else match (m.queues q).compare with
    | none =>
      match (m.queues q).last with
      | none => .error .nullDeref
      | some last =>
        let m := m.setNode last { m.qnodes last with next := some node }
        return m.setQueue q { m.queues q with last := some node, size := (m.queues q).size + 1 }
    | some compare =>
      let key := (m.qnodes node).key
      let (prev, curr) ← insertScan m compare key nQnodes none (m.queues q).first
      return insertLink q node prev curr m

def queueInsert (queue : QueueT) (data : VoidPtr α) (key : UInt32) (m : QueueModule α) :
    Except Fault (QueueModule α) := do
  let q ← nonNull "_queue_insert" "NULL queue" queue
  match qnodeAlloc m with
  | none => .error (.kpanic "_queue_insert" "NULL qnode")
  | some (node, m) => insertNode q node (m.setNode node { m.qnodes node with data, key })

def queueDealloc (queue : QueueT) (m : QueueModule α) : Except Fault (QueueModule α) :=
  match queue with
  | none => .ok m
  | some q => queueInsert m.freeQueues (some (.queue q)) 0 (m.setQueue q Queue.zero)

def asQueue : VoidPtr α → Except Fault QueueT
  | none => .ok none
  | some (.queue q) => .ok (some q)
  | some (.obj _) => .error .badCast

/-- The queues stored in `locs[0], locs[1], …`; their number is the return value. -/
def queueAlloc : ℕ → QueueModule α → Except Fault (List QueueId × QueueModule α)
  | 0, m => .ok ([], m)
  | num + 1, m => do
    if ← queueEmpty m.freeQueues m then
      return ([], m)
    else
      let (p, m) ← queueRemove m.freeQueues m
      match ← asQueue p with
      | none => return ([], m)
      | some q =>
        let (qs, m) ← queueAlloc num m
        return (q :: qs, m)

def queueModinit (m : QueueModule α) : Except Fault (QueueModule α) := do
  let m := (List.finRange nQnodes).foldl (fun m i => qnodeDealloc i m) { m with freeQnodes := none }
  let m := { m with freeQueues := some 0 }
  let m ← queueInit m.freeQueues none m
  (List.finRange nQueues).tail.foldlM (fun m i => queueDealloc (some i) m) m

end Operations

end SystemsOS
