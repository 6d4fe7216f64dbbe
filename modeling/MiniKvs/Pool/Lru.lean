import MiniKvs.Lib.DList
import MiniKvs.Lib.Machine
import MiniKvs.Lib.OrdMap
import MiniKvs.Utils
import Mathlib.Data.String.Basic

/-! The eviction policy of the buffer pool (`lru.cpp`): a doubly linked list of
page ids, most recently used first, with a map from ids to nodes. Nodes are
never freed, so an address stays valid once it is allocated. -/

namespace MiniKvs

open Lib Lib.DList

abbrev LRUNode := DList.Node String

structure LRU where
  nodeMap : OrdMap String (Option ℕ)
  front : Option ℕ
  rear : Option ℕ
  heap : DList.Heap String
  allocated : ℕ

namespace LRU

def new : LRU := ⟨.empty, none, none, fun _ => none, 0⟩

def deref (heap : DList.Heap String) : Option ℕ → Outcome LRUNode
  | none => .error .nullDereference
  | some a =>
    match heap a with
    | none => .error .nullDereference
    | some n => .ok n

/-- `p->next = q` -/
def assignNext (heap : DList.Heap String) (p q : Option ℕ) : Outcome (DList.Heap String) :=
  match p with
  | none => .error .nullDereference
  | some a => .ok (setNext heap a q)

/-- `p->prev = q` -/
def assignPrev (heap : DList.Heap String) (p q : Option ℕ) : Outcome (DList.Heap String) :=
  match p with
  | none => .error .nullDereference
  | some a => .ok (setPrev heap a q)

def insert (l : LRU) (key : String) : LRU :=
  let node := l.allocated
  let heap := Function.update l.heap node (some ⟨none, none, key⟩)
  let heap := match l.front with
    | none => heap
    | some f => setNext (setPrev heap f (some node)) node (some f)
  { nodeMap := l.nodeMap.set key (some node)
    front := some node
    rear := if l.rear = none then some node else l.rear
    heap := heap
    allocated := node + 1 }

def remove (l : LRU) (key : String) : Outcome LRU :=
  match l.nodeMap.find key with
  | none => .ok l
  | some p => do
    let node ← deref l.heap p
    let (front, heap) ← if node.prev = none then
        -- this node is at the front
        .ok (node.next, l.heap)
      else do
        let heap ← assignNext l.heap node.prev node.next
        .ok (l.front, heap)
    let node ← deref heap p
    let (rear, heap) ← if node.next = none then
        -- this node is at the rear
        .ok (node.prev, heap)
      else do
        let heap ← assignPrev heap node.next node.prev
        .ok (l.rear, heap)
    .ok { l with nodeMap := l.nodeMap.erase key, front := front, rear := rear, heap := heap }

/-- Move `key` to the front of the linked list. The back pointer of its node is
not touched. -/
def update (l : LRU) (key : String) : Outcome LRU :=
  -- `node_map[key]` creates a null entry for an absent key
  let p := (l.nodeMap.find key).getD none
  let nodeMap := l.nodeMap.emplace key none
  if p = l.front then .ok { l with nodeMap := nodeMap } else do
    let node ← deref l.heap p
    let (rear, heap) ← if node.prev = none then .ok (l.rear, l.heap) else do
      let heap ← assignNext l.heap node.prev node.next
      .ok (if p = l.rear then node.prev else l.rear, heap)
    let node ← deref heap p
    let heap ← if node.next = none then .ok heap else assignPrev heap node.next node.prev
    let heap ← assignPrev heap l.front p
    let heap ← assignNext heap p l.front
    .ok { l with nodeMap := nodeMap, front := p, rear := rear, heap := heap }

/-- Evict from the linked list and return the evicted key. -/
def evict (l : LRU) : Outcome (String × LRU) := do
  let node ← deref l.heap l.rear
  if node.prev = none then
    -- then the linked list only has one node
    .ok (node.key, { l with nodeMap := l.nodeMap.erase node.key, front := none, rear := none })
  else do
    let heap ← assignNext l.heap node.prev none
    .ok (node.key,
      { l with nodeMap := l.nodeMap.erase node.key, rear := node.prev, heap := heap })

/-! ### Calls that end -/

theorem deref_ends (heap : DList.Heap String) (p : Option ℕ) : Avoids .noReturn (deref heap p) := by
  cases p with
  | none => exact avoids_error (by decide)
  | some a =>
    rw [deref]
    split
    · exact avoids_error (by decide)
    · exact avoids_ok _

theorem assignNext_ends (heap : DList.Heap String) (p q : Option ℕ) :
    Avoids .noReturn (assignNext heap p q) := by
  cases p with
  | none => exact avoids_error (by decide)
  | some a => exact avoids_ok _

theorem assignPrev_ends (heap : DList.Heap String) (p q : Option ℕ) :
    Avoids .noReturn (assignPrev heap p q) := by
  cases p with
  | none => exact avoids_error (by decide)
  | some a => exact avoids_ok _

theorem evict_ends (l : LRU) : Avoids .noReturn l.evict := by
  refine (deref_ends _ _).bind fun node _ => ?_
  split_ifs
  · exact avoids_ok _
  · exact (assignNext_ends _ _ _).bind fun _ _ => avoids_ok _

theorem remove_ends (l : LRU) (key : String) : Avoids .noReturn (l.remove key) := by
  rw [LRU.remove]
  cases l.nodeMap.find key with
  | none => exact avoids_ok _
  | some p =>
    have htail : ∀ x : Option ℕ × DList.Heap String, Avoids .noReturn (do
        let node ← deref x.2 p
        let (rear, heap) ← if node.next = none then .ok (node.prev, x.2) else do
          let heap ← assignPrev x.2 node.next node.prev
          .ok (l.rear, heap)
        .ok { l with
          nodeMap := l.nodeMap.erase key, front := x.1, rear := rear, heap := heap }) := by
      intro x
      refine (deref_ends _ _).bind fun node _ => ?_
      split_ifs
      · exact (avoids_ok _).bind fun _ _ => avoids_ok _
      · exact (assignPrev_ends _ _ _).bind fun _ _ => (avoids_ok _).bind fun _ _ => avoids_ok _
    refine (deref_ends _ _).bind fun node _ => ?_
    split_ifs
    · exact (avoids_ok _).bind fun x _ => htail x
    · exact (assignNext_ends _ _ _).bind fun _ _ => (avoids_ok _).bind fun x _ => htail x

end LRU

end MiniKvs
