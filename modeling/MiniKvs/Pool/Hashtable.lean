import MiniKvs.Lib.Machine
import MiniKvs.Lib.OrdMap
import MiniKvs.Utils
import Mathlib.Data.Bool.Basic
import Mathlib.Data.List.Lex
import Mathlib.Data.Nat.Log
import Mathlib.Order.BoundedOrder.Basic

/-! Pages, buckets and the extendible hash table (`page.hpp`, `bucket.cpp`,
`extensible_hashtable.cpp`). Bucket ids are bit strings, `'1'` as `true`. The
hash of a page id is a parameter. -/

namespace MiniKvs

open Lib

variable {δ : Type}

/-- A page object. Its contents never change, so a `Page *` is the object with
its address. -/
structure Page (δ : Type) where
  addr : ℕ
  pageId : String
  data : δ
  deriving DecidableEq

def Page.generatePageId (sstPath : String) (offset : ℕ) : String :=
  sstPath ++ "-" ++ toString offset

structure Bucket (δ : Type) where
  pages : List (Page δ)
  localDepth : ℤ
  size : ℤ

namespace Bucket

def new (depth : ℤ) : Bucket δ := ⟨[], depth, 0⟩

def getPage (b : Bucket δ) (pageId : String) : Option (Page δ) :=
  b.pages.find? fun page => page.pageId = pageId

def insertPage (b : Bucket δ) (newPage : Page δ) : Bucket δ :=
  { b with pages := newPage :: b.pages, size := b.size + 1 }

/-- `pages.remove` compares pointers. -/
def removePage (b : Bucket δ) (pageToRemove : Page δ) : Bucket δ :=
  { b with pages := b.pages.filter fun page => page.addr ≠ pageToRemove.addr, size := b.size - 1 }

def incrementLocalDepth (b : Bucket δ) : Bucket δ := { b with localDepth := b.localDepth + 1 }

def clear (b : Bucket δ) : Bucket δ := { b with pages := [], size := 0 }

end Bucket

structure ExtendibleHashtable (δ : Type) where
  globalDepth : ℕ
  minDepth : ℕ
  maxDepth : ℕ
  bucketMaxSize : ℤ
  size : ℤ
  buckets : OrdMap (List Bool) ℕ
  /-- Bucket objects by address; `allocated` is the next free one. -/
  heap : ℕ → Bucket δ
  allocated : ℕ
  /-- Pages that were deleted. -/
  deleted : List (Page δ)

namespace ExtendibleHashtable

/-- The depths are logarithms, of sizes from one on. -/
def new (minSize maxSize : ℕ) (bucketMaxSize : ℤ) : ExtendibleHashtable δ :=
  let minDepth := Nat.log 2 minSize
  { globalDepth := minDepth
    minDepth := minDepth
    maxDepth := Nat.log 2 maxSize
    bucketMaxSize := bucketMaxSize
    size := 0
    buckets := (List.range (2 ^ minDepth)).foldl
      (fun m i => m.emplace (Utils.getBinaryFromInt (Fin.ofNat _ i) minDepth) i) .empty
    heap := fun i => .new (if i < 2 ^ minDepth then minDepth else 0)
    allocated := 2 ^ minDepth
    deleted := [] }

/-- The hash is cut to a `uint32_t` before its last bits are taken. -/
def hashFunction (xxh64 : String → UInt64) (t : ExtendibleHashtable δ) (pageId : String) :
    List Bool :=
  Utils.getBinaryFromInt (Fin.ofNat _ (xxh64 pageId).toNat) t.globalDepth

/-- `buckets.at` -/
def bucketAt (t : ExtendibleHashtable δ) (bucketId : List Bool) : Outcome ℕ :=
  match t.buckets.find bucketId with
  | none => .error .outOfRange
  | some b => .ok b

def modifyBucket (t : ExtendibleHashtable δ) (b : ℕ) (f : Bucket δ → Bucket δ) :
    ExtendibleHashtable δ :=
  { t with heap := Function.update t.heap b (f (t.heap b)) }

def expandDirectory (t : ExtendibleHashtable δ) : Bool × ExtendibleHashtable δ :=
  if t.globalDepth = t.maxDepth then (false, t)
  else (true, { t with
    globalDepth := t.globalDepth + 1
    buckets := t.buckets.toList.foldl
      (fun m x => ((m.emplace (false :: x.1) x.2).emplace (true :: x.1) x.2).erase x.1)
      t.buckets })

def getPairBucketId : List Bool → List Bool
  | [] => []
  | b :: rest => (!b) :: rest

/-- `insert` is `insertPage`, for the pages of the overflowing bucket. -/
def splitBucket (insert : ExtendibleHashtable δ → Page δ → Outcome (ExtendibleHashtable δ))
    (t : ExtendibleHashtable δ) (bucketId : List Bool) : Outcome (ExtendibleHashtable δ) := do
  let overflow ← t.bucketAt bucketId
  let t := t.modifyBucket overflow Bucket.incrementLocalDepth
  -- always take the "1" variant to replace with a new bucket
  let newId := if bucketId.length < t.globalDepth then true :: bucketId else true :: bucketId.tail
  let atNew ← t.bucketAt newId
  let atPair ← t.bucketAt (getPairBucketId newId)
  let t := if atNew = atPair then
      { t with
        buckets := t.buckets.set newId t.allocated
        heap := Function.update t.heap t.allocated (.new (t.heap overflow).localDepth)
        allocated := t.allocated + 1 }
    else t
  -- rehash all the pages in the overflowing bucket
  let pages := (t.heap overflow).pages
  let t := { t with size := t.size - (t.heap overflow).size }
  pages.foldlM insert (t.modifyBucket overflow Bucket.clear)

/-- `fuel` bounds how deep splits nest. -/
def insertPageFuel (xxh64 : String → UInt64) : ℕ → ExtendibleHashtable δ → Page δ →
    Outcome (ExtendibleHashtable δ)
  | 0, _, _ => .error .noReturn
  | fuel + 1, t, page => do
    let bucketId := t.hashFunction xxh64 page.pageId
    let bucket ← t.bucketAt bucketId
    let t := t.modifyBucket bucket (·.insertPage page)
    let t := { t with size := t.size + 1 }
    if (t.heap bucket).size > t.bucketMaxSize ∧ (t.heap bucket).localDepth < t.globalDepth then
      splitBucket (insertPageFuel xxh64 fuel) t bucketId
    else .ok t

def insertPage (xxh64 : String → UInt64) (t : ExtendibleHashtable δ) (page : Page δ) :
    Outcome (ExtendibleHashtable δ) :=
  insertPageFuel xxh64 (t.globalDepth + 1) t page

def getPage (xxh64 : String → UInt64) (t : ExtendibleHashtable δ) (pageId : String) :
    Option (Page δ) :=
  match t.buckets.find (t.hashFunction xxh64 pageId) with
  | none => none
  | some b => (t.heap b).getPage pageId

def removePage (xxh64 : String → UInt64) (t : ExtendibleHashtable δ) (pageToEvict : Page δ) :
    Outcome (ExtendibleHashtable δ) := do
  let bucket ← t.bucketAt (t.hashFunction xxh64 pageToEvict.pageId)
  let t := t.modifyBucket bucket (·.removePage pageToEvict)
  .ok { t with size := t.size - 1, deleted := pageToEvict :: t.deleted }

def getNumDirectory (t : ExtendibleHashtable δ) : ℕ := t.buckets.size

end ExtendibleHashtable

end MiniKvs
