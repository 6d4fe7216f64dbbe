import MiniKvs.Pool.Blind
import MiniKvs.Sst.ByteFiles
import MiniKvs.Sst.Cached

/-! SST pages in memory. The pool keeps the bytes that were read from a file, and a filter
or a node is these bytes under another type. -/

namespace MiniKvs

open Lib Lib.Bytes

namespace BTreeNode

section Fetch

variable (xxh64 : XXH64) (path : String)

/-- The bytes of a page, from the pool or else from the file. -/
def fetchBytes (offset : ℕ) (read : Outcome (List UInt8)) (bufferPool : BufferPool (List UInt8)) :
    Outcome (List UInt8 × BufferPool (List UInt8)) := do
  let pageId := Page.generatePageId path offset
  let (pageData, bufferPool) ← bufferPool.get xxh64.page pageId
  match pageData with
  | some pageData => .ok (pageData, bufferPool)
  | none =>
    let pageData ← read
    let bufferPool ← bufferPool.insert xxh64.page pageId pageData
    .ok (pageData, bufferPool)

/-- Bytes taken for a node, which those of the first page are not. -/
def castNode (offset : ℕ) (pageData : List UInt8) : Outcome BTreeNode :=
  if offset = 0 then .error .badRead else .ok (.ofBytes pageData)

def readNodeBytes (sst : List UInt8) (offset : ℕ) : Outcome (List UInt8) := do
  let position ← File.position offset
  let pageData := read sst position 4092
  let _ ← castNode offset pageData
  .ok pageData

/-- Pages of the SST at `path`, through a buffer pool of bytes. -/
def byteSource (sst : List UInt8) : Source (BufferPool (List UInt8)) where
  filter bufferPool := do
    let (pageData, bufferPool) ← fetchBytes xxh64 path 0 (.ok (read sst 0 4096)) bufferPool
    .ok (.ofBytes pageData, bufferPool)
  node offset bufferPool := do
    let (pageData, bufferPool) ← fetchBytes xxh64 path offset (readNodeBytes sst offset) bufferPool
    let node ← castNode offset pageData
    .ok (node, bufferPool)

end Fetch

end BTreeNode

/-! ### Pools of bytes and pools of pages -/

/-- What the bytes of a page in memory are. -/
def PageData.In (offset : ℕ) (bytes : List UInt8) : PageData → Prop
  | .filter f => offset = 0 ∧ BloomFilter.ofBytes bytes = f
  | .node n => offset ≠ 0 ∧ BTreeNode.Same (.ofBytes bytes) n

namespace BufferPool

/-- A page is held as bytes and as what they are. -/
def Both (pageId : String) (x : List UInt8 × PageData) : Prop :=
  ∃ path offset, pageId = Page.generatePageId path offset ∧ x.2.In offset x.1

/-- Pools that hold the same pages, one of them as bytes. -/
def Matching (xxh64 : XXH64) (pool : BufferPool (List UInt8)) (pool' : BufferPool PageData) :
    Prop :=
  ∃ both, Coherent xxh64.page Both both ∧ pool = both.map Prod.fst ∧ pool' = both.map Prod.snd

theorem Both.page {path : String} {offset : ℕ} {x : List UInt8 × PageData}
    (h : Both (Page.generatePageId path offset) x) : x.2.In offset x.1 := by
  obtain ⟨path', offset', hid, hin⟩ := h
  obtain ⟨-, rfl⟩ := Page.generatePageId_inj.mp hid
  exact hin

namespace Matching

variable {xxh64 : XXH64} {pool : BufferPool (List UInt8)} {pool' : BufferPool PageData}

theorem new {minSize maxSize : ℕ} (hle : minSize ≤ maxSize) (hmax : maxSize < 2147483648) :
    Matching xxh64 (.new minSize maxSize) (.new minSize maxSize) :=
  ⟨_, .new hle hmax, rfl, rfl⟩

theorem remove (h : Matching xxh64 pool pool') (pageId : String) :
    Matches (Matching xxh64) (pool.remove xxh64.page pageId) (pool'.remove xxh64.page pageId) := by
  obtain ⟨both, hc, rfl, rfl⟩ := h
  rw [(map_remove both pageId).eq_map, (map_remove both pageId).eq_map]
  cases hr : both.remove xxh64.page pageId with
  | error e => exact .error e
  | ok both' => exact .ok ⟨both', (hc.remove hr).mono fun _ _ hb => hb.2, rfl, rfl⟩

theorem fetch (h : Matching xxh64 pool pool') {path : String} {offset : ℕ}
    {read : Outcome (List UInt8)} {read' : Outcome PageData}
    (hread : Matches (fun bytes data => data.In offset bytes) read read') :
    Matches (fun x y => y.1.In offset x.1 ∧ Matching xxh64 x.2 y.2)
      (BTreeNode.fetchBytes xxh64 path offset read pool)
      (BTreeNode.fetch xxh64 path offset read' pool') := by
  obtain ⟨both, hc, rfl, rfl⟩ := h
  rw [BTreeNode.fetchBytes, BTreeNode.fetch, (map_get both _).eq_map, (map_get both _).eq_map]
  cases hg : both.get xxh64.page (Page.generatePageId path offset) with
  | error e => exact .error e
  | ok x =>
    obtain ⟨found, both₁⟩ := x
    obtain ⟨hc₁, hfound⟩ := hc.get hg
    cases found with
    | some x => exact .ok ⟨(hfound x rfl).page, both₁, hc₁, rfl, rfl⟩
    | none =>
      refine hread.bind fun bytes data _ _ hin => ?_
      have hbytes : (both₁.map Prod.fst).insert xxh64.page (Page.generatePageId path offset) bytes =
          (both₁.insert xxh64.page (Page.generatePageId path offset) (bytes, data)).map (map _) :=
        (map_insert both₁ _ (bytes, data)).eq_map
      have hdata : (both₁.map Prod.snd).insert xxh64.page (Page.generatePageId path offset) data =
          (both₁.insert xxh64.page (Page.generatePageId path offset) (bytes, data)).map (map _) :=
        (map_insert both₁ _ (bytes, data)).eq_map
      simp only [hbytes, hdata]
      cases hi : both₁.insert xxh64.page (Page.generatePageId path offset) (bytes, data) with
      | error e => exact .error e
      | ok both₂ =>
        exact .ok ⟨hin, both₂, hc.insert hg ⟨path, offset, rfl, hin⟩ hi, rfl, rfl⟩

end Matching

end BufferPool

namespace BTreeNode

variable {bytes : List UInt8} {file : File}

open BufferPool

theorem readNodeBytes_matches (h : Represents bytes file) (hf : file.FilterFirst) (offset : ℕ) :
    Matches (fun bytes data => data.In offset bytes) (readNodeBytes bytes offset)
      ((file.readNode offset).map PageData.node) := by
  rcases Nat.eq_zero_or_pos offset with rfl | hpos
  · obtain ⟨f, hfilter⟩ := hf.filter
    rw [File.readNode, hfilter]
    exact .error _
  · obtain ⟨node, hsame, hread⟩ := h.node_at hf hpos
    rw [hread, readNodeBytes]
    cases hp : File.position offset with
    | error e => exact .error e
    | ok position =>
      obtain ⟨-, rfl⟩ := File.position_eq_ok.mp hp
      simp only [ok_bind, castNode, if_neg hpos.ne']
      exact .ok ⟨hpos.ne', hsame⟩

theorem byteSource_filtersMatch (xxh64 : XXH64) (path : String) (h : Represents bytes file)
    (hf : file.FilterFirst) :
    FiltersMatch (Matching xxh64) (byteSource xxh64 path bytes) (poolSource xxh64 path file) := by
  intro pool pool' hm
  obtain ⟨f, hfilter⟩ := hf.filter
  have hread : Matches (fun bytes data => data.In 0 bytes) (.ok (read bytes 0 4096))
      (file.readFilter.map PageData.filter) := by
    rw [File.readFilter, hfilter]
    exact .ok ⟨rfl, h.written 0 _ hfilter⟩
  refine (hm.fetch hread).bind ?_
  rintro ⟨pageData, pool₁⟩ ⟨data, pool₁'⟩ - - ⟨hin, hm₁⟩
  cases data with
  | filter g => exact .ok ⟨hin.2, hm₁⟩
  | node n => exact absurd rfl hin.1

theorem byteSource_nodesMatch (xxh64 : XXH64) (path : String) (h : Represents bytes file)
    (hf : file.FilterFirst) :
    NodesMatch (Matching xxh64) (byteSource xxh64 path bytes) (poolSource xxh64 path file) := by
  intro offset pool pool' hm
  refine (hm.fetch (readNodeBytes_matches h hf offset)).bind ?_
  rintro ⟨pageData, pool₁⟩ ⟨data, pool₁'⟩ - - ⟨hin, hm₁⟩
  cases data with
  | filter g =>
    obtain ⟨rfl, -⟩ := hin
    exact .error _
  | node n =>
    obtain ⟨hne, hsame⟩ := hin
    simp only [castNode, if_neg hne]
    exact .ok ⟨hsame, hm₁⟩

end BTreeNode

end MiniKvs
