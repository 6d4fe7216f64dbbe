import MiniKvs.Lib.Matches
import MiniKvs.Sst.Bytes
import MiniKvs.Sst.Compaction
import MiniKvs.Sst.Pages
import MiniKvs.Sst.Search

/-! SST files as bytes. The builders write pages at their positions and readers take the
bytes of a page for a node; a page file says what the bytes of a file mean. -/

namespace MiniKvs

open Lib Lib.Bytes

/-! ### Writing pages -/

namespace PageData

def toBytes (before : ℕ → UInt8) : PageData → List UInt8
  | .filter f => f.toBytes before
  | .node n => n.toBytes

def Fits : PageData → Prop
  | .filter f => f.Fits
  | .node n => n.Fits

/-- The bytes from a position on are this page. -/
def At (file : List UInt8) (pos : ℕ) : PageData → Prop
  | .filter f => BloomFilter.ofBytes (read file pos 4096) = f
  | .node n => BTreeNode.Same (.ofBytes (read file pos 4092)) n

theorem length_toBytes (before : ℕ → UInt8) (data : PageData) :
    (data.toBytes before).length = data.bytes := by
  cases data with
  | filter f => exact f.length_toBytes before
  | node n => exact n.length_toBytes

theorem bytes_le (data : PageData) : data.bytes ≤ 4096 := by
  cases data with
  | filter f => exact le_rfl
  | node n => exact (by decide : 4092 ≤ 4096)

theorem At.congr {file file' : List UInt8} {pos : ℕ} {data : PageData} (h : data.At file pos)
    (hread : read file' pos data.bytes = read file pos data.bytes) : data.At file' pos := by
  cases data with
  | filter f => exact (congrArg BloomFilter.ofBytes hread).trans h
  | node n =>
    show BTreeNode.Same (.ofBytes (read file' pos 4092)) n
    rw [show read file' pos 4092 = read file pos 4092 from hread]
    exact h

theorem Fits.at_write {data : PageData} (h : data.Fits) (before : ℕ → UInt8)
    (file : List UInt8) (pos : ℕ) : data.At (write file pos (data.toBytes before)) pos := by
  have hself : read (write file pos (data.toBytes before)) pos data.bytes =
      data.toBytes before := by
    rw [← length_toBytes before data, read_write_self]
  cases data with
  | filter f =>
    exact (congrArg BloomFilter.ofBytes hself).trans (BloomFilter.ofBytes_toBytes before h)
  | node n =>
    show BTreeNode.Same (.ofBytes (read _ pos 4092)) n
    rw [show read _ pos 4092 = _ from hself]
    exact BTreeNode.ofBytes_toBytes h

end PageData

/-- `seekp` and `write` -/
def writePage (before : ℕ → UInt8) (file : List UInt8) (offset : ℕ) (data : PageData) :
    Outcome (List UInt8) := do
  let position ← File.position offset
  .ok (write file position (data.toBytes before))

/-- What the bytes of a file mean, page by page. -/
structure Represents (bytes : List UInt8) (file : File) : Prop where
  length : bytes.length = file.size
  written : ∀ o data, file.page o = some data → data.At bytes (4096 * o)
  inside : ∀ o data, file.page o = some data → 4096 * o + data.bytes ≤ file.size
  unwritten : ∀ o, file.page o = none → ∀ i < 4096, bytes.getD (4096 * o + i) 0 = 0

theorem represents_empty : Represents [] File.empty :=
  ⟨rfl, fun _ _ h => (by cases h), fun _ _ h => (by cases h), fun _ _ _ _ => rfl⟩

theorem Represents.put {bytes : List UInt8} {file : File} {offset : ℕ} {data : PageData}
    (h : Represents bytes file) (hfit : data.Fits) (before : ℕ → UInt8) :
    Represents (write bytes (4096 * offset) (data.toBytes before)) (file.put offset data) := by
  have hlen := data.length_toBytes before
  have hle := data.bytes_le
  refine ⟨?_, fun o data' ho => ?_, fun o data' ho => ?_, fun o ho i hi => ?_⟩
  · rw [length_write, hlen, h.length]
    rfl
  · by_cases he : o = offset
    · subst he
      rw [File.put_page_self, Option.some.injEq] at ho
      exact ho ▸ hfit.at_write before bytes _
    · rw [File.put_page_of_ne _ _ he] at ho
      have hle' := data'.bytes_le
      exact (h.written o data' ho).congr (read_write_of_disjoint (by omega))
  · rw [File.put_size]
    by_cases he : o = offset
    · subst he
      rw [File.put_page_self, Option.some.injEq] at ho
      exact ho ▸ le_max_right ..
    · rw [File.put_page_of_ne _ _ he] at ho
      exact (h.inside o data' ho).trans (le_max_left ..)
  · by_cases he : o = offset
    · subst he
      rw [File.put_page_self] at ho
      cases ho
    · rw [File.put_page_of_ne _ _ he] at ho
      rw [getD_write, if_neg (by omega)]
      exact h.unwritten o ho i hi

theorem Represents.write {bytes : List UInt8} {file : File} {offset : ℕ} {data : PageData}
    (h : Represents bytes file) (hfit : offset < 524288 → data.Fits) (before : ℕ → UInt8) :
    Matches Represents (writePage before bytes offset data) (file.write offset data) := by
  rcases Nat.lt_or_ge offset 524288 with hlt | hge
  · rw [writePage, File.position_eq_ok.mpr ⟨hlt, rfl⟩, File.write_of_lt file data hlt]
    exact .ok (h.put (hfit hlt) before)
  · have hpos : File.position offset = .error .intOverflow := by
      rw [File.position, if_neg (by rw [Utils.pageSize]; omega)]
    rw [writePage, hpos, File.write_of_ge file data hge]
    exact .error _

/-! ### Reading pages -/

/-- The pages that readers find in the bytes: the filter in front, unless the file is
empty, and nodes. -/
def fileOf (bytes : List UInt8) : File where
  page offset :=
    if offset ≠ 0 then some (.node (.ofBytes (read bytes (4096 * offset) 4092)))
    else if bytes = [] then none else some (.filter (.ofBytes (read bytes 0 4096)))
  size := bytes.length

theorem fileOf_node {bytes : List UInt8} {o : ℕ} (ho : 0 < o) :
    (fileOf bytes).page o = some (.node (.ofBytes (read bytes (4096 * o) 4092))) := if_pos ho.ne'

namespace File

/-- Readers find the same nodes in both files. -/
def NodesAgree (file file' : File) : Prop :=
  ∀ o, Matches BTreeNode.Same (file.readNode o) (file'.readNode o)

/-- Readers find the same in both files. -/
structure Agrees (file file' : File) : Prop where
  numPages : file.numPages = file'.numPages
  readFilter : file.readFilter = file'.readFilter
  readNode : file.NodesAgree file'

/-- The filter is in page 0 and nowhere else. -/
structure FilterFirst (file : File) : Prop where
  filter : ∃ f, file.page 0 = some (.filter f)
  node : ∀ o f, 0 < o → file.page o ≠ some (.filter f)

end File

namespace BTreeNode

theorem new_fits : new.Fits := ⟨Nat.zero_le _, by norm_num [new], by norm_num [new],
  by norm_num [new], by norm_num [new]⟩

/-- A node of zeros is a new one. -/
theorem ofBytes_zeros : Same (ofBytes (List.replicate 4092 0)) new := by
  have hzeros : ∀ n ∈ new.memory, n = 0 := by
    intro n hn
    rw [memory, List.mem_cons, List.mem_append, mem_pairs] at hn
    simp only [List.mem_cons, List.not_mem_nil, or_false] at hn
    rcases hn with rfl | ⟨i, -, rfl | rfl⟩ | rfl | rfl | rfl | rfl <;> rfl
  have hbytes := ofBytes_toBytes new_fits
  rwa [toBytes, words_zeros hzeros, length_memory] at hbytes

end BTreeNode

namespace Represents

variable {bytes : List UInt8} {file : File} {o : ℕ}

theorem filter_eq (h : Represents bytes file) {f : BloomFilter}
    (hf : file.page 0 = some (.filter f)) : (fileOf bytes).page 0 = some (.filter f) := by
  have hat : BloomFilter.ofBytes (read bytes 0 4096) = f := h.written 0 _ hf
  have hne : bytes ≠ [] := by
    rintro rfl
    have hin : 4096 ≤ file.size := h.inside 0 _ hf
    rw [← h.length] at hin
    exact absurd hin (by decide)
  rw [← hat]
  exact if_neg hne

/-- The bytes at the place of a node are that node, zeros if none was written there. -/
theorem node_at (h : Represents bytes file) (hf : file.FilterFirst) (ho : 0 < o) :
    ∃ node, BTreeNode.Same (.ofBytes (read bytes (4096 * o) 4092)) node ∧
      file.readNode o = (File.position o).map fun _ => node := by
  rw [File.readNode]
  cases hp : file.page o with
  | none =>
    have hzero : read bytes (4096 * o) 4092 = List.replicate 4092 0 :=
      read_eq_replicate fun i hi => h.unwritten o hp i (hi.trans (by norm_num))
    exact ⟨.new, hzero ▸ BTreeNode.ofBytes_zeros, rfl⟩
  | some data =>
    cases data with
    | filter g => exact absurd hp (hf.node o g ho)
    | node n => exact ⟨n, h.written o _ hp, rfl⟩

theorem agrees (h : Represents bytes file) (hf : file.FilterFirst) :
    (fileOf bytes).Agrees file := by
  obtain ⟨f, hfilter⟩ := hf.filter
  refine ⟨?_, ?_, fun o => ?_⟩
  · rw [File.numPages, File.numPages, fileOf, h.length]
  · rw [File.readFilter, File.readFilter, h.filter_eq hfilter, hfilter]
  · rcases Nat.eq_zero_or_pos o with rfl | hpos
    · rw [File.readNode, File.readNode, h.filter_eq hfilter, hfilter]
      exact (Matches.of_eq rfl).bind fun _ _ _ _ _ => .error _
    · obtain ⟨node, hsame, hread⟩ := h.node_at hf hpos
      rw [hread, File.readNode, fileOf_node hpos]
      exact (Matches.of_eq rfl).bind fun _ _ _ _ _ => .ok hsame

/-- A file that was only opened. -/
theorem agrees_empty : (fileOf []).Agrees .empty := by
  refine ⟨rfl, rfl, fun o => (Matches.of_eq rfl).bind fun _ _ _ _ _ => ?_⟩
  rcases Nat.eq_zero_or_pos o with rfl | hpos
  · exact .ok (.refl _)
  · have hzero : read [] (4096 * o) 4092 = List.replicate 4092 0 :=
      read_eq_replicate fun _ _ => rfl
    rw [fileOf_node hpos, hzero]
    exact .ok BTreeNode.ofBytes_zeros

end Represents

/-! ### Readers see no difference -/

namespace BTreeNode

section Same

variable {node node' : BTreeNode}

theorem Same.findValue (h : Same node node') (key : Uint32) :
    node.findValue key = node'.findValue key := by
  simp only [BTreeNode.findValue, h.entry, h.numKeys]

theorem Same.findChild (h : Same node node') (key : Uint32) :
    node.findChild key = node'.findChild key := by
  simp only [BTreeNode.findChild, h.entry, h.numKeys]

theorem Same.map_entry (h : Same node node') :
    (List.range node.numKeys).map node.entry = (List.range node'.numKeys).map node'.entry := by
  simp only [h.numKeys, funext h.entry]

theorem Same.keys (h : Same node node') : node.keys = node'.keys := by
  simp only [BTreeNode.keys, h.numKeys, h.entry]

theorem Same.summary (h : Same node node') : node.summary = node'.summary := by
  simp only [BTreeNode.summary, lastKey, h.numKeys, h.entry, h.fileOffset]

theorem Same.toBytes (h : Same node node') : node.toBytes = node'.toBytes := by
  simp only [BTreeNode.toBytes, memory, h.numKeys, h.entry, h.isLeaf, h.fileOffset,
    h.totalNumberOfNodes, h.numOfLeafNodes]

theorem Same.place (h : Same node node') (offset : ℕ) :
    Same { node with fileOffset := offset } { node' with fileOffset := offset } :=
  { h with fileOffset := rfl, entry := h.entry }

end Same

section Sources

variable {σ τ : Type} {R : σ → τ → Prop} {source : Source σ} {source' : Source τ} {s : σ} {t : τ}

/-- Two sources that hand out the same nodes, while their states stay related. -/
def NodesMatch (R : σ → τ → Prop) (source : Source σ) (source' : Source τ) : Prop :=
  ∀ offset s t, R s t → Matches (fun x y => Same x.1 y.1 ∧ R x.2 y.2)
    (source.node offset s) (source'.node offset t)

/-- The same filters too. -/
def FiltersMatch (R : σ → τ → Prop) (source : Source σ) (source' : Source τ) : Prop :=
  ∀ s t, R s t → Matches (fun x y => x.1 = y.1 ∧ R x.2 y.2) (source.filter s) (source'.filter t)

theorem NodesMatch.searchNode (h : NodesMatch R source source') (key : Uint32) (fuel offset : ℕ)
    (hst : R s t) : Matches (fun x y => x.1 = y.1 ∧ R x.2 y.2)
      (searchNode source key fuel offset s) (searchNode source' key fuel offset t) := by
  induction fuel generalizing offset s t with
  | zero => exact .error _
  | succ fuel ih =>
    refine (h offset s t hst).bind ?_
    rintro ⟨node, s'⟩ ⟨node', t'⟩ - - ⟨hs, hst' : R s' t'⟩
    have hs : Same node node' := hs
    simp only [hs.numKeys, hs.isLeaf, hs.findValue, hs.findChild]
    split_ifs
    · exact .ok ⟨rfl, hst'⟩
    · exact .ok ⟨rfl, hst'⟩
    · cases node'.findChild key with
      | none => exact .ok ⟨rfl, hst'⟩
      | some offset => exact ih offset hst'

theorem NodesMatch.search (h : NodesMatch R source source') (hf : FiltersMatch R source source')
    (xxh64 : XXH64) (key : Uint32) (fuel : ℕ) (hst : R s t) :
    Matches (fun x y => x.1 = y.1 ∧ R x.2 y.2) (search source xxh64 key fuel s)
      (search source' xxh64 key fuel t) := by
  refine (hf s t hst).bind ?_
  rintro ⟨filter, s'⟩ ⟨filter', t'⟩ - - ⟨hfilter : filter = filter', hst' : R s' t'⟩
  subst hfilter
  simp only
  split_ifs
  · exact h.searchNode key fuel 1 hst'
  · exact .ok ⟨rfl, hst'⟩

/-- Both descents end at the same leaf, or at none. -/
def SameFound (x y : Option (ℕ × BTreeNode)) : Prop :=
  Option.Rel (fun a b => a.1 = b.1 ∧ Same a.2 b.2) x y

theorem NodesMatch.descend (h : NodesMatch R source source') (startKey : Uint32)
    (fuel offset : ℕ) (hst : R s t) : Matches (fun x y => SameFound x.1 y.1 ∧ R x.2 y.2)
      (descend source startKey fuel offset s) (descend source' startKey fuel offset t) := by
  induction fuel generalizing offset s t with
  | zero => exact .error _
  | succ fuel ih =>
    refine (h offset s t hst).bind ?_
    rintro ⟨node, s'⟩ ⟨node', t'⟩ - - ⟨hs, hst' : R s' t'⟩
    have hs : Same node node' := hs
    simp only [hs.isLeaf, hs.findChild]
    split_ifs
    · exact .ok ⟨.some ⟨rfl, hs⟩, hst'⟩
    · cases node'.findChild startKey with
      | none => exact .ok ⟨.none, hst'⟩
      | some offset => exact ih offset hst'

theorem NodesMatch.scanLeaves (h : NodesMatch R source source') (startKey endKey : Uint32)
    (fuel : ℕ) {offset : ℕ} {node node' : BTreeNode} (hs : Same node node')
    (result : List Entry) (hst : R s t) : Matches (fun x y => x.1 = y.1 ∧ R x.2 y.2)
      (scanLeaves source startKey endKey fuel offset node result s)
      (scanLeaves source' startKey endKey fuel offset node' result t) := by
  induction fuel generalizing offset node node' result s t with
  | zero => exact .error _
  | succ fuel ih =>
    rw [BTreeNode.scanLeaves, BTreeNode.scanLeaves, hs.isLeaf, hs.map_entry]
    split_ifs
    · obtain ⟨found, stop⟩ :=
        scanEntries startKey endKey ((List.range node'.numKeys).map node'.entry)
      cases stop with
      | true => exact .ok ⟨rfl, hst⟩
      | false =>
        exact (h (offset - 1) s t hst).bind fun x y _ _ hxy => ih hxy.1 (result ++ found) hxy.2
    · exact .ok ⟨rfl, hst⟩

theorem NodesMatch.scanFrom (h : NodesMatch R source source') (startKey endKey : Uint32)
    (fuel : ℕ) (hst : R s t) : Matches (fun x y => x.1 = y.1 ∧ R x.2 y.2)
      (scanFrom source startKey endKey fuel s) (scanFrom source' startKey endKey fuel t) := by
  refine (h.descend startKey fuel 1 hst).bind ?_
  rintro ⟨found, s'⟩ ⟨found', t'⟩ - - ⟨hfound, hst' : R s' t'⟩
  cases (hfound : SameFound found found') with
  | none => exact .ok ⟨rfl, hst'⟩
  | @some a b hab =>
    obtain ⟨o, n⟩ := a
    obtain ⟨o', n'⟩ := b
    obtain ⟨rfl : o = o', hs⟩ := hab
    exact h.scanLeaves startKey endKey fuel hs [] hst'

end Sources

section Readers

variable {file file' : File}

theorem fileSource_nodesMatch (h : file.NodesAgree file') :
    NodesMatch (fun _ _ => True) (fileSource file) (fileSource file') :=
  fun offset _ _ _ => (h offset).map fun _ _ hs => ⟨hs, trivial⟩

theorem fileSource_filtersMatch (h : file.Agrees file') :
    FiltersMatch (fun _ _ => True) (fileSource file) (fileSource file') :=
  fun _ _ _ => (Matches.of_eq h.readFilter).map fun _ _ hf => ⟨hf, trivial⟩

theorem eq_of_matches {α : Type} {x y : Outcome (α × Unit)}
    (h : Matches (fun a b => a.1 = b.1 ∧ True) x y) : x = y :=
  (h.imp fun _ _ hab => Prod.ext hab.1 rfl).eq

theorem searchNode_agrees (h : file.NodesAgree file') (key : Uint32) (fuel offset : ℕ) :
    searchNode (fileSource file) key fuel offset () =
      searchNode (fileSource file') key fuel offset () :=
  eq_of_matches ((fileSource_nodesMatch h).searchNode key fuel offset trivial)

theorem search_agrees (h : file.Agrees file') (xxh64 : XXH64) (key : Uint32) (fuel : ℕ) :
    search (fileSource file) xxh64 key fuel () = search (fileSource file') xxh64 key fuel () :=
  eq_of_matches ((fileSource_nodesMatch h.readNode).search (fileSource_filtersMatch h) xxh64 key
    fuel trivial)

theorem scanFrom_agrees (h : file.NodesAgree file') (startKey endKey : Uint32) (fuel : ℕ) :
    scanFrom (fileSource file) startKey endKey fuel () =
      scanFrom (fileSource file') startKey endKey fuel () :=
  eq_of_matches ((fileSource_nodesMatch h).scanFrom startKey endKey fuel trivial)

/-! ### The cursors of a merge -/

/-- Cursors at the same place of files that agree. -/
structure Cursor.Same (c c' : Cursor) : Prop where
  sst : c.sst.Agrees c'.sst
  offset : c.offset = c'.offset
  minOffset : c.minOffset = c'.minOffset
  node : BTreeNode.Same c.node c'.node
  index : c.index = c'.index

theorem Cursor.start_agrees (h : file.Agrees file') :
    Matches Cursor.Same (Cursor.start file) (Cursor.start file') := by
  refine (h.readNode 1).bind fun root root' _ _ hroot => ?_
  rw [hroot.totalNumberOfNodes]
  refine (h.readNode _).bind fun node node' _ _ hnode => ?_
  exact .ok ⟨h, rfl, congrArg (root'.totalNumberOfNodes - · + 1) hroot.numOfLeafNodes, hnode, rfl⟩

theorem Cursor.Same.exhausted {c c' : Cursor} (h : Cursor.Same c c') :
    c.exhausted = c'.exhausted := by
  rw [Cursor.exhausted, Cursor.exhausted, h.index, h.node.numKeys]

theorem Cursor.Same.entry {c c' : Cursor} (h : Cursor.Same c c') : c.entry = c'.entry := by
  rw [Cursor.entry, Cursor.entry, h.exhausted, h.index, h.node.entry]

theorem Cursor.Same.advance {c c' : Cursor} (h : Cursor.Same c c') (taken : Bool) :
    Matches Cursor.Same (c.advance taken) (c'.advance taken) := by
  have hstep : ∀ {c c' : Cursor}, Cursor.Same c c' → Matches Cursor.Same
      (if c.exhausted ∧ c.offset > c.minOffset then do
        let node ← c.sst.readNode (c.offset - 1)
        .ok { c with offset := c.offset - 1, node := node, index := 0 }
      else .ok c)
      (if c'.exhausted ∧ c'.offset > c'.minOffset then do
        let node ← c'.sst.readNode (c'.offset - 1)
        .ok { c' with offset := c'.offset - 1, node := node, index := 0 }
      else .ok c') := by
    intro c c' h
    rw [h.exhausted, h.offset, h.minOffset]
    split_ifs
    · exact (h.sst.readNode _).bind fun node node' _ _ hn => .ok ⟨h.sst, rfl, rfl, hn, rfl⟩
    · exact .ok h
  cases taken with
  | true => exact hstep ⟨h.sst, h.offset, h.minOffset, h.node, congrArg (· + 1) h.index⟩
  | false => exact hstep h

theorem mergeLeaves_agrees {isLastLevel : Bool} (fuel : ℕ) {old old' new new' : Cursor}
    (ho : Cursor.Same old old') (hn : Cursor.Same new new') (output : List Entry)
    (temp : List BTreeNode) : mergeLeaves isLastLevel fuel old new output temp =
      mergeLeaves isLastLevel fuel old' new' output temp := by
  induction fuel generalizing old old' new new' output temp with
  | zero => rfl
  | succ fuel ih =>
    rw [mergeLeaves, mergeLeaves, ho.entry, hn.entry]
    obtain ⟨slot, takeOld, takeNew⟩ := mergeEntry isLastLevel old'.entry new'.entry
    refine ((ho.advance takeOld).bind fun old₁ old₁' _ _ ho₁ => (hn.advance takeNew).bind
      fun new₁ new₁' _ _ hn₁ => .of_eq ?_).eq
    simp only [ho₁.exhausted, hn₁.exhausted, ih ho₁ hn₁]

theorem mergeFuel_agrees (h : file.Agrees file') : mergeFuel file = mergeFuel file' := by
  have hroot := h.readNode 1
  rw [mergeFuel, mergeFuel]
  generalize file.readNode 1 = x at hroot ⊢
  generalize file'.readNode 1 = y at hroot ⊢
  cases hroot with
  | ok hs => exact congrArg (maxKeys * ·) hs.numOfLeafNodes
  | error e => rfl

theorem mergedLeaves_agrees {old old' new new' : File} (ho : old.Agrees old')
    (hn : new.Agrees new') (isLastLevel : Bool) :
    mergedLeaves isLastLevel old new = mergedLeaves isLastLevel old' new' := by
  rw [mergedLeaves, mergedLeaves, mergeFuel_agrees ho, mergeFuel_agrees hn]
  exact ((Cursor.start_agrees ho).bind fun c c' _ _ hc => (Cursor.start_agrees hn).bind
    fun d d' _ _ hd => .of_eq (mergeLeaves_agrees _ hc hd [] [])).eq

end Readers

end BTreeNode

end MiniKvs
