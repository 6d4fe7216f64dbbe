import MiniKvs.Sst.ByteFiles

/-! SST files of bytes. A flush and a merge write the bytes page by page, and what they
write represents the page file that the builders make. Whole runs over byte files do
what they do over page files. -/

namespace MiniKvs

open Lib Lib.Bytes

namespace BTreeNode

/-! ### The builders, over bytes -/

section Bytes

variable (xxh64 : XXH64) (before : ℕ → UInt8)

/-- `before` is what the memory of the filter held before the filter was made. -/
def constructBytes (leafNodes : List BTreeNode) : Outcome (List UInt8) :=
  writeFlush (writePage before) [] xxh64 leafNodes

/-- The leaves of a merge in the pages of the temporary file. -/
def writeTemp : List BTreeNode → ℕ → List UInt8 → Outcome (List UInt8)
  | [], _, tempOutput => .ok tempOutput
  | node :: nodes, offset, tempOutput => do
    let tempOutput ← writePage before tempOutput offset (.node node)
    writeTemp nodes (offset + 1) tempOutput

def readTemp (tempInput : List UInt8) : ℕ → ℕ → Outcome (List BTreeNode)
  | 0, _ => .ok []
  | n + 1, inputOffset => do
    let position ← File.position inputOffset
    let node := ofBytes (read tempInput position 4092)
    let nodes ← readTemp tempInput n (inputOffset + 1)
    .ok (node :: nodes)

def mergeBytes (oldSst newSst : List UInt8) (isLastLevel : Bool) : Outcome (List UInt8) := do
  let old ← Cursor.start (fileOf oldSst)
  let new ← Cursor.start (fileOf newSst)
  let temp ← mergeLeaves isLastLevel (mergeFuel (fileOf oldSst) + mergeFuel (fileOf newSst) + 1)
    old new [] []
  let tempFile ← writeTemp before temp 0 []
  let nodes ← readTemp tempFile temp.length 0
  writeMerge (writePage before) [] xxh64 nodes

end Bytes

/-! ### What is written fits -/

theorem leafOf_fits {es : List Entry} (h : es.length ≤ maxKeys) : (leafOf es).Fits :=
  ⟨h.trans (Nat.le_succ _), h.trans_lt (by norm_num [maxKeys]), by norm_num [leafOf],
    by norm_num [leafOf], by norm_num [leafOf]⟩

theorem chunk_fits {es : List Entry} {leaf : BTreeNode}
    (h : leaf ∈ (chunks maxKeys es).map leafOf) : leaf.Fits := by
  obtain ⟨c, hc, rfl⟩ := List.mem_map.mp h
  exact leafOf_fits (mem_chunks maxKeys_pos hc).2

theorem Fits.place {node : BTreeNode} (h : node.Fits) {offset : ℕ} (hlt : offset < 524288) :
    (PageData.node { node with fileOffset := offset }).Fits :=
  ⟨h.entries, h.numKeys, hlt.trans (by norm_num), h.totalNumberOfNodes, h.numOfLeafNodes⟩

theorem Fits.metadata {node : BTreeNode} (h : node.Fits) {total n : ℕ}
    (htotal : total < 2147483648) (hn : n < 2147483648) :
    (PageData.node { node with totalNumberOfNodes := total, numOfLeafNodes := n }).Fits :=
  ⟨h.entries, h.numKeys, h.fileOffset, htotal, hn⟩

theorem filterOf_fits (xxh64 : XXH64) (leafNodes : List BTreeNode) :
    (PageData.filter (filterOf xxh64 leafNodes)).Fits := by
  have he : BloomFilter.Extends (.new 5 leafNodes.length) (filterOf xxh64 leafNodes) :=
    BloomFilter.foldl_insert_extends (leafNodes.flatMap keys) _
  refine ⟨?_, ?_, ?_⟩
  · rw [he.length, he.totalBits]
    exact List.length_replicate ..
  · rw [he.totalBits]
    show (if _ then _ else _) ≤ _
    split_ifs with h
    · exact le_rfl
    · exact (not_le.mp h).le
  · rw [he.hashFunctions]
    show BloomFilter.optimalHashFunctions 5 < _
    norm_num [BloomFilter.optimalHashFunctions]

/-! ### The builders write what the page file holds -/

section Represented

variable {xxh64 : XXH64} {before : ℕ → UInt8} {bytes : List UInt8} {file : File}

theorem writePage_same (before : ℕ → UInt8) (bytes : List UInt8) (offset : ℕ)
    {node node' : BTreeNode} (h : Same node node') :
    writePage before bytes offset (.node node) = writePage before bytes offset (.node node') := by
  rw [writePage, writePage, PageData.toBytes, PageData.toBytes, h.toBytes]

theorem writeLeafNodes_matches {nodes nodes' : List BTreeNode} {offset : ℕ}
    (hs : List.Forall₂ Same nodes nodes') (hfit : ∀ node ∈ nodes', node.Fits)
    (h : Represents bytes file) :
    Matches (fun x y => List.Forall₂ Same x.1 y.1 ∧ Represents x.2 y.2)
      (writeLeafNodes (writePage before) nodes offset bytes)
      (writeLeafNodes File.write nodes' offset file) := by
  induction hs generalizing offset bytes file with
  | nil => exact .ok ⟨.nil, h⟩
  | @cons node node' nodes nodes' hn _ ih =>
    have hplace := hn.place offset
    have hf := hfit node' List.mem_cons_self
    rw [writeLeafNodes, writeLeafNodes, writePage_same before bytes offset hplace]
    refine (h.write hf.place before).bind fun bytes₁ file₁ _ _ h₁ => ?_
    refine (ih (fun n hmem => hfit n (List.mem_cons_of_mem _ hmem)) h₁).bind
      fun x y _ _ hxy => ?_
    exact .ok ⟨.cons hplace hxy.1, hxy.2⟩

section Levels

variable {α : Type} {refer : α → Entry}

theorem buildLevel_matches {fuel : ℕ} {queue queue' : List α} {offset : ℕ}
    (hq : queue.map refer = queue'.map refer) (h : Represents bytes file) :
    Matches (fun x y => x.1 = y.1 ∧ (∀ node ∈ x.1, node.Fits) ∧ Represents x.2 y.2)
      (buildLevel (writePage before) refer fuel queue offset bytes)
      (buildLevel File.write refer fuel queue' offset file) := by
  induction fuel generalizing queue queue' offset bytes file with
  | zero => exact .error _
  | succ fuel ih =>
    have hlen : queue.length = queue'.length := by
      rw [← List.length_map refer, hq, List.length_map]
    rw [buildLevel, buildLevel, hlen]
    split_ifs
    · exact .ok ⟨rfl, fun _ hn => (by cases hn), h⟩
    have htake : ∀ n, (queue.take n).map refer = (queue'.take n).map refer := fun n => by
      rw [List.map_take, hq, List.map_take]
    simp only [htake]
    have hfit : offset < 524288 → (PageData.node ⟨min (maxKeys + 1) queue'.length,
        (queue'.take (min (maxKeys + 1) queue'.length)).map refer, false, offset, 0, 0⟩).Fits := by
      intro hlt
      have hmin := Nat.min_le_left (maxKeys + 1) queue'.length
      refine ⟨?_, hmin.trans_lt (by norm_num [maxKeys]), hlt.trans (by norm_num), by norm_num,
        by norm_num⟩
      rw [List.length_map]
      exact (List.length_take_le _ _).trans hmin
    refine (h.write hfit before).bind fun bytes₁ file₁ _ hw h₁ => ?_
    refine (ih (by rw [List.map_drop, hq, ← List.map_drop]) h₁).bind fun x y _ _ hxy => ?_
    refine .ok ⟨congrArg _ hxy.1, fun node hn => ?_, hxy.2.2⟩
    rcases List.mem_cons.mp hn with rfl | hn
    · exact hfit (File.write_eq_ok.mp hw).1
    · exact hxy.2.1 node hn

theorem buildLevels_matches {enqueue : BTreeNode → α} {total n fuel : ℕ}
    {queue queue' : List α} {offset : ℕ} (htotal : total < 2147483648) (hn : n < 2147483648)
    (hq : queue.map refer = queue'.map refer) (h : Represents bytes file) : Matches Represents
      (buildLevels (writePage before) refer enqueue total n fuel queue offset bytes)
      (buildLevels File.write refer enqueue total n fuel queue' offset file) := by
  induction fuel generalizing queue queue' offset bytes file with
  | zero => exact .error _
  | succ fuel ih =>
    have hlen : queue.length = queue'.length := by
      rw [← List.length_map refer, hq, List.length_map]
    rw [buildLevels, buildLevels, hlen]
    refine (buildLevel_matches hq h).bind ?_
    rintro ⟨result, bytes₁⟩ ⟨_, file₁⟩ - - ⟨rfl, hfit, h₁⟩
    rcases result with _ | ⟨root, _ | ⟨node, result⟩⟩
    · exact ih rfl h₁
    · exact h₁.write (fun _ => (hfit root List.mem_cons_self).metadata htotal hn) before
    · exact ih rfl h₁

end Levels

theorem writeLeafNodes_lt {nodes : List BTreeNode} {offset : ℕ} {x : List BTreeNode × File}
    (hne : nodes ≠ []) (h : writeLeafNodes File.write nodes offset file = .ok x) :
    offset < 524288 := by
  cases nodes with
  | nil => exact absurd rfl hne
  | cons node nodes =>
    obtain ⟨file₁, hw, -⟩ := bind_eq_ok.mp h
    exact (File.write_eq_ok.mp hw).1

theorem length_le_total (n : ℕ) : n ≤ getTotalNumberOfNodes n := by
  rw [getTotalNumberOfNodes_eq]
  exact Nat.le_add_right ..

theorem forall₂_same (nodes : List BTreeNode) : List.Forall₂ Same nodes nodes :=
  List.forall₂_same.mpr fun _ _ => ⟨rfl, fun _ => rfl, rfl, rfl, rfl, rfl⟩

theorem map_summary {nodes nodes' : List BTreeNode} (h : List.Forall₂ Same nodes nodes') :
    nodes.map summary = nodes'.map summary := by
  induction h with
  | nil => rfl
  | cons hn _ ih => rw [List.map_cons, List.map_cons, hn.summary, ih]

/-- A flush writes the bytes of the page file. -/
theorem constructBytes_matches {leafNodes : List BTreeNode} (hne : leafNodes ≠ [])
    (hfit : ∀ leaf ∈ leafNodes, leaf.Fits) :
    Matches Represents (constructBytes xxh64 before leafNodes)
      (constructInternalNodesAndWriteToFile xxh64 leafNodes) := by
  refine (represents_empty.write (fun _ => filterOf_fits xxh64 leafNodes) before).bind
    fun bytes₀ file₀ _ _ h₀ => ?_
  refine (writeLeafNodes_matches (forall₂_same leafNodes) hfit h₀).bind ?_
  rintro ⟨queue, bytes₁⟩ ⟨queue', file₁⟩ - hw ⟨hs, h₁⟩
  have hlt := writeLeafNodes_lt hne hw
  have hle := length_le_total leafNodes.length
  exact buildLevels_matches (by omega) (by omega) (map_summary hs) h₁

/-! ### The temporary file of a merge -/

theorem writeTemp_ok (before : ℕ → UInt8) {nodes : List BTreeNode} {offset : ℕ}
    (hfit : ∀ node ∈ nodes, node.Fits) (hlen : offset + nodes.length ≤ 524288)
    (h : Represents bytes file) :
    ∃ bytes' file', writeTemp before nodes offset bytes = .ok bytes' ∧ Represents bytes' file' ∧
      (∀ o < offset, file'.page o = file.page o) ∧
      ∀ i node, nodes[i]? = some node → file'.page (offset + i) = some (.node node) := by
  induction nodes generalizing offset bytes file with
  | nil => exact ⟨bytes, file, rfl, h, fun _ _ => rfl, fun i node hi => (by cases hi)⟩
  | cons node nodes ih =>
    rw [List.length_cons] at hlen
    have hnode : (PageData.node node).Fits := hfit node List.mem_cons_self
    have hput : Represents _ (file.put offset (.node node)) := h.put hnode before
    have hlen' : offset + 1 + nodes.length ≤ 524288 := by omega
    obtain ⟨bytes', file', hw, hrep, hframe, hpages⟩ :=
      ih (fun n hn => hfit n (List.mem_cons_of_mem _ hn)) hlen' hput
    refine ⟨bytes', file', ?_, hrep, fun o ho => ?_, fun i n hi => ?_⟩
    · rw [writeTemp, writePage, File.position_eq_ok.mpr ⟨by omega, rfl⟩]
      exact hw
    · rw [hframe o (by omega), File.put_page_of_ne _ _ (by omega)]
    · cases i with
      | zero =>
        cases hi
        rw [Nat.add_zero, hframe offset (Nat.lt_succ_self _), File.put_page_self]
      | succ i =>
        rw [← hpages i n hi]
        congr 1
        omega

theorem writeTemp_error {nodes : List BTreeNode} {offset : ℕ}
    (hlen : 524288 < offset + nodes.length) (hle : offset ≤ 524288) :
    writeTemp before nodes offset bytes = .error .intOverflow := by
  induction nodes generalizing offset bytes with
  | nil => exact absurd hlen (by simpa using hle)
  | cons node nodes ih =>
    rw [List.length_cons] at hlen
    rw [writeTemp, writePage]
    rcases Nat.lt_or_ge offset 524288 with hlt | hge
    · rw [File.position_eq_ok.mpr ⟨hlt, rfl⟩]
      exact ih (by omega) hlt
    · have hpos : File.position offset = .error .intOverflow := by
        rw [File.position, if_neg (by rw [Utils.pageSize]; omega)]
      rw [hpos]
      rfl

theorem readTemp_ok {nodes : List BTreeNode} {offset : ℕ} (hlen : offset + nodes.length ≤ 524288)
    (h : Represents bytes file)
    (hpages : ∀ i node, nodes[i]? = some node → file.page (offset + i) = some (.node node)) :
    ∃ nodes', readTemp bytes nodes.length offset = .ok nodes' ∧ List.Forall₂ Same nodes' nodes := by
  induction nodes generalizing offset with
  | nil => exact ⟨[], rfl, .nil⟩
  | cons node nodes ih =>
    rw [List.length_cons] at hlen
    have hrest : ∀ i n, nodes[i]? = some n → file.page (offset + 1 + i) = some (.node n) :=
      fun i n hi => by
        rw [Nat.add_assoc, Nat.add_comm 1 i]
        exact hpages (i + 1) n hi
    obtain ⟨nodes', hr, hs⟩ := ih (by omega) hrest
    refine ⟨_ :: nodes', ?_, .cons (h.written offset _ (hpages 0 node rfl)) hs⟩
    rw [List.length_cons, readTemp, File.position_eq_ok.mpr ⟨by omega, rfl⟩, ok_bind, hr]
    rfl

/-! ### Merge -/

theorem filterOf_same {nodes nodes' : List BTreeNode} (h : List.Forall₂ Same nodes nodes') :
    filterOf xxh64 nodes = filterOf xxh64 nodes' := by
  have hkeys : nodes.flatMap keys = nodes'.flatMap keys := by
    induction h with
    | nil => rfl
    | cons hn _ ih => rw [List.flatMap_cons, List.flatMap_cons, hn.keys, ih]
  rw [filterOf, filterOf, hkeys, h.length_eq]

theorem writeMerge_matches {nodes nodes' : List BTreeNode} (hne : nodes' ≠ [])
    (hs : List.Forall₂ Same nodes nodes') (hfit : ∀ node ∈ nodes', node.Fits) :
    Matches Represents (writeMerge (writePage before) [] xxh64 nodes)
      (writeMerge File.write .empty xxh64 nodes') := by
  have hle := length_le_total nodes'.length
  simp only [writeMerge, hs.length_eq, filterOf_same hs]
  refine (writeLeafNodes_matches hs hfit represents_empty).bind ?_
  rintro ⟨queue, bytes₁⟩ ⟨queue', file₁⟩ - hwrite ⟨hq, h₁⟩
  have hlt := writeLeafNodes_lt hne hwrite
  simp only [map_summary hq]
  refine (h₁.write (fun _ => filterOf_fits xxh64 nodes') before).bind fun bytes₂ file₂ _ _ h₂ => ?_
  exact buildLevels_matches (by omega) (by omega) rfl h₂

/-- The first write is out of range. -/
theorem writeMerge_error {nodes : List BTreeNode} (hlen : 524288 < nodes.length) :
    writeMerge File.write .empty xxh64 nodes = .error .intOverflow := by
  have hle := length_le_total nodes.length
  cases nodes with
  | nil => exact absurd hlen (Nat.not_lt_zero _)
  | cons node nodes =>
    rw [writeMerge, writeLeafNodes, File.write_of_ge _ _ (hlen.le.trans hle)]
    rfl

/-- A merge writes the bytes of the page file. -/
theorem mergeBytes_matches {oldBytes newBytes : List UInt8} {oldSst newSst : File}
    (ho : (fileOf oldBytes).Agrees oldSst) (hn : (fileOf newBytes).Agrees newSst)
    (isLastLevel : Bool) : Matches Represents
      (mergeBytes xxh64 before oldBytes newBytes isLastLevel)
      (mergeSsts xxh64 oldSst newSst isLastLevel) := by
  have hbytes : mergeBytes xxh64 before oldBytes newBytes isLastLevel = (do
      let temp ← mergedLeaves isLastLevel (fileOf oldBytes) (fileOf newBytes)
      let tempFile ← writeTemp before temp 0 []
      let nodes ← readTemp tempFile temp.length 0
      writeMerge (writePage before) [] xxh64 nodes) := by
    simp only [mergeBytes, mergedLeaves, bind_assoc]
  have hpages : mergeSsts xxh64 oldSst newSst isLastLevel =
      mergedLeaves isLastLevel oldSst newSst >>= writeMerge File.write .empty xxh64 := by
    simp only [mergeSsts, mergedLeaves, bind_assoc]
  rw [hbytes, hpages, mergedLeaves_agrees ho hn]
  refine (Matches.of_eq rfl).bind ?_
  rintro temp _ htemp - rfl
  obtain ⟨slots, hslots, rfl⟩ := mergedLeaves_chunks htemp
  have hne := chunks_map_ne_nil hslots
  have hfit : ∀ leaf ∈ (chunks maxKeys slots).map leafOf, leaf.Fits := fun _ => chunk_fits
  generalize (chunks maxKeys slots).map leafOf = temp at hne hfit ⊢
  rcases Nat.lt_or_ge 524288 temp.length with hlt | hge
  · have htemp : writeTemp before temp 0 [] = .error .intOverflow :=
      writeTemp_error (by rwa [Nat.zero_add]) (Nat.zero_le _)
    rw [htemp, writeMerge_error hlt]
    exact .error _
  · obtain ⟨tempFile, file', hw, hrep, -, hpages⟩ :=
      writeTemp_ok before hfit (by rwa [Nat.zero_add]) represents_empty
    obtain ⟨nodes, hr, hs⟩ := readTemp_ok (by rwa [Nat.zero_add]) hrep hpages
    simp only [hw, hr, ok_bind]
    exact writeMerge_matches hne hs hfit

/-! ### The filter is in front -/

theorem filterFirst_write {offset : ℕ} {node : BTreeNode} {file' : File} (h : file.FilterFirst)
    (ho : offset ≠ 0) (hw : file.write offset (.node node) = .ok file') : file'.FilterFirst := by
  obtain ⟨-, rfl⟩ := File.write_eq_ok.mp hw
  obtain ⟨⟨f, hf⟩, hnode⟩ := h
  refine ⟨⟨f, (File.put_page_of_ne _ _ ho.symm).trans hf⟩, fun o g hpos hg => ?_⟩
  by_cases he : o = offset
  · subst he
    rw [File.put_page_self] at hg
    cases hg
  · rw [File.put_page_of_ne _ _ he] at hg
    exact hnode o g hpos hg

theorem filterFirst_writeAll {nodes : List BTreeNode} {file' : File} (h : file.FilterFirst)
    (ho : ∀ node ∈ nodes, node.fileOffset ≠ 0) (hw : writeAll nodes file = .ok file') :
    file'.FilterFirst := by
  induction nodes generalizing file with
  | nil =>
    cases hw
    exact h
  | cons node nodes ih =>
    obtain ⟨file₁, hw₁, hw⟩ := bind_eq_ok.mp hw
    exact ih (filterFirst_write h (ho node List.mem_cons_self) hw₁)
      (fun n hn => ho n (List.mem_cons_of_mem _ hn)) hw

theorem construct_filterFirst {leafNodes : List BTreeNode} (hne : leafNodes ≠ [])
    (h : constructInternalNodesAndWriteToFile xxh64 leafNodes = .ok file) : file.FilterFirst := by
  rw [construct_eq_writePages xxh64 hne, writePages] at h
  obtain ⟨file₀, hw₀, h'⟩ := bind_eq_ok.mp h
  obtain ⟨file₁, hw₁, hroot⟩ := bind_eq_ok.mp h'
  obtain ⟨-, rfl⟩ := File.write_eq_ok.mp hw₀
  have h₀ : (File.empty.put 0 (.filter (filterOf xxh64 leafNodes))).FilterFirst :=
    ⟨⟨_, File.put_page_self ..⟩, fun o f hpos hf => by
      rw [File.put_page_of_ne _ _ hpos.ne'] at hf
      cases hf⟩
  refine filterFirst_write (filterFirst_writeAll h₀ (fun node hn => ?_) hw₁) one_ne_zero hroot
  have hfill := ((allNodes_laidOut hne).fills node.fileOffset).mp (List.mem_map_of_mem hn)
  omega

theorem merge_filterFirst {oldSst newSst : File} {isLastLevel : Bool}
    (h : mergeSsts xxh64 oldSst newSst isLastLevel = .ok file) : file.FilterFirst := by
  rw [mergeSsts_eq_mergedLeaves] at h
  obtain ⟨leaves, hl, h⟩ := bind_eq_ok.mp h
  obtain ⟨slots, hslots, rfl⟩ := mergedLeaves_chunks hl
  exact construct_filterFirst (chunks_map_ne_nil hslots) h

end Represented

end BTreeNode

/-! ### Runs over byte files -/

/-- The files of a directory, as bytes or as pages. -/
abbrev Directory (φ : Type) := String → Option φ

/-- How SSTs are built, merged and looked at. -/
structure SstFiles (φ : Type) where
  construct : (ℕ → UInt8) → List BTreeNode → Outcome φ
  merge : (ℕ → UInt8) → φ → φ → Bool → Outcome φ
  empty : φ
  view : φ → File

namespace SstFiles

variable (xxh64 : XXH64)

def ofBytes : SstFiles (List UInt8) where
  construct := BTreeNode.constructBytes xxh64
  merge := BTreeNode.mergeBytes xxh64
  empty := []
  view := fileOf

def ofPages : SstFiles File where
  construct _ := BTreeNode.constructInternalNodesAndWriteToFile xxh64
  merge _ := BTreeNode.mergeSsts xxh64
  empty := .empty
  view := id

inductive Call
  | flush (path : String) (memtable : Node)
  | merge (old new output : String) (isLastLevel : Bool)
  | search (path : String) (key : Uint32)
  | scan (path : String) (startKey endKey : Uint32)

inductive Reply
  | done
  | value (value : Uint32)
  | entries (result : List Entry)

variable {φ : Type} (files : SstFiles φ)

/-- The file at a path, which a reader needs to be there. -/
def load (directory : Directory φ) (path : String) : Outcome φ :=
  match directory path with
  | none => .error .badRead
  | some file => .ok file

/-- One operation, with what the memory of its filter held before. -/
def step : (ℕ → UInt8) × Call → Directory φ → Outcome (Reply × Directory φ)
  | (before, .flush path memtable), directory =>
    let leafNodes := BTreeNode.extractLeafNodesFromAvl memtable []
    if leafNodes.length = 0 then .ok (.done, directory) else do
      let file ← files.construct before leafNodes
      .ok (.done, Function.update directory path (some file))
  | (before, .merge old new output isLastLevel), directory => do
    -- the output is opened, and so emptied, before the inputs are read
    let directory := Function.update directory output (some files.empty)
    let oldSst ← load directory old
    let newSst ← load directory new
    let file ← files.merge before oldSst newSst isLastLevel
    .ok (.done, Function.update directory output (some file))
  | (_, .search path key), directory => do
    let sst := files.view (← load directory path)
    let (value, ()) ← BTreeNode.search (fileSource sst) xxh64 key sst.numPages ()
    .ok (.value value, directory)
  | (_, .scan path startKey endKey), directory => do
    let sst := files.view (← load directory path)
    let (result, ()) ← BTreeNode.scanFrom (fileSource sst) startKey endKey sst.numPages ()
    .ok (.entries result, directory)

variable {xxh64} {directory : Directory (List UInt8)} {directory' : Directory File}

/-- At every path the bytes represent the pages, with the filter in front. -/
def Represented (directory : Directory (List UInt8)) (directory' : Directory File) : Prop :=
  ∀ path, match directory path, directory' path with
    | none, none => True
    | some bytes, some file => Represents bytes file ∧ file.FilterFirst
    | _, _ => False

theorem Represented.load (h : Represented directory directory') (path : String) :
    Matches (fun bytes file => Represents bytes file ∧ file.FilterFirst)
      (load directory path) (load directory' path) := by
  have hp := h path
  rw [SstFiles.load, SstFiles.load]
  cases hd : directory path <;> cases hd' : directory' path <;> rw [hd, hd'] at hp
  · exact .error _
  · exact hp.elim
  · exact hp.elim
  · exact .ok hp

theorem Represented.update (h : Represented directory directory') (path : String)
    {bytes : List UInt8} {file : File} (hr : Represents bytes file) (hf : file.FilterFirst) :
    Represented (Function.update directory path (some bytes))
      (Function.update directory' path (some file)) := by
  intro p
  by_cases hp : p = path
  · subst hp
    rw [Function.update_self, Function.update_self]
    exact ⟨hr, hf⟩
  · rw [Function.update_of_ne hp, Function.update_of_ne hp]
    exact h p

/-- The inputs of a merge, one of which may be its output. -/
theorem Represented.load_emptied (h : Represented directory directory') (output path : String) :
    Matches (fun bytes file => (fileOf bytes).Agrees file)
      (SstFiles.load (Function.update directory output (some [])) path)
      (SstFiles.load (Function.update directory' output (some .empty)) path) := by
  by_cases hp : path = output
  · subst hp
    rw [SstFiles.load, SstFiles.load, Function.update_self, Function.update_self]
    exact .ok Represents.agrees_empty
  · rw [SstFiles.load, SstFiles.load, Function.update_of_ne hp, Function.update_of_ne hp]
    exact (h.load path).imp fun _ _ hb => hb.1.agrees hb.2

theorem step_matches (call : (ℕ → UInt8) × Call) (h : Represented directory directory') :
    Matches (fun x y => x.1 = y.1 ∧ Represented x.2 y.2)
      (step xxh64 (ofBytes xxh64) call directory) (step xxh64 (ofPages xxh64) call directory') := by
  obtain ⟨before, call⟩ := call
  cases call with
  | flush path memtable =>
    simp only [step, BTreeNode.extractLeafNodesFromAvl_eq, List.length_eq_zero_iff]
    split_ifs with hnil
    · exact .ok ⟨rfl, h⟩
    refine (BTreeNode.constructBytes_matches hnil fun _ => BTreeNode.chunk_fits).bind
      fun bytes file _ hfile hr => ?_
    exact .ok ⟨rfl, h.update path hr (BTreeNode.construct_filterFirst hnil hfile)⟩
  | merge old new output isLastLevel =>
    refine (h.load_emptied output old).bind fun oldBytes oldSst _ _ ho => ?_
    refine (h.load_emptied output new).bind fun newBytes newSst _ _ hn => ?_
    refine (BTreeNode.mergeBytes_matches ho hn isLastLevel).bind fun bytes file _ hfile hr => ?_
    simp only [Function.update_idem]
    exact .ok ⟨rfl, h.update output hr (BTreeNode.merge_filterFirst hfile)⟩
  | search path key =>
    refine (h.load path).bind fun bytes file _ _ hb => ?_
    have ha := hb.1.agrees hb.2
    simp only [ofBytes, ofPages, id_eq, ha.numPages, BTreeNode.search_agrees ha]
    exact (Matches.of_eq rfl).bind fun x _ _ _ hx => hx ▸ .ok ⟨rfl, h⟩
  | scan path startKey endKey =>
    refine (h.load path).bind fun bytes file _ _ hb => ?_
    have ha := hb.1.agrees hb.2
    simp only [ofBytes, ofPages, id_eq, ha.numPages, BTreeNode.scanFrom_agrees ha.readNode]
    exact (Matches.of_eq rfl).bind fun x _ _ _ hx => hx ▸ .ok ⟨rfl, h⟩

/-- Whatever is flushed, merged and read, in any order: the bytes of every file represent
the pages, and every reply and every failure is the one of the page files. -/
theorem run_bytes (calls : List ((ℕ → UInt8) × Call)) :
    Matches (fun x y => x.1 = y.1 ∧ Represented x.2 y.2)
      (run (step xxh64 (ofBytes xxh64)) calls fun _ => none)
      (run (step xxh64 (ofPages xxh64)) calls fun _ => none) := by
  have hempty : Represented (fun _ => none) (fun _ => none) := fun _ => trivial
  exact run_matches (R := Represented) (fun call _ _ h => step_matches call h) calls hempty

end SstFiles

end MiniKvs
