import MiniKvs.Sst.ByteFiles

/-! What a filter does not change. A lookup that does not ask the filter finds the same
value, and the same entries under another hash give the same nodes. -/

namespace MiniKvs

open Lib

namespace BTreeNode

variable {xxh64 xxh64' : XXH64} {leaves : List (List Entry)} {file file' : File} {key : Uint32}

/-- The value that the search of the nodes gives. -/
def treeValue (file : File) (key : Uint32) : Uint32 :=
  valueAt file.page key (locate file.page key file.numPages 1).2

theorem findValue_eq_invalid {node : BTreeNode} (h : ∀ i < node.numKeys, (node.entry i).key ≠ key) :
    node.findValue key = Utils.invalidValue := by
  rw [findValue, bisect_eq_none]
  intro i h1 h2
  rw [if_neg (h i.toNat (by omega))]
  split_ifs <;> exact fun h => (by cases h)

/-- A leaf page has no value for a key that is in no leaf. -/
theorem Layout.treeValue_eq_invalid (hl : Layout xxh64 leaves file)
    (hkey : ∀ e ∈ leaves.flatten, e.key ≠ key) : treeValue file key = Utils.invalidValue := by
  obtain ⟨h, -, hs⟩ := hl.exists_subtree
  rw [treeValue]
  cases hloc : (locate file.page key file.numPages 1).2 with
  | none => rfl
  | some o =>
    obtain ⟨j, hj, rfl⟩ := hs.locate_some hloc
    have hpage := hl.leaf j _ (List.getElem?_eq_getElem hj)
    rw [valueAt, nodeAt_of_page hpage]
    refine findValue_eq_invalid fun i hi => ?_
    rw [entry_leafAt hi]
    exact hkey _ (List.mem_flatten.mpr ⟨_, List.getElem_mem hj, List.getElem_mem hi⟩)

/-- The filter lets every key of the leaves pass, so asking it changes nothing. -/
theorem Layout.lookupValue_eq_treeValue (hl : Layout xxh64 leaves file) (key : Uint32) :
    lookupValue xxh64 file key = treeValue file key := by
  rw [lookupValue, hl.filter]
  simp only
  split_ifs with hg
  · rfl
  · refine (hl.treeValue_eq_invalid fun e he hk => hg ?_).symm
    rw [← hk]
    exact filterOf_get he

theorem Layout.searchNode_file (hl : Layout xxh64 leaves file) (key : Uint32) :
    searchNode (fileSource file) key file.numPages 1 () = .ok (treeValue file key, ()) := by
  obtain ⟨h, hfuel, hs⟩ := hl.exists_subtree
  have hserve := fileSource_serves file
  obtain ⟨⟨⟩, hv, -⟩ := hserve.visit (s := ()) (fun o ho => hl.mem_locate ho) trivial
  rw [searchNode_eq_descend, descend_eq_visit hserve.toReads hs hfuel trivial, hv]
  simp only [Except.map, treeValue]
  cases (locate file.page key file.numPages 1).2 <;> rfl

end BTreeNode

/-! ### Files that differ in their filters -/

/-- The files differ at most in their filters. -/
structure File.SameNodes (file file' : File) : Prop where
  size : file.size = file'.size
  page : ∀ o, o ≠ 0 → file.page o = file'.page o

namespace File.SameNodes

open BTreeNode

variable {xxh64 xxh64' : XXH64} {file file' : File} {offset : ℕ} {data : PageData}

theorem put (h : file.SameNodes file') (offset : ℕ) (data : PageData) :
    (file.put offset data).SameNodes (file'.put offset data) where
  size := by rw [put_size, put_size, h.size]
  page o ho := by
    rcases eq_or_ne o offset with rfl | hne
    · rw [put_page_self, put_page_self]
    · rw [put_page_of_ne file data hne, put_page_of_ne file' data hne, h.page o ho]

theorem write (h : file.SameNodes file') {out : File} (hw : file.write offset data = .ok out) :
    ∃ out', file'.write offset data = .ok out' ∧ out.SameNodes out' := by
  obtain ⟨hlt, rfl⟩ := write_eq_ok.mp hw
  exact ⟨_, write_of_lt file' data hlt, h.put offset data⟩

theorem writeAll {nodes : List BTreeNode} : ∀ {file file' out : File}, file.SameNodes file' →
    BTreeNode.writeAll nodes file = .ok out →
    ∃ out', BTreeNode.writeAll nodes file' = .ok out' ∧ out.SameNodes out' := by
  induction nodes with
  | nil =>
    intro file file' out h hw
    cases hw
    exact ⟨file', rfl, h⟩
  | cons node nodes ih =>
    intro file file' out h hw
    obtain ⟨file₁, hw₁, hw⟩ := bind_eq_ok.mp hw
    obtain ⟨file₁', hw₁', h₁⟩ := h.write hw₁
    obtain ⟨out', hw', h'⟩ := ih h₁ hw
    exact ⟨out', bind_eq_ok.mpr ⟨file₁', hw₁', hw'⟩, h'⟩

/-- The same entries are laid out alike under every hash. -/
theorem of_sstOf {es : List Entry} (hne : es ≠ []) (h : sstOf xxh64 es = .ok file)
    (h' : sstOf xxh64' es = .ok file') : file.SameNodes file' := by
  have hleaves := chunks_map_ne_nil hne
  rw [sstOf, construct_eq_writePages _ hleaves, writePages] at h h'
  obtain ⟨a, ha, hw⟩ := bind_eq_ok.mp h
  obtain ⟨b, hb, hroot⟩ := bind_eq_ok.mp hw
  obtain ⟨a', ha', hw'⟩ := bind_eq_ok.mp h'
  obtain ⟨-, rfl⟩ := write_eq_ok.mp ha
  obtain ⟨-, rfl⟩ := write_eq_ok.mp ha'
  have hfilter : ∀ f f' : BloomFilter,
      (empty.put 0 (.filter f)).SameNodes (empty.put 0 (.filter f')) := fun f f' =>
    ⟨rfl, fun o ho => by rw [put_page_of_ne _ _ ho, put_page_of_ne _ _ ho]⟩
  obtain ⟨b', hb', hsame⟩ := (hfilter _ _).writeAll hb
  obtain ⟨out', hout', hsame'⟩ := hsame.write hroot
  rw [hb', ok_bind, hout'] at hw'
  cases hw'
  exact hsame'

theorem numPages (h : file.SameNodes file') : file.numPages = file'.numPages := by
  rw [File.numPages, File.numPages, h.size]

theorem nodesAgree {leaves leaves' : List (List Entry)} (h : file.SameNodes file')
    (hl : Layout xxh64 leaves file) (hl' : Layout xxh64' leaves' file') :
    file.NodesAgree file' := by
  intro o
  rw [readNode, readNode]
  refine (Matches.of_eq rfl).bind fun _ _ _ _ _ => ?_
  rcases Nat.eq_zero_or_pos o with rfl | hpos
  · rw [hl.filter, hl'.filter]
    exact .error _
  · rw [h.page o hpos.ne']
    exact (Matches.of_eq rfl).imp fun _ _ he => he ▸ .refl _

/-- Both files give the same value to every key. -/
theorem treeValue {leaves leaves' : List (List Entry)} (h : file.SameNodes file')
    (hl : Layout xxh64 leaves file) (hl' : Layout xxh64' leaves' file') (key : Uint32) :
    treeValue file key = treeValue file' key := by
  have hnodes := searchNode_agrees (h.nodesAgree hl hl') key file.numPages 1
  rw [hl.searchNode_file, h.numPages, hl'.searchNode_file] at hnodes
  exact congrArg Prod.fst (Except.ok.inj hnodes)

theorem scanFrom {leaves leaves' : List (List Entry)} (h : file.SameNodes file')
    (hl : Layout xxh64 leaves file) (hl' : Layout xxh64' leaves' file')
    (startKey endKey : Uint32) :
    BTreeNode.scanFrom (fileSource file) startKey endKey file.numPages () =
      BTreeNode.scanFrom (fileSource file') startKey endKey file'.numPages () := by
  rw [h.numPages]
  exact scanFrom_agrees (h.nodesAgree hl hl') startKey endKey file'.numPages

end File.SameNodes

end MiniKvs
