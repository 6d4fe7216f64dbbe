import MiniKvs.Pool.Coherence
import MiniKvs.Sst.Merging
import MiniKvs.Sst.Reading

/-! An SST read through the buffer pool. Page ids never clash, so a coherent pool
hands out the pages of the file, and what a lookup returns is right unless the
pool faults on one of the pages that the lookup asks for. -/

namespace MiniKvs

open Lib

/-- Behind the last hyphen there are only digits. -/
theorem append_hyphen_inj {p q d e : List Char} (hd : '-' ∉ d) (he : '-' ∉ e)
    (h : p ++ '-' :: d = q ++ '-' :: e) : p = q ∧ d = e := by
  rcases List.append_eq_append_iff.mp h with ⟨c, rfl, hc⟩ | ⟨c, rfl, hc⟩
  · cases c with
    | nil => simpa using hc
    | cons a c =>
      rw [List.cons_append, List.cons.injEq] at hc
      exact absurd (hc.2 ▸ by simp : '-' ∈ d) hd
  · cases c with
    | nil => simpa [eq_comm] using hc
    | cons a c =>
      rw [List.cons_append, List.cons.injEq] at hc
      exact absurd (hc.2 ▸ by simp : '-' ∈ e) he

theorem hyphen_notMem_repr (n : ℕ) : '-' ∉ n.repr.toList := by
  rw [Nat.toList_repr]
  intro h
  have := Nat.isDigit_of_mem_toDigits (by decide) (by decide) h
  revert this
  decide

theorem Page.generatePageId_inj {path path' : String} {offset offset' : ℕ} :
    Page.generatePageId path offset = Page.generatePageId path' offset' ↔
      path = path' ∧ offset = offset' := by
  constructor
  · intro h
    have hl := congrArg String.toList h
    simp only [Page.generatePageId, String.toList_append, Nat.toString_eq_repr,
      List.append_assoc] at hl
    obtain ⟨hp, ho⟩ := append_hyphen_inj (hyphen_notMem_repr offset) (hyphen_notMem_repr offset') hl
    rw [Nat.toList_repr, Nat.toList_repr] at ho
    have hval := congrArg (fun ds => Nat.ofDigitChars 10 ds 0) ho
    simp only [Nat.ofDigitChars_ten_toDigits] at hval
    exact ⟨String.toList_inj.mp hp, hval⟩
  · rintro ⟨rfl, rfl⟩; rfl

namespace BTreeNode

variable {xxh64 : XXH64} {path : String} {sst : File} {Current : String → PageData → Prop}
  {pool pool' : BufferPool PageData}

open BufferPool

section Fetch

variable {offset : ℕ} {read : Outcome PageData} {data data' : PageData}

theorem fetch_coherent (hc : Coherent xxh64.page Current pool)
    (hcur : ∀ d, Current (Page.generatePageId path offset) d ↔ d = data)
    (hread : ∀ d, read = .ok d → d = data)
    (hf : fetch xxh64 path offset read pool = .ok (data', pool')) :
    data' = data ∧ Coherent xxh64.page Current pool' := by
  obtain ⟨⟨found, pool₁⟩, hg, hf⟩ := bind_eq_ok.mp hf
  obtain ⟨hc', hfound⟩ := hc.get hg
  cases found with
  | some d =>
    simp only [Except.ok.injEq, Prod.mk.injEq] at hf
    obtain ⟨rfl, rfl⟩ := hf
    exact ⟨(hcur d).mp (hfound d rfl), hc'⟩
  | none =>
    obtain ⟨d, hd, hf⟩ := bind_eq_ok.mp hf
    obtain ⟨pool₂, hi, hf⟩ := bind_eq_ok.mp hf
    simp only [Except.ok.injEq, Prod.mk.injEq] at hf
    obtain ⟨rfl, rfl⟩ := hf
    exact ⟨hread d hd, hc.insert hg ((hcur d).mpr (hread d hd)) hi⟩

theorem fetch_ok (hs : Steady xxh64.page pool) (hread : read = .ok data) :
    ∃ x, fetch xxh64 path offset read pool = .ok x := by
  obtain ⟨found, pool₁, hg, -⟩ := hs.get (Page.generatePageId path offset)
  cases found with
  | some d => exact ⟨(d, pool₁), by simp only [fetch, hg, ok_bind]⟩
  | none =>
    obtain ⟨pool₂, hi, -⟩ := hs.insert hg data
    exact ⟨(data, pool₂), by simp only [fetch, hg, hread, hi, ok_bind]⟩

theorem fetch_steady (hs : Steady xxh64.page pool)
    (hf : fetch xxh64 path offset read pool = .ok (data, pool')) : Steady xxh64.page pool' := by
  obtain ⟨found, pool₁, hg, hs'⟩ := hs.get (Page.generatePageId path offset)
  simp only [fetch, hg, ok_bind] at hf
  cases found with
  | some d =>
    cases hf
    exact hs'
  | none =>
    obtain ⟨d, -, hf⟩ := bind_eq_ok.mp hf
    obtain ⟨pool₂, hi, hf⟩ := bind_eq_ok.mp hf
    obtain ⟨pool₃, hi', hs''⟩ := hs.insert hg d
    rw [hi'] at hi
    cases hi
    cases hf
    exact hs''

end Fetch

/-- `Current` has the pages of the SST as they are in the file. -/
def Backs (Current : String → PageData → Prop) (path : String) (sst : File) : Prop :=
  ∀ offset data, Current (Page.generatePageId path offset) data ↔ sst.page offset = some data

theorem Backs.current_iff (hb : Backs Current path sst) {offset : ℕ} {data : PageData}
    (hp : sst.page offset = some data) (d : PageData) :
    Current (Page.generatePageId path offset) d ↔ d = data := by
  rw [hb offset d, hp, Option.some.injEq, eq_comm]

theorem readFilter_of_page {f : BloomFilter} (hp : sst.page 0 = some (.filter f)) :
    sst.readFilter.map PageData.filter = .ok (.filter f) := by
  rw [File.readFilter, hp]; rfl

theorem eq_of_readFilter {f : BloomFilter} (hp : sst.page 0 = some (.filter f)) {d : PageData}
    (hd : sst.readFilter.map PageData.filter = .ok d) : d = .filter f := by
  rw [readFilter_of_page hp] at hd
  exact (Except.ok.inj hd).symm

theorem eq_of_readNode {offset : ℕ} {n : BTreeNode} (hp : sst.page offset = some (.node n))
    {d : PageData} (hd : (sst.readNode offset).map PageData.node = .ok d) : d = .node n := by
  simp only [File.readNode, hp] at hd
  cases hpos : File.position offset with
  | error e => rw [hpos] at hd; cases hd
  | ok p => rw [hpos] at hd; cases hd; rfl

theorem poolSource_reads (hb : Backs Current path sst) :
    Reads (poolSource xxh64 path sst) sst.page (Coherent xxh64.page Current) where
  filter pool f f' pool' hc hp h := by
    obtain ⟨⟨d, pool₁⟩, hf, h⟩ := bind_eq_ok.mp h
    obtain ⟨rfl, hc'⟩ := fetch_coherent hc (hb.current_iff hp) (fun _ => eq_of_readFilter hp) hf
    cases h
    exact ⟨rfl, hc'⟩
  node offset pool n n' pool' hc hp h := by
    obtain ⟨⟨d, pool₁⟩, hf, h⟩ := bind_eq_ok.mp h
    obtain ⟨rfl, hc'⟩ := fetch_coherent hc (hb.current_iff hp) (fun _ => eq_of_readNode hp) hf
    cases h
    exact ⟨rfl, hc'⟩

theorem steady_findFilter {f : BloomFilter} (hs : Steady xxh64.page pool)
    (h : findFilter xxh64 path sst pool = .ok (f, pool')) : Steady xxh64.page pool' := by
  obtain ⟨⟨d, pool₁⟩, hf, h⟩ := bind_eq_ok.mp h
  obtain ⟨f', -, h⟩ := bind_eq_ok.mp h
  cases h
  exact fetch_steady hs hf

theorem steady_findNode {offset : ℕ} {n : BTreeNode} (hs : Steady xxh64.page pool)
    (h : findNode xxh64 path sst offset pool = .ok (n, pool')) : Steady xxh64.page pool' := by
  obtain ⟨⟨d, pool₁⟩, hf, h⟩ := bind_eq_ok.mp h
  obtain ⟨n', -, h⟩ := bind_eq_ok.mp h
  cases h
  exact fetch_steady hs hf

/-- With its list intact a coherent pool serves the pages of the file. -/
theorem poolSource_serves (hb : Backs Current path sst) :
    Serves (poolSource xxh64 path sst) sst.page fun pool =>
      Coherent xxh64.page Current pool ∧ Steady xxh64.page pool where
  filter pool f f' pool' hi hp h := by
    obtain ⟨hf, hc⟩ := (poolSource_reads hb).filter pool f f' pool' hi.1 hp h
    exact ⟨hf, hc, steady_findFilter hi.2 h⟩
  node offset pool n n' pool' hi hp h := by
    obtain ⟨hn, hc⟩ := (poolSource_reads hb).node offset pool n n' pool' hi.1 hp h
    exact ⟨hn, hc, steady_findNode hi.2 h⟩
  filter_ok pool f hi hp := by
    obtain ⟨⟨d, pool'⟩, hx⟩ := @fetch_ok xxh64 path pool 0 _ _ hi.2 (readFilter_of_page hp)
    obtain ⟨rfl, -⟩ :=
      fetch_coherent hi.1 (hb.current_iff hp) (fun _ => eq_of_readFilter hp) hx
    exact ⟨(f, pool'), by simp only [poolSource, findFilter, hx, ok_bind]; rfl⟩
  node_ok offset pool n hi hlt hp := by
    have hread : (sst.readNode offset).map PageData.node = .ok (.node n) := by
      rw [File.readNode_of_page hlt hp]; rfl
    obtain ⟨⟨d, pool'⟩, hx⟩ := @fetch_ok xxh64 path pool offset _ _ hi.2 hread
    obtain ⟨rfl, -⟩ := fetch_coherent hi.1 (hb.current_iff hp) (fun _ => eq_of_readNode hp) hx
    exact ⟨(n, pool'), by simp only [poolSource, findNode, hx, ok_bind]; rfl⟩

/-! ### Lookup in the SST of a memtable -/

/-- What page `id` of the SST holds now. -/
def PageOf (path : String) (sst : File) (id : String) (data : PageData) : Prop :=
  ∃ offset, id = Page.generatePageId path offset ∧ sst.page offset = some data

theorem pageOf_backs (path : String) (sst : File) : Backs (PageOf path sst) path sst := by
  intro offset data
  constructor
  · rintro ⟨o, hid, hp⟩
    obtain ⟨-, rfl⟩ := Page.generatePageId_inj.mp hid
    exact hp
  · exact fun hp => ⟨offset, rfl, hp⟩

/-- The pages that a lookup asks the pool for, with what the file holds there. -/
def pagesAsked (xxh64 : XXH64) (path : String) (sst : File) (key : Uint32) :
    List (String × PageData) :=
  (0 :: lookupPages xxh64 sst key).filterMap fun offset =>
    (sst.page offset).map fun data => (Page.generatePageId path offset, data)

theorem fetch_eq_serve {offset : ℕ} {read : Outcome PageData} {data : PageData}
    (hc : Coherent xxh64.page Current pool)
    (hcur : ∀ d, Current (Page.generatePageId path offset) d ↔ d = data)
    (hread : read = .ok data) : fetch xxh64 path offset read pool =
      (pool.serve xxh64.page [(Page.generatePageId path offset, data)]).map fun pool =>
        (data, pool) := by
  simp only [fetch, serve]
  cases hg : pool.get xxh64.page (Page.generatePageId path offset) with
  | error e => rfl
  | ok x =>
    obtain ⟨found, pool₁⟩ := x
    cases found with
    | some d =>
      obtain rfl := (hcur d).mp ((hc.get hg).2 d rfl)
      rfl
    | none =>
      rw [hread]
      simp only [ok_bind]
      cases pool₁.insert xxh64.page (Page.generatePageId path offset) data <;> rfl

theorem serve_cons (x : String × PageData) (pages : List (String × PageData)) :
    pool.serve xxh64.page (x :: pages) =
      pool.serve xxh64.page [x] >>= fun pool => pool.serve xxh64.page pages := by
  simp only [serve]
  cases pool.get xxh64.page x.1 with
  | error e => rfl
  | ok y =>
    obtain ⟨found, pool₁⟩ := y
    cases found with
    | some d => rfl
    | none =>
      simp only [ok_bind]
      cases pool₁.insert xxh64.page x.1 x.2 <;> rfl

theorem visit_eq_serve (hb : Backs Current path sst) : ∀ {offsets : List ℕ}
    {pool : BufferPool PageData}, (∀ o ∈ offsets, IsNode sst.page o) →
    Coherent xxh64.page Current pool → visit (poolSource xxh64 path sst) offsets pool =
      pool.serve xxh64.page (offsets.filterMap fun offset =>
        (sst.page offset).map fun data => (Page.generatePageId path offset, data))
  | [], _, _, _ => rfl
  | o :: offsets, pool, ho, hc => by
    obtain ⟨hp, hlt⟩ := ho o (by simp)
    have hread : (sst.readNode o).map PageData.node = .ok (.node (nodeAt sst.page o)) := by
      rw [File.readNode_of_page hlt hp]; rfl
    have hf := @fetch_eq_serve xxh64 path Current pool o _ _ hc (hb.current_iff hp) hread
    have hsome : (sst.page o).map (fun data => (Page.generatePageId path o, data)) =
        some (Page.generatePageId path o, .node (nodeAt sst.page o)) := by rw [hp]; rfl
    rw [List.filterMap_cons, hsome]
    simp only
    rw [serve_cons, visit]
    simp only [poolSource, findNode, hf]
    cases hs : pool.serve xxh64.page [(Page.generatePageId path o, .node (nodeAt sst.page o))] with
    | error e => rfl
    | ok pool₁ =>
      have hfetch : fetch xxh64 path o ((sst.readNode o).map .node) pool =
          .ok (.node (nodeAt sst.page o), pool₁) := by rw [hf, hs]; rfl
      have hc₁ := (fetch_coherent hc (hb.current_iff hp) (fun _ => eq_of_readNode hp) hfetch).2
      exact visit_eq_serve hb (fun o' h' => ho o' (List.mem_cons_of_mem _ h')) hc₁

/-- Through a coherent pool a lookup returns the value that the file gives, and
fails only where the pool cannot serve a page. -/
theorem searchValueByKey_eq_serve {leaves : List (List Entry)} (hl : Layout xxh64 leaves sst)
    (hb : Backs Current path sst) (hc : Coherent xxh64.page Current pool) (key : Uint32) :
    searchValueByKey xxh64 key path sst pool =
      (pool.serve xxh64.page (pagesAsked xxh64 path sst key)).map fun pool =>
        (lookupValue xxh64 sst key, pool) := by
  have hp := hl.filter
  have hfetch := fetch_eq_serve hc (hb.current_iff hp) (readFilter_of_page hp)
  rw [searchValueByKey, hl.search_eq (poolSource_reads hb) hc, pagesAsked, List.filterMap_cons]
  simp only [hp, Option.map_some]
  rw [serve_cons]
  simp only [poolSource, findFilter, hfetch]
  cases hs : pool.serve xxh64.page
    [(Page.generatePageId path 0, .filter (filterOf xxh64 (leaves.map leafOf)))] with
  | error e => rfl
  | ok pool₁ =>
    have hf : fetch xxh64 path 0 (sst.readFilter.map .filter) pool =
        .ok (.filter (filterOf xxh64 (leaves.map leafOf)), pool₁) := by rw [hfetch, hs]; rfl
    have hc₁ := (fetch_coherent hc (hb.current_iff hp) (fun _ => eq_of_readFilter hp) hf).2
    have hv := visit_eq_serve hb (hl.isNode_lookupPages key) hc₁
    simp only [poolSource] at hv
    simp only [Except.map, ok_bind, PageData.asFilter, hv]
    rfl

theorem Ordered.of_chunks {es : List Entry} (hs : SortedBy Entry.key es) :
    Ordered (chunks maxKeys es) where
  sorted := by rwa [flatten_chunks maxKeys_pos]
  nonempty _ h := (mem_chunks maxKeys_pos h).1

/-- The value of a key in the SST of a sorted list. -/
theorem lookupValue_of_sstOf {es : List Entry} (hne : es ≠ []) (hs : SortedBy Entry.key es)
    (h : sstOf xxh64 es = .ok sst) (key : Uint32) :
    lookupValue xxh64 sst key = valueIn es key := by
  rw [(Layout.of_sstOf hne h).lookupValue_eq (.of_chunks hs), flatten_chunks maxKeys_pos]

/-- The SST of a memtable can be written. -/
theorem exists_flush (xxh64 : XXH64) {root : Node} (hne : root ≠ .null)
    (hrange : getTotalNumberOfNodes (extractLeafNodesFromAvl root []).length < 524288) :
    ∃ sst, constructInternalNodesAndWriteToFile xxh64 (extractLeafNodesFromAvl root []) = .ok sst ∧
      Layout xxh64 (chunks maxKeys (AVLTree.entries root)) sst := by
  have hleaves : chunks maxKeys (AVLTree.entries root) ≠ [] :=
    mt (chunks_eq_nil maxKeys_pos).mp (mt AVLTree.entries_eq_nil.mp hne)
  rw [extractLeafNodesFromAvl_eq, List.length_map] at hrange
  obtain ⟨sst, hsst, hl⟩ := construct_spec xxh64 hleaves hrange
  exact ⟨sst, by rw [extractLeafNodesFromAvl_eq]; exact hsst, hl⟩

/-- The value of a key in the SST of a memtable. -/
theorem Layout.lookupValue_entries {root : Node}
    (hl : Layout xxh64 (chunks maxKeys (AVLTree.entries root)) sst)
    (hs : SortedBy Entry.key (AVLTree.entries root)) (key : Uint32) :
    lookupValue xxh64 sst key = valueIn (AVLTree.entries root) key := by
  rw [hl.lookupValue_eq (.of_chunks hs), flatten_chunks maxKeys_pos]

/-- The SST of a memtable can be written, and a lookup in it through a pool with
current pages returns the memtable's value exactly when the pool serves the pages
that the lookup asks for. -/
theorem searchValueByKey_iff_serve (xxh64 : XXH64) (path : String) {root : Node}
    (hne : root ≠ .null) (hs : SortedBy Entry.key (AVLTree.entries root))
    (hrange : getTotalNumberOfNodes (extractLeafNodesFromAvl root []).length < 524288) :
    ∃ sst, constructInternalNodesAndWriteToFile xxh64 (extractLeafNodesFromAvl root []) = .ok sst ∧
      ∀ (key : Uint32) (pool : BufferPool PageData), Coherent xxh64.page (PageOf path sst) pool →
        ((∃ pool', searchValueByKey xxh64 key path sst pool =
          .ok (valueIn (AVLTree.entries root) key, pool')) ↔
        ∃ pool', pool.serve xxh64.page (pagesAsked xxh64 path sst key) = .ok pool') := by
  obtain ⟨sst, hsst, hl⟩ := exists_flush xxh64 hne hrange
  refine ⟨sst, hsst, fun key pool hc => ?_⟩
  rw [searchValueByKey_eq_serve hl (pageOf_backs path sst) hc key, hl.lookupValue_entries hs]
  exact exists_map_pair

/-- As long as its list is intact, a pool with current pages serves every lookup, and is
such a pool afterwards. -/
theorem searchValueByKey_steady (xxh64 : XXH64) (path : String) {root : Node} (hne : root ≠ .null)
    (hs : SortedBy Entry.key (AVLTree.entries root))
    (hrange : getTotalNumberOfNodes (extractLeafNodesFromAvl root []).length < 524288) :
    ∃ sst, constructInternalNodesAndWriteToFile xxh64 (extractLeafNodesFromAvl root []) = .ok sst ∧
      ∀ (key : Uint32) (pool : BufferPool PageData), Coherent xxh64.page (PageOf path sst) pool →
        Steady xxh64.page pool → ∃ pool', searchValueByKey xxh64 key path sst pool =
            .ok (valueIn (AVLTree.entries root) key, pool') ∧
          Coherent xxh64.page (PageOf path sst) pool' ∧ Steady xxh64.page pool' := by
  obtain ⟨sst, hsst, hl⟩ := exists_flush xxh64 hne hrange
  refine ⟨sst, hsst, fun key pool hc hsteady => ?_⟩
  have hserves := @poolSource_serves xxh64 path sst _ (pageOf_backs path sst)
  obtain ⟨pool', hr, hinv⟩ := hl.search_serves hserves ⟨hc, hsteady⟩ key
  rw [hl.lookupValue_entries hs] at hr
  exact ⟨pool', hr, hinv⟩

/-- Three entries, one of them deleted. -/
def threeEntries : Node := .node 5 4294967294 2 (.node 3 1 1 .null .null) (.node 8 9 1 .null .null)

/-- The pool holds pages of a lookup of key 8 when key 5 is looked up. -/
theorem searchValueByKey_iff_serve_used : ∃ sst pool pool',
    constructInternalNodesAndWriteToFile ⟨fun _ => 0, fun _ _ => 0⟩
      (extractLeafNodesFromAvl threeEntries []) = .ok sst ∧
    searchValueByKey ⟨fun _ => 0, fun _ _ => 0⟩ 8 "a" sst (BufferPool.new 1 2) = .ok (9, pool) ∧
    searchValueByKey ⟨fun _ => 0, fun _ _ => 0⟩ 5 "a" sst pool = .ok (4294967294, pool') := by
  have hs : SortedBy Entry.key (AVLTree.entries threeEntries) := by unfold SortedBy; decide
  obtain ⟨sst, hsst, h⟩ := searchValueByKey_iff_serve ⟨fun _ => 0, fun _ _ => 0⟩ "a"
    (Node.noConfusion : threeEntries ≠ .null) hs (by decide)
  obtain ⟨sst', hsst', hsteady⟩ := searchValueByKey_steady ⟨fun _ => 0, fun _ _ => 0⟩ "a"
    (Node.noConfusion : threeEntries ≠ .null) hs (by decide)
  obtain rfl : sst = sst' := Except.ok.inj (hsst.symm.trans hsst')
  obtain ⟨pool, h8, hc, hp⟩ := hsteady 8 (.new 1 2) (.new (by norm_num) (by norm_num))
    (.new (by norm_num) (by norm_num))
  obtain ⟨pool₁, hserve, -⟩ := hp.serve (pagesAsked ⟨fun _ => 0, fun _ _ => 0⟩ "a" sst 5)
  obtain ⟨pool', h5⟩ := (h 5 pool hc).mpr ⟨pool₁, hserve⟩
  exact ⟨sst, pool, pool', hsst, h8, h5⟩

/-! ### A pool that does not serve -/

namespace LostFront

def hashes : XXH64 := ⟨fun _ => 0, fun _ _ => 0⟩

def root : Node := .node 5 7 1 .null .null

def file : File := okOr .empty
  (constructInternalNodesAndWriteToFile hashes (extractLeafNodesFromAvl root []))

def nodePage (offset : ℕ) : String × PageData :=
  (Page.generatePageId "a" offset, .node (nodeAt file.page offset))

/-- The root page is asked for, which brings it to the front, and then removed. -/
def build : Outcome (BufferPool PageData) := do
  let pool ← (BufferPool.new 1 2).serve hashes.page [nodePage 1, nodePage 2, nodePage 1]
  pool.remove hashes.page (nodePage 1).1

def lost : BufferPool PageData := okOr (.new 1 2) build

theorem lost_coherent : Coherent hashes.page (PageOf "a" file) lost := by
  have hbuild : build = .ok lost := eq_ok_okOr _ (by decide)
  obtain ⟨pool, hs, hr⟩ := bind_eq_ok.mp hbuild
  have hnew : Coherent hashes.page (PageOf "a" file) (BufferPool.new 1 2) :=
    .new (by norm_num) (by norm_num)
  have hpage : ∀ o, 1 ≤ o → o ≤ 2 → PageOf "a" file (nodePage o).1 (nodePage o).2 := by
    intro o h1 h2
    refine ⟨o, rfl, ?_⟩
    interval_cases o <;> decide
  have hp := hnew.serve (by simp [hpage]) hs
  exact (hp.remove hr).mono fun _ _ hd => hd.2

end LostFront

/-- A pool that has lost its front page to a removal holds current pages only, and
fails when it has to evict for the second time. -/
theorem not_searchValueByKey_remove : ¬ ∀ (xxh64 : XXH64) (path : String) (root : Node)
    (sst : File) (key : Uint32) (pool : BufferPool PageData), root ≠ .null →
    SortedBy Entry.key (AVLTree.entries root) →
    getTotalNumberOfNodes (extractLeafNodesFromAvl root []).length < 524288 →
    constructInternalNodesAndWriteToFile xxh64 (extractLeafNodesFromAvl root []) = .ok sst →
    Coherent xxh64.page (PageOf path sst) pool →
    ∃ pool', searchValueByKey xxh64 key path sst pool =
      .ok (valueIn (AVLTree.entries root) key, pool') := by
  intro h
  have hfile : constructInternalNodesAndWriteToFile LostFront.hashes
      (extractLeafNodesFromAvl LostFront.root []) = .ok LostFront.file :=
    eq_ok_okOr _ (by decide)
  obtain ⟨pool', hv⟩ := h LostFront.hashes "a" LostFront.root LostFront.file 5 LostFront.lost
    Node.noConfusion (List.pairwise_singleton _ _) (by decide) hfile LostFront.lost_coherent
  have hnull : (searchValueByKey LostFront.hashes 5 "a" LostFront.file LostFront.lost).map
      Prod.fst = .error .nullDereference := by decide
  rw [hv] at hnull
  cases hnull

end BTreeNode

end MiniKvs
