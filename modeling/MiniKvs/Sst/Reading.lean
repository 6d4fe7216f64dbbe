import MiniKvs.Sst.Lookup

/-! Lookups and scans of a whole file. Whatever serves the pages, both return
what the list of entries says, or the fault of one of the fetches they make. -/

namespace MiniKvs

open Lib

/-- The value of a key in a sorted list, the invalid value when it is not there. -/
def valueIn (es : List Entry) (key : Uint32) : Uint32 :=
  ((findKey Entry.key es key).map Entry.value).getD Utils.invalidValue

/-- The entries with keys in a closed range. -/
def entriesIn (startKey endKey : Uint32) (es : List Entry) : List Entry :=
  es.filter fun e => startKey ≤ e.key ∧ e.key ≤ endKey

namespace BTreeNode

/-- A source that reads the pages of the file and does not fail. -/
structure Serves {σ : Type} (source : Source σ) (page : ℕ → Option PageData) (Inv : σ → Prop) :
    Prop extends Reads source page Inv where
  filter_ok : ∀ s f, Inv s → page 0 = some (.filter f) → ∃ x, source.filter s = .ok x
  node_ok : ∀ offset s n, Inv s → offset < 524288 → page offset = some (.node n) →
    ∃ x, source.node offset s = .ok x

/-- The page is a node within the int range. -/
def IsNode (page : ℕ → Option PageData) (offset : ℕ) : Prop :=
  page offset = some (.node (nodeAt page offset)) ∧ offset < 524288

variable {σ : Type} {source : Source σ} {page : ℕ → Option PageData} {Inv : σ → Prop}
  {offsets : List ℕ} {s s' : σ}

theorem Reads.visit (hr : Reads source page Inv) (ho : ∀ o ∈ offsets, IsNode page o) (hi : Inv s)
    (hv : visit source offsets s = .ok s') : Inv s' := by
  induction offsets generalizing s with
  | nil => cases hv; exact hi
  | cons o offsets ih =>
    obtain ⟨x, hx, hv⟩ := bind_eq_ok.mp hv
    have hi' := (hr.node o s _ x.1 x.2 hi (ho o (by simp)).1 hx).2
    exact ih (fun o' h' => ho o' (List.mem_cons_of_mem _ h')) hi' hv

theorem Serves.visit (hs : Serves source page Inv) (ho : ∀ o ∈ offsets, IsNode page o)
    (hi : Inv s) : ∃ s', visit source offsets s = .ok s' ∧ Inv s' := by
  induction offsets generalizing s with
  | nil => exact ⟨s, rfl, hi⟩
  | cons o offsets ih =>
    obtain ⟨hp, hlt⟩ := ho o (by simp)
    obtain ⟨x, hx⟩ := hs.node_ok o s _ hi hlt hp
    have hi' := (hs.node o s _ x.1 x.2 hi hp hx).2
    obtain ⟨s', hv, hi''⟩ := ih (fun o' h' => ho o' (List.mem_cons_of_mem _ h')) hi'
    exact ⟨s', by rw [BTreeNode.visit, hx]; exact hv, hi''⟩

theorem visit_append (a b : List ℕ) (s : σ) :
    visit source (a ++ b) s = visit source a s >>= visit source b := by
  induction a generalizing s with
  | nil => rfl
  | cons o a ih =>
    simp only [List.cons_append, visit]
    cases source.node o s with
    | error e => rfl
    | ok x => exact ih x.2

/-- The file itself serves its pages. -/
theorem fileSource_serves (sst : File) : Serves (fileSource sst) sst.page fun _ => True where
  filter s f f' s' _ hp h := by
    rw [fileSource, File.readFilter, hp] at h
    cases h
    exact ⟨rfl, trivial⟩
  node offset s n n' s' _ hp h := by
    simp only [fileSource, File.readNode, hp] at h
    cases hpos : File.position offset with
    | error e => rw [hpos] at h; cases h
    | ok p => rw [hpos] at h; cases h; exact ⟨rfl, trivial⟩
  filter_ok s f _ hp := ⟨(f, ()), by rw [fileSource, File.readFilter, hp]; rfl⟩
  node_ok offset s n _ hlt hp :=
    ⟨(n, ()), by simp only [fileSource, File.readNode_of_page hlt hp]; rfl⟩

/-! ### The nodes of a file -/

variable {xxh64 : XXH64} {leaves : List (List Entry)} {file : File}

theorem Subtree.height_le {total h off i n : ℕ} (hs : Subtree leaves total page h off i n) :
    off + h ≤ total := by
  induction h generalizing off i n with
  | zero => have := hs.2.1; omega
  | succ h ih =>
    obtain ⟨-, cs, hne, -, -, hcs⟩ := hs
    obtain ⟨c, cs, rfl⟩ := List.exists_cons_of_ne_nil hne
    obtain ⟨hlt, hc⟩ := hcs c (by simp)
    have := ih hc
    omega

namespace Layout

theorem numPages (hl : Layout xxh64 leaves file) :
    file.numPages = getTotalNumberOfNodes leaves.length + 1 := by
  rw [File.numPages, hl.size, Utils.pageSize]; omega

theorem length_pos (hl : Layout xxh64 leaves file) : 0 < leaves.length := by
  obtain ⟨h, -, cs, hne, hcon, -⟩ := hl.tree
  simpa using hcon.lt hne

theorem isNode (hl : Layout xxh64 leaves file) {o : ℕ} (h0 : 0 < o)
    (hle : o ≤ getTotalNumberOfNodes leaves.length) : IsNode file.page o := by
  have hlt := hl.total_lt
  have htotal := getTotalNumberOfNodes_eq leaves.length
  refine ⟨?_, by omega⟩
  rcases Nat.lt_or_ge (internalNodes leaves.length) o with ho | ho
  · have hi : getTotalNumberOfNodes leaves.length - o < leaves.length := by omega
    have hleaf := hl.leaf _ _ (List.getElem?_eq_getElem hi)
    rw [show getTotalNumberOfNodes leaves.length - (getTotalNumberOfNodes leaves.length - o) = o
      by omega] at hleaf
    rw [nodeAt_of_page hleaf, hleaf]
  · obtain ⟨node, hp, -⟩ := hl.inner o h0 ho
    rw [nodeAt_of_page hp, hp]

/-- All pages lie below the end of the file. -/
theorem lt_numPages (hl : Layout xxh64 leaves file) {o : ℕ} {d : PageData}
    (hp : file.page o = some d) : o < file.numPages := by
  rw [hl.numPages]
  by_contra hc
  rw [hl.beyond o (by omega)] at hp
  cases hp

end Layout

/-! ### Lookup -/

/-- The nodes that a lookup fetches after the filter. -/
def lookupPages (xxh64 : XXH64) (file : File) (key : Uint32) : List ℕ :=
  match file.page 0 with
  | some (.filter filter) =>
    if filter.get xxh64 key then (locate file.page key file.numPages 1).1 else []
  | _ => []

theorem Layout.mem_locate (hl : Layout xxh64 leaves file) {key : Uint32} {o fuel : ℕ}
    (ho : o ∈ (locate file.page key fuel 1).1) : IsNode file.page o := by
  obtain ⟨h, hs⟩ := hl.tree
  obtain ⟨_, _, _, hsub⟩ := hs.mem_locate ho
  exact hsub.node

theorem Layout.isNode_lookupPages (hl : Layout xxh64 leaves file) (key : Uint32) :
    ∀ o ∈ lookupPages xxh64 file key, IsNode file.page o := by
  intro o ho
  rw [lookupPages, hl.filter] at ho
  simp only at ho
  split_ifs at ho
  · exact hl.mem_locate ho
  · cases ho

/-- What a lookup in the file returns. -/
def lookupValue (xxh64 : XXH64) (file : File) (key : Uint32) : Uint32 :=
  match file.page 0 with
  | some (.filter filter) =>
    if filter.get xxh64 key then
      valueAt file.page key (locate file.page key file.numPages 1).2
    else Utils.invalidValue
  | _ => Utils.invalidValue

theorem Layout.exists_subtree (hl : Layout xxh64 leaves file) :
    ∃ h, h + 1 < file.numPages ∧ Subtree leaves (getTotalNumberOfNodes leaves.length) file.page
      (h + 1) 1 0 leaves.length := by
  obtain ⟨h, hs⟩ := hl.tree
  have hle := hs.height_le
  exact ⟨h, by rw [hl.numPages]; omega, hs⟩

/-- A lookup is its fetches, with the value that the file gives. -/
theorem Layout.search_eq (hl : Layout xxh64 leaves file) (hr : Reads source file.page Inv)
    (hi : Inv s) (key : Uint32) : search source xxh64 key file.numPages s = (do
      let (_, s) ← source.filter s
      let s ← visit source (lookupPages xxh64 file key) s
      .ok (lookupValue xxh64 file key, s)) := by
  have hfilter := hl.filter
  rw [search]
  cases hf : source.filter s with
  | error e => rfl
  | ok x =>
    obtain ⟨hx, hi'⟩ := hr.filter s _ x.1 x.2 hi hfilter hf
    simp only [ok_bind, lookupPages, lookupValue, hfilter, hx]
    split_ifs with hg
    · obtain ⟨h, hfuel, hs⟩ := hl.exists_subtree
      rw [searchNode_eq_descend, descend_eq_visit hr hs hfuel hi']
      cases visit source (locate file.page key file.numPages 1).1 x.2 with
      | error e => rfl
      | ok s' =>
        simp only [Except.map, ok_bind]
        cases (locate file.page key file.numPages 1).2 <;> rfl
    · rfl

/-- A key that is there passes the filter. -/
theorem filterOf_get {e : Entry} (he : e ∈ leaves.flatten) :
    (filterOf xxh64 (leaves.map leafOf)).get xxh64 e.key = true := by
  obtain ⟨es, hes, he⟩ := List.mem_flatten.mp he
  have hpos := List.length_pos_iff.mpr (List.ne_nil_of_mem hes)
  apply BloomFilter.get_of_mem (by rwa [List.length_map])
  rw [List.mem_flatMap]
  refine ⟨leafOf es, List.mem_map_of_mem hes, ?_⟩
  obtain ⟨j, hj, rfl⟩ := List.getElem_of_mem he
  refine List.mem_map.mpr ⟨j, List.mem_range.mpr hj, ?_⟩
  rw [BTreeNode.entry, leafOf, List.getD_eq_getElem _ _ hj]

/-- In a sorted file the value is the one of the key's entry. -/
theorem Layout.lookupValue_eq (hl : Layout xxh64 leaves file) (ho : Ordered leaves)
    (key : Uint32) : lookupValue xxh64 file key = valueIn leaves.flatten key := by
  rw [lookupValue, hl.filter]
  simp only
  split_ifs with hg
  · obtain ⟨h, hfuel, hs⟩ := hl.exists_subtree
    rcases exists_leaf leaves key with ⟨m, hm⟩ | ha
    · have hlt := hm.lt
      have hleaf := hl.leaf m _ (List.getElem?_eq_getElem hlt)
      rw [hs.locate ho hm hfuel (Nat.zero_le _) (by omega) (by omega), valueAt,
        nodeAt_of_page hleaf, findValue_leafAt (ho.leaf hlt), valueIn, ho.findKey_flatten hlt hm]
    · rw [hs.locate_above ha (by omega), valueAt, valueIn, ho.findKey_eq_none_of_above ha]
      rfl
  · have hnone : findKey Entry.key leaves.flatten key = none := by
      rw [findKey_eq_none]
      rintro e he rfl
      exact hg (filterOf_get he)
    rw [valueIn, hnone]
    rfl

/-! ### Scan -/

theorem map_entry_leafAt (es : List Entry) (offset : ℕ) :
    (List.range (leafAt es offset).numKeys).map (leafAt es offset).entry = es := by
  apply List.ext_getElem
  · rw [List.length_map, List.length_range]; rfl
  · intro j h1 h2
    rw [List.getElem_map, List.getElem_range, entry_leafAt h2]

variable {startKey endKey : Uint32}

theorem entriesIn_append (a b : List Entry) :
    entriesIn startKey endKey (a ++ b) =
      entriesIn startKey endKey a ++ entriesIn startKey endKey b :=
  List.filter_append ..

theorem entriesIn_eq_nil {es : List Entry} (h : ∀ e ∈ es, e.key < startKey) :
    entriesIn startKey endKey es = [] := by
  refine List.filter_eq_nil_iff.mpr fun e he => ?_
  simp only [decide_eq_true_eq, not_and]
  exact fun hle => absurd (h e he) (not_lt.mpr hle)

theorem scanEntries_fst : ∀ {es : List Entry}, SortedBy Entry.key es →
    (scanEntries startKey endKey es).1 = entriesIn startKey endKey es
  | [], _ => rfl
  | e :: es, hs => by
    obtain ⟨hlt, hs'⟩ := sortedBy_cons.mp hs
    have ih := scanEntries_fst hs'
    rw [scanEntries, entriesIn, List.filter_cons]
    simp only [decide_eq_true_eq]
    rcases lt_or_ge e.key startKey with h1 | h1
    · rw [if_pos h1, if_neg fun h => absurd h.1 (not_le.mpr h1)]
      exact ih
    rcases lt_or_ge endKey e.key with h2 | h2
    · rw [if_neg (not_lt.mpr h1), if_pos h2, if_neg fun h => absurd h.2 (not_le.mpr h2)]
      -- the rest is out of range too
      refine (List.filter_eq_nil_iff.mpr fun a ha => ?_).symm
      have hlt := h2.trans (hlt a ha)
      simp only [decide_eq_true_eq, not_and, not_le]
      exact fun _ => hlt
    · rw [if_neg (not_lt.mpr h1), if_neg (not_lt.mpr h2), if_pos ⟨h1, h2⟩]
      exact congrArg (e :: ·) ih

theorem scanEntries_snd : ∀ {es : List Entry}, (scanEntries startKey endKey es).2 = true →
    ∃ e ∈ es, endKey < e.key
  | [], h => by cases h
  | e :: es, h => by
    simp only [scanEntries] at h
    split_ifs at h with h1 h2
    · obtain ⟨a, ha, hk⟩ := scanEntries_snd h
      exact ⟨a, List.mem_cons_of_mem _ ha, hk⟩
    · exact ⟨e, List.mem_cons_self, h2⟩
    · obtain ⟨a, ha, hk⟩ := scanEntries_snd h
      exact ⟨a, List.mem_cons_of_mem _ ha, hk⟩

/-- The pages fetched behind the leaf in page `offset`, and the pairs found from it on. -/
def leafWalk (startKey endKey : Uint32) : List (List Entry) → ℕ → List ℕ × List Entry
  | [], _ => ([], [])
  | es :: ls, offset =>
    let (found, stop) := scanEntries startKey endKey es
    if stop then ([], found)
    else
      let (offsets, rest) := leafWalk startKey endKey ls (offset - 1)
      ((offset - 1) :: offsets, found ++ rest)

theorem leafWalk_snd : ∀ {ls : List (List Entry)} (offset : ℕ), SortedBy Entry.key ls.flatten →
    (leafWalk startKey endKey ls offset).2 = entriesIn startKey endKey ls.flatten
  | [], _, _ => rfl
  | es :: ls, offset, hs => by
    rw [List.flatten_cons] at hs ⊢
    obtain ⟨hes, hls, hlt⟩ := sortedBy_append.mp hs
    have hfound := @scanEntries_fst startKey endKey es hes
    rw [entriesIn_append, ← hfound]
    simp only [leafWalk]
    split_ifs with hstop
    · obtain ⟨e, he, hk⟩ := scanEntries_snd hstop
      have hnil : entriesIn startKey endKey ls.flatten = [] := by
        refine List.filter_eq_nil_iff.mpr fun a ha => ?_
        have := hk.trans (hlt e he a ha)
        simp only [decide_eq_true_eq, not_and, not_le]
        exact fun _ => this
      simp only [hnil, List.append_nil]
    · simp only [leafWalk_snd (offset - 1) hls]

theorem mem_leafWalk : ∀ {ls : List (List Entry)} {offset o : ℕ},
    o ∈ (leafWalk startKey endKey ls offset).1 → offset - ls.length ≤ o ∧ o ≤ offset
  | [], _, _, h => by cases h
  | es :: ls, offset, o, h => by
    simp only [leafWalk] at h
    split_ifs at h
    · cases h
    · rw [List.length_cons]
      rcases List.mem_cons.mp h with rfl | h
      · omega
      · have := mem_leafWalk h
        omega

/-- The walk over the leaves from leaf `i` on is its fetches. -/
theorem Layout.scanLeaves_eq (hl : Layout xxh64 leaves file) (hr : Reads source file.page Inv) :
    ∀ (ls : List (List Entry)) {fuel i : ℕ} {s : σ} (result : List Entry), leaves.drop i = ls →
      i ≤ leaves.length → ls.length < fuel → Inv s →
      scanLeaves source startKey endKey fuel (getTotalNumberOfNodes leaves.length - i)
        (nodeAt file.page (getTotalNumberOfNodes leaves.length - i)) result s =
      (visit source (leafWalk startKey endKey ls
        (getTotalNumberOfNodes leaves.length - i)).1 s).map fun s =>
          (result ++
            (leafWalk startKey endKey ls (getTotalNumberOfNodes leaves.length - i)).2, s) := by
  have htotal := getTotalNumberOfNodes_eq leaves.length
  intro ls
  induction ls with
  | nil =>
    intro fuel i s result hd hi hf _
    obtain ⟨fuel, rfl⟩ : ∃ f, fuel = f + 1 := ⟨fuel - 1, by omega⟩
    have hi' : i = leaves.length := by
      have := List.drop_eq_nil_iff.mp hd
      omega
    have hint := internalNodes_pos hl.length_pos
    obtain ⟨node, hp, hleaf⟩ := hl.inner (getTotalNumberOfNodes leaves.length - i) (by omega)
      (by omega)
    rw [nodeAt_of_page hp, scanLeaves, if_neg (by rw [hleaf]; exact Bool.false_ne_true)]
    simp only [leafWalk, visit, Except.map, List.append_nil]
  | cons es ls ih =>
    intro fuel i s result hd hi hf hinv
    obtain ⟨fuel, rfl⟩ : ∃ f, fuel = f + 1 := ⟨fuel - 1, by omega⟩
    have hlt : i < leaves.length := by
      by_contra hc
      rw [List.drop_eq_nil_iff.mpr (not_lt.mp hc)] at hd
      cases hd
    rw [List.drop_eq_getElem_cons hlt, List.cons.injEq] at hd
    have hint := internalNodes_pos hl.length_pos
    have hp := hl.leaf i _ (List.getElem?_eq_getElem hlt)
    rw [hd.1] at hp
    have hisLeaf : ∀ o, (leafAt es o).isLeaf = true := fun _ => rfl
    simp only [nodeAt_of_page hp, scanLeaves, hisLeaf, if_true, map_entry_leafAt, leafWalk]
    split_ifs with hstop
    · rfl
    · have hnext := hl.isNode (o := getTotalNumberOfNodes leaves.length - i - 1) (by omega)
        (by omega)
      simp only [visit]
      cases hn : source.node (getTotalNumberOfNodes leaves.length - i - 1) s with
      | error e => rfl
      | ok x =>
        obtain ⟨hx, hinv'⟩ := hr.node _ s _ x.1 x.2 hinv hnext.1 hn
        have hrest := @ih fuel (i + 1) x.2
          (result ++ (scanEntries startKey endKey es).1) hd.2 hlt (by simpa using hf) hinv'
        rw [← Nat.sub_sub] at hrest
        simp only [ok_bind, hx, hrest, List.append_assoc]

/-- The leaves before that of the first key of the range have nothing in range. -/
theorem Ordered.entriesIn_drop (ho : Ordered leaves) {m : ℕ} (hm : IsLeafOf leaves startKey m) :
    entriesIn startKey endKey (leaves.drop m).flatten =
      entriesIn startKey endKey leaves.flatten := by
  have hlt := hm.lt
  have hpre : entriesIn startKey endKey (leaves.take m).flatten = [] := by
    apply entriesIn_eq_nil
    intro e he
    obtain ⟨es, hes, he⟩ := List.mem_flatten.mp he
    obtain ⟨j, hj, rfl⟩ := List.getElem_of_mem hes
    rw [List.length_take] at hj
    rw [List.getElem_take] at he
    exact (ho.le_lastKeyAt (by omega) he).trans_lt (hm.before j (by omega))
  conv_rhs => rw [← List.take_append_drop m leaves, List.flatten_append, entriesIn_append]
  rw [hpre, List.nil_append]

theorem Ordered.entriesIn_of_above (ho : Ordered leaves)
    (ha : ∀ i < leaves.length, lastKeyAt leaves i < startKey) :
    entriesIn startKey endKey leaves.flatten = [] := by
  apply entriesIn_eq_nil
  intro e he
  obtain ⟨es, hes, he⟩ := List.mem_flatten.mp he
  obtain ⟨j, hj, rfl⟩ := List.getElem_of_mem hes
  exact (ho.le_lastKeyAt hj he).trans_lt (ha j hj)

/-- A scan is its fetches; they and its result depend on the file alone, and in a
sorted file the result is what lies in range. -/
theorem Layout.scanFrom_eq (hl : Layout xxh64 leaves file) (startKey endKey : Uint32) :
    ∃ offsets result, (∀ o ∈ offsets, IsNode file.page o) ∧
      (Ordered leaves → result = entriesIn startKey endKey leaves.flatten) ∧
      ∀ {σ : Type} {source : Source σ} {Inv : σ → Prop} {s : σ}, Reads source file.page Inv →
        Inv s → scanFrom source startKey endKey file.numPages s =
          (visit source offsets s).map fun s => (result, s) := by
  obtain ⟨h, hfuel, hs⟩ := hl.exists_subtree
  have htotal := getTotalNumberOfNodes_eq leaves.length
  have hint := internalNodes_pos hl.length_pos
  cases hloc : (locate file.page startKey file.numPages 1).2 with
  | none =>
    refine ⟨(locate file.page startKey file.numPages 1).1, [], fun o ho => hl.mem_locate ho,
      fun ho => ?_, fun {σ source Inv s} hr hi => ?_⟩
    · rcases exists_leaf leaves startKey with ⟨m, hm⟩ | ha
      · have hlt := hm.lt
        rw [hs.locate ho hm hfuel (Nat.zero_le _) (by omega) (by omega)] at hloc
        cases hloc
      · exact (ho.entriesIn_of_above ha).symm
    · rw [scanFrom, descend_eq_visit hr hs hfuel hi]
      cases visit source (locate file.page startKey file.numPages 1).1 s with
      | error e => rfl
      | ok s' => simp only [Except.map, ok_bind, hloc, Option.map_none]
  | some o =>
    obtain ⟨m, hlt, rfl⟩ := hs.locate_some hloc
    refine ⟨(locate file.page startKey file.numPages 1).1 ++ (leafWalk startKey endKey
        (leaves.drop m) (getTotalNumberOfNodes leaves.length - m)).1,
      (leafWalk startKey endKey (leaves.drop m) (getTotalNumberOfNodes leaves.length - m)).2,
      fun o ho => ?_, fun ho => ?_, fun {σ source Inv s} hr hi => ?_⟩
    · rcases List.mem_append.mp ho with ho | ho
      · exact hl.mem_locate ho
      · have := mem_leafWalk ho
        rw [List.length_drop] at this
        exact hl.isNode (by omega) (by omega)
    · rcases exists_leaf leaves startKey with ⟨m', hm⟩ | ha
      · have hlt' := hm.lt
        rw [hs.locate ho hm hfuel (Nat.zero_le _) (by omega) (by omega), Option.some.injEq] at hloc
        obtain rfl : m' = m := by omega
        rw [leafWalk_snd _ (ho.sorted.sublist (List.drop_sublist m' leaves).flatten),
          ho.entriesIn_drop hm]
      · rw [hs.locate_above ha (by omega)] at hloc
        cases hloc
    · rw [scanFrom, descend_eq_visit hr hs hfuel hi, visit_append]
      cases hv : visit source (locate file.page startKey file.numPages 1).1 s with
      | error e => rfl
      | ok s' =>
        have hi' := hr.visit (fun o hmem => hl.mem_locate hmem) hi hv
        simp only [Except.map, ok_bind, hloc, Option.map_some]
        rw [hl.scanLeaves_eq hr _ [] rfl hlt.le (by rw [List.length_drop, hl.numPages]; omega) hi']
        rfl

/-! ### Results -/

/-- What a scan of the file returns. -/
def scanValue (file : File) (startKey endKey : Uint32) : List Entry :=
  okOr [] ((scanFrom (fileSource file) startKey endKey file.numPages ()).map Prod.fst)

namespace Layout

/-- A lookup that does not fail returns what the file says. -/
theorem search_ok (hl : Layout xxh64 leaves file) (hr : Reads source file.page Inv) (hi : Inv s)
    {key value : Uint32} (h : search source xxh64 key file.numPages s = .ok (value, s')) :
    value = lookupValue xxh64 file key ∧ Inv s' := by
  rw [hl.search_eq hr hi] at h
  obtain ⟨x, hx, h⟩ := bind_eq_ok.mp h
  obtain ⟨s₁, hv, h⟩ := bind_eq_ok.mp h
  cases h
  have hi' := (hr.filter s _ x.1 x.2 hi hl.filter hx).2
  exact ⟨rfl, hr.visit (hl.isNode_lookupPages key) hi' hv⟩

/-- A source that serves all pages lets lookups succeed. -/
theorem search_serves (hl : Layout xxh64 leaves file) (hs : Serves source file.page Inv)
    (hi : Inv s) (key : Uint32) :
    ∃ s', search source xxh64 key file.numPages s = .ok (lookupValue xxh64 file key, s') ∧
      Inv s' := by
  obtain ⟨x, hx⟩ := hs.filter_ok s _ hi hl.filter
  have hi' := (hs.filter s _ x.1 x.2 hi hl.filter hx).2
  obtain ⟨s', hv, hi''⟩ := hs.visit (hl.isNode_lookupPages key) hi'
  refine ⟨s', ?_, hi''⟩
  rw [hl.search_eq hs.toReads hi, hx]
  simp only [ok_bind, hv]

theorem scanValue_eq (hl : Layout xxh64 leaves file) (ho : Ordered leaves)
    (startKey endKey : Uint32) :
    scanValue file startKey endKey = entriesIn startKey endKey leaves.flatten := by
  obtain ⟨offsets, result, hnode, hsorted, heq⟩ := hl.scanFrom_eq startKey endKey
  have hserve := fileSource_serves file
  obtain ⟨s', hv, -⟩ := hserve.visit hnode trivial
  rw [scanValue, heq hserve.toReads trivial, hv, ← hsorted ho]
  rfl

theorem scanFrom_ok (hl : Layout xxh64 leaves file) (hr : Reads source file.page Inv) (hi : Inv s)
    {startKey endKey : Uint32} {result : List Entry}
    (h : scanFrom source startKey endKey file.numPages s = .ok (result, s')) :
    result = scanValue file startKey endKey ∧ Inv s' := by
  obtain ⟨offsets, result', hnode, -, heq⟩ := hl.scanFrom_eq startKey endKey
  have hserve := fileSource_serves file
  obtain ⟨u, hu, -⟩ := hserve.visit hnode trivial
  rw [heq hr hi] at h
  cases hv : visit source offsets s with
  | error e => rw [hv] at h; cases h
  | ok s₁ =>
    rw [hv] at h
    cases h
    refine ⟨?_, hr.visit hnode hi hv⟩
    rw [scanValue, heq hserve.toReads trivial, hu]
    rfl

theorem scanFrom_serves (hl : Layout xxh64 leaves file) (hs : Serves source file.page Inv)
    (hi : Inv s) (startKey endKey : Uint32) :
    ∃ s', scanFrom source startKey endKey file.numPages s =
      .ok (scanValue file startKey endKey, s') ∧ Inv s' := by
  obtain ⟨offsets, result, hnode, -, heq⟩ := hl.scanFrom_eq startKey endKey
  obtain ⟨s', hv, hi'⟩ := hs.visit hnode hi
  have hok : scanFrom source startKey endKey file.numPages s = .ok (result, s') := by
    rw [heq hs.toReads hi, hv]; rfl
  exact ⟨s', by rw [hok, (hl.scanFrom_ok hs.toReads hi hok).1], hi'⟩

end Layout

end BTreeNode

end MiniKvs
