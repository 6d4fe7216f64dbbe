import MiniKvs.Sst.Layout

/-! Flush and merge build the same file. Both hand a list of leaves to the same
levels; the flush cuts the entries of the tree into leaves, the merge cuts what
two cursors yield, and for two maps that is their union. -/

namespace MiniKvs

open Lib

/-- The SST file of a list of entries. -/
def sstOf (xxh64 : XXH64) (es : List Entry) : Outcome File :=
  BTreeNode.constructInternalNodesAndWriteToFile xxh64
    ((chunks BTreeNode.maxKeys es).map BTreeNode.leafOf)

namespace BTreeNode

theorem maxKeys_pos : 0 < maxKeys := by decide

/-! ### Flush -/

theorem extract_eq_foldl (node : Node) (leafNodes : List BTreeNode) :
    extractLeafNodesFromAvl node leafNodes = (AVLTree.entries node).foldl pushEntry leafNodes := by
  induction node generalizing leafNodes with
  | null => rfl
  | node key value height left right ihl ihr =>
    rw [extractLeafNodesFromAvl, ihr, ihl, AVLTree.entries, List.foldl_append, List.foldl_cons]

theorem foldl_pushEntry : ∀ (es : List Entry) (full : List (List Entry)) (out : List Entry),
    out ≠ [] → out.length ≤ maxKeys →
    es.foldl pushEntry ((full ++ [out]).map leafOf) =
      (full ++ chunks maxKeys (out ++ es)).map leafOf
  | [], full, out, hne, hle => by
    rw [List.append_nil, chunks_of_length_le maxKeys_pos hne hle]; rfl
  | e :: es, full, out, hne, hle => by
    have hlast : ((full ++ [out]).map leafOf).getLast? = some (leafOf out) := by simp
    rw [List.foldl_cons, pushEntry, hlast]
    simp only
    by_cases hfull : out.length = maxKeys
    · rw [if_pos (show (leafOf out).numKeys = maxKeys from hfull),
        chunks_append_full maxKeys_pos hfull]
      have := foldl_pushEntry es (full ++ [out]) [e] (List.cons_ne_nil _ _) (by simp [maxKeys])
      simp only [List.map_append, List.map_cons, List.map_nil, List.append_assoc,
        List.cons_append, List.nil_append] at this ⊢
      exact this
    · rw [if_neg (show ¬ (leafOf out).numKeys = maxKeys from hfull)]
      have := foldl_pushEntry es full (out ++ [e]) (by simp) (by
        rw [List.length_append, List.length_singleton]; omega)
      rw [List.append_assoc, List.singleton_append] at this
      rw [← this]
      congr 1
      simp [leafOf, appendEntry]

theorem extractLeafNodesFromAvl_eq (node : Node) :
    extractLeafNodesFromAvl node [] = (chunks maxKeys (AVLTree.entries node)).map leafOf := by
  rw [extract_eq_foldl]
  cases AVLTree.entries node with
  | nil => rfl
  | cons e es => exact foldl_pushEntry es [] [e] (List.cons_ne_nil _ _) (by simp [maxKeys])

/-- The flush path builds the file of the tree's entries. -/
theorem flush_eq (xxh64 : XXH64) (node : Node) :
    constructInternalNodesAndWriteToFile xxh64 (extractLeafNodesFromAvl node []) =
      sstOf xxh64 (AVLTree.entries node) := by
  rw [extractLeafNodesFromAvl_eq, sstOf]

/-! ### The order in which filter and leaves are written -/

theorem writeLeafNodes_filter (d : PageData) :
    ∀ (nodes : List BTreeNode) (offset : ℕ) (file : File),
    nodes.length ≤ offset →
    (do
      let file ← file.write 0 d
      writeLeafNodes File.write nodes offset file) =
    (do
      let (nodes, file) ← writeLeafNodes File.write nodes offset file
      let file ← file.write 0 d
      .ok (nodes, file))
  | [], offset, file, _ => by
    simp only [writeLeafNodes, ok_bind]
  | node :: nodes, offset, file, hle => by
    rw [List.length_cons] at hle
    have h0 : ∀ f : File, f.write 0 d = .ok (f.put 0 d) := fun f => f.write_of_lt d (by norm_num)
    have ih := fun f => writeLeafNodes_filter d nodes (offset - 1) f (by omega)
    simp only [h0, ok_bind] at ih ⊢
    simp only [writeLeafNodes]
    rcases Nat.lt_or_ge offset 524288 with hlt | hge
    · simp only [File.write_of_lt _ _ hlt, ok_bind, File.put_comm _ _ _ (show 0 ≠ offset by omega),
        ih]
      cases writeLeafNodes File.write nodes (offset - 1)
        (file.put offset (.node { node with fileOffset := offset })) <;> rfl
    · simp only [File.write_of_ge _ _ hge, error_bind]

/-- A merge builds its file as a flush does, from the leaves of its temporary file. -/
theorem mergeSsts_eq_construct (xxh64 : XXH64) (oldSst newSst : File) (isLastLevel : Bool) :
    mergeSsts xxh64 oldSst newSst isLastLevel = (do
      let old ← Cursor.start oldSst
      let new ← Cursor.start newSst
      let temp ← mergeLeaves isLastLevel (mergeFuel oldSst + mergeFuel newSst + 1) old new [] []
      constructInternalNodesAndWriteToFile xxh64 temp) := by
  simp only [mergeSsts, writeMerge]
  congr 1; funext old
  congr 1; funext new
  congr 1; funext temp
  have hle : temp.length ≤ getTotalNumberOfNodes temp.length := by
    rw [getTotalNumberOfNodes_eq]; omega
  have hw := writeLeafNodes_filter (.filter (filterOf xxh64 temp)) temp _ File.empty hle
  have hlevels : ∀ (fuel : ℕ) (queue : List BTreeNode) (offset : ℕ) (file : File),
      buildLevels File.write id summary (getTotalNumberOfNodes temp.length) temp.length fuel
        (queue.map summary) offset file =
      buildLevels File.write summary id (getTotalNumberOfNodes temp.length) temp.length fuel
        queue offset file := by
    intro fuel queue offset file
    rw [buildLevels_map summary id]; rfl
  rw [constructInternalNodesAndWriteToFile, writeFlush]
  simp only [hlevels]
  have hassoc : ∀ {α β γ : Type} (x : Outcome α) (f : α → Outcome β) (g : β → Outcome γ),
      ((x >>= f) >>= g) = (x >>= fun a => f a >>= g) := by
    intro α β γ x f g
    cases x <;> rfl
  have hbind := congrArg (fun x => x >>= fun y : List BTreeNode × File =>
    buildLevels File.write summary id (getTotalNumberOfNodes temp.length) temp.length
      (temp.length + 1) y.1 (getTotalNumberOfNodes temp.length - temp.length) y.2) hw
  simp only [hassoc, ok_bind] at hbind
  exact hbind.symm

/-! ### What the cursors yield -/

/-- The entry a list starts with, the invalid entry when it has run out. -/
def headEntry : List Entry → Entry
  | [] => ⟨Utils.invalidValue, Utils.invalidValue⟩
  | e :: _ => e

@[simp] theorem headEntry_nil : headEntry [] = ⟨Utils.invalidValue, Utils.invalidValue⟩ := rfl

@[simp] theorem headEntry_cons (e : Entry) (l : List Entry) : headEntry (e :: l) = e := rfl

/-- What is left of a list when its first entry is used up, or not. -/
def after (taken : Bool) (l : List Entry) : List Entry := if taken then l.tail else l

theorem mem_of_mem_after {taken : Bool} {l : List Entry} {e : Entry} (h : e ∈ after taken l) :
    e ∈ l := by
  cases taken with
  | false => exact h
  | true => exact List.mem_of_mem_tail h

/-- The slots of a merge of two lists. -/
def mergeSlots (isLastLevel : Bool) : ℕ → List Entry → List Entry → Outcome (List Entry)
  | 0, _, _ => .error .noReturn
  | fuel + 1, old, new => do
    let (slot, takeOld, takeNew) := mergeEntry isLastLevel (headEntry old) (headEntry new)
    let old := after takeOld old
    let new := after takeNew new
    if old.length + new.length = 0 then .ok [slot]
    else do
      let slots ← mergeSlots isLastLevel fuel old new
      .ok (slot :: slots)

/-- The cursor stands in leaf `i` of the file; `rest` is what it has still to yield. -/
structure Cursor.At (leaves : List (List Entry)) (c : Cursor) (rest : List Entry) : Prop where
  layout : ∃ xxh64, Layout xxh64 leaves c.sst
  leaf : ∃ i es, leaves[i]? = some es ∧ c.offset = getTotalNumberOfNodes leaves.length - i ∧
    c.node = leafAt es c.offset ∧ rest = es.drop c.index ++ (leaves.drop (i + 1)).flatten ∧
    (c.index < es.length ∨ i + 1 = leaves.length)
  minOffset : c.minOffset = getTotalNumberOfNodes leaves.length - leaves.length + 1

variable {leaves : List (List Entry)} {c : Cursor} {rest : List Entry}

theorem Cursor.At.exhausted (h : c.At leaves rest) : c.exhausted = rest.isEmpty := by
  obtain ⟨i, es, hes, -, hnode, hrest, hlast⟩ := h.leaf
  have hk : c.node.numKeys = es.length := by rw [hnode]; rfl
  rw [Cursor.exhausted, hk, hrest]
  by_cases hi : es.length ≤ c.index
  · have hl : i + 1 = leaves.length := hlast.resolve_left (by omega)
    simp [hi, hl]
  · have : es.drop c.index ≠ [] := by
      rw [Ne, List.drop_eq_nil_iff]; exact hi
    simp [hi]

theorem Cursor.At.entry (h : c.At leaves rest) : c.entry = headEntry rest := by
  have he := h.exhausted
  obtain ⟨i, es, hes, -, hnode, hrest, hlast⟩ := h.leaf
  rw [Cursor.entry, he]
  cases rest with
  | nil => rfl
  | cons e rest =>
    have hidx : c.index < es.length := by
      by_contra hc
      rw [List.drop_of_length_le (not_lt.mp hc), hlast.resolve_left hc] at hrest
      simp at hrest
    rw [List.drop_eq_getElem_cons hidx, List.cons_append, List.cons.injEq] at hrest
    rw [hnode, BTreeNode.entry, headEntry, hrest.1]
    simp only [List.isEmpty_cons, Bool.false_eq_true, if_false, leafAt, leafOf]
    exact List.getD_eq_getElem _ _ hidx

theorem leaves_length_pos {i : ℕ} {es : List Entry} (h : leaves[i]? = some es) :
    i < leaves.length := by
  by_contra hc
  rw [List.getElem?_eq_none (not_lt.mp hc)] at h
  cases h

/-- Taking an entry, or none, of a file whose leaves are not empty. -/
theorem Cursor.At.advance (h : c.At leaves rest) (hne : ∀ es ∈ leaves, es ≠ []) (taken : Bool) :
    ∃ c', c.advance taken = .ok c' ∧ c'.At leaves (after taken rest) := by
  obtain ⟨xxh64, hl⟩ := h.layout
  obtain ⟨i, es, hes, hoff, hnode, hrest, hlast⟩ := h.leaf
  have hi := leaves_length_pos hes
  have htotal := getTotalNumberOfNodes_eq leaves.length
  have hlt := hl.total_lt
  have hmin := h.minOffset
  cases taken with
  | false =>
    have hstay : c.advance false = .ok c := by
      rw [Cursor.advance, if_neg Bool.false_ne_true, if_neg]
      rintro ⟨he, hgt⟩
      simp only [Cursor.exhausted, hnode, leafAt, leafOf, decide_eq_true_eq] at he
      have := hlast.resolve_left (by omega)
      omega
    exact ⟨c, hstay, h⟩
  | true =>
    have htail : after true rest = es.drop (c.index + 1) ++ (leaves.drop (i + 1)).flatten := by
      change rest.tail = _
      by_cases hc : c.index < es.length
      · rw [hrest, List.drop_eq_getElem_cons hc]; rfl
      · have h1 := hlast.resolve_left hc
        have h2 : es.drop c.index = [] := List.drop_of_length_le (not_lt.mp hc)
        have h3 : es.drop (c.index + 1) = [] := List.drop_of_length_le (by omega)
        rw [hrest, h1, h2, h3, List.drop_length]; rfl
    have hk : c.node.numKeys = es.length := by rw [hnode]; rfl
    rw [Cursor.advance]
    simp only [if_true, Cursor.exhausted, hk, decide_eq_true_eq]
    by_cases hnext : es.length ≤ c.index + 1 ∧ c.offset > c.minOffset
    · -- on to the next leaf
      have hi' : i + 1 < leaves.length := by omega
      have hes' := List.getElem?_eq_getElem hi'
      have hread : c.sst.readNode (c.offset - 1) = .ok (leafAt leaves[i + 1] (c.offset - 1)) := by
        have := hl.leaf (i + 1) _ hes'
        rw [← Nat.sub_sub, ← hoff] at this
        exact File.readNode_of_page (by omega) this
      rw [if_pos hnext, hread]
      refine ⟨_, rfl, ⟨xxh64, hl⟩, ⟨i + 1, _, hes', by simp only; omega, rfl, ?_, .inl ?_⟩, hmin⟩
      · rw [htail, List.drop_of_length_le hnext.1, List.nil_append, List.drop_zero,
          List.drop_eq_getElem_cons hi', List.flatten_cons]
      · exact List.length_pos_iff.mpr (hne _ (List.getElem_mem hi'))
    · rw [if_neg hnext]
      refine ⟨_, rfl, ⟨xxh64, hl⟩, ⟨i, es, hes, hoff, hnode, htail, ?_⟩, hmin⟩
      simp only
      omega

theorem Cursor.At.start {xxh64 : XXH64} {sst : File} (h : Layout xxh64 leaves sst)
    (hne : leaves ≠ []) (hes : ∀ es ∈ leaves, es ≠ []) :
    ∃ c, Cursor.start sst = .ok c ∧ c.At leaves leaves.flatten := by
  obtain ⟨root, hroot, htotal, hleafs⟩ := h.root
  have hlt := h.total_lt
  have hpos := List.length_pos_iff.mpr hne
  obtain ⟨es, ls, rfl⟩ := List.exists_cons_of_ne_nil hne
  have h0 := h.leaf 0 es rfl
  rw [Nat.sub_zero] at h0
  refine ⟨_, by
    rw [Cursor.start, File.readNode_of_page (by norm_num) hroot, ok_bind, htotal,
      File.readNode_of_page hlt h0, ok_bind], ⟨xxh64, h⟩, ⟨0, es, rfl, rfl, rfl, rfl, .inl ?_⟩, ?_⟩
  · exact List.length_pos_iff.mpr (hes es (by simp))
  · simp only [hleafs]

/-- The merge writes the slots, cut into leaves. -/
theorem mergeLeaves_eq {leaves' : List (List Entry)} {isLastLevel : Bool}
    (hne : ∀ es ∈ leaves, es ≠ []) (hne' : ∀ es ∈ leaves', es ≠ []) {fuel : ℕ} :
    ∀ {old new : Cursor} {lo ln : List Entry} {output : List Entry} {temp : List BTreeNode},
    old.At leaves lo → new.At leaves' ln → output.length < maxKeys →
    mergeLeaves isLastLevel fuel old new output temp =
      (mergeSlots isLastLevel fuel lo ln).map fun slots =>
        temp ++ (chunks maxKeys (output ++ slots)).map leafOf := by
  induction fuel with
  | zero => intros; rfl
  | succ fuel ih =>
    intro old new lo ln output temp ho hn hlen
    rw [mergeLeaves, mergeSlots, ho.entry, hn.entry]
    set x := mergeEntry isLastLevel (headEntry lo) (headEntry ln)
    obtain ⟨old', ho', hold⟩ := ho.advance hne x.2.1
    obtain ⟨new', hn', hnew⟩ := hn.advance hne' x.2.2
    simp only [ho', hn', ok_bind, hold.exhausted, hnew.exhausted]
    set lo' := after x.2.1 lo
    set ln' := after x.2.2 ln
    have hlen' : (output ++ [x.1]).length ≤ maxKeys := by
      rw [List.length_append, List.length_singleton]; omega
    have hne'' : output ++ [x.1] ≠ [] := by simp
    by_cases hdone : lo'.length + ln'.length = 0
    · have hl : lo' = [] := List.length_eq_zero_iff.mp (by omega)
      have hr : ln' = [] := List.length_eq_zero_iff.mp (by omega)
      rw [if_pos hdone, if_pos (.inr (by simp [hl, hr])), if_pos (by simp [hl, hr])]
      simp only [Except.map, chunks_of_length_le maxKeys_pos hne'' hlen', List.map_cons,
        List.map_nil]
    · have hnd : ¬ (lo'.isEmpty && ln'.isEmpty) = true := by
        rw [Bool.and_eq_true, List.isEmpty_iff, List.isEmpty_iff]
        rintro ⟨hl, hr⟩
        exact hdone (by rw [hl, hr]; rfl)
      rw [if_neg hdone, if_neg hnd]
      by_cases hfull : (output ++ [x.1]).length ≥ maxKeys
      · rw [if_pos (.inl hfull), ih hold hnew (by simpa using maxKeys_pos)]
        cases mergeSlots isLastLevel fuel lo' ln' with
        | error e => rfl
        | ok slots =>
          have hc := chunks_append_full maxKeys_pos (le_antisymm hlen' hfull) slots
          rw [List.append_assoc, List.singleton_append] at hc
          simp only [Except.map, ok_bind, hc, List.nil_append, List.map_cons, List.append_assoc,
            List.singleton_append]
      · rw [if_neg (not_or.mpr ⟨hfull, hnd⟩), ih hold hnew (not_le.mp hfull)]
        cases mergeSlots isLastLevel fuel lo' ln' with
        | error e => rfl
        | ok slots =>
          simp only [Except.map, ok_bind, List.append_assoc, List.singleton_append]

/-- The slots of a merge are never none. -/
theorem mergeSlots_ne_nil {isLastLevel : Bool} {fuel : ℕ} {old new slots : List Entry}
    (h : mergeSlots isLastLevel fuel old new = .ok slots) : slots ≠ [] := by
  cases fuel with
  | zero => cases h
  | succ fuel =>
    simp only [mergeSlots] at h
    split_ifs at h
    · cases h; exact List.cons_ne_nil _ _
    · obtain ⟨slots', -, h⟩ := bind_eq_ok.mp h
      cases h; exact List.cons_ne_nil _ _

theorem length_flatten_le (hle : ∀ es ∈ leaves, es.length ≤ maxKeys) :
    leaves.flatten.length ≤ maxKeys * leaves.length := by
  induction leaves with
  | nil => simp
  | cons es leaves ih =>
    have := hle es (by simp)
    have := ih fun e he => hle e (List.mem_cons_of_mem _ he)
    rw [List.flatten_cons, List.length_append, List.length_cons, Nat.mul_add]
    omega

theorem Layout.mergeFuel {xxh64 : XXH64} {sst : File} (h : Layout xxh64 leaves sst) :
    BTreeNode.mergeFuel sst = maxKeys * leaves.length := by
  obtain ⟨root, hroot, -, hleafs⟩ := h.root
  rw [BTreeNode.mergeFuel, File.readNode_of_page (by norm_num) hroot]
  simp only [hleafs]

theorem Layout.of_sstOf {xxh64 : XXH64} {es : List Entry} {sst : File} (hne : es ≠ [])
    (h : sstOf xxh64 es = .ok sst) : Layout xxh64 (chunks maxKeys es) sst :=
  .of_construct (fun hc => hne ((chunks_eq_nil maxKeys_pos).mp hc)) h

/-- Merging the files of two lists builds the file of the merged slots. -/
theorem mergeSsts_eq {xxh64 : XXH64} {a b : List Entry} {oldSst newSst : File} (isLastLevel : Bool)
    (ha : a ≠ []) (hb : b ≠ []) (hold : sstOf xxh64 a = .ok oldSst)
    (hnew : sstOf xxh64 b = .ok newSst) :
    ∃ fuel, a.length + b.length < fuel ∧ mergeSsts xxh64 oldSst newSst isLastLevel =
      (mergeSlots isLastLevel fuel a b >>= sstOf xxh64) := by
  have hla := Layout.of_sstOf ha hold
  have hlb := Layout.of_sstOf hb hnew
  have hca := fun es he => (mem_chunks (l := a) maxKeys_pos (c := es) he)
  have hcb := fun es he => (mem_chunks (l := b) maxKeys_pos (c := es) he)
  have hna : chunks maxKeys a ≠ [] := mt (chunks_eq_nil maxKeys_pos).mp ha
  have hnb : chunks maxKeys b ≠ [] := mt (chunks_eq_nil maxKeys_pos).mp hb
  obtain ⟨old, hold', hold⟩ := Cursor.At.start hla hna fun es he => (hca es he).1
  obtain ⟨new, hnew', hnew⟩ := Cursor.At.start hlb hnb fun es he => (hcb es he).1
  have h1 := length_flatten_le fun es he => (hca es he).2
  have h2 := length_flatten_le fun es he => (hcb es he).2
  rw [flatten_chunks maxKeys_pos] at hold hnew h1 h2
  refine ⟨BTreeNode.mergeFuel oldSst + BTreeNode.mergeFuel newSst + 1, ?_, ?_⟩
  · rw [hla.mergeFuel, hlb.mergeFuel]; omega
  · rw [mergeSsts_eq_construct, hold', hnew']
    simp only [ok_bind]
    rw [mergeLeaves_eq (fun es he => (hca es he).1) (fun es he => (hcb es he).1) hold hnew
      (by simpa using maxKeys_pos)]
    cases mergeSlots isLastLevel (BTreeNode.mergeFuel oldSst + BTreeNode.mergeFuel newSst + 1) a b
      <;> rfl

/-! ### Merging two maps -/

/-- Whether a list begins with the key; if not, it begins with a larger one. -/
def Begins (k : Uint32) (l : List Entry) : Bool → Prop
  | true => ∃ x l', l = x :: l' ∧ x.key = k
  | false => ∀ x ∈ l.head?, k < x.key

theorem Begins.findKey {k : Uint32} {l : List Entry} {c : Bool} (h : Begins k l c)
    (hs : SortedBy Entry.key l) :
    findKey Entry.key l k = if c then some (headEntry l) else none := by
  cases c with
  | true =>
    obtain ⟨x, l', rfl, hk⟩ := h
    rw [findKey_cons, if_pos hk]
    rfl
  | false =>
    refine findKey_eq_none.mpr fun e he => ?_
    cases l with
    | nil => cases he
    | cons x l =>
      have hx : k < x.key := h x rfl
      rcases List.mem_cons.mp he with rfl | he
      · exact hx.ne'
      · exact (hx.trans ((sortedBy_cons.mp hs).1 e he)).ne'

/-- A round takes the first entry `m` of the union off the lists that begin with its
key. A tombstone that the last level drops leaves a slot of zeros. -/
structure Takes (isLastLevel : Bool) (old new : List Entry) (m : Entry) (c d : Bool) : Prop where
  entry : mergeEntry isLastLevel (headEntry old) (headEntry new) =
    (if (headEntry old).value = Utils.tombStone ∧ isLastLevel ∧ c ∧ d then ⟨0, 0⟩ else m, c, d)
  union : mergeNewer Entry.key old new = m :: mergeNewer Entry.key (after c old) (after d new)
  length : (after c old).length + (after d new).length < old.length + new.length
  old : Begins m.key old c
  new : Begins m.key new d

theorem mergeEntry_nil_left {isLastLevel : Bool} (e : Entry) :
    mergeEntry isLastLevel (headEntry []) e = (e, false, true) := by
  have hv : Utils.invalidValue ≠ Utils.tombStone := by decide
  rw [headEntry_nil, mergeEntry, if_neg fun h => hv h.1, if_pos rfl]

theorem exists_takes (isLastLevel : Bool) {old new : List Entry}
    (hpos : 0 < old.length + new.length) (hkey : ∀ e ∈ old, e.key ≠ Utils.invalidValue) :
    ∃ m c d, Takes isLastLevel old new m c d := by
  cases old with
  | nil =>
    cases new with
    | nil => exact absurd hpos (lt_irrefl 0)
    | cons b new =>
      refine ⟨b, false, true, ?_, ?_, by simp [after], by simp [Begins], ⟨b, new, rfl, rfl⟩⟩
      · rw [mergeEntry_nil_left, if_neg (by simp)]
        rfl
      · rw [mergeNewer_nil_left]
        exact (congrArg _ (mergeNewer_nil_left _)).symm
  | cons a old =>
    have ha := hkey a List.mem_cons_self
    cases new with
    | nil =>
      refine ⟨a, true, false, ?_, ?_, by simp [after], ⟨a, old, rfl, rfl⟩, by simp [Begins]⟩
      · rw [headEntry_nil, headEntry_cons, mergeEntry, if_neg fun h => ha h.2.2.symm, if_neg ha,
          if_pos rfl, if_neg (by simp)]
      · rw [mergeNewer_nil_right]
        exact (congrArg _ (mergeNewer_nil_right _)).symm
    | cons b new =>
      -- the largest key of all marks the end of the newer list
      have hinv : b.key = Utils.invalidValue → a.key < b.key := fun h =>
        lt_of_le_of_ne (h ▸ Fin.le_last a.key) (h ▸ ha)
      rcases lt_trichotomy a.key b.key with hlt | heq | hgt
      · refine ⟨a, true, false, ?_, ?_, by simp [after], ⟨a, old, rfl, rfl⟩,
          by simpa [Begins] using hlt⟩
        · rw [headEntry_cons, headEntry_cons, mergeEntry, if_neg fun h => hlt.ne' h.2.2,
            if_neg ha, if_neg hlt.not_gt, if_pos hlt, ite_self, if_neg (by simp)]
        · rw [mergeNewer, if_neg hlt.not_gt, if_pos hlt]
          rfl
      · refine ⟨b, true, true, ?_, ?_, by simp [after]; omega, ⟨a, old, rfl, heq⟩,
          ⟨b, new, rfl, rfl⟩⟩
        · rw [headEntry_cons, headEntry_cons, mergeEntry]
          by_cases hdrop : a.value = Utils.tombStone ∧ isLastLevel
          · rw [if_pos ⟨hdrop.1, hdrop.2, heq.symm⟩, if_pos ⟨hdrop.1, hdrop.2, rfl, rfl⟩]
          · rw [if_neg fun h => hdrop ⟨h.1, h.2.1⟩, if_neg ha, if_neg fun h => (hinv h).ne heq,
              if_neg heq.not_gt, if_neg heq.not_lt, if_neg fun h => hdrop ⟨h.1, h.2.1⟩]
        · rw [mergeNewer, if_neg heq.not_gt, if_neg heq.not_lt]
          rfl
      · refine ⟨b, false, true, ?_, ?_, by simp [after], by simpa [Begins] using hgt,
          ⟨b, new, rfl, rfl⟩⟩
        · rw [headEntry_cons, headEntry_cons, mergeEntry, if_neg fun h => hgt.ne h.2.2,
            if_neg ha, if_neg fun h => (hinv h).not_gt hgt, if_pos hgt, if_neg (by simp)]
        · rw [mergeNewer, if_pos hgt]
          rfl

theorem mergeSlots_cons {isLastLevel : Bool} {fuel : ℕ} {old new slots : List Entry} {slot : Entry}
    {c d : Bool} (he : mergeEntry isLastLevel (headEntry old) (headEntry new) = (slot, c, d))
    (hnil : after c old = [] → after d new = [] → slots = [])
    (hrest : 0 < (after c old).length + (after d new).length →
      mergeSlots isLastLevel fuel (after c old) (after d new) = .ok slots) :
    mergeSlots isLastLevel (fuel + 1) old new = .ok (slot :: slots) := by
  rw [mergeSlots, he]
  simp only
  split_ifs with h0
  · obtain ⟨hl, hr⟩ := Nat.add_eq_zero_iff.mp h0
    rw [hnil (List.length_eq_zero_iff.mp hl) (List.length_eq_zero_iff.mp hr)]
  · rw [hrest (Nat.pos_of_ne_zero h0), ok_bind]

/-- On the last level no tombstone of the older map meets a key of the newer one. -/
def NoClash (isLastLevel : Bool) (old new : List Entry) : Prop :=
  isLastLevel → ∀ e ∈ old, e.value = Utils.tombStone → ∀ e' ∈ new, e'.key ≠ e.key

theorem NoClash.after {isLastLevel : Bool} {old new : List Entry} (h : NoClash isLastLevel old new)
    (c d : Bool) :
    NoClash isLastLevel (after c old) (after d new) :=
  fun hl e he hv e' he' => h hl e (mem_of_mem_after he) hv e' (mem_of_mem_after he')

theorem NoClash.entry {isLastLevel : Bool} {old new : List Entry} (h : NoClash isLastLevel old new)
    {m : Entry} {c d : Bool} (ht : Takes isLastLevel old new m c d) :
    mergeEntry isLastLevel (headEntry old) (headEntry new) = (m, c, d) := by
  rw [ht.entry, if_neg]
  rintro ⟨hv, hl, rfl, rfl⟩
  obtain ⟨a, old, rfl, ha⟩ := ht.old
  obtain ⟨b, new, rfl, hb⟩ := ht.new
  exact h hl a List.mem_cons_self hv b List.mem_cons_self (hb.trans ha.symm)

/-- Without a clash, and without the key that marks an exhausted list in the older
map, the slots are the union. -/
theorem mergeSlots_eq_mergeNewer {isLastLevel : Bool} {fuel : ℕ} : ∀ {old new : List Entry},
    old.length + new.length ≤ fuel → 0 < old.length + new.length →
    (∀ e ∈ old, e.key ≠ Utils.invalidValue) → NoClash isLastLevel old new →
    mergeSlots isLastLevel fuel old new = .ok (mergeNewer Entry.key old new) := by
  induction fuel with
  | zero => intro old new hf hp; omega
  | succ fuel ih =>
    intro old new hfuel hpos hkey hclash
    obtain ⟨m, c, d, ht⟩ := exists_takes isLastLevel hpos hkey
    have hlen := ht.length
    rw [ht.union]
    refine mergeSlots_cons (hclash.entry ht) (fun hl hr => ?_) fun hpos' => ?_
    · rw [hl, hr, mergeNewer_nil_left]
    · exact ih (by omega) hpos' (fun e he => hkey e (mem_of_mem_after he)) (hclash.after c d)

/-- Merging the files of two maps builds the file of their union. -/
theorem mergeSsts_union {xxh64 : XXH64} {a b : List Entry} {oldSst newSst : File}
    {isLastLevel : Bool} (ha : a ≠ []) (hb : b ≠ []) (hold : sstOf xxh64 a = .ok oldSst)
    (hnew : sstOf xxh64 b = .ok newSst) (hkey : ∀ e ∈ a, e.key ≠ Utils.invalidValue)
    (hclash : NoClash isLastLevel a b) : mergeSsts xxh64 oldSst newSst isLastLevel =
      sstOf xxh64 (mergeNewer Entry.key a b) := by
  obtain ⟨fuel, hfuel, hm⟩ := mergeSsts_eq isLastLevel ha hb hold hnew
  have hpos := List.length_pos_iff.mpr ha
  rw [hm, mergeSlots_eq_mergeNewer (by omega) (by omega) hkey hclash, ok_bind]

/-! ### Flush and compaction -/

/-- SST files built for a finite map: by a flush, or by merging two of them. -/
inductive Built (xxh64 : XXH64) : File → List Entry → Prop
  | flush {root : Node} {sst : File} (nonempty : AVLTree.entries root ≠ [])
      (sorted : SortedBy Entry.key (AVLTree.entries root))
      (keys : ∀ e ∈ AVLTree.entries root, e.key ≠ Utils.invalidValue)
      (built : constructInternalNodesAndWriteToFile xxh64
        (extractLeafNodesFromAvl root []) = .ok sst) :
      Built xxh64 sst (AVLTree.entries root)
  | merge {old new sst : File} {a b : List Entry} {isLastLevel : Bool} (ha : Built xxh64 old a)
      (hb : Built xxh64 new b) (clash : NoClash isLastLevel a b)
      (built : mergeSsts xxh64 old new isLastLevel = .ok sst) :
      Built xxh64 sst (mergeNewer Entry.key a b)

theorem mergeNewer_ne_nil {a b : List Entry} (hb : b ≠ []) : mergeNewer Entry.key a b ≠ [] := by
  obtain ⟨e, b, rfl⟩ := List.exists_cons_of_ne_nil hb
  cases a with
  | nil => rw [mergeNewer_nil_left]; exact List.cons_ne_nil _ _
  | cons c a => rw [mergeNewer]; split_ifs <;> exact List.cons_ne_nil _ _

/-- A file built for a map is the file of its entries. -/
theorem Built.sstOf {xxh64 : XXH64} {sst : File} {a : List Entry} (h : Built xxh64 sst a) :
    a ≠ [] ∧ SortedBy Entry.key a ∧ (∀ e ∈ a, e.key ≠ Utils.invalidValue) ∧
      MiniKvs.sstOf xxh64 a = .ok sst := by
  induction h with
  | flush nonempty sorted keys built => exact ⟨nonempty, sorted, keys, flush_eq xxh64 _ ▸ built⟩
  | merge ha hb clash built iha ihb =>
    obtain ⟨hna, hsa, hka, hfa⟩ := iha
    obtain ⟨hnb, hsb, hkb, hfb⟩ := ihb
    refine ⟨mergeNewer_ne_nil hnb, hsa.mergeNewer hsb, fun e he => ?_, ?_⟩
    · exact (mem_mergeNewer he).elim (hka e) (hkb e)
    · rwa [mergeSsts_union hna hnb hfa hfb hka clash] at built

/-- A compaction writes the file that a flush of the union would have written. -/
theorem mergeSsts_eq_flush {xxh64 : XXH64} {oldSst newSst : File} {a b : List Entry}
    (ha : Built xxh64 oldSst a) (hb : Built xxh64 newSst b) {root : Node}
    (hroot : SortedBy Entry.key (AVLTree.entries root))
    (hunion : ∀ k, findKey Entry.key (AVLTree.entries root) k =
      (findKey Entry.key b k).or (findKey Entry.key a k))
    (hrange : getTotalNumberOfNodes
      (chunks maxKeys (AVLTree.entries root)).length < 524288) :
    ∃ sst, mergeSsts xxh64 oldSst newSst false = .ok sst ∧
      constructInternalNodesAndWriteToFile xxh64 (extractLeafNodesFromAvl root []) = .ok sst := by
  obtain ⟨hna, hsa, hka, hfa⟩ := ha.sstOf
  obtain ⟨hnb, hsb, -, hfb⟩ := hb.sstOf
  have hentries : AVLTree.entries root = mergeNewer Entry.key a b :=
    hroot.ext (hsa.mergeNewer hsb) fun k => by rw [hunion, findKey_mergeNewer hsa hsb]
  have hclash : NoClash false a b := fun h => absurd h Bool.false_ne_true
  rw [mergeSsts_union hna hnb hfa hfb hka hclash, flush_eq, ← hentries]
  have hne : chunks maxKeys (AVLTree.entries root) ≠ [] := by
    rw [Ne, chunks_eq_nil maxKeys_pos, hentries]
    exact mergeNewer_ne_nil hnb
  obtain ⟨sst, hs, -⟩ := construct_spec xxh64 hne hrange
  exact ⟨sst, hs, hs⟩

/-- Key 1 of the older file is hidden by the newer one, key 2 comes from it. -/
theorem mergeSsts_eq_flush_two : ∃ oldSst newSst sst : File,
    mergeSsts ⟨fun _ => 0, fun _ _ => 0⟩ oldSst newSst false = .ok sst ∧
    constructInternalNodesAndWriteToFile ⟨fun _ => 0, fun _ _ => 0⟩ (extractLeafNodesFromAvl
      (.node 1 8 2 .null (.node 2 4294967294 1 .null .null)) []) = .ok sst := by
  have hbuilt : ∀ root : Node,
      (AVLTree.entries root).length = 1 ∨ (AVLTree.entries root).length = 2 →
      ∃ sst, constructInternalNodesAndWriteToFile ⟨fun _ => 0, fun _ _ => 0⟩
        (extractLeafNodesFromAvl root []) = .ok sst := by
    intro root hlen
    have hlen1 : (chunks maxKeys (AVLTree.entries root)).length = 1 := by
      rw [length_chunks maxKeys_pos, maxKeys]; omega
    have hne : chunks maxKeys (AVLTree.entries root) ≠ [] := by
      rw [← List.length_pos_iff, hlen1]; exact Nat.one_pos
    obtain ⟨sst, hs, -⟩ := construct_spec ⟨fun _ => 0, fun _ _ => 0⟩ hne (by rw [hlen1]; decide)
    exact ⟨sst, by rw [flush_eq, MiniKvs.sstOf]; exact hs⟩
  obtain ⟨oldSst, hold⟩ := hbuilt (.node 1 7 2 .null (.node 2 4294967294 1 .null .null)) (.inr rfl)
  obtain ⟨newSst, hnew⟩ := hbuilt (.node 1 8 1 .null .null) (.inl rfl)
  obtain ⟨sst, hs⟩ := @mergeSsts_eq_flush _ _ _ _ _
    (.flush (by decide) (by unfold SortedBy; decide) (by decide) hold)
    (.flush (by decide) (by unfold SortedBy; decide) (by decide) hnew)
    (.node 1 8 2 .null (.node 2 4294967294 1 .null .null))
    (by unfold SortedBy; decide)
    (by intro k; simp only [AVLTree.entries, List.nil_append, findKey_cons, findKey_nil]
        split_ifs <;> rfl)
    (by decide)
  exact ⟨oldSst, newSst, sst, hs⟩

end BTreeNode

end MiniKvs
