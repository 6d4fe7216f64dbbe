import MiniKvs.Sst.Merging
import MiniKvs.Sst.Reading

/-! The rounds of a merge. A round that takes an entry takes one that is still
unread, except that an exhausted newer file is asked for an entry as long as the
older one is at the invalid key. On the last level a tombstone of the older file
is dropped together with the newer entry of its key. -/

namespace MiniKvs

open Lib

namespace BTreeNode

/-! ### Reading the leaves of a file -/

/-- The entries of the node in a page. -/
def entriesAt (page : ℕ → Option PageData) (offset : ℕ) : List Entry :=
  (nodeAt page offset).entries.take (nodeAt page offset).numKeys

/-- The leaf entries of a file in leaf order. -/
def leafEntries (file : File) : List Entry :=
  let root := nodeAt file.page 1
  (List.range root.numOfLeafNodes).flatMap fun i =>
    entriesAt file.page (root.totalNumberOfNodes - i)

/-- The entries from the cursor's position to the end of the leaves. -/
def Cursor.unread (c : Cursor) : List Entry :=
  (c.node.entries.take c.node.numKeys).drop c.index ++
    (List.range (c.offset - c.minOffset)).flatMap fun i => entriesAt c.sst.page (c.offset - 1 - i)

/-- A file over non-empty leaves that hold these entries, in ascending order. -/
structure WellFormed (xxh64 : XXH64) (sst : File) (es : List Entry) : Prop where
  ascending : SortedBy Entry.key es
  layout : ∃ leaves, Layout xxh64 leaves sst ∧ leaves.flatten = es ∧
    ∀ l ∈ leaves, l ≠ [] ∧ l.length ≤ maxKeys

variable {xxh64 : XXH64} {leaves leaves' : List (List Entry)} {isLastLevel : Bool}
  {oldSst newSst sst : File} {a b lo ln : List Entry} {c old new : Cursor}

theorem WellFormed.of_sstOf (hne : a ≠ []) (hs : SortedBy Entry.key a)
    (h : sstOf xxh64 a = .ok sst) : WellFormed xxh64 sst a :=
  ⟨hs, _, .of_sstOf hne h, flatten_chunks maxKeys_pos a, fun _ hl => mem_chunks maxKeys_pos hl⟩

theorem Layout.entriesAt_leaf (hl : Layout xxh64 leaves sst) {i : ℕ} (hi : i < leaves.length) :
    entriesAt sst.page (getTotalNumberOfNodes leaves.length - i) = leaves[i] := by
  have hp := hl.leaf i _ (List.getElem?_eq_getElem hi)
  rw [entriesAt, nodeAt_of_page hp]
  exact List.take_length

theorem Layout.flatMap_entriesAt (hl : Layout xxh64 leaves sst) : ∀ {n i : ℕ},
    i + n = leaves.length →
    ((List.range n).flatMap fun j =>
      entriesAt sst.page (getTotalNumberOfNodes leaves.length - i - j)) = (leaves.drop i).flatten
  | 0, i, h => by
    rw [Nat.add_zero] at h
    rw [h, List.drop_length]; rfl
  | n + 1, i, h => by
    have hi : i < leaves.length := by omega
    have ih := hl.flatMap_entriesAt (n := n) (i := i + 1) (by omega)
    rw [List.range_succ_eq_map, List.flatMap_cons, List.flatMap_map, Nat.sub_zero,
      hl.entriesAt_leaf hi, List.drop_eq_getElem_cons hi, List.flatten_cons, ← ih]
    congr 2
    funext j
    congr 1
    omega

theorem Cursor.At.unread_eq (h : c.At leaves lo) : c.unread = lo := by
  obtain ⟨xxh64, hl⟩ := h.layout
  obtain ⟨i, es, hes, hoff, hnode, hrest, -⟩ := h.leaf
  have hi := leaves_length_pos hes
  have hmin := h.minOffset
  have htotal := getTotalNumberOfNodes_eq leaves.length
  have hrange := hl.flatMap_entriesAt (n := c.offset - c.minOffset) (i := i + 1) (by omega)
  have htake : c.node.entries.take c.node.numKeys = es := by
    rw [hnode]; exact List.take_length
  rw [Cursor.unread, htake, hrest, ← hrange]
  congr 2
  funext j
  congr 1
  omega

theorem flatMap_entries_leafOf (ls : List (List Entry)) :
    ((ls.map leafOf).flatMap fun leaf => leaf.entries.take leaf.numKeys) = ls.flatten := by
  induction ls with
  | nil => rfl
  | cons l ls ih =>
    rw [List.map_cons, List.flatMap_cons, ih, List.flatten_cons]
    congr 1
    exact List.take_length

/-- The leaves that the main loop of a merge writes. -/
def mergedLeaves (isLastLevel : Bool) (oldSst newSst : File) : Outcome (List BTreeNode) := do
  let old ← Cursor.start oldSst
  let new ← Cursor.start newSst
  mergeLeaves isLastLevel (mergeFuel oldSst + mergeFuel newSst + 1) old new [] []

theorem mergeSsts_eq_mergedLeaves (xxh64 : XXH64) (isLastLevel : Bool) (oldSst newSst : File) :
    mergeSsts xxh64 oldSst newSst isLastLevel =
      mergedLeaves isLastLevel oldSst newSst >>= constructInternalNodesAndWriteToFile xxh64 := by
  rw [mergeSsts_eq_construct, mergedLeaves]
  cases Cursor.start oldSst with
  | error e => rfl
  | ok old =>
    cases Cursor.start newSst with
    | error e => rfl
    | ok new => rfl

/-! ### One round -/

/-- The cursors after one iteration of the main loop. -/
def mergeRound (isLastLevel : Bool) (old new : Cursor) : Outcome (Cursor × Cursor) := do
  let (_, takeOld, takeNew) := mergeEntry isLastLevel old.entry new.entry
  let old ← old.advance takeOld
  let new ← new.advance takeNew
  .ok (old, new)

/-- The main loop takes rounds until both cursors are exhausted. -/
theorem mergeLeaves_succ (fuel : ℕ) (output : List Entry) (temp : List BTreeNode) :
    mergeLeaves isLastLevel (fuel + 1) old new output temp = (do
      let (old', new') ← mergeRound isLastLevel old new
      let output := output ++ [(mergeEntry isLastLevel old.entry new.entry).1]
      let done := old'.exhausted && new'.exhausted
      if output.length ≥ maxKeys ∨ done then
        let temp := temp ++ [leafOf output]
        if done then .ok temp else mergeLeaves isLastLevel fuel old' new' [] temp
      else mergeLeaves isLastLevel fuel old' new' output temp) := by
  rw [mergeLeaves, mergeRound]
  simp only
  cases old.advance (mergeEntry isLastLevel old.entry new.entry).2.1 with
  | error e => rfl
  | ok old' =>
    cases new.advance (mergeEntry isLastLevel old.entry new.entry).2.2 with
    | error e => rfl
    | ok new' => rfl

theorem mergeRound_spec (isLastLevel : Bool) (ho : old.At leaves lo) (hn : new.At leaves' ln)
    (hne : ∀ l ∈ leaves, l ≠ []) (hne' : ∀ l ∈ leaves', l ≠ []) :
    ∃ old' new', mergeRound isLastLevel old new = .ok (old', new') ∧
      old'.At leaves (after (mergeEntry isLastLevel (headEntry lo) (headEntry ln)).2.1 lo) ∧
      new'.At leaves' (after (mergeEntry isLastLevel (headEntry lo) (headEntry ln)).2.2 ln) := by
  obtain ⟨old', ho', hold⟩ :=
    ho.advance hne (mergeEntry isLastLevel (headEntry lo) (headEntry ln)).2.1
  obtain ⟨new', hn', hnew⟩ :=
    hn.advance hne' (mergeEntry isLastLevel (headEntry lo) (headEntry ln)).2.2
  refine ⟨old', new', ?_, hold, hnew⟩
  rw [mergeRound, ho.entry, hn.entry]
  simp only [ho', hn', ok_bind]

/-! ### Termination -/

/-- The invalid key only occurs as a tombstone that the last level drops. -/
def Drains (isLastLevel : Bool) (old : List Entry) : Prop :=
  ∀ e ∈ old, e.key = Utils.invalidValue → isLastLevel = true ∧ e.value = Utils.tombStone

theorem Drains.after (h : Drains isLastLevel lo) (taken : Bool) :
    Drains isLastLevel (after taken lo) := fun e he => h e (mem_of_mem_after he)

/-- A round uses up an entry of one of the lists. -/
theorem Drains.round (h : Drains isLastLevel lo) (hpos : 0 < lo.length + ln.length) :
    (BTreeNode.after (mergeEntry isLastLevel (headEntry lo) (headEntry ln)).2.1 lo).length +
      (BTreeNode.after (mergeEntry isLastLevel (headEntry lo) (headEntry ln)).2.2 ln).length <
      lo.length + ln.length := by
  have hle : ∀ (taken : Bool) (l : List Entry), (BTreeNode.after taken l).length ≤ l.length := by
    intro taken l
    cases taken with
    | false => exact le_rfl
    | true => exact l.length_tail.trans_le (Nat.sub_le ..)
  have htake : ∀ (e : Entry) (l : List Entry),
      (BTreeNode.after true (e :: l)).length < (e :: l).length := fun e l => Nat.lt_succ_self _
  have hold : ∀ (d : Bool) {x : Entry} {l : List Entry}, lo = x :: l →
      (BTreeNode.after true lo).length + (BTreeNode.after d ln).length < lo.length + ln.length :=
    fun d x l hl => Nat.add_lt_add_of_lt_of_le (by rw [hl]; exact htake x l) (hle d ln)
  have hnew : ∀ (d : Bool) {x : Entry} {l : List Entry}, ln = x :: l →
      (BTreeNode.after d lo).length + (BTreeNode.after true ln).length < lo.length + ln.length :=
    fun d x l hl => Nat.add_lt_add_of_le_of_lt (hle d lo) (by rw [hl]; exact htake x l)
  cases hlo : lo with
  | nil =>
    cases hln : ln with
    | nil => rw [hlo, hln] at hpos; exact absurd hpos (lt_irrefl 0)
    | cons y ln' =>
      rw [mergeEntry_nil_left, ← hlo, ← hln]
      exact hnew false hln
  | cons x lo' =>
    rw [← hlo, mergeEntry]
    have hx : headEntry lo = x := by rw [hlo]; rfl
    rw [hx]
    split_ifs with h1 h2 h3 h4 h5
    · exact hold true hlo
    · -- the invalid key as a tombstone: the newer list is not exhausted yet
      obtain ⟨hlast, hv⟩ := h x (by rw [hlo]; exact List.mem_cons_self) h2
      cases hln : ln with
      | nil =>
        rw [hln] at h1
        exact absurd ⟨hv, hlast, h2.symm⟩ h1
      | cons y ln' =>
        rw [← hln]
        exact hnew false hln
    · exact hold false hlo
    · cases hln : ln with
      | nil => rw [hln] at h3; exact absurd rfl h3
      | cons y ln' =>
        rw [← hln]
        exact hnew false hln
    · exact hold false hlo
    · exact hold true hlo

theorem mergeSlots_succ (fuel : ℕ) (lo ln : List Entry) :
    mergeSlots isLastLevel (fuel + 1) lo ln =
      if (after (mergeEntry isLastLevel (headEntry lo) (headEntry ln)).2.1 lo).length +
          (after (mergeEntry isLastLevel (headEntry lo) (headEntry ln)).2.2 ln).length = 0 then
        .ok [(mergeEntry isLastLevel (headEntry lo) (headEntry ln)).1]
      else mergeSlots isLastLevel fuel
          (after (mergeEntry isLastLevel (headEntry lo) (headEntry ln)).2.1 lo)
          (after (mergeEntry isLastLevel (headEntry lo) (headEntry ln)).2.2 ln) >>= fun slots =>
        .ok ((mergeEntry isLastLevel (headEntry lo) (headEntry ln)).1 :: slots) := rfl

theorem Drains.mergeSlots {fuel : ℕ} : ∀ {lo ln : List Entry}, Drains isLastLevel lo →
    lo.length + ln.length ≤ fuel → 0 < lo.length + ln.length →
    ∃ slots, mergeSlots isLastLevel fuel lo ln = .ok slots := by
  induction fuel with
  | zero => intro lo ln _ hle hpos; omega
  | succ fuel ih =>
    intro lo ln h hle hpos
    have hround := h.round hpos
    rw [mergeSlots_succ]
    split_ifs with hdone
    · exact ⟨_, rfl⟩
    · obtain ⟨slots, hs⟩ := ih (h.after _) (by omega) (Nat.pos_of_ne_zero hdone)
      exact ⟨_, by rw [hs, ok_bind]⟩

/-- An entry with the invalid key that is not dropped is never taken. -/
theorem mergeSlots_stuck {e : Entry} (hk : e.key = Utils.invalidValue)
    (hv : ¬ (isLastLevel = true ∧ e.value = Utils.tombStone)) (fuel : ℕ) :
    ∀ {lo ln : List Entry}, e ∈ lo → mergeSlots isLastLevel fuel lo ln = .error .noReturn := by
  induction fuel with
  | zero => intros; rfl
  | succ fuel ih =>
    intro lo ln he
    have hafter : e ∈ after (mergeEntry isLastLevel (headEntry lo) (headEntry ln)).2.1 lo := by
      cases lo with
      | nil => exact absurd he (List.not_mem_nil)
      | cons x lo =>
        rcases List.mem_cons.mp he with rfl | he
        · have htake : (mergeEntry isLastLevel e (headEntry ln)).2.1 = false := by
            rw [mergeEntry, if_neg fun h => hv ⟨h.2.1, h.1⟩, if_pos hk]
          rw [headEntry_cons, htake]
          exact List.mem_cons_self
        · cases (mergeEntry isLastLevel (headEntry (x :: lo)) (headEntry ln)).2.1 with
          | false => exact List.mem_cons_of_mem x he
          | true => exact he
    rw [mergeSlots_succ, if_neg, ih hafter, error_bind]
    have := List.length_pos_of_mem hafter
    omega

/-- The cursors with which iterations of the main loop begin. -/
inductive Merging (isLastLevel : Bool) (oldSst newSst : File) : Cursor → Cursor → Prop
  | start {old new : Cursor} (hold : Cursor.start oldSst = .ok old)
      (hnew : Cursor.start newSst = .ok new) : Merging isLastLevel oldSst newSst old new
  | round {old new old' new' : Cursor} (before : Merging isLastLevel oldSst newSst old new)
      (step : mergeRound isLastLevel old new = .ok (old', new'))
      (go : (old'.exhausted && new'.exhausted) = false) :
      Merging isLastLevel oldSst newSst old' new'

/-- The main loop ends; each iteration uses up unread entries, and it is the last one
exactly when none is left. -/
structure MergeEnds (isLastLevel : Bool) (oldSst newSst : File) : Prop where
  returns : ∃ old new fuel temp, Cursor.start oldSst = .ok old ∧ Cursor.start newSst = .ok new ∧
    mergeLeaves isLastLevel fuel old new [] [] = .ok temp
  consumes : ∀ old new, Merging isLastLevel oldSst newSst old new →
    ∃ old' new', mergeRound isLastLevel old new = .ok (old', new') ∧
      old'.unread <:+ old.unread ∧ new'.unread <:+ new.unread ∧
      old'.unread.length + new'.unread.length < old.unread.length + new.unread.length ∧
      ((old'.exhausted && new'.exhausted) = true ↔ old'.unread = [] ∧ new'.unread = [])

theorem after_suffix (taken : Bool) (l : List Entry) : after taken l <:+ l := by
  cases taken with
  | false => exact List.suffix_rfl
  | true => exact l.tail_suffix

theorem Layout.flatten_pos (hl : Layout xxh64 leaves sst) (hne : ∀ l ∈ leaves, l ≠ []) :
    0 < leaves.flatten.length := by
  obtain ⟨l, ls, rfl⟩ := List.exists_cons_of_ne_nil (List.length_pos_iff.mp hl.length_pos)
  have hl := List.length_pos_iff.mpr (hne l List.mem_cons_self)
  rw [List.flatten_cons, List.length_append]
  omega

theorem Layout.cursor (hl : Layout xxh64 leaves sst) (hne : ∀ l ∈ leaves, l ≠ []) :
    ∃ c, Cursor.start sst = .ok c ∧ c.At leaves leaves.flatten :=
  Cursor.At.start hl (List.length_pos_iff.mp hl.length_pos) hne

/-- What stays true as long as the loop runs. -/
theorem Merging.at (hla : Layout xxh64 leaves oldSst) (hlb : Layout xxh64 leaves' newSst)
    (hne : ∀ l ∈ leaves, l ≠ []) (hne' : ∀ l ∈ leaves', l ≠ [])
    (hd : Drains isLastLevel leaves.flatten)
    (h : Merging isLastLevel oldSst newSst old new) :
    ∃ lo ln, old.At leaves lo ∧ new.At leaves' ln ∧ Drains isLastLevel lo ∧
      0 < lo.length + ln.length := by
  induction h with
  | start hold hnew =>
    obtain ⟨old, ho, hold'⟩ := hla.cursor hne
    obtain ⟨new, hn, hnew'⟩ := hlb.cursor hne'
    rw [hold, Except.ok.injEq] at ho
    rw [hnew, Except.ok.injEq] at hn
    subst ho hn
    exact ⟨_, _, hold', hnew', hd, Nat.add_pos_left (hla.flatten_pos hne) _⟩
  | round before step go ih =>
    obtain ⟨lo, ln, hold, hnew, hdrains, hpos⟩ := ih
    obtain ⟨old₁, new₁, hr, hold₁, hnew₁⟩ := mergeRound_spec isLastLevel hold hnew hne hne'
    rw [hr, Except.ok.injEq, Prod.mk.injEq] at step
    obtain ⟨rfl, rfl⟩ := step
    refine ⟨_, _, hold₁, hnew₁, hdrains.after _, ?_⟩
    rw [hold₁.exhausted, hnew₁.exhausted] at go
    by_contra hc
    have hzero := Nat.add_eq_zero_iff.mp (Nat.eq_zero_of_not_pos hc)
    rw [List.length_eq_zero_iff.mp hzero.1, List.length_eq_zero_iff.mp hzero.2] at go
    cases go

theorem MergeEnds.drains (h : MergeEnds isLastLevel oldSst newSst)
    (ha : WellFormed xxh64 oldSst a) (hb : WellFormed xxh64 newSst b) : Drains isLastLevel a := by
  obtain ⟨-, leaves, hla, rfl, hca⟩ := ha
  obtain ⟨-, leaves', hlb, rfl, hcb⟩ := hb
  have hne : ∀ l ∈ leaves, l ≠ [] := fun l hl => (hca l hl).1
  have hne' : ∀ l ∈ leaves', l ≠ [] := fun l hl => (hcb l hl).1
  obtain ⟨old, hold, hatold⟩ := hla.cursor hne
  obtain ⟨new, hnew, hatnew⟩ := hlb.cursor hne'
  obtain ⟨old', new', fuel, temp, ho, hn, hm⟩ := h.returns
  rw [hold, Except.ok.injEq] at ho
  rw [hnew, Except.ok.injEq] at hn
  subst ho hn
  intro e he hk
  by_contra hv
  rw [mergeLeaves_eq hne hne' hatold hatnew (by simpa using maxKeys_pos),
    mergeSlots_stuck hk hv fuel he] at hm
  cases hm

theorem Drains.mergeEnds (hd : Drains isLastLevel a) (ha : WellFormed xxh64 oldSst a)
    (hb : WellFormed xxh64 newSst b) : MergeEnds isLastLevel oldSst newSst := by
  obtain ⟨-, leaves, hla, rfl, hca⟩ := ha
  obtain ⟨-, leaves', hlb, rfl, hcb⟩ := hb
  have hne : ∀ l ∈ leaves, l ≠ [] := fun l hl => (hca l hl).1
  have hne' : ∀ l ∈ leaves', l ≠ [] := fun l hl => (hcb l hl).1
  refine ⟨?_, fun old₁ new₁ h => ?_⟩
  · obtain ⟨old, hold, hatold⟩ := hla.cursor hne
    obtain ⟨new, hnew, hatnew⟩ := hlb.cursor hne'
    obtain ⟨slots, hs⟩ := hd.mergeSlots (Nat.le_refl _)
      (Nat.add_pos_left (hla.flatten_pos hne) leaves'.flatten.length)
    exact ⟨old, new, leaves.flatten.length + leaves'.flatten.length,
      [] ++ (chunks maxKeys ([] ++ slots)).map leafOf, hold, hnew, by
        rw [mergeLeaves_eq hne hne' hatold hatnew (by simpa using maxKeys_pos), hs]; rfl⟩
  · obtain ⟨lo, ln, hat, hat', hdrains, hpos⟩ := Merging.at hla hlb hne hne' hd h
    obtain ⟨old₂, new₂, hr, hat₂, hat₂'⟩ := mergeRound_spec isLastLevel hat hat' hne hne'
    refine ⟨old₂, new₂, hr, ?_, ?_, ?_, ?_⟩
    · rw [hat₂.unread_eq, hat.unread_eq]; exact after_suffix _ _
    · rw [hat₂'.unread_eq, hat'.unread_eq]; exact after_suffix _ _
    · rw [hat₂.unread_eq, hat.unread_eq, hat₂'.unread_eq, hat'.unread_eq]
      exact hdrains.round hpos
    · rw [hat₂.unread_eq, hat₂'.unread_eq, hat₂.exhausted, hat₂'.exhausted, Bool.and_eq_true,
        List.isEmpty_iff, List.isEmpty_iff]

/-- The loop ends exactly when the older file has no entry with the invalid key, but
for a tombstone on the last level. -/
theorem mergeEnds_iff (ha : WellFormed xxh64 oldSst a) (hb : WellFormed xxh64 newSst b) :
    MergeEnds isLastLevel oldSst newSst ↔
      ∀ e ∈ a, e.key = Utils.invalidValue → isLastLevel = true ∧ e.value = Utils.tombStone :=
  ⟨fun h => h.drains ha hb, fun h => Drains.mergeEnds h ha hb⟩

theorem WellFormed.exists_of_short (xxh64 : XXH64) (hne : a ≠ []) (hs : SortedBy Entry.key a)
    (hlen : a.length ≤ maxKeys) : ∃ sst, sstOf xxh64 a = .ok sst ∧ WellFormed xxh64 sst a := by
  have hc := chunks_of_length_le maxKeys_pos hne hlen
  obtain ⟨sst, h, -⟩ := construct_spec xxh64 (List.cons_ne_nil a []) (by
    rw [List.length_singleton]; decide)
  have hsst : sstOf xxh64 a = .ok sst := by rw [sstOf, hc]; exact h
  exact ⟨sst, hsst, .of_sstOf hne hs hsst⟩

/-- The invalid key is a tombstone, the newer file goes past its last entry. -/
theorem mergeEnds_iff_tombstone : ∃ oldSst newSst, MergeEnds true oldSst newSst ∧
    sstOf ⟨fun _ => 0, fun _ _ => 0⟩ [⟨3, 1⟩, ⟨4294967295, 4294967294⟩] = .ok oldSst ∧
    sstOf ⟨fun _ => 0, fun _ _ => 0⟩ [⟨3, 2⟩, ⟨7, 1⟩] = .ok newSst := by
  obtain ⟨oldSst, hold, ha⟩ := WellFormed.exists_of_short ⟨fun _ => 0, fun _ _ => 0⟩
    (List.cons_ne_nil (⟨3, 1⟩ : Entry) [⟨4294967295, 4294967294⟩])
    (by unfold SortedBy; decide) (by decide)
  obtain ⟨newSst, hnew, hb⟩ := WellFormed.exists_of_short ⟨fun _ => 0, fun _ _ => 0⟩
    (List.cons_ne_nil (⟨3, 2⟩ : Entry) [⟨7, 1⟩]) (by unfold SortedBy; decide) (by decide)
  exact ⟨oldSst, newSst, (mergeEnds_iff ha hb).mpr (by decide), hold, hnew⟩

/-- The key with all bits set was put with a value. -/
theorem not_mergeEnds : ¬ ∀ (xxh64 : XXH64) (isLastLevel : Bool) (oldSst newSst : File)
    (a b : List Entry), WellFormed xxh64 oldSst a → WellFormed xxh64 newSst b →
    MergeEnds isLastLevel oldSst newSst := by
  intro h
  obtain ⟨oldSst, -, ha⟩ := WellFormed.exists_of_short ⟨fun _ => 0, fun _ _ => 0⟩
    (List.cons_ne_nil (⟨4294967295, 1⟩ : Entry) []) (by unfold SortedBy; decide) (by decide)
  obtain ⟨newSst, -, hb⟩ := WellFormed.exists_of_short ⟨fun _ => 0, fun _ _ => 0⟩
    (List.cons_ne_nil (⟨1, 1⟩ : Entry) []) (by unfold SortedBy; decide) (by decide)
  have hd := (h _ false oldSst newSst _ _ ha hb).drains ha hb
  exact absurd (hd ⟨4294967295, 1⟩ (by simp) rfl).1 Bool.false_ne_true

end BTreeNode

end MiniKvs
